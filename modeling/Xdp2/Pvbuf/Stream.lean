import Xdp2.Pvbuf.Runs

/-!
# Packets as byte strings

What a packet is for: a string of bytes that grows and shrinks at its ends. However pops and
insertions follow each other, the bytes of the packet, and those copied out of it, are those of the
string (`endRun_refines`), and no other packet that is held changes, though it may share the pbufs.
-/

namespace Xdp2

open StateError ListEnd

/-- An operation at an end of a packet. -/
inductive EndOp where
  | pop (side : Side) (compress copy : Bool) (length : Nat)
  | insert (side : Side) (compress : Bool) (arg : Arg)

namespace EndOp

/-- `__xdp2_pvbuf_pop_hdrs`, `__xdp2_pvbuf_pop_trailers`, `__xdp2_pvbuf_prepend_paddr` and
`__xdp2_pvbuf_append_paddr`, with whether they succeed. The recursion is as deep as the tree. -/
def exec (c : MgrConfig) (pv : Pvbuf) : EndOp → PvM (Pvbuf × Bool)
  | pop .front compress copy n => do return ((← popHdrs c compress copy pv.levels pv n).1, true)
  | pop .back compress copy n => do return ((← popTrailers c compress copy pv.levels pv n).1, true)
  | insert .front compress arg =>
    prependPaddr c compress arg.seg.paddr1 arg.seg.paddr2 arg.length pv.levels pv
  | insert .back compress arg =>
    appendPaddr c compress arg.seg.paddr1 arg.seg.paddr2 arg.length pv.levels pv

/-- What the caller gives away. -/
def refs : EndOp → List Ref
  | pop .. => []
  | insert _ _ arg => arg.leaf.refs

/-- The operation on a byte string, with what has been copied out of it. -/
def onBytes (mem : Mem) (ok : Bool) (s : List UInt8 × List UInt8) : EndOp → List UInt8 × List UInt8
  | pop side _ copy n => (keep side n s.1, emit side copy s.2 (part side n s.1))
  | insert side _ arg => (if ok then join side (arg.leaf.bytes mem) s.1 else s.1, s.2)

end EndOp

/-- The operations one after the other, with the success of each. -/
def endRun (c : MgrConfig) : List EndOp → Pvbuf → PvM (Pvbuf × List Bool)
  | [], pv => return (pv, [])
  | op :: ops, pv => do
    let r ← op.exec c pv
    let rs ← endRun c ops r.1
    return (rs.1, r.2 :: rs.2)

/-- The same on a byte string. -/
def bytesRun (mem : Mem) : List EndOp → List Bool → List UInt8 × List UInt8 → List UInt8 × List UInt8
  | op :: ops, ok :: oks, s => bytesRun mem ops oks (op.onBytes mem ok s)
  | _, _, s => s

/-- The packet is well-formed and has the bytes of `s`, and what is `left` of the gifts stays held. -/
def HasBytes (c : MgrConfig) (mem : Mem) (refs : List Ref) (objs : List (Nat × Nat))
    (s : List UInt8 × List UInt8) (pv : Pvbuf) (st : PvSt) : Prop :=
  (∃ depth, Wf depth pv) ∧ (pv.contents mem, st.out) = s ∧
    ∃ left, Owns c mem st.mgr (segRefs pv.segs ++ (left ++ refs)) (pv.objs ++ objs)

theorem Popped.hasBytes (h : Popped c mem (Wf depth) side copy refs objs pv n st r st') :
    HasBytes c mem refs objs
      (keep side n (pv.contents mem), emit side copy st.out (part side n (pv.contents mem))) r.1 st' :=
  ⟨⟨depth, h.wf⟩, Prod.ext h.contents h.out, [], h.owns⟩

theorem Inserted.hasBytes {mem : Mem} (h : Inserted c mem side depth a refs objs pv st r st') :
    HasBytes c mem refs objs
      (if r.2 then join side (a.bytes mem) (pv.contents mem) else pv.contents mem, st.out) r.1 st' := by
  refine ⟨⟨_, h.wf⟩, Prod.ext ?_ h.out, if r.2 then [] else a.refs, h.owns.perm ?_ (.refl _)⟩
  · rw [PvbufOf.contents, h.segs]
    cases r.2
    · rfl
    · cases side <;> simp [join, PvbufOf.contents]
  · refine List.perm_iff_count.mpr fun x => ?_
    rw [h.segs]
    cases r.2
    · rfl
    · simp only [if_true, List.count_append, count_segRefs_join, segRefs_cons, segRefs_nil, List.count_nil]
      omega

theorem EndOp.exec_spec {refs : List Ref} (op : EndOp) (hwf : Wf depth pv)
    (hown : Owns c mem st.mgr (segRefs pv.segs ++ (op.refs ++ refs)) (pv.objs ++ objs)) :
    Returns (op.exec c pv) st fun r st' =>
      HasBytes c mem refs objs (op.onBytes mem r.2 (pv.contents mem, st.out)) r.1 st' := by
  cases op with
  | pop side compress copy n =>
    cases side with
    | front =>
      exact (popHdrs_spec compress copy pv.levels hwf.levels hown).bind fun _ _ h => .pure h.hasBytes
    | back =>
      exact (popTrailers_spec compress copy pv.levels hwf.levels hown).bind fun _ _ h =>
        .pure h.hasBytes
  | insert side compress arg =>
    cases side with
    | front => exact (prependPaddr_spec compress arg pv.levels hwf.levels hown).mono fun _ _ h => h.hasBytes
    | back => exact (appendPaddr_spec compress arg pv.levels hwf.levels hown).mono fun _ _ h => h.hasBytes

theorem endRun_spec {ops : List EndOp} {s : List UInt8 × List UInt8}
    (h : HasBytes c mem (ops.flatMap EndOp.refs ++ refs) objs s pv st) :
    Returns (endRun c ops pv) st fun r st' =>
      r.2.length = ops.length ∧ HasBytes c mem refs objs (bytesRun mem ops r.2 s) r.1 st' := by
  induction ops generalizing pv st s with
  | nil => exact .pure ⟨rfl, h⟩
  | cons op ops ih =>
    obtain ⟨⟨depth, hwf⟩, rfl, left, hown⟩ := h
    -- what earlier operations did not take goes with what the caller keeps
    have hown' : Owns c mem st.mgr (segRefs pv.segs ++
        (op.refs ++ (ops.flatMap EndOp.refs ++ (left ++ refs)))) (pv.objs ++ objs) :=
      hown.perm (List.perm_iff_count.mpr fun x => by
        simp only [List.count_append, List.flatMap_cons]; omega) (.refl _)
    refine (op.exec_spec hwf hown').bind fun r st1 h1 => ?_
    obtain ⟨hwf1, hs1, left1, hown1⟩ := h1
    have hnext : HasBytes c mem (ops.flatMap EndOp.refs ++ refs) objs
        (op.onBytes mem r.2 (pv.contents mem, st.out)) r.1 st1 :=
      ⟨hwf1, hs1, left1 ++ left, hown1.perm (List.perm_iff_count.mpr fun x => by
        simp only [List.count_append]; omega) (.refl _)⟩
    exact (ih hnext).bind fun rs _ h2 => .pure ⟨congrArg Nat.succ h2.1, h2.2⟩

/-- **A packet is a byte string.** In any manager that keeps its books, any sequence of pops and
insertions at the ends of a packet returns. The packet then has the bytes that the same operations
leave of the string of its bytes, and those they copy have been copied; and the other packets have
the bytes they had. -/
theorem endRun_refines {ops : List EndOp} {others : List Pvbuf} {held : List PbufAddr}
    (hwf : ∀ q ∈ pv :: others, ∃ depth, Wf depth q)
    (hown : Owns c st.mgr.mem st.mgr
      (segRefs pv.segs ++ (ops.flatMap EndOp.refs ++ heldRefs others held)) (pv.objs ++ heldObjs others)) :
    ∃ pv' oks st', (endRun c ops pv).run st = .ok (pv', oks) st' ∧ oks.length = ops.length ∧
      (∃ depth, Wf depth pv') ∧
      (pv'.contents st'.mgr.mem, st'.out) =
        bytesRun st.mgr.mem ops oks (pv.contents st.mgr.mem, st.out) ∧
      ∀ q ∈ others, q.contents st'.mgr.mem = q.contents st.mgr.mem := by
  obtain ⟨r, st', hrun, hlen, ⟨depth, hwf'⟩, hs, left, hown'⟩ := endRun_spec
    ⟨hwf pv List.mem_cons_self, rfl, [], hown⟩
  refine ⟨r.1, r.2, st', hrun, hlen, ⟨depth, hwf'⟩, ?_, fun q hq => ?_⟩
  · rw [hown'.contents_eq hwf']
    exact hs
  · obtain ⟨_, hwfq⟩ := hwf q (List.mem_cons_of_mem _ hq)
    obtain ⟨l1, l2, rfl⟩ := List.append_of_mem hq
    have hq' : (heldRefs (l1 ++ q :: l2) held).Perm (segRefs q.segs ++ heldRefs (l1 ++ l2) held) :=
      heldRefs_perm List.perm_middle
    have hown'' : Owns c st.mgr.mem st'.mgr (segRefs q.segs ++
        (segRefs r.1.segs ++ left ++ heldRefs (l1 ++ l2) held)) (r.1.objs ++ heldObjs (l1 ++ q :: l2)) :=
      hown'.perm (List.perm_iff_count.mpr fun x => by
        have hcount := hq'.count_eq x
        simp only [List.count_append] at hcount ⊢
        omega) (.refl _)
    exact hown''.contents_eq hwfq

/-- Six headers are copied out of the packet, and two bytes put behind the rest. -/
theorem endRun_mixedPacket : ∃ pv' st',
    (endRun smallConfig [.pop .front true true 6, .insert .back true longArg] mixedPacket).run
        smallState = .ok (pv', [true, true]) st' ∧
      (pv'.contents st'.mgr.mem, st'.out) = ([18, 32, 33, 64, 65], [8, 9, 10, 11, 16, 17]) := by
  obtain ⟨pv', oks, st', hrun, -, -, hbytes, -⟩ := @endRun_refines mixedPacket smallConfig
    smallState [.pop .front true true 6, .insert .back true longArg] [] []
    (fun q hq => ⟨2, by rw [List.mem_singleton.mp hq]; exact mixedPacket_wf⟩) mixedPacket_owns
  obtain ⟨_, _, hboth⟩ : ∃ pv' st', (endRun smallConfig
      [.pop .front true true 6, .insert .back true longArg] mixedPacket).run smallState =
    .ok (pv', [true, true]) st' := ⟨_, _, rfl⟩
  cases hrun.symm.trans hboth
  exact ⟨pv', st', hrun, hbytes⟩

end Xdp2
