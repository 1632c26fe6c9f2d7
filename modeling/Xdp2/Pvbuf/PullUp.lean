import Xdp2.Pvbuf.PullSpec

/-!
# Pulling up headers

`__xdp2_pvbuf_pullup` as a whole. The first leaf has the bytes already (`pullup_here`), they go
behind the data of the first pbuf, which is taken out of the packet for that (`pullup_tailroom`), or
to a new pbuf (`pullupAlloc_spec`). The pbuf then becomes the first leaf (`pullupInto_spec`), and
the packet has its bytes again, provided its paddr can say how many it has
(`PulledInto.contents_eq`).
-/

namespace Xdp2

open BitWord StateError ListEnd Memory

variable {st : PvSt} {pv : Pvbuf} {a : PbufAddr}

/-! ## Bytes popped into a pbuf -/

/-- A pbuf of `n` bytes is the leaf at the end of a packet, and all of them but the first `start` come
from there. -/
structure PulledInto (c : MgrConfig) (mem : Mem) (side : Side) (refs : List Ref)
    (objs : List (Nat × Nat)) (a : PbufAddr) (n start : Nat) (pv : Pvbuf) (r : Pull) (st' : PvSt) :
    Prop where
  wf : ∃ depth, Wf depth r.pvbuf
  length : r.length = n
  segs : ∃ segs, r.pvbuf.segs = join side [.pbuf (a.setLen n)] segs ∧ (∀ s ∈ segs, s.Fits) ∧
    segBytes mem segs = keep side (n - start) (pv.contents mem) ∧ segRefs segs ⊆ segRefs pv.segs
  owns : Owns c (mem.write ((Seg.pbuf a).offset + start) (part side (n - start) (pv.contents mem))
    (Seg.pbuf a).place) st'.mgr (segRefs r.pvbuf.segs ++ refs) (r.pvbuf.objs ++ objs)

/-- The program is aborted by an assertion. -/
def Aborts {α : Type} (m : PvM α) (st : PvSt) : Prop :=
  ∃ label st', m.run st = .error (.assertion label) st'

section
variable {α β : Type}

theorem Aborts.step (hm : m.run st = .ok r st') (hk : Aborts (k r) st') :
    Aborts (m >>= k) st := by
  obtain ⟨label, st'', hrun⟩ := hk
  exact ⟨label, st'', by rw [run_bind_ok hm, hrun]⟩

theorem Aborts.bind (h : Aborts m st) : Aborts (m >>= k) st := by
  obtain ⟨label, st'', hrun⟩ := h
  exact ⟨label, st'', run_bind_error hrun⟩

end

theorem pbufFree_pvbuf_free (c : MgrConfig) (a : PbufAddr) :
    Along (fun s s' : PvSt => s'.mgr.pvbuf_free = s.mgr.pvbuf_free) (pbufFree c a) := by
  have hfree : ∀ b z, Along (fun s s' : PvSt => s'.mgr.pvbuf_free = s.mgr.pvbuf_free)
      (freePbufByIndex c b z) := fun b z =>
    Along.bind (fun _ _ _ h h' => h'.trans h) (Along.ite (fun _ => rfl) fun _ => rfl) fun _ _ => rfl
  refine Along.bind (fun _ _ _ h h' => h'.trans h) (fun _ => rfl) fun s => Along.ite ?_ ?_
  · exact Along.bind (fun _ _ _ h h' => h'.trans h) (Along.ite (fun _ => rfl) fun _ => rfl)
      fun _ => hfree _ _
  · exact Along.bind (fun _ _ _ h h' => h'.trans h) (fun _ => rfl) fun _ =>
      Along.ite (fun _ => rfl) (hfree _ _)

theorem Popped.collected (h : Popped c mem P side true refs objs pv n st0 r st')
    (hout : st0.out = []) :
    st'.out = part side n (pv.contents mem) := by
  rw [h.out, hout, emit, if_pos rfl, nil_join]

section
variable (hwf : Wf (depth + 1) pv)
  (hown : Owns c mem st.mgr (segRefs pv.segs ++ a.ref :: refs) (pv.objs ++ objs))

include hwf hown

/-- **The headers are popped into the pbuf, which becomes the first leaf.** Without compression, a leaf
in slot zero has to be too short. -/
theorem pullupInto_spec (hfits : (Seg.pbuf (a.setLen n)).Fits) (hstart : start < n)
    (hn : n - start ≤ (pv.contents mem).length)
    (hshort : compress = false → ∀ seg st0 st1, (getPtrLen pv 0).run st0 = .ok seg st1 →
      seg.len < n - start) :
    Outcome (pullupInto c compress (depth + 1) pv a n start) st (fun r st' =>
      (r.ptr = none ∧ ∃ size, st'.mgr.pvbuf_free size = []) ∨
        (r.ptr = some (Seg.pbuf a).ptr ∧ PulledInto c mem .front refs objs a n start pv r st'))
      (HollowRead compress) := by
  have hown0 : Owns c mem ({ st with out := [] } : PvSt).mgr (segRefs pv.segs ++ a.ref :: refs)
      (pv.objs ++ objs) := hown
  have hpop : Returns (popHdrs c compress true (depth + 1) pv (n - start)) { st with out := [] }
      fun r st' => Popped c mem (Wf (depth + 1)) .front true (a.ref :: refs) objs pv (n - start)
        { st with out := [] } r st' ∧ (compress = false → (r.1.get 0).isLeaf = false) := by
    cases compress with
    | true =>
      exact (popHdrs_spec true true (depth + 1) hwf hown0).mono fun r st' h =>
        ⟨h, fun hc => by cases hc⟩
    | false =>
      refine (popHdrs_isLeaf hwf hown0 (by omega) fun seg st1 => hshort rfl seg _ st1).mono ?_
      exact fun r st' h => ⟨h.1, fun _ => h.2⟩
  rw [pullupInto]
  refine (collect_returns hpop).andThen ?_
  rintro ⟨⟨pv', dropped⟩, copied⟩ st' ⟨st1, ⟨hp, hfirst⟩, hcopied, rfl⟩
  dsimp only at hp hfirst hcopied ⊢
  obtain rfl : copied = part .front (n - start) (pv.contents mem) := hcopied.trans (hp.collected rfl)
  obtain rfl : dropped = n - start := hp.dropped.trans (by omega)
  refine .step (run_modify _ _) (.step (assert_run ?_ _ _) ?_)
  · rw [length_part, Nat.min_eq_left hn, decide_eq_true rfl]
  rw [Nat.sub_add_cancel (Nat.le_of_lt hstart)]
  have hown' := hp.owns.write ((Seg.pbuf a).offset + start)
    (part .front (n - start) (pv.contents mem)) a.btag
  refine Outcome.bind (prependPbufPullup_spec compress hfits hp.wf hfirst hown' (by omega)) ?_
  rintro ⟨pv2, ok⟩ st2 ⟨-, -, hput⟩
  cases ok with
  | true =>
    obtain ⟨hwf2, -, hsegs, hown2⟩ := hput
    exact .pure (.inr ⟨rfl, hwf2, rfl, ⟨_, hsegs, hp.wf.fits, hp.contents, hp.kept⟩, hown2⟩)
  | false =>
    obtain ⟨⟨refs', objs', hheld⟩, size, hnone⟩ := hput
    refine ((pbufFree_spec hheld).and_along (pbufFree_pvbuf_free c a)).andThen ?_
    rintro - st3 ⟨-, hsame⟩
    exact .pure (.inl ⟨rfl, size, by rw [hsame, hnone]⟩)

/-- **A packet with fewer bytes ends in the assertion** that as many have been copied as were asked
for. -/
theorem pullupInto_short (hn : (pv.contents mem).length < n - start) :
    Aborts (pullupInto c compress (depth + 1) pv a n start) st := by
  have hpop : Returns (popHdrs c compress true (depth + 1) pv (n - start)) { st with out := [] } _ :=
    popHdrs_spec compress true (depth + 1) hwf hown
  obtain ⟨⟨⟨pv', dropped⟩, copied⟩, st', hrun, st1, hp, hcopied, rfl⟩ := collect_returns hpop
  have hlen : copied = part .front (n - start) (pv.contents mem) := hcopied.trans (hp.collected rfl)
  have hfalse : decide (n - start = copied.length) = false := by
    rw [hlen, length_part, Nat.min_eq_right (Nat.le_of_lt hn)]
    exact decide_eq_false (by omega)
  rw [pullupInto]
  refine .step hrun (.step (run_modify _ _) (.bind ?_))
  exact ⟨_, _, assert_fail hfalse _ _⟩

end

/-- **The packet has its bytes again**, with those that were there before in the pbuf. -/
theorem PulledInto.contents_eq (h : PulledInto c mem side refs objs a n start pv r st')
    (hfits : (Seg.pbuf (a.setLen n)).Fits) (hlen : (a.setLen n).dataLen = n) (hstart : start ≤ n)
    (hn : n - start ≤ (pv.contents mem).length)
    (halone : ∀ k, ⟨a.btag, a.zindex, k⟩ ∉ segRefs pv.segs) :
    (Seg.pbuf (a.setLen n)).bytes st'.mgr.mem =
      readBytes (mem.pbuf a.btag) a.offset.toNat start ++ part side (n - start) (pv.contents mem) ∧
    r.pvbuf.contents st'.mgr.mem = join side (readBytes (mem.pbuf a.btag) a.offset.toNat start ++
      part side (n - start) (pv.contents mem)) (keep side (n - start) (pv.contents mem)) := by
  obtain ⟨⟨depth, hwf⟩, -, ⟨segs, hsegs, hfit, hbytes, hkept⟩, hown⟩ := h
  have hend : start + (part side (n - start) (pv.contents mem)).length = (a.setLen n).dataLen := by
    rw [length_part, hlen]
    omega
  obtain ⟨mem', hmem'⟩ : ∃ mem', mem' = mem.write ((Seg.pbuf a).offset + start)
    (part side (n - start) (pv.contents mem)) (Seg.pbuf a).place := ⟨_, rfl⟩
  have hleaf : (Seg.pbuf (a.setLen n)).bytes mem' = readBytes (mem.pbuf a.btag) a.offset.toNat start ++
      part side (n - start) (pv.contents mem) := by
    rw [hmem']
    exact Seg.bytes_write_end hend
  have hrest : segBytes mem' segs = segBytes mem segs := by
    rw [hmem']
    exact segBytes_write_of_alone (a := a.setLen n) hfits hend.le hfit fun k hk => halone k (hkept hk)
  rw [← hmem'] at hown
  have hmem := hown.contents_eq hwf
  rw [hsegs] at hown
  have hperm : (segRefs (join side [Seg.pbuf (a.setLen n)] segs) ++ refs).Perm
      ((Seg.pbuf (a.setLen n)).refs ++ (segRefs segs ++ refs)) :=
    List.perm_iff_count.mpr fun r => by
      simp only [List.count_append, count_segRefs_join, segRefs_cons, segRefs_nil, List.append_nil,
        Nat.add_assoc]
  refine ⟨((hown.perm hperm (.refl _)).bytes_eq hfits).trans hleaf, hmem.trans ?_⟩
  rw [PvbufOf.contents, hsegs, ← hbytes, ← hrest, ← hleaf]
  cases side <;> simp [join, segBytes_append]

/-! ## The new pbuf -/

/-- What a caller relies on: the packet has the bytes it had, and the first `n` of them lie at the
pointer, which is the data of the first leaf. -/
structure PulledUp (B : List UInt8) (n : Nat) (r : Pull) (ptr : Ptr) (st' : PvSt) : Prop where
  wf : ∃ depth, Wf depth r.pvbuf
  contents : r.pvbuf.contents st'.mgr.mem = B
  bytes : ptr.bytes st'.mgr.mem n = B.take n
  first : ∃ s segs, r.pvbuf.segs = s :: segs ∧ s.ptr = ptr

/-- The pbuf or a pvbuf could not be had. -/
def PullNoMem (c : MgrConfig) (n : Nat) (st st' : PvSt) : Prop :=
  (∃ st1, (pbufAlloc c n false).run st = .ok none st1) ∨ ∃ size, st'.mgr.pvbuf_free size = []

/-- What a call does: a pointer that is returned is what the caller relies on unless something is lost,
and none is returned only if an allocation failed. -/
def PullupDone (c : MgrConfig) (B : List UInt8) (n : Nat) (lost : Prop) (st : PvSt) (r : Pull)
    (st' : PvSt) : Prop :=
  (∀ ptr, r.ptr = some ptr → (PulledUp B n r ptr st' ↔ ¬ lost)) ∧ (r.ptr = none → PullNoMem c n st st')

theorem PullupDone.of_some (hptr : r.ptr = some ptr) (h : PulledUp B n r ptr st' ↔ ¬ lost) : PullupDone c B n lost st r st' := by
  refine ⟨fun ptr' hptr' => ?_, fun hnone => ?_⟩
  · rw [hptr] at hptr'
    obtain rfl := Option.some.inj hptr'
    exact h
  · rw [hptr] at hnone
    cases hnone

theorem PullupDone.of_none (hptr : r.ptr = none) (h : PullNoMem c n st st') : PullupDone c B n lost st r st' := by
  refine ⟨fun ptr hptr' => ?_, fun _ => h⟩
  rw [hptr] at hptr'
  cases hptr'

/-- What a run may fail with: the fault of the pbuf's allocation, or that of dissolving a hollow
pvbuf. -/
def PullFault (c : MgrConfig) (compress : Bool) (n : Nat) (st : PvSt) (e : Fault) : Prop :=
  (∃ st1, (pbufAlloc c n false).run st = .error e st1) ∨ HollowRead compress e

theorem PulledInto.pulledUp (h : PulledInto c mem .front refs objs a n start pv r st')
    (hfits : (Seg.pbuf (a.setLen n)).Fits) (hlen : (a.setLen n).dataLen = n) (hstart : start ≤ n)
    (hn : n - start ≤ (pv.contents mem).length)
    (halone : ∀ k, ⟨a.btag, a.zindex, k⟩ ∉ segRefs pv.segs)
    (hB : B = readBytes (mem.pbuf a.btag) a.offset.toNat start ++ pv.contents mem) :
    PulledUp B n r (Seg.pbuf a).ptr st' := by
  obtain ⟨hbytes, hcontents⟩ := h.contents_eq hfits hlen hstart hn halone
  obtain ⟨segs, hsegs, -⟩ := h.segs
  refine ⟨h.wf, ?_, ?_, _, segs, hsegs, rfl⟩
  · rw [hcontents, hB]
    simp [join, part, keep]
  · have hptr : (Seg.pbuf a).ptr.bytes st'.mgr.mem n = (Seg.pbuf (a.setLen n)).bytes st'.mgr.mem := by
      show _ = readBytes _ _ (a.setLen n).dataLen
      rw [hlen]
      rfl
    rw [hptr, hbytes, hB, List.take_append, length_readBytes, part,
      List.take_of_length_le (l := readBytes _ _ _) (by rw [length_readBytes]; exact hstart)]

section
variable (hwf : Wf (depth + 1) pv)
  (hown : Owns c st.mgr.mem st.mgr (segRefs pv.segs ++ refs) (pv.objs ++ objs))

include hwf hown

/-- **The headers go to a new pbuf.** -/
theorem pullupAlloc_spec (hpos : 0 < n) (hn : n ≤ (pv.contents st.mgr.mem).length)
    (hshort : compress = false → ∀ seg st0 st1, (getPtrLen pv 0).run st0 = .ok seg st1 →
      seg.len < n) :
    Outcome (pullupAlloc c compress (depth + 1) pv n) st
      (PullupDone c (pv.contents st.mgr.mem) n False st) (PullFault c compress n st) := by
  have halloc : Outcome (pbufAlloc c n false) st _ (AllocFault c) :=
    pbufAlloc_spec hown fun h => by cases h
  rw [pullupAlloc]
  cases hrun : (pbufAlloc c n false).run st with
  | error e st1 => exact .inr ⟨e, st1, run_bind_error hrun, .inl ⟨st1, hrun⟩⟩
  | ok r st1 =>
    refine .step hrun ?_
    obtain ⟨-, hmem, ⟨rfl, -⟩ | ⟨a, rfl, hown', halone, hroom⟩⟩ := halloc.of_ok hrun
    · exact .pure (.of_none rfl (.inl ⟨st1, hrun⟩))
    · obtain ⟨hlen, hfits⟩ := hroom rfl
      have hown1 : Owns c st.mgr.mem st1.mgr (segRefs pv.segs ++ a.ref :: refs) (pv.objs ++ objs) :=
        hown'.perm List.perm_middle.symm (.refl _)
      refine ((pullupInto_spec hwf hown1 hfits hpos hn hshort).weaken fun e => .inr).mono ?_
      rintro r st' (⟨hnone, hsize⟩ | ⟨hptr, hinto⟩)
      · exact .of_none hnone (.inr hsize)
      · refine .of_some hptr (iff_of_true ?_ not_false)
        exact hinto.pulledUp hfits hlen (Nat.zero_le n) hn
          (fun k hk => halone k (List.mem_append_left _ hk)) rfl

end

/-- **A packet with fewer bytes than asked for ends in the assertion.** -/
theorem pullupAlloc_short (hwf : Wf (depth + 1) pv)
    (hown : Owns c st.mgr.mem st.mgr (segRefs pv.segs ++ refs) (pv.objs ++ objs))
    (hn : (pv.contents st.mgr.mem).length < n)
    (hrun : (pbufAlloc c n false).run st = .ok (some a) st1) :
    Aborts (pullupAlloc c compress (depth + 1) pv n) st := by
  have halloc : Outcome (pbufAlloc c n false) st _ (AllocFault c) :=
    pbufAlloc_spec hown fun h => by cases h
  obtain ⟨-, -, ⟨hnone, -⟩ | ⟨b, hsome, hown', -⟩⟩ := halloc.of_ok hrun
  · cases hnone
  · obtain rfl := Option.some.inj hsome
    have hown1 : Owns c st.mgr.mem st1.mgr (segRefs pv.segs ++ a.ref :: refs) (pv.objs ++ objs) :=
      hown'.perm List.perm_middle.symm (.refl _)
    rw [pullupAlloc]
    exact .step hrun (pullupInto_short hwf hown1 hn)

/-! ## The first slot in use -/

theorem Holds.first (h : Holds c mem P m pv es refs objs) (hmap : pv.iovec_map ≠ 0) :
    ∃ q e es2, es = gaps q ++ [e] ++ es2 ∧ e ≠ .gap ∧ find pv.iovec_map = q ∧ q < pv.num := by
  rcases find_cases pv.iovec_map with ⟨-, hq⟩ | ⟨-, hnone⟩
  · obtain ⟨e, es2, rfl, hne⟩ := Slots.first (p := 0) h.slots hq
    refine ⟨_, e, es2, by simp, hne, rfl, ?_⟩
    have hlen := h.slots.length
    have hpos := e.slots_length_pos
    simp only [entrySlots_append, entrySlots_gaps, entrySlots_cons, List.length_append,
      List.length_replicate] at hlen
    omega
  · exact (hmap (BitVec.eq_of_getLsbD_eq fun k _ => (hnone k).trans BitVec.getLsbD_zero.symm)).elim

theorem Slots.leaf_at_zero (h : Slots pv (entrySlots (gaps q ++ [e] ++ es2))) (hne : e ≠ .gap)
    (hrun : (getPtrLen pv 0).run st0 = .ok s st1) : e = .seg s := by
  rw [entrySlots_mid, entrySlots_gaps] at h
  cases q with
  | zero =>
    rw [List.replicate_zero] at h
    cases e with
    | gap => exact (hne rfl).elim
    | sub data_length sub =>
      rw [getPtrLen, h.get_at (x := .pvbuf data_length sub) (i := 0) rfl] at hrun
      cases hrun
    | seg t =>
      rw [getPtrLen_run (i := 0) h rfl] at hrun
      cases hrun
      rfl
  | succ q =>
    have hs : Slots pv ([] ++ .null :: (List.replicate q .null ++ (e.slots ++ entrySlots es2))) := h
    rw [getPtrLen, hs.get_at (i := 0) rfl] at hrun
    cases hrun

theorem Slots.get_leaf (h : Slots pv (l1 ++ ((IovEntry.seg s).slots ++ l2))) (hq : l1.length = q) : (pv.get q).tag ≠ .pvbuf ∧ ∀ a, pv.get q = .pbuf a ↔ s = .pbuf a := by
  cases s with
  | pbuf b =>
    rw [h.get_at (x := .pbuf b) hq]
    exact ⟨fun h => (by cases h), fun a => by simp⟩
  | short b =>
    rw [h.get_at (x := .short b) hq]
    exact ⟨fun h => (by cases h), fun a => by simp⟩
  | long b b' =>
    rw [h.get_at (x := .long b) hq]
    exact ⟨fun h => (by cases h), fun a => by simp⟩

theorem PbufAddr.dataLen_setLen (a : PbufAddr) (hpos : 0 < n) (hle : n ≤ 2 ^ 20) :
    (a.setLen n).dataLen = if a.isFull = false ∧ n = 2 ^ 20 then 0 else n := by
  show (BitVec.ofNat 20 n - BitVec.ofNat 20 a.isFull.toNat).toNat + a.isFull.toNat = _
  rw [BitVec.toNat_sub, BitVec.toNat_ofNat, BitVec.toNat_ofNat]
  cases a.isFull with
  | true =>
    rw [if_neg (fun h => by cases h.1), Bool.toNat_true]
    omega
  | false =>
    rw [Bool.toNat_false]
    by_cases h : n = 2 ^ 20
    · rw [if_pos ⟨rfl, h⟩]
      omega
    · rw [if_neg fun hc => h hc.2]
      omega

theorem PbufAddr.sizeShift_le_twenty (a : PbufAddr) : a.sizeShift ≤ 20 := by
  have htag := a.buffer_tag.isLt
  rw [PbufAddr.sizeShift, PbufAddr.btag, PbufAddr.isFull, pbufNumSizeShifts]
  by_cases hfull : a.buffer_tag.toNat = 15
  · rw [decide_eq_true hfull, Bool.toNat_true]
    omega
  · rw [decide_eq_false hfull, Bool.toNat_false]
    omega

/-! ## The whole function -/

/-- The first pbuf of the packet has no other referrer and room for just the 2^20 bytes asked for: its
paddr has no such length. -/
def LengthLost (compress : Bool) (pv : Pvbuf) (n : Nat) (st : PvSt) : Prop :=
  compress = true ∧ n = 2 ^ 20 ∧ ∃ a, pv.get (find pv.iovec_map) = .pbuf a ∧ a.isFull = false ∧
    st.mgr.refcnt a.btag a.zindex = 1 ∧ a.pbufOffset + a.dataLen + n ≤ 2 ^ a.sizeShift

theorem pbufGetTailroom_run (hfits : (Seg.pbuf a).Fits) (st : PvSt) :
    (pbufGetTailroom a).run st = .ok (2 ^ a.sizeShift - (a.pbufOffset + a.dataLen)) st := by
  have hfit : a.pbufOffset + a.dataLen ≤ 2 ^ a.sizeShift := hfits
  rw [pbufGetTailroom, run_bind_ok (assert_run (decide_eq_true hfit) _ st),
    run_bind_ok (assert_run (decide_eq_true hfit) _ st)]
  rfl

theorem pullupTailroom_run (compress : Bool) (hfits : ∀ a, iovec = .pbuf a → (Seg.pbuf a).Fits)
    (n : Nat) (st : PvSt) :
    ∃ r, (pullupTailroom compress iovec n).run st = .ok r st ∧ ∀ a, r = some a ↔ compress = true ∧
      iovec = .pbuf a ∧ st.mgr.refcnt a.btag a.zindex = 1 ∧
      a.pbufOffset + a.dataLen + n ≤ 2 ^ a.sizeShift := by
  cases iovec with
  | pbuf a =>
    have hfit : a.pbufOffset + a.dataLen ≤ 2 ^ a.sizeShift := hfits a rfl
    rw [pullupTailroom]
    cases compress with
    | false => exact ⟨none, rfl, fun b => by simp⟩
    | true =>
      have hrefcnt : (pbufGetRefcnt a).run st = .ok (st.mgr.refcnt a.btag a.zindex) st := rfl
      rw [if_pos rfl, run_bind_ok hrefcnt]
      by_cases hone : st.mgr.refcnt a.btag a.zindex = 1
      · rw [if_pos hone, run_bind_ok (pbufGetTailroom_run (hfits a rfl) st)]
        refine ⟨_, rfl, fun b => ⟨fun h => ?_, ?_⟩⟩
        · split at h
          · obtain rfl := Option.some.inj h
            exact ⟨rfl, rfl, hone, by omega⟩
          · cases h
        · rintro ⟨-, heq, -, hroom⟩
          obtain rfl := Iovec.pbuf.inj heq
          exact if_pos (by omega)
      · rw [if_neg hone]
        refine ⟨none, rfl, fun b => ⟨fun h => (by cases h), ?_⟩⟩
        rintro ⟨-, heq, hone', -⟩
        obtain rfl := Iovec.pbuf.inj heq
        exact (hone hone').elim
  | null | pvbuf _ _ | short _ | long _ | long2 _ => exact ⟨none, rfl, fun b => by simp⟩

/-- **The headers go behind the data of the first pbuf.** Its length is lost if the paddr cannot say
it. -/
theorem pullup_tailroom
    (h : Holds c st.mgr.mem (Wf depth) st.mgr pv (gaps q ++ [.seg (.pbuf a)] ++ es2) refs objs)
    (hone : st.mgr.refcnt a.btag a.zindex = 1)
    (hroom : a.pbufOffset + a.dataLen + n ≤ 2 ^ a.sizeShift) (hshort : a.dataLen < n)
    (hn : n ≤ (pv.contents st.mgr.mem).length) :
    Outcome (pullupInto c true (depth + 1) (pv.clear q) a n a.dataLen) st
      (PullupDone c (pv.contents st.mgr.mem) n (a.isFull = false ∧ n = 2 ^ 20) st)
      (PullFault c true n st) := by
  have hout := h.take_out (x := .pbuf a) (i := q) rfl (by simp)
  have hB : pv.contents st.mgr.mem =
      (Seg.pbuf a).bytes st.mgr.mem ++ (pv.clear q).contents st.mgr.mem := by
    rw [PvbufOf.contents, PvbufOf.contents, h.slots.segs_eq, hout.slots.segs_eq]
    simp [IovEntry.segs]
  have hlenB := congrArg List.length hB
  rw [List.length_append, Seg.length_bytes] at hlenB
  change _ = a.dataLen + _ at hlenB
  have hle : n ≤ 2 ^ 20 := by
    have hpow : 2 ^ a.sizeShift ≤ 2 ^ 20 := Nat.pow_le_pow_right (by decide) a.sizeShift_le_twenty
    omega
  have hlen := a.dataLen_setLen (Nat.zero_lt_of_lt hshort) hle
  have hfits : (Seg.pbuf (a.setLen n)).Fits := by
    show a.pbufOffset + (a.setLen n).dataLen ≤ 2 ^ a.sizeShift
    rw [hlen]
    split <;> omega
  have hheld : Owns c st.mgr.mem st.mgr (segRefs (pv.clear q).segs ++ a.ref :: refs)
      ((pv.clear q).objs ++ objs) := hout.owns_segs
  have halone := (hheld.perm List.perm_middle (.refl _)).alone hone
  refine ((pullupInto_spec hout.wf hheld hfits hshort (by omega) fun hc => by cases hc).weaken
    fun e => .inr).mono ?_
  rintro r st' (⟨hnone, hsize⟩ | ⟨hptr, hinto⟩)
  · exact .of_none hnone (.inr hsize)
  · refine .of_some hptr ⟨?_, fun hlost => ?_⟩
    · -- a pbuf without a length has none of the bytes popped
      intro hup hlost
      obtain ⟨segs, hsegs, -, hkeep, -⟩ := hinto.segs
      have hcount := congrArg List.length hup.contents
      have hrest := congrArg List.length hkeep
      rw [length_keep, length_segBytes] at hrest
      rw [PvbufOf.contents, hsegs, length_segBytes] at hcount
      have hzero : (Seg.pbuf (a.setLen n)).len = 0 := hlen.trans (if_pos hlost)
      simp only [join, List.singleton_append, segsLen, List.map_cons, List.sum_cons, hzero] at hcount hrest
      omega
    · rw [if_neg hlost] at hlen
      exact hinto.pulledUp hfits hlen (Nat.le_of_lt hshort) (by omega)
        (fun k hk => halone k (List.mem_append_left _ hk)) hB

theorem Wf.exists_succ (hwf : Wf depth pv) : ∃ d, depth = d + 1 := by
  cases depth with
  | zero => exact hwf.elim
  | succ d => exact ⟨d, rfl⟩

theorem Wf.iovec_map_ne_zero (hwf : Wf depth pv) (mem : Mem) (h : pv.contents mem ≠ []) : pv.iovec_map ≠ 0 := by
  intro hmap
  refine h ?_
  have hfind : pv.num ≤ find pv.iovec_map := by
    rcases find_cases pv.iovec_map with ⟨-, hq⟩ | ⟨heq, -⟩
    · have hset := hq.set
      rw [hmap] at hset
      simp at hset
    · rw [heq]
      exact pv.num_le
  rw [PvbufOf.contents, hwf.segs_eq_nil hfind]
  rfl

theorem PbufAddr.dataLen_lt (hfull : a.isFull = false) : a.dataLen < 2 ^ 20 := by
  rw [PbufAddr.dataLen, hfull, Bool.toNat_false]
  exact a.data_length.isLt

/-- **The first leaf has the bytes.** -/
theorem pullup_here (h : Holds c st.mgr.mem P m pv (gaps q ++ [.seg s] ++ es2) refs objs)
    (hwf : Wf depth pv) (hn : n ≤ s.len) :
    PulledUp (pv.contents st.mgr.mem) n ⟨pv, some s.ptr, s.len⟩ s.ptr st := by
  have hsegs : pv.segs = s :: entrySegs es2 := by
    rw [h.slots.segs_eq]
    simp [IovEntry.segs]
  refine ⟨⟨depth, hwf⟩, rfl, ?_, s, _, hsegs, rfl⟩
  rw [PvbufOf.contents, hsegs, segBytes_cons, List.take_append_of_le_length (by simpa using hn),
    Seg.bytes, take_readBytes _ _ hn, Seg.region_eq]
  rfl

section
variable (compress : Bool) (hwf : Wf depth pv)
  (hown : Owns c st.mgr.mem st.mgr (segRefs pv.segs ++ refs) (pv.objs ++ objs))

include hwf hown

theorem pullup_spec (hpos : 0 < n) (hn : n ≤ (pv.contents st.mgr.mem).length) :
    Outcome (pullup c compress depth pv n) st
      (PullupDone c (pv.contents st.mgr.mem) n (LengthLost compress pv n st) st)
      (PullFault c compress n st) := by
  obtain ⟨depth, rfl⟩ := hwf.exists_succ
  have hmap : pv.iovec_map ≠ 0 := hwf.iovec_map_ne_zero st.mgr.mem fun h => by
    rw [h] at hn
    exact Nat.not_le_of_lt hpos hn
  obtain ⟨es, h⟩ := Holds.of_wf hwf hown
  obtain ⟨q, e, es2, rfl, hne, hfind, hlt⟩ := h.first hmap
  have hs := h.slots
  rw [entrySlots_mid] at hs
  have hq : (entrySlots (gaps q)).length = q := by simp
  -- where a new pbuf takes the bytes, nothing is lost
  have halloc : (∀ seg, e = .seg seg → seg.len < n) → ¬ LengthLost compress pv n st →
      Outcome (pullupAlloc c compress (depth + 1) pv n) st
        (PullupDone c (pv.contents st.mgr.mem) n (LengthLost compress pv n st) st)
        (PullFault c compress n st) := by
    intro hshort hlost
    rw [eq_false hlost]
    exact pullupAlloc_spec hwf hown hpos hn fun _ seg st0 st1 hrun =>
      hshort seg (h.slots.leaf_at_zero hne hrun)
  rw [pullup]
  refine .step (paddrToAddr_run h.owns List.mem_cons_self st) ?_
  rw [hfind]
  dsimp only
  rw [if_neg (Nat.not_le_of_lt hlt)]
  cases e with
  | gap => exact (hne rfl).elim
  | sub data_length sub =>
    have hget : pv.get q = .pvbuf data_length sub := hs.get_at hq
    rw [if_pos (by rw [hget]; rfl)]
    refine halloc (fun seg hseg => by cases hseg) ?_
    rintro ⟨-, -, a, ha, -⟩
    rw [hfind, hget] at ha
    cases ha
  | seg s =>
    have hfits : s.Fits := h.ok (.seg s) (by simp)
    obtain ⟨htag, hget⟩ := hs.get_leaf hq
    rw [if_neg htag]
    refine .step (getPtrLen_run hs hq st) ?_
    split
    · rename_i hle
      refine .pure (.of_some rfl (iff_of_true (pullup_here h hwf hle) ?_))
      rintro ⟨-, rfl, a, ha, hfull, -⟩
      rw [hfind] at ha
      obtain rfl := (hget a).mp ha
      exact Nat.not_lt_of_le hle (a.dataLen_lt hfull)
    · rename_i hshort
      obtain ⟨r, hrun, hr⟩ := pullupTailroom_run compress
        (fun a ha => by rw [(hget a).mp ha] at hfits; exact hfits) n st
      refine .step hrun ?_
      cases r with
      | some a =>
        obtain ⟨rfl, ha, hone, hroom⟩ := (hr a).mp rfl
        obtain rfl := (hget a).mp ha
        dsimp only
        refine .step (iovecUnsetEnt_run hs hq rfl st) ?_
        have hlost : LengthLost true pv n st = (a.isFull = false ∧ n = 2 ^ 20) := by
          refine propext ⟨?_, fun hc => ⟨rfl, hc.2, a, by rw [hfind, ha], hc.1, hone, hroom⟩⟩
          rintro ⟨-, hsize, b, hb, hfull, -⟩
          rw [hfind, ha] at hb
          obtain rfl := Iovec.pbuf.inj hb
          exact ⟨hfull, hsize⟩
        rw [hlost]
        exact pullup_tailroom h hone hroom (Nat.lt_of_not_le hshort) hn
      | none =>
        refine halloc (fun seg hseg => ?_) ?_
        · obtain rfl := IovEntry.seg.inj hseg
          exact Nat.lt_of_not_le hshort
        · rintro ⟨rfl, -, a, ha, -, hone, hroom⟩
          rw [hfind] at ha
          have hsome := (hr a).mpr ⟨rfl, ha, hone, hroom⟩
          cases hsome

end

/-! ## Two packets -/

/-- A manager with a pbuf to spare. -/
def spareConfig : MgrConfig := { smallConfig with pbuf_max_objs := fun b => if b = 0 then 2 else 0 }

def spareState : PvSt :=
  { smallState with mgr.pbuf_free := fun b => if b = 0 then [1] else [] }

theorem mixedPacket_spare : Owns spareConfig spareState.mgr.mem spareState.mgr
    (segRefs mixedPacket.segs ++ []) (mixedPacket.objs ++ []) where
  refcnt := mixedPacket_owns.refcnt
  single := mixedPacket_owns.single
  range r hr := by
    have hrefs : segRefs mixedPacket.segs ++ [] = [⟨0, 0, true⟩] := by decide
    rw [hrefs] at hr
    cases List.mem_singleton.mp hr
    decide
  pbufs b z := by
    have hrefs : segRefs mixedPacket.segs ++ [] = [⟨0, 0, true⟩] := by decide
    rw [hrefs]
    by_cases hb : b = 0
    · subst hb
      match z with
      | 0 => exact (if_neg fun hc => hc.2 true List.mem_cons_self).symm
      | 1 => exact (if_pos ⟨by decide, fun k hk => by cases List.mem_singleton.mp hk⟩).symm
      | z + 2 => exact (if_neg fun hc => absurd hc.1 (by simp [spareConfig])).symm
    · simp [spareState, spareConfig, hb]
  pvbufs := mixedPacket_owns.pvbufs
  short := rfl
  long := rfl
  pbuf _ _ _ _ := rfl

/-- A manager with one pbuf of 2^20 bytes and one pvbuf. -/
def wideConfig : MgrConfig where
  pbuf_max_objs b := if b = 14 then 1 else 0
  pvbuf_max_objs size := if size = 0 then 1 else 0
  pvbuf_max_objs_le size := by split <;> decide
  default_pvbuf_size := 0
  default_pvbuf_size_lt := zero_lt_pvbuf_sizes

/-- An empty pbuf, and 2^20 bytes at a long address. -/
def widePacket : Pvbuf where
  pvbuf_size := 0
  index := 0
  iovec_map := 0b111
  iovec := [.pbuf ⟨false, 14, 0, 0⟩, .long ⟨0x100000, 0, 5⟩, .long2 ⟨0⟩, .null, .null, .null, .null]

def wideState : PvSt where
  mgr := {
    mem := smallState.mgr.mem
    refcnt := fun b z => if b = 14 ∧ z = 0 then 1 else 0
    pbuf_free := fun _ => []
    pvbuf_free := fun _ => [] }

theorem widePacket_wf : Wf 1 widePacket := by
  refine ⟨[.seg (.pbuf ⟨false, 14, 0, 0⟩), .seg (.long ⟨0x100000, 0, 5⟩ ⟨0⟩), .gap, .gap, .gap, .gap],
    Slots.of_lt rfl rfl (by decide), ?_⟩
  intro e he
  simp only [List.mem_cons, List.not_mem_nil, or_false] at he
  rcases he with rfl | rfl | rfl | rfl | rfl | rfl
  · show _ ≤ _; decide
  · show _ ≤ _; decide
  all_goals trivial

theorem widePacket_owns : Owns wideConfig wideState.mgr.mem wideState.mgr
    (segRefs widePacket.segs ++ []) (widePacket.objs ++ []) := by
  have hrefs : segRefs widePacket.segs ++ [] = [⟨14, 0, false⟩] := by decide
  have hobjs : widePacket.objs ++ [] = [(0, 0)] := by decide
  rw [hrefs, hobjs]
  constructor
  · intro b z
    by_cases hz : b = 14 ∧ z = 0
    · obtain ⟨rfl, rfl⟩ := hz
      rfl
    · have hne : (⟨14, 0, false⟩ : Ref) ≠ ⟨b, z, false⟩ := fun h => hz (by cases h; exact ⟨rfl, rfl⟩)
      simp [wideState, hz, List.count_cons_of_ne hne]
  · intro b z hmem
    cases List.mem_singleton.mp hmem
  · intro r hmem
    cases List.mem_singleton.mp hmem
    decide
  · intro b z
    refine (if_neg ?_).symm
    rintro ⟨hlt, hnot⟩
    by_cases hb : b = 14
    · subst hb
      obtain rfl : z = 0 := Nat.lt_one_iff.mp hlt
      exact hnot false List.mem_cons_self
    · simp [wideConfig, hb] at hlt
  · intro size i
    by_cases hsize : size = 0
    · subst hsize
      cases i with
      | zero => rfl
      | succ i => simp [wideState, wideConfig]
    · have hne : ((0, 0) == (size, i)) = false := by simp [Ne.symm hsize]
      simp [wideState, wideConfig, hsize, List.count_cons, hne]
  · rfl
  · rfl
  · exact fun _ _ _ _ => rfl

end Xdp2
