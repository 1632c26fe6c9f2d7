import Xdp2.Pvbuf.AllocSpec
import Xdp2.Pvbuf.PullSlots

/-!
# What pulling up does

`__xdp2_pvbuf_pullup` and `__xdp2_pvbuf_pulltail` as wholes. Without compression, popping leaves a
free slot or a pvbuf at its end, never a leaf, so the pbuf can be put back.
-/

namespace Xdp2

open BitWord StateError ListEnd Memory

variable {c : MgrConfig} {mem : Mem} {refs : List Ref} {objs : List (Nat × Nat)} {st st' : PvSt}
  {pv pv' : Pvbuf} {copy : Bool} {depth n : Nat}

/-! ## What is left in the slot at the end -/

section
variable {f : PopFns} {i left : Nat}

theorem PvbufOf.isLeaf_clear (pv : Pvbuf) (i : Nat) : ((pv.clear i).get i).isLeaf = false := by
  simp only [PvbufOf.clear, PvbufOf.set, PvbufOf.get, List.getD]
  by_cases hi : i < pv.iovec.length
  · rw [List.getElem?_set_self hi]
    rfl
  · rw [List.getElem?_eq_none (by rw [List.length_set]; omega)]
    rfl

theorem PvbufOf.isLeaf_set_pvbuf (pv : Pvbuf) (i : Nat) (data_length : BitVec 32) (sub : Pvbuf) :
    ((pv.set i (.pvbuf data_length sub)).get i).isLeaf = false := by
  simp only [PvbufOf.set, PvbufOf.get, List.getD]
  by_cases hi : i < pv.iovec.length
  · rw [List.getElem?_set_self hi]
    rfl
  · rw [List.getElem?_eq_none (by rw [List.length_set]; omega)]
    rfl

theorem iovecUnsetEnt_isLeaf (h : (iovecUnsetEnt pv i).run st = .ok pv' st') :
    (pv'.get i).isLeaf = false := by
  obtain ⟨_, st1, -, h⟩ := run_bind_eq_ok h
  obtain ⟨set, st2, -, h⟩ := run_bind_eq_ok h
  obtain ⟨_, st3, -, h⟩ := run_bind_eq_ok h
  obtain ⟨_, st4, -, h⟩ := run_bind_eq_ok h
  cases h
  exact pv.isLeaf_clear i

theorem popFromKnown_isLeaf
    (h : (popFromKnown c f false copy pv i n data_length sub).run st = .ok (pv', left) st') :
    (pv'.get i).isLeaf = false := by
  rw [popFromKnown] at h
  split at h
  · cases copy with
    | false =>
      rw [if_neg Bool.false_ne_true] at h
      obtain ⟨_, st1, -, h⟩ := run_bind_eq_ok h
      obtain ⟨pv1, st2, hunset, h⟩ := run_bind_eq_ok h
      cases h
      exact iovecUnsetEnt_isLeaf hunset
    | true =>
      rw [if_pos rfl] at h
      obtain ⟨⟨sub', dropped⟩, st1, -, h⟩ := run_bind_eq_ok h
      obtain ⟨_, st2, -, h⟩ := run_bind_eq_ok h
      obtain ⟨_, st3, -, h⟩ := run_bind_eq_ok h
      obtain ⟨pv1, st4, hunset, h⟩ := run_bind_eq_ok h
      cases h
      exact iovecUnsetEnt_isLeaf hunset
  · obtain ⟨⟨sub', dropped⟩, st1, -, h⟩ := run_bind_eq_ok h
    obtain ⟨_, st2, -, h⟩ := run_bind_eq_ok h
    cases h
    exact pv.isLeaf_set_pvbuf i _ _

theorem popFromUnknown_isLeaf (h : (popFromUnknown f pv i n sub).run st = .ok (pv', left) st') :
    (pv'.get i).isLeaf = false := by
  rw [popFromUnknown] at h
  obtain ⟨⟨sub', dropped⟩, st1, -, h⟩ := run_bind_eq_ok h
  dsimp only at h
  split at h
  · obtain ⟨pv1, st2, hunset, h⟩ := run_bind_eq_ok h
    obtain ⟨_, st3, -, h⟩ := run_bind_eq_ok h
    cases h
    exact iovecUnsetEnt_isLeaf hunset
  · obtain ⟨_, st2, -, h⟩ := run_bind_eq_ok h
    split at h
    · obtain ⟨pv1, st3, hunset, h⟩ := run_bind_eq_ok h
      obtain ⟨_, st4, -, h⟩ := run_bind_eq_ok h
      cases h
      exact iovecUnsetEnt_isLeaf hunset
    · cases h
      exact pv.isLeaf_set_pvbuf i _ _

theorem popFromPvbufIovec_isLeaf
    (h : (popFromPvbufIovec c f false copy pv i n).run st = .ok (pv', left) st') :
    (pv'.get i).isLeaf = false := by
  rw [popFromPvbufIovec] at h
  split at h
  · rename_i data_length sub hget
    obtain ⟨_, st1, -, h⟩ := run_bind_eq_ok h
    split at h
    · exact popFromKnown_isLeaf h
    · exact popFromUnknown_isLeaf h
  · cases h

theorem popFromPaddrIovec_left
    (hshort : ∀ seg st1, (getPtrLen pv i).run st = .ok seg st1 → seg.len < n)
    (h : (popFromPaddrIovec c copy pv i n).run st = .ok (pv', left) st') : left ≠ 0 := by
  obtain ⟨seg, st1, hseg, h⟩ := run_bind_eq_ok h
  have hlt := hshort seg st1 hseg
  obtain ⟨_, st2, -, h⟩ := run_bind_eq_ok h
  dsimp only at h
  rw [if_pos (Nat.le_of_lt hlt)] at h
  obtain ⟨_, st3, -, h⟩ := run_bind_eq_ok h
  obtain ⟨pv1, st4, -, h⟩ := run_bind_eq_ok h
  cases h
  omega

theorem popTrailersFromPaddrIovec_left
    (hshort : ∀ seg st1, (getPtrLen pv i).run st = .ok seg st1 → seg.len < n)
    (h : (popTrailersFromPaddrIovec c copy pv i n).run st = .ok (pv', left) st') : left ≠ 0 := by
  obtain ⟨seg, st1, hseg, h⟩ := run_bind_eq_ok h
  have hlt := hshort seg st1 hseg
  obtain ⟨_, st2, -, h⟩ := run_bind_eq_ok h
  dsimp only at h
  rw [if_pos (Nat.le_of_lt hlt)] at h
  obtain ⟨_, st3, -, h⟩ := run_bind_eq_ok h
  obtain ⟨pv1, st4, -, h⟩ := run_bind_eq_ok h
  cases h
  omega

theorem assert_ok {cond : Bool} {u : Unit} (h : (assert cond label).run st = .ok u st') :
    st' = st ∧ cond = true := by
  rw [assert] at h
  split at h
  · cases h
    exact ⟨rfl, ‹_›⟩
  · cases h

theorem Popping.turn_eq_done (h : Popping.turn j p = .done q) :
    p.num_drop_bytes = 0 ∧ q = p := by
  rw [Popping.turn] at h
  split at h
  · cases h
    exact ⟨‹_›, rfl⟩
  · cases h

theorem popHdrsBody_isLeaf {p : Popping}
    (hshort : ∀ seg st1, (getPtrLen pv i).run st = .ok seg st1 → seg.len < n)
    (h : (popHdrsBody c f false copy i ⟨pv, n⟩).run st = .ok (.done p) st') :
    (p.pvbuf.get i).isLeaf = false := by
  obtain ⟨_, st1, hassert, hbody⟩ := run_bind_eq_ok h
  obtain ⟨rfl, -⟩ := assert_ok hassert
  dsimp only at hbody
  have hleaf : ∀ j, (do
      let r ← popFromPaddrIovec c copy pv i n
      return Popping.turn j ⟨r.1, r.2⟩).run st1 ≠ .ok (.done p) st' := by
    intro j hrun
    obtain ⟨⟨pv', left⟩, st2, hpop, hrun⟩ := run_bind_eq_ok hrun
    exact popFromPaddrIovec_left hshort hpop
      (Popping.turn_eq_done (EStateM.Result.ok.inj hrun).1).1
  split at hbody
  · obtain ⟨⟨pv', left⟩, st2, hpop, h⟩ := run_bind_eq_ok hbody
    obtain ⟨pv'', st3, hsingle, h⟩ := run_bind_eq_ok h
    rw [checkSingleAt, if_neg (by simp)] at hsingle
    cases hsingle
    rw [(Popping.turn_eq_done (EStateM.Result.ok.inj h).1).2]
    exact popFromPvbufIovec_isLeaf hpop
  · exact (hleaf _ hbody).elim
  · exact (hleaf _ hbody).elim
  · exact (hleaf _ hbody).elim

theorem popTrailersBody_isLeaf {p : Popping}
    (hshort : ∀ seg st1, (getPtrLenLast pv i).run st = .ok seg st1 → seg.len < n)
    (h : (popTrailersBody c f false copy i ⟨pv, n⟩).run st = .ok (.done p) st') :
    (p.pvbuf.get i).isLeaf = false := by
  obtain ⟨_, st1, hassert, hbody⟩ := run_bind_eq_ok h
  obtain ⟨rfl, hnull⟩ := assert_ok hassert
  dsimp only at hbody hnull
  have hleaf : ∀ j k, (∀ seg st2, (getPtrLen pv k).run st1 = .ok seg st2 → seg.len < n) → (do
      let r ← popTrailersFromPaddrIovec c copy pv k n
      return Popping.turn j ⟨r.1, r.2⟩).run st1 ≠ .ok (.done p) st' := by
    intro j k hshort hrun
    obtain ⟨⟨pv', left⟩, st2, hpop, hrun⟩ := run_bind_eq_ok hrun
    exact popTrailersFromPaddrIovec_left hshort hpop
      (Popping.turn_eq_done (EStateM.Result.ok.inj hrun).1).1
  split at hbody
  · obtain ⟨⟨pv', left⟩, st2, hpop, h⟩ := run_bind_eq_ok hbody
    rw [(Popping.turn_eq_done (EStateM.Result.ok.inj h).1).2]
    exact popFromPvbufIovec_isLeaf hpop
  · rename_i htag
    refine (hleaf _ _ (fun seg st2 hseg => hshort seg st2 ?_) hbody).elim
    rw [getPtrLenLast, if_pos (by simp [Iovec.isLongAddr, htag]), run_bind_ok (assert_run hnull _ st1)]
    exact hseg
  · rename_i htag
    refine (hleaf _ _ (fun seg st2 hseg => hshort seg st2 ?_) hbody).elim
    rw [getPtrLenLast, if_neg (by simp [Iovec.isLongAddr, htag])]
    exact hseg
  · rename_i htag
    refine (hleaf _ _ (fun seg st2 hseg => hshort seg st2 ?_) hbody).elim
    rw [getPtrLenLast, if_neg (by simp [Iovec.isLongAddr, htag])]
    exact hseg

end

theorem Iovec.isLeaf_of_isNull {x : Iovec} (h : x.isNull = true) : x.isLeaf = false := by
  cases x with
  | null => rfl
  | pvbuf _ _ | pbuf _ | short _ | long _ | long2 _ => cases h

section
variable (hwf : Wf (depth + 1) pv) (hown : Owns c mem st.mgr (segRefs pv.segs ++ refs) (pv.objs ++ objs))
  (hn : n ≠ 0)

include hwf hown hn

/-- **Popping more headers than the leaf in slot zero has leaves no leaf there.** -/
theorem popHdrs_isLeaf (hshort : ∀ seg st1, (getPtrLen pv 0).run st = .ok seg st1 → seg.len < n) :
    Returns (popHdrs c false copy (depth + 1) pv n) st fun r st' =>
      Popped c mem (Wf (depth + 1)) .front copy refs objs pv n st r st' ∧ (r.1.get 0).isLeaf = false := by
  obtain ⟨es, h⟩ := Holds.of_wf hwf hown
  rw [popHdrs]
  refine .step (paddrToAddr_run h.owns List.mem_cons_self st) ?_
  rw [if_neg hn]
  refine (popHdrs_loop (popHdrs_spec false copy depth) (pvbufFree_spec depth) h).bind ?_
  rintro p st' ⟨hdone, hslot⟩
  obtain ⟨r, st'', hrun, hpopped⟩ := popEnd_spec false hdone
  have hr : r = (p.pvbuf, n - p.num_drop_bytes) := (EStateM.Result.ok.inj hrun).1.symm
  refine ⟨r, st'', hrun, hpopped, ?_⟩
  rw [hr]
  rcases hslot with hnull | hturn
  · exact Iovec.isLeaf_of_isNull hnull
  · exact popHdrsBody_isLeaf hshort hturn

/-- **Popping more trailers than the leaf in the last slot has leaves no leaf there.** -/
theorem popTrailers_isLeaf
    (hshort : ∀ seg st1, (getPtrLenLast pv (pv.num - 1)).run st = .ok seg st1 → seg.len < n) :
    Returns (popTrailers c false copy (depth + 1) pv n) st fun r st' =>
      Popped c mem (Wf (depth + 1)) .back copy refs objs pv n st r st' ∧
        (r.1.get (r.1.num - 1)).isLeaf = false := by
  obtain ⟨es, h⟩ := Holds.of_wf hwf hown
  rw [popTrailers]
  refine .step (paddrToAddr_run h.owns List.mem_cons_self st) ?_
  rw [if_neg hn]
  refine (popTrailers_loop (popTrailers_spec false copy depth) (pvbufFree_spec depth) h).bind ?_
  rintro p st' ⟨hdone, hslot⟩
  obtain ⟨r, st'', hrun, hpopped⟩ := popEnd_spec false hdone
  have hr : r = (p.pvbuf, n - p.num_drop_bytes) := (EStateM.Result.ok.inj hrun).1.symm
  refine ⟨r, st'', hrun, hpopped, ?_⟩
  rw [PvbufOf.num_eq_of_obj hpopped.obj, hr]
  rcases hslot with hnull | hturn
  · exact Iovec.isLeaf_of_isNull hnull
  · exact popTrailersBody_isLeaf hshort hturn

end

/-! ## The bytes in the pbuf -/

theorem collect_returns (h : Returns pop { st with out := [] } Q) :
    Returns (collect pop) st fun r st' =>
      ∃ st1, Q r.1 st1 ∧ r.2 = st1.out ∧ st' = { st1 with out := st.out } := by
  obtain ⟨r, st1, hrun, hQ⟩ := h
  refine ⟨(r, st1.out), { st1 with out := st.out }, ?_, st1, hQ, rfl, rfl⟩
  rw [collect, run_bind_ok (run_get st)]
  dsimp only
  rw [run_bind_ok (run_modify st _), run_bind_ok hrun]
  rfl

theorem Owns.write (h : Owns c mem m refs objs) (offset : Nat) (bytes : List UInt8) (b : Nat) :
    Owns c (mem.write offset bytes (.pbuf b)) { m with mem := m.mem.write offset bytes (.pbuf b) } refs
      objs where
  refcnt := h.refcnt
  single := h.single
  range := h.range
  pbufs := h.pbufs
  pvbufs := h.pvbufs
  short := h.short
  long := h.long
  pbuf r hr o ho := by
    have hsame := h.pbuf r hr o ho
    simp only [Mem.write, Function.update_apply]
    split
    · rename_i hb
      rw [← hb, copy, copy, hsame]
    · exact hsame

section
variable {a : PbufAddr} {bytes : List UInt8}

theorem segBytes_write_of_alone (hfits : (Seg.pbuf a).Fits) (hroom : start + bytes.length ≤ a.dataLen)
    (hsegs : ∀ s ∈ segs, s.Fits) (halone : ∀ k, ⟨a.btag, a.zindex, k⟩ ∉ segRefs segs) :
    segBytes (mem.write ((Seg.pbuf a).offset + start) bytes (Seg.pbuf a).place) segs =
      segBytes mem segs := by
  refine segBytes_congr fun s hs p o hhas => Mem.read_write_of_not_has mem hroom fun hin => ?_
  obtain ⟨rfl, hz⟩ := hin.zindex hfits
  cases s with
  | pbuf b =>
    obtain ⟨hp, hz'⟩ := hhas.zindex (hsegs _ hs)
    have hb : a.btag = b.btag := Region.pbuf.inj hp
    refine halone b.one_ref (List.mem_flatMap.mpr ⟨_, hs, List.mem_singleton.mpr ?_⟩)
    rw [PbufAddr.sizeShift, hb, ← PbufAddr.sizeShift, hz'] at hz
    rw [PbufAddr.ref, hb, hz]
  | short b => cases hhas.1
  | long b b' => cases hhas.1

theorem Owns.alone (h : Owns c mem m (a.ref :: refs) objs) (hone : m.refcnt a.btag a.zindex = 1) :
    ∀ k, ⟨a.btag, a.zindex, k⟩ ∉ refs := by
  have hcount := h.refcnt a.btag a.zindex
  rw [hone] at hcount
  change 1 = _ at hcount
  have hmem : ⟨a.btag, a.zindex, false⟩ ∈ a.ref :: refs := List.count_pos_iff.mp (by omega)
  have hnot : ⟨a.btag, a.zindex, true⟩ ∉ a.ref :: refs := fun ht => (h.single _ _ ht).2 hmem
  have href : a.ref = ⟨a.btag, a.zindex, false⟩ := by
    cases hk : a.one_ref with
    | false => rw [PbufAddr.ref, hk]
    | true => exact (hnot (by rw [PbufAddr.ref, hk]; exact List.mem_cons_self)).elim
  rw [href, List.count_cons_self] at hcount
  intro k hk
  cases k with
  | false => exact absurd (List.count_pos_iff.mpr hk) (by omega)
  | true => exact hnot (List.mem_cons_of_mem _ hk)

theorem Seg.bytes_write_end (hlen : start + bytes.length = a.dataLen) :
    (Seg.pbuf a).bytes (mem.write ((Seg.pbuf a).offset + start) bytes (Seg.pbuf a).place) =
      readBytes (mem.pbuf a.btag) a.offset.toNat start ++ bytes := by
  have hall : a.dataLen = ((Seg.pbuf a).bytes mem).length := (length_readBytes _ _ _).symm
  rw [Seg.bytes_write mem (.pbuf a) hlen.le, splice, List.drop_eq_nil_of_le (by omega),
    List.append_nil]
  congr 1
  exact take_readBytes _ _ (by show start ≤ a.dataLen; omega)

end

end Xdp2
