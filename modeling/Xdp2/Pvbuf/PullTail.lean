import Xdp2.Pvbuf.PullUp

/-!
# Pulling trailers

`__xdp2_pvbuf_pulltail` as a whole. If the last leaf (`findLastIovec_spec`) has the bytes, they stay
where they are. Otherwise they are popped into a new pbuf, from its end downwards, which becomes the
last leaf (`pulltailAlloc_spec`). A request for more bytes than there are is caught by the assertion
behind the pop.
-/

namespace Xdp2

open BitWord StateError ListEnd Memory

variable {st : PvSt} {pv : Pvbuf}

/-! ## The last leaf -/

theorem getPtrLenLast_isLeaf (h : (getPtrLenLast pv i).run st = .ok s st') :
    (pv.get i).isLeaf = true := by
  cases hget : pv.get i with
  | null =>
    have hnull : (!Iovec.null.isNull) = false := rfl
    rw [getPtrLenLast, hget, if_pos (by decide), run_bind_error (assert_fail hnull _ st)] at h
    cases h
  | pvbuf data_length sub =>
    rw [getPtrLenLast, hget, if_neg (by simp [Iovec.isLongAddr, Iovec.tag]), getPtrLen, hget] at h
    cases h
  | pbuf _ | short _ | long _ | long2 _ => rfl

/-- What the search finds: if a slot, that of the last leaf. It is the last slot if that is a leaf's. -/
structure LastLeaf (pv : Pvbuf) (r : Option (Pvbuf × Nat)) : Prop where
  last : ∀ owner i, r = some (owner, i) → ∃ seg segs, pv.segs = segs ++ [seg] ∧
    ∀ st, (getPtrLenLast owner i).run st = .ok seg st
  slot : (pv.get (pv.num - 1)).isLeaf = true → r = some (pv, pv.num - 1)

theorem Slots.last_isLeaf (h : Slots pv (entrySlots (es1 ++ [e] ++ gaps k)))
    (hq : q + 1 = (entrySlots es1).length + e.slots.length)
    (hleaf : (pv.get (pv.num - 1)).isLeaf = true) : q = pv.num - 1 := by
  have hlen := h.length
  rw [entrySlots_mid, entrySlots_gaps, List.length_append, List.length_append,
    List.length_replicate] at hlen
  cases k with
  | zero => omega
  | succ k =>
    rw [gaps_succ', ← List.append_assoc, entrySlots_append] at h
    have hlen' := h.length
    rw [List.length_append] at hlen'
    have hend : (entrySlots [IovEntry.gap]).length = 1 := rfl
    rw [Slots.get_at (x := .null) h (by omega)] at hleaf
    cases hleaf

theorem getPtrLenLast_run (h : Slots pv (entrySlots es1 ++ ((IovEntry.seg s).slots ++ l)))
    (hq : q + 1 = (entrySlots es1).length + (IovEntry.seg s).slots.length) (st : PvSt) :
    (getPtrLenLast pv q).run st = .ok s st := by
  cases s with
  | pbuf b =>
    obtain rfl : q = (entrySlots es1).length := by simpa [IovEntry.slots] using hq
    have hget := h.get_at (x := .pbuf b) rfl
    rw [getPtrLenLast, hget, if_neg (by simp [Iovec.isLongAddr, Iovec.tag])]
    exact getPtrLen_run h rfl st
  | short b =>
    obtain rfl : q = (entrySlots es1).length := by simpa [IovEntry.slots] using hq
    have hget := h.get_at (x := .short b) rfl
    rw [getPtrLenLast, hget, if_neg (by simp [Iovec.isLongAddr, Iovec.tag])]
    exact getPtrLen_run h rfl st
  | long b b' =>
    obtain rfl : q = (entrySlots es1).length + 1 := by
      simp only [IovEntry.slots, List.length_cons, List.length_nil] at hq
      omega
    have hget := h.get_succ (x := .long b) (y := .long2 b') rfl
    have hnull : (!(Iovec.long2 b').isNull) = true := rfl
    rw [getPtrLenLast, hget, if_pos (by simp [Iovec.isLongAddr, Iovec.tag]),
      run_bind_ok (assert_run hnull _ st)]
    exact getPtrLen_run h rfl st

theorem findLastBody_leaf (h : (pv.get i).isLeaf = true) :
    (findLastBody findLast pv i r).run st = .ok (.done (some (pv, i))) st := by
  rw [findLastBody]
  cases hget : pv.get i with
  | null | pvbuf _ _ =>
    rw [hget] at h
    cases h
  | pbuf _ | short _ | long _ | long2 _ => rfl

/-- **The search finds the last leaf**, unless a pvbuf without leaves is in its place. -/
theorem findLastIovec_spec (depth : Nat) :
    ∀ {pv : Pvbuf} {refs : List Ref} {objs : List (Nat × Nat)}, Wf depth pv →
      Owns c mem st.mgr (segRefs pv.segs ++ refs) (pv.objs ++ objs) →
      Returns (findLastIovec c depth pv) st fun r st' => st' = st ∧ LastLeaf pv r := by
  induction depth with
  | zero => exact fun hwf => hwf.elim
  | succ depth ih =>
    intro pv refs objs hwf hown
    obtain ⟨es, h⟩ := Holds.of_wf hwf hown
    have hnum := pv.le_num
    have hnum' := pv.num_le
    have hlen := h.slots.length
    rw [findLastIovec]
    refine .step (paddrToAddr_run h.owns List.mem_cons_self st) ?_
    -- nothing has been passed when the body is first run, and it is run once
    refine forBitsRev_rule (I := fun p r st' => p = pv.num ∧ r = none ∧ st' = st) ?_ ?_ (by omega)
      ⟨by omega, rfl, rfl⟩
    · rintro p q _ st' ⟨rfl, rfl, rfl⟩ hq
      have hs : Slots pv (entrySlots (es ++ [])) := by rw [List.append_nil]; exact h.slots
      rw [← hlen] at hq
      obtain ⟨es1, e, k, rfl, hne, hpos⟩ := hs.last hq
      rw [← List.singleton_append, ← List.append_assoc] at h
      have hsegs : pv.segs = entrySegs es1 ++ e.segs := by
        rw [h.slots.segs_eq]
        simp
      have hat := h.slots
      rw [entrySlots_mid] at hat
      cases e with
      | gap => exact (hne rfl).elim
      | sub data_length sub =>
        obtain rfl : q = (entrySlots es1).length := by simpa [IovEntry.slots] using hpos
        have hok : (IovEntry.sub data_length sub).Ok (Wf depth) := h.ok _ (by simp)
        have hget := h.sub_slots.get_at rfl
        rw [findLastBody, hget]
        refine .step (assert_run rfl _ st') ((ih hok.1 h.focus_sub).bind ?_)
        rintro r _ ⟨rfl, hr⟩
        refine .pure ⟨rfl, fun owner i hsome => ?_, fun hleaf => ?_⟩
        · obtain ⟨seg, segs, hsub, hrun⟩ := hr.last owner i hsome
          refine ⟨seg, entrySegs es1 ++ segs, ?_, hrun⟩
          rw [hsegs, List.append_assoc, ← hsub]
          rfl
        · rw [← h.slots.last_isLeaf hpos hleaf, hget] at hleaf
          cases hleaf
      | seg s =>
        have hrun := getPtrLenLast_run hat hpos
        refine ⟨_, st', findLastBody_leaf (getPtrLenLast_isLeaf (hrun st')), rfl, ?_, ?_⟩
        · intro owner i hsome
          cases hsome
          exact ⟨s, entrySegs es1, hsegs, hrun⟩
        · intro hleaf
          rw [h.slots.last_isLeaf hpos hleaf]
    · rintro p _ _ ⟨rfl, rfl, rfl⟩ hnone
      refine ⟨rfl, fun owner i hr => (by cases hr), fun hleaf => ?_⟩
      have hbit := hnone (pv.num - 1) (by omega)
      rw [h.slots.map, ← h.slots.get_eq] at hbit
      rw [Iovec.isLeaf_of_isNull (by simpa using hbit)] at hleaf
      cases hleaf

/-! ## The new pbuf -/

/-- What a caller relies on: the packet has the bytes it had, and the last `n` of them lie at the
pointer. -/
structure PulledTail (B : List UInt8) (n : Nat) (r : Pull) (ptr : Ptr) (st' : PvSt) : Prop where
  wf : ∃ depth, Wf depth r.pvbuf
  contents : r.pvbuf.contents st'.mgr.mem = B
  bytes : ptr.bytes st'.mgr.mem n = B.drop (B.length - n)

/-- What a call does: a pointer that is returned is what the caller relies on, and none is returned
only if an allocation failed. -/
def PulltailDone (c : MgrConfig) (B : List UInt8) (n : Nat) (st : PvSt) (r : Pull) (st' : PvSt) : Prop :=
  (∀ ptr, r.ptr = some ptr → PulledTail B n r ptr st') ∧ (r.ptr = none → PullNoMem c n st st')

theorem PulltailDone.of_some (hptr : r.ptr = some ptr) (h : PulledTail B n r ptr st') : PulltailDone c B n st r st' := by
  refine ⟨fun ptr' hptr' => ?_, fun hnone => ?_⟩
  · rw [hptr] at hptr'
    obtain rfl := Option.some.inj hptr'
    exact h
  · rw [hptr] at hnone
    cases hnone

theorem PulltailDone.of_none (hptr : r.ptr = none) (h : PullNoMem c n st st') : PulltailDone c B n st r st' := by
  refine ⟨fun ptr hptr' => ?_, fun _ => h⟩
  rw [hptr] at hptr'
  cases hptr'

theorem PulledInto.pulledTail (h : PulledInto c mem .back refs objs a n 0 pv r st')
    (hfits : (Seg.pbuf (a.setLen n)).Fits) (hlen : (a.setLen n).dataLen = n)
    (hn : n ≤ (pv.contents mem).length) (halone : ∀ k, ⟨a.btag, a.zindex, k⟩ ∉ segRefs pv.segs) :
    PulledTail (pv.contents mem) n r (Seg.pbuf a).ptr st' := by
  obtain ⟨hbytes, hcontents⟩ := h.contents_eq hfits hlen (Nat.zero_le n) hn halone
  refine ⟨h.wf, ?_, ?_⟩
  · rw [hcontents]
    simp [join, part, keep, readBytes]
  · have hptr : (Seg.pbuf a).ptr.bytes st'.mgr.mem n = (Seg.pbuf (a.setLen n)).bytes st'.mgr.mem := by
      show _ = readBytes _ _ (a.setLen n).dataLen
      rw [hlen]
      rfl
    rw [hptr, hbytes]
    rfl

section
variable (hwf : Wf (depth + 1) pv)

include hwf

/-- **The trailers go to a new pbuf**, provided a leaf in the last slot is too short. -/
theorem pulltailAlloc_spec
    (hown : Owns c st.mgr.mem st.mgr (segRefs pv.segs ++ refs) (pv.objs ++ objs)) (hpos : 0 < n)
    (hn : n ≤ (pv.contents st.mgr.mem).length)
    (hshort : ∀ seg st0 st1, (getPtrLenLast pv (pv.num - 1)).run st0 = .ok seg st1 → seg.len < n) :
    Outcome (pulltailAlloc c (depth + 1) pv n) st (PulltailDone c (pv.contents st.mgr.mem) n st)
      fun e => ∃ st1, (pbufAlloc c n false).run st = .error e st1 := by
  have halloc : Outcome (pbufAlloc c n false) st _ (AllocFault c) :=
    pbufAlloc_spec hown fun h => by cases h
  rw [pulltailAlloc]
  cases hrun : (pbufAlloc c n false).run st with
  | error e st1 => exact .inr ⟨e, st1, run_bind_error hrun, st1, rfl⟩
  | ok r st1 =>
    refine .step hrun ?_
    obtain ⟨-, -, ⟨rfl, -⟩ | ⟨a, rfl, hown', halone, hroom⟩⟩ := halloc.of_ok hrun
    · exact .pure (.of_none rfl (.inl ⟨st1, hrun⟩))
    obtain ⟨hlen, hfits⟩ := hroom rfl
    have hown1 : Owns c st.mgr.mem ({ st1 with out := [] } : PvSt).mgr
        (segRefs pv.segs ++ a.ref :: refs) (pv.objs ++ objs) :=
      hown'.perm List.perm_middle.symm (.refl _)
    have hpop : Returns (popTrailers c false true (depth + 1) pv n) { st1 with out := [] } _ :=
      popTrailers_isLeaf hwf hown1 (Nat.pos_iff_ne_zero.mp hpos) fun seg st2 => hshort seg _ st2
    refine (collect_returns hpop).andThen ?_
    rintro ⟨⟨pv', dropped⟩, copied⟩ _ ⟨st2, ⟨hp, hlast⟩, hcopied, rfl⟩
    dsimp only at hp hlast hcopied ⊢
    obtain rfl : copied = part .back n (pv.contents st.mgr.mem) := hcopied.trans (hp.collected rfl)
    obtain rfl : dropped = n := hp.dropped.trans (by omega)
    have hcount : (part .back dropped (pv.contents st.mgr.mem)).length = dropped := by
      rw [length_part, Nat.min_eq_left hn]
    rw [hcount, Nat.sub_self]
    refine .step (run_modify _ _) (.step (assert_run (decide_eq_true rfl) _ _) ?_)
    have hown2 := hp.owns.write ((Seg.pbuf a).offset + 0) (part .back dropped (pv.contents st.mgr.mem))
      a.btag
    refine Returns.andThen (appendPbufPulltail_spec hfits hp.wf hlast hown2 (by omega)) ?_
    rintro ⟨pv2, ok⟩ st3 ⟨-, -, hput⟩
    cases ok with
    | true =>
      obtain ⟨hwf2, -, hsegs, hown3⟩ := hput
      refine .pure (.of_some rfl ?_)
      have hinto : PulledInto c st.mgr.mem .back refs objs a dropped 0 pv
          ⟨pv2, some ((Seg.pbuf a).ptr.add 0), dropped⟩ st3 :=
        ⟨hwf2, rfl, ⟨_, hsegs, hp.wf.fits, hp.contents, hp.kept⟩, hown3⟩
      exact hinto.pulledTail hfits hlen hn fun k hk => halone k (List.mem_append_left _ hk)
    | false =>
      obtain ⟨⟨refs', objs', hheld⟩, size, hnone⟩ := hput
      refine ((pbufFree_spec hheld).and_along (pbufFree_pvbuf_free c a)).andThen ?_
      rintro - st4 ⟨-, hsame⟩
      exact .pure (.of_none rfl (.inr ⟨size, by rw [hsame, hnone]⟩))

/-- **A packet with fewer bytes ends in the assertion.** -/
theorem pulltailAlloc_short
    (hown : Owns c st.mgr.mem st.mgr (segRefs pv.segs ++ refs) (pv.objs ++ objs))
    (hn : (pv.contents st.mgr.mem).length < n)
    (hrun : (pbufAlloc c n false).run st = .ok (some a) st1) :
    Aborts (pulltailAlloc c (depth + 1) pv n) st := by
  have halloc : Outcome (pbufAlloc c n false) st _ (AllocFault c) :=
    pbufAlloc_spec hown fun h => by cases h
  obtain ⟨-, -, ⟨hnone, -⟩ | ⟨b, hsome, hown', -⟩⟩ := halloc.of_ok hrun
  · cases hnone
  obtain rfl := Option.some.inj hsome
  have hown1 : Owns c st.mgr.mem ({ st1 with out := [] } : PvSt).mgr
      (segRefs pv.segs ++ a.ref :: refs) (pv.objs ++ objs) :=
    hown'.perm List.perm_middle.symm (.refl _)
  have hpop : Returns (popTrailers c false true (depth + 1) pv n) { st1 with out := [] } _ :=
    popTrailers_spec false true (depth + 1) hwf hown1
  obtain ⟨⟨⟨pv', dropped⟩, copied⟩, st', hcollect, st2, hp, hcopied, rfl⟩ := collect_returns hpop
  have hlen : copied = part .back n (pv.contents st.mgr.mem) := hcopied.trans (hp.collected rfl)
  have hfalse : decide (n = copied.length) = false := by
    rw [hlen, length_part, Nat.min_eq_right (Nat.le_of_lt hn)]
    exact decide_eq_false (by omega)
  rw [pulltailAlloc]
  refine .step hrun (.step hcollect (.step (run_modify _ _) (.bind ?_)))
  exact ⟨_, _, assert_fail hfalse _ _⟩

end

/-! ## The whole function -/

/-- **The last leaf has the bytes.** -/
theorem pulltail_here (hwf : Wf depth pv) (hsegs : pv.segs = segs ++ [s]) (hn : n ≤ s.len) :
    PulledTail (pv.contents st.mgr.mem) n ⟨pv, some (s.ptr.add (s.len - n)), s.len⟩
      (s.ptr.add (s.len - n)) st := by
  have hB : pv.contents st.mgr.mem = segBytes st.mgr.mem segs ++ s.bytes st.mgr.mem := by
    rw [PvbufOf.contents, hsegs, segBytes_append]
    simp
  have hlen : (s.bytes st.mgr.mem).length = s.len := length_readBytes _ _ _
  refine ⟨⟨depth, hwf⟩, rfl, ?_⟩
  have hptr : (s.ptr.add (s.len - n)).bytes st.mgr.mem n =
      readBytes (s.region st.mgr.mem) (s.offset + s.len - n) n := by
    rw [Seg.region_eq, Nat.add_sub_assoc hn]
    rfl
  have hdrop : (segBytes st.mgr.mem segs).length + (s.bytes st.mgr.mem).length - n =
      (segBytes st.mgr.mem segs).length + ((s.bytes st.mgr.mem).length - n) := by omega
  rw [hptr, readBytes_back hn, part, hB, List.length_append, hdrop, List.drop_length_add_append]

section
variable (compress : Bool) (hwf : Wf depth pv)
  (hown : Owns c st.mgr.mem st.mgr (segRefs pv.segs ++ refs) (pv.objs ++ objs))

include hwf hown

theorem pulltail_spec (hpos : 0 < n) (hn : n ≤ (pv.contents st.mgr.mem).length) :
    Outcome (pulltail c compress depth pv n) st (PulltailDone c (pv.contents st.mgr.mem) n st)
      fun e => ∃ st1, (pbufAlloc c n false).run st = .error e st1 := by
  obtain ⟨depth, rfl⟩ := hwf.exists_succ
  rw [pulltail]
  refine (findLastIovec_spec (depth + 1) hwf hown).andThen ?_
  rintro r _ ⟨rfl, hr⟩
  cases r with
  | none =>
    refine pulltailAlloc_spec hwf hown hpos hn fun seg st0 st1 hrun => ?_
    cases hr.slot (getPtrLenLast_isLeaf hrun)
  | some p =>
    obtain ⟨owner, i⟩ := p
    obtain ⟨s, segs, hsegs, hseg⟩ := hr.last owner i rfl
    refine .step (hseg _) ?_
    split
    · rename_i hle
      exact .pure (.of_some rfl (pulltail_here hwf hsegs hle))
    · rename_i hshort
      refine pulltailAlloc_spec hwf hown hpos hn fun seg st0 st1 hrun => ?_
      obtain ⟨rfl, rfl⟩ := Prod.mk.inj (Option.some.inj (hr.slot (getPtrLenLast_isLeaf hrun)))
      rw [hseg] at hrun
      cases hrun
      exact Nat.lt_of_not_le hshort

/-- **Pulling the tail leaves the packet as it is, with the last bytes at the pointer returned.** Where
no pointer is returned, an allocation failed; the only fault there is is that of the pbuf's
allocation. -/
theorem pulltail_contents (hpos : 0 < n) (hn : n ≤ (pv.contents st.mgr.mem).length) :
    Outcome (pulltail c compress depth pv n) st (fun r st' =>
      (∀ ptr, r.ptr = some ptr → (∃ depth, Wf depth r.pvbuf) ∧
        r.pvbuf.contents st'.mgr.mem = pv.contents st.mgr.mem ∧
        ptr.bytes st'.mgr.mem n =
          (pv.contents st.mgr.mem).drop ((pv.contents st.mgr.mem).length - n)) ∧
      (r.ptr = none → (∃ st1, (pbufAlloc c n false).run st = .ok none st1) ∨
        ∃ size, st'.mgr.pvbuf_free size = []))
      (fun e => ∃ st1, (pbufAlloc c n false).run st = .error e st1) := by
  refine (pulltail_spec compress hwf hown hpos hn).mono fun r st' hdone => ⟨fun ptr hptr => ?_, hdone.2⟩
  obtain ⟨hwf', hcontents, hbytes⟩ := hdone.1 ptr hptr
  exact ⟨hwf', hcontents, hbytes⟩

end

/-- Three trailers are pulled, from both leaves of the sub-pvbuf. -/
theorem pulltail_mixedPacket : ∃ r ptr st',
    (pulltail spareConfig true 2 mixedPacket 3).run spareState = .ok r st' ∧ r.ptr = some ptr ∧
      ptr.bytes st'.mgr.mem 3 = [18, 32, 33] ∧
      r.pvbuf.contents st'.mgr.mem = [8, 9, 10, 11, 16, 17, 18, 32, 33] := by
  obtain ⟨st1, pv1, copied, st2, pv2, halloc, hpop, hlen, hput⟩ : ∃ st1 pv1 copied st2 pv2,
      (pbufAlloc spareConfig 3 false).run spareState = .ok (some ⟨false, 0, 64, 0⟩) st1 ∧
      (collect (popTrailers spareConfig false true 2 mixedPacket 3)).run st1 =
        .ok ((pv1, 3), copied) st2 ∧
      decide (3 = copied.length) = true ∧
      ∀ st, (appendPbufPulltail spareConfig 4 pv1 ⟨false, 0, 64, 0⟩ 3).run st =
        .ok (pv2, true) st := ⟨_, _, _, _, _, rfl, rfl, rfl, fun _ => rfl⟩
  have hlast : (findLastIovec spareConfig 2 mixedPacket).run spareState =
      .ok (some (mixedSub, 2)) spareState := rfl
  have hseg : (getPtrLenLast mixedSub 2).run spareState = .ok (.short ⟨.two, 32, 1⟩) spareState := rfl
  obtain ⟨r, st', hrun, ptr, hptr⟩ : Returns (pulltail spareConfig true 2 mixedPacket 3) spareState
      fun r _ => ∃ ptr, r.ptr = some ptr := by
    rw [pulltail]
    refine .step hlast (.step hseg ?_)
    rw [if_neg (by decide)]
    refine .step halloc (.step hpop (.step (run_modify _ _) (.step (assert_run hlen _ _) ?_)))
    exact .step (hput _) (.pure ⟨_, rfl⟩)
  have hdone := (pulltail_contents true mixedPacket_wf mixedPacket_spare (by decide) (by decide)).of_ok hrun
  obtain ⟨-, hcontents, hbytes⟩ := hdone.1 ptr hptr
  exact ⟨r, ptr, st', hrun, hptr, hbytes, hcontents⟩

/-! ## More bytes than there are -/

theorem not_aborts_of_outcome {α : Type} {m : PvM α} {Q : α → PvSt → Prop} {E : Fault → Prop}
    (h : Outcome m st Q E) (hE : ∀ label, ¬ E (.assertion label)) : ¬ Aborts m st := by
  rintro ⟨label, st1, hrun⟩
  rcases h with ⟨r, st2, hok, -⟩ | ⟨e, st2, herr, he⟩
  · rw [hrun] at hok
    cases hok
  · rw [hrun] at herr
    cases herr
    exact hE label he

theorem aborts_bind_pure {α β : Type} {m : PvM α} {f : α → β} :
    Aborts (m >>= fun r => pure (f r)) st ↔ Aborts m st := by
  refine ⟨?_, Aborts.bind⟩
  rintro ⟨label, st1, hrun⟩
  rw [run_bind] at hrun
  cases hm : m.run st with
  | ok r st2 =>
    rw [hm] at hrun
    cases hrun
  | error e st2 =>
    rw [hm] at hrun
    cases hrun
    exact ⟨label, _, hm⟩

section
variable (hwf : Wf depth pv) (hown : Owns c st.mgr.mem st.mgr (segRefs pv.segs ++ refs) (pv.objs ++ objs))
  (halloc : (pbufAlloc c n false).run st = .ok (some a) st1)

include hwf hown halloc

theorem pullup_aborts (hmap : pv.iovec_map ≠ 0) (hn : (pv.contents st.mgr.mem).length < n) :
    Aborts (pullup c compress depth pv n) st := by
  obtain ⟨depth, rfl⟩ := hwf.exists_succ
  obtain ⟨es, h⟩ := Holds.of_wf hwf hown
  obtain ⟨q, e, es2, rfl, hne, hfind, hlt⟩ := h.first hmap
  have hs := h.slots
  rw [entrySlots_mid] at hs
  have hq : (entrySlots (gaps q)).length = q := by simp
  rw [pullup]
  refine .step (paddrToAddr_run h.owns List.mem_cons_self st) ?_
  rw [hfind]
  dsimp only
  rw [if_neg (Nat.not_le_of_lt hlt)]
  cases e with
  | gap => exact (hne rfl).elim
  | sub data_length sub =>
    have hget : pv.get q = .pvbuf data_length sub := hs.get_at hq
    rw [if_pos (by rw [hget]; rfl)]
    exact pullupAlloc_short hwf hown hn halloc
  | seg s =>
    have hfits : s.Fits := h.ok (.seg s) (by simp)
    have hB : (pv.contents st.mgr.mem).length = s.len + segsLen (entrySegs es2) := by
      rw [PvbufOf.contents, length_segBytes, h.slots.segs_eq]
      simp [IovEntry.segs, segsLen]
    obtain ⟨htag, hget⟩ := hs.get_leaf hq
    rw [if_neg htag]
    refine .step (getPtrLen_run hs hq st) ?_
    rw [if_neg (by omega)]
    obtain ⟨r, hrun, hr⟩ := pullupTailroom_run compress
      (fun a ha => by rw [(hget a).mp ha] at hfits; exact hfits) n st
    refine .step hrun ?_
    cases r with
    | none => exact pullupAlloc_short hwf hown hn halloc
    | some b =>
      obtain ⟨rfl, hb, -, -⟩ := (hr b).mp rfl
      obtain rfl := (hget b).mp hb
      have hout := h.take_out (x := .pbuf b) (i := q) rfl (by simp)
      refine .step (iovecUnsetEnt_run hs hq rfl st) ?_
      refine pullupInto_short hout.wf hout.owns_segs ?_
      have hleft : ((pv.clear q).contents st.mgr.mem).length = segsLen (entrySegs es2) := by
        rw [PvbufOf.contents, length_segBytes, hout.slots.segs_eq]
        simp [IovEntry.segs, segsLen]
      omega

theorem pulltail_aborts (hn : (pv.contents st.mgr.mem).length < n) :
    Aborts (pulltail c compress depth pv n) st := by
  obtain ⟨depth, rfl⟩ := hwf.exists_succ
  rw [pulltail]
  obtain ⟨r, st2, hrun, hst, hr⟩ := findLastIovec_spec (depth + 1) hwf hown
  rw [hst] at hrun
  refine .step hrun ?_
  cases r with
  | none => exact pulltailAlloc_short hwf hown hn halloc
  | some p =>
    obtain ⟨owner, i⟩ := p
    obtain ⟨s, segs, hsegs, hseg⟩ := hr.last owner i rfl
    have hB : (pv.contents st.mgr.mem).length = segsLen segs + s.len := by
      rw [PvbufOf.contents, length_segBytes, hsegs]
      simp [segsLen]
    refine .step (hseg _) ?_
    rw [if_neg (by omega)]
    exact pulltailAlloc_short hwf hown hn halloc

end

/-- **A request is served without an assertion just if the packet has the bytes.** The assertion behind
the pop compares the bytes copied with those asked for, so it is never left with fewer. -/
theorem pull_not_aborts_iff (compress : Bool) (hwf : Wf depth pv)
    (hown : Owns c st.mgr.mem st.mgr (segRefs pv.segs ++ refs) (pv.objs ++ objs))
    (hmap : pv.iovec_map ≠ 0) (hpos : 0 < n)
    (halloc : ∃ a st1, (pbufAlloc c n false).run st = .ok (some a) st1) :
    (¬ Aborts (pullup c compress depth pv n) st ↔ n ≤ (pv.contents st.mgr.mem).length) ∧
    (¬ Aborts (pvbufPullup c compress depth pv n) st ↔ n ≤ (pv.contents st.mgr.mem).length) ∧
    (¬ Aborts (pulltail c compress depth pv n) st ↔ n ≤ (pv.contents st.mgr.mem).length) ∧
    (¬ Aborts (pvbufPulltail c compress depth pv n) st ↔ n ≤ (pv.contents st.mgr.mem).length) := by
  obtain ⟨a, st1, halloc⟩ := halloc
  have hno : ∀ label st2, (pbufAlloc c n false).run st ≠ .error (.assertion label) st2 := by
    intro label st2 herr
    rw [halloc] at herr
    cases herr
  have hup : ¬ Aborts (pullup c compress depth pv n) st ↔ n ≤ (pv.contents st.mgr.mem).length := by
    refine ⟨fun h => ?_, fun hn => not_aborts_of_outcome (pullup_spec compress hwf hown hpos hn) ?_⟩
    · by_contra hlt
      exact h (pullup_aborts hwf hown halloc hmap (Nat.lt_of_not_le hlt))
    · rintro label (⟨st2, herr⟩ | ⟨-, he⟩)
      · exact hno label st2 herr
      · cases he
  have htail : ¬ Aborts (pulltail c compress depth pv n) st ↔ n ≤ (pv.contents st.mgr.mem).length := by
    refine ⟨fun h => ?_, fun hn => not_aborts_of_outcome (pulltail_spec compress hwf hown hpos hn) ?_⟩
    · by_contra hlt
      exact h (pulltail_aborts hwf hown halloc (Nat.lt_of_not_le hlt))
    · rintro label ⟨st2, herr⟩
      exact hno label st2 herr
  refine ⟨hup, ?_, htail, ?_⟩
  · rw [pvbufPullup, aborts_bind_pure]
    exact hup
  · rw [pvbufPulltail, aborts_bind_pure]
    exact htail

/-- Six bytes of the nine can be asked for. -/
theorem pull_not_aborts_mixedPacket : ¬ Aborts (pvbufPullup spareConfig true 2 mixedPacket 6) spareState :=
  (pull_not_aborts_iff true mixedPacket_wf mixedPacket_spare (by decide) (by decide)
    ⟨_, _, rfl⟩).2.1.mpr (by decide)

/-- A request for ten bytes of a packet of nine is no null pointer but the end of the program. -/
theorem pull_aborts_mixedPacket : Wf 2 mixedPacket ∧
    Owns spareConfig spareState.mgr.mem spareState.mgr (segRefs mixedPacket.segs ++ [])
      (mixedPacket.objs ++ []) ∧
    (mixedPacket.contents spareState.mgr.mem).length = 9 ∧
    (∃ a st1, (pbufAlloc spareConfig 10 false).run spareState = .ok (some a) st1) ∧
    Aborts (pvbufPullup spareConfig true 2 mixedPacket 10) spareState ∧
    Aborts (pvbufPulltail spareConfig true 2 mixedPacket 10) spareState := by
  obtain ⟨a, st1, halloc⟩ : ∃ a st1, (pbufAlloc spareConfig 10 false).run spareState =
      .ok (some a) st1 := ⟨_, _, rfl⟩
  have hn : (mixedPacket.contents spareState.mgr.mem).length < 10 := by decide
  refine ⟨mixedPacket_wf, mixedPacket_spare, by decide, ⟨a, st1, halloc⟩, ?_, ?_⟩
  · exact (pullup_aborts mixedPacket_wf mixedPacket_spare halloc (by decide) hn).bind
  · exact (pulltail_aborts mixedPacket_wf mixedPacket_spare halloc hn).bind

end Xdp2
