import Xdp2.Pvbuf.Frame
import Xdp2.Pvbuf.Pull

/-!
# Putting a pbuf back

`__xdp2_pvbuf_prepend_pbuf_pullup` and `__xdp2_pvbuf_append_pbuf_pulltail`: the pbuf comes before or
after everything that popping has left. Where there is no room at that end, what is in the last slot
goes into the one next to it.
-/

namespace Xdp2

open BitWord StateError ListEnd

variable {c : MgrConfig} {mem : Mem} {refs : List Ref} {objs : List (Nat × Nat)} {st st' : PvSt}
  {pv : Pvbuf} {depth : Nat}

/-! ## Slot zero -/

/-- What is left when a slot was to be made free: other entries with the same leaves, before which, or
behind which, there is a slot whose contents do not matter. If no pvbuf could be had, what is in the slots
is not said. -/
def Freed (c : MgrConfig) (mem : Mem) (P : Pvbuf → Prop) (side : Side) (k : Nat) (refs : List Ref)
    (objs : List (Nat × Nat)) (pv : Pvbuf) (st : PvSt) (r : Pvbuf × Bool) (st' : PvSt) : Prop :=
  st'.out = st.out ∧ st'.mgr.mem = st.mgr.mem ∧
    if r.2 then
      ∃ pv0 es, (∀ y, (r.1.set k y).setBit k = pv0.over k y) ∧ pv0.obj = pv.obj ∧
        Holds c mem P st'.mgr pv0 (join side [.gap] es) refs objs ∧ entrySegs es = pv.segs
    else
      (∃ refs' objs', Owns c mem st'.mgr (refs' ++ refs) objs') ∧ ∃ size, st'.mgr.pvbuf_free size = []

/-- A slot with a leaf, be it the second word of one. -/
def Iovec.isLeaf : Iovec → Bool
  | null | pvbuf _ _ => false
  | pbuf _ | short _ | long _ | long2 _ => true

theorem Seg.isLeaf_of_mem (h : x ∈ (IovEntry.seg s).slots) : x.isLeaf = true := by
  cases s with
  | pbuf a | short a =>
    obtain rfl := List.mem_singleton.mp h
    rfl
  | long a b => rcases List.mem_pair.mp h with rfl | rfl <;> rfl

theorem IovEntry.Ok.toNat_eq {P : Pvbuf → Prop} {data_length : BitVec 32} {sub : Pvbuf}
    (h : (IovEntry.sub data_length sub).Ok P) :
    data_length.toNat = 0 ∨ data_length.toNat = segsLen sub.segs :=
  h.2.imp_left fun hz => by rw [hz]; rfl

theorem not_tooLong_toNat (data_length : BitVec 32) (e : Fault) : ¬ TooLong data_length.toNat e :=
  fun he => Nat.not_lt_of_le he.1 data_length.isLt

/-- The only fault there is: dissolving a hollow pvbuf. -/
def HollowRead (compress : Bool) (e : Fault) : Prop := compress = true ∧ e = .clearSlot 64

section
variable {P : Pvbuf → Prop} {e : IovEntry} {x : Iovec} {es1 es2 : List IovEntry} {n : Nat}

theorem Freed.mono (hP : ∀ pv, P pv → P' pv) (h : Freed c mem P side k refs objs pv st r st') :
    Freed c mem P' side k refs objs pv st r st' := by
  obtain ⟨pv1, ok⟩ := r
  obtain ⟨hout, hmem, hrest⟩ := h
  refine ⟨hout, hmem, ?_⟩
  cases ok with
  | true =>
    obtain ⟨pv0, es, hput, hobj, hh, hsegs⟩ := hrest
    exact ⟨pv0, es, hput, hobj, hh.mono hP, hsegs⟩
  | false => exact hrest

theorem PlacedAt.freed_front
    (hat : PlacedAt c mem P .front e refs objs [.gap] es2 pv0 [e1] st es r st')
    (hobj : pv0.obj = pv.obj) (hsegs : e.segs ++ entrySegs (e1 :: es2) = pv.segs) :
    Freed c mem P .front 0 refs objs pv st (Prod.map (·.over 0 x) id r) st' := by
  obtain ⟨pv1, ok⟩ := r
  have hseg := hat.segs
  refine ⟨hat.out, hat.mem, ?_⟩
  cases ok with
  | true =>
    refine ⟨pv1, es ++ es2, fun y => PvbufOf.over_over, hat.obj.trans hobj,
      by simpa [join] using hat.holds, ?_⟩
    rw [entrySegs_append, hseg, ← hsegs]
    simp [join]
  | false =>
    have hown := hat.holds.owns
    rw [if_neg Bool.false_ne_true, ← List.append_assoc] at hown
    exact ⟨⟨_, _, hown⟩, hat.failed rfl⟩

theorem freeSlotZero_free (hx : e.slots = [x]) (hne : e ≠ .gap) (compress : Bool)
    (h : Holds c mem P st.mgr pv ([e] ++ .gap :: es2) refs objs) :
    Outcome (freeSlotZero c compress n pv) st (Freed c mem P .front 0 refs objs pv st)
      (HollowRead compress) := by
  have hs : Slots pv ([] ++ x :: .null :: entrySlots es2) := by
    have hs := h.slots
    rwa [entrySlots_append, entrySlots_cons, hx] at hs
  have hnull : x.isNull = false := IovEntry.isNull_eq_false hne (by rw [hx]; exact List.mem_cons_self)
  have hlong : x.isLongAddr = false := by
    match e, hx with
    | .sub _ _, rfl | .seg (.pbuf _), rfl | .seg (.short _), rfl => rfl
    | .gap, _ => exact (hne rfl).elim
  have hs1 : Slots pv ([x] ++ .null :: entrySlots es2) := hs
  rw [freeSlotZero]
  refine .step (iovecMapIsset_run hs1 rfl st) ?_
  have hget : pv.get 0 = x := hs.get_at rfl
  refine .step (assert_run (by rw [hget, hlong]; rfl) _ st) ?_
  refine .step (iovecClearEnt_run _ (by decide) st) (.step (iovecMapSet_run _ (by decide) st) ?_)
  rw [hget]
  have hcomm : (pv.set 1 x).clear 0 = (pv.clear 0).set 1 x := by
    simp [PvbufOf.clear, PvbufOf.set, List.set_comm x .null (show (1 : Nat) ≠ 0 by decide)]
  have hs2 : Slots (pv.clear 0) ([.null] ++ .null :: entrySlots es2) := hs.clear rfl
  have hs3 : Slots ((((pv.set 1 x).clear 0).setBit 1).set 0 .null)
      ([] ++ .null :: x :: entrySlots es2) := by
    rw [hcomm]
    have hput : Slots (((pv.clear 0).set 1 x).setBit 1) ([] ++ .null :: x :: entrySlots es2) :=
      hs2.put rfl hnull
    exact hput.set rfl rfl
  refine .pure ⟨rfl, rfl, _, e :: es2, fun y => rfl, rfl, h.reslot rfl ?_ ?_ ?_ ?_, ?_⟩
  · rw [join, List.singleton_append, entrySlots_cons, entrySlots_cons, hx]
    exact hs3
  · intro e' he'
    simp only [join, List.singleton_append, List.mem_cons] at he' ⊢
    tauto
  · simp [join, IovEntry.segs]
  · simp [join, IovEntry.objs]
  · rw [h.slots.segs_eq]
    simp [IovEntry.segs]

theorem Holds.exists_second (h : Holds c mem P m pv ([e] ++ es) refs objs) (hw : e.slots.length = 1) :
    ∃ e1 rest, es = e1 :: rest := by
  cases es with
  | nil =>
    have hlen := h.slots.length
    have hnum := pv.le_num
    rw [List.append_nil, entrySlots_cons, entrySlots_nil, List.append_nil, hw] at hlen
    omega
  | cons e1 rest => exact ⟨e1, rest, rfl⟩

section
variable {e1 : IovEntry} (h : Holds c mem P m pv ([e] ++ e1 :: es2) refs objs) (hx : e.slots = [x])

include h hx

theorem Holds.first_out (hne : e ≠ .gap) : pv.get 0 = x ∧ (pv.clear 0).over 0 x = pv ∧
    Holds c mem P m (pv.clear 0) ([.gap] ++ [e1] ++ es2) (segRefs e.segs ++ refs) (e.objs ++ objs) := by
  have hs : Slots pv ([] ++ x :: entrySlots (e1 :: es2)) := by
    have hs := h.slots
    rwa [entrySlots_append, entrySlots_cons e, hx, entrySlots_nil, List.append_nil] at hs
  have hnull : x.isNull = false := IovEntry.isNull_eq_false hne (by rw [hx]; exact List.mem_cons_self)
  have hfirst : Holds c mem P m pv ([] ++ [e] ++ e1 :: es2) refs objs := h
  exact ⟨hs.get_at rfl, hs.clear_over rfl hnull, by simpa using hfirst.take_out hx rfl⟩

theorem Holds.second_isset (he1 : e1 ≠ .gap) (st : PvSt) :
    (iovecMapIsset pv 1).run st = .ok true st := by
  obtain ⟨y, l, hy, hnull⟩ := IovEntry.exists_first he1
  have hs : Slots pv ([x] ++ y :: (l ++ entrySlots es2)) := by
    have hs := h.slots
    rwa [entrySlots_append, entrySlots_cons e, entrySlots_cons e1, hx, hy, entrySlots_nil,
      List.append_nil] at hs
  rw [iovecMapIsset_run (i := 1) hs rfl st, hnull]
  rfl

end

theorem prependPvbufIntoIovec_any (he1 : e1 ≠ .gap) (compress : Bool) (hn : depth + depth ≤ n + 1)
    (hsub : (IovEntry.sub data_length sub).Ok (Wf depth))
    (h : Holds c mem (Wf depth) st.mgr pv0 (es1 ++ [e1] ++ es2) (segRefs sub.segs ++ refs)
      (sub.objs ++ objs))
    (hi : (entrySlots es1).length = i) :
    Outcome (prependPvbufIntoIovec c (prependPvbuf c n compress sub data_length.toNat) compress pv0 i sub
        data_length.toNat) st
      (fun r st' => ∃ es, PlacedAt c mem (Wf (depth + 1 + depth)) .front (.sub data_length sub) refs objs
        es1 es2 pv0 [e1] st es r st') (HollowRead compress) := by
  have hwf := hsub.1
  have hlen := hsub.toNat_eq
  have hentry : BitVec.ofNat 32 data_length.toNat = data_length := by simp
  have hlong := not_tooLong_toNat data_length
  by_cases hhollow : compress = true ∧ sub.hollow = true
  · obtain ⟨rfl, hhollow⟩ := hhollow
    match e1, he1 with
    | .sub dl1 sub1, _ =>
      have hget := h.sub_slots.get_at hi
      have hnull : (!(pv0.get i).isNull) = true := by rw [hget]; rfl
      have hwf1 : Wf depth sub1 := (h.ok (.sub dl1 sub1) (by simp)).1
      have hmem : sub1.obj ∈ pv0.objs ++ (sub.objs ++ objs) := by
        rw [h.slots.objs_eq]
        simp [IovEntry.objs, hwf1.obj_mem_objs]
      have hpos := hwf.pos
      have hrun : (prependPvbuf c n true sub data_length.toNat sub1).run st = .error (.clearSlot 64) st :=
        prependPvbuf_hollow (by omega) hwf hhollow h.owns_segs hmem fun o ho => by simp [ho]
      refine .inr ⟨_, st, ?_, rfl, rfl⟩
      rw [prependPvbufIntoIovec, run_bind_ok (assert_run hnull _ st), run_bind_ok (assert_run hnull _ st),
        hget]
      exact run_bind_error (run_bind_error hrun)
    | .seg t, _ =>
      have hspec := prependPvbufIntoIovec_seg hwf hlen
        (prependPvbuf c n true sub data_length.toNat) true h hi
      rw [hentry] at hspec
      exact (hspec.returns hlong).outcome _
  · have hnot : compress = true → sub.hollow = false := fun hc => by
      cases hh : sub.hollow with
      | false => rfl
      | true => exact (hhollow ⟨hc, hh⟩).elim
    have hins : PlaceSpec c mem .front depth depth (.sub (BitVec.ofNat 32 data_length.toNat) sub)
        (TooLong data_length.toNat) (prependPvbuf c n compress sub data_length.toNat) :=
      prependPvbuf_place hn hwf hlen hnot
    have hspec := prependPvbufIntoIovec_spec hwf hlen compress hins he1 h hi
    rw [hentry] at hspec
    exact (hspec.returns hlong).outcome _

theorem freeSlotZero_sub (he1 : e1 ≠ .gap) (compress : Bool) (hn : depth + depth ≤ n + 1)
    (h : Holds c mem (Wf depth) st.mgr pv ([.sub data_length sub] ++ e1 :: es2) refs objs) :
    Outcome (freeSlotZero c compress n pv) st
      (Freed c mem (Wf (depth + 1 + depth)) .front 0 refs objs pv st) (HollowRead compress) := by
  have hok : (IovEntry.sub data_length sub).Ok (Wf depth) := h.ok _ (by simp)
  obtain ⟨hget, hpv, hout⟩ := h.first_out (x := .pvbuf data_length sub) rfl nofun
  rw [freeSlotZero]
  refine .step (h.second_isset (x := .pvbuf data_length sub) rfl he1 st) ?_
  rw [hget]
  show Outcome (prependPvbufIntoIovec c (prependPvbuf c n compress sub data_length.toNat) compress pv 1 sub
    data_length.toNat) st _ _
  rw [← hpv, prependPvbufIntoIovec_over (by decide) (by decide)]
  refine .map ((prependPvbufIntoIovec_any he1 compress hn hok hout rfl).mono ?_)
  rintro r st' ⟨es, hat⟩
  rw [hpv]
  refine hat.freed_front rfl ?_
  rw [h.slots.segs_eq]
  simp

theorem freeSlotZero_leaf (hs : s.paddr1.isLongAddr = false) (he1 : e1 ≠ .gap) (compress : Bool)
    (hn : depth ≤ n) (h : Holds c mem (Wf depth) st.mgr pv ([.seg s] ++ e1 :: es2) refs objs) :
    Outcome (freeSlotZero c compress n pv) st
      (Freed c mem (Wf (depth + 1 + depth)) .front 0 refs objs pv st) (HollowRead compress) := by
  have hfits : s.Fits := h.ok (.seg s) (by simp)
  have hx : (IovEntry.seg s).slots = [s.paddr1] := by
    cases s with
    | pbuf a | short a => rfl
    | long a b => cases hs
  have h2 : s.paddr2 = .null := by
    cases s with
    | pbuf a | short a => rfl
    | long a b => cases hs
  obtain ⟨hget, hpv, hout⟩ := h.first_out hx nofun
  have hentry : (s.toArg hfits).toItem.entry = .seg s := congrArg IovEntry.seg s.setLen_len
  have hslots : Slots pv ([] ++ ((IovEntry.seg s).slots ++ entrySlots (e1 :: es2))) := by
    simpa using h.slots
  have hset : (iovecMapIsset pv 0).run st = .ok true st := by
    rw [hx] at hslots
    rw [iovecMapIsset_run (x := s.paddr1) (i := 0) hslots rfl st]
    cases s <;> rfl
  have hins : PlaceSpec c mem .front depth 0 (s.toArg hfits).toItem.entry (TooLong s.len)
      (prependPaddr c compress s.paddr1 s.paddr2 s.len n) :=
    prependPaddr_place compress (s.toArg hfits).toItem hn
  -- the call on the slots behind, with the leaf taken out
  have hcall : Outcome (prependPaddrIntoIovec c (prependPaddr c compress s.paddr1 .null s.len n) pv 1
      s.paddr1 .null s.len) st (Freed c mem (Wf (depth + 1 + depth)) .front 0 refs objs pv st)
      (HollowRead compress) := by
    rw [← hpv, prependPaddrIntoIovec_over (by decide) (by decide), ← h2]
    rw [← hentry] at hout
    have hspec := (prependPaddrIntoIovec_spec hins he1 hout rfl).returns (s.toArg hfits).not_tooLong
    rw [hentry] at hspec
    refine .map ((hspec.outcome _).mono ?_)
    rintro r st' ⟨es, hat⟩
    rw [hpv]
    refine Freed.mono (fun _ => Wf.mono (by omega)) (hat.freed_front rfl ?_)
    rw [h.slots.segs_eq]
    simp
  rw [freeSlotZero]
  refine .step (h.second_isset hx he1 st) ?_
  rw [hget]
  cases s with
  | pbuf a => exact .step hset (.step (getPtrLen_run hslots rfl st) hcall)
  | short a => exact .step hset (.step (getPtrLen_run hslots rfl st) hcall)
  | long a b => cases hs

theorem freeSlotZero_long (he1 : e1 ≠ .gap) (compress : Bool) (hn : depth ≤ n)
    (h : Holds c mem (Wf depth) st.mgr pv ([.seg (.long a b)] ++ e1 :: es2) refs objs) :
    Outcome (freeSlotZero c compress n pv) st
      (Freed c mem (Wf (depth + 1 + depth)) .front 0 refs objs pv st) (HollowRead compress) := by
  have hfits : (Seg.long a b).Fits := h.ok (.seg (.long a b)) (by simp)
  have hslots : Slots pv ([] ++ ((IovEntry.seg (.long a b)).slots ++ entrySlots (e1 :: es2))) := by
    simpa using h.slots
  have hs0 : Slots pv ([] ++ .long a :: .long2 b :: entrySlots (e1 :: es2)) := hslots
  have hs1 : Slots pv ([.long a] ++ .long2 b :: entrySlots (e1 :: es2)) := hslots
  have hget0 : pv.get 0 = .long a := hs0.get_at rfl
  have hget1 : pv.get 1 = .long2 b := hs1.get_at rfl
  have hentry : ((Seg.long a b).toArg hfits).toItem.entry = .seg (.long a b) :=
    congrArg IovEntry.seg (Seg.long a b).setLen_len
  have hins : PlaceSpec c mem .front depth 0 ((Seg.long a b).toArg hfits).toItem.entry
      (TooLong (Seg.long a b).len) (prependPaddr c compress (.long a) (.long2 b) (Seg.long a b).len n) :=
    prependPaddr_place compress ((Seg.long a b).toArg hfits).toItem hn
  -- a long address holds nothing, so it may be there twice
  have hh : Holds c mem (Wf depth) st.mgr pv ([.seg (.long a b)] ++ [e1] ++ es2)
      (segRefs ((Seg.long a b).toArg hfits).toItem.entry.segs ++ refs)
      (((Seg.long a b).toArg hfits).toItem.entry.objs ++ objs) := by
    rw [hentry, List.append_assoc]
    exact h
  have hspec := (prependPaddrIntoIovec_spec hins he1 hh rfl).returns
    ((Seg.long a b).toArg hfits).not_tooLong
  rw [hentry] at hspec
  rw [freeSlotZero]
  refine .step (iovecMapIsset_run hs1 rfl st) ?_
  rw [hget0, hget1]
  refine .step (iovecMapIsset_run hs0 rfl st) (.step (getPtrLen_run hslots rfl st) ?_)
  refine hspec.andThen ?_
  rintro ⟨pv1, ok⟩ st' ⟨es, hat⟩
  refine .step (iovecClearEnt_run pv1 (by decide) st') (.pure ⟨hat.out, hat.mem, ?_⟩)
  have hown := hat.holds.owns
  cases ok with
  | false =>
    rw [if_neg Bool.false_ne_true, ← List.append_assoc] at hown
    exact ⟨⟨_, _, hown⟩, hat.failed rfl⟩
  | true =>
    have hseg := hat.segs
    have hs : Slots pv1 ([] ++ .long a :: .long2 b :: entrySlots (es ++ es2)) := by
      simpa [IovEntry.slots] using hat.holds.slots
    have hh1 : Holds c mem (Wf (depth + 1 + 0)) st'.mgr pv1 ([] ++ [.seg (.long a b)] ++ (es ++ es2)) refs
        objs := by simpa using hat.holds
    have hclear : Holds c mem (Wf (depth + 1 + 0)) st'.mgr ((pv1.clear 1).clear 0)
        ([] ++ gaps 2 ++ (es ++ es2)) refs objs :=
      hh1.clear (hs.clear_long rfl).2 rfl (by simpa [IovEntry.segs, IovEntry.objs, Seg.refs] using hh1.focus)
    refine ⟨(pv1.clear 1).clear 0, .gap :: (es ++ es2), fun y => PvbufOf.over_clear.symm, hat.obj,
      (hclear.mono fun _ => Wf.mono (by omega)), ?_⟩
    rw [entrySegs_cons, entrySegs_append, hseg, h.slots.segs_eq]
    simp [join, IovEntry.segs]

/-- **Slot zero is made free**, where the slot behind a long address in it is in use. -/
theorem freeSlotZero_spec (hne : e ≠ .gap) (compress : Bool) (hn : depth + depth ≤ n + 1)
    (h : Holds c mem (Wf depth) st.mgr pv ([e] ++ es2) refs objs)
    (hlong : ∀ a b, e = .seg (.long a b) → ∃ e1 rest, es2 = e1 :: rest ∧ e1 ≠ .gap) :
    Outcome (freeSlotZero c compress n pv) st
      (Freed c mem (Wf (depth + 1 + depth)) .front 0 refs objs pv st) (HollowRead compress) := by
  have hwidth : (∃ a b, e = .seg (.long a b)) ∨ ∃ x, e.slots = [x] := by
    match e with
    | .gap | .sub _ _ | .seg (.pbuf _) | .seg (.short _) => exact .inr ⟨_, rfl⟩
    | .seg (.long a b) => exact .inl ⟨a, b, rfl⟩
  rcases hwidth with ⟨a, b, rfl⟩ | ⟨x, hx⟩
  · obtain ⟨e1, rest, rfl, he1⟩ := hlong a b rfl
    exact freeSlotZero_long he1 compress (by omega) h
  · obtain ⟨e1, rest, rfl⟩ := h.exists_second (by rw [hx]; rfl)
    by_cases he1 : e1 = .gap
    · subst he1
      exact freeSlotZero_free hx hne compress (h.mono fun _ => Wf.mono (by omega))
    · match e, hne, hx with
      | .sub _ _, _, _ => exact freeSlotZero_sub he1 compress hn h
      | .seg (.pbuf _), _, _ => exact freeSlotZero_leaf rfl he1 compress (by omega) h
      | .seg (.short _), _, _ => exact freeSlotZero_leaf rfl he1 compress (by omega) h

end

/-! ## The pbuf at the front -/

/-- The pbuf is in the packet, before or after the leaves there were, or no pvbuf could be had. Either
way it is still held. -/
def PutBack (c : MgrConfig) (mem : Mem) (side : Side) (a : PbufAddr) (refs : List Ref)
    (objs : List (Nat × Nat)) (length : Nat) (pv : Pvbuf) (st : PvSt) (r : Pvbuf × Bool) (st' : PvSt) :
    Prop :=
  st'.out = st.out ∧ st'.mgr.mem = st.mgr.mem ∧
    if r.2 then
      (∃ depth, Wf depth r.1) ∧ r.1.obj = pv.obj ∧
        r.1.segs = join side [.pbuf (a.setLen length)] pv.segs ∧
        Owns c mem st'.mgr (segRefs r.1.segs ++ refs) (r.1.objs ++ objs)
    else
      (∃ refs' objs', Owns c mem st'.mgr (a.ref :: refs') objs') ∧
        ∃ size, st'.mgr.pvbuf_free size = []

section
variable {P : Pvbuf → Prop} {es1 es2 : List IovEntry} {n : Nat}

theorem iovecSetPbufEnt_run (h : Slots pv (l1 ++ .null :: l2)) (hi : l1.length = i) (st : PvSt) :
    (iovecSetPbufEnt pv i a length).run st = .ok (pv.over i (.pbuf (a.setLen length))) st := by
  rw [iovecSetPbufEnt, iovecSetPaddrEnt, run_bind_ok (iovecCheckEmpty_run h hi st)]
  exact iovecMapSet_run _ (h.lt hi) st

theorem PutBack.of_over (hfits : (Seg.pbuf (a.setLen length)).Fits) (es1 es2 : List IovEntry)
    (h : Holds c mem (Wf depth) st'.mgr pv0 (es1 ++ [.gap] ++ es2) (a.ref :: refs) objs)
    (hi : (entrySlots es1).length = i) (hobj : pv0.obj = pv.obj)
    (hsegs : entrySegs (es1 ++ [.seg (.pbuf (a.setLen length))] ++ es2) =
      join side [.pbuf (a.setLen length)] pv.segs)
    (hout : st'.out = st.out) (hmem : st'.mgr.mem = st.mgr.mem) :
    PutBack c mem side a refs objs length pv st (pv0.over i (.pbuf (a.setLen length)), true) st' := by
  have hput : Holds c mem (Wf depth) st'.mgr (pv0.over i (.pbuf (a.setLen length)))
      (es1 ++ [.seg (.pbuf (a.setLen length))] ++ es2) refs objs :=
    Holds.put_over (e := .seg (.pbuf (a.setLen length))) h rfl nofun hfits hi
  exact ⟨hout, hmem, ⟨_, hput.wf⟩, hobj, hput.slots.segs_eq.trans hsegs, hput.owns_segs⟩

theorem findPrependSlot_none (h : (findPrependSlot compress pv).run st = .ok (pv', noSlot) st') :
    pv' = pv ∧ (compress = true → weight pv.iovec_map = pv.num) := by
  have hnum := pv.num_le
  have hno : 64 < noSlot := by decide
  rw [findPrependSlot] at h
  by_cases hfind : find pv.iovec_map ≠ 0
  · rw [if_pos hfind] at h
    have hidx : (if find pv.iovec_map < pv.num then find pv.iovec_map - 1 else pv.num - 1) = noSlot :=
      (Prod.mk.inj (EStateM.Result.ok.inj h).1).2
    split at hidx <;> omega
  rw [if_neg hfind] at h
  cases compress with
  | false => exact ⟨(Prod.mk.inj (EStateM.Result.ok.inj h).1).1.symm, fun hc => by cases hc⟩
  | true =>
    rw [if_pos rfl, findPrependSlotCompress] at h
    by_cases hw : weight pv.iovec_map = pv.num
    · rw [if_pos hw] at h
      exact ⟨(Prod.mk.inj (EStateM.Result.ok.inj h).1).1.symm, fun _ => hw⟩
    · -- a slot found by shifting is one of the array's
      rw [if_neg hw] at h
      obtain ⟨pv1, st1, -, h⟩ := run_bind_eq_ok h
      obtain ⟨_, st2, -, h⟩ := run_bind_eq_ok h
      obtain ⟨set, st3, -, h⟩ := run_bind_eq_ok h
      obtain ⟨_, st4, -, h⟩ := run_bind_eq_ok h
      have hidx : find pv1.iovec_map - 1 = noSlot := (Prod.mk.inj (EStateM.Result.ok.inj h).1).2
      rcases find_cases pv1.iovec_map with ⟨hlt, -⟩ | ⟨heq, -⟩ <;> omega

theorem Slots.ne_gap_of_full (h : Slots pv (entrySlots es)) (hw : weight pv.iovec_map = pv.num) :
    ∀ e ∈ es, e ≠ .gap := by
  rintro e he rfl
  rw [h.weight_eq, ← h.length, used, List.length_filter_eq_length_iff] at hw
  have hnull := hw .null (List.mem_flatMap.mpr ⟨.gap, he, List.mem_singleton.mpr rfl⟩)
  cases hnull

/-- **The pbuf comes before everything else.** Without compression, slot zero is not a leaf's: popping
takes a leaf that is too short. -/
theorem prependPbufPullup_spec (compress : Bool) (hfits : (Seg.pbuf (a.setLen length)).Fits)
    (hwf : Wf (depth + 1) pv) (hfirst : compress = false → (pv.get 0).isLeaf = false)
    (hown : Owns c mem st.mgr (segRefs pv.segs ++ a.ref :: refs) (pv.objs ++ objs))
    (hn : depth + depth ≤ n + 1) :
    Outcome (prependPbufPullup c compress n pv a length) st
      (PutBack c mem .front a refs objs length pv st) (HollowRead compress) := by
  obtain ⟨es, h⟩ := Holds.of_wf hwf hown
  rw [prependPbufPullup]
  refine .step (paddrToAddr_run h.owns List.mem_cons_self st) ?_
  refine ((findPrependSlot_spec compress h).with_run).andThen ?_
  rintro ⟨pv1, index⟩ st' ⟨hrun, rfl, hobj, es', h', hsegs, hslot⟩
  have hnum := PvbufOf.num_eq_of_obj hobj
  have hsegs' := hsegs.trans h.slots.segs_eq.symm
  dsimp only at hobj h' hslot hnum hrun ⊢
  rcases hslot with ⟨hlt, rest, rfl, -⟩ | ⟨rfl, e, rest, hne, rfl⟩
  · rw [if_pos (by omega)]
    rw [gaps_succ'] at h' hsegs'
    have hs := h'.slots
    rw [entrySlots_mid] at hs
    have hi : (entrySlots (gaps index)).length = index := by simp
    refine .step (iovecSetPbufEnt_run hs hi st') (.pure (.of_over hfits _ _ h' hi hobj ?_ rfl rfl))
    rw [← hsegs']
    simp [join, IovEntry.segs]
  · have hge := noSlot_ge pv1
    rw [if_neg (by omega)]
    obtain ⟨rfl, hfull⟩ := findPrependSlot_none hrun
    have hlong : ∀ a b, e = .seg (.long a b) → ∃ e1 rest', rest = e1 :: rest' ∧ e1 ≠ .gap := by
      rintro a b rfl
      have hs : Slots pv1 ([] ++ .long a :: .long2 b :: entrySlots rest) := h'.slots
      cases compress with
      | false =>
        have hleaf := hfirst rfl
        rw [hs.get_at (i := 0) rfl] at hleaf
        cases hleaf
      | true =>
        have hno := h'.slots.ne_gap_of_full (hfull rfl)
        cases rest with
        | cons e1 rest' => exact ⟨e1, rest', rfl, hno e1 (by simp)⟩
        | nil =>
          have hlen := hs.length
          have hle := pv1.le_num
          simp [← hlen] at hle
    refine (freeSlotZero_spec hne compress hn h' hlong).bind ?_
    rintro ⟨pv2, ok⟩ st2 ⟨hout, hmem, hfreed⟩
    cases ok with
    | false =>
      obtain ⟨⟨refs', objs', hown'⟩, hfree⟩ := hfreed
      exact .pure ⟨hout, hmem, ⟨refs' ++ refs, objs', hown'.perm List.perm_middle (.refl _)⟩, hfree⟩
    | true =>
      obtain ⟨pv0, es0, hover, hobj0, hh, hsegs0⟩ := hfreed
      refine .step (iovecMapSet_run _ (by decide) st2) (.pure ?_)
      rw [hover]
      refine PutBack.of_over hfits [] es0 hh rfl (hobj0.trans hobj) ?_ hout hmem
      rw [List.nil_append, entrySegs_append, hsegs0]
      rfl

end

/-! ## The last slot -/

section
variable {P : Pvbuf → Prop} {es1 : List IovEntry} {n : Nat}

theorem PlacedAt.freed_back
    (hat : PlacedAt c mem P .back e refs objs es1 [.gap] pv0 [e1] st es r st')
    (hobj : pv0.obj = pv.obj) (hsegs : entrySegs (es1 ++ [e1]) ++ e.segs = pv.segs) :
    Freed c mem P .back k refs objs pv st (Prod.map (·.over k x) id r) st' := by
  obtain ⟨pv1, ok⟩ := r
  have hseg := hat.segs
  refine ⟨hat.out, hat.mem, ?_⟩
  cases ok with
  | true =>
    refine ⟨pv1, es1 ++ es, fun y => PvbufOf.over_over, hat.obj.trans hobj, hat.holds, ?_⟩
    rw [entrySegs_append, hseg, ← hsegs]
    simp [join]
  | false =>
    have hown := hat.holds.owns
    rw [if_neg Bool.false_ne_true, ← List.append_assoc] at hown
    exact ⟨⟨_, _, hown⟩, hat.failed rfl⟩

theorem freeLastSlot_sub (hn : depth + depth ≤ n + 1)
    (h : Holds c mem (Wf depth) st.mgr pv (es1 ++ [e1] ++ [.sub data_length sub]) refs objs) :
    ∃ last_set, (iovecMapIsset pv (pv.num - 2)).run st = .ok last_set st ∧
      Outcome (appendPvbufIntoIovec c (appendPvbuf c n false sub data_length.toNat) pv (pv.num - 2) sub
          data_length.toNat last_set) st
        (Freed c mem (Wf (depth + 1 + depth)) .back (pv.num - 1) refs objs pv st) fun _ => False := by
  have hok : (IovEntry.sub data_length sub).Ok (Wf depth) := h.ok _ (by simp)
  have hlen := hok.toNat_eq
  have hentry : BitVec.ofNat 32 data_length.toNat = data_length := by simp
  have hlong := not_tooLong_toNat data_length
  have hnum := pv.le_num
  have hlast : (entrySlots (es1 ++ [e1])).length = pv.num - 1 := by
    rw [← h.slots.length, entrySlots_append (es1 ++ [e1]), List.length_append]
    rfl
  have hq : pv.num - 2 + 1 = (entrySlots es1).length + e1.slots.length := by
    rw [entrySlots_append, List.length_append] at hlast
    simp only [entrySlots_cons, entrySlots_nil, List.append_nil] at hlast
    omega
  -- with the pvbuf taken out, the call is one of those known
  have hs : Slots pv (entrySlots (es1 ++ [e1]) ++ .pvbuf data_length sub :: []) := by
    have hs := h.slots
    rwa [entrySlots_append] at hs
  have hpv : (pv.clear (pv.num - 1)).over (pv.num - 1) (.pvbuf data_length sub) = pv :=
    hs.clear_over hlast rfl
  have hout : Holds c mem (Wf depth) st.mgr (pv.clear (pv.num - 1)) (es1 ++ [e1] ++ [.gap])
      (segRefs sub.segs ++ refs) (sub.objs ++ objs) := by
    have hlast' : Holds c mem (Wf depth) st.mgr pv (es1 ++ [e1] ++ [.sub data_length sub] ++ []) refs objs := by
      rwa [List.append_nil]
    have htake := hlast'.take_out (x := .pvbuf data_length sub) rfl hlast
    rwa [List.append_nil] at htake
  have hs0 := hout.slots
  rw [entrySlots_mid] at hs0
  have hfreed : ∀ r st', (∃ es, PlacedAt c mem (Wf (depth + 1 + depth)) .back (.sub data_length sub) refs
      objs es1 [.gap] (pv.clear (pv.num - 1)) [e1] st es r st') →
      Freed c mem (Wf (depth + 1 + depth)) .back (pv.num - 1) refs objs pv st
        (Prod.map (·.over (pv.num - 1) (.pvbuf data_length sub)) id r) st' := by
    rintro r st' ⟨es, hat⟩
    refine hat.freed_back rfl ?_
    rw [h.slots.segs_eq, entrySegs_append (es1 ++ [e1])]
    simp
  have hcall : ∀ last_set, (last_set = true → (pv.clear (pv.num - 1)).get (pv.num - 2) ≠ .null) →
      (∀ a, (pv.clear (pv.num - 1)).get (pv.num - 2) ≠ .long a) →
      appendPvbufIntoIovec c (appendPvbuf c n false sub data_length.toNat) pv (pv.num - 2) sub
          data_length.toNat last_set =
        Prod.map (·.over (pv.num - 1) (.pvbuf data_length sub)) id <$>
          appendPvbufIntoIovec c (appendPvbuf c n false sub data_length.toNat) (pv.clear (pv.num - 1))
            (pv.num - 2) sub data_length.toNat last_set := by
    intro last_set hset hfirst
    conv_lhs => rw [← hpv]
    exact appendPvbufIntoIovec_over (by omega) (by omega) (by omega) hfirst hset _ sub
      data_length.toNat
  by_cases he1 : e1 = .gap
  · subst he1
    have hi : (entrySlots es1).length = pv.num - 2 := (Nat.succ.inj hq).symm
    have hget : (pv.clear (pv.num - 1)).get (pv.num - 2) = .null := Slots.get_at (x := .null) hs0 hi
    have hs1 := h.slots
    rw [entrySlots_mid] at hs1
    refine ⟨false, iovecMapIsset_run (x := .null) hs1 hi st, ?_⟩
    rw [hcall false (fun hc => by cases hc) (fun a => by rw [hget]; intro h; cases h), appendPvbufIntoIovec,
      if_pos (by decide)]
    refine .map (Outcome.bind (P := fun pv' st' => PlacedAt c mem (Wf (depth + 1 + depth)) .back
      (.sub data_length sub) refs objs es1 [.gap] (pv.clear (pv.num - 1)) [.gap] st
      [.sub data_length sub] (pv', true) st') ?_ fun pv' st' hat => .pure (hfreed _ _ ⟨_, hat⟩))
    have hfree := placeFree (pvbufItem hok.1 hlen) (P := Wf (depth + 1 + depth)) .back
      (fun _ => Wf.mono (by omega)) (hout.mono fun _ => Wf.mono (by omega)) hi
    rw [show (pvbufItem hok.1 hlen).entry = .sub data_length sub from
      congrArg (IovEntry.sub · sub) hentry] at hfree
    exact (hfree.returns hlong).outcome _
  · obtain ⟨l, y, hy, hnull⟩ := IovEntry.exists_last he1
    have hget : (pv.clear (pv.num - 1)).get (pv.num - 2) = y := by
      rw [hy, List.append_assoc, ← List.append_assoc] at hs0
      rw [hy, List.length_append, List.length_singleton] at hq
      exact hs0.get_at (by rw [List.length_append]; omega)
    have hfirst : ∀ a, y ≠ .long a := by
      rintro a rfl
      cases e1 with
      | seg s => cases s with
        | long _ _ => cases l with
          | nil => cases hy
          | cons z l => cases l <;> simp [IovEntry.slots] at hy
        | pbuf _ | short _ => cases l <;> simp [IovEntry.slots] at hy
      | gap | sub _ _ => cases l <;> simp [IovEntry.slots] at hy
    have hs1 := h.slots
    rw [entrySlots_mid] at hs1
    refine ⟨true, hs1.isset_last he1 hq st, ?_⟩
    rw [hcall true (fun _ hc => by rw [hget] at hc; rw [hc] at hnull; cases hnull)
      fun a => by rw [hget]; exact hfirst a]
    have hins : PlaceSpec c mem .back depth depth (.sub (BitVec.ofNat 32 data_length.toNat) sub)
        (TooLong data_length.toNat) (appendPvbuf c n false sub data_length.toNat) :=
      appendPvbuf_place hn hok.1 hlen fun hc => by cases hc
    have hspec := (appendPvbufIntoIovec_spec hok.1 hlen hins he1 hout hq).returns hlong
    rw [hentry] at hspec
    exact .map ((hspec.outcome _).mono hfreed)

/-- **The pbuf comes after everything else**, where the last slot is not a leaf's. -/
theorem appendPbufPulltail_spec (hfits : (Seg.pbuf (a.setLen length)).Fits)
    (hwf : Wf (depth + 1) pv) (hlast : (pv.get (pv.num - 1)).isLeaf = false)
    (hown : Owns c mem st.mgr (segRefs pv.segs ++ a.ref :: refs) (pv.objs ++ objs))
    (hn : depth + depth ≤ n + 1) :
    Returns (appendPbufPulltail c n pv a length) st
      (PutBack c mem .back a refs objs length pv st) := by
  obtain ⟨es, h⟩ := Holds.of_wf hwf hown
  have hnum := pv.le_num
  rw [appendPbufPulltail]
  refine .step (paddrToAddr_run h.owns List.mem_cons_self st) ?_
  rw [findAppendSlot]
  rcases h.slots.backSlot with ⟨hz, rest, e, hne, rfl⟩ | ⟨hz, hslot⟩
  · rw [if_neg (not_not.mpr hz), if_neg (by decide)]
    refine .step (run_pure st _) ?_
    have hge := noSlot_ge pv
    dsimp only
    rw [if_neg (by omega)]
    cases e with
    | gap => exact absurd rfl hne
    | seg s =>
      -- the last slot of a leaf
      obtain ⟨l, x, hx, hnull⟩ := IovEntry.exists_last hne
      have hs := h.slots
      rw [entrySlots_append, entrySlots_cons, entrySlots_nil, List.append_nil, hx,
        ← List.append_assoc] at hs
      have hlen : (entrySlots rest ++ l).length = pv.num - 1 := by
        rw [← hs.length]
        simp
      have hleaf := Seg.isLeaf_of_mem (s := s) (x := x) (by rw [hx]; simp)
      rw [hs.get_end hlen, hleaf] at hlast
      cases hlast
    | sub data_length sub =>
      obtain ⟨es1, e1, rfl⟩ : ∃ es1 e1, rest = es1 ++ [e1] := by
        cases rest using List.reverseRecOn with
        | nil =>
          have hlen := h.slots.length
          rw [← hlen] at hnum
          exact absurd hnum (by show ¬ 7 ≤ 1; decide)
        | append_singleton es1 e1 => exact ⟨es1, e1, rfl⟩
      obtain ⟨last_set, hset, hcall⟩ := freeLastSlot_sub hn h
      have hs := h.slots
      rw [entrySlots_append] at hs
      have hlen : (entrySlots (es1 ++ [e1])).length = pv.num - 1 := by
        rw [← hs.length, List.length_append]
        rfl
      have hs' : Slots pv (entrySlots (es1 ++ [e1]) ++ [.pvbuf data_length sub]) := hs
      have hget : pv.get (pv.num - 1) = .pvbuf data_length sub := hs'.get_end hlen
      refine .step hset (.step (iovecMapIsset_run hs' hlen st) ?_)
      rw [hget]
      refine (hcall.returns fun _ => id).bind ?_
      rintro ⟨pv2, ok⟩ st2 ⟨hout, hmem, hfreed⟩
      cases ok with
      | false =>
        obtain ⟨⟨refs', objs', hown'⟩, hfree⟩ := hfreed
        exact .pure ⟨hout, hmem, ⟨refs' ++ refs, objs', hown'.perm List.perm_middle (.refl _)⟩, hfree⟩
      | true =>
        obtain ⟨pv0, es0, hover, hobj0, hh, hsegs0⟩ := hfreed
        have hle := pv.num_le
        have hlen0 : (entrySlots es0).length = pv.num - 1 := by
          rw [← PvbufOf.num_eq_of_obj hobj0, ← hh.slots.length, join, entrySlots_append,
            List.length_append]
          rfl
        refine .step (iovecMapSet_run _ (by omega) st2) (.pure ?_)
        rw [hover]
        refine PutBack.of_over hfits es0 [] (by rwa [List.append_nil]) hlen0 hobj0 ?_ hout hmem
        rw [List.append_nil, entrySegs_append, hsegs0]
        rfl
  · rw [if_pos hz]
    refine .step (run_pure st _) ?_
    dsimp only
    rcases hslot with ⟨hlt, rest, k, rfl, hrest⟩ | ⟨hno, -⟩
    · rw [if_pos hlt]
      have hlen := h.slots.length
      rw [entrySlots_append, List.length_append, hrest, entrySlots_gaps, List.length_replicate] at hlen
      obtain ⟨k, rfl⟩ : ∃ k', k = k' + 1 := ⟨k - 1, by omega⟩
      rw [gaps_succ, ← List.singleton_append, ← List.append_assoc] at h
      have hs := h.slots
      rw [entrySlots_mid] at hs
      refine .step (iovecSetPbufEnt_run hs hrest st) (.pure (.of_over hfits _ _ h hrest rfl ?_ rfl rfl))
      rw [h.slots.segs_eq]
      simp [join, IovEntry.segs]
    · have hle := pv.num_le
      have hbig : 64 < noSlot := by decide
      split at hno <;> omega

end

end Xdp2
