import Xdp2.Pvbuf.InsertEntry
import Xdp2.Pvbuf.PopSpec

/-!
# What prepending and appending do

The functions that make a new pvbuf, the search for a slot, which may shift the array, and
`__xdp2_pvbuf_prepend_paddr` and `__xdp2_pvbuf_append_paddr` themselves, each level assuming
`PlaceSpec` of the level below.
-/

namespace Xdp2

open BitWord StateError ListEnd

variable {c : MgrConfig} {mem : Mem} {refs : List Ref} {objs : List (Nat × Nat)} {st st' : PvSt}
  {pv pv' : Pvbuf} {side : Side} {depth D : Nat} {item : Item D} {es1 es2 : List IovEntry}

/-! ## A new pvbuf -/

/-- What came of asking for a new pvbuf. -/
def NewTried (c : MgrConfig) (st : PvSt) (got : Option Pvbuf) (st' : PvSt) : Prop :=
  ∃ size st1, (pvbufGetSize c).run st = .ok size st1 ∧ (pvbufAlloc size).run st1 = .ok got st' ∧
    ∀ new, got = some new → Slots new (List.replicate new.num .null)

/-- A pvbuf `new` with the entry put in and the leaves of `old` is in the place of `old`. -/
structure MadeNew (side : Side) (item : Item D) (es1 es2 old : List IovEntry) (pv new : Pvbuf)
    (r : Pvbuf × Bool) : Prop where
  ok : r.2 = true
  obj : r.1.obj = pv.obj
  made : ∃ new' es k, new'.obj = new.obj ∧ Slots new' (entrySlots es) ∧ (∀ e ∈ es, e.Ok (Wf D)) ∧
    entrySegs es = join side item.entry.segs (entrySegs old) ∧ entryObjs es = item.entry.objs ∧
    Slots r.1 (entrySlots es1 ++ (List.replicate k .null ++
      .pvbuf (BitVec.ofNat 32 (cachedLen (segsLen (entrySegs old)) item.length)) new' :: entrySlots es2))

/-- What putting an entry into a new pvbuf has to do with what came of asking for one. -/
def NewSpec (c : MgrConfig) (side : Side) (item : Item D) (es1 es2 old : List IovEntry) (pv : Pvbuf)
    (m : PvM (Pvbuf × Bool)) : Prop :=
  ∀ ⦃st got st'⦄, NewTried c st got st' → Outcome m st
    (fun r st1 => st1 = st' ∧ (got = none → r = (pv, false)) ∧
      ∀ new, got = some new → MadeNew side item es1 es2 old pv new r) (TooLong item.length)

theorem NewSpec.placed (hm : NewSpec c side item es1 es2 old pv m) (hold : entryObjs old = [])
    (h : Holds c mem (Wf depth) st.mgr pv (es1 ++ old ++ es2) (segRefs item.entry.segs ++ refs)
      (item.entry.objs ++ objs)) :
    Outcome m st (fun r st' => ∃ es, PlacedAt c mem (Wf (depth + 1 + D)) side item.entry refs objs
      es1 es2 pv old st es r st') (TooLong item.length) := by
  obtain ⟨size, st1, hrun1, hsize, hout1, hmem1, hown1⟩ := pvbufGetSize_spec h.focus_arg
  obtain ⟨got, st2, hrun2, hout2, hmem2, hcase⟩ := pvbufAlloc_spec hsize hown1
  have hout := hout2.trans hout1
  have hmem := hmem2.trans hmem1
  have hmore := h.mono fun _ => Wf.mono (show depth ≤ depth + 1 + D by omega)
  rcases hcase with ⟨rfl, hfree, hown2⟩ | ⟨new, rfl, hnew, hown2⟩
  · refine (hm ⟨size, st1, hrun1, hrun2, fun _ h => by cases h⟩).mono ?_
    rintro r st' ⟨rfl, hnone, -⟩
    rw [hnone rfl]
    exact ⟨old, hmore.insert side rfl h.slots (fun e he => hmore.ok e (by simp [he])) rfl hown2, rfl, rfl,
      hout, hmem, fun _ => ⟨size, hfree⟩⟩
  · refine (hm ⟨size, st1, hrun1, hrun2, fun _ heq => Option.some.inj heq ▸ hnew⟩).mono ?_
    rintro ⟨pv', ok⟩ st' ⟨rfl, -, hmade⟩
    obtain ⟨rfl, hobj, new', es, k, hobj', hnew', hok, hsegs, hobjs, hs⟩ := hmade new rfl
    generalize hn : segsLen (entrySegs old) = n at hs
    have hlen : item.length = 0 ∨ segsLen new'.segs = n + item.length := by
      rw [hnew'.segs_eq, hsegs, ← hn]
      exact item.segsLen_join side _
    have hsegs' : entrySegs (gaps k ++ [.sub (BitVec.ofNat 32 (cachedLen n item.length)) new']) =
        if true then join side item.entry.segs (entrySegs old) else entrySegs old := by
      simp [IovEntry.segs, hnew'.segs_eq, hsegs]
    refine ⟨_, hmore.insert side hobj ?_ ?_ hsegs' ?_, hobj, hsegs', hout, hmem, fun h => by cases h⟩
    · simpa [IovEntry.slots] using hs
    · intro e he
      rcases List.mem_append.mp he with he | he
      · exact forall_ok_gaps k e he
      · obtain rfl := List.mem_singleton.mp he
        have hwf : Wf (D + 1) new' := ⟨es, hnew', hok⟩
        exact ⟨hwf.mono (by omega), cachedLen_cases hlen⟩
    · rw [hold, List.nil_append, ← hobj'] at hown2
      simpa [IovEntry.objs, hnew'.objs_eq, hobjs] using hown2

theorem prependPaddrNewPvbuf_new (item : Item D) (hs : Slots pv (entrySlots (es1 ++ [.seg t] ++ es2)))
    (hfits : t.Fits) (hi : (entrySlots es1).length = i) :
    NewSpec c .front item es1 es2 [.seg t] pv
      (prependPaddrNewPvbuf c pv i item.paddr.paddr1 item.paddr.paddr2 item.length) := by
  rintro st got st2 ⟨size, st1, hrun, halloc, hnew⟩
  rw [entrySlots_mid] at hs
  refine .step hrun (.step halloc ?_)
  cases got with
  | none => exact .pure ⟨rfl, fun _ => rfl, fun _ h => by cases h⟩
  | some new =>
    have hnew := hnew new rfl
    have hle := new.le_num
    dsimp only
    refine .step (assert_run (decide_eq_true (by omega)) _ st2) ?_
    have hset := hs.get_isNull (fun h => by cases h) hi
    refine .step (assert_run (by rw [hset]; rfl) _ st2) ?_
    refine .step (slotLen_run hs hi st2) ?_
    obtain ⟨new1, hrun1, hobj1, hnew1⟩ := moveToTail_run hs hi hnew st2
    refine .step hrun1 ?_
    rw [hs.get_paddr1 hi, PvbufOf.num_eq_of_obj hobj1]
    -- the paddr goes into the last of the slots still free
    obtain ⟨pos, hpos⟩ : ∃ pos, new.num - 1 - t.paddr1.isLongAddr.toNat - 1 -
        item.paddr.paddr1.isLongAddr.toNat = pos := ⟨_, rfl⟩
    have hroom : new.num - 1 - t.paddr1.isLongAddr.toNat = pos + item.width := by
      have ht := Bool.toNat_le t.paddr1.isLongAddr
      have ha := Bool.toNat_le item.paddr.paddr1.isLongAddr
      rw [Item.width]
      omega
    rw [hroom, ← List.replicate_append_replicate, List.append_assoc] at hnew1
    rw [hpos]
    refine (item.put hnew1 List.length_replicate st2).bind ?_
    rintro new2 st3 ⟨rfl, hobj2, hok, hnew2⟩
    obtain ⟨pv', hrun, hobj, hs'⟩ :=
      replaceByPvbuf_run hs hi (cachedLen_lt t.len item.length) new2 st3
    refine .inl ⟨_, _, hrun, rfl, (fun h => by cases h), fun _ heq => ?_⟩
    cases heq
    refine ⟨rfl, hobj, new2, gaps pos ++ [item.entry, .seg t], _, hobj2.trans hobj1, by simpa using hnew2,
      ?_, by simp [IovEntry.segs, join], by simp [IovEntry.objs],
      by simpa [IovEntry.segs, segsLen] using hs'⟩
    intro e he
    rcases List.mem_append.mp he with he | he
    · exact forall_ok_gaps pos e he
    · rcases List.mem_pair.mp he with rfl | rfl
      · exact hok
      · exact hfits

theorem Slots.get_last (h : Slots pv (l1 ++ ((IovEntry.seg t).slots ++ l2)))
    (hq : q + 1 = l1.length + (IovEntry.seg t).slots.length) :
    (pv.get q).isNull = false ∧ (pv.get q).isLongAddr = t.paddr1.isLongAddr ∧
      q - (pv.get q).wordNum = l1.length := by
  cases t with
  | pbuf a =>
    obtain rfl : q = l1.length := Nat.succ.inj hq
    rw [h.get_at (x := .pbuf a) rfl]
    exact ⟨rfl, rfl, rfl⟩
  | short a =>
    obtain rfl : q = l1.length := Nat.succ.inj hq
    rw [h.get_at (x := .short a) rfl]
    exact ⟨rfl, rfl, rfl⟩
  | long a b =>
    obtain rfl : q = l1.length + 1 := Nat.succ.inj hq
    rw [h.get_succ (x := .long a) (y := .long2 b) rfl]
    exact ⟨rfl, rfl, rfl⟩

theorem Slots.get_not_pvbuf (h : Slots pv (l1 ++ ((IovEntry.seg t).slots ++ l2)))
    (hq : q + 1 = l1.length + (IovEntry.seg t).slots.length) (data_length : BitVec 32) (sub : Pvbuf) :
    pv.get q ≠ .pvbuf data_length sub := by
  obtain ⟨l, x, hx, -⟩ := IovEntry.exists_last (e := .seg t) nofun
  have hx' : x ∈ (IovEntry.seg t).slots := by rw [hx]; simp
  rw [hx, List.append_assoc, ← List.append_assoc l1] at h
  rw [hx, List.length_append, List.length_singleton] at hq
  rw [h.get_at (by rw [List.length_append]; omega)]
  rintro rfl
  cases t <;> simp [IovEntry.slots] at hx'

theorem appendPaddrNewPvbuf_new (item : Item D) (hs : Slots pv (entrySlots (es1 ++ [.seg t] ++ es2)))
    (hfits : t.Fits) (hq : q + 1 = (entrySlots es1).length + (IovEntry.seg t).slots.length) :
    NewSpec c .back item es1 es2 [.seg t] pv
      (appendPaddrNewPvbuf c pv q item.paddr.paddr1 item.paddr.paddr2 item.length true) := by
  rintro st got st2 ⟨size, st1, hrun, halloc, hnew⟩
  rw [entrySlots_mid] at hs
  obtain ⟨hnull, hlong, hfirst⟩ := hs.get_last hq
  refine .step hrun (.step halloc ?_)
  cases got with
  | none => exact .pure ⟨rfl, fun _ => rfl, fun _ h => by cases h⟩
  | some new =>
    have hnew := hnew new rfl
    have hle := new.le_num
    refine .step (assert_run (decide_eq_true (by omega)) _ st2) ?_
    refine .step (assert_run (by rw [hnull]; rfl) _ st2) ?_
    rw [hlong, hfirst]
    refine .step (slotLen_run hs rfl st2) ?_
    obtain ⟨new1, hrun1, hobj1, hnew1⟩ := moveToHead_run hs rfl hnew st2
    refine .step hrun1 ?_
    -- the paddr goes into the first of the slots still free
    obtain ⟨k, hroom⟩ : ∃ k, new.num - 1 - t.paddr1.isLongAddr.toNat = item.width + k := by
      have ht := Bool.toNat_le t.paddr1.isLongAddr
      have ha := item.width_le
      exact ⟨new.num - 1 - t.paddr1.isLongAddr.toNat - item.width, by omega⟩
    rw [hroom, ← List.replicate_append_replicate] at hnew1
    refine (item.put hnew1 t.slots_length st2).bind ?_
    rintro new2 st3 ⟨rfl, hobj2, hok, hnew2⟩
    obtain ⟨pv', hrun, hobj, hs'⟩ :=
      replaceByPvbuf_run hs rfl (cachedLen_lt t.len item.length) new2 st3
    refine .inl ⟨_, _, hrun, rfl, (fun h => by cases h), fun _ heq => ?_⟩
    cases heq
    refine ⟨rfl, hobj, new2, [.seg t, item.entry] ++ gaps k, _, hobj2.trans hobj1, by simpa using hnew2,
      ?_, by simp [IovEntry.segs, join], by simp [IovEntry.objs],
      by simpa [IovEntry.segs, segsLen] using hs'⟩
    intro e he
    rcases List.mem_append.mp he with he | he
    · rcases List.mem_pair.mp he with rfl | rfl
      · exact hfits
      · exact hok
    · exact forall_ok_gaps k e he

theorem appendPaddrNewPvbuf_free (item : Item D) (hs : Slots pv (entrySlots (es1 ++ [.gap] ++ es2)))
    (hi : (entrySlots es1).length = i) :
    NewSpec c .back item es1 es2 [.gap] pv
      (appendPaddrNewPvbuf c pv i item.paddr.paddr1 item.paddr.paddr2 item.length false) := by
  rintro st got st2 ⟨size, st1, hrun, halloc, hnew⟩
  rw [entrySlots_mid] at hs
  refine .step hrun (.step halloc ?_)
  cases got with
  | none => exact .pure ⟨rfl, fun _ => rfl, fun _ h => by cases h⟩
  | some new =>
    have hnew := hnew new rfl
    have hle := new.le_num
    refine .step (assert_run (decide_eq_true (by omega)) _ st2) ?_
    refine .step (iovecMapSet_run pv (hs.lt hi) st2) ?_
    obtain ⟨k, hroom⟩ : ∃ k, new.num = item.width + k := by
      have ha := item.width_le
      exact ⟨new.num - item.width, by omega⟩
    rw [hroom, ← List.replicate_append_replicate, ← List.nil_append (_ ++ _)] at hnew
    refine (item.put hnew rfl st2).bind ?_
    rintro new2 st3 ⟨rfl, hobj2, hok, hnew2⟩
    refine .step (setPvbufIovec_run (cachedLen_lt 0 item.length) _ _ _ st3) (.pure ?_)
    refine ⟨rfl, nofun, fun _ heq => ?_⟩
    cases heq
    refine ⟨rfl, rfl, new2, [item.entry] ++ gaps k, 0, hobj2, by simpa using hnew2, ?_,
      by simp [IovEntry.segs, join], by simp [IovEntry.objs], hs.put hi rfl⟩
    intro e he
    rcases List.mem_append.mp he with he | he
    · obtain rfl := List.mem_singleton.mp he
      exact hok
    · exact forall_ok_gaps k e he

section
variable (item : Item D) {t : Seg}
  (h : Holds c mem (Wf depth) st.mgr pv (es1 ++ [.seg t] ++ es2) (segRefs item.entry.segs ++ refs)
    (item.entry.objs ++ objs))

include h

theorem prependPaddrNewPvbuf_spec (hi : (entrySlots es1).length = i) :
    Outcome (prependPaddrNewPvbuf c pv i item.paddr.paddr1 item.paddr.paddr2 item.length) st
      (fun r st' => ∃ es, PlacedAt c mem (Wf (depth + 1 + D)) .front item.entry refs objs es1 es2 pv
        [.seg t] st es r st') (TooLong item.length) :=
  (prependPaddrNewPvbuf_new item h.slots (h.ok (.seg t) (by simp)) hi).placed rfl h

theorem appendPaddrNewPvbuf_spec (hq : q + 1 = (entrySlots es1).length + (IovEntry.seg t).slots.length) :
    Outcome (appendPaddrNewPvbuf c pv q item.paddr.paddr1 item.paddr.paddr2 item.length true) st
      (fun r st' => ∃ es, PlacedAt c mem (Wf (depth + 1 + D)) .back item.entry refs objs es1 es2 pv
        [.seg t] st es r st') (TooLong item.length) :=
  (appendPaddrNewPvbuf_new item h.slots (h.ok (.seg t) (by simp)) hq).placed rfl h

end

/-! ## Searching for a slot -/

section
variable {es : List IovEntry}

theorem Slots.find_eq (h : Slots pv (List.replicate k .null ++ x :: l)) (hx : x.isNull = false) :
    find pv.iovec_map = k := by
  refine BitWord.find_eq ⟨Nat.zero_le k, ?_, fun j _ hj => ?_⟩
  · rw [h.map, getD_append_cons _ _ _ _ List.length_replicate, hx]
    rfl
  · rw [h.map, List.getD, List.getElem?_append_left (by simpa using hj),
      List.getElem?_getD_replicate_default_eq]
    rfl

theorem Slots.revFind_eq (h : Slots pv (l ++ x :: List.replicate k .null)) (hx : x.isNull = false) :
    revFind pv.iovec_map = l.length := by
  refine BitWord.revFind_eq ⟨h.lt rfl, ?_, fun j hj _ => ?_⟩
  · rw [h.map, getD_append_cons _ _ _ _ rfl, hx]
    rfl
  · have hsplit : l ++ x :: List.replicate k .null = (l ++ [x]) ++ List.replicate k .null := by simp
    rw [h.map, hsplit, List.getD, List.getElem?_append_right (by simpa using hj),
      List.getElem?_getD_replicate_default_eq]
    rfl

theorem Holds.reslot (h : Holds c mem P m pv es refs objs) (hobj : pv'.obj = pv.obj)
    (hs : Slots pv' (entrySlots es')) (hok : ∀ e ∈ es', e ∈ es ∨ e = .gap)
    (hsegs : entrySegs es' = entrySegs es) (hobjs : entryObjs es' = entryObjs es) :
    Holds c mem P m pv' es' refs objs := by
  refine ⟨hs, fun e he => ?_, by rw [hsegs, hobjs, hobj]; exact h.owns⟩
  rcases hok e he with he | rfl
  · exact h.ok e he
  · trivial

theorem mem_filter_gaps (h : e ∈ es.filter (fun e => !e.isGap) ∨ e ∈ gaps k) : e ∈ es ∨ e = .gap :=
  h.imp (fun h => (List.mem_filter.mp h).1) List.eq_of_mem_replicate

end

/-- What the search for a slot at the front finds: free slots up to the slot, the entries behind them,
if any, starting with one in use; or no free slot at the front. -/
def PrependSlot (num index : Nat) (es : List IovEntry) : Prop :=
  (index < num ∧ ∃ rest, es = gaps (index + 1) ++ rest ∧ ∀ rest', rest ≠ .gap :: rest') ∨
    (index = noSlot ∧ ∃ e rest, e ≠ .gap ∧ es = [e] ++ rest)

theorem findPrependSlotCompress_spec (hne : e ≠ .gap)
    (h : Holds c mem P st.mgr pv ([e] ++ rest) refs objs) :
    Returns (findPrependSlotCompress pv) st fun r st' => st' = st ∧ r.1.obj = pv.obj ∧
      ∃ es', Holds c mem P st.mgr r.1 es' refs objs ∧ entrySegs es' = entrySegs ([e] ++ rest) ∧
        PrependSlot pv.num r.2 es' := by
  have hle := pv.le_num
  rw [findPrependSlotCompress]
  split
  · exact .pure ⟨rfl, rfl, _, h, rfl, .inr ⟨rfl, e, rest, hne, rfl⟩⟩
  · rename_i hw
    refine (shiftPvbufIovecsToTail_spec h.slots).bind ?_
    rintro pv' st' ⟨rfl, hobj, k, hs⟩
    have hlen := hs.length
    rw [h.slots.weight_eq] at hw
    rw [PvbufOf.num_eq_of_obj hobj, List.length_append, List.length_replicate] at hlen
    obtain ⟨k, rfl⟩ : ∃ k', k = k' + 1 := ⟨k - 1, by omega⟩
    rw [used_entrySlots] at hs
    have hfilter : ([e] ++ rest).filter (fun e => !e.isGap) =
        e :: rest.filter fun e => !e.isGap := by
      rw [List.singleton_append]
      exact List.filter_cons_of_pos (by cases e <;> first | rfl | exact absurd rfl hne)
    obtain ⟨x, l, hx, hnull⟩ := IovEntry.exists_first hne
    have hfind : find pv'.iovec_map = k + 1 := by
      have hs' := hs
      rw [hfilter, entrySlots_cons, hx, List.cons_append] at hs'
      exact hs'.find_eq hnull
    have hfree := hs
    rw [List.replicate_succ', List.append_assoc] at hfree
    rw [hfind]
    refine .step (assert_run rfl _ st') (.step (iovecMapIsset_run hfree List.length_replicate st') ?_)
    have hsegs : entrySegs (gaps (k + 1) ++ ([e] ++ rest).filter fun e => !e.isGap) =
        entrySegs ([e] ++ rest) := by
      rw [entrySegs_append, entrySegs_gaps, List.nil_append, entrySegs_filter]
    have hh := h.reslot hobj (by rwa [entrySlots_append, entrySlots_gaps])
      (fun e he => mem_filter_gaps (List.mem_append.mp he).symm) hsegs
      (by rw [entryObjs_append, entryObjs_gaps, List.nil_append, entryObjs_filter])
    refine .step (assert_run rfl _ st') (.pure ⟨rfl, hobj, _, hh, hsegs, .inl ⟨?_, _, rfl, ?_⟩⟩)
    · dsimp only
      omega
    · intro rest' hrest
      rw [hfilter] at hrest
      exact hne (List.cons.inj hrest).1

theorem findPrependSlot_spec (compress : Bool) (h : Holds c mem P st.mgr pv es refs objs) :
    Returns (findPrependSlot compress pv) st fun r st' => st' = st ∧ r.1.obj = pv.obj ∧
      ∃ es', Holds c mem P st.mgr r.1 es' refs objs ∧ entrySegs es' = entrySegs es ∧
        PrependSlot pv.num r.2 es' := by
  have hle := pv.le_num
  have hle' := pv.num_le
  have hlen := h.slots.length
  rw [findPrependSlot]
  rcases find_cases pv.iovec_map with ⟨hlt, hq⟩ | ⟨hnone, hclear⟩
  · obtain ⟨e, rest, heq, hne⟩ := Slots.first (p := 0) h.slots hq
    obtain rfl : es = gaps (find pv.iovec_map) ++ e :: rest := heq
    split
    · rename_i hz
      have hpos := e.slots_length_pos
      simp only [entrySlots_append, entrySlots_gaps, entrySlots_cons, List.length_append,
        List.length_replicate] at hlen
      rw [if_pos (by omega)]
      refine .pure ⟨rfl, rfl, _, h, rfl, .inl ⟨by dsimp only; omega, e :: rest, ?_, ?_⟩⟩
      · rw [Nat.sub_add_cancel (by omega)]
      · exact fun rest' hrest => hne (List.cons.inj hrest).1
    · rename_i hz
      rw [not_not.mp hz] at h ⊢
      split
      · exact findPrependSlotCompress_spec hne h
      · exact .pure ⟨rfl, rfl, _, h, rfl, .inr ⟨rfl, e, rest, hne, rfl⟩⟩
  · rw [hnone, if_pos (by decide), if_neg (by omega)]
    have hgaps : es = gaps es.length := by
      have hs := h.slots
      rw [← List.nil_append es] at hs
      exact hs.none_from fun k _ => hclear k
    rw [hgaps, entrySlots_gaps, List.length_replicate] at hlen
    refine .pure ⟨rfl, rfl, es, h, rfl, .inl ⟨by dsimp only; omega, [], ?_, nofun⟩⟩
    rw [Nat.sub_add_cancel (by omega), ← hlen, ← hgaps, List.append_nil]

/-- What the search for a slot at the back finds: free slots from the slot on, or no free slot at the
back. -/
def AppendSlot (num index : Nat) (es : List IovEntry) : Prop :=
  (index < num ∧ ∃ rest k, es = rest ++ gaps k ∧ (entrySlots rest).length = index) ∨
    (index = noSlot ∧ ∃ rest e, e ≠ .gap ∧ es = rest ++ [e])

theorem findAppendSlotCompress_spec (hne : e ≠ .gap)
    (h : Holds c mem P st.mgr pv (rest ++ [e]) refs objs) :
    Returns (findAppendSlotCompress pv) st fun r st' => st' = st ∧ r.1.obj = pv.obj ∧
      ∃ es', Holds c mem P st.mgr r.1 es' refs objs ∧ entrySegs es' = entrySegs (rest ++ [e]) ∧
        AppendSlot pv.num r.2 es' := by
  rw [findAppendSlotCompress]
  split
  · exact .pure ⟨rfl, rfl, _, h, rfl, .inr ⟨rfl, rest, e, hne, rfl⟩⟩
  · rename_i hw
    refine (shiftPvbufIovecsToHead_spec h.slots).bind ?_
    rintro pv' st' ⟨rfl, hobj, k, hs⟩
    have hlen := hs.length
    rw [h.slots.weight_eq] at hw
    rw [PvbufOf.num_eq_of_obj hobj, List.length_append, List.length_replicate] at hlen
    obtain ⟨k, rfl⟩ : ∃ k', k = k' + 1 := ⟨k - 1, by omega⟩
    -- the last slot in use is the last one of `e`
    obtain ⟨l, x, hlx, hnull⟩ : ∃ l x, used (entrySlots (rest ++ [e])) = l ++ [x] ∧
        x.isNull = false := by
      obtain ⟨l, x, hx, hnull⟩ := IovEntry.exists_last hne
      refine ⟨used (entrySlots rest) ++ l, x, ?_, hnull⟩
      rw [entrySlots_append, used_append, entrySlots_cons, entrySlots_nil, List.append_nil,
        IovEntry.used_slots hne, hx, List.append_assoc]
    have hlast := hs
    rw [hlx, List.append_assoc, List.singleton_append] at hlast
    have hfree := hs
    rw [hlx, List.replicate_succ] at hfree
    rw [hlx, List.length_append, List.length_singleton] at hlen hw
    rw [hlast.revFind_eq hnull, PvbufOf.num_eq_of_obj hobj]
    have hsegs : entrySegs (((rest ++ [e]).filter fun e => !e.isGap) ++ gaps (k + 1)) =
        entrySegs (rest ++ [e]) := by
      rw [entrySegs_append, entrySegs_gaps, List.append_nil, entrySegs_filter]
    have hh := h.reslot hobj (by rwa [entrySlots_append, entrySlots_gaps, ← used_entrySlots])
      (fun e he => mem_filter_gaps (List.mem_append.mp he)) hsegs
      (by rw [entryObjs_append, entryObjs_gaps, List.append_nil, entryObjs_filter])
    refine .step (assert_run (decide_eq_true (by omega)) _ st') ?_
    refine .step (iovecMapIsset_run hfree (by simp) st') (.step (assert_run rfl _ st') (.pure ?_))
    refine ⟨rfl, hobj, _, hh, hsegs, .inl ⟨by dsimp only; omega, _, _, rfl, ?_⟩⟩
    rw [← used_entrySlots, hlx, List.length_append, List.length_singleton]

theorem Slots.backSlot (hs : Slots pv (entrySlots es)) :
    (revFind pv.iovec_map = pv.num - 1 ∧ ∃ rest e, e ≠ .gap ∧ es = rest ++ [e]) ∨
      (revFind pv.iovec_map ≠ pv.num - 1 ∧ AppendSlot pv.num
        (if revFind pv.iovec_map < pv.num then revFind pv.iovec_map + 1 else 0) es) := by
  have hle := pv.le_num
  have hle' := pv.num_le
  have hlen := hs.length
  rcases revFind_cases pv.iovec_map with ⟨hlt, hq⟩ | ⟨hnone, hclear⟩
  · have hin : revFind pv.iovec_map < (entrySlots es).length := by
      by_contra hge
      have hset := hq.set
      rw [hs.map, List.getD, List.getElem?_eq_none (by omega)] at hset
      cases hset
    have hs' := hs
    rw [← List.append_nil es] at hs'
    obtain ⟨rest, e, k, rfl, hne, hpos⟩ :=
      hs'.last ⟨hin, hq.set, fun j hj hjl => hq.clear j hj (by omega)⟩
    have heq : rest ++ e :: gaps k = rest ++ [e] ++ gaps k := by simp
    have hlen' : (entrySlots (rest ++ [e])).length = revFind pv.iovec_map + 1 := by
      simpa using hpos.symm
    by_cases hz : revFind pv.iovec_map = pv.num - 1
    · have hk : k = 0 := by
        rw [heq, entrySlots_append, List.length_append, hlen', entrySlots_gaps,
          List.length_replicate] at hlen
        omega
      subst hk
      exact .inl ⟨hz, rest, e, hne, rfl⟩
    · rw [if_pos (by omega)]
      exact .inr ⟨hz, .inl ⟨by omega, _, k, heq, hlen'⟩⟩
  · rw [hnone, if_neg (by omega)]
    have hgaps : es = gaps es.length := by
      rw [← List.nil_append es] at hs
      exact hs.none_from fun k _ => hclear k
    exact .inr ⟨by omega, .inl ⟨by omega, [], es.length, hgaps, rfl⟩⟩

theorem findAppendSlot_spec (compress : Bool) (h : Holds c mem P st.mgr pv es refs objs) :
    Returns (findAppendSlot compress pv) st fun r st' => st' = st ∧ r.1.obj = pv.obj ∧
      ∃ es', Holds c mem P st.mgr r.1 es' refs objs ∧ entrySegs es' = entrySegs es ∧
        AppendSlot pv.num r.2 es' := by
  rw [findAppendSlot]
  rcases h.slots.backSlot with ⟨hz, rest, e, hne, rfl⟩ | ⟨hz, hslot⟩
  · rw [if_neg (not_not.mpr hz)]
    split
    · exact findAppendSlotCompress_spec hne h
    · exact .pure ⟨rfl, rfl, _, h, rfl, .inr ⟨rfl, rest, e, hne, rfl⟩⟩
  · rw [if_pos hz]
    exact .pure ⟨rfl, rfl, es, h, rfl, hslot⟩


/-! ## Prepending -/

theorem gaps_split (h : k ≤ n) : gaps n = gaps (n - k) ++ gaps k := by
  rw [gaps, gaps, gaps, List.replicate_append_replicate, Nat.sub_add_cancel h]

theorem gaps_split' (h : k ≤ n) : gaps n = gaps k ++ gaps (n - k) := by
  rw [gaps, gaps, gaps, List.replicate_append_replicate, Nat.add_sub_cancel' h]

theorem Item.width_le_of_room (item : Item D)
    (h : 0 < index ∨ (!item.paddr.paddr1.isLongAddr) = true) : item.width ≤ index + 1 := by
  rw [Item.width]
  rcases h with h | h
  · have := Bool.toNat_le item.paddr.paddr1.isLongAddr
    omega
  · rw [Bool.not_eq_true'] at h
    rw [h]
    exact Nat.le_add_left _ _

theorem Item.succ_sub_width (item : Item D) (index : Nat) :
    index + 1 - item.width = index - item.paddr.paddr1.isLongAddr.toNat := by
  rw [Item.width]
  omega

theorem noSlot_ge (pv : Pvbuf) : pv.num ≤ noSlot := pv.num_le.trans (by decide)

theorem prependPaddrIntoIovec_spec {insert : Pvbuf → PvM (Pvbuf × Bool)}
    (hins : PlaceSpec c mem .front depth D item.entry (TooLong item.length) insert) (he : e ≠ .gap)
    (h : Holds c mem (Wf depth) st.mgr pv (es1 ++ [e] ++ es2) (segRefs item.entry.segs ++ refs) (item.entry.objs ++ objs))
    (hi : (entrySlots es1).length = i) :
    Outcome (prependPaddrIntoIovec c insert pv i item.paddr.paddr1 item.paddr.paddr2 item.length) st
      (fun r st' => ∃ es, PlacedAt c mem (Wf (depth + 1 + D)) .front item.entry refs objs es1 es2 pv
        [e] st es r st') (TooLong item.length) := by
  have hs := h.slots
  rw [entrySlots_mid] at hs
  rw [prependPaddrIntoIovec]
  refine .step (assert_run (by rw [hs.get_isNull he hi]; rfl) _ st) ?_
  match e, he with
  | .sub data_length sub, _ =>
    rw [h.sub_slots.get_at hi]
    exact (insertIntoSub_spec item hins h hi).mono fun _ _ ⟨_, _, _, hat⟩ => ⟨_, hat⟩
  | .seg (.pbuf a), _ =>
    rw [hs.get_at (x := .pbuf a) hi]
    exact prependPaddrNewPvbuf_spec item h hi
  | .seg (.short a), _ =>
    rw [hs.get_at (x := .short a) hi]
    exact prependPaddrNewPvbuf_spec item h hi
  | .seg (.long a b), _ =>
    rw [hs.get_at (x := .long a) hi]
    exact prependPaddrNewPvbuf_spec item h hi

/-- **Prepending puts the paddr before the leaves.** -/
theorem prependPaddr_place (compress : Bool) (item : Item D) {n : Nat} (hn : depth ≤ n) :
    PlaceSpec c mem .front depth D item.entry (TooLong item.length)
      (prependPaddr c compress item.paddr.paddr1 item.paddr.paddr2 item.length n) := by
  induction n generalizing depth with
  | zero =>
    obtain rfl := Nat.le_zero.mp hn
    exact fun _ _ _ _ hwf => hwf.elim
  | succ n ih =>
    obtain _ | depth := depth
    · exact fun _ _ _ _ hwf => hwf.elim
    have ih := ih (Nat.le_of_succ_le_succ hn)
    intro pv st refs objs hwf hown
    obtain ⟨es, h⟩ := Holds.of_wf hwf hown
    rw [prependPaddr]
    refine .step (paddrToAddr_run h.owns List.mem_cons_self st) ?_
    refine (findPrependSlot_spec compress h).andThen ?_
    rintro ⟨pv1, index⟩ st' ⟨rfl, hobj, es', h', hsegs, hslot⟩
    have hnum := PvbufOf.num_eq_of_obj hobj
    have hsegs' := hsegs.trans h.slots.segs_eq.symm
    dsimp only at hobj h' hslot hnum ⊢
    rcases hslot with ⟨hlt, rest, rfl, hrest⟩ | ⟨rfl, e, rest, hne, rfl⟩
    · by_cases hroom : 0 < index ∨ (!item.paddr.paddr1.isLongAddr) = true
      · rw [if_pos ⟨by omega, hroom⟩]
        rw [gaps_split (k := item.width) (item.width_le_of_room hroom)] at h' hsegs'
        refine (placeFree item (P := Wf (depth + 1 + D)) .front (fun _ => Wf.mono (by omega))
          (h'.mono fun _ => Wf.mono (by omega))
          (by rw [entrySlots_gaps, List.length_replicate, item.succ_sub_width])).bind ?_
        exact fun pv2 st2 hat => .pure (hat.placed_front hobj hsegs' (entrySegs_gaps _))
      · -- a long address, and only the first slot is free
        obtain ⟨rfl, hlong⟩ : index = 0 ∧ item.paddr.paddr1.isLongAddr = true := by
          simpa using hroom
        rw [if_neg fun hc => hroom hc.2, if_neg (by simp)]
        have hs : Slots pv1 ([] ++ .null :: entrySlots rest) := h'.slots
        refine .step (iovecMapIsset_run hs rfl st') ?_
        match rest, hrest with
        | [], _ =>
          have hlen := h'.slots.length
          have hle := pv1.le_num
          rw [List.append_nil, entrySlots_gaps, List.length_replicate] at hlen
          omega
        | e :: rest, hrest =>
          have hne : e ≠ .gap := fun he => hrest rest (by rw [he])
          have heq : gaps (0 + 1) ++ e :: rest = gaps 1 ++ [e] ++ rest := by simp
          rw [heq] at h' hsegs'
          exact (prependPaddrIntoIovec_spec ih hne h' rfl).mono
            fun _ _ ⟨_, hat⟩ => hat.placed_front hobj hsegs' (entrySegs_gaps _)
    · have hge := noSlot_ge pv1
      rw [if_neg (by omega), if_pos (by decide)]
      rw [← List.nil_append [e]] at h' hsegs'
      exact (prependPaddrIntoIovec_spec ih hne h' rfl).mono
        fun _ _ ⟨_, hat⟩ => hat.placed_front hobj hsegs' rfl

/-! ## Appending -/

theorem Slots.isset_last {e : IovEntry} (h : Slots pv (l1 ++ (e.slots ++ l2))) (he : e ≠ .gap)
    (hq : q + 1 = l1.length + e.slots.length) (st : PvSt) :
    (iovecMapIsset pv q).run st = .ok true st := by
  obtain ⟨l, x, hx, hnull⟩ := IovEntry.exists_last he
  rw [hx, List.append_assoc, ← List.append_assoc l1] at h
  rw [hx, List.length_append, List.length_singleton] at hq
  rw [iovecMapIsset_run h (by rw [List.length_append]; omega) st, hnull]
  rfl

theorem appendPaddrIntoIovec_spec {insert : Pvbuf → PvM (Pvbuf × Bool)}
    (hins : PlaceSpec c mem .back depth D item.entry (TooLong item.length) insert) (he : e ≠ .gap)
    (h : Holds c mem (Wf depth) st.mgr pv (es1 ++ [e] ++ es2) (segRefs item.entry.segs ++ refs) (item.entry.objs ++ objs))
    (hq : q + 1 = (entrySlots es1).length + e.slots.length) :
    Outcome
      (appendPaddrIntoIovec c insert pv q item.paddr.paddr1 item.paddr.paddr2 item.length true) st
      (fun r st' => ∃ es, PlacedAt c mem (Wf (depth + 1 + D)) .back item.entry refs objs es1 es2 pv
        [e] st es r st') (TooLong item.length) := by
  match e, he with
  | .sub data_length sub, _ =>
    obtain rfl : q = (entrySlots es1).length := Nat.succ.inj hq
    unfold appendPaddrIntoIovec
    rw [h.sub_slots.get_at rfl]
    exact (insertIntoSub_spec item hins h rfl).mono fun _ _ ⟨_, _, _, hat⟩ => ⟨_, hat⟩
  | .seg t, _ =>
    have hs := h.slots
    rw [entrySlots_mid] at hs
    unfold appendPaddrIntoIovec
    split
    · rename_i hget
      exact (hs.get_not_pvbuf hq _ _ hget).elim
    · exact appendPaddrNewPvbuf_spec item h hq

/-- **Appending puts the paddr after the leaves.** -/
theorem appendPaddr_place (compress : Bool) (item : Item D) (hn : depth ≤ n) :
    PlaceSpec c mem .back depth D item.entry (TooLong item.length)
      (appendPaddr c compress item.paddr.paddr1 item.paddr.paddr2 item.length n) := by
  induction n generalizing depth with
  | zero =>
    obtain rfl := Nat.le_zero.mp hn
    exact fun _ _ _ _ hwf => hwf.elim
  | succ n ih =>
    obtain _ | depth := depth
    · exact fun _ _ _ _ hwf => hwf.elim
    have ih := ih (Nat.le_of_succ_le_succ hn)
    intro pv st refs objs hwf hown
    obtain ⟨es, h⟩ := Holds.of_wf hwf hown
    rw [appendPaddr]
    refine .step (paddrToAddr_run h.owns List.mem_cons_self st) ?_
    refine (findAppendSlot_spec compress h).andThen ?_
    rintro ⟨pv1, index⟩ st' ⟨rfl, hobj, es', h', hsegs, hslot⟩
    have hnum := PvbufOf.num_eq_of_obj hobj
    have hpos := pv1.le_num
    have hlen := h'.slots.length
    have hsegs' := hsegs.trans h.slots.segs_eq.symm
    dsimp only at hobj h' hslot hnum hlen ⊢
    rcases hslot with ⟨hlt, rest, k, rfl, hrest⟩ | ⟨rfl, rest, e, hne, rfl⟩
    · rw [entrySlots_append, List.length_append, hrest, entrySlots_gaps,
        List.length_replicate] at hlen
      by_cases hroom : index ≠ pv1.num - 1 ∨ (!item.paddr.paddr1.isLongAddr) = true
      · rw [if_pos ⟨by omega, hroom⟩]
        have hwidth : item.width ≤ k - 1 + 1 :=
          item.width_le_of_room (hroom.imp_left fun hne => by omega)
        rw [gaps_split' (k := item.width) (n := k) (by omega), ← List.append_assoc] at h' hsegs'
        refine (placeFree item (P := Wf (depth + 1 + D)) .back (fun _ => Wf.mono (by omega))
          (h'.mono fun _ => Wf.mono (by omega)) hrest).bind ?_
        exact fun pv2 st2 hat => .pure (hat.placed_back hobj hsegs' (entrySegs_gaps _))
      · -- a long address, and only the last slot is free
        obtain ⟨rfl, hlong⟩ : index = pv1.num - 1 ∧ item.paddr.paddr1.isLongAddr = true := by
          simpa using hroom
        obtain rfl : k = 1 := by omega
        rw [if_neg fun hc => hroom hc.2]
        have heq : rest ++ gaps 1 = rest ++ [.gap] ++ [] := (List.append_nil _).symm
        rw [heq] at h' hsegs'
        have hs := h'.slots
        rw [entrySlots_mid] at hs
        refine .step (iovecMapIsset_run (x := .null) hs hrest st') ?_
        exact ((appendPaddrNewPvbuf_free item h'.slots hrest).placed rfl h').mono
          fun _ _ ⟨_, hat⟩ => hat.placed_back hobj hsegs' rfl
    · have hge := noSlot_ge pv1
      rw [if_neg (by omega)]
      rw [← List.append_nil (rest ++ [e])] at h' hsegs'
      have hs := h'.slots
      rw [entrySlots_mid] at hs
      have hq : pv1.num - 1 + 1 = (entrySlots rest).length + e.slots.length := by
        rw [Nat.sub_add_cancel (by omega), ← hlen]
        simp
      refine .step (hs.isset_last hne hq st') ?_
      exact (appendPaddrIntoIovec_spec ih hne h' hq).mono
        fun _ _ ⟨_, hat⟩ => hat.placed_back hobj hsegs' rfl

/-! ## Leaves -/

/-- A leaf to put in: its words and its length, which it can hold. -/
structure Arg where
  seg : Seg
  length : Nat
  len_eq : (seg.setLen length).len = length
  fits : (seg.setLen length).Fits

/-- The leaf put in. -/
def Arg.leaf (arg : Arg) : Seg := arg.seg.setLen arg.length

/-- A leaf is one of the things that can be put in. -/
def Arg.toItem (arg : Arg) : Item 0 where
  paddr := .leaf arg.seg
  length := arg.length
  exact := Seg.takes_of_len_eq arg.len_eq
  ok := arg.fits

theorem Arg.not_tooLong (arg : Arg) (e : Fault) : ¬ TooLong arg.length e := by
  rintro ⟨hle, -⟩
  have hlt := (arg.seg.setLen arg.length).len_lt
  rw [arg.len_eq] at hlt
  exact Nat.not_lt_of_le hle hlt

/-- Inserting the leaf `a` at an end of a pvbuf: it is there, or, if no pvbuf could be had, the leaves
are those there were. All references stay held, the one of `a` too. -/
structure Inserted (c : MgrConfig) (mem : Mem) (side : Side) (depth : Nat) (a : Seg)
    (refs : List Ref) (objs : List (Nat × Nat)) (pv : Pvbuf) (st : PvSt) (r : Pvbuf × Bool)
    (st' : PvSt) : Prop where
  wf : Wf (depth + 1) r.1
  obj : r.1.obj = pv.obj
  segs : r.1.segs = if r.2 then join side [a] pv.segs else pv.segs
  owns : Owns c mem st'.mgr (segRefs pv.segs ++ (a.refs ++ refs)) (r.1.objs ++ objs)
  out : st'.out = st.out
  mem : st'.mgr.mem = st.mgr.mem
  failed : r.2 = false → ∃ size, st'.mgr.pvbuf_free size = []

/-- What inserting a leaf into a well-formed pvbuf has to do. -/
def InsertSpec (c : MgrConfig) (mem : Mem) (side : Side) (depth : Nat) (a : Seg)
    (insert : Pvbuf → PvM (Pvbuf × Bool)) : Prop :=
  ∀ ⦃pv : Pvbuf⦄ ⦃st : PvSt⦄ ⦃refs : List Ref⦄ ⦃objs : List (Nat × Nat)⦄, Wf depth pv →
    Owns c mem st.mgr (segRefs pv.segs ++ (a.refs ++ refs)) (pv.objs ++ objs) →
    Returns (insert pv) st (Inserted c mem side depth a refs objs pv st)

theorem PlaceSpec.insertSpec {arg : Arg} {insert : Pvbuf → PvM (Pvbuf × Bool)}
    (h : PlaceSpec c mem side depth 0 arg.toItem.entry (TooLong arg.length) insert) :
    InsertSpec c mem side depth arg.leaf insert := by
  intro pv st refs objs hwf hown
  have hrefs : segRefs arg.toItem.entry.segs = arg.leaf.refs := List.append_nil _
  have hown1 : Owns c mem st.mgr (segRefs pv.segs ++ (segRefs arg.toItem.entry.segs ++ refs))
      (pv.objs ++ (arg.toItem.entry.objs ++ objs)) := by
    rw [hrefs]
    exact hown
  refine ((h hwf hown1).returns arg.not_tooLong).mono fun r st' hr => ?_
  have hobjs : (if r.2 then objs else arg.toItem.entry.objs ++ objs) = objs := by
    cases r.2 <;> rfl
  have hown2 := hr.owns
  rw [hrefs, hobjs] at hown2
  exact ⟨hr.wf, hr.obj, hr.segs, hown2, hr.out, hr.mem, hr.failed⟩

/-- **Prepending puts the leaf before the others.** -/
theorem prependPaddr_spec (compress : Bool) (arg : Arg) (depth : Nat) :
    InsertSpec c mem .front depth arg.leaf
      (prependPaddr c compress arg.seg.paddr1 arg.seg.paddr2 arg.length depth) :=
  (prependPaddr_place compress arg.toItem (Nat.le_refl depth)).insertSpec

/-- **Appending puts the leaf after the others.** -/
theorem appendPaddr_spec (compress : Bool) (arg : Arg) (depth : Nat) :
    InsertSpec c mem .back depth arg.leaf
      (appendPaddr c compress arg.seg.paddr1 arg.seg.paddr2 arg.length depth) :=
  (appendPaddr_place compress arg.toItem (Nat.le_refl depth)).insertSpec

/-! ## Packets in memory -/

theorem Inserted.contents (h : Inserted c mem side depth a refs objs pv st r st') :
    r.1.contents st'.mgr.mem =
      if r.2 then join side (a.bytes st.mgr.mem) (pv.contents st.mgr.mem)
      else pv.contents st.mgr.mem := by
  rw [PvbufOf.contents, h.segs, h.mem]
  cases r.2
  · rfl
  · cases side <;> simp [join, PvbufOf.contents]

/-- **`__xdp2_pvbuf_prepend_paddr` and `__xdp2_pvbuf_append_paddr` put the paddr at the ends of the
packet.** For every well-formed packet and every paddr in a manager that keeps its books, the calls
return. If they succeed, the bytes of the paddr come before, or after, the others. If they fail,
which they only do where no pvbuf is free, the packet has the leaves it had. It is well-formed in
both cases, and all references stay held. -/
theorem insertPaddr_contents (compress : Bool) (arg : Arg) (hwf : Wf depth pv)
    (hown : Owns c mem st.mgr (segRefs pv.segs ++ (arg.leaf.refs ++ refs)) (pv.objs ++ objs)) :
    (∃ pv' ok st', (prependPaddr c compress arg.seg.paddr1 arg.seg.paddr2 arg.length depth pv).run
          st = .ok (pv', ok) st' ∧
        Wf (depth + 1) pv' ∧ pv'.obj = pv.obj ∧
        pv'.contents st'.mgr.mem =
          (if ok then arg.leaf.bytes st.mgr.mem ++ pv.contents st.mgr.mem
          else pv.contents st.mgr.mem) ∧
        (ok = false → pv'.segs = pv.segs ∧ ∃ size, st'.mgr.pvbuf_free size = []) ∧
        Owns c mem st'.mgr (segRefs pv.segs ++ (arg.leaf.refs ++ refs)) (pv'.objs ++ objs)) ∧
      ∃ pv' ok st', (appendPaddr c compress arg.seg.paddr1 arg.seg.paddr2 arg.length depth pv).run
          st = .ok (pv', ok) st' ∧
        Wf (depth + 1) pv' ∧ pv'.obj = pv.obj ∧
        pv'.contents st'.mgr.mem =
          (if ok then pv.contents st.mgr.mem ++ arg.leaf.bytes st.mgr.mem
          else pv.contents st.mgr.mem) ∧
        (ok = false → pv'.segs = pv.segs ∧ ∃ size, st'.mgr.pvbuf_free size = []) ∧
        Owns c mem st'.mgr (segRefs pv.segs ++ (arg.leaf.refs ++ refs)) (pv'.objs ++ objs) := by
  constructor
  · obtain ⟨⟨pv', ok⟩, st', hrun, h⟩ := prependPaddr_spec compress arg depth hwf hown
    refine ⟨pv', ok, st', hrun, h.wf, h.obj, h.contents, fun hok => ⟨?_, h.failed hok⟩, h.owns⟩
    subst hok
    exact h.segs
  · obtain ⟨⟨pv', ok⟩, st', hrun, h⟩ := appendPaddr_spec compress arg depth hwf hown
    refine ⟨pv', ok, st', hrun, h.wf, h.obj, h.contents, fun hok => ⟨?_, h.failed hok⟩, h.owns⟩
    subst hok
    exact h.segs

/-- Two bytes at a long address. -/
def longArg : Arg where
  seg := .long ⟨0, 0, 5⟩ ⟨64⟩
  length := 2
  len_eq := rfl
  fits := by show _ ≤ _; decide

/-- The two bytes before the packet and behind it. -/
theorem insertPaddr_mixedPacket :
    (∃ pv' st', (prependPaddr smallConfig true longArg.seg.paddr1 longArg.seg.paddr2 2 2
          mixedPacket).run smallState = .ok (pv', true) st' ∧
        pv'.contents st'.mgr.mem = [64, 65, 8, 9, 10, 11, 16, 17, 18, 32, 33]) ∧
      ∃ pv' st', (appendPaddr smallConfig true longArg.seg.paddr1 longArg.seg.paddr2 2 2
          mixedPacket).run smallState = .ok (pv', true) st' ∧
        pv'.contents st'.mgr.mem = [8, 9, 10, 11, 16, 17, 18, 32, 33, 64, 65] := by
  obtain ⟨⟨pv1, ok1, st1, hrun1, -, -, hc1, -⟩, pv2, ok2, st2, hrun2, -, -, hc2, -⟩ :=
    insertPaddr_contents true longArg mixedPacket_wf mixedPacket_owns
  -- both find free slots
  have hok1 : ∃ pv' st', (prependPaddr smallConfig true longArg.seg.paddr1 longArg.seg.paddr2 2 2
      mixedPacket).run smallState = .ok (pv', true) st' := ⟨_, _, rfl⟩
  have hok2 : ∃ pv' st', (appendPaddr smallConfig true longArg.seg.paddr1 longArg.seg.paddr2 2 2
      mixedPacket).run smallState = .ok (pv', true) st' := ⟨_, _, rfl⟩
  obtain ⟨_, _, hrun⟩ := hok1
  cases hrun1.symm.trans hrun
  obtain ⟨_, _, hrun⟩ := hok2
  cases hrun2.symm.trans hrun
  exact ⟨⟨pv1, st1, hrun1, hc1⟩, pv2, st2, hrun2, hc2⟩

end Xdp2
