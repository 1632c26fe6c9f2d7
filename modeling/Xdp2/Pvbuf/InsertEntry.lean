import Xdp2.Pvbuf.Place
import Xdp2.Pvbuf.PopEntry

/-!
# Inserting at one entry

What becomes of the entries at the end at which a paddr is put in (`PlacedAt`): free slots take it,
a new pvbuf takes it with the leaf that was there, or the sub-pvbuf there takes it. `PlaceSpec` is
what inserting into a whole pvbuf has to do, assumed here of the recursive call. The end is a
`Side`; what is put in is an `Item`, a leaf or a pvbuf.
-/

namespace Xdp2

open BitWord StateError ListEnd

variable {c : MgrConfig} {mem : Mem} {refs : List Ref} {objs : List (Nat × Nat)} {st st' : PvSt}
  {pv pv' : Pvbuf} {side : Side} {depth D : Nat}

/-! ## Specification -/

/-- Inserting the entry `a`, with sub-pvbufs of `D` levels, at an end of a pvbuf: it is there, or, if
no pvbuf could be had, the leaves are those there were. All references stay held, those of `a` too. -/
structure Placed (c : MgrConfig) (mem : Mem) (side : Side) (depth D : Nat) (a : IovEntry)
    (refs : List Ref) (objs : List (Nat × Nat)) (pv : Pvbuf) (st : PvSt) (r : Pvbuf × Bool)
    (st' : PvSt) : Prop where
  wf : Wf (depth + D + 1) r.1
  obj : r.1.obj = pv.obj
  segs : r.1.segs = if r.2 then join side a.segs pv.segs else pv.segs
  owns : Owns c mem st'.mgr (segRefs pv.segs ++ (segRefs a.segs ++ refs))
    (r.1.objs ++ if r.2 then objs else a.objs ++ objs)
  out : st'.out = st.out
  mem : st'.mgr.mem = st.mgr.mem
  failed : r.2 = false → ∃ size, st'.mgr.pvbuf_free size = []

/-- What inserting into a well-formed pvbuf has to do, where `E` are the faults it may end in. -/
def PlaceSpec (c : MgrConfig) (mem : Mem) (side : Side) (depth D : Nat) (a : IovEntry)
    (E : Fault → Prop) (insert : Pvbuf → PvM (Pvbuf × Bool)) : Prop :=
  ∀ ⦃pv : Pvbuf⦄ ⦃st : PvSt⦄ ⦃refs : List Ref⦄ ⦃objs : List (Nat × Nat)⦄, Wf depth pv →
    Owns c mem st.mgr (segRefs pv.segs ++ (segRefs a.segs ++ refs)) (pv.objs ++ (a.objs ++ objs)) →
    Outcome (insert pv) st (Placed c mem side depth D a refs objs pv st) E

/-- Inserting the entry `a` where the entries `old` are, between `es1` and `es2`. -/
structure PlacedAt (c : MgrConfig) (mem : Mem) (P : Pvbuf → Prop) (side : Side) (a : IovEntry)
    (refs : List Ref) (objs : List (Nat × Nat)) (es1 es2 : List IovEntry) (pv : Pvbuf)
    (old : List IovEntry) (st : PvSt) (es : List IovEntry) (r : Pvbuf × Bool) (st' : PvSt) :
    Prop where
  holds : Holds c mem P st'.mgr r.1 (es1 ++ es ++ es2)
    (if r.2 then refs else segRefs a.segs ++ refs) (if r.2 then objs else a.objs ++ objs)
  obj : r.1.obj = pv.obj
  segs : entrySegs es = if r.2 then join side a.segs (entrySegs old) else entrySegs old
  out : st'.out = st.out
  mem : st'.mgr.mem = st.mgr.mem
  failed : r.2 = false → ∃ size, st'.mgr.pvbuf_free size = []

section
variable {a : IovEntry} {es1 es2 old es : List IovEntry} {r : Pvbuf × Bool}

theorem Holds.mono (hP : ∀ pv, P pv → P' pv) (h : Holds c mem P m pv es refs objs) :
    Holds c mem P' m pv es refs objs :=
  ⟨h.slots, fun e he => (h.ok e he).mono hP, h.owns⟩

theorem count_segRefs_join (s segs : List Seg) (x : Ref) :
    (segRefs (join side s segs)).count x = (segRefs s).count x + (segRefs segs).count x := by
  cases side <;> simp [join, Nat.add_comm]

theorem Owns.inserted {segs : List Seg} {ok : Bool}
    (h : Owns c mem m (segRefs (if ok then join side s segs else segs) ++ (if ok then refs else segRefs s ++ refs)) objs)
    :
    Owns c mem m (segRefs segs ++ (segRefs s ++ refs)) objs := by
  refine h.perm (List.perm_iff_count.mpr fun x => ?_) (List.Perm.refl _)
  cases ok
  · rfl
  · simp only [if_true, List.count_append, count_segRefs_join]
    omega

theorem PlacedAt.placed
    (h : PlacedAt c mem (Wf (depth + D)) side a refs objs es1 es2 pv old st es r st')
    (hobj : pv.obj = pv0.obj) (hsegs : entrySegs (es1 ++ old ++ es2) = pv0.segs)
    (hend : entrySegs (es1 ++ es ++ es2) =
      if r.2 then join side a.segs (entrySegs (es1 ++ old ++ es2))
      else entrySegs (es1 ++ old ++ es2)) :
    Placed c mem side depth D a refs objs pv0 st r st' := by
  have hpv : r.1.segs = if r.2 then join side a.segs pv0.segs else pv0.segs := by
    rw [h.holds.slots.segs_eq, hend, hsegs]
  have hown := h.holds.owns_segs
  rw [hpv] at hown
  exact ⟨h.holds.wf, h.obj.trans hobj, hpv, hown.inserted, h.out, h.mem, h.failed⟩

theorem PlacedAt.placed_front
    (h : PlacedAt c mem (Wf (depth + D)) .front a refs objs es1 es2 pv old st es r st')
    (hobj : pv.obj = pv0.obj) (hsegs : entrySegs (es1 ++ old ++ es2) = pv0.segs)
    (hes1 : entrySegs es1 = []) : Placed c mem .front depth D a refs objs pv0 st r st' := by
  refine h.placed hobj hsegs ?_
  rw [entrySegs_append, entrySegs_append, entrySegs_append, entrySegs_append, hes1, h.segs]
  cases r.2 <;> simp [join]

theorem PlacedAt.placed_back
    (h : PlacedAt c mem (Wf (depth + D)) .back a refs objs es1 es2 pv old st es r st')
    (hobj : pv.obj = pv0.obj) (hsegs : entrySegs (es1 ++ old ++ es2) = pv0.segs)
    (hes2 : entrySegs es2 = []) : Placed c mem .back depth D a refs objs pv0 st r st' := by
  refine h.placed hobj hsegs ?_
  rw [entrySegs_append, entrySegs_append, entrySegs_append, entrySegs_append, hes2, h.segs]
  cases r.2 <;> simp [join]

theorem Holds.focus_arg
    (h : Holds c mem P m pv (es1 ++ old ++ es2) (segRefs a.segs ++ refs) (a.objs ++ objs)) :
    Owns c mem m (segRefs (entrySegs old) ++ (segRefs a.segs ++ outerRefs es1 es2 refs))
      (entryObjs old ++ (a.objs ++ outerObjs pv es1 es2 objs)) := by
  refine h.focus.perm (List.perm_iff_count.mpr fun r => ?_) (List.perm_iff_count.mpr fun o => ?_)
  · simp only [outerRefs, List.count_append]
    omega
  · simp only [outerObjs, List.count_append, List.count_cons]
    omega

theorem Holds.insert {ok : Bool} (side : Side)
    (h : Holds c mem P m pv (es1 ++ old ++ es2) (segRefs a.segs ++ refs) (a.objs ++ objs))
    (hobj : pv'.obj = pv.obj) (hs : Slots pv' (entrySlots (es1 ++ es ++ es2)))
    (hok : ∀ e ∈ es, e.Ok P)
    (hsegs : entrySegs es = if ok then join side a.segs (entrySegs old) else entrySegs old)
    (hown : Owns c mem m' (segRefs (entrySegs old) ++ (segRefs a.segs ++ outerRefs es1 es2 refs)) (entryObjs es ++ if ok then outerObjs pv es1 es2 objs else a.objs ++ outerObjs pv es1 es2 objs))
    :
    Holds c mem P m' pv' (es1 ++ es ++ es2) (if ok then refs else segRefs a.segs ++ refs)
      (if ok then objs else a.objs ++ objs) := by
  refine ⟨hs, fun e he => ?_, hown.perm (List.perm_iff_count.mpr fun r => ?_)
    (List.perm_iff_count.mpr fun o => ?_)⟩
  · rcases List.mem_append.mp he with he | he
    · rcases List.mem_append.mp he with he | he
      · exact h.ok e (by simp [he])
      · exact hok e he
    · exact h.ok e (by simp [he])
  · simp only [entrySegs_append, segRefs_append, outerRefs, List.count_append, hsegs]
    cases ok
    · simp only [Bool.false_eq_true, if_false, List.count_append]
      omega
    · simp only [if_true, count_segRefs_join]
      omega
  · cases ok
    · simp only [Bool.false_eq_true, if_false, entryObjs_append, outerObjs, List.count_append,
        List.count_cons, hobj]
      omega
    · simp only [if_true, entryObjs_append, outerObjs, List.count_append, List.count_cons, hobj]
      omega

end

/-! ## Free slots -/

section
variable {es1 es2 : List IovEntry}

theorem placeFree (item : Item D) (side : Side) (hP : ∀ pv, Wf D pv → P pv)
    (h : Holds c mem P st.mgr pv (es1 ++ gaps item.width ++ es2) (segRefs item.entry.segs ++ refs)
      (item.entry.objs ++ objs)) (hi : (entrySlots es1).length = i) :
    Outcome (iovecSetPaddrEnt pv i item.paddr.paddr1 item.paddr.paddr2 item.length) st
      (fun pv' st' => PlacedAt c mem P side item.entry refs objs es1 es2 pv (gaps item.width) st
        [item.entry] (pv', true) st') (TooLong item.length) := by
  have hs := h.slots
  rw [entrySlots_append, entrySlots_append, entrySlots_gaps, List.append_assoc] at hs
  refine (item.put hs hi st).mono ?_
  rintro pv' st' ⟨rfl, hobj, hok, hs'⟩
  refine ⟨?_, hobj, by simp, rfl, rfl, nofun⟩
  refine h.insert side hobj (by rwa [entrySlots_mid]) ?_ (by simp) (by simpa using h.focus_arg)
  intro e he
  obtain rfl := List.mem_singleton.mp he
  exact hok.mono hP

/-! ## Cached lengths -/

theorem cachedLen_lt (len length : Nat) : cachedLen len length < pvbufMaxLen := by
  rw [cachedLen]
  split
  · rename_i h
    exact h.2
  · decide

theorem cachedLen_cases (h : length = 0 ∨ total = len + length) :
    BitVec.ofNat 32 (cachedLen len length) = 0 ∨
      (BitVec.ofNat 32 (cachedLen len length)).toNat = total := by
  rw [cachedLen]
  split
  · rename_i hcond
    have hlt : len + length < 2 ^ 32 := hcond.2
    rw [BitVec.toNat_ofNat, Nat.mod_eq_of_lt hlt]
    exact .inr (h.resolve_left hcond.1).symm
  · exact .inl rfl

theorem segsLen_join (s segs : List Seg) :
    segsLen (join side s segs) = segsLen segs + segsLen s := by
  cases side <;> simp [join, segsLen, Nat.add_comm]

theorem Item.segsLen_join (item : Item D) (side : Side) (segs : List Seg) :
    item.length = 0 ∨
      segsLen (join side item.entry.segs segs) = segsLen segs + item.length := by
  rw [Xdp2.segsLen_join]
  exact item.length_eq.imp_right fun h => by rw [← h]

/-! ## A sub-pvbuf -/

theorem insertIntoSub_spec (item : Item D) {insert : Pvbuf → PvM (Pvbuf × Bool)} {sub : Pvbuf}
    {E : Fault → Prop} (hins : PlaceSpec c mem side depth D item.entry E insert)
    (h : Holds c mem (Wf depth) st.mgr pv (es1 ++ [.sub data_length sub] ++ es2) (segRefs item.entry.segs ++ refs) (item.entry.objs ++ objs))
    (hi : (entrySlots es1).length = i) :
    Outcome (insertIntoSub insert pv i data_length sub item.length) st (fun r st' => ∃ dl sub',
      r.1.get i = .pvbuf dl sub' ∧
      PlacedAt c mem (Wf (depth + 1 + D)) side item.entry refs objs es1 es2 pv
        [.sub data_length sub] st [.sub dl sub'] r st') E := by
  have hok : (IovEntry.sub data_length sub).Ok (Wf depth) := h.ok _ (by simp)
  have hown := h.focus_arg
  rw [entrySegs_cons, entryObjs_cons, entrySegs_nil, entryObjs_nil, List.append_nil,
    List.append_nil] at hown
  -- what both ends have in common
  have hput : ∀ {dl : BitVec 32} {sub' : Pvbuf} {ok : Bool} {st' : PvSt},
      Placed c mem side depth D item.entry (outerRefs es1 es2 refs) (outerObjs pv es1 es2 objs) sub st
        (sub', ok) st' →
      (dl = 0 ∨ dl.toNat = segsLen sub'.segs) →
      (pv.set i (.pvbuf dl sub')).get i = .pvbuf dl sub' ∧
      PlacedAt c mem (Wf (depth + 1 + D)) side item.entry refs objs es1 es2 pv
        [.sub data_length sub] st [.sub dl sub'] (pv.set i (.pvbuf dl sub'), ok) st' := by
    intro dl sub' ok st' hr hdl
    have hsegs : entrySegs [IovEntry.sub dl sub'] =
        if ok then join side item.entry.segs (entrySegs [.sub data_length sub])
        else entrySegs [.sub data_length sub] := by
      simpa [IovEntry.segs] using hr.segs
    have hset := h.sub_slots.set (y := .pvbuf dl sub') hi rfl
    refine ⟨hset.get_at hi, ?_, rfl, hsegs, hr.out, hr.mem, hr.failed⟩
    refine (h.mono fun _ => Wf.mono (by omega)).insert side rfl ?_ ?_ hsegs ?_
    · rwa [entrySlots_mid]
    · intro e he
      obtain rfl := List.mem_singleton.mp he
      exact ⟨hr.wf.mono (by omega), hdl⟩
    · simpa [IovEntry.segs, IovEntry.objs] using hr.owns
  rw [insertIntoSub]
  refine (hins hok.1 hown).bind fun r st1 hr => ?_
  obtain ⟨sub', ok⟩ := r
  cases ok with
  | false =>
    refine .pure ⟨_, _, hput hr ?_⟩
    rw [hr.segs]
    exact hok.2
  | true =>
    refine .pure ⟨_, _, hput hr ?_⟩
    have hlen := item.segsLen_join side sub.segs
    have hsegs : sub'.segs = join side item.entry.segs sub.segs := by simpa using hr.segs
    rw [← hsegs] at hlen
    rw [adjustLen]
    split
    · rename_i hne
      rw [← hok.2.resolve_left hne] at hlen
      exact cachedLen_cases hlen
    · rename_i hzero
      exact .inl (not_not.mp hzero)

end

/-! ## A new pvbuf -/

theorem Slots.get_paddr1 (h : Slots pv (l1 ++ ((IovEntry.seg t).slots ++ l2)))
    (hi : l1.length = i) : pv.get i = t.paddr1 := by
  cases t with
  | pbuf a => exact h.get_at hi
  | short a => exact h.get_at hi
  | long a b => exact h.get_at hi

theorem slotLen_run (h : Slots pv (l1 ++ ((IovEntry.seg t).slots ++ l2))) (hi : l1.length = i)
    (st : PvSt) : (slotLen pv i).run st = .ok t.len st := by
  rw [slotLen, h.get_paddr1 hi]
  cases t with
  | pbuf a => rfl
  | short a => rfl
  | long a b =>
    rw [h.get_succ (x := .long a) (y := .long2 b) hi]
    rfl

theorem moveToTail_run (h : Slots pv (l1 ++ ((IovEntry.seg t).slots ++ l2))) (hi : l1.length = i)
    (hnew : Slots new (List.replicate new.num .null)) (st : PvSt) :
    ∃ new', (moveToTail new pv i).run st = .ok new' st ∧ new'.obj = new.obj ∧
      Slots new' (List.replicate (new.num - 1 - t.paddr1.isLongAddr.toNat) .null ++
        (IovEntry.seg t).slots) := by
  have hle := new.le_num
  have hle' := new.num_le
  have hlast : Slots new (List.replicate (new.num - 1) .null ++ .null :: []) := by
    rwa [← List.replicate_succ', Nat.sub_add_cancel (by omega)]
  have hput : ∀ {x : Iovec}, x.isNull = false → Slots ((new.set (new.num - 1) x).setBit (new.num - 1))
      (List.replicate (new.num - 1) .null ++ x :: []) := hlast.put List.length_replicate
  rw [moveToTail, h.get_paddr1 hi]
  cases t with
  | pbuf a =>
    exact ⟨_, iovecMapSet_run (new.set (new.num - 1) (.pbuf a)) (by omega) st, rfl, hput rfl⟩
  | short a =>
    exact ⟨_, iovecMapSet_run (new.set (new.num - 1) (.short a)) (by omega) st, rfl, hput rfl⟩
  | long a b =>
    rw [h.get_succ (x := .long a) (y := .long2 b) hi]
    have hput' : Slots ((new.set (new.num - 1) (.long2 b)).setBit (new.num - 1))
        (List.replicate (new.num - 1 - 1) .null ++ .null :: [.long2 b]) := by
      have hb := hput (x := .long2 b) rfl
      rwa [← Nat.sub_add_cancel (show 1 ≤ new.num - 1 by omega), List.replicate_succ',
        List.append_assoc, Nat.sub_add_cancel (by omega)] at hb
    have hput'' := hput'.put (y := .long a) List.length_replicate rfl
    refine ⟨_, ?_, ?_, hput''⟩
    · exact (run_bind_ok (iovecMapSet_run _ (by omega) st)).trans (iovecMapSet_run _ (by omega) st)
    · rfl

theorem moveToHead_run (h : Slots pv (l1 ++ ((IovEntry.seg t).slots ++ l2))) (hi : l1.length = i)
    (hnew : Slots new (List.replicate new.num .null)) (st : PvSt) :
    ∃ new', (moveToHead new pv i).run st = .ok new' st ∧ new'.obj = new.obj ∧
      Slots new' ((IovEntry.seg t).slots ++
        List.replicate (new.num - 1 - t.paddr1.isLongAddr.toNat) .null) := by
  have hle := new.le_num
  have hfirst : Slots new ([] ++ .null :: List.replicate (new.num - 1) .null) := by
    rwa [List.nil_append, ← List.replicate_succ, Nat.sub_add_cancel (by omega)]
  have hput : ∀ {x : Iovec}, x.isNull = false → Slots ((new.set 0 x).setBit 0)
      ([] ++ x :: List.replicate (new.num - 1) .null) := hfirst.put rfl
  rw [moveToHead, h.get_paddr1 hi]
  cases t with
  | pbuf a => exact ⟨(new.set 0 (.pbuf a)).setBit 0, rfl, rfl, hput rfl⟩
  | short a => exact ⟨(new.set 0 (.short a)).setBit 0, rfl, rfl, hput rfl⟩
  | long a b =>
    rw [h.get_succ (x := .long a) (y := .long2 b) hi]
    have hput' : Slots ((new.set 0 (.long a)).setBit 0)
        ([.long a] ++ .null :: List.replicate (new.num - 1 - 1) .null) := by
      have ha := hput (x := .long a) rfl
      rwa [← Nat.sub_add_cancel (show 1 ≤ new.num - 1 by omega), List.replicate_succ] at ha
    exact ⟨_, rfl, rfl, hput'.put (i := 1) (y := .long2 b) rfl rfl⟩

theorem replaceByPvbuf_run (h : Slots pv (l1 ++ ((IovEntry.seg t).slots ++ l2)))
    (hi : l1.length = i) (hlen : len < pvbufMaxLen) (new : Pvbuf) (st : PvSt) :
    ∃ pv', (replaceByPvbuf pv i t.paddr1.isLongAddr new len).run st = .ok (pv', true) st ∧
      pv'.obj = pv.obj ∧ Slots pv' (l1 ++ (List.replicate t.paddr1.isLongAddr.toNat .null ++
        .pvbuf (BitVec.ofNat 32 len) new :: l2)) := by
  -- where the leaf has one slot
  have hone : ∀ {x : Iovec}, x.isNull = false → Slots pv (l1 ++ x :: l2) →
      ∃ pv', (replaceByPvbuf pv i false new len).run st = .ok (pv', true) st ∧ pv'.obj = pv.obj ∧
        Slots pv' (l1 ++ .pvbuf (BitVec.ofNat 32 len) new :: l2) := by
    intro x hx hs
    refine ⟨pv.set i (.pvbuf (BitVec.ofNat 32 len) new), ?_, rfl, hs.set hi hx⟩
    rw [replaceByPvbuf, if_neg Bool.false_ne_true, run_bind_ok (run_pure st pv)]
    refine (run_bind_ok (iovecMapIsset_run hs hi st)).trans ?_
    rw [run_bind_ok (assert_run (by rw [hx]; rfl) _ st),
      run_bind_ok (setPvbufIovec_run hlen pv new _ st)]
    rfl
  cases t with
  | pbuf a => exact hone (x := .pbuf a) rfl h
  | short a => exact hone (x := .short a) rfl h
  | long a b =>
    have h : Slots pv (l1 ++ .long a :: .long2 b :: l2) := h
    have hsplit : ∀ y : Iovec, l1 ++ .null :: y :: l2 = (l1 ++ [.null]) ++ y :: l2 := by simp
    have hi' : (l1 ++ [Iovec.null]).length = i + 1 := by simp [hi]
    have hclear := h.clear hi
    rw [hsplit] at hclear
    have hset := hclear.set (y := .pvbuf (BitVec.ofNat 32 len) new) hi' rfl
    rw [← hsplit] at hset
    refine ⟨_, ?_, ?_, hset⟩
    · show (replaceByPvbuf pv i true new len).run st = _
      rw [replaceByPvbuf, if_pos rfl, run_bind_ok (iovecClearEnt_run pv (h.lt hi) st)]
      refine (run_bind_ok (iovecMapIsset_run hclear hi' st)).trans ?_
      rw [run_bind_ok (assert_run (show (!(Iovec.long2 b).isNull) = true from rfl) _ st),
        run_bind_ok (setPvbufIovec_run hlen _ new _ st)]
      rfl
    · rfl

end Xdp2
