import Xdp2.Pvbuf.Trim

/-!
# Well-formedness, slot by slot

What `Wf` says of the array and the map of every pvbuf of the tree (`Wf.wellFormed`), and of
`__xdp2_pvbuf_calc_length`: with the cached lengths or without, it gives the number of bytes
(`calcLength_spec`).
-/

namespace Xdp2

open BitWord StateError

/-! ## Levels -/

mutual

/-- The number of levels of a tree. -/
def PvbufOf.levels : PvbufOf Iovec → Nat
  | ⟨_, _, _, iovec⟩ => slotLevels iovec + 1
termination_by structural pv => pv

/-- The number of levels in a list of slots. -/
def slotLevels : List Iovec → Nat
  | [] => 0
  | x :: slots => max x.levels (slotLevels slots)
termination_by structural slots => slots

/-- The number of levels in one slot. -/
def Iovec.levels : Iovec → Nat
  | .pvbuf _ pv => pv.levels
  | .null | .pbuf _ | .short _ | .long _ | .long2 _ => 0
termination_by structural x => x

end

theorem Iovec.levels_le (hmem : x ∈ l) : x.levels ≤ slotLevels l := by
  induction l with
  | nil => cases hmem
  | cons y l ih =>
    rw [slotLevels]
    rcases List.mem_cons.mp hmem with rfl | hmem
    · exact Nat.le_max_left _ _
    · exact (ih hmem).trans (Nat.le_max_right _ _)

theorem Slots.levels_eq (h : Slots pv l) : pv.levels = slotLevels l + 1 := by
  obtain ⟨size, index, map, iovec⟩ := pv
  rw [PvbufOf.levels, ← h.iovec]

theorem Wf.levels (h : Wf depth pv) : Wf pv.levels pv := by
  induction depth generalizing pv with
  | zero => exact h.elim
  | succ depth ih =>
    obtain ⟨es, hs, hok⟩ := h
    rw [hs.levels_eq]
    refine ⟨es, hs, fun e he => ?_⟩
    have hoke := hok e he
    cases e with
    | gap => trivial
    | sub data_length sub =>
      have hle : sub.levels ≤ slotLevels (entrySlots es) :=
        Iovec.levels_le (x := .pvbuf data_length sub)
          (List.mem_flatMap.mpr ⟨_, he, List.mem_singleton.mpr rfl⟩)
      exact ⟨(ih hoke.1).mono hle, hoke.2⟩
    | seg s => exact hoke

/-! ## Every pvbuf of a tree -/

/-- A pvbuf of the tree of another. -/
inductive InTree (q : Pvbuf) : Pvbuf → Prop
  | root : InTree q q
  | sub {pv sub : Pvbuf} {i : Nat} {data_length : BitVec 32} (hget : pv.get i = .pvbuf data_length sub)
      (hsub : InTree q sub) : InTree q pv

/-- The array of a pvbuf and its map go together: the map has the bits of the slots in use, which are
those the size has, the words of a long address stand together, and the cached length of a pvbuf is zero
or the number of its bytes. -/
structure PvbufOf.WellFormed (pv : Pvbuf) : Prop where
  map_iff : ∀ i, pv.iovec_map.getLsbD i = true ↔ pv.get i ≠ .null
  map_num : ∀ i, pv.num ≤ i → pv.iovec_map.getLsbD i = false
  long_next : ∀ i a, pv.get i = .long a → ∃ b, pv.get (i + 1) = .long2 b
  long_prev : ∀ i b, pv.get i = .long2 b → ∃ j a, i = j + 1 ∧ pv.get j = .long a
  lengths : ∀ i data_length sub, pv.get i = .pvbuf data_length sub →
    data_length = 0 ∨ ∀ mem, data_length.toNat = (sub.contents mem).length

theorem Slots.entry_of_get (h : Slots pv (entrySlots es)) (hne : pv.get i ≠ .null) :
    ∃ es1 e es2 k, es = es1 ++ e :: es2 ∧ i = (entrySlots es1).length + k ∧
      e.slots[k]? = some (pv.get i) := by
  rw [h.get_eq] at hne ⊢
  clear h
  induction es generalizing i with
  | nil => exact (hne rfl).elim
  | cons e es ih =>
    by_cases hi : i < e.slots.length
    · refine ⟨[], e, es, i, rfl, by simp, ?_⟩
      rw [entrySlots_cons, List.getD_append _ _ _ _ hi, List.getD_eq_getElem?_getD,
        List.getElem?_eq_getElem hi]
      rfl
    · have hge := Nat.le_of_not_lt hi
      rw [entrySlots_cons, List.getD_append_right _ _ _ _ hge] at hne ⊢
      obtain ⟨es1, e', es2, k, rfl, hpos, hk⟩ := ih hne
      refine ⟨e :: es1, e', es2, k, rfl, ?_, hk⟩
      rw [entrySlots_cons, List.length_append]
      omega

theorem IovEntry.slots_long {e : IovEntry} (h : e.slots[k]? = some (.long a)) :
    k = 0 ∧ ∃ b, e.slots = [.long a, .long2 b] := by
  match e, k with
  | .seg (.long a' b), 0 => cases h; exact ⟨rfl, b, rfl⟩
  | .seg (.long a' b), 1 => cases h
  | .gap, 0 | .sub _ _, 0 | .seg (.pbuf _), 0 | .seg (.short _), 0 => cases h

theorem IovEntry.slots_long2 {e : IovEntry} (h : e.slots[k]? = some (.long2 b)) : k = 1 ∧ ∃ a, e.slots = [.long a, .long2 b] := by
  match e, k with
  | .seg (.long a b'), 0 => cases h
  | .seg (.long a b'), 1 => cases h; exact ⟨rfl, a, rfl⟩
  | .gap, 0 | .sub _ _, 0 | .seg (.pbuf _), 0 | .seg (.short _), 0 => cases h

theorem IovEntry.slots_pvbuf {e : IovEntry} {k : Nat} {sub : Pvbuf}
    (h : e.slots[k]? = some (.pvbuf data_length sub)) : e = .sub data_length sub := by
  match e, k with
  | .sub _ _, 0 => cases h; rfl
  | .seg (.long a b), 0 | .seg (.long a b), 1 => cases h
  | .gap, 0 | .seg (.pbuf _), 0 | .seg (.short _), 0 => cases h

theorem Slots.sub_mem {i : Nat} {data_length : BitVec 32} (h : Slots pv (entrySlots es))
    (hget : pv.get i = .pvbuf data_length sub) : .sub data_length sub ∈ es := by
  obtain ⟨es1, e, es2, k, rfl, -, hk⟩ := h.entry_of_get (i := i) (by rw [hget]; exact nofun)
  rw [hget] at hk
  rw [IovEntry.slots_pvbuf hk]
  simp

theorem Wf.root (h : Wf depth pv) : pv.WellFormed := by
  obtain _ | depth := depth
  · exact h.elim
  obtain ⟨es, hs, hok⟩ := h
  have hnull : ∀ x : Iovec, (!x.isNull) = true ↔ x ≠ .null := by
    intro x
    cases x <;> simp [Iovec.isNull]
  refine ⟨fun i => ?_, fun i hi => ?_, fun i a ha => ?_, fun i b hb => ?_, fun i dl sub hsub => ?_⟩
  · rw [hs.map, ← hs.get_eq, hnull]
  · rw [hs.map, List.getD_eq_default _ _ (by rw [hs.length]; exact hi)]
    rfl
  · obtain ⟨es1, e, es2, k, rfl, rfl, hk⟩ := hs.entry_of_get (i := i) (by rw [ha]; intro h; cases h)
    rw [ha] at hk
    obtain ⟨rfl, b, he⟩ := IovEntry.slots_long hk
    rw [entrySlots_append, entrySlots_cons, he] at hs
    exact ⟨b, hs.get_succ rfl⟩
  · obtain ⟨es1, e, es2, k, rfl, rfl, hk⟩ := hs.entry_of_get (i := i) (by rw [hb]; intro h; cases h)
    rw [hb] at hk
    obtain ⟨rfl, a, he⟩ := IovEntry.slots_long2 hk
    rw [entrySlots_append, entrySlots_cons, he] at hs
    exact ⟨_, a, rfl, hs.get_at rfl⟩
  · refine (hok _ (hs.sub_mem hsub)).2.imp_right fun heq mem => ?_
    rw [PvbufOf.contents, length_segBytes, heq]

/-- **Every pvbuf of a well-formed tree is well-formed.** -/
theorem Wf.wellFormed (h : Wf depth pv) (hq : InTree q pv) : q.WellFormed := by
  induction hq generalizing depth with
  | root => exact h.root
  | sub hget _ ih =>
    obtain _ | depth := depth
    · exact h.elim
    obtain ⟨es, hs, hok⟩ := h
    exact ih (hok _ (hs.sub_mem hget)).1

/-! ## Lengths -/

/-- The body of the loop of `__xdp2_pvbuf_calc_length`, with `dig` for the recursive call. -/
def calcLengthBody (dig : Pvbuf → PvM Nat) (deep_dig : Bool) (pv : Pvbuf) (i size : Nat) :
    PvM (Turn Nat) :=
  match pv.get i with
  | .pvbuf data_length sub =>
    if data_length ≠ 0 ∧ !deep_dig then return .next i ((size + data_length.toNat) % 2 ^ 64)
    else do
      let len ← dig sub
      if data_length ≠ 0 then
        assert (data_length.toNat = len) "Deep dig length check failed"
      return .next i ((size + len) % 2 ^ 64)
  | .pbuf a => return .next i ((size + a.dataLen) % 2 ^ 64)
  | .short a => return .next i ((size + a.dataLen) % 2 ^ 64)
  | w => do
    let (a, _) ← longAddrCheck w (pv.get (i + 1))
    return .next (i + 1) ((size + a.data_length.toNat) % 2 ^ 64)

/-- `__xdp2_pvbuf_calc_length`. -/
def calcLength (c : MgrConfig) (deep_dig : Bool) : (depth : Nat) → Pvbuf → PvM Nat
  | 0, _ => throw .fuel
  | depth + 1, pv => do
    paddrToAddr c pv
    forBits .fuel (fun _ => pv.iovec_map) (calcLengthBody (calcLength c deep_dig depth) deep_dig pv) 0 0

theorem calcLengthBody_spec {l2 : List Iovec} {e : IovEntry} {i size : Nat}
    (hs : Slots pv (l1 ++ (e.slots ++ l2))) (hi : l1.length = i) (hne : e ≠ .gap)
    (hok : e.Ok (Wf depth))
    (hdig : ∀ data_length sub, e = .sub data_length sub → (dig sub).run st = .ok (segsLen sub.segs % 2 ^ 64) st)
    :
    (calcLengthBody dig deep_dig pv i size).run st =
      .ok (.next (i + e.slots.length - 1) ((size + segsLen e.segs) % 2 ^ 64)) st := by
  rw [calcLengthBody]
  match e, hne with
  | .sub dl sub, _ =>
    have hget : pv.get i = .pvbuf dl sub := hs.get_at hi
    rw [hget]
    dsimp only
    by_cases hshallow : dl ≠ 0 ∧ (!deep_dig) = true
    · rw [if_pos hshallow, hok.2.resolve_left hshallow.1]
      rfl
    · rw [if_neg hshallow, run_bind_ok (hdig dl sub rfl), Nat.add_mod_mod]
      by_cases hzero : dl = 0
      · rw [if_neg (not_not.mpr hzero)]
        rfl
      · have heq : dl.toNat = segsLen sub.segs % 2 ^ 64 := by
          have hlt := dl.isLt
          rw [hok.2.resolve_left hzero] at hlt ⊢
          omega
        rw [if_pos hzero, run_bind_ok (assert_run (decide_eq_true heq) _ st)]
        rfl
  | .seg (.pbuf a), _ =>
    rw [hs.get_at (x := .pbuf a) hi]
    rfl
  | .seg (.short a), _ =>
    rw [hs.get_at (x := .short a) hi]
    rfl
  | .seg (.long a b), _ =>
    rw [hs.get_at (x := .long a) hi, hs.get_succ (x := .long a) (y := .long2 b) hi]
    rfl

/-- **`__xdp2_pvbuf_calc_length` gives the number of bytes**, whether it takes the cached lengths or
not. -/
theorem calcLength_spec {n : Nat} (deep_dig : Bool) (hwf : Wf depth pv) (hn : depth ≤ n)
    (hobjs : ∀ o ∈ pv.objs, o.2 < c.pvbuf_max_objs o.1) (st : PvSt) :
    (calcLength c deep_dig n pv).run st = .ok (segsLen pv.segs % 2 ^ 64) st := by
  induction n generalizing depth pv with
  | zero =>
    obtain rfl := Nat.le_zero.mp hn
    exact hwf.elim
  | succ n ih =>
    obtain _ | depth := depth
    · exact hwf.elim
    have hindex := hobjs _ hwf.obj_mem_objs
    obtain ⟨es, hs, hok⟩ := hwf
    have haddr : (paddrToAddr c pv).run st = .ok () st := assert_run (decide_eq_true hindex) _ st
    rw [calcLength, run_bind_ok haddr]
    have hloop : Returns (forBits .fuel (fun _ => pv.iovec_map)
        (calcLengthBody (calcLength c deep_dig n) deep_dig pv) 0 0) st fun size st' =>
          st' = st ∧ size = segsLen pv.segs % 2 ^ 64 := by
      refine forBits_rule (I := fun p size st' => st' = st ∧ ∃ done todo, es = done ++ todo ∧
        (entrySlots done).length = p ∧ size = segsLen (entrySegs done) % 2 ^ 64) ?_ ?_ (by decide)
        ⟨rfl, [], es, rfl, rfl, rfl⟩
      · rintro p q size st' ⟨rfl, done, todo, hes, hlen, rfl⟩ hq
        rw [hes] at hs
        obtain ⟨e, todo', rfl, hne, hpos, hat⟩ := hs.entry_at hlen hq
        have hmem : e ∈ es := by rw [hes]; simp
        have hdig : ∀ dl sub, e = .sub dl sub → (calcLength c deep_dig n sub).run st' =
            .ok (segsLen sub.segs % 2 ^ 64) st' := by
          rintro dl sub rfl
          refine ih (hok _ hmem).1 (Nat.le_of_succ_le_succ hn) fun o ho => hobjs o ?_
          rw [hs.objs_eq]
          simp [IovEntry.objs, ho]
        have hpos' := e.slots_length_pos
        refine ⟨_, _, calcLengthBody_spec hat hpos hne (hok e hmem) hdig, by omega, rfl,
          done ++ gaps (q - p) ++ [e], todo', by rw [hes]; simp, ?_, ?_⟩
        · rw [entrySlots_append, List.length_append, hpos]
          simp
          omega
        · rw [Nat.mod_add_mod, entrySegs_append, segsLen_append]
          simp
      · rintro p size st' ⟨rfl, done, todo, hes, hlen, rfl⟩ hnone
        rw [hes] at hs
        have hgaps := hs.none_from (by rw [hlen]; exact hnone)
        refine ⟨rfl, ?_⟩
        rw [hs.segs_eq, hgaps]
        simp
    obtain ⟨_, _, hrun, rfl, rfl⟩ := hloop
    exact hrun

end Xdp2
