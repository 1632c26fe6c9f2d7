import Xdp2.Lib.BitWord

/-!
# The set bits of a word as a list

The set bits in a range of positions (`bitsIn`), as a loop over them adds one after the other, and
the number of those below a position, its rank.
-/

namespace BitWord

variable {w : Nat} {v : BitVec w}

/-- The set bits from `a` up to `b`. -/
def bitsIn (v : BitVec w) (a b : Nat) : List Nat :=
  (List.range' a (b - a)).filter fun i => v.getLsbD i

theorem bitsIn_append (v : BitVec w) (hab : a ≤ b) (hbc : b ≤ c) :
    bitsIn v a b ++ bitsIn v b c = bitsIn v a c := by
  have happend := List.range'_append_1 (s := a) (m := b - a) (n := c - b)
  rw [Nat.add_sub_cancel' hab, show b - a + (c - b) = c - a by omega] at happend
  rw [bitsIn, bitsIn, bitsIn, ← List.filter_append, happend]

theorem bitsIn_clear (h : ∀ k, a ≤ k → k < b → v.getLsbD k = false) : bitsIn v a b = [] := by
  refine List.filter_eq_nil_iff.mpr fun k hk => ?_
  obtain ⟨hle, hlt⟩ := List.mem_range'_1.mp hk
  rw [h k hle (by omega)]
  exact Bool.false_ne_true

theorem bitsIn_self (h : v.getLsbD q = true) : bitsIn v q (q + 1) = [q] := by
  rw [bitsIn, Nat.add_sub_cancel_left, List.range'_one, List.filter_cons_of_pos h, List.filter_nil]

theorem FirstFrom.bitsIn (h : FirstFrom v p q) : bitsIn v p (q + 1) = [q] := by
  rw [← bitsIn_append v h.le (Nat.le_succ q), bitsIn_clear h.clear, bitsIn_self h.set,
    List.nil_append]

theorem LastBelow.bitsIn (h : LastBelow v p q) : bitsIn v q p = [q] := by
  rw [← bitsIn_append v (Nat.le_succ q) h.lt, bitsIn_self h.set, bitsIn_clear h.clear,
    List.append_nil]

/-! ## Ranks -/

/-- The number of set bits below a position. -/
def rank (v : BitVec w) (pos : Nat) : Nat := (bitsIn v 0 pos).length

theorem rank_le (v : BitVec w) (pos : Nat) : rank v pos ≤ pos := by
  have h := List.length_filter_le (fun i => v.getLsbD i) (List.range' 0 (pos - 0))
  rwa [List.length_range'] at h

theorem rank_width (v : BitVec w) : rank v w = weight v := by
  rw [rank, bitsIn, weight, List.countP_eq_length_filter, List.range_eq_range', Nat.sub_zero]

theorem rank_add (v : BitVec w) (hab : a ≤ b) : rank v b = rank v a + (bitsIn v a b).length := by
  rw [rank, rank, ← bitsIn_append v (Nat.zero_le a) hab, List.length_append]

theorem rank_lt (ha : v.getLsbD a = true) (hab : a < b) : rank v a < rank v b := by
  rw [rank_add v hab, rank_add v (Nat.le_succ a), bitsIn_self ha, List.length_singleton]
  omega

theorem rank_inj (ha : v.getLsbD a = true) (hb : v.getLsbD b = true) (h : rank v a = rank v b) :
    a = b := by
  rcases Nat.lt_trichotomy a b with hab | rfl | hab
  · have := rank_lt ha hab
    omega
  · rfl
  · have := rank_lt hb hab
    omega

theorem exists_rank (h : j < rank v n) : ∃ pos < n, v.getLsbD pos = true ∧ rank v pos = j := by
  induction n with
  | zero => cases h
  | succ n ih =>
    by_cases hj : j < rank v n
    · obtain ⟨pos, hlt, hpos⟩ := ih hj
      exact ⟨pos, by omega, hpos⟩
    · rw [rank_add v (Nat.le_succ n)] at h
      cases hset : v.getLsbD n with
      | false =>
        rw [bitsIn_clear fun k hle hlt => by rw [show k = n by omega, hset]] at h
        exact (hj h).elim
      | true =>
        rw [bitsIn_self hset, List.length_singleton] at h
        exact ⟨n, Nat.lt_succ_self n, hset, by omega⟩

end BitWord
