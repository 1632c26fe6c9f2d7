import Mathlib

/-!
# One's complement sums

The numbers are those up to `M`, one less than a power of two, and `M` is another zero: a sum is
reduced modulo `M`, but to zero only if nothing was added. So a number stands for its class together
with whether it is zero.
-/

namespace OnesComplement

/-- Two numbers have the same one's complement representation. -/
structure Same (M a b : Nat) : Prop where
  mod : a % M = b % M
  zero : a = 0 ↔ b = 0

namespace Same

theorem refl (a : Nat) : Same M a a := ⟨rfl, Iff.rfl⟩

theorem symm (h : Same M a b) : Same M b a := ⟨h.mod.symm, h.zero.symm⟩

theorem trans (h : Same M a b) (h' : Same M b c) : Same M a c :=
  ⟨h.mod.trans h'.mod, h.zero.trans h'.zero⟩

theorem add (h : Same M a b) (h' : Same M c d) : Same M (a + c) (b + d) := by
  refine ⟨?_, ?_⟩
  · rw [Nat.add_mod, h.mod, h'.mod, ← Nat.add_mod]
  · rw [Nat.add_eq_zero_iff, Nat.add_eq_zero_iff, h.zero, h'.zero]

theorem of_dvd (h : Same M a b) (hdvd : N ∣ M) : Same N a b := by
  refine ⟨?_, h.zero⟩
  rw [← Nat.mod_mod_of_dvd a hdvd, h.mod, Nat.mod_mod_of_dvd b hdvd]

theorem eq (h : Same M a b) (ha : a ≤ M) (hb : b ≤ M) : a = b := by
  have hmod := h.mod
  have hzero := h.zero
  rcases ha.lt_or_eq with hlt | rfl
  · rcases hb.lt_or_eq with hlt' | rfl
    · rwa [Nat.mod_eq_of_lt hlt, Nat.mod_eq_of_lt hlt'] at hmod
    · rw [Nat.mod_eq_of_lt hlt, Nat.mod_self] at hmod
      omega
  · rcases hb.lt_or_eq with hlt' | rfl
    · rw [Nat.mod_eq_of_lt hlt', Nat.mod_self] at hmod
      omega
    · rfl

end Same

theorem same_fold (M v : Nat) : Same M (v % (M + 1) + v / (M + 1)) v := by
  have hsplit := Nat.mod_add_div v (M + 1)
  refine ⟨?_, ?_⟩
  · conv_rhs => rw [← hsplit, Nat.add_mul, Nat.one_mul, ← Nat.add_assoc, Nat.add_right_comm]
    rw [Nat.add_mul_mod_self_left]
  · constructor
    · intro h
      rw [← hsplit, (Nat.add_eq_zero_iff.mp h).1, (Nat.add_eq_zero_iff.mp h).2, Nat.mul_zero]
    · rintro rfl
      simp

theorem same_carry (hx : x ≤ 2 * M) : Same M ((x + x / (M + 1)) % (M + 1)) x := by
  have hsplit := Nat.mod_add_div x (M + 1)
  have hlt : x % (M + 1) + x / (M + 1) < M + 1 := by
    rcases Nat.lt_or_ge x (M + 1) with h | h
    · rw [Nat.div_eq_of_lt h, Nat.mod_eq_of_lt h]
      exact h
    · have hdiv : x / (M + 1) = 1 := Nat.div_eq_of_lt_le (by omega) (by omega)
      rw [hdiv] at hsplit ⊢
      omega
  rw [Nat.add_mod, Nat.add_mod_mod, Nat.mod_eq_of_lt hlt]
  exact same_fold M x

end OnesComplement
