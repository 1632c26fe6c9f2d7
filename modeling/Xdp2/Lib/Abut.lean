import Mathlib.Algebra.Order.Group.Nat

/-!
# Pieces that abut

A list of pieces, each with an offset and a length, that cover a range without gaps and without
overlap: every piece begins where the one before it ends.
-/

namespace Abut

variable {τ : Type*}

/-- The pieces cover the range from `a` to `b`, in order. -/
inductive Covers (off len : τ → Nat) : Nat → List τ → Nat → Prop where
  | nil {a : Nat} : Covers off len a [] a
  | cons {a b : Nat} {t : τ} {ts : List τ} (hoff : off t = a)
      (hrest : Covers off len (a + len t) ts b) : Covers off len a (t :: ts) b

namespace Covers

theorem one (hoff : off t = a) : Covers off len a [t] (a + len t) := .cons hoff .nil

theorem le (h : Covers off len a ts b) : a ≤ b := by
  induction h with
  | nil => exact le_rfl
  | cons _ _ ih => exact (Nat.le_add_right _ _).trans ih

theorem mem (h : Covers off len a ts b) (ht : t ∈ ts) :
    a ≤ off t ∧ off t + len t ≤ b := by
  induction h with
  | nil => cases ht
  | cons hoff hrest ih =>
    rcases List.mem_cons.mp ht with rfl | ht
    · exact ⟨hoff.ge, hoff ▸ hrest.le⟩
    · obtain ⟨hge, hle⟩ := ih ht
      exact ⟨(Nat.le_add_right _ _).trans hge, hle⟩

theorem pairwise (h : Covers off len a ts b) :
    ts.Pairwise fun t u => off t + len t ≤ off u := by
  induction h with
  | nil => exact .nil
  | cons hoff hrest ih => exact .cons (fun u hu => hoff ▸ (hrest.mem hu).1) ih

end Covers

end Abut
