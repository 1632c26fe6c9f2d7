import Mathlib

/-!
# Taking elements from either end of a list

`Side` names an end of a list. `part side n l` are the `n` elements there, `keep side n l` the
others, and `join side near far` puts a list together. `Progress` follows a loop that takes elements
from the lists a list is made of, from one end on.
-/

namespace ListEnd

variable {α : Type}

/-- An end of a list. -/
inductive Side where
  | front
  | back
  deriving DecidableEq, Repr

/-- A list from the part at an end and the part away from it. -/
def join : Side → List α → List α → List α
  | .front, near, far => near ++ far
  | .back, near, far => far ++ near

/-- The `n` elements at an end, all if there are fewer. -/
def part : Side → Nat → List α → List α
  | .front, n, l => l.take n
  | .back, n, l => l.drop (l.length - n)

/-- The elements but for the `n` at an end. -/
def keep : Side → Nat → List α → List α
  | .front, n, l => l.drop n
  | .back, n, l => l.take (l.length - n)

section
variable (s : Side) (n : Nat) (a b c l : List α)

@[simp] theorem length_join : (join s a b).length = a.length + b.length := by
  cases s <;> simp [join, Nat.add_comm]

@[simp] theorem length_keep : (keep s n l).length = l.length - n := by
  cases s <;> simp [keep]

@[simp] theorem length_part : (part s n l).length = min n l.length := by
  cases s
  · simp [part]
  · simp only [part, List.length_drop]
    omega

@[simp] theorem join_nil : join s a [] = a := by cases s <;> simp [join]

@[simp] theorem nil_join : join s [] b = b := by cases s <;> simp [join]

theorem join_assoc : join s (join s a b) c = join s a (join s b c) := by
  cases s <;> simp [join]

@[simp] theorem keep_zero : keep s 0 l = l := by cases s <;> simp [keep]

@[simp] theorem part_zero : part s 0 l = [] := by cases s <;> simp [part]

theorem keep_of_le {n : Nat} {l : List α} (h : l.length ≤ n) : keep s n l = [] := by
  cases s
  · exact List.drop_of_length_le h
  · simp [keep, Nat.sub_eq_zero_of_le h]

theorem part_of_le {n : Nat} {l : List α} (h : l.length ≤ n) : part s n l = l := by
  cases s
  · exact List.take_of_length_le h
  · simp [part, Nat.sub_eq_zero_of_le h]

theorem keep_join : keep s n (join s a b) = join s (keep s n a) (keep s (n - a.length) b) := by
  cases s with
  | front => exact List.drop_append
  | back =>
    simp only [keep, join, List.length_append, List.take_append]
    rw [show b.length + a.length - n - b.length = a.length - n by omega]
    by_cases h : n ≤ a.length
    · rw [Nat.sub_eq_zero_of_le h, Nat.sub_zero, List.take_of_length_le (by omega),
        List.take_of_length_le (Nat.le_refl _)]
    · rw [show b.length + a.length - n = b.length - (n - a.length) by omega]

theorem part_join : part s n (join s a b) = join s (part s n a) (part s (n - a.length) b) := by
  cases s with
  | front => exact List.take_append
  | back =>
    simp only [part, join, List.length_append, List.drop_append]
    rw [show b.length + a.length - n - b.length = a.length - n by omega]
    by_cases h : n ≤ a.length
    · rw [Nat.sub_eq_zero_of_le h, Nat.sub_zero, List.drop_of_length_le (by omega),
        List.drop_of_length_le (Nat.le_refl _)]
    · rw [show b.length + a.length - n = b.length - (n - a.length) by omega]

theorem join_part_keep : join s (part s n l) (keep s n l) = l := by
  cases s
  · exact List.take_append_drop n l
  · exact List.take_append_drop (l.length - n) l

theorem keep_min : keep s (min n l.length) l = keep s n l := by
  rcases Nat.le_total n l.length with h | h
  · rw [Nat.min_eq_left h]
  · rw [Nat.min_eq_right h, keep_of_le s h, keep_of_le s (Nat.le_refl _)]

theorem part_min : part s (min n l.length) l = part s n l := by
  rcases Nat.le_total n l.length with h | h
  · rw [Nat.min_eq_left h]
  · rw [Nat.min_eq_right h, part_of_le s h, part_of_le s (Nat.le_refl _)]

end

/-- Of the list `l`, `k` elements have been taken from an end, `rest` is left. -/
structure Progress (s : Side) (l : List α) (k : Nat) (rest : List α) : Prop where
  le : k ≤ l.length
  rest_eq : rest = keep s k l

theorem Progress.zero (s : Side) (l : List α) : Progress s l 0 l :=
  ⟨Nat.zero_le _, (keep_zero s l).symm⟩

theorem Progress.step {s : Side} {l a b : List α} {k : Nat} (h : Progress s l k (join s a b))
    (n : Nat) :
    Progress s l (k + min n a.length) (join s (keep s n a) b) ∧
      part s (k + min n a.length) l = join s (part s k l) (part s n a) := by
  obtain ⟨hle, hrest⟩ := h
  have hlen := congrArg List.length hrest
  rw [length_join, length_keep] at hlen
  have hk : (part s k l).length = k := by rw [length_part, Nat.min_eq_left hle]
  have hsplit : l = join s (part s k l) (join s a b) := by rw [hrest, join_part_keep]
  have hpast : k + min n a.length - (part s k l).length = min n a.length := by omega
  have hover : min n a.length - a.length = 0 := by omega
  constructor
  · refine ⟨by omega, Eq.symm ?_⟩
    calc keep s (k + min n a.length) l
        = keep s (k + min n a.length) (join s (part s k l) (join s a b)) := by rw [← hsplit]
      _ = keep s (min n a.length) (join s a b) := by
          rw [keep_join, keep_of_le s (by omega), nil_join, hpast]
      _ = join s (keep s n a) b := by rw [keep_join, hover, keep_min, keep_zero]
  · calc part s (k + min n a.length) l
        = part s (k + min n a.length) (join s (part s k l) (join s a b)) := by rw [← hsplit]
      _ = join s (part s k l) (part s (min n a.length) (join s a b)) := by
          rw [part_join, part_of_le s (by omega), hpast]
      _ = join s (part s k l) (part s n a) := by
          rw [part_join s _ a b, hover, part_min, part_zero, join_nil]

end ListEnd
