import Mathlib

/-!
# Cutting into pieces of one size

Something comes in parts of any sizes and is cut into pieces of `s`, the last of which may be
shorter. `Cut s need rest lens` is where that stands: the pieces have the lengths `lens`, the last
may still take `need`, and `rest` is to come. A piece may take less than would fill it if the rest
fits.
-/

namespace Chunks

/-- The pieces so far. -/
def Cut (s need rest : Nat) (lens : List Nat) : Prop :=
  (lens = [] ∧ need = 0) ∨ ∃ front len, lens = front ++ [len] ∧ (∀ l ∈ front, l = s) ∧ 0 < len ∧
    len + need ≤ s ∧ (len + need = s ∨ rest ≤ need)

theorem Cut.nil (s rest : Nat) : Cut s 0 rest [] := .inl ⟨rfl, rfl⟩

theorem Cut.full (h : Cut s 0 rest lens) (hrest : 0 < rest) : ∀ l ∈ lens, l = s := by
  rcases h with ⟨rfl, -⟩ | ⟨front, len, rfl, hfront, -, -, hlen⟩
  · exact fun _ hl => by cases hl
  · intro l hl
    rcases List.mem_append.mp hl with hl | hl
    · exact hfront l hl
    · obtain rfl := List.mem_singleton.mp hl
      omega

theorem Cut.start (h : Cut s 0 rest lens) (hrest : 0 < rest) (hsize : 0 < size)
    (hle : size + need ≤ s) (hneed : size + need = s ∨ rest' ≤ need) :
    Cut s need rest' (lens ++ [size]) :=
  .inr ⟨lens, size, rfl, h.full hrest, hsize, hle, hneed⟩

theorem Cut.fill (h : Cut s need rest (lens ++ [len])) (hsize : size ≤ need) :
    Cut s (need - size) (rest - size) (lens ++ [len + size]) := by
  rcases h with ⟨hnil, -⟩ | ⟨front, len', heq, hfront, hpos, hle, hneed⟩
  · simp at hnil
  · obtain ⟨rfl, hlen⟩ := List.append_inj' heq rfl
    obtain rfl : len = len' := List.head_eq_of_cons_eq hlen
    exact .inr ⟨lens, len + size, rfl, hfront, by omega, by omega, by omega⟩

theorem Cut.done (h : Cut s need rest lens) :
    (∀ l ∈ lens.dropLast, l = s) ∧ ∀ l, lens.getLast? = some l → 1 ≤ l ∧ l ≤ s := by
  rcases h with ⟨rfl, -⟩ | ⟨front, len, rfl, hfront, hpos, hle, -⟩
  · exact ⟨fun _ hl => by (cases hl), fun _ hl => by cases hl⟩
  · rw [List.dropLast_concat, List.getLast?_concat]
    refine ⟨hfront, fun l hl => ?_⟩
    obtain rfl := Option.some.inj hl
    omega

theorem Cut.pos (h : Cut s need rest lens) (hs : 0 < s) : ∀ l ∈ lens, 0 < l := by
  rcases h with ⟨rfl, -⟩ | ⟨front, len, rfl, hfront, hlen, -, -⟩
  · exact fun _ hl => by cases hl
  · intro l hl
    rcases List.mem_append.mp hl with hl | hl
    · rw [hfront l hl]
      exact hs
    · rw [List.mem_singleton.mp hl]
      exact hlen

/-- What fills up the last piece, by the number there is so far. -/
def gap (s done : Nat) : Nat := (s - done % s) % s

theorem Cut.need_eq (h : Cut s need rest lens) :
    need = gap s lens.sum ∨ (rest ≤ need ∧ rest ≤ gap s lens.sum) := by
  rcases h with ⟨rfl, rfl⟩ | ⟨front, len, rfl, hfront, hpos, hle, hneed⟩
  · left
    rw [gap, List.sum_nil, Nat.zero_mod, Nat.sub_zero, Nat.mod_self]
  · have hsum : (front ++ [len]).sum = len + s * front.length := by
      rw [List.sum_append, List.sum_singleton, List.eq_replicate_of_mem hfront, List.sum_replicate,
        List.length_replicate, smul_eq_mul, Nat.mul_comm, Nat.add_comm]
    rw [gap, hsum, Nat.add_mul_mod_self_left]
    rcases Nat.lt_or_ge len s with hlt | hge
    · rw [Nat.mod_eq_of_lt hlt, Nat.mod_eq_of_lt (by omega)]
      omega
    · obtain rfl : len = s := by omega
      rw [Nat.mod_self, Nat.sub_zero, Nat.mod_self]
      omega

end Chunks
