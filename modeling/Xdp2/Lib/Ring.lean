import Mathlib.Data.List.Range
import Mathlib.Tactic.Ring

/-!
# Rings

A ring keeps a list in cells that are numbered modulo its size. `cells` is the list that starts in a
cell; it grows by what is written behind it (`cells_write`), and what is read from its front is gone
once the start has moved (`drop_cells`).
-/

namespace Ring

variable {α : Type*} {size start count : Nat} {data : Nat → α}

/-- `count` cells from `start` on, around the end. -/
def cells (size : Nat) (data : Nat → α) (start count : Nat) : List α :=
  (List.range count).map fun i => data ((start + i) % size)

/-- Consecutive cells. -/
def segment (data : Nat → α) (start count : Nat) : List α :=
  (List.range count).map fun i => data (start + i)

/-- Consecutive cells are overwritten. -/
def write (data : Nat → α) (start : Nat) (l : List α) : Nat → α := fun i =>
  if start ≤ i then l.getD (i - start) (data i) else data i

@[simp]
theorem length_cells : (cells size data start count).length = count := by simp [cells]

theorem cells_add (a b : Nat) :
    cells size data start (a + b) =
      cells size data start a ++ cells size data ((start + a) % size) b := by
  rw [cells, List.range_add, List.map_append, List.map_map]
  congr 1
  refine List.map_congr_left fun i _ => ?_
  rw [Function.comp_apply, Nat.mod_add_mod, Nat.add_assoc]

theorem drop_cells (hk : k ≤ count) :
    (cells size data start count).drop k = cells size data ((start + k) % size) (count - k) := by
  conv_lhs => rw [show count = k + (count - k) by omega, cells_add]
  rw [List.drop_left' length_cells]

theorem segment_eq_take (hk : k ≤ count) (hend : start + k ≤ size) :
    segment data start k = (cells size data start count).take k := by
  conv_rhs => rw [show count = k + (count - k) by omega, cells_add]
  rw [List.take_left' length_cells, segment, cells]
  refine List.map_congr_left fun i hi => ?_
  rw [Nat.mod_eq_of_lt (by rw [List.mem_range] at hi; omega)]

theorem cells_congr (h : ∀ i, i < count → data' ((start + i) % size) = data ((start + i) % size)) :
    cells size data' start count = cells size data start count :=
  List.map_congr_left fun i hi => h i (List.mem_range.mp hi)

theorem write_of_lt (h : i < p ∨ p + l.length ≤ i) :
    write data p l i = data i := by
  rw [write]
  split
  · rw [List.getD_eq_getElem?_getD, List.getElem?_eq_none (by omega), Option.getD_none]
  · rfl

theorem write_add (h : i < l.length) :
    write data p l (p + i) = l[i] := by
  rw [write, if_pos (Nat.le_add_right p i), Nat.add_sub_cancel_left,
    List.getD_eq_getElem?_getD, List.getElem?_eq_getElem h, Option.getD_some]

theorem segment_congr (h : ∀ i, i < count → data' (start + i) = data (start + i)) :
    segment data' start count = segment data start count :=
  List.map_congr_left fun i hi => h i (List.mem_range.mp hi)

theorem segment_write (p : Nat) (l : List α) : segment (write data p l) p l.length = l := by
  apply List.ext_getElem
  · simp [segment]
  · intro i hi hi'
    simp only [segment, List.getElem_map, List.getElem_range]
    exact write_add hi'

theorem add_mod_size (hstart : start < size) (hi : i ≤ size) :
    (start + i) % size = if start + i < size then start + i else start + i - size := by
  split
  · exact Nat.mod_eq_of_lt (by assumption)
  · rw [Nat.mod_eq_sub_mod (by omega), Nat.mod_eq_of_lt (by omega)]

theorem cells_write (hstart : start < size) (hp : p = (start + count) % size)
    (hend : p + l.length ≤ size) (hfree : count + l.length ≤ size) :
    cells size (write data p l) start (count + l.length) = cells size data start count ++ l := by
  rw [cells_add]
  congr 1
  · refine cells_congr fun i hi => write_of_lt ?_
    rw [add_mod_size hstart (by omega)] at hp ⊢
    split at hp <;> split <;> omega
  · rw [← hp]
    apply List.ext_getElem
    · exact length_cells
    · intro i hi hi'
      simp only [cells, List.getElem_map, List.getElem_range]
      rw [Nat.mod_eq_of_lt (by omega), write_add hi']

end Ring
