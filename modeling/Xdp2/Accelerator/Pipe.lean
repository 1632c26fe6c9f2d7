import Mathlib.Tactic.SplitIfs
import Xdp2.Lib.Ring

/-!
# Pipes

`accelerator.h`, `struct xdp2_pipe`: a ring of bytes between two stages. A stage is given one run of
bytes and one of free space; `Pipe.contents` is what lies in the pipe, in the order written.
-/

namespace Xdp2

/-- `struct xdp2_pipe`, with what `__xdp2_pipe_check_pipe` asserts. -/
structure Pipe where
  cons_ptr : Nat
  prod_ptr : Nat
  pipe_full : Bool
  size : Nat
  data : Nat → UInt8
  cons_lt : cons_ptr < size
  prod_lt : prod_ptr < size
  full_eq : pipe_full = true → cons_ptr = prod_ptr

namespace Pipe

/-- A pipe before its first use. -/
def new (size : Nat) (hpos : 0 < size) : Pipe :=
  ⟨0, 0, false, size, fun _ => 0, hpos, hpos, fun _ => rfl⟩

/-- `__xdp2_pipe_empty_right`. -/
def emptyRight (p : Pipe) : Nat :=
  if p.pipe_full then 0
  else if p.cons_ptr ≤ p.prod_ptr then p.size - p.prod_ptr
  else p.cons_ptr - p.prod_ptr

/-- `__xdp2_pipe_filled_right`. -/
def filledRight (p : Pipe) : Nat :=
  if p.pipe_full then p.size - p.cons_ptr
  else if p.cons_ptr ≤ p.prod_ptr then p.prod_ptr - p.cons_ptr
  else p.size - p.cons_ptr

/-- `__xdp2_pipe_empty`. -/
def isEmpty (p : Pipe) : Bool := p.cons_ptr == p.prod_ptr && !p.pipe_full

/-- The bytes that a stage is given. -/
def run (p : Pipe) : List UInt8 := Ring.segment p.data p.cons_ptr p.filledRight

/-- The number of bytes in a pipe. -/
def count (p : Pipe) : Nat :=
  if p.pipe_full then p.size
  else if p.cons_ptr ≤ p.prod_ptr then p.prod_ptr - p.cons_ptr
  else p.size + p.prod_ptr - p.cons_ptr

/-- The bytes in a pipe. -/
def contents (p : Pipe) : List UInt8 := Ring.cells p.size p.data p.cons_ptr p.count

theorem emptyRight_le (p : Pipe) : p.prod_ptr + p.emptyRight ≤ p.size := by
  have := p.cons_lt
  have := p.prod_lt
  rw [emptyRight]
  split
  · omega
  · split <;> omega

theorem filledRight_le (p : Pipe) : p.cons_ptr + p.filledRight ≤ p.size := by
  have := p.cons_lt
  have := p.prod_lt
  rw [filledRight]
  split
  · omega
  · split <;> omega

/-- A pointer at the end of the ring goes back to its start. -/
def wrap (size ptr : Nat) : Nat := if ptr = size then 0 else ptr

theorem wrap_lt {size ptr : Nat} (hpos : 0 < size) (h : ptr ≤ size) : wrap size ptr < size := by
  rw [wrap]
  split <;> omega

/-- A handler has written bytes at the producer pointer, and `adjust_output_pipe`. -/
def produce (p : Pipe) (bytes : List UInt8) (h : bytes.length ≤ p.emptyRight) : Pipe :=
  if hpos : bytes.length = 0 then p
  else
    let prod_ptr := wrap p.size (p.prod_ptr + bytes.length)
    { p with
      prod_ptr
      pipe_full := p.pipe_full || decide (prod_ptr = p.cons_ptr)
      data := Ring.write p.data p.prod_ptr bytes
      prod_lt := wrap_lt (Nat.lt_of_le_of_lt (Nat.zero_le _) p.prod_lt) (by
        have := p.emptyRight_le
        omega)
      full_eq := by
        intro hfull
        rw [Bool.or_eq_true, decide_eq_true_eq] at hfull
        rcases hfull with hfull | heq
        · rw [emptyRight, if_pos hfull] at h
          omega
        · exact heq.symm }

/-- The consumer pointer is moved behind the bytes that a stage has read. -/
def consume (p : Pipe) (consumed : Nat) (h : consumed ≤ p.filledRight) : Pipe :=
  if consumed = 0 then p
  else
    { p with
      cons_ptr := wrap p.size (p.cons_ptr + consumed)
      pipe_full := false
      cons_lt := wrap_lt (Nat.lt_of_le_of_lt (Nat.zero_le _) p.cons_lt) (by
        have := p.filledRight_le
        omega)
      full_eq := fun h => absurd h Bool.false_ne_true }

section
variable (p : Pipe)

@[simp]
theorem length_contents : p.contents.length = p.count := Ring.length_cells

@[simp]
theorem length_run : p.run.length = p.filledRight := by simp [run, Ring.segment]

theorem filledRight_le_count : p.filledRight ≤ p.count := by
  have := p.prod_lt
  rw [filledRight, count]
  split
  · omega
  · split <;> omega

theorem count_le : p.count ≤ p.size := by
  have := p.prod_lt
  rw [count]
  split
  · omega
  · split <;> omega

theorem run_eq : p.run = p.contents.take p.filledRight :=
  Ring.segment_eq_take p.filledRight_le_count p.filledRight_le

theorem filledRight_pos (h : p.contents ≠ []) : 0 < p.filledRight := by
  have hpos : 0 < p.count := by
    rw [← p.length_contents]
    exact List.length_pos_of_ne_nil h
  have := p.cons_lt
  rw [count] at hpos
  rw [filledRight]
  split
  · omega
  · rename_i hfull
    rw [if_neg hfull] at hpos
    split
    · rename_i hle
      rw [if_pos hle] at hpos
      exact hpos
    · omega

theorem emptyRight_pos (h : p.contents.length < p.size) : 0 < p.emptyRight := by
  have := p.prod_lt
  rw [length_contents, count] at h
  rw [emptyRight]
  split
  · rename_i hfull
    rw [if_pos hfull] at h
    omega
  · split <;> omega

theorem isEmpty_iff : p.isEmpty = true ↔ p.contents = [] := by
  have := p.cons_lt
  rw [← List.length_eq_zero_iff, length_contents, count, isEmpty, Bool.and_eq_true, beq_iff_eq,
    Bool.not_eq_true']
  constructor
  · rintro ⟨heq, hfull⟩
    rw [if_neg (by rw [hfull]; exact Bool.false_ne_true), if_pos heq.le]
    omega
  · intro hzero
    split at hzero
    · omega
    · rename_i hfull
      refine ⟨?_, Bool.not_eq_true _ ▸ hfull⟩
      split at hzero <;> omega

variable {p}

theorem size_produce (h : bytes.length ≤ p.emptyRight) : (p.produce bytes h).size = p.size := by
  rw [produce]
  split <;> rfl

theorem size_consume (h : consumed ≤ p.filledRight) : (p.consume consumed h).size = p.size := by
  rw [consume]
  split <;> rfl

theorem distance_add (hc : c < z) (hk : 0 < k) (h : k ≤ if c ≤ m then z - m else c - m) :
    (if wrap z (m + k) = c then z
      else if c ≤ wrap z (m + k) then wrap z (m + k) - c else z + wrap z (m + k) - c) =
      (if c ≤ m then m - c else z + m - c) + k := by
  unfold wrap
  split_ifs at h ⊢ <;> omega

theorem distance_sub (hm : m < z) (h : k ≤ if c ≤ m then m - c else z - c) :
    (if wrap z (c + k) ≤ m then m - wrap z (c + k) else z + m - wrap z (c + k)) =
      (if c ≤ m then m - c else z + m - c) - k := by
  unfold wrap
  split_ifs at h ⊢ <;> omega

theorem contents_produce (h : bytes.length ≤ p.emptyRight) :
    (p.produce bytes h).contents = p.contents ++ bytes := by
  rw [produce]
  split
  · rename_i hzero
    rw [List.length_eq_zero_iff.mp hzero, List.append_nil]
  · rename_i hne
    have hcons := p.cons_lt
    have hprod := p.prod_lt
    have hfull : p.pipe_full = false := by
      cases hfull : p.pipe_full with
      | false => rfl
      | true =>
        rw [emptyRight, if_pos hfull] at h
        omega
    have hcount : p.count = if p.cons_ptr ≤ p.prod_ptr then p.prod_ptr - p.cons_ptr
        else p.size + p.prod_ptr - p.cons_ptr := by
      rw [count, hfull]
      rfl
    rw [emptyRight, hfull, if_neg Bool.false_ne_true] at h
    have hfree : p.count + bytes.length ≤ p.size := by
      rw [hcount]
      split at h <;> split <;> omega
    have hptr : p.prod_ptr = (p.cons_ptr + p.count) % p.size := by
      rw [Ring.add_mod_size hcons (by omega), hcount]
      split <;> split <;> omega
    rw [contents, contents, ← Ring.cells_write hcons hptr (by split at h <;> omega) hfree]
    congr 1
    rw [hcount, ← distance_add hcons (by omega) h, count]
    simp only [hfull, Bool.false_or, decide_eq_true_eq]

theorem contents_consume (h : consumed ≤ p.filledRight) :
    (p.consume consumed h).contents = p.contents.drop consumed := by
  rw [consume]
  split
  · rename_i hzero
    rw [hzero, List.drop_zero]
  · rename_i hne
    have hcons := p.cons_lt
    have hprod := p.prod_lt
    have hfull := p.full_eq
    have hle := p.filledRight_le
    have hcount := p.filledRight_le_count
    rw [contents, contents, Ring.drop_cells (by omega),
      Ring.add_mod_size hcons (by have := p.count_le; omega)]
    dsimp only
    have hptr : (if p.cons_ptr + consumed < p.size then p.cons_ptr + consumed
        else p.cons_ptr + consumed - p.size) = wrap p.size (p.cons_ptr + consumed) := by
      unfold wrap
      split_ifs <;> omega
    rw [hptr]
    congr 1
    simp only [count, Bool.false_eq_true, if_false]
    rw [filledRight] at h
    cases hf : p.pipe_full with
    | true =>
      rw [hf, if_pos rfl] at h
      have := hfull hf
      rw [if_pos (show true = true from rfl)]
      unfold wrap
      split_ifs <;> omega
    | false =>
      rw [hf, if_neg Bool.false_ne_true] at h
      rw [if_neg Bool.false_ne_true, distance_sub hprod h]

end

end Pipe

end Xdp2
