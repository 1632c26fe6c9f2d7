import Mathlib.Logic.Function.Basic
import Mathlib.Tactic.Ring

/-!
# Memory of bytes and lists linked through it

A memory has a byte at every address; numbers are loaded and stored with the lowest byte first.
`Chain` is a list whose elements are linked: each has the address of the next one, and the last has
none.
-/

namespace Memory

/-! ## Loads and stores -/

/-- The bytes of a memory. -/
abbrev Mem := Nat → UInt8

/-- The number in the bytes from `a` on. -/
def load (m : Mem) (a : Nat) : (width : Nat) → Nat
  | 0 => 0
  | width + 1 => (m a).toNat + 256 * load m (a + 1) width

/-- The memory with a number in the bytes from `a` on. -/
def store (m : Mem) (a v : Nat) : (width : Nat) → Mem
  | 0 => m
  | width + 1 => store (Function.update m a (UInt8.ofNat v)) (a + 1) (v / 256) width

variable {a : Nat}

theorem load_congr (h : ∀ x, a ≤ x → x < a + width → m x = m' x) : load m a width = load m' a width := by
  induction width generalizing a with
  | zero => rfl
  | succ width ih =>
    rw [load, load, h a (Nat.le_refl a) (by omega), ih fun x hle hlt => h x (by omega) (by omega)]

theorem store_of_outside (h : x < a ∨ a + width ≤ x) : store m a v width x = m x := by
  induction width generalizing m a v with
  | zero => rfl
  | succ width ih =>
    rw [store, ih (by omega), Function.update_of_ne (by omega)]

theorem load_store (h : v < 256 ^ width) : load (store m a v width) a width = v := by
  induction width generalizing m a v with
  | zero =>
    rw [Nat.pow_zero] at h
    rw [load]
    omega
  | succ width ih =>
    have hdiv : v / 256 < 256 ^ width := by
      rw [Nat.pow_succ] at h
      exact Nat.div_lt_of_lt_mul (by rwa [Nat.mul_comm])
    rw [load, store, ih hdiv, store_of_outside (.inl (Nat.lt_succ_self a)), Function.update_self]
    simp only [UInt8.toNat_ofNat']
    omega

theorem load_store_of_disjoint (h : a + width ≤ b ∨ b + width ≤ a) :
    load (store m a v width) b width = load m b width :=
  load_congr fun _ hle hlt => store_of_outside (by omega)

/-! ## Copies -/

/-- The memory with the bytes of a list from `a` on. -/
def copy (m : Mem) (a : Nat) (l : List UInt8) : Mem := fun x =>
  if a ≤ x ∧ x < a + l.length then l.getD (x - a) 0 else m x

theorem copy_of_outside (h : ¬ (a ≤ x ∧ x < a + l.length)) :
    copy m a l x = m x := if_neg h

/-- A list with the elements of another from `start` on. -/
def splice {α : Type} (start : Nat) (l whole : List α) : List α :=
  whole.take start ++ l ++ whole.drop (start + l.length)

section
variable {α : Type} {l : List α}

theorem splice_skip (h : w.length ≤ start) :
    splice start l (w ++ w') = w ++ splice (start - w.length) l w' := by
  have hdrop : start + l.length - w.length = start - w.length + l.length := by omega
  simp only [splice, List.take_append, List.drop_append, List.take_of_length_le h,
    List.drop_eq_nil_of_le (show w.length ≤ start + l.length by omega), hdrop, List.nil_append,
    List.append_assoc]

theorem splice_within (h : start + l.length ≤ w.length) :
    splice start l (w ++ w') = splice start l w ++ w' := by
  simp only [splice, List.take_append_of_le_length (show start ≤ w.length by omega),
    List.drop_append_of_le_length h, List.append_assoc]

theorem splice_across (h : start + l.length = w.length) :
    splice start (l ++ l') (w ++ w') = splice start l w ++ splice 0 l' w' := by
  have hdrop : (w ++ w').drop (start + (l.length + l'.length)) = w'.drop l'.length := by
    rw [← Nat.add_assoc, h, List.drop_append, List.drop_eq_nil_of_le (by omega),
      Nat.add_sub_cancel_left, List.nil_append]
  simp [splice, hdrop, List.take_append_of_le_length (show start ≤ w.length by omega), h]

end

theorem map_copy (h : start + l.length ≤ n) :
    (List.range' a n).map (copy m (a + start) l) = splice start l ((List.range' a n).map m) := by
  apply List.ext_getElem
  · simp [splice]
    omega
  · intro i hi hi'
    rw [List.length_map, List.length_range'] at hi
    simp only [splice, List.getElem_map, List.getElem_range', Nat.one_mul, copy,
      List.getElem_append, List.getElem_take, List.getElem_drop, List.length_append,
      List.length_take, List.length_map, List.length_range']
    split
    · rename_i hin
      rw [dif_pos (by omega), dif_neg (by omega), List.getD_eq_getElem?_getD,
        List.getElem?_eq_getElem (by omega), Option.getD_some]
      congr 1
      omega
    · rename_i hout
      split
      · rw [dif_pos (by omega)]
      · congr 1
        omega

/-! ## Linked lists -/

section
variable {α : Type} [Zero α] {next next' : α → α} {p : α} {l : List α}

/-- From `p` on, the elements of `l` are linked by `next`, and zero ends the list. -/
def Chain (next : α → α) : α → List α → Prop
  | p, [] => p = 0
  | p, a :: l => p = a ∧ a ≠ 0 ∧ Chain next (next a) l

theorem Chain.congr (h : Chain next p l) (hnext : ∀ a ∈ l, next' a = next a) : Chain next' p l := by
  induction l generalizing p with
  | nil => exact h
  | cons a l ih =>
    obtain ⟨hp, hne, hrest⟩ := h
    refine ⟨hp, hne, ?_⟩
    rw [hnext a List.mem_cons_self]
    exact ih hrest fun x hx => hnext x (List.mem_cons_of_mem _ hx)

theorem Chain.exists_cons (h : Chain next p l) (hne : l ≠ []) :
    ∃ rest, l = p :: rest ∧ p ≠ 0 ∧ Chain next (next p) rest := by
  cases l with
  | nil => exact (hne rfl).elim
  | cons a rest =>
    obtain ⟨rfl, hpos, hrest⟩ := h
    exact ⟨rest, rfl, hpos, hrest⟩

end

end Memory
