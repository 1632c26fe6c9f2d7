import Xdp2.Lib.BitWord

/-!
# Words in another byte order

A `WordOrder` is a conversion between byte orders: it permutes the bits of a word and is its own
inverse, so it goes through bitwise operations, keeps the number of set bits, and finds the zero
word.
-/

namespace BitWord

/-- A conversion of words that permutes their bits and is its own inverse. -/
structure WordOrder (w : Nat) where
  conv : BitVec w → BitVec w
  /-- Where a bit comes from. -/
  perm : Nat → Nat
  perm_lt : ∀ {k}, k < w → perm k < w
  perm_perm : ∀ {k}, k < w → perm (perm k) = k
  getLsbD_conv : ∀ {v : BitVec w} {k}, k < w → (conv v).getLsbD k = v.getLsbD (perm k)

namespace WordOrder

/-- Words in the byte order of the machine. -/
def host (w : Nat) : WordOrder w where
  conv v := v
  perm k := k
  perm_lt h := h
  perm_perm _ := rfl
  getLsbD_conv _ := rfl

/-- Words of `n` bytes in the other byte order. -/
def swapped (n : Nat) : WordOrder (8 * n) where
  conv v := .ofFnLE fun k => v.getLsbD (8 * (n - 1 - k / 8) + k % 8)
  perm k := 8 * (n - 1 - k / 8) + k % 8
  perm_lt h := by omega
  perm_perm h := by omega
  getLsbD_conv h := by rw [BitVec.getLsbD_ofFnLE, dif_pos h]

variable (o : WordOrder w) (v u : BitVec w)

@[simp] theorem conv_conv : o.conv (o.conv v) = v := by
  apply BitVec.eq_of_getLsbD_eq
  intro k hk
  rw [o.getLsbD_conv hk, o.getLsbD_conv (o.perm_lt hk), o.perm_perm hk]

@[simp] theorem conv_and : o.conv (v &&& u) = o.conv v &&& o.conv u := by
  apply BitVec.eq_of_getLsbD_eq
  intro k hk
  simp [o.getLsbD_conv hk]

@[simp] theorem conv_or : o.conv (v ||| u) = o.conv v ||| o.conv u := by
  apply BitVec.eq_of_getLsbD_eq
  intro k hk
  simp [o.getLsbD_conv hk]

@[simp] theorem conv_not : o.conv (~~~v) = ~~~o.conv v := by
  apply BitVec.eq_of_getLsbD_eq
  intro k hk
  rw [o.getLsbD_conv hk, BitVec.getLsbD_not, BitVec.getLsbD_not, o.getLsbD_conv hk,
    decide_eq_true hk, decide_eq_true (o.perm_lt hk)]

@[simp] theorem conv_zero : o.conv 0 = 0 := by
  apply BitVec.eq_of_getLsbD_eq
  intro k hk
  simp [o.getLsbD_conv hk]

@[simp] theorem conv_allOnes : o.conv (.allOnes w) = .allOnes w := by
  apply BitVec.eq_of_getLsbD_eq
  intro k hk
  simp [o.getLsbD_conv hk, hk, o.perm_lt hk]

theorem conv_eq_zero : o.conv v = 0 ↔ v = 0 := by
  constructor
  · intro h
    rw [← o.conv_conv v, h, conv_zero]
  · rintro rfl
    exact o.conv_zero

theorem perm_range : ((List.range w).map o.perm).Perm (List.range w) := by
  have hinj : ∀ i ∈ List.range w, ∀ j ∈ List.range w, o.perm i = o.perm j → i = j := by
    intro i hi j hj h
    rw [← o.perm_perm (List.mem_range.mp hi), h, o.perm_perm (List.mem_range.mp hj)]
  refine (List.perm_ext_iff_of_nodup (List.nodup_range.map_on hinj) List.nodup_range).mpr
    fun i => ?_
  rw [List.mem_map, List.mem_range]
  constructor
  · rintro ⟨j, hj, rfl⟩
    exact o.perm_lt (List.mem_range.mp hj)
  · intro hi
    exact ⟨o.perm i, List.mem_range.mpr (o.perm_lt hi), o.perm_perm hi⟩

@[simp] theorem weight_conv : weight (o.conv v) = weight v := by
  rw [weight, weight, ← o.perm_range.countP_eq, List.countP_map]
  refine List.countP_congr fun k hk => ?_
  have hk := List.mem_range.mp hk
  rw [Function.comp_apply, o.getLsbD_conv (o.perm_lt hk), o.perm_perm hk]

end WordOrder

end BitWord
