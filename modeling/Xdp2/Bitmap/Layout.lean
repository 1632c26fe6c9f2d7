import Xdp2.Lib.WordOrder
import Xdp2.Bitmap.Find

/-!
# The layouts of a bitmap

The functions of `bitmap.h` come for words of 8 to 64 bits, in host order or swapped (`CONV_FUNC`),
and for words in ascending or, with `NUM_WORDS` not zero, descending order: a `Layout` is one of
these. An array has a word at every offset from the pointer given; `Layout.view` has them in the
order of their bits, as host integers.
-/

namespace Xdp2

open BitWord

/-- The words of an array, by their offset. -/
abbrev Words (w : Nat) := Int → BitVec w

/-- An operator argument of the macros: a tilde or nothing. -/
def tilde (c : Bool) (v : BitVec w) : BitVec w := if c then ~~~v else v

theorem getLsbD_tilde (c : Bool) (v : BitVec w) (hk : k < w) :
    (tilde c v).getLsbD k = (v.getLsbD k ^^ c) := by
  cases c with
  | false => rw [tilde, if_neg Bool.false_ne_true, Bool.xor_false]
  | true => rw [tilde, if_pos rfl, BitVec.getLsbD_not, decide_eq_true hk, Bool.true_and,
      Bool.xor_true]

/-- How the bits of a bitmap lie in memory. -/
structure Layout (w : Nat) where
  order : WordOrder w
  num_words : Nat
  word_pos : 0 < w

namespace Layout

/-- `CONV_FUNC`. -/
def conv (L : Layout w) : BitVec w → BitVec w := L.order.conv

/-- `_dir`: from a word to the next one. -/
def dir (L : Layout w) : Int := if L.num_words ≠ 0 then -1 else 1

/-- The offset of the word `div`. -/
def word (L : Layout w) (div : Nat) : Int :=
  if L.num_words ≠ 0 then (L.num_words - 1 : Int) - div else div

/-- `xdp2_bitmap_isset` and `xdp2_rbitmap_isset`. -/
def isset (L : Layout w) (map : Words w) (index : Nat) : Bool :=
  decide (map (L.word (index / w)) &&& L.conv (bit (index % w)) ≠ 0)

/-- The words in the order of their bits. -/
def view (L : Layout w) (map : Words w) : Bitmap w := fun j => L.conv (map (L.word j))

section
variable (L : Layout w) (map : Words w)

theorem conv_conv (v : BitVec w) : L.conv (L.conv v) = v := L.order.conv_conv v

theorem conv_and (v u : BitVec w) : L.conv (v &&& u) = L.conv v &&& L.conv u :=
  L.order.conv_and v u

theorem conv_or (v u : BitVec w) : L.conv (v ||| u) = L.conv v ||| L.conv u :=
  L.order.conv_or v u

theorem conv_not (v : BitVec w) : L.conv (~~~v) = ~~~L.conv v := L.order.conv_not v

theorem conv_allOnes : L.conv (.allOnes w) = .allOnes w := L.order.conv_allOnes

theorem conv_ne_zero (v : BitVec w) : v ≠ 0 ↔ L.conv v ≠ 0 :=
  not_congr (L.order.conv_eq_zero v).symm

theorem word_add_dir (j i : Nat) : L.word j + L.dir * i = L.word (j + i) := by
  unfold word dir
  split <;> push_cast <;> ring

theorem word_succ (j : Nat) : L.word j + L.dir = L.word (j + 1) := by
  have h := L.word_add_dir j 1
  rwa [Nat.cast_one, mul_one] at h

theorem word_injective : Function.Injective L.word := by
  intro j i h
  unfold word at h
  split at h <;> omega

theorem mod_lt (L : Layout w) (i : Nat) : i % w < w := Nat.mod_lt i L.word_pos

theorem isset_view : L.isset map i = (L.view map).isset i := by
  have hzero : map (L.word (i / w)) &&& L.conv (bit (i % w)) = 0 ↔
      L.view map (i / w) &&& bit (i % w) = 0 := by
    rw [not_iff_not.mp (L.conv_ne_zero _), conv_and, conv_conv]
    rfl
  rw [isset, Bitmap.isset, decide_eq_decide.mpr (not_congr hzero)]
  cases hbit : (L.view map (i / w)).getLsbD (i % w) with
  | true =>
    refine decide_eq_true fun h => ?_
    have hset : (L.view map (i / w) &&& bit (i % w)).getLsbD (i % w) = true := by
      rw [BitVec.getLsbD_and, hbit, getLsbD_bit, decide_eq_true ⟨rfl, L.mod_lt i⟩]
      rfl
    rw [h] at hset
    simp at hset
  | false =>
    refine decide_eq_false (not_not.mpr ?_)
    apply BitVec.eq_of_getLsbD_eq
    intro k _
    rw [BitVec.getLsbD_and, getLsbD_bit]
    rcases eq_or_ne k (i % w) with rfl | hne
    · simp [hbit]
    · simp [hne]

theorem isset_word (hk : k < w) :
    L.isset map (j * w + k) = (L.conv (map (L.word j))).getLsbD k := by
  rw [isset_view, Bitmap.isset_word _ hk]
  rfl

end

end Layout

end Xdp2
