import Xdp2.Bitmap.OpsSpec

/-!
# Setting and clearing ranges of bits

`memset` fills the whole words of a range. Its size is a product of `int` values, which is negative
from `2 ^ 31` bits on: `memset` then runs over everything that follows. `bitmap_operations` says
when all operations on ranges do what they should.
-/

namespace Xdp2

open BitWord

variable {w : Nat}

/-- The number of bits in whole words between two positions. -/
def wholeBits (w pos nbits : Nat) : Nat :=
  let n := nbits - pos
  if pos % w = 0 then n / w * w else (n - min (w - pos % w) n) / w * w

/-! ## The size of a fill -/

theorem bmod_small {x : Nat} (h : x < 2 ^ 31) : (x : Int).bmod (2 ^ 32) = x := by
  apply Int.bmod_eq_of_le_mul_two
  · push_cast
    omega
  · push_cast
    omega

theorem bmod_large {x : Nat} (h : 2 ^ 31 ≤ x) (hlt : x < 2 ^ 32) :
    (x : Int).bmod (2 ^ 32) = x - 2 ^ 32 := by
  rw [Int.bmod_def]
  push_cast
  rw [Int.emod_eq_of_lt (by omega) (by omega), if_neg (by omega)]

theorem fillSize_small (hx : i * w = 8 * y) (hlt : i * w < 2 ^ 31) :
    Layout.fillSize w i = y := by
  have hy : (y : Int) % 2 ^ 64 = y := Int.emod_eq_of_lt (by omega) (by omega)
  unfold Layout.fillSize
  rw [← Nat.cast_mul, bmod_small hlt, hx, Nat.cast_mul, Nat.cast_ofNat,
    Int.mul_tdiv_cancel_left _ (by decide), hy]
  exact Int.toNat_natCast y

theorem fillSize_large {i y : Nat} (hx : i * w = 8 * y) (h : 2 ^ 31 ≤ i * w)
    (hlt : i * w < 2 ^ 32) : 2 ^ 63 ≤ Layout.fillSize w i := by
  have hneg : ((8 * y : Nat) : Int) - 2 ^ 32 = 8 * (y - 2 ^ 29) := by
    push_cast
    ring
  have hmod : ((y : Int) - 2 ^ 29) % 2 ^ 64 = y - 2 ^ 29 + 2 ^ 64 := by
    rw [← Int.add_emod_right]
    exact Int.emod_eq_of_lt (by omega) (by omega)
  unfold Layout.fillSize
  rw [← Nat.cast_mul, bmod_large h hlt, hx, hneg, Int.mul_tdiv_cancel_left _ (by decide), hmod]
  omega

section
variable {L : Layout w} {d : Words w} {j i size : Nat} {ones : Bool}

/-! ## What is filled -/

theorem memset_word (hsize : 8 * size / w = i) (m : Nat) :
    Layout.memset d (L.word j - (if L.num_words ≠ 0 then 1 else 0) * ((i : Int) - 1)) ones size
        (L.word m) =
      if j ≤ m ∧ m < j + i then tilde ones 0 else d (L.word m) := by
  have hiff : (L.word j - (if L.num_words ≠ 0 then 1 else 0) * ((i : Int) - 1) ≤ L.word m ∧
      L.word m < L.word j - (if L.num_words ≠ 0 then 1 else 0) * ((i : Int) - 1) + i) ↔
      j ≤ m ∧ m < j + i := by
    unfold Layout.word
    split
    · omega
    · omega
  simp only [Layout.memset, hsize, hiff]

theorem memset_other (hsize : 8 * size / w = i) (hp : ∀ m, p ≠ L.word m) :
    Layout.memset d (L.word j - (if L.num_words ≠ 0 then 1 else 0) * ((i : Int) - 1)) ones size p =
      d p := by
  rw [Layout.memset, hsize, if_neg]
  intro hin
  unfold Layout.word at hp hin
  split at hin
  · rename_i hnum
    refine hp (L.num_words - 1 - p).toNat ?_
    rw [if_pos hnum]
    omega
  · rename_i hnum
    refine hp p.toNat ?_
    rw [if_neg hnum]
    omega

theorem getLsbD_tilde_zero (hk : k < w) :
    (L.conv (tilde ones 0)).getLsbD k = ones := by
  rw [Layout.conv, L.order.getLsbD_conv hk, getLsbD_tilde _ _ (L.order.perm_lt hk)]
  simp

theorem Wrote.memset (h : Wrote L d d' pos (j * w) fun _ => ones) (hpos : pos ≤ j * w)
    (hsize : 8 * size / w = i) :
    Wrote L d (Layout.memset d' (L.word j - (if L.num_words ≠ 0 then 1 else 0) * ((i : Int) - 1))
      ones size) pos ((j + i) * w) fun _ => ones where
  bits m := by
    have hdiv := Nat.div_add_mod' m w
    have hmod := L.mod_lt m
    have hold := h.bits m
    have hadd := Nat.add_mul j i w
    rw [← hdiv, L.isset_word _ hmod, memset_word hsize, hdiv]
    by_cases hin : j ≤ m / w ∧ m / w < j + i
    · have hlow := Nat.mul_le_mul_right w hin.1
      have hhigh := Nat.mul_le_mul_right w (Nat.succ_le_of_lt hin.2)
      rw [Nat.succ_mul] at hhigh
      rw [if_pos hin, getLsbD_tilde_zero hmod, if_pos (by omega)]
    · rw [if_neg hin, ← L.isset_word _ hmod, hdiv, hold]
      have hiff : m < j * w ↔ m < (j + i) * w := by
        rcases Nat.lt_or_ge (m / w) j with hlt | hge
        · have := Nat.mul_le_mul_right w (Nat.succ_le_of_lt hlt)
          rw [Nat.succ_mul] at this
          omega
        · have := Nat.mul_le_mul_right w (show j + i ≤ m / w by omega)
          omega
      simp only [hiff]
  other p hp := by
    rw [memset_other hsize hp]
    exact h.other p hp
  later m hm := by
    have hge : j + i ≤ m := Nat.le_of_mul_le_mul_right hm L.word_pos
    rw [memset_word hsize, if_neg (by omega)]
    exact h.later m (Nat.mul_le_mul_right w (by omega))

theorem Wrote.fill (h : Wrote L d d' pos (j * w + a) fun _ => ones) (hpos : pos ≤ j * w + a)
    (hac : a ≤ c) (h0 : 0 < c) (hc : c ≤ w)
    (hmask : ∀ k, k < w → (L.conv mask).getLsbD k = decide (a ≤ k ∧ k < c)) :
    Wrote L d (Function.update d' (L.word j) (Layout.fill ones mask (d' (L.word j)))) pos
      (j * w + c) fun _ => ones := by
  have hbit : ∀ k, k < w → (L.conv (Layout.fill ones mask (d' (L.word j)))).getLsbD k =
      if a ≤ k ∧ k < c then ones else (L.conv (d' (L.word j))).getLsbD k := by
    intro k hk
    cases ones with
    | true =>
      rw [Layout.fill, if_pos rfl, L.conv_or, BitVec.getLsbD_or, hmask k hk]
      split <;> simp [*]
    | false =>
      rw [Layout.fill, if_neg Bool.false_ne_true, L.conv_and, L.conv_not, BitVec.getLsbD_and,
        BitVec.getLsbD_not, hmask k hk, decide_eq_true hk]
      split <;> simp [*]
  refine h.word hpos hac h0 hc _ (fun k hak hkc => ?_) fun k hk hout => ?_
  · rw [hbit k (by omega), if_pos ⟨hak, hkc⟩]
  · rw [hbit k hk, if_neg hout]

theorem fillWords_wrote (hsize : 8 * Layout.fillSize w (n / w) / w = n / w)
    (h : Wrote L d d' pos (j * w) fun _ => ones) (hpos : pos ≤ j * w) :
    Wrote L d (L.fillWords ones (L.word j) n d') pos (j * w + n) fun _ => ones := by
  have hmod := L.mod_lt n
  have hend : (j + n / w) * w + n % w = j * w + n := by
    rw [Nat.add_mul, Nat.add_assoc, Nat.div_add_mod']
  have hwhole := h.memset hpos hsize
  rw [Layout.fillWords, ← hend]
  dsimp only
  split
  · rename_i hzero
    rw [hzero]
    exact hwhole
  · rw [L.word_add_dir]
    refine hwhole.fill (a := 0) ?_ (Nat.zero_le _) (by omega) hmod.le fun k _ => ?_
    · rw [Nat.add_mul]
      omega
    · rw [L.conv_conv, Bitmap.getLsbD_lowMask hmod.le]
      simp

theorem fillSize_words (hw : 8 ∣ w) (h0 : 0 < w) (hlt : n / w * w < 2 ^ 31) :
    8 * Layout.fillSize w (n / w) / w = n / w := by
  obtain ⟨c, rfl⟩ := hw
  have hx : n / (8 * c) * (8 * c) = 8 * (n / (8 * c) * c) := by ring
  rw [fillSize_small hx hlt, ← hx]
  exact Nat.mul_div_cancel _ h0

theorem setBits_wrote (hw : 8 ∣ w) (hle : pos ≤ nbits) (hlt : nbits < 2 ^ 32)
    (hwhole : wholeBits w pos nbits < 2 ^ 31) :
    Wrote L d (L.setBits ones d pos nbits) pos nbits fun _ => ones := by
  have hn : (nbits + 2 ^ 32 - pos) % 2 ^ 32 = nbits - pos := by omega
  have hdiv := Nat.div_add_mod' pos w
  have hmod := L.mod_lt pos
  rw [Layout.setBits, hn]
  rw [wholeBits] at hwhole
  dsimp only at hwhole ⊢
  split
  · rename_i hne
    rw [if_neg hne] at hwhole
    have hneed : (if nbits ≤ w then nbits - pos else min (w - pos % w) (nbits - pos)) =
        min (w - pos % w) (nbits - pos) := by
      have := Nat.mod_le pos w
      split <;> omega
    rw [hneed]
    have hmask : ∀ k, k < w → (L.conv (L.conv
        (Bitmap.mask (pos % w) (min (w - pos % w) (nbits - pos))))).getLsbD k =
        decide (pos % w ≤ k ∧ k < pos % w + min (w - pos % w) (nbits - pos)) := by
      intro k _
      rw [L.conv_conv, Bitmap.getLsbD_mask (by omega)]
    have hrefl := Wrote.refl L d (pos / w * w + pos % w) fun _ => ones
    rw [hdiv] at hrefl
    have hfirst := Wrote.fill (a := pos % w) (by rw [hdiv]; exact hrefl) (by omega)
      (Nat.le_add_right _ _) (by omega) (by omega) hmask
    rw [← Nat.add_assoc, hdiv] at hfirst
    split
    · rename_i hrest
      rwa [show pos + min (w - pos % w) (nbits - pos) = nbits by omega] at hfirst
    · rename_i hrest
      have hend : pos + min (w - pos % w) (nbits - pos) = (pos / w + 1) * w := by
        rw [Nat.succ_mul]
        omega
      rw [hend] at hfirst
      have hwords := fillWords_wrote (n := nbits - pos - min (w - pos % w) (nbits - pos))
        (fillSize_words hw L.word_pos hwhole) hfirst (by omega)
      rw [L.word_succ]
      rwa [← hend, show pos + min (w - pos % w) (nbits - pos) +
        (nbits - pos - min (w - pos % w) (nbits - pos)) = nbits by omega] at hwords
  · rename_i hzero
    rw [if_pos (not_not.mp hzero)] at hwhole
    have haligned : pos / w * w = pos := by omega
    have hrefl := Wrote.refl L d pos fun _ => ones
    have hwords := fillWords_wrote (j := pos / w) (n := nbits - pos)
      (fillSize_words hw L.word_pos hwhole) (by rw [haligned]; exact hrefl) haligned.ge
    rwa [haligned, show pos + (nbits - pos) = nbits by omega] at hwords

/-! ## What is overrun -/

/-- Where a fill of too many words does not end: after the last word, which in a reverse bitmap is
after the array. -/
def Layout.beyond (L : Layout w) (j : Nat) : Int :=
  if L.num_words ≠ 0 then L.num_words else L.word (j + 1)

theorem Layout.beyond_ne (hm : m ≤ j) : L.word m ≠ L.beyond j := by
  unfold Layout.beyond Layout.word
  split <;> omega

theorem fillWords_overrun (hw : 8 ∣ w) (hw' : w ≤ 64) (h : 2 ^ 31 ≤ n / w * w) (hn : n < 2 ^ 32)
    (hj : j < 2 ^ 32) :
    L.fillWords ones (L.word j) n d' (L.beyond (j + n / w)) = tilde ones 0 := by
  have hi : n / w ≤ n := Nat.div_le_self n w
  have hsize : 2 ^ 60 ≤ 8 * Layout.fillSize w (n / w) / w := by
    obtain ⟨c, hc⟩ := hw
    have hx : n / w * w = 8 * (n / w * c) := by
      rw [hc]
      ring
    have hlarge := fillSize_large hx h (lt_of_le_of_lt (Nat.div_mul_le_self n w) hn)
    rw [Nat.le_div_iff_mul_le L.word_pos]
    omega
  have hmem : Layout.memset d' (L.word j - (if L.num_words ≠ 0 then 1 else 0) * ((n / w : Nat) - 1))
      ones (Layout.fillSize w (n / w)) (L.beyond (j + n / w)) = tilde ones 0 := by
    rw [Layout.memset, if_pos]
    generalize 8 * Layout.fillSize w (n / w) / w = size at hsize
    generalize n / w = i at hi
    unfold Layout.beyond Layout.word
    split
    · omega
    · omega
  rw [Layout.fillWords]
  dsimp only
  split
  · exact hmem
  · rw [L.word_add_dir, Function.update_of_ne (Layout.beyond_ne le_rfl).symm]
    exact hmem

theorem not_rewrites_of_beyond (hm : nbits ≤ (m + 1) * w) (h : d' (L.beyond m) = tilde true 0) :
    ¬ Rewrites L (fun _ => 0) d' pos nbits fun _ => true := by
  intro hr
  rw [Layout.beyond] at h
  split at h
  · rename_i hnum
    have hother := hr.other L.num_words fun j => by
      unfold Layout.word
      rw [if_pos hnum]
      omega
    rw [h] at hother
    have hbit := congrArg (·.getLsbD 0) hother
    simp [tilde, L.word_pos] at hbit
  · have hbit := hr.bits ((m + 1) * w + 0)
    rw [L.isset_word _ L.word_pos, h, getLsbD_tilde_zero L.word_pos, if_neg (by omega),
      L.isset_word _ L.word_pos, show L.conv (0 : BitVec w) = 0 from L.order.conv_zero] at hbit
    simp at hbit

theorem setBits_overrun (hw : 8 ∣ w) (hw' : w ≤ 64) (hle : pos ≤ nbits) (hlt : nbits < 2 ^ 32)
    (hwhole : 2 ^ 31 ≤ wholeBits w pos nbits) :
    ¬ Rewrites L (fun _ => 0) (L.setBits true (fun _ => 0) pos nbits) pos nbits fun _ => true := by
  have hn : (nbits + 2 ^ 32 - pos) % 2 ^ 32 = nbits - pos := by omega
  have hdiv := Nat.div_add_mod' pos w
  have hmod := L.mod_lt pos
  have hj : pos / w ≤ pos := Nat.div_le_self pos w
  have hend : ∀ {j n : Nat}, nbits = j * w + n → nbits ≤ (j + n / w + 1) * w := by
    intro j n h
    have := Nat.div_add_mod' n w
    have := L.mod_lt n
    rw [Nat.succ_mul, Nat.add_mul]
    omega
  rw [Layout.setBits, hn]
  rw [wholeBits] at hwhole
  dsimp only at hwhole ⊢
  split
  · rename_i hne
    rw [if_neg hne] at hwhole
    have hneed : (if nbits ≤ w then nbits - pos else min (w - pos % w) (nbits - pos)) =
        min (w - pos % w) (nbits - pos) := by
      have := Nat.mod_le pos w
      split <;> omega
    have hpos : 0 < nbits - pos - min (w - pos % w) (nbits - pos) := by
      by_contra hzero
      rw [Nat.eq_zero_of_not_pos hzero, Nat.zero_div, Nat.zero_mul] at hwhole
      omega
    rw [hneed, if_neg (by omega), L.word_succ]
    refine not_rewrites_of_beyond (hend ?_)
      (fillWords_overrun hw hw' hwhole (by omega) (by omega))
    rw [Nat.succ_mul]
    omega
  · rename_i hzero
    rw [if_pos (not_not.mp hzero)] at hwhole
    exact not_rewrites_of_beyond (hend (by omega))
      (fillWords_overrun hw hw' hwhole (by omega) (by omega))

end

end Xdp2
