import Xdp2.Lib.BitWord

/-!
# Searches in bitmaps

`xdp2_bitmap_find` and its siblings (`__XDP2_BITMAP_1ARG`), over the words of a bitmap as host
integers in the order of the search. `Finds` is what a search is for, `bitmapFind_finds` that it
does it.
-/

namespace Xdp2

open BitWord

/-- The words of a bitmap. -/
abbrev Bitmap (w : Nat) := Nat → BitVec w

namespace Bitmap

/-- `xdp2_bitmap_isset`. -/
def isset (map : Bitmap w) (index : Nat) : Bool := (map (index / w)).getLsbD (index % w)

/-- `xdp2_bitmap_set`. -/
def set (map : Bitmap w) (index : Nat) : Bitmap w :=
  Function.update map (index / w) (map (index / w) ||| bit (index % w))

/-- `xdp2_bitmap_unset`. -/
def unset (map : Bitmap w) (index : Nat) : Bitmap w :=
  Function.update map (index / w) (map (index / w) &&& ~~~bit (index % w))

/-- `__XDP2_BITMAP_LOW_MASK`. -/
def lowMask (start : Nat) : BitVec w := BitVec.allOnes w >>> (w - start)

/-- `__XDP2_BITMAP_MASK`, of `nbits` bits from `start` on. -/
def mask (start nbits : Nat) : BitVec w := (BitVec.allOnes w <<< start) &&& lowMask (start + nbits)

/-- The end of the search: the `nbits % w` bits of the word `i`, the last ones before `total`. -/
def findLeftover (map : Bitmap w) (i nbits total : Nat) : Nat :=
  if nbits % w = 0 then total
  else
    let res := map i &&& lowMask (nbits % w)
    if res ≠ 0 then find res + (total - nbits % w) else total

/-- The loop over whole words: `count` of them from the word `i` on, whose first bit is at `pos`. -/
def findWords (map : Bitmap w) (nbits total : Nat) : (count i pos : Nat) → Nat
  | 0, i, _ => findLeftover map i nbits total
  | count + 1, i, pos =>
    if map i ≠ 0 then find (map i) + pos else findWords map nbits total count (i + 1) (pos + w)

/-- `__XDP2_BITMAP_1ARG` as a search from `pos` on, for a bitmap of `total` bits. -/
def findFrom (map : Bitmap w) (pos total : Nat) : Nat :=
  let nbits := (total + 2 ^ 32 - pos) % 2 ^ 32
  if pos % w ≠ 0 then
    let need := if total ≤ w then nbits else min (w - pos % w) nbits
    let res := map (pos / w) &&& mask (pos % w) need
    if res ≠ 0 then find res + (pos - pos % w)
    else if nbits - need = 0 then total
    else findWords map (nbits - need) total ((nbits - need) / w) (pos / w + 1) (pos + need)
  else findWords map nbits total (nbits / w) (pos / w) pos

end Bitmap

/-- `xdp2_bitmap_find`. -/
def bitmapFind (map : Bitmap w) (pos nbits : Nat) : Nat := map.findFrom pos nbits

/-- `xdp2_bitmap_find_next`. -/
def bitmapFindNext (map : Bitmap w) (pos nbits : Nat) : Nat := map.findFrom ((pos + 1) % 2 ^ 32) nbits

/-! ## Single bits -/

namespace Bitmap

variable (map : Bitmap w) {i : Nat}

theorem mod_ne (h : i ≠ j) (hdiv : i / w = j / w) : i % w ≠ j % w := by
  intro hmod
  apply h
  rw [← Nat.div_add_mod i w, ← Nat.div_add_mod j w, hdiv, hmod]

@[simp] theorem isset_set (hw : 0 < w) : (map.set i).isset j = (map.isset j || decide (j = i)) := by
  rw [isset, set, isset]
  rcases eq_or_ne (j / w) (i / w) with hdiv | hdiv
  · rw [hdiv, Function.update_self, BitVec.getLsbD_or, getLsbD_bit]
    rcases eq_or_ne j i with rfl | hne
    · simp [Nat.mod_lt _ hw]
    · have hmod : j % w ≠ i % w := mod_ne hne hdiv
      simp [hmod, hne]
  · have hne : j ≠ i := by rintro rfl; exact hdiv rfl
    rw [Function.update_of_ne hdiv]
    simp [hne]

@[simp] theorem isset_unset (hw : 0 < w) :
    (map.unset i).isset j = (map.isset j && decide (j ≠ i)) := by
  rw [isset, unset, isset]
  rcases eq_or_ne (j / w) (i / w) with hdiv | hdiv
  · rw [hdiv, Function.update_self, BitVec.getLsbD_and, BitVec.getLsbD_not, getLsbD_bit]
    rcases eq_or_ne j i with rfl | hne
    · simp [Nat.mod_lt _ hw]
    · have hmod : j % w ≠ i % w := mod_ne hne hdiv
      simp [hmod, hne, Nat.mod_lt _ hw]
  · have hne : j ≠ i := by rintro rfl; exact hdiv rfl
    rw [Function.update_of_ne hdiv]
    simp [hne]

end Bitmap

/-! ## What a search finds -/

/-- `r` is the first position from `pos` on with its bit set, or `total` if there is none. -/
structure Finds (bit : Nat → Bool) (pos total r : Nat) : Prop where
  ge : pos ≤ r
  le : r ≤ total
  clear : ∀ i, pos ≤ i → i < r → bit i = false
  hit : r < total → bit r = true

section
variable {bit : Nat → Bool} {pos mid total r : Nat}

theorem Finds.none (hle : pos ≤ total) (h : ∀ i, pos ≤ i → i < total → bit i = false) :
    Finds bit pos total total where
  ge := hle
  le := le_rfl
  clear := h
  hit hlt := absurd hlt (lt_irrefl _)

theorem Finds.skip (hle : pos ≤ mid) (h : ∀ i, pos ≤ i → i < mid → bit i = false)
    (hf : Finds bit mid total r) : Finds bit pos total r where
  ge := hle.trans hf.ge
  le := hf.le
  clear i hi hr := by
    rcases Nat.lt_or_ge i mid with hlt | hge
    · exact h i hi hlt
    · exact hf.clear i hge hr
  hit := hf.hit

end

/-! ## The masks -/

namespace Bitmap

theorem getLsbD_lowMask (h : start ≤ w) :
    (lowMask start : BitVec w).getLsbD k = decide (k < start) := by
  rw [lowMask, BitVec.getLsbD_ushiftRight, BitVec.getLsbD_allOnes]
  exact decide_eq_decide.mpr (by omega)

theorem getLsbD_mask (h : start + nbits ≤ w) :
    (mask start nbits : BitVec w).getLsbD k = decide (start ≤ k ∧ k < start + nbits) := by
  rw [mask, BitVec.getLsbD_and, getLsbD_lowMask h, BitVec.getLsbD_shiftLeft,
    BitVec.getLsbD_allOnes]
  by_cases hk : k < start + nbits
  · by_cases hs : k < start
    · simp [hs]
    · simp [hs, hk, show k < w by omega, show k - start < w by omega, Nat.not_lt.mp hs]
  · simp [hk]

theorem isset_word (map : Bitmap w) (hk : k < w) :
    map.isset (i * w + k) = (map i).getLsbD k := by
  rw [isset, Nat.mul_comm, Nat.mul_add_div (by omega), Nat.mul_add_mod, Nat.div_eq_of_lt hk,
    Nat.mod_eq_of_lt hk, Nat.add_zero]

/-- What is found in the bits of one word, from `a` up to `b`, of which the search keeps those in
`res`. -/
theorem finds_word (map : Bitmap w) {i a b total : Nat} {res : BitVec w}
    (hres : ∀ k, res.getLsbD k = ((map i).getLsbD k && decide (a ≤ k ∧ k < b))) (htotal : i * w + b ≤ total)
    (hne : res ≠ 0) :
    Finds map.isset (i * w + a) total (find res + i * w) := by
  have hfind := find_cases res
  obtain ⟨hlt, hfirst⟩ := hfind.resolve_right fun hnone => hne (by
    apply BitVec.eq_of_getLsbD_eq
    intro k _
    rw [hnone.2 k]
    simp)
  have hset := hfirst.set
  rw [hres, Bool.and_eq_true, decide_eq_true_eq] at hset
  refine ⟨by omega, by omega, fun j hj hjr => ?_, fun _ => ?_⟩
  · obtain ⟨k, rfl⟩ : ∃ k, j = i * w + k := ⟨j - i * w, by omega⟩
    have hclear := hfirst.clear k (Nat.zero_le _) (by omega)
    rw [hres, decide_eq_true (by omega), Bool.and_true] at hclear
    rw [isset_word map (by omega), hclear]
  · rw [Nat.add_comm, isset_word map hlt, hset.1]

theorem clear_word (map : Bitmap w) {i a b j : Nat} {res : BitVec w}
    (hres : ∀ k, res.getLsbD k = ((map i).getLsbD k && decide (a ≤ k ∧ k < b))) (hb : b ≤ w)
    (hzero : res = 0) (ha : i * w + a ≤ j) (hj : j < i * w + b) : map.isset j = false := by
  obtain ⟨k, rfl⟩ : ∃ k, j = i * w + k := ⟨j - i * w, by omega⟩
  have hk := hres k
  rw [hzero, decide_eq_true (by omega), Bool.and_true] at hk
  rw [isset_word map (by omega), ← hk]
  simp

/-! ## The search -/

section
variable {map : Bitmap w} {i pos total : Nat}

theorem findLeftover_finds (hw : 0 < w) (htotal : total = i * w + nbits % w) :
    Finds map.isset (i * w) total (map.findLeftover i nbits total) := by
  have hmod := Nat.mod_lt nbits hw
  have hres : ∀ k, (map i &&& lowMask (nbits % w)).getLsbD k =
      ((map i).getLsbD k && decide (0 ≤ k ∧ k < nbits % w)) := by
    intro k
    rw [BitVec.getLsbD_and, getLsbD_lowMask (by omega)]
    simp
  rw [findLeftover]
  split
  · exact .none (by omega) fun j _ _ => by omega
  · dsimp only
    split
    · rename_i hne
      have hfinds := finds_word map hres (le_of_eq htotal.symm) hne
      rw [Nat.add_zero] at hfinds
      rwa [show total - nbits % w = i * w by omega]
    · rename_i hzero
      refine .none (by omega) fun j hj hjt => ?_
      exact clear_word map hres (by omega) (not_not.mp hzero) (by omega) (by omega)

theorem findWords_finds (hw : 0 < w) : ∀ {count i pos : Nat}, pos = i * w →
    total = pos + count * w + nbits % w →
    Finds map.isset pos total (map.findWords nbits total count i pos) := by
  intro count
  induction count with
  | zero =>
    intro i pos hpos htotal
    subst hpos
    exact findLeftover_finds hw (by omega)
  | succ count ih =>
    intro i pos hpos htotal
    have hres : ∀ k, (map i).getLsbD k = ((map i).getLsbD k && decide (0 ≤ k ∧ k < w)) := by
      intro k
      by_cases hk : k < w
      · simp [hk]
      · simp [BitVec.getLsbD_of_ge (map i) k (by omega)]
    rw [Nat.succ_mul] at htotal
    rw [findWords]
    split
    · rename_i hne
      subst hpos
      exact finds_word map hres (by omega) hne
    · rename_i hzero
      refine .skip (Nat.le_add_right pos w) (fun j hj hjt => ?_)
        (ih (by rw [hpos, Nat.succ_mul]) (by omega))
      exact clear_word map hres le_rfl (not_not.mp hzero) (by omega) (by omega)

theorem findFrom_finds (hw : 0 < w) (hle : pos ≤ total) (hlt : total < 2 ^ 32) :
    Finds map.isset pos total (map.findFrom pos total) := by
  have hn : (total + 2 ^ 32 - pos) % 2 ^ 32 = total - pos := by omega
  have hmod := Nat.mod_lt pos hw
  have hdiv : pos / w * w + pos % w = pos := Nat.div_add_mod' pos w
  rw [findFrom, hn]
  dsimp only
  split
  · generalize hneed : (if total ≤ w then total - pos else min (w - pos % w) (total - pos)) = need
    have hneed' : need ≤ total - pos ∧ pos % w + need ≤ w := by
      rw [← hneed]
      split
      · have := Nat.mod_le pos w
        omega
      · omega
    have hres : ∀ k, (map (pos / w) &&& mask (pos % w) need).getLsbD k =
        ((map (pos / w)).getLsbD k && decide (pos % w ≤ k ∧ k < pos % w + need)) := by
      intro k
      rw [BitVec.getLsbD_and, getLsbD_mask hneed'.2]
    split
    · rename_i hne
      have hfinds := finds_word map hres (show pos / w * w + (pos % w + need) ≤ total by omega) hne
      rwa [hdiv, show pos / w * w = pos - pos % w by omega] at hfinds
    · rename_i hzero
      have hclear : ∀ j, pos ≤ j → j < pos + need → map.isset j = false := fun j hj hjt =>
        clear_word map hres hneed'.2 (not_not.mp hzero) (by omega) (by omega)
      split
      · exact .none hle fun j hj hjt => hclear j hj (by omega)
      · rename_i hrest
        -- the search got to the end of the word
        have hend : pos % w + need = w := by split at hneed <;> omega
        refine .skip (Nat.le_add_right pos need) hclear (findWords_finds hw ?_ ?_)
        · rw [Nat.succ_mul]
          omega
        · have := Nat.div_add_mod' (total - pos - need) w
          omega
  · refine findWords_finds hw (by omega) ?_
    have := Nat.div_add_mod' (total - pos) w
    omega

end

end Bitmap

/-- **The search finds the first set bit** from `pos` on, or reports that there is none. -/
theorem bitmapFind_finds (map : Bitmap w) (hw : 0 < w) (hle : pos ≤ nbits) (hlt : nbits < 2 ^ 32) :
    Finds map.isset pos nbits (bitmapFind map pos nbits) :=
  Bitmap.findFrom_finds hw hle hlt

theorem bitmapFindNext_finds (map : Bitmap w) (hw : 0 < w) (hle : pos < nbits)
    (hlt : nbits < 2 ^ 32) : Finds map.isset (pos + 1) nbits (bitmapFindNext map pos nbits) := by
  rw [bitmapFindNext, Nat.mod_eq_of_lt (by omega)]
  exact Bitmap.findFrom_finds hw hle hlt

end Xdp2
