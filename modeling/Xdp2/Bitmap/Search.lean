import Xdp2.Bitmap.Layout

/-!
# Searches in bitmaps of every layout

The functions of `__XDP2_BITMAP_1ARG_FIND_FUNCT`: searches for a set or zero bit from a position or
after it, with roll over, and loops over all matches. In any layout they are the search over the
words in the order of their bits (`search_eq`).
-/

namespace Xdp2

open BitWord

namespace Layout

/-! ## The search -/

/-- The leftover bits of the word `i` from `src` on. For zero bits a word is complemented first
(`OP`). -/
def searchLeftover (L : Layout w) (zero : Bool) (map : Words w) (src : Int) (nbits total i : Nat) :
    Option Nat :=
  if nbits % w = 0 then none
  else
    let mask := L.conv (Bitmap.lowMask (nbits % w))
    let res := tilde zero (map (src + L.dir * i)) &&& mask
    if L.conv res ≠ 0 then some (BitWord.find (L.conv res) + (total - nbits % w)) else none

/-- The loop over whole words, `count` of them from the word `i` on; `start` is the position of the
first bit at `src`. -/
def searchWords (L : Layout w) (zero : Bool) (map : Words w) (src : Int) (nbits total start : Nat) :
    (count i : Nat) → Option Nat
  | 0, i => L.searchLeftover zero map src nbits total i
  | count + 1, i =>
    let res := tilde zero (map (src + L.dir * i))
    if L.conv res ≠ 0 then some (BitWord.find (L.conv res) + (start + i * w))
    else L.searchWords zero map src nbits total start count (i + 1)

/-- `__XDP2_BITMAP_1ARG` in its compare mode; nothing where the result is left as it is. -/
def search (L : Layout w) (zero : Bool) (map : Words w) (pos total : Nat) : Option Nat :=
  let mod := pos % w
  let nbits := (total + 2 ^ 32 - pos) % 2 ^ 32
  let src := L.word (pos / w)
  if mod ≠ 0 then
    let need := if total ≤ w then nbits else min (w - mod) nbits
    let mask := L.conv (Bitmap.mask mod need)
    let res := tilde zero (map src) &&& mask
    if L.conv res ≠ 0 then some (BitWord.find (L.conv res) + (pos - mod))
    else if nbits - need = 0 then none
    else L.searchWords zero map (src + L.dir) (nbits - need) total (pos + need)
      ((nbits - need) / w) 0
  else L.searchWords zero map src nbits total pos (nbits / w) 0

/-- `__XDP2_BITMAP_1ARG_FIND_FUNCT`: `pos_add` is one for the search after a position. -/
def findFunct (L : Layout w) (zero : Bool) (pos_add : Nat) (roll : Bool) (map : Words w)
    (pos nbits : Nat) : Nat :=
  let r := (L.search zero map ((pos + pos_add) % 2 ^ 32) nbits).getD nbits
  if roll && decide (nbits ≤ r) then
    -- only the functions of bitmaps that are not reverse set the result to `nbits` again
    (L.search zero map 0 nbits).getD (if L.num_words ≠ 0 then r else nbits)
  else r

/-- `xdp2_bitmap_find` and `xdp2_bitmap_find_zero`. -/
def find (L : Layout w) (zero : Bool) (map : Words w) (pos nbits : Nat) : Nat :=
  L.findFunct zero 0 false map pos nbits

/-- `xdp2_bitmap_find_next` and `xdp2_bitmap_find_next_zero`. -/
def findNext (L : Layout w) (zero : Bool) (map : Words w) (pos nbits : Nat) : Nat :=
  L.findFunct zero 1 false map pos nbits

/-- `xdp2_bitmap_find_roll` and `xdp2_bitmap_find_roll_zero`. -/
def findRoll (L : Layout w) (zero : Bool) (map : Words w) (pos nbits : Nat) : Nat :=
  L.findFunct zero 0 true map pos nbits

/-- `xdp2_bitmap_find_roll_next` and `xdp2_bitmap_find_roll_next_zero`. -/
def findRollNext (L : Layout w) (zero : Bool) (map : Words w) (pos nbits : Nat) : Nat :=
  L.findFunct zero 1 true map pos nbits

/-- The turns of `__XDP2_MAKE_FOREACH` once `pos` has been found. -/
def foreachTurns (L : Layout w) (zero : Bool) (map : Words w) (nbits : Nat) :
    (turns pos : Nat) → List Nat
  | 0, _ => []
  | turns + 1, pos =>
    if pos < nbits then
      pos :: L.foreachTurns zero map nbits turns (L.findNext zero map pos nbits)
    else []

/-- `xdp2_bitmap_foreach_bit` and `xdp2_bitmap_foreach_zero_bit`: the positions that are visited. The
position grows on every turn, so that there are no more than `nbits`. -/
def foreach (L : Layout w) (zero : Bool) (map : Words w) (pos nbits : Nat) : List Nat :=
  L.foreachTurns zero map nbits (nbits + 1) (L.find zero map pos nbits)

/-! ## The words in order -/

/-- The bits that a search looks for, in the words in their order. -/
def wanted (L : Layout w) (zero : Bool) (map : Words w) : Bitmap w :=
  fun j => L.conv (tilde zero (map (L.word j)))

section
variable (L : Layout w) (zero : Bool) (map : Words w)

theorem wanted_isset (i : Nat) : (L.wanted zero map).isset i = (L.isset map i != zero) := by
  have hmod := L.mod_lt i
  rw [isset_view, Bitmap.isset, wanted, conv, L.order.getLsbD_conv hmod,
    getLsbD_tilde zero _ (L.order.perm_lt hmod), ← L.order.getLsbD_conv hmod, Bool.bne_eq_xor]
  rfl

theorem conv_masked (v mask : BitVec w) : L.conv (v &&& L.conv mask) = L.conv v &&& mask := by
  rw [conv_and, conv_conv]

theorem searchLeftover_eq : (L.searchLeftover zero map (L.word j) nbits total i).getD total =
    (L.wanted zero map).findLeftover (j + i) nbits total := by
  rw [searchLeftover, Bitmap.findLeftover]
  split
  · rfl
  · dsimp only
    rw [conv_masked, word_add_dir, wanted]
    split <;> rfl

theorem searchWords_eq : ∀ {count i : Nat},
    (L.searchWords zero map (L.word j) nbits total start count i).getD total =
      (L.wanted zero map).findWords nbits total count (j + i) (start + i * w) := by
  intro count
  induction count with
  | zero =>
    intro i
    exact L.searchLeftover_eq zero map
  | succ count ih =>
    intro i
    have hword : L.conv (tilde zero (map (L.word (j + i)))) = L.wanted zero map (j + i) := rfl
    rw [searchWords, Bitmap.findWords, word_add_dir, hword]
    split
    · rfl
    · rw [ih, Nat.add_assoc, Nat.succ_mul, Nat.add_assoc]

theorem search_eq (pos total : Nat) :
    (L.search zero map pos total).getD total = (L.wanted zero map).findFrom pos total := by
  have hword : L.conv (tilde zero (map (L.word (pos / w)))) = L.wanted zero map (pos / w) := rfl
  rw [search, Bitmap.findFrom]
  dsimp only
  generalize (if total ≤ w then (total + 2 ^ 32 - pos) % 2 ^ 32
    else min (w - pos % w) ((total + 2 ^ 32 - pos) % 2 ^ 32)) = need
  rw [conv_masked, hword]
  split
  · split
    · rfl
    · split
      · rfl
      · rw [word_succ, searchWords_eq]
        simp only [Nat.zero_mul, Nat.add_zero]
  · rw [searchWords_eq]
    simp only [Nat.zero_mul, Nat.add_zero]

/-! ## What is found -/

/-- The matching bits of a bitmap. -/
def matching (L : Layout w) (zero : Bool) (map : Words w) (i : Nat) : Bool :=
  L.isset map i != zero

theorem search_finds (hle : pos ≤ total) (hlt : total < 2 ^ 32) :
    Finds (L.matching zero map) pos total ((L.search zero map pos total).getD total) := by
  have hfinds : Finds (L.wanted zero map).isset pos total _ :=
    Bitmap.findFrom_finds L.word_pos hle hlt
  rw [← search_eq] at hfinds
  rwa [show L.matching zero map = (L.wanted zero map).isset from
    funext fun i => (L.wanted_isset zero map i).symm]

theorem find_finds (hle : pos ≤ nbits) (hlt : nbits < 2 ^ 32) :
    Finds (L.matching zero map) pos nbits (L.find zero map pos nbits) := by
  rw [find, findFunct, Nat.add_zero, Nat.mod_eq_of_lt (by omega)]
  exact L.search_finds zero map hle hlt

theorem findNext_finds (hle : pos + 1 ≤ nbits) (hlt : nbits < 2 ^ 32) :
    Finds (L.matching zero map) (pos + 1) nbits (L.findNext zero map pos nbits) := by
  rw [findNext, findFunct, Nat.mod_eq_of_lt (by omega)]
  exact L.search_finds zero map hle hlt

end

end Layout

/-- `r` is the first match from `pos` on or, where there is none, from the start on. -/
structure Rolls (bit : Nat → Bool) (pos total r : Nat) : Prop where
  ahead : (∃ i, pos ≤ i ∧ i < total ∧ bit i = true) → Finds bit pos total r
  around : (∀ i, pos ≤ i → i < total → bit i = false) → Finds bit 0 total r

namespace Layout

section
variable (L : Layout w) (zero : Bool) (map : Words w)

theorem findFunct_rolls (pos_add : Nat) (hle : pos + pos_add ≤ nbits) (hlt : nbits < 2 ^ 32) :
    Rolls (L.matching zero map) (pos + pos_add) nbits
      (L.findFunct zero pos_add true map pos nbits) := by
  have hahead := L.search_finds zero map hle hlt
  have hstart := L.search_finds zero map (Nat.zero_le nbits) hlt
  rw [findFunct, Nat.mod_eq_of_lt (by omega)]
  generalize (L.search zero map (pos + pos_add) nbits).getD nbits = r at hahead ⊢
  rcases Nat.lt_or_ge r nbits with hr | hr
  · rw [decide_eq_false (by omega)]
    refine ⟨fun _ => hahead, fun hnone => ?_⟩
    have hhit := hahead.hit hr
    rw [hnone r hahead.ge hr] at hhit
    cases hhit
  · have hend : r = nbits := Nat.le_antisymm hahead.le hr
    subst hend
    rw [decide_eq_true le_rfl, ite_self]
    refine ⟨fun ⟨i, hi, hir, hbit⟩ => ?_, fun _ => hstart⟩
    rw [hahead.clear i hi hir] at hbit
    cases hbit

end

/-! ## The loops -/

theorem filter_of_finds {bit : Nat → Bool} {pos total r : Nat} (h : Finds bit pos total r) :
    (List.range' pos (total - pos)).filter bit = (List.range' r (total - r)).filter bit := by
  have hsplit : List.range' pos (total - pos) =
      List.range' pos (r - pos) ++ List.range' r (total - r) := by
    have hge := h.ge
    have hle := h.le
    rw [show total - pos = (r - pos) + (total - r) by omega, List.range'_append_1.symm,
      show pos + (r - pos) = r by omega]
  have hclear : (List.range' pos (r - pos)).filter bit = [] := by
    rw [List.filter_eq_nil_iff]
    intro i hi
    rw [List.mem_range'_1] at hi
    rw [h.clear i hi.1 (by omega)]
    exact Bool.false_ne_true
  rw [hsplit, List.filter_append, hclear, List.nil_append]

section
variable (L : Layout w) (zero : Bool) (map : Words w)

theorem foreachTurns_eq (hlt : nbits < 2 ^ 32) : ∀ {turns pos : Nat}, nbits - pos < turns →
    (pos < nbits → L.matching zero map pos = true) →
    L.foreachTurns zero map nbits turns pos =
      (List.range' pos (nbits - pos)).filter (L.matching zero map) := by
  intro turns
  induction turns with
  | zero =>
    intro pos hturns
    exact absurd hturns (Nat.not_lt_zero _)
  | succ turns ih =>
    intro pos hturns hmatch
    rw [foreachTurns]
    split
    · rename_i hpos
      have hnext := L.findNext_finds zero map hpos hlt
      have hge := hnext.ge
      rw [ih (by omega) hnext.hit, ← filter_of_finds hnext,
        show nbits - pos = (nbits - (pos + 1)) + 1 by omega, List.range'_succ,
        List.filter_cons_of_pos (hmatch hpos)]
    · rename_i hpos
      rw [show nbits - pos = 0 by omega]
      rfl

theorem foreach_eq (hle : pos ≤ nbits) (hlt : nbits < 2 ^ 32) :
    L.foreach zero map pos nbits =
      (List.range' pos (nbits - pos)).filter (L.matching zero map) := by
  have hfind := L.find_finds zero map hle hlt
  rw [foreach, L.foreachTurns_eq zero map hlt (by omega) hfind.hit, filter_of_finds hfind]

end

end Layout

/-- **The searches find the first matching bit, and the loops visit the matching bits.** For every
layout, for set bits and for zero bits, from every position up to the number of bits. -/
theorem bitmap_searches (L : Layout w) (zero : Bool) (map : Words w) {pos nbits : Nat}
    (hlt : nbits < 2 ^ 32) :
    (pos ≤ nbits →
      Finds (L.matching zero map) pos nbits (L.find zero map pos nbits) ∧
      Rolls (L.matching zero map) pos nbits (L.findRoll zero map pos nbits) ∧
      L.foreach zero map pos nbits =
        (List.range' pos (nbits - pos)).filter (L.matching zero map)) ∧
    (pos + 1 ≤ nbits →
      Finds (L.matching zero map) (pos + 1) nbits (L.findNext zero map pos nbits) ∧
      Rolls (L.matching zero map) (pos + 1) nbits (L.findRollNext zero map pos nbits)) :=
  ⟨fun hle => ⟨L.find_finds zero map hle hlt, L.findFunct_rolls zero map 0 hle hlt,
      L.foreach_eq zero map hle hlt⟩,
    fun hle => ⟨L.findNext_finds zero map hle hlt, L.findFunct_rolls zero map 1 hle hlt⟩⟩

/-- A reverse bitmap of two swapped words. -/
theorem bitmap_searches_swapped :
    let L : Layout 16 := ⟨.swapped 2, 2, by decide⟩
    let map : Words 16 := fun p => if p = 0 then 0x0200 else 0x0080
    Finds (L.matching false map) 3 32 (L.find false map 3 32) ∧ L.find false map 3 32 = 15 ∧
      L.foreach false map 3 32 = [15, 17] := by
  refine ⟨((bitmap_searches _ _ _ (by decide)).1 (by decide)).1, by decide +kernel, ?_⟩
  decide +kernel

end Xdp2
