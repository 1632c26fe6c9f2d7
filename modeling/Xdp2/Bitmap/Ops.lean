import Xdp2.Bitmap.Layout

/-!
# Operations on bitmaps

`bitmap_helpers.h`: `__XDP2_BITMAP_1ARG` where it sets or clears bits, `__XDP2_BITMAP_2ARG` and
`__XDP2_BITMAP_3ARG`, on the bits from `pos` up to `nbits`: a part of the first word, whole words, a
part of the last, with a test of what is written. `OpArgs` are the operators the macros are given;
`BitmapOp` has the names of the functions.
-/

namespace Xdp2

open BitWord

/-! ## Operators -/

/-- `OP`. -/
inductive WordOp where
  | and
  | or
  | xor

/-- The operator on words. -/
def WordOp.words (x y : BitVec w) : WordOp → BitVec w
  | and => x &&& y
  | or => x ||| y
  | xor => x ^^^ y

/-- `OP`, `NOT`, `S1_OP` and `S2_OP`. -/
structure OpArgs where
  op : WordOp
  not : Bool
  s1_op : Bool
  s2_op : Bool

/-- `__XDP2_BITMAP_VALUE2`. -/
def OpArgs.value2 (a : OpArgs) (x y : BitVec w) : BitVec w :=
  tilde a.not (a.op.words (tilde a.s1_op x) (tilde a.s2_op y))

/-- The operations with two sources. -/
inductive BitmapOp where
  | and
  | or
  | xor
  | nand
  | nor
  | nxor
  | and_not
  | or_not
  | xor_not
  | nand_not
  | nor_not
  | nxor_not

/-- What `bitmap.h` passes to the macros. -/
def BitmapOp.args : BitmapOp → OpArgs
  | and => ⟨.and, false, false, false⟩
  | or => ⟨.or, false, false, false⟩
  | xor => ⟨.xor, false, false, false⟩
  | nand => ⟨.and, true, false, false⟩
  | nor => ⟨.or, true, false, false⟩
  | nxor => ⟨.xor, true, false, false⟩
  | and_not => ⟨.and, false, false, true⟩
  | or_not => ⟨.or, false, false, true⟩
  | xor_not => ⟨.xor, false, false, true⟩
  | nand_not => ⟨.and, true, false, true⟩
  | nor_not => ⟨.or, true, false, true⟩
  | nxor_not => ⟨.xor, true, false, true⟩

/-- The operations with one source: `copy`, `not`, and those whose destination is the second
source. -/
inductive BitmapOp2 where
  | copy
  | not
  | destsrc (op : BitmapOp)

/-- `__XDP2_BITMAP_VALUE`. -/
def BitmapOp2.value (src dest : BitVec w) : BitmapOp2 → BitVec w
  | copy => tilde false src
  | not => tilde true src
  | destsrc op => op.args.value2 src dest

/-! ## Tests -/

/-- `XDP2_BITMAP_TEST_NONE` and so on. -/
inductive BitmapTest where
  | none
  | weight
  | any_set
  | any_zero

/-- `__XDP2_BITMAP_HANDLE_TEST`. -/
def BitmapTest.handle (ret : Nat) (v mask : BitVec w) : BitmapTest → Nat
  | none => ret
  | weight => ret + BitWord.weight v
  | any_set => if v ≠ 0 then 1 else ret
  | any_zero => if ~~~v &&& mask ≠ 0 then 1 else ret

/-! ## Operands -/

/-- A source: another array, the destination itself, or one word for all words. -/
inductive Operand (w : Nat) where
  | array (src : Words w)
  | dest
  | word (v : BitVec w)

/-- The source at an offset, in the current state of the destination. -/
def Operand.read (d : Words w) (p : Int) : Operand w → BitVec w
  | array src => src p
  | dest => d p
  | word v => v

namespace Layout

/-! ## The loops -/

/-- The part of the word at `p` from `mod` on, `need` bits of it, is replaced by `v`. -/
def writeFirst (L : Layout w) (test : BitmapTest) (p : Int) (mod need : Nat) (v : BitVec w)
    (dest : Words w) : Words w × Nat :=
  let mask := L.conv (Bitmap.mask mod need)
  let res := v &&& mask
  (Function.update dest p (res ||| (dest p &&& ~~~mask)), test.handle 0 res mask)

/-- The leftover bits of the word `i` from `p` on are replaced. -/
def writeLeftover (L : Layout w) (test : BitmapTest) (p : Int) (nbits i : Nat) (v : BitVec w)
    (dest : Words w) (ret : Nat) : Words w × Nat :=
  if nbits % w = 0 then (dest, ret)
  else
    let mask := L.conv (Bitmap.lowMask (nbits % w))
    let res := v &&& mask
    (Function.update dest (p + L.dir * i) (res ||| (dest (p + L.dir * i) &&& ~~~mask)),
      test.handle ret res mask)

/-- The loop over whole words, `count` of them from the word `i` from `p` on, and the leftover.
`next` gives the value for a word, in a state that the loop carries along. -/
def writeWords {σ : Type} (L : Layout w) (test : BitmapTest) (p : Int) (nbits : Nat)
    (next : σ → Nat → Words w → BitVec w × σ) :
    (count i : Nat) → σ → Words w → Nat → Words w × Nat
  | 0, i, s, dest, ret => L.writeLeftover test p nbits i (next s i dest).1 dest ret
  | count + 1, i, s, dest, ret =>
    let r := next s i dest
    L.writeWords test p nbits next count (i + 1) r.2 (Function.update dest (p + L.dir * i) r.1)
      (test.handle ret r.1 (.allOnes w))

/-- The operations whose arguments share a position; `value` gives the value for the word at an
offset. -/
def writeBits (L : Layout w) (test : BitmapTest) (value : Words w → Int → BitVec w)
    (dest : Words w) (pos nbits : Nat) : Words w × Nat :=
  let mod := pos % w
  let n := (nbits + 2 ^ 32 - pos) % 2 ^ 32
  let p := L.word (pos / w)
  let next (p : Int) (_ : Unit) (i : Nat) (dest : Words w) : BitVec w × Unit :=
    (value dest (p + L.dir * i), ())
  if mod ≠ 0 then
    let need := min (w - mod) n
    let r := L.writeFirst test p mod need (value dest p) dest
    if n - need = 0 then r
    else L.writeWords test (p + L.dir) (n - need) (next (p + L.dir)) ((n - need) / w) 0 () r.1 r.2
  else L.writeWords test p n (next p) (n / w) 0 () dest 0

/-- `__XDP2_BITMAP_2ARG`: `xdp2_bitmap_copy`, `xdp2_bitmap_not`, `xdp2_bitmap_destsrc_and` and so
on, with and without a test. -/
def bitmap2Arg (L : Layout w) (op : BitmapOp2) (test : BitmapTest) (dest : Words w)
    (src : Operand w) (pos nbits : Nat) : Words w × Nat :=
  L.writeBits test (fun dest p => op.value (src.read dest p) (dest p)) dest pos nbits

/-- `__XDP2_BITMAP_3ARG`: `xdp2_bitmap_and` and so on, with and without a test. -/
def bitmap3Arg (L : Layout w) (op : BitmapOp) (test : BitmapTest) (dest : Words w)
    (src1 src2 : Operand w) (pos nbits : Nat) : Words w × Nat :=
  L.writeBits test (fun dest p => op.args.value2 (src1.read dest p) (src2.read dest p)) dest pos
    nbits

/-! ## Setting and clearing -/

/-- `XDP2_BITS_TO_BYTES(_i * NUM_WORD_BITS)` as a `size_t`: the product is one of `int` values. -/
def fillSize (w i : Nat) : Nat := (((i * w : Int).bmod (2 ^ 32)).tdiv 8 % 2 ^ 64).toNat

/-- `memset` with bytes of zeroes or ones, over words. -/
def memset (dest : Words w) (p : Int) (ones : Bool) (size : Nat) : Words w := fun q =>
  if p ≤ q ∧ q < p + (8 * size / w : Nat) then tilde ones 0 else dest q

/-- Bits of a word set or cleared. -/
def fill (ones : Bool) (mask v : BitVec w) : BitVec w := if ones then v ||| mask else v &&& ~~~mask

/-- Whole words from `p` on and the leftover set or cleared. -/
def fillWords (L : Layout w) (ones : Bool) (p : Int) (nbits : Nat) (dest : Words w) : Words w :=
  let i := nbits / w
  let dir2 : Int := if L.num_words ≠ 0 then 1 else 0
  let dest := memset dest (p - dir2 * (i - 1)) ones (fillSize w i)
  if nbits % w = 0 then dest
  else
    let mask := L.conv (Bitmap.lowMask (nbits % w))
    Function.update dest (p + L.dir * i) (fill ones mask (dest (p + L.dir * i)))

/-- `xdp2_bitmap_set_ones` and `xdp2_bitmap_set_zeroes`: `__XDP2_BITMAP_1ARG` with `DO_SET` or
`DO_UNSET`. -/
def setBits (L : Layout w) (ones : Bool) (dest : Words w) (pos nbits : Nat) : Words w :=
  let mod := pos % w
  let n := (nbits + 2 ^ 32 - pos) % 2 ^ 32
  let p := L.word (pos / w)
  if mod ≠ 0 then
    let need := if nbits ≤ w then n else min (w - mod) n
    let mask := L.conv (Bitmap.mask mod need)
    let dest := Function.update dest p (fill ones mask (dest p))
    if n - need = 0 then dest else L.fillWords ones (p + L.dir) (n - need) dest
  else L.fillWords ones p n dest

end Layout

end Xdp2
