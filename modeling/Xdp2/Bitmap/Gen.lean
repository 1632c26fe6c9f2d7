import Xdp2.Bitmap.OpsSpec

/-!
# Operations on bitmaps at different positions

`__XDP2_BITMAP_2ARG_GEN` and `__XDP2_BITMAP_3ARG_GEN`: the destination and each source have a
position of their own. After a first, partial word (`handleDestMod`) a source has a fixed offset,
and each turn of the loop puts the carried upper part of one of its words and the lower part of the
next together (`nextWord`).
-/

namespace Xdp2

open BitWord

/-- A source at a position of its own: an array apart from the destination, or one word that is
repeated. -/
inductive Source (w : Nat) where
  | array (src : Words w)
  | word (v : BitVec w)

namespace Source

/-- The source at an offset. -/
def read (p : Int) : Source w → BitVec w
  | array src => src p
  | word v => v

/-- `_dir_src`. -/
def dir (L : Layout w) : Source w → Int
  | array _ => L.dir
  | word _ => 0

/-- The offset of the word with a position. -/
def start (L : Layout w) (pos : Nat) : Source w → Int
  | array _ => L.word (pos / w)
  | word _ => 0

/-- A bit of a source. -/
def bit (L : Layout w) (i : Nat) : Source w → Bool
  | array src => L.isset src i
  | word v => (L.conv v).getLsbD (i % w)

end Source

/-- Where the next bits of a source come from: `_src` and `_src_mod`. -/
structure SrcPos where
  p : Int
  mod : Nat

/-- The offset of a source from the destination, once that is at the start of a word:
`_mask_left_src`, `_left_shift` and `_src`. -/
structure SrcShift (w : Nat) where
  mask_left : BitVec w
  left_shift : Nat
  p : Int

namespace Layout

/-- `__XDP2_BITMAP_HANDLE_DEST_MOD`: the value for the first word, and the source after it. -/
def handleDestMod (L : Layout w) (src : Source w) (need dest_mod : Nat) (s : SrcPos) :
    BitVec w × SrcPos :=
  if dest_mod = s.mod then (src.read s.p, ⟨s.p + src.dir L, 0⟩)
  else if s.mod < dest_mod then
    (L.conv (L.conv (src.read s.p) <<< (dest_mod - s.mod)), ⟨s.p, s.mod + need⟩)
  else
    let need_left := min (w - s.mod) need
    (L.conv (L.conv (src.read s.p) >>> (s.mod - dest_mod)) |||
        L.conv (L.conv (src.read (s.p + src.dir L)) <<< (dest_mod + need_left)),
      ⟨s.p + src.dir L, need - need_left⟩)

/-- The offset of a source, and the upper part of its first word; `nbits` bits are left. -/
def startShift (L : Layout w) (src : Source w) (nbits : Nat) (s : SrcPos) :
    SrcShift w × BitVec w :=
  if s.mod ≠ 0 then
    let mask_left := L.conv (BitVec.allOnes w <<< s.mod)
    -- the next word is needed only if the rest of this one is used up
    (⟨mask_left, s.mod, if w < (nbits + s.mod) % 2 ^ 32 then s.p + src.dir L else s.p⟩,
      L.conv (L.conv (src.read s.p &&& mask_left) >>> s.mod))
  else (⟨0, 0, s.p⟩, src.read s.p)

/-- A turn of the loop: the value for the word `i`, and the upper part of the next word of the
source. -/
def nextWord (L : Layout w) (src : Source w) (sh : SrcShift w) (left : BitVec w) (i : Nat) :
    BitVec w × BitVec w :=
  let v := src.read (sh.p + src.dir L * i)
  let right_shift := w - sh.left_shift
  let right :=
    if right_shift < w then L.conv (L.conv (v &&& ~~~sh.mask_left) <<< right_shift) else v
  (left ||| right, L.conv (L.conv (v &&& sh.mask_left) >>> sh.left_shift))

/-- The whole words and the leftover of `__XDP2_BITMAP_2ARG_GEN`. -/
def genWords2 (L : Layout w) (op : BitmapOp2) (test : BitmapTest) (src : Source w) (p : Int)
    (nbits : Nat) (s : SrcPos) (dest : Words w) (ret : Nat) : Words w × Nat :=
  let sh := L.startShift src nbits s
  L.writeWords test p nbits
    (fun left i dest =>
      let r := L.nextWord src sh.1 left i
      (op.value r.1 (dest (p + L.dir * i)), r.2))
    (nbits / w) 0 sh.2 dest ret

/-- `__XDP2_BITMAP_2ARG_GEN`: `xdp2_bitmap_copy_gen` and so on, with and without a test. -/
def bitmap2ArgGen (L : Layout w) (op : BitmapOp2) (test : BitmapTest) (dest : Words w)
    (dest_pos : Nat) (src : Source w) (src_pos nbits : Nat) : Words w × Nat :=
  let n := (nbits + 2 ^ 32 - dest_pos) % 2 ^ 32
  let mod := dest_pos % w
  let p := L.word (dest_pos / w)
  let s : SrcPos := ⟨src.start L src_pos, src_pos % w⟩
  if mod ≠ 0 then
    let need := min (w - mod) n
    let h := L.handleDestMod src need mod s
    let r := L.writeFirst test p mod need (op.value h.1 (dest p)) dest
    if n - need = 0 then r
    else L.genWords2 op test src (p + L.dir) (n - need) h.2 r.1 r.2
  else L.genWords2 op test src p n s dest 0

/-- The whole words and the leftover of `__XDP2_BITMAP_3ARG_GEN`. -/
def genWords3 (L : Layout w) (op : BitmapOp) (test : BitmapTest) (src1 src2 : Source w) (p : Int)
    (nbits : Nat) (s1 s2 : SrcPos) (dest : Words w) (ret : Nat) : Words w × Nat :=
  let sh1 := L.startShift src1 nbits s1
  let sh2 := L.startShift src2 nbits s2
  L.writeWords test p nbits
    (fun left i _ =>
      let r1 := L.nextWord src1 sh1.1 left.1 i
      let r2 := L.nextWord src2 sh2.1 left.2 i
      (op.args.value2 r1.1 r2.1, (r1.2, r2.2)))
    (nbits / w) 0 (sh1.2, sh2.2) dest ret

/-- `__XDP2_BITMAP_3ARG_GEN`: `xdp2_bitmap_and_gen` and so on, with and without a test. -/
def bitmap3ArgGen (L : Layout w) (op : BitmapOp) (test : BitmapTest) (dest : Words w)
    (dest_pos : Nat) (src1 : Source w) (src1_pos : Nat) (src2 : Words w) (src2_pos nbits : Nat) :
    Words w × Nat :=
  let src2 : Source w := .array src2
  let n := (nbits + 2 ^ 32 - dest_pos) % 2 ^ 32
  let mod := dest_pos % w
  let p := L.word (dest_pos / w)
  let s1 : SrcPos := ⟨src1.start L src1_pos, src1_pos % w⟩
  let s2 : SrcPos := ⟨src2.start L src2_pos, src2_pos % w⟩
  if mod ≠ 0 then
    let need := min (w - mod) n
    let h1 := L.handleDestMod src1 need mod s1
    let h2 := L.handleDestMod src2 need mod s2
    let r := L.writeFirst test p mod need (op.args.value2 h1.1 h2.1) dest
    if n - need = 0 then r
    else L.genWords3 op test src1 src2 (p + L.dir) (n - need) h1.2 h2.2 r.1 r.2
  else L.genWords3 op test src1 src2 p n s1 s2 dest 0

end Layout

end Xdp2
