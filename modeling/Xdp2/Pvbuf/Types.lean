import Xdp2.Lib.BitWord

/-!
# Packet vectors

The data of `pvbuf.h`. A packet is a pvbuf: an array of iovecs with a bitmap of the slots in use. An
iovec holds a paddr, which names a range of bytes (in a pbuf, in one of three short address regions,
in one of sixty-four long ones, where it takes two slots) or another pvbuf; the leaves of the tree
are its contents.

A paddr is what its tag makes of its bits (`Iovec`), with bit-fields as bit vectors, reserved bits
left out. In place of the paddr of a pvbuf the object itself stands in the iovec (`Iovec.pvbuf`),
with the cached length, and carries its size and index along.
-/

namespace Xdp2

/-! ## paddrs -/

/-- `enum xdp2_paddr_short_addr_short_tag`. -/
inductive ShortTag where
  | one
  | two
  | three
  deriving DecidableEq, Repr

/-- The encoding of a pbuf: `offset` is relative to the base of the allocator for its size, which
`buffer_tag` gives. The tags `XDP2_PADDR_TAG_PBUF` and `XDP2_PADDR_TAG_PBUF_1REF` are told apart by
`one_ref`. -/
structure PbufAddr where
  one_ref : Bool := false
  buffer_tag : BitVec 4
  offset : BitVec 36
  data_length : BitVec 20
  deriving DecidableEq, Repr

/-- The encoding of a short address, whose length field is one less than the length. -/
structure ShortAddr where
  short_paddr_tag : ShortTag
  offset : BitVec 44
  data_length : BitVec 18
  deriving DecidableEq, Repr

/-- The first word of a long address. -/
structure LongAddr where
  data_length : BitVec 32
  high_offset : BitVec 16
  memory_region : BitVec 6
  deriving DecidableEq, Repr

/-- The second word of a long address. -/
structure LongAddr2 where
  low_offset : BitVec 48
  deriving DecidableEq, Repr

/-- `XDP2_PBUF_NUM_SIZE_SHIFTS`. Used as a buffer tag it stands for the largest size, with a length
field that is one less than the length. -/
def pbufNumSizeShifts : Nat := 15

namespace PbufAddr

/-- The tag says that the length field is one less than the length. -/
def isFull (a : PbufAddr) : Bool := a.buffer_tag.toNat = pbufNumSizeShifts

/-- `xdp2_pbuf_get_data_len_from_paddr`. -/
def dataLen (a : PbufAddr) : Nat := a.data_length.toNat + a.isFull.toNat

/-- The index in the table of allocators. -/
def btag (a : PbufAddr) : Nat := a.buffer_tag.toNat - a.isFull.toNat

/-- `xdp2_pbuf_size_shift_from_paddr`. -/
def sizeShift (a : PbufAddr) : Nat := a.btag + 6

/-- `__xdp2_pbuf_zindex_from_paddr`. -/
def zindex (a : PbufAddr) : Nat := a.offset.toNat >>> a.sizeShift

/-- `xdp2_pbuf_set_iovec`. -/
def setLen (a : PbufAddr) (len : Nat) : PbufAddr :=
  { a with data_length := BitVec.ofNat 20 len - BitVec.ofNat 20 a.isFull.toNat }

end PbufAddr

namespace ShortAddr

/-- `xdp2_paddr_short_addr_get_data_len_from_paddr`. -/
def dataLen (a : ShortAddr) : Nat := a.data_length.toNat + 1

/-- The length part of `xdp2_paddr_short_addr_set_iovec`. -/
def setLen (a : ShortAddr) (len : Nat) : ShortAddr :=
  { a with data_length := BitVec.ofNat 18 (len - 1) }

end ShortAddr

namespace LongAddr

/-- `xdp2_paddr_long_addr_get_offset_from_paddr`. -/
def offset (a : LongAddr) (b : LongAddr2) : Nat :=
  a.high_offset.toNat <<< 48 ||| b.low_offset.toNat

/-- `xdp2_paddr_long_addr_set_offset_from_paddr`, the first word. -/
def setOffset (a : LongAddr) (offset : Nat) : LongAddr :=
  { a with high_offset := BitVec.ofNat 16 (offset >>> 48) }

/-- The length part of `xdp2_paddr_long_addr_set_iovec`. -/
def setLen (a : LongAddr) (len : Nat) : LongAddr := { a with data_length := BitVec.ofNat 32 len }

end LongAddr

/-- `xdp2_paddr_long_addr_set_offset_from_paddr`, the second word. -/
def LongAddr2.setOffset (_ : LongAddr2) (offset : Nat) : LongAddr2 :=
  { low_offset := BitVec.ofNat 48 (offset &&& (2 ^ 48 - 1)) }

/-! ## pvbufs -/

/-- `struct xdp2_pvbuf` with the size and the index of the object, over the type of its iovecs. -/
structure PvbufOf (ι : Type) where
  pvbuf_size : BitVec 4
  index : BitVec 24
  iovec_map : BitVec 64
  iovec : List ι

/-- `struct xdp2_iovec`. -/
inductive Iovec where
  | null
  | pvbuf (data_length : BitVec 32) (pvbuf : PvbufOf Iovec)
  | pbuf (addr : PbufAddr)
  | short (addr : ShortAddr)
  | long (addr : LongAddr)
  | long2 (addr : LongAddr2)

/-- A pvbuf. -/
abbrev Pvbuf := PvbufOf Iovec

/-- `XDP2_PVBUF_NUM_IOVECS`, with the sizes in bytes of a cache line, of the header of a pvbuf and of
an iovec. -/
def numIovecs (size : Nat) : Nat := min (((size + 1) * 64 - 8) / 8) 64

/-- `enum xdp2_paddr_tags`, the cases for one kind of paddr taken together. -/
inductive PaddrTag where
  | longAddr
  | pvbuf
  | pbuf
  | shortAddr
  deriving DecidableEq, Repr

namespace Iovec

/-- `!iovec->paddr`. -/
def isNull : Iovec → Bool
  | null => true
  | _ => false

/-- `xdp2_iovec_paddr_addr_tag`. The tag for a long address is zero, so a null paddr has it too. -/
def tag : Iovec → PaddrTag
  | null | long _ | long2 _ => .longAddr
  | pvbuf _ _ => .pvbuf
  | pbuf _ => .pbuf
  | short _ => .shortAddr

end Iovec

namespace PvbufOf

/-- `XDP2_PVBUF_NUM_IOVECS_FROM_PADDR`. -/
def num (pv : Pvbuf) : Nat := numIovecs pv.pvbuf_size.toNat

/-- `pvbuf->iovec[i]`. -/
def get (pv : Pvbuf) (i : Nat) : Iovec := pv.iovec.getD i .null

/-- `pvbuf->iovec[i] = x`. -/
def set (pv : Pvbuf) (i : Nat) (x : Iovec) : Pvbuf := { pv with iovec := pv.iovec.set i x }

/-- `xdp2_bitmap_word64_set` on the map. -/
def setBit (pv : Pvbuf) (i : Nat) : Pvbuf :=
  { pv with iovec_map := pv.iovec_map ||| BitWord.bit i }

/-- A slot zeroed, with `xdp2_bitmap_word64_unset` on the map. -/
def clear (pv : Pvbuf) (i : Nat) : Pvbuf :=
  { pv.set i .null with iovec_map := pv.iovec_map &&& ~~~(BitWord.bit i) }

end PvbufOf

/-! ## Contents -/

/-- The memory paddrs point into: that of the pbuf allocators, by buffer tag, and that of the short
and of the long address regions. -/
structure Mem where
  pbuf : Nat → Nat → UInt8
  short : ShortTag → Nat → UInt8
  long : Nat → Nat → UInt8

/-- The bytes of a memory from an offset on. -/
def readBytes (mem : Nat → UInt8) (offset len : Nat) : List UInt8 := (List.range' offset len).map mem

/-- A leaf of a packet: a paddr that is not a pvbuf, both words of it where it has two. -/
inductive Seg where
  | pbuf (addr : PbufAddr)
  | short (addr : ShortAddr)
  | long (addr : LongAddr) (addr2 : LongAddr2)
  deriving DecidableEq, Repr

namespace Seg

/-- The length of the data. -/
def len : Seg → Nat
  | pbuf a => a.dataLen
  | short a => a.dataLen
  | long a _ => a.data_length.toNat

/-- The memory the paddr points into. -/
def region (mem : Mem) : Seg → Nat → UInt8
  | pbuf a => mem.pbuf a.btag
  | short a => mem.short a.short_paddr_tag
  | long a _ => mem.long a.memory_region.toNat

/-- Where the data starts in that memory. -/
def offset : Seg → Nat
  | pbuf a => a.offset.toNat
  | short a => a.offset.toNat
  | long a b => a.offset b

/-- The data. -/
def bytes (mem : Mem) (seg : Seg) : List UInt8 := readBytes (seg.region mem) seg.offset seg.len

end Seg

/-- The second word of a long address, at the head of the slots that follow the first. -/
def secondWord : List Iovec → LongAddr2
  | .long2 b :: _ => b
  | _ => ⟨0⟩

mutual

/-- The leaves of a pvbuf from left to right. -/
def PvbufOf.segs : PvbufOf Iovec → List Seg
  | ⟨_, _, _, iovec⟩ => slotSegs iovec
termination_by structural pv => pv

/-- The leaves in a list of slots. -/
def slotSegs : List Iovec → List Seg
  | [] => []
  | x :: slots => x.segs slots ++ slotSegs slots
termination_by structural slots => slots

/-- The leaves in one slot; the second word of a long address is read with the first. -/
def Iovec.segs : Iovec → List Iovec → List Seg
  | .pvbuf _ pv, _ => pv.segs
  | .pbuf a, _ => [.pbuf a]
  | .short a, _ => [.short a]
  | .long a, slots => [.long a (secondWord slots)]
  | .null, _ | .long2 _, _ => []
termination_by structural x => x

end

mutual

/-- The pvbuf objects of a tree, by size and index. -/
def PvbufOf.objs : PvbufOf Iovec → List (Nat × Nat)
  | ⟨size, index, _, iovec⟩ => (size.toNat, index.toNat) :: slotObjs iovec
termination_by structural pv => pv

/-- The pvbuf objects in a list of slots. -/
def slotObjs : List Iovec → List (Nat × Nat)
  | [] => []
  | x :: slots => x.objs ++ slotObjs slots
termination_by structural slots => slots

/-- The pvbuf objects in one slot. -/
def Iovec.objs : Iovec → List (Nat × Nat)
  | .pvbuf _ pv => pv.objs
  | .null | .pbuf _ | .short _ | .long _ | .long2 _ => []
termination_by structural x => x

end

/-- The contents of a list of leaves. -/
def segBytes (mem : Mem) (segs : List Seg) : List UInt8 := segs.flatMap (Seg.bytes mem)

/-- The linearised contents of a pvbuf. -/
def PvbufOf.contents (mem : Mem) (pv : Pvbuf) : List UInt8 := segBytes mem pv.segs

end Xdp2
