import Xdp2.Pvbuf.Pop

/-!
# Prepending and appending a paddr

`__xdp2_pvbuf_prepend_paddr` and `__xdp2_pvbuf_append_paddr` with all they call. A paddr goes into a
free slot at the end, if there is one or compression makes one; else into the pvbuf in the slot at
that end; else that slot gets a new pvbuf, which takes what was there and the paddr. `paddr_2` is
null but for a long address; the length is put into the words when they are put in.
-/

namespace Xdp2

open BitWord

/-! ## Slots -/

/-- `-1U`, where no slot is found. -/
def noSlot : Nat := 2 ^ 32 - 1

/-- `XDP2_PVBUF_MAX_LEN`. -/
def pvbufMaxLen : Nat := 2 ^ 32

/-- `xdp2_paddr_get_paddr_tag_from_paddr(paddr) == XDP2_PADDR_TAG_LONG_ADDR`. -/
def Iovec.isLongAddr (x : Iovec) : Bool := x.tag = .longAddr

/-- The first word of the paddr. -/
def Seg.paddr1 : Seg → Iovec
  | pbuf a => .pbuf a
  | short a => .short a
  | long a _ => .long a

/-- The second word of the paddr, null if it has none. -/
def Seg.paddr2 : Seg → Iovec
  | pbuf _ => .null
  | short _ => .null
  | long _ b => .long2 b

/-- `__xdp2_pvbuf_iovec_check_empty`. -/
def iovecCheckEmpty (pv : Pvbuf) (i : Nat) : PvM Unit := do
  assert (pv.get i).isNull "Setting iovec in pvbuf but entry is non-null"
  let set ← iovecMapIsset pv i
  assert (!set) "Setting iovec in pvbuf but bitmap is set"

/-- `xdp2_pvbuf_iovec_move_ent`. -/
def iovecMoveEnt (pv : Pvbuf) (old new : Nat) : PvM Pvbuf :=
  if old = new then return pv
  else do
    assert (pv.get new).isNull "Setting iovec in pvbuf but entry is non-null"
    let set ← iovecMapIsset pv new
    assert (!set) "Setting iovec in pvbuf but bitmap is set"
    assert (!(pv.get old).isNull) "Unsetting iovec in pvbuf but entry is NULL"
    let set ← iovecMapIsset pv old
    assert set "Unsetting iovec in pvbuf but bitmap is unset"
    let pv ← iovecClearEnt (pv.set new (pv.get old)) old
    iovecMapSet pv new

/-- `xdp2_pvbuf_set_pvbuf_iovec`. -/
def setPvbufIovec (pv : Pvbuf) (i : Nat) (sub : Pvbuf) (len : Nat) : PvM Pvbuf := do
  assert (len < pvbufMaxLen) "Setting pvbuf in an iovec but length is greater than maximum length"
  return pv.set i (.pvbuf (BitVec.ofNat 32 len) sub)

/-- `xdp2_pvbuf_iovec_set_paddr_ent`, with the functions for each kind of paddr. -/
def iovecSetPaddrEnt (pv : Pvbuf) (i : Nat) (paddr_1 paddr_2 : Iovec) (len : Nat) : PvM Pvbuf :=
  match paddr_1 with
  | .pvbuf _ sub => do
    iovecCheckEmpty pv i
    let pv ← setPvbufIovec pv i sub len
    iovecMapSet pv i
  | .pbuf a => do
    iovecCheckEmpty pv i
    iovecMapSet (pv.set i (.pbuf (a.setLen len))) i
  | .short a => do
    iovecCheckEmpty pv i
    assert (len ≠ 0) "Setting short address in an iovec but length is zero"
    assert (len ≤ 2 ^ 18) "Setting short address in an iovec but length is greater than maximum"
    iovecMapSet (pv.set i (.short (a.setLen len))) i
  | w => do
    iovecCheckEmpty pv i
    iovecCheckEmpty pv (i + 1)
    let (a, b) ← longAddrCheck w paddr_2
    assert (len < 2 ^ 32) "Setting long address in an iovec but length is greater than maximum"
    let pv ← iovecMapSet ((pv.set i (.long (a.setLen len))).set (i + 1) (.long2 b)) i
    iovecMapSet pv (i + 1)

/-! ## Shifting -/

/-- The variables of the shift loops: the pvbuf and the slot to fill next. -/
structure Shifting where
  pvbuf : Pvbuf
  j : Nat

/-- The body of the shift loops, with `next` for what becomes of `j`. -/
def shiftBody (next : Nat → Nat) (i : Nat) (s : Shifting) : PvM (Turn Shifting) := do
  let pv ← iovecMoveEnt s.pvbuf i s.j
  return .next i ⟨pv, next s.j⟩

/-- `__xdp2_pvbuf_shift_pvbuf_iovecs_to_tail`. -/
def shiftPvbufIovecsToTail (pv : Pvbuf) : PvM Pvbuf := do
  -- `j--` on an `unsigned int`
  let s ← forBitsRev .fuel (fun s => s.pvbuf.iovec_map)
    (shiftBody fun j => (j + (2 ^ 32 - 1)) % 2 ^ 32) (pv.num - 1) ⟨pv, pv.num - 1⟩
  return s.pvbuf

/-- `__xdp2_pvbuf_shift_pvbuf_iovecs_to_head`. -/
def shiftPvbufIovecsToHead (pv : Pvbuf) : PvM Pvbuf := do
  let s ← forBits .fuel (fun s => s.pvbuf.iovec_map) (shiftBody fun j => j + 1) 0 ⟨pv, 0⟩
  return s.pvbuf

/-! ## Prepending -/

/-- `__xdp2_pvbuf_find_prepend_slot_compress`. -/
def findPrependSlotCompress (pv : Pvbuf) : PvM (Pvbuf × Nat) :=
  if weight pv.iovec_map = pv.num then return (pv, noSlot)
  else do
    let pv ← shiftPvbufIovecsToTail pv
    let index := find pv.iovec_map
    assert (index ≠ 0) "Shift prepend failed"
    let set ← iovecMapIsset pv (index - 1)
    assert (!set) "Shift prepend slot not empty"
    return (pv, index - 1)

/-- `__xdp2_pvbuf_find_prepend_slot`. -/
def findPrependSlot (compress : Bool) (pv : Pvbuf) : PvM (Pvbuf × Nat) :=
  let i := find pv.iovec_map
  if i ≠ 0 then return (pv, if i < pv.num then i - 1 else pv.num - 1)
  else if compress then findPrependSlotCompress pv
  else return (pv, noSlot)

/-- The length of what a slot holds; that of a pvbuf of unknown length is out of range. -/
def slotLen (pv : Pvbuf) (i : Nat) : PvM Nat :=
  match pv.get i with
  | .pvbuf data_length _ => return if data_length ≠ 0 then data_length.toNat else pvbufMaxLen
  | .pbuf a => return a.dataLen
  | .short a => return a.dataLen
  | w => do
    let (a, _) ← longAddrCheck w (pv.get (i + 1))
    return a.data_length.toNat

/-- The cached length of a pvbuf with `length` bytes more than `len`: zero if it does not fit, or if
`length` is zero. -/
def cachedLen (len length : Nat) : Nat :=
  if length ≠ 0 ∧ len + length < pvbufMaxLen then len + length else 0

/-- The paddr in a slot goes to the last slot of a new pvbuf; of a long address, the second word goes
there, and the first before it. -/
def moveToTail (new pv : Pvbuf) (index : Nat) : PvM Pvbuf := do
  let is_long_addr := (pv.get index).isLongAddr
  let pos := new.num - 1
  let new ← if is_long_addr then iovecMapSet (new.set pos (pv.get (index + 1))) pos else pure new
  let pos := pos - is_long_addr.toNat
  iovecMapSet (new.set pos (pv.get index)) pos

/-- The end of the functions for a new pvbuf: it takes the slot of the paddr moved into it, the second
one of a long address, the first one being cleared. -/
def replaceByPvbuf (pv : Pvbuf) (index : Nat) (is_long_addr : Bool) (new : Pvbuf) (len : Nat) :
    PvM (Pvbuf × Bool) := do
  let pv ← if is_long_addr then iovecClearEnt pv index else pure pv
  let index := index + is_long_addr.toNat
  let set ← iovecMapIsset pv index
  assert set "Expected map bit set in prepend_pvbuf_into_iovec"
  return (← setPvbufIovec pv index new len, true)

/-- `__xdp2_pvbuf_prepend_paddr_into_iovec_new_pvbuf`. -/
def prependPaddrNewPvbuf (c : MgrConfig) (pv : Pvbuf) (index : Nat) (paddr_1 paddr_2 : Iovec)
    (length : Nat) : PvM (Pvbuf × Bool) := do
  let pvbuf_size ← pvbufGetSize c
  match ← pvbufAlloc pvbuf_size with
  | none => return (pv, false)
  | some new => do
    assert (4 ≤ new.num - 1) "In prepend paddr into iovec, pos is less than 4"
    assert (!(pv.get index).isNull) "In pvbuf prepend pbuf pullup into iovec iovec is NULL"
    let iovlen ← slotLen pv index
    let is_long_addr := (pv.get index).isLongAddr
    let new ← moveToTail new pv index
    let pos := new.num - 1 - is_long_addr.toNat - 1 - paddr_1.isLongAddr.toNat
    let new ← iovecSetPaddrEnt new pos paddr_1 paddr_2 length
    replaceByPvbuf pv index is_long_addr new (cachedLen iovlen length)

/-- What becomes of the cached length of a pvbuf when `length` bytes are added. -/
def adjustLen (data_length : BitVec 32) (length : Nat) : BitVec 32 :=
  if data_length ≠ 0 then BitVec.ofNat 32 (cachedLen data_length.toNat length) else data_length

/-- The call on the pvbuf in a slot, with `insert` for the recursive call. -/
def insertIntoSub (insert : Pvbuf → PvM (Pvbuf × Bool)) (pv : Pvbuf) (index : Nat)
    (data_length : BitVec 32) (sub : Pvbuf) (length : Nat) : PvM (Pvbuf × Bool) := do
  let (sub, ret) ← insert sub
  if !ret then
    return (pv.set index (.pvbuf data_length sub), false)
  else
    return (pv.set index (.pvbuf (adjustLen data_length length) sub), true)

/-- `___xdp2_pvbuf_prepend_paddr_into_iovec`. -/
def prependPaddrIntoIovec (c : MgrConfig) (insert : Pvbuf → PvM (Pvbuf × Bool)) (pv : Pvbuf)
    (index : Nat) (paddr_1 paddr_2 : Iovec) (length : Nat) : PvM (Pvbuf × Bool) := do
  assert (!(pv.get index).isNull) "In pvbuf prepend paddr into iovec iovec is NULL"
  match pv.get index with
  | .pvbuf data_length sub => insertIntoSub insert pv index data_length sub length
  | _ => prependPaddrNewPvbuf c pv index paddr_1 paddr_2 length

/-- `__xdp2_pvbuf_prepend_paddr`: the pvbuf, and whether the paddr is in it. -/
def prependPaddr (c : MgrConfig) (compress : Bool) (paddr_1 paddr_2 : Iovec) (length : Nat) :
    (depth : Nat) → Pvbuf → PvM (Pvbuf × Bool)
  | 0, _ => throw .fuel
  | depth + 1, pv => do
    paddrToAddr c pv
    let is_long_addr := paddr_1.isLongAddr
    let (pv, index) ← findPrependSlot compress pv
    if index < pv.num ∧ (0 < index ∨ !is_long_addr) then
      let pv ← iovecSetPaddrEnt pv (index - is_long_addr.toNat) paddr_1 paddr_2 length
      return (pv, true)
    else
      let first ← if index ≠ 0 then pure true else iovecMapIsset pv index
      let index := if first then 0 else 1
      prependPaddrIntoIovec c (prependPaddr c compress paddr_1 paddr_2 length depth) pv index
        paddr_1 paddr_2 length

/-! ## Appending -/

/-- `__xdp2_pvbuf_find_append_slot_compress`. -/
def findAppendSlotCompress (pv : Pvbuf) : PvM (Pvbuf × Nat) :=
  if pv.num - 1 ≤ weight pv.iovec_map then return (pv, noSlot)
  else do
    let pv ← shiftPvbufIovecsToHead pv
    let index := revFind pv.iovec_map
    assert (index < pv.num - 1) "Shift append failed"
    let set ← iovecMapIsset pv (index + 1)
    assert (!set) "Shift append slot not empty"
    return (pv, index + 1)

/-- `__xdp2_pvbuf_find_append_slot`. -/
def findAppendSlot (compress : Bool) (pv : Pvbuf) : PvM (Pvbuf × Nat) :=
  let i := revFind pv.iovec_map
  if i ≠ pv.num - 1 then return (pv, if i < pv.num then i + 1 else 0)
  else if compress then findAppendSlotCompress pv
  else return (pv, noSlot)

/-- The paddr in a slot goes to the first slot of a new pvbuf; the second word of a long address goes
behind it. -/
def moveToHead (new pv : Pvbuf) (index : Nat) : PvM Pvbuf := do
  let new ← iovecMapSet (new.set 0 (pv.get index)) 0
  if (pv.get index).isLongAddr then iovecMapSet (new.set 1 (pv.get (index + 1))) 1 else pure new

/-- `word_num` of a long address. -/
def Iovec.wordNum : Iovec → Nat
  | long2 _ => 1
  | _ => 0

/-- `__xdp2_pvbuf_append_paddr_into_iovec_new_pvbuf`. -/
def appendPaddrNewPvbuf (c : MgrConfig) (pv : Pvbuf) (index : Nat) (paddr_1 paddr_2 : Iovec)
    (length : Nat) (index_set : Bool) : PvM (Pvbuf × Bool) := do
  let pvbuf_size ← pvbufGetSize c
  match ← pvbufAlloc pvbuf_size with
  | none => return (pv, false)
  | some new => do
    assert (4 ≤ new.num) "In append paddr into iovec, num_iovecs is less than 4"
    if !index_set then
      let pv ← iovecMapSet pv index
      let new ← iovecSetPaddrEnt new 0 paddr_1 paddr_2 length
      return (← setPvbufIovec pv index new (cachedLen 0 length), true)
    else
      assert (!(pv.get index).isNull) "Append paddr into new pvbuf iovec is NULL"
      let is_long_addr := (pv.get index).isLongAddr
      -- from the second word of a long address back to the first
      let index := index - (pv.get index).wordNum
      let iovlen ← slotLen pv index
      let new ← moveToHead new pv index
      let new ← iovecSetPaddrEnt new (1 + is_long_addr.toNat) paddr_1 paddr_2 length
      replaceByPvbuf pv index is_long_addr new (cachedLen iovlen length)

/-- `___xdp2_pvbuf_append_paddr_into_iovec`. -/
def appendPaddrIntoIovec (c : MgrConfig) (insert : Pvbuf → PvM (Pvbuf × Bool)) (pv : Pvbuf)
    (index : Nat) (paddr_1 paddr_2 : Iovec) (length : Nat) (index_set : Bool) :
    PvM (Pvbuf × Bool) :=
  match index_set, pv.get index with
  | true, .pvbuf data_length sub => insertIntoSub insert pv index data_length sub length
  | _, _ => appendPaddrNewPvbuf c pv index paddr_1 paddr_2 length index_set

/-- `__xdp2_pvbuf_append_paddr`: the pvbuf, and whether the paddr is in it. -/
def appendPaddr (c : MgrConfig) (compress : Bool) (paddr_1 paddr_2 : Iovec) (length : Nat) :
    (depth : Nat) → Pvbuf → PvM (Pvbuf × Bool)
  | 0, _ => throw .fuel
  | depth + 1, pv => do
    paddrToAddr c pv
    let is_long_addr := paddr_1.isLongAddr
    let (pv, i) ← findAppendSlot compress pv
    if i < pv.num ∧ (i ≠ pv.num - 1 ∨ !is_long_addr) then
      let pv ← iovecSetPaddrEnt pv i paddr_1 paddr_2 length
      return (pv, true)
    else
      let last_set ← iovecMapIsset pv (pv.num - 1)
      appendPaddrIntoIovec c (appendPaddr c compress paddr_1 paddr_2 length depth) pv (pv.num - 1)
        paddr_1 paddr_2 length last_set

end Xdp2
