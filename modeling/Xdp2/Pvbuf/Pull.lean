import Xdp2.Pvbuf.Alloc
import Xdp2.Pvbuf.Copy
import Xdp2.Pvbuf.InsertPvbuf

/-!
# Pulling up headers and trailers

`__xdp2_pvbuf_pullup` makes the first bytes of a packet contiguous, `__xdp2_pvbuf_pulltail` the last
ones. Where the leaf there has fewer bytes, they are popped into a pbuf, which then takes the place
at the end; for headers that may be the first pbuf of the packet. Nobody else has the pbuf, so the
bytes may be collected first and written to it afterwards.
-/

namespace Xdp2

open BitWord

/-! ## Pointers -/

/-- An address: an offset in one of the memories. -/
structure Ptr where
  region : Region
  offset : Nat
  deriving DecidableEq, Repr

/-- The address some bytes up. -/
def Ptr.add (p : Ptr) (n : Nat) : Ptr := { p with offset := p.offset + n }

/-- `data_ptr` of a leaf. -/
def Seg.ptr (s : Seg) : Ptr := ⟨s.place, s.offset⟩

/-- The bytes at an address. -/
def Ptr.bytes (mem : Mem) (p : Ptr) (n : Nat) : List UInt8 := readBytes (mem.read p.region) p.offset n

/-- What the functions leave and return: the pvbuf, the pointer, null if there is none, and
`*length`. -/
structure Pull where
  pvbuf : Pvbuf
  ptr : Option Ptr
  length : Nat

/-! ## The room in a pbuf -/

/-- `__xdp2_pbuf_paddr_to_pbuf_offset`. -/
def PbufAddr.pbufOffset (a : PbufAddr) : Nat := a.offset.toNat % 2 ^ a.sizeShift

/-- `xdp2_pbuf_get_refcnt`, which is zero for a pbuf with a single-reference paddr. -/
def pbufGetRefcnt (a : PbufAddr) : PvM (BitVec 32) := do
  return (← get).mgr.refcnt a.btag a.zindex

/-- `__xdp2_pbuf_get_tailroom_from_paddr`. -/
def pbufGetTailroom (a : PbufAddr) : PvM Nat := do
  assert (a.pbufOffset + a.dataLen ≤ 2 ^ a.sizeShift) "Offset pluse data length greater then pbuf size"
  assert (a.pbufOffset + a.dataLen ≤ 2 ^ a.sizeShift) "Offset pluse data length greater then pbuf size"
  return 2 ^ a.sizeShift - (a.pbufOffset + a.dataLen)

/-- The condition of `__xdp2_pvbuf_pullup` for using the tailroom of the first pbuf, and the pbuf. -/
def pullupTailroom (compress : Bool) (iovec : Iovec) (length : Nat) : PvM (Option PbufAddr) :=
  match iovec with
  | .pbuf a => do
    if compress then
      let refcnt ← pbufGetRefcnt a
      if refcnt = 1 then
        let tailroom ← pbufGetTailroom a
        return if length ≤ tailroom then some a else none
      else return none
    else return none
  | _ => return none

/-! ## Bytes popped into a pbuf -/

/-- A pop with the bytes it copies. -/
def collect {α : Type} (pop : PvM α) : PvM (α × List UInt8) := do
  let out := (← get).out
  modify fun s => { s with out := [] }
  let r ← pop
  let bytes := (← get).out
  modify fun s => { s with out := out }
  return (r, bytes)

/-- The bytes are written to an address. -/
def writeTo (p : Ptr) (bytes : List UInt8) : PvM Unit :=
  modify fun s => { s with mgr.mem := s.mgr.mem.write p.offset bytes p.region }

/-- `xdp2_pvbuf_iovec_set_pbuf_ent`. -/
def iovecSetPbufEnt (pv : Pvbuf) (i : Nat) (a : PbufAddr) (len : Nat) : PvM Pvbuf :=
  iovecSetPaddrEnt pv i (.pbuf a) .null len

/-! ## Headers -/

/-- The part of `__xdp2_pvbuf_prepend_pbuf_pullup` that makes slot zero free: what is in it goes to slot
one, or into what is in the slot behind it. The slot itself is not always cleared. -/
def freeSlotZero (c : MgrConfig) (compress : Bool) (depth : Nat) (pv : Pvbuf) : PvM (Pvbuf × Bool) := do
  let set ← iovecMapIsset pv 1
  if !set then
    assert (!(pv.get 0).isLongAddr) "Unexpected long addess in prepend pbuf pullup"
    let pv ← iovecClearEnt (pv.set 1 (pv.get 0)) 0
    let pv ← iovecMapSet pv 1
    return (pv.set 0 .null, true)
  else
    match pv.get 0 with
    | .pvbuf data_length sub =>
      prependPvbufIntoIovec c (prependPvbuf c depth compress sub data_length.toNat) compress pv 1 sub
        data_length.toNat
    | iovec => do
      let set ← iovecMapIsset pv 0
      if set then
        let seg ← getPtrLen pv 0
        if iovec.isLongAddr then
          let (pv, ret) ← prependPaddrIntoIovec c
            (prependPaddr c compress (pv.get 0) (pv.get 1) seg.len depth) pv 2 (pv.get 0) (pv.get 1)
            seg.len
          let pv ← iovecClearEnt pv 1
          return (pv, ret)
        else
          prependPaddrIntoIovec c (prependPaddr c compress iovec .null seg.len depth) pv 1 iovec .null
            seg.len
      else
        return (pv, true)

/-- `__xdp2_pvbuf_prepend_pbuf_pullup`: the pvbuf, and whether the pbuf is in it. -/
def prependPbufPullup (c : MgrConfig) (compress : Bool) (depth : Nat) (pv : Pvbuf) (a : PbufAddr)
    (length : Nat) : PvM (Pvbuf × Bool) := do
  paddrToAddr c pv
  let (pv, index) ← findPrependSlot compress pv
  if index < pv.num then
    let pv ← iovecSetPbufEnt pv index a length
    return (pv, true)
  else
    let (pv, ret) ← freeSlotZero c compress depth pv
    if ret then
      let pv ← iovecMapSet (pv.set 0 (.pbuf (a.setLen length))) 0
      return (pv, true)
    else
      return (pv, false)

/-- `__xdp2_pvbuf_pullup` from the label `doit` on, where `start_length` of the bytes are in the pbuf
already. -/
def pullupInto (c : MgrConfig) (compress : Bool) (depth : Nat) (pv : Pvbuf) (a : PbufAddr)
    (length start_length : Nat) : PvM Pull := do
  let data_ptr := (Seg.pbuf a).ptr
  let copy_length := length - start_length
  let ((pv, dropped), copied) ← collect (popHdrs c compress true depth pv copy_length)
  writeTo (data_ptr.add start_length) copied
  let length := dropped + start_length
  assert (copy_length = copied.length) "Length headers popped doesn't equal length copied"
  -- the trees that one call may go down are put together, one below the other
  let (pv, ok) ← prependPbufPullup c compress (depth + depth) pv a length
  if ok then return ⟨pv, some data_ptr, length⟩
  else
    pbufFree c a
    return ⟨pv, none, 0⟩

/-- `__xdp2_pvbuf_pullup` where the bytes go to a new pbuf. -/
def pullupAlloc (c : MgrConfig) (compress : Bool) (depth : Nat) (pv : Pvbuf) (length : Nat) :
    PvM Pull := do
  match ← pbufAlloc c length false with
  | none => return ⟨pv, none, 0⟩
  | some a => pullupInto c compress depth pv a length 0

/-- `__xdp2_pvbuf_pullup`. -/
def pullup (c : MgrConfig) (compress : Bool) (depth : Nat) (pv : Pvbuf) (length : Nat) : PvM Pull := do
  paddrToAddr c pv
  let index := find pv.iovec_map
  if pv.num ≤ index then
    return ⟨pv, none, length⟩
  else if (pv.get index).tag = .pvbuf then
    pullupAlloc c compress depth pv length
  else
    let seg ← getPtrLen pv index
    if length ≤ seg.len then
      return ⟨pv, some seg.ptr, seg.len⟩
    else
      match ← pullupTailroom compress (pv.get index) length with
      | some a => do
        let pv ← iovecUnsetEnt pv index
        pullupInto c compress depth pv a length seg.len
      | none => pullupAlloc c compress depth pv length

/-- What the front ends make of it: a pointer to fewer bytes than asked for is no pointer. -/
def Pull.front (r : Pull) (orig_length : Nat) : Option Ptr :=
  if r.length < orig_length then none else r.ptr

/-- `xdp2_pvbuf_pullup`, with the manager. -/
def pvbufPullup (c : MgrConfig) (compress : Bool) (depth : Nat) (pv : Pvbuf) (length : Nat) :
    PvM (Pvbuf × Option Ptr) := do
  let r ← pullup c compress depth pv length
  return (r.pvbuf, r.front length)

/-! ## Trailers -/

/-- The body of the loop of `xdp2_pvbuf_find_last_iovec`, with `findLast` for the recursive call. -/
def findLastBody (findLast : Pvbuf → PvM (Option (Pvbuf × Nat))) (pv : Pvbuf) (i : Nat)
    (_ : Option (Pvbuf × Nat)) : PvM (Turn (Option (Pvbuf × Nat))) := do
  assert (!(pv.get i).isNull) "NULL iovec but iovec bit set"
  match pv.get i with
  | .pvbuf _ sub => do
    let r ← findLast sub
    return .done r
  | _ => return .done (some (pv, i))

/-- `xdp2_pvbuf_find_last_iovec`: the iovec is given by its pvbuf and its slot. -/
def findLastIovec (c : MgrConfig) : (depth : Nat) → Pvbuf → PvM (Option (Pvbuf × Nat))
  | 0, _ => throw .fuel
  | depth + 1, pv => do
    paddrToAddr c pv
    forBitsRev .fuel (fun _ => pv.iovec_map) (findLastBody (findLastIovec c depth) pv) (pv.num - 1) none

/-- `__xdp2_pvbuf_get_ptr_len_from_iovec` with `last_iovec` true: of a long address, the slot is the
second one. -/
def getPtrLenLast (pv : Pvbuf) (i : Nat) : PvM Seg :=
  if (pv.get i).isLongAddr then do
    assert (!(pv.get i).isNull) "Address is NULL instead of long in paddr get ptr len from iovec"
    getPtrLen pv (i - 1)
  else getPtrLen pv i

/-- `__xdp2_pvbuf_append_pbuf_pulltail`: the pvbuf, and whether the pbuf is in it. -/
def appendPbufPulltail (c : MgrConfig) (depth : Nat) (pv : Pvbuf) (a : PbufAddr) (length : Nat) :
    PvM (Pvbuf × Bool) := do
  paddrToAddr c pv
  let (pv, i) ← findAppendSlot false pv
  if i < pv.num then
    let pv ← iovecSetPbufEnt pv i a length
    return (pv, true)
  else
    let last := pv.num - 1
    let last_set ← iovecMapIsset pv (pv.num - 2)
    let set ← iovecMapIsset pv last
    match set, pv.get last with
    | true, .pvbuf data_length sub => do
      let (pv, ret) ← appendPvbufIntoIovec c (appendPvbuf c depth false sub data_length.toNat) pv
        (pv.num - 2) sub data_length.toNat last_set
      if ret then
        let pv ← iovecMapSet (pv.set last (.pbuf (a.setLen length))) last
        return (pv, true)
      else
        return (pv, false)
    | true, _ => do
      let _ ← getPtrLen pv last
      appendPaddrNewPvbuf c pv (pv.num - 2) (.pbuf a) .null length last_set
    | false, _ => do
      let pv ← iovecMapSet (pv.set last (.pbuf (a.setLen length))) last
      return (pv, true)

/-- `__xdp2_pvbuf_pulltail` where the bytes go to a new pbuf. -/
def pulltailAlloc (c : MgrConfig) (depth : Nat) (pv : Pvbuf) (length : Nat) : PvM Pull := do
  match ← pbufAlloc c length false with
  | none => return ⟨pv, none, 0⟩
  | some a => do
    let ((pv, dropped), copied) ← collect (popTrailers c false true depth pv length)
    -- the bytes are written downwards from `copyptr`, which ends at the first of them
    let copyptr := (Seg.pbuf a).ptr.add (length - copied.length)
    writeTo copyptr copied
    assert (length = copied.length) "Length tail popped doesn't equal length copied"
    let (pv, ok) ← appendPbufPulltail c (depth + depth) pv a dropped
    if ok then return ⟨pv, some copyptr, dropped⟩
    else
      pbufFree c a
      return ⟨pv, none, 0⟩

/-- `__xdp2_pvbuf_pulltail`, which does not use its argument `compress`. -/
def pulltail (c : MgrConfig) (_compress : Bool) (depth : Nat) (pv : Pvbuf) (length : Nat) :
    PvM Pull := do
  match ← findLastIovec c depth pv with
  | some (owner, i) => do
    let seg ← getPtrLenLast owner i
    if length ≤ seg.len then
      return ⟨pv, some (seg.ptr.add (seg.len - length)), seg.len⟩
    else
      pulltailAlloc c depth pv length
  | none => pulltailAlloc c depth pv length

/-- `xdp2_pvbuf_pulltail`, with the manager. -/
def pvbufPulltail (c : MgrConfig) (compress : Bool) (depth : Nat) (pv : Pvbuf) (length : Nat) :
    PvM (Pvbuf × Option Ptr) := do
  let r ← pulltail c compress depth pv length
  return (r.pvbuf, r.front length)

end Xdp2
