import Xdp2.Pvbuf.InsertPvbuf

/-!
# Cloning

`__xdp2_pvbuf_clone` with all it calls. An iterator calls a function on each leaf, with its iovec,
which it may change. For a clone it puts the leaf, cut down to what is asked for, into the next slot
of a new pvbuf, with another reference; where that is full, its last slot gets another one: a chain,
kept as the pvbuf at its end and those before it, from the end on (`IterClone.paddr` puts it
together).
-/

namespace Xdp2

open BitWord

/-! ## References -/

/-- The count of a pbuf goes up. -/
def Mgr.bumpRefcnt (m : Mgr) (btag zindex : Nat) : Mgr :=
  { m with
    refcnt := fun b z => if b = btag ∧ z = zindex then m.refcnt b z + 1 else m.refcnt b z }

/-- `__xdp2_pbuf_bump_refcnt`. -/
def pbufBumpRefcnt (a : PbufAddr) : PvM Unit := do
  assert (!a.one_ref) "Can't bump refcnt for single refcnt pbuf"
  modify fun s => { s with mgr := s.mgr.bumpRefcnt a.btag a.zindex }

/-- `__xdp2_paddr_short_addr_bump_refcnt`. -/
def shortAddrBumpRefcnt (a : ShortAddr) : PvM Unit :=
  modify fun s => { s with mgr.ext_bumped := s.mgr.ext_bumped ++ [.short a] }

/-- `__xdp2_paddr_long_addr_bump_refcnt`. -/
def longAddrBumpRefcnt (w1 w2 : Iovec) : PvM Unit := do
  let (a, b) ← longAddrCheck w1 w2
  modify fun s => { s with mgr.ext_bumped := s.mgr.ext_bumped ++ [.long a b] }

/-- `__xdp2_pvbuf_paddr_bump_refcnt`. -/
def pvbufPaddrBumpRefcnt (paddr_1 paddr_2 : Iovec) : PvM Unit :=
  match paddr_1 with
  | .pbuf a =>
    if a.one_ref then throw (.assertion "Set paddr iovec ent and bump refcnt: unexpected paddr type")
    else pbufBumpRefcnt a
  | .short a => shortAddrBumpRefcnt a
  | .pvbuf _ _ => throw (.assertion "Set paddr iovec ent and bump refcnt: unexpected paddr type")
  | w => longAddrBumpRefcnt w paddr_2

/-- `xdp2_pvbuf_iovec_set_paddr_ent_and_bump_refcnt`. -/
def iovecSetPaddrEntAndBumpRefcnt (pv : Pvbuf) (i : Nat) (paddr_1 paddr_2 : Iovec) (length : Nat) :
    PvM Pvbuf :=
  match paddr_1 with
  | .pbuf a => do
    if a.one_ref then throw (.assertion "Set paddr iovec ent and bump refcnt: unexpected paddr type")
    let pv ← iovecSetPaddrEnt pv i (.pbuf a) paddr_2 length
    pbufBumpRefcnt a
    return pv
  | .short a => do
    let pv ← iovecSetPaddrEnt pv i (.short a) paddr_2 length
    shortAddrBumpRefcnt a
    return pv
  | .pvbuf _ _ => throw (.assertion "Set paddr iovec ent and bump refcnt: unexpected paddr type")
  | w => do
    let pv ← iovecSetPaddrEnt pv i w paddr_2 length
    longAddrBumpRefcnt w paddr_2
    return pv

/-- `__xdp2_paddr_add_to_offset`. -/
def Seg.addToOffset (offset : Nat) : Seg → Seg
  | pbuf a => .pbuf { a with offset := a.offset + BitVec.ofNat 36 offset }
  | short a => .short { a with offset := a.offset + BitVec.ofNat 44 offset }
  | long a b => .long (a.setOffset ((a.offset b + offset) % 2 ^ 64))
      (b.setOffset ((a.offset b + offset) % 2 ^ 64))

/-! ## The iterator -/

/-- What an iterator works on: the pvbuf, the data of the function called, and whether to go on. -/
structure Iter (σ : Type) where
  pvbuf : Pvbuf
  priv : σ
  cont : Bool

section
variable {σ : Type}

/-- The end of a turn at slot `i`: `if (!cont) break`. -/
def Iter.turn (i : Nat) (t : Iter σ) : Turn (Iter σ) := if t.cont then .next i t else .done t

/-- The body of the loop of `__xdp2_pvbuf_iterate_iovec`, with `iterate` for the recursive call. -/
def iterateBody (func : Pvbuf → Nat → σ → PvM (Iter σ)) (iterate : Pvbuf → σ → PvM (Iter σ)) (i : Nat)
    (t : Iter σ) : PvM (Turn (Iter σ)) := do
  assert (!(t.pvbuf.get i).isNull) "Address is NULL in iterate iovec"
  match t.pvbuf.get i with
  | .pvbuf data_length sub => do
    let r ← iterate sub t.priv
    return Iter.turn i ⟨t.pvbuf.set i (.pvbuf data_length r.pvbuf), r.priv, r.cont⟩
  | .pbuf _ => do
    let r ← func t.pvbuf i t.priv
    return r.turn i
  | .short _ => do
    let r ← func t.pvbuf i t.priv
    return r.turn i
  | _ => do
    let r ← func t.pvbuf i t.priv
    let set ← iovecMapIsset r.pvbuf (i + 1)
    assert set "Expected map bit of second word of long addr set in pvbuf iterate"
    return r.turn (i + 1)

/-- `__xdp2_pvbuf_iterate_iovec`. -/
def iterateIovec (c : MgrConfig) (func : Pvbuf → Nat → σ → PvM (Iter σ)) :
    (depth : Nat) → Pvbuf → σ → PvM (Iter σ)
  | 0, _, _ => throw .fuel
  | depth + 1, pv, priv => do
    paddrToAddr c pv
    forBits .fuel (fun t => t.pvbuf.iovec_map) (iterateBody func (iterateIovec c func depth)) 0
      ⟨pv, priv, true⟩

end

/-! ## The function for a clone -/

/-- `struct __xdp2_pvbuf_iter_clone`: `pvbuf` is at the end of the chain, `outer` are those before it.
`error` is set for `-ENOMEM`. -/
structure IterClone where
  length : Nat
  offset : Nat
  pvbuf : Pvbuf
  index : Nat := 0
  error : Bool := false
  outer : List Pvbuf := []

/-- `num_iovecs`. -/
def IterClone.num_iovecs (ist : IterClone) : Nat := ist.pvbuf.num

/-- A pvbuf that its paddr in an iovec leads to. -/
def Iovec.relink (pv : Pvbuf) : Iovec → Iovec
  | .pvbuf data_length _ => .pvbuf data_length pv
  | x => x

/-- The pvbuf `pv` in the last slot of the first of `outer`, and so on. -/
def closeChain (pv : Pvbuf) : (outer : List Pvbuf) → Pvbuf
  | [] => pv
  | p :: outer => closeChain (p.set (p.num - 1) ((p.get (p.num - 1)).relink pv)) outer

/-- The pvbuf at the head of the chain. -/
def IterClone.paddr (ist : IterClone) : Pvbuf := closeChain ist.pvbuf ist.outer

/-- `__xdp2_check_clone_add_iovec`. -/
def checkCloneAddIovec (ist : IterClone) (set_length : Bool) (pvbuf_size : Nat) :
    PvM (IterClone × Bool) := do
  match ← pvbufAlloc pvbuf_size with
  | none => return ({ ist with error := true }, false)
  | some new => do
    let len := if set_length ∧ ist.length < pvbufMaxLen then ist.length else 0
    let pv ← iovecSetPvbufEnt ist.pvbuf (ist.num_iovecs - 1) new len
    return ({ ist with index := 0, pvbuf := new, outer := pv :: ist.outer }, true)

/-- What `__xdp2_pvbuf_iterate_iovec_clone_common` returns: that the iterator ends, that the iovec is
skipped, or the paddr from the offset on and the length to clone. -/
inductive CloneCommon where
  | abort
  | skip
  | paddr (seg : Seg) (data_len : Nat)

/-- The paddr of the iovec, both words of it. -/
def clonePaddr (pv : Pvbuf) (i : Nat) : PvM Seg :=
  match pv.get i with
  | .pbuf a => return .pbuf a
  | .short a => return .short a
  | .pvbuf _ _ => throw (.assertion "Iterate clone common: unexpected paddr type")
  | w => do
    let (a, b) ← longAddrCheck w (pv.get (i + 1))
    return .long a b

/-- A single-reference pbuf is made one with a reference count. -/
def convertOneRef (pv : Pvbuf) (i : Nat) : PvM Pvbuf :=
  match pv.get i with
  | .pbuf a =>
    if a.one_ref then do
      let refcnt := (← get).mgr.refcnt a.btag a.zindex
      assert (refcnt = 0) "Cloning pbuf with single refcnt, but refcnt is not zero"
      pbufBumpRefcnt { a with one_ref := false }
      return pv.set i (.pbuf { a with one_ref := false })
    else return pv
  | _ => return pv

/-- `__xdp2_pvbuf_iterate_iovec_clone_common`. -/
def iterateIovecCloneCommon (pv : Pvbuf) (i : Nat) (ist : IterClone) :
    PvM (Pvbuf × IterClone × CloneCommon) :=
  if ist.length = 0 then return (pv, ist, .abort)
  else do
    assert (!(pv.get i).isNull) "Iovec clone common iovec is NULL"
    let data_len := (← clonePaddr pv i).len
    if data_len = 0 then
      return (pv, ist, .skip)
    else if ist.offset ≠ 0 ∧ data_len ≤ ist.offset then
      return (pv, { ist with offset := ist.offset - data_len }, .skip)
    else
      let pv ← convertOneRef pv i
      let seg ← clonePaddr pv i
      if ist.offset ≠ 0 then
        return (pv, { ist with offset := 0 },
          .paddr (seg.addToOffset ist.offset) (min ist.length (data_len - ist.offset)))
      else
        return (pv, ist, .paddr seg (min ist.length data_len))

/-- Another pvbuf is put at the end of the chain if `num_slots` more slots are not free in the last one,
or would fill it up without being the end of the clone. -/
def cloneRoom (c : MgrConfig) (ist : IterClone) (num_slots data_len : Nat) : PvM (IterClone × Bool) :=
  let max_index := ist.num_iovecs - num_slots
  if max_index < ist.index ∨ (ist.index = max_index ∧ data_len ≠ ist.length) then do
    let pvbuf_size ← pvbufGetSize c
    checkCloneAddIovec ist true pvbuf_size
  else return (ist, true)

/-- `__xdp2_pvbuf_iterate_clone_pvbuf`. Where no pvbuf is to be had it returns `-1`, which as a `bool`
is `true`. -/
def iterateClonePvbuf (c : MgrConfig) (pv : Pvbuf) (i : Nat) (ist : IterClone) :
    PvM (Iter IterClone) := do
  let (pv, ist, ret) ← iterateIovecCloneCommon pv i ist
  match ret with
  | .abort => return ⟨pv, ist, false⟩
  | .skip => return ⟨pv, ist, true⟩
  | .paddr seg data_len => do
    let is_long_addr := seg.paddr1.isLongAddr
    let (ist, ok) ← cloneRoom c ist (1 + is_long_addr.toNat) data_len
    if !ok then
      return ⟨pv, ist, true⟩
    else
      let pvbuf ← iovecSetPaddrEntAndBumpRefcnt ist.pvbuf ist.index seg.paddr1 seg.paddr2 data_len
      return ⟨pv, { ist with
        pvbuf := pvbuf
        length := ist.length - data_len
        index := ist.index + (1 + is_long_addr.toNat) }, true⟩

/-! ## Cloning -/

/-- The body of the loop of `__xdp2_pvbuf_fixup_iovec_length`, with `fixup` for the recursive call.
For a pvbuf, `xdp2_pbuf_set_iovec` is called with the paddr of the pvbuf whose slots these are, and
asserts that it is a pbuf. The second word of a long address is not skipped. -/
def fixupBody (fixup : Pvbuf → PvM Nat) (pv : Pvbuf) (i : Nat) (len : Nat) : PvM (Turn Nat) := do
  assert (!(pv.get i).isNull) "Fixup iovec length iovec is NULL"
  match pv.get i with
  | .pvbuf _ sub => do
    let _ ← fixup sub
    throw (.assertion "Setting pbuf in an iovec but paddr type is not a pbuf")
  | .pbuf a => return .next i (len + a.dataLen)
  | .short a => return .next i (len + a.dataLen)
  | w => do
    let (a, _) ← longAddrCheck w (pv.get (i + 1))
    return .next i (len + a.data_length.toNat)

/-- `__xdp2_pvbuf_fixup_iovec_length`. -/
def fixupIovecLength (c : MgrConfig) : (depth : Nat) → Pvbuf → PvM Nat
  | 0, _ => throw .fuel
  | depth + 1, pv => do
    paddrToAddr c pv
    forBits .fuel (fun _ => pv.iovec_map) (fixupBody (fixupIovecLength c depth) pv) 0 0

/-- What `__xdp2_pvbuf_clone` does when the iterator is through. -/
def cloneEnd (c : MgrConfig) (length : Nat) (t : Iter IterClone) :
    PvM (Pvbuf × Option (Pvbuf × Nat)) := do
  let levels := t.priv.outer.length + 1
  if t.priv.error then
    pvbufFree c levels t.priv.paddr
    return (t.pvbuf, none)
  else
    if t.priv.length ≠ 0 then
      let _ ← fixupIovecLength c levels t.priv.paddr
    return (t.pvbuf, some (t.priv.paddr, length - t.priv.length))

/-- `__xdp2_pvbuf_clone`: the pvbuf as it is left, and the clone with its length, if the allocations
succeed. -/
def pvbufClone (c : MgrConfig) (depth : Nat) (pv : Pvbuf) (offset length : Nat) :
    PvM (Pvbuf × Option (Pvbuf × Nat)) := do
  let pvbuf_size ← pvbufGetSize c
  match ← pvbufAlloc pvbuf_size with
  | none => return (pv, none)
  | some new => do
    let t ← iterateIovec c (iterateClonePvbuf c) depth pv
      { length := length, offset := offset, pvbuf := new }
    cloneEnd c length t

end Xdp2
