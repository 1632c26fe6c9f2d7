import Xdp2.Pvbuf.Clone

/-!
# Allocating

`__xdp2_pbuf_alloc`, `__xdp2_pvbuf_alloc_empty` and `__xdp2_pvbuf_alloc_params` with all they call.
An entry of the pbuf table names the allocator for the size, or the next larger one there is, and
that for the next smaller size; an entry of the pvbuf table names the next smaller size.
-/

namespace Xdp2

/-! ## The tables -/

/-- `xdp2_get_log_round_up`. -/
def getLogRoundUp (x : Nat) : Nat := x.log2 + (decide (x % 2 ^ x.log2 ≠ 0)).toNat

/-- The buffer tag for a size, which the code has as a size shift within its limits. -/
def pbufBufferTag (size : Nat) : Nat := max (min (getLogRoundUp size) 20) 6 - 6

/-- `entry->pallocator` of the pbuf table, by the buffer tag of its size. -/
def MgrConfig.pallocator (c : MgrConfig) (btag : Nat) : Option Nat :=
  (List.range pbufNumSizeShifts).find? fun i => btag ≤ i ∧ c.pbuf_max_objs i ≠ 0

/-- `entry->smaller_pallocator` of the pbuf table. -/
def MgrConfig.smallerPallocator (c : MgrConfig) (btag : Nat) : Option Nat :=
  (List.range btag).reverse.find? fun i => c.pbuf_max_objs i ≠ 0

/-- The largest size of pvbufs there is an allocator for below a size, zero if there is none. -/
def MgrConfig.pvbufSizeBelow (c : MgrConfig) (size : Nat) : Nat :=
  ((List.range size).reverse.find? fun i => c.pvbuf_max_objs i ≠ 0).getD 0

/-- `entry->smaller_size` of the pvbuf table. The entries behind the largest size have that of the
largest size. -/
def MgrConfig.smallerSize (c : MgrConfig) (size : Nat) : Nat :=
  c.pvbufSizeBelow (min size (c.pvbufSizeBelow 16))

/-! ## pbufs -/

/-- `___xdp2_pbuf_alloc`. -/
def pbufObjAlloc (c : MgrConfig) (btag : Nat) : PvM (Option Nat) := do
  let s ← get
  match s.mgr.pbuf_free btag with
  | [] => return none
  | zindex :: rest =>
    set { s with
      mgr.pbuf_free := fun b => if b = btag then rest else s.mgr.pbuf_free b
      mgr.refcnt := fun b z =>
        if !c.alloc_one_ref ∧ b = btag ∧ z = zindex then 1 else s.mgr.refcnt b z }
    return some zindex

/-- `xdp2_pbuf_make_paddr`, with `base` null. -/
def pbufMakePaddr (make_1ref : Bool) (size_shift zindex offset length : Nat) : PvM PbufAddr := do
  assert (6 ≤ size_shift ∧ size_shift ≤ 20) "Make pbuf address: size must between inclusive"
  assert (zindex < 2 ^ (36 - size_shift)) "Make pbuf address: index is too big for size shift"
  assert (offset + length ≤ 2 ^ size_shift)
    "Make pbuf address: offset plus length is greater then size shift"
  return {
    one_ref := make_1ref
    buffer_tag := BitVec.ofNat 4
      (if size_shift = 20 ∧ length = 2 ^ 20 then pbufNumSizeShifts else size_shift - 6)
    offset := BitVec.ofNat 36 (zindex <<< size_shift ||| offset)
    data_length := 0 }

/-- `__xdp2_pbuf_alloc`. -/
def pbufAlloc (c : MgrConfig) (size : Nat) (tail_alloc : Bool) : PvM (Option PbufAddr) :=
  match c.pallocator (pbufBufferTag size) with
  | none => if 0 < size then return none else throw .nullPtr
  | some btag =>
    if 2 ^ (btag + 6) < size then return none
    else do
      match ← pbufObjAlloc c btag with
      | none => return none
      | some zindex => do
        let offset := if tail_alloc then 2 ^ (btag + 6) - size else 0
        return some (← pbufMakePaddr c.alloc_one_ref (btag + 6) zindex offset size)

/-! ## Empty pvbufs -/

/-- The loop of `___xdp2_pvbuf_alloc` over smaller sizes. If there are pvbufs of size zero and all are in
use, it does not end. -/
def pvbufAllocSmaller (c : MgrConfig) : (turns : Nat) → (pvbuf_size : Nat) → PvM (Option Pvbuf)
  | 0, _ => throw .fuel
  | turns + 1, pvbuf_size => do
    if c.pvbuf_max_objs pvbuf_size = 0 then return none
    else
      match ← pvbufAlloc pvbuf_size with
      | some pv => return some pv
      | none => pvbufAllocSmaller c turns (c.smallerSize pvbuf_size)

/-- `__xdp2_pvbuf_alloc_empty`, which is `___xdp2_pvbuf_alloc` with `smaller_pvbuf_size` null. -/
def pvbufAllocEmpty (c : MgrConfig) (pvbuf_size : Nat) : PvM (Option Pvbuf) := do
  match ← pvbufAlloc pvbuf_size with
  | some pv => return some pv
  | none => pvbufAllocSmaller c 17 (c.smallerSize pvbuf_size)

/-! ## pvbufs with pbufs -/

/-- `__xdp2_pbuf_size_limit`. -/
def pbufSizeLimit (fact input : Nat) : Nat := (fact * input) >>> 16

/-- The allocator that the loop of `__xdp2_pvbuf_alloc_params` uses, by its buffer tag. -/
def chooseAllocator (c : MgrConfig) (fact size : Nat) : PvM Nat :=
  match c.pallocator (pbufBufferTag size), c.smallerPallocator (pbufBufferTag size) with
  | none, none => throw (.assertion "pbuf allocator table does not have a non-NULL allocator")
  | some btag, none => return btag
  | none, some smaller => return smaller
  | some btag, some smaller =>
    return if pbufSizeLimit fact (2 ^ (btag + 6)) < size then btag else smaller

/-- The end of a turn of the loop of `__xdp2_pvbuf_alloc_params`, with `alloc` for the turns to come:
where the slots but the last are used up, they are for another pvbuf. That pvbuf is at hand as such, so
it is put into its slot again when it is filled. -/
def allocNext (c : MgrConfig) (pvbuf_size : Nat) (alloc : Pvbuf → Nat → Nat → PvM (Pvbuf × Bool))
    (pv : Pvbuf) (pvbuf_off size : Nat) : PvM (Pvbuf × Bool) :=
  if pv.num - 2 ≤ pvbuf_off ∧ 0 < size then do
    match ← pvbufAllocEmpty c pvbuf_size with
    | none => return (pv, false)
    | some new => do
      let pv ← iovecSetPvbufEnt pv pvbuf_off new (if size < pvbufMaxLen then size else 0)
      let (new, ok) ← alloc new 0 size
      return (pv.set pvbuf_off ((pv.get pvbuf_off).relink new), ok)
  else alloc pv pvbuf_off size

/-- The loop of `__xdp2_pvbuf_alloc_params`, which ends with `goto alloc_fail` if the result is
`false`. -/
def allocPbufs (c : MgrConfig) (fact pvbuf_size : Nat) :
    (turns : Nat) → Pvbuf → (pvbuf_off size : Nat) → PvM (Pvbuf × Bool)
  | 0, pv, _, size => if size = 0 then return (pv, true) else throw .fuel
  | turns + 1, pv, pvbuf_off, size =>
    if size = 0 then return (pv, true)
    else do
      let btag ← chooseAllocator c fact size
      match ← pbufObjAlloc c btag with
      | none => return (pv, false)
      | some zindex => do
        let len := min (2 ^ (btag + 6)) size
        let a ← pbufMakePaddr c.alloc_one_ref (btag + 6) zindex 0 len
        let pv ← iovecSetPaddrEnt pv pvbuf_off (.pbuf a) .null len
        allocNext c pvbuf_size (allocPbufs c fact pvbuf_size turns) pv (pvbuf_off + 1)
          (size - 2 ^ (btag + 6))

/-- `__xdp2_pvbuf_alloc_params`. -/
def pvbufAllocParams (c : MgrConfig) (size_req fact pvbuf_off : Nat) : PvM (Option Pvbuf) := do
  -- `ssize_t size = size_req`, and the loop is for positive sizes
  let size := (BitVec.ofNat 64 size_req).toInt.toNat
  let pvbuf_size ← pvbufGetSize c
  match ← pvbufAlloc pvbuf_size with
  | none => return none
  | some pv => do
    paddrToAddr c pv
    assert (pvbuf_off < pv.num - 1)
      "In PVbuf allocate pvbuf offset must be less than number of iovecs minus 1"
    let (pv, ok) ← allocPbufs c fact pvbuf_size size pv pvbuf_off size
    if ok then return some pv
    else
      pvbufFree c (size + 1) pv
      return none

end Xdp2
