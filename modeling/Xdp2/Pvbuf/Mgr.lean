import Xdp2.Pvbuf.Types

/-!
# The packet buffer manager

The state of `struct xdp2_pvbuf_mgr`: the reference counts of the pbufs, the free lists for pbufs
(one for each buffer tag) and pvbufs (one for each size), and the memory of the pbufs, since a freed
object holds a link in its first bytes. A failed `XDP2_ASSERT` is `Fault.assertion`. Objects are
named by their zero-based index. What a short or long address region does when an address is freed
or referred to again is recorded, and takes nothing away. Counters of allocations and frees are left
out.
-/

namespace Xdp2

/-! ## State -/

/-- What the initialisation of a manager fixes. An allocator that is not set up has no objects. -/
structure MgrConfig where
  /-- `max_objs` of the pbuf allocators. -/
  pbuf_max_objs : Nat → Nat
  /-- `max_objs` of the pvbuf allocators. -/
  pvbuf_max_objs : Nat → Nat
  /-- An index fits the field of a paddr. -/
  pvbuf_max_objs_le : ∀ size, pvbuf_max_objs size ≤ 2 ^ 24
  random_pvbuf_size : Bool := false
  alloc_one_ref : Bool := false
  default_pvbuf_size : Nat
  /-- The default is one of the sizes. -/
  default_pvbuf_size_lt : default_pvbuf_size < 16
  /-- The bytes of the link to a free list, which depend on where the objects lie. -/
  link : Nat → List Nat → Nat → UInt8 := fun _ _ _ => 0

theorem zero_lt_pvbuf_sizes : 0 < 16 := by decide

/-- `struct xdp2_pvbuf_mgr`. -/
structure Mgr where
  mem : Mem
  /-- `refcnt` of the pbuf allocators. -/
  refcnt : Nat → Nat → BitVec 32
  /-- The free lists of the pbuf allocators. -/
  pbuf_free : Nat → List Nat
  /-- The free lists of the pvbuf allocators. -/
  pvbuf_free : Nat → List Nat
  /-- The results of the calls of `random()` to come. -/
  random : Nat → Nat := fun _ => 0
  /-- The short and long addresses given back to their regions. -/
  ext_freed : List Seg := []
  /-- The short and long addresses their regions were told of another reference to. -/
  ext_bumped : List Seg := []

/-- The manager, and the bytes written through `copyptr`. -/
structure PvSt where
  mgr : Mgr
  out : List UInt8 := []

/-- Why a run does not return: a failed assertion, a recursion deeper than the tree or a loop that
does not end, a slot read whose map bit is clear or that is behind the array, an allocator that
there is not, or a division by zero. -/
inductive Fault where
  | assertion (label : String)
  | fuel
  | clearSlot (i : Nat)
  | nullPtr
  | divByZero
  deriving DecidableEq, Repr

/-- Computations on pvbufs. -/
abbrev PvM := EStateM Fault PvSt

/-- `XDP2_ASSERT`. -/
def assert (cond : Bool) (label : String) : PvM Unit :=
  if cond then return () else throw (.assertion label)

/-! ## Object allocators -/

/-- Put an object on the free list of a pbuf allocator: its first eight bytes become the link. -/
def Mgr.pushPbuf (m : Mgr) (c : MgrConfig) (btag zindex : Nat) : Mgr :=
  { m with
    mem.pbuf := fun b o =>
      if b = btag ∧ zindex <<< (btag + 6) ≤ o ∧ o < zindex <<< (btag + 6) + 8 then
        c.link btag (m.pbuf_free btag) (o - zindex <<< (btag + 6))
      else m.mem.pbuf b o
    pbuf_free := fun b => if b = btag then zindex :: m.pbuf_free b else m.pbuf_free b }

/-- `xdp2_obj_alloc_free_by_index` on a pbuf allocator. -/
def freePbufByIndex (c : MgrConfig) (btag zindex : Nat) : PvM Unit := do
  assert (zindex < c.pbuf_max_objs btag) "Illegal allocator index"
  modify fun s => { s with mgr := s.mgr.pushPbuf c btag zindex }

/-- `xdp2_obj_alloc_free` on a pvbuf allocator. -/
def objAllocFree (c : MgrConfig) (pv : Pvbuf) : PvM Unit := do
  assert (pv.index.toNat + 1 ≤ c.pvbuf_max_objs pv.pvbuf_size.toNat) "Free object: Bad index"
  modify fun s => { s with
    mgr.pvbuf_free := fun size =>
      if size = pv.pvbuf_size.toNat then pv.index.toNat :: s.mgr.pvbuf_free size
      else s.mgr.pvbuf_free size }

/-- `__xdp2_pvbuf_paddr_to_addr`: the object itself is at hand, what is left is the check of the
index. -/
def paddrToAddr (c : MgrConfig) (pv : Pvbuf) : PvM Unit :=
  assert (pv.index.toNat < c.pvbuf_max_objs pv.pvbuf_size.toNat) "Illegal allocator index"

/-- `__xdp2_pvbuf_get_size`. -/
def pvbufGetSize (c : MgrConfig) : PvM Nat := do
  if c.random_pvbuf_size then
    let s ← get
    set { s with mgr.random := fun k => s.mgr.random (k + 1) }
    return s.mgr.random 0 % 16
  else
    return c.default_pvbuf_size

/-- A pvbuf object after `memset`. -/
def PvbufOf.zero (size : BitVec 4) (index : BitVec 24) : Pvbuf where
  pvbuf_size := size
  index := index
  iovec_map := 0
  iovec := List.replicate (numIovecs size.toNat) .null

/-- `___xdp2_pvbuf_alloc` where the caller takes the size (`smaller_pvbuf_size` set), which does not
fall back to a smaller one. -/
def pvbufAlloc (pvbuf_size : Nat) : PvM (Option Pvbuf) := do
  assert (pvbuf_size < 16) "Bad pvbuf alloc size"
  let s ← get
  match s.mgr.pvbuf_free pvbuf_size with
  | [] => return none
  | index :: rest =>
    assert (index < 2 ^ 24) "Make pvbuf paddr but index is greater then maximum index"
    set { s with
      mgr.pvbuf_free := fun size =>
        if size = pvbuf_size then rest else s.mgr.pvbuf_free size }
    return some (.zero (BitVec.ofNat 4 pvbuf_size) (BitVec.ofNat 24 index))

/-! ## Freeing what a paddr names -/

/-- `__xdp2_pbuf_free`. -/
def pbufFree (c : MgrConfig) (a : PbufAddr) : PvM Unit := do
  let refcnt := (← get).mgr.refcnt a.btag a.zindex
  if a.one_ref then
    assert (refcnt = 0) "Freeing single refcnt pbuf has refcnt"
    freePbufByIndex c a.btag a.zindex
  else
    modify fun s => { s with
      mgr.refcnt := fun b z => if b = a.btag ∧ z = a.zindex then refcnt - 1 else s.mgr.refcnt b z }
    if refcnt ≠ 1 then return () else freePbufByIndex c a.btag a.zindex

/-- `__xdp2_paddr_short_addr_free`. -/
def shortAddrFree (a : ShortAddr) : PvM Unit :=
  modify fun s => { s with mgr.ext_freed := s.mgr.ext_freed ++ [.short a] }

/-- `__xdp2_paddr_long_addr_check`. -/
def longAddrCheck (w1 w2 : Iovec) : PvM (LongAddr × LongAddr2) :=
  match w1, w2 with
  | .long a, .long2 b => return (a, b)
  | _, _ => throw (.assertion "Address is not a long address")

/-- `__xdp2_paddr_long_addr_free`. -/
def longAddrFree (w1 w2 : Iovec) : PvM Unit := do
  let (a, b) ← longAddrCheck w1 w2
  modify fun s => { s with mgr.ext_freed := s.mgr.ext_freed ++ [.long a b] }

/-! ## Slots -/

/-- `xdp2_pvbuf_iovec_map_set`. -/
def iovecMapSet (pv : Pvbuf) (i : Nat) : PvM Pvbuf := do
  assert (i < 64) "Setting bad bit index in PVbuf bitmap"
  return pv.setBit i

/-- `xdp2_pvbuf_iovec_map_isset`. -/
def iovecMapIsset (pv : Pvbuf) (i : Nat) : PvM Bool := do
  assert (i < 64) "Doing isset on bad bit index in PVbuf bitmap"
  return pv.iovec_map.getLsbD i

/-- `xdp2_pvbuf_iovec_clear_ent`. -/
def iovecClearEnt (pv : Pvbuf) (i : Nat) : PvM Pvbuf := do
  assert (i < 64) "Unsetting bad bit index in PVbuf bitmap"
  return pv.clear i

/-- `xdp2_pvbuf_iovec_unset_ent`. -/
def iovecUnsetEnt (pv : Pvbuf) (i : Nat) : PvM Pvbuf := do
  assert (!(pv.get i).isNull) "Unsetting iovec in pvbuf but entry is NULL"
  let set ← iovecMapIsset pv i
  assert set "Unsetting iovec in pvbuf but bitmap is unset"
  iovecClearEnt pv i

/-- `__xdp2_pvbuf_get_ptr_len_from_iovec` with `last_iovec` false. -/
def getPtrLen (pv : Pvbuf) (i : Nat) : PvM Seg :=
  match pv.get i with
  | .pbuf a => return .pbuf a
  | .short a => return .short a
  | .pvbuf _ _ => throw (.assertion "Get ptr/len from iovec: unexpected paddr type")
  | .null => throw (.assertion "Address is NULL instead of long in paddr get ptr len from iovec")
  | w => do
    let (a, b) ← longAddrCheck w (pv.get (i + 1))
    return .long a b

end Xdp2
