import Xdp2.Pvbuf.Mgr

/-!
# Popping headers and trailers

`__xdp2_pvbuf_pop_hdrs` and `__xdp2_pvbuf_pop_trailers` with all they call, among them the two ways
a tree is made flatter, `__xdp2_pvbuf_check_single` and `__xdp2_pvbuf_try_iovec_uplevel`. A call on
a sub-pvbuf, which the source changes in place, is followed by putting the result back. Recursive
functions take the number of levels they may go down. `copyptr` is a flag, with the bytes copied in
the state: headers behind, trailers before, what is there.
-/

namespace Xdp2

open BitWord

/-! ## Freeing -/

/-- The body of the loop of `__xdp2_pvbuf_free`, with `free` for the recursive call. -/
def pvbufFreeBody (c : MgrConfig) (free : Pvbuf → PvM Unit) (i : Nat) (pv : Pvbuf) :
    PvM (Turn Pvbuf) := do
  assert (!(pv.get i).isNull) "Address is NULL in iterate iovec"
  match pv.get i with
  | .pvbuf _ sub => do
    free sub
    return .next i (← iovecUnsetEnt pv i)
  | .pbuf a => do
    pbufFree c a
    return .next i (← iovecUnsetEnt pv i)
  | .short a => do
    shortAddrFree a
    return .next i (← iovecUnsetEnt pv i)
  | w => do
    longAddrFree w (pv.get (i + 1))
    let pv ← iovecUnsetEnt pv i
    let set ← iovecMapIsset pv (i + 1)
    assert set "Expected map bit of second word of long addr set in pvbuf iterate"
    return .next (i + 1) (← iovecUnsetEnt pv (i + 1))

/-- `__xdp2_pvbuf_free`. -/
def pvbufFree (c : MgrConfig) : (depth : Nat) → Pvbuf → PvM Unit
  | 0, _ => throw .fuel
  | depth + 1, pv => do
    paddrToAddr c pv
    let pv ← forBits .fuel PvbufOf.iovec_map (pvbufFreeBody c (pvbufFree c depth)) 0 pv
    objAllocFree c pv

/-- `__xdp2_pvbuf_paddr_free_iovec`. -/
def paddrFreeIovec (c : MgrConfig) (pv : Pvbuf) (i : Nat) : PvM Pvbuf := do
  assert (!(pv.get i).isNull) "Free iovec iovec is NULL"
  match pv.get i with
  | .pbuf a => do
    pbufFree c a
    iovecUnsetEnt pv i
  | .short a => do
    shortAddrFree a
    iovecUnsetEnt pv i
  | .pvbuf _ _ => throw (.assertion "Free iovec: unexpected paddr type")
  | w => do
    longAddrFree w (pv.get (i + 1))
    let pv ← iovecUnsetEnt pv (i + 1)
    iovecUnsetEnt pv i

/-! ## Compression -/

/-- `__xdp2_pvbuf_check_single`: the iovec, or the only iovec of the pvbuf in it. -/
def checkSingle (c : MgrConfig) (iovec : Iovec) : PvM Iovec :=
  match iovec with
  | .pvbuf data_length pv => do
    paddrToAddr c pv
    if weight pv.iovec_map ≠ 1 then
      return .pvbuf data_length pv
    else
      assert (find pv.iovec_map < pv.num) "Bad index in pvbuf check single"
      objAllocFree c pv
      return pv.get (find pv.iovec_map)
  | _ => throw (.assertion "Checking for a single buf iovec but the iovec type is not a pvbuf")

/-- The variables of the loop of `__xdp2_pvbuf_try_iovec_uplevel`. -/
structure Uplevel where
  pvbuf : Pvbuf
  old_pvbuf : Pvbuf
  j : Nat

/-- The body of the loop of `__xdp2_pvbuf_try_iovec_uplevel`: one iovec goes up. -/
def uplevelBody (i : Nat) (u : Uplevel) : PvM (Turn Uplevel) := do
  let pvbuf ← iovecMapSet (u.pvbuf.set u.j (u.old_pvbuf.get i)) u.j
  let old_pvbuf ← iovecClearEnt u.old_pvbuf i
  return .next i ⟨pvbuf, old_pvbuf, u.j + 1⟩

/-- `__xdp2_pvbuf_try_iovec_uplevel`. -/
def tryIovecUplevel (c : MgrConfig) (pv : Pvbuf) : PvM Pvbuf := do
  if weight pv.iovec_map ≠ 1 then
    return pv
  else
    let i := find pv.iovec_map
    assert (i < pv.num) "Bad index try iovec uplevel"
    match pv.get i with
    | .pvbuf _ old =>
      if pv.num < old.num then
        return pv
      else do
        paddrToAddr c old
        let pv ← iovecClearEnt pv i
        let u ← forBits .fuel (fun u => u.old_pvbuf.iovec_map) uplevelBody 0 ⟨pv, old, 0⟩
        objAllocFree c u.old_pvbuf
        return u.pvbuf
    | _ => return pv

/-! ## Headers -/

/-- `memcpy` to `*copyptr`, which moves up behind the bytes. -/
def copyOut (copy : Bool) (bytes : List UInt8) : PvM Unit :=
  if copy then modify fun s => { s with out := s.out ++ bytes } else return ()

/-- The word of a long address is moved to another offset. -/
def PvbufOf.setOffset (pv : Pvbuf) (i : Nat) (a : LongAddr) (b : LongAddr2) (offset : Nat)
    (data_length : BitVec 32) : Pvbuf :=
  (pv.set i (.long { a.setOffset offset with data_length := data_length })).set (i + 1)
    (.long2 (b.setOffset offset))

/-- An iovec gives up its first `n` bytes, fewer than it has. -/
def dropFront (pv : Pvbuf) (i n : Nat) : PvM Pvbuf :=
  match pv.get i with
  | .pbuf a => return pv.set i (.pbuf { a with
      offset := a.offset + BitVec.ofNat 36 n
      data_length := a.data_length - BitVec.ofNat 20 n })
  | .short a => return pv.set i (.short { a with
      offset := a.offset + BitVec.ofNat 44 n
      data_length := a.data_length - BitVec.ofNat 18 n })
  | .pvbuf _ _ => throw (.assertion "Pop from paddr: unexpected paddr type")
  | w => do
    let (a, b) ← longAddrCheck w (pv.get (i + 1))
    return pv.setOffset i a b ((a.offset b + n) % 2 ^ 64) (a.data_length - BitVec.ofNat 32 n)

/-- `__xdp2_pvbuf_pop_from_paddr_iovec`. -/
def popFromPaddrIovec (c : MgrConfig) (copy : Bool) (pv : Pvbuf) (i n : Nat) :
    PvM (Pvbuf × Nat) := do
  let seg ← getPtrLen pv i
  let mem := (← get).mgr.mem
  if seg.len ≤ n then do
    copyOut copy (readBytes (seg.region mem) seg.offset seg.len)
    let pv ← paddrFreeIovec c pv i
    return (pv, n - seg.len)
  else do
    copyOut copy (readBytes (seg.region mem) seg.offset n)
    assert (!(pv.get i).isNull) "Pop from paddr iovec is NULL"
    let pv ← dropFront pv i n
    return (pv, 0)

/-- The functions that pop from a sub-pvbuf, for one level. -/
structure PopFns where
  pop : Pvbuf → Nat → PvM (Pvbuf × Nat)
  free : Pvbuf → PvM Unit

/-- An iovec whose pvbuf has the known length `len`. -/
def popFromKnown (c : MgrConfig) (f : PopFns) (compress copy : Bool) (pv : Pvbuf) (i n : Nat)
    (data_length : BitVec 32) (sub : Pvbuf) : PvM (Pvbuf × Nat) :=
  if data_length.toNat ≤ n then do
    if copy then
      let (sub', dropped_bytes) ← f.pop sub n
      assert (dropped_bytes = data_length.toNat) "Dropped bytes does not equal iovec->length"
      f.free sub'
    else
      f.free sub
    let pv ← iovecUnsetEnt pv i
    return (pv, n - data_length.toNat)
  else do
    let (sub', dropped_bytes) ← f.pop sub n
    assert (dropped_bytes = n) "Removing bytes from a pvbuf iovec"
    let iovec := Iovec.pvbuf (data_length - BitVec.ofNat 32 dropped_bytes) sub'
    let iovec ← if compress then checkSingle c iovec else pure iovec
    return (pv.set i iovec, n - dropped_bytes)

/-- An iovec whose pvbuf has no known length. -/
def popFromUnknown (f : PopFns) (pv : Pvbuf) (i n : Nat) (sub : Pvbuf) : PvM (Pvbuf × Nat) := do
  let (sub', dropped_bytes) ← f.pop sub n
  if dropped_bytes < n then
    let pv ← iovecUnsetEnt pv i
    f.free sub'
    return (pv, n - dropped_bytes)
  else
    assert (dropped_bytes = n) "Number of dropped bytes is greater than the number of bytes to drop"
    if sub.num ≤ find sub'.iovec_map then
      let pv ← iovecUnsetEnt pv i
      f.free sub'
      return (pv, n - dropped_bytes)
    else
      return (pv.set i (.pvbuf 0 sub'), n - dropped_bytes)

/-- `__xdp2_pvbuf_pop_from_pvbuf_iovec`. -/
def popFromPvbufIovec (c : MgrConfig) (f : PopFns) (compress copy : Bool) (pv : Pvbuf) (i n : Nat) :
    PvM (Pvbuf × Nat) :=
  match pv.get i with
  | .pvbuf data_length sub => do
    paddrToAddr c sub
    if data_length ≠ 0 then popFromKnown c f compress copy pv i n data_length sub
    else popFromUnknown f pv i n sub
  | _ => throw (.assertion "Getting length from a pvbuf paddr")

/-- The variables of the loops: the pvbuf and the bytes left to drop. -/
structure Popping where
  pvbuf : Pvbuf
  num_drop_bytes : Nat

/-- The end of a turn: nothing is left to drop, or the loop goes on from the position. -/
def Popping.turn (i : Nat) (p : Popping) : Turn Popping :=
  if p.num_drop_bytes = 0 then .done p else .next i p

/-- `if (compress && XDP2_IOVEC_IS_PVBUF(iovec)) __xdp2_pvbuf_check_single(iovec)`. -/
def checkSingleAt (c : MgrConfig) (compress : Bool) (pv : Pvbuf) (i : Nat) : PvM Pvbuf := do
  if compress ∧ (pv.get i).tag = .pvbuf then
    let iovec ← checkSingle c (pv.get i)
    return pv.set i iovec
  else
    return pv

/-- The body of the loop of `__xdp2_pvbuf_pop_hdrs`. -/
def popHdrsBody (c : MgrConfig) (f : PopFns) (compress copy : Bool) (i : Nat) (p : Popping) :
    PvM (Turn Popping) := do
  assert (!(p.pvbuf.get i).isNull) "Pop hdrs iovec is NULL"
  match (p.pvbuf.get i).tag with
  | .pvbuf => do
    let (pv, left) ← popFromPvbufIovec c f compress copy p.pvbuf i p.num_drop_bytes
    let pv ← checkSingleAt c compress pv i
    return Popping.turn i ⟨pv, left⟩
  | .longAddr => do
    let (pv, left) ← popFromPaddrIovec c copy p.pvbuf i p.num_drop_bytes
    return Popping.turn (i + 1) ⟨pv, left⟩
  | .pbuf | .shortAddr => do
    let (pv, left) ← popFromPaddrIovec c copy p.pvbuf i p.num_drop_bytes
    return Popping.turn i ⟨pv, left⟩

/-- What follows the loop: the array may go up a level. -/
def popEnd (c : MgrConfig) (compress : Bool) (n : Nat) (p : Popping) : PvM (Pvbuf × Nat) := do
  let pv ← if compress then tryIovecUplevel c p.pvbuf else pure p.pvbuf
  return (pv, n - p.num_drop_bytes)

/-- `__xdp2_pvbuf_pop_hdrs`: the pvbuf, and the number of bytes dropped. -/
def popHdrs (c : MgrConfig) (compress copy : Bool) : (depth : Nat) → Pvbuf → Nat → PvM (Pvbuf × Nat)
  | 0, _, _ => throw .fuel
  | depth + 1, pv, n => do
    paddrToAddr c pv
    if n = 0 then
      return (pv, 0)
    else
      let f : PopFns := ⟨popHdrs c compress copy depth, pvbufFree c depth⟩
      let p ← forBits .fuel (fun p => p.pvbuf.iovec_map) (popHdrsBody c f compress copy) 0 ⟨pv, n⟩
      popEnd c compress n p

/-! ## Trailers -/

/-- `memcpy` to the bytes below `*copyptr`, which moves down by as many. -/
def copyOutBelow (copy : Bool) (bytes : List UInt8) : PvM Unit :=
  if copy then modify fun s => { s with out := bytes ++ s.out } else return ()

/-- An iovec gives up its last `n` bytes, fewer than it has. -/
def dropBack (pv : Pvbuf) (i n : Nat) : PvM Pvbuf :=
  match pv.get i with
  | .pbuf a => return pv.set i (.pbuf { a with data_length := a.data_length - BitVec.ofNat 20 n })
  | .short a =>
    return pv.set i (.short { a with data_length := a.data_length - BitVec.ofNat 18 n })
  | .long a => return pv.set i (.long { a with data_length := a.data_length - BitVec.ofNat 32 n })
  | _ => throw (.assertion "Pop trailers from paddr: unexpected paddr type")

/-- `__xdp2_pvbuf_pop_trailers_from_paddr_iovec`. -/
def popTrailersFromPaddrIovec (c : MgrConfig) (copy : Bool) (pv : Pvbuf) (i n : Nat) :
    PvM (Pvbuf × Nat) := do
  let seg ← getPtrLen pv i
  let mem := (← get).mgr.mem
  if seg.len ≤ n then do
    copyOutBelow copy (readBytes (seg.region mem) seg.offset seg.len)
    let pv ← paddrFreeIovec c pv i
    return (pv, n - seg.len)
  else do
    copyOutBelow copy (readBytes (seg.region mem) (seg.offset + seg.len - n) n)
    assert (!(pv.get i).isNull) "Pop trailers for paddr iovec is NULL"
    let pv ← dropBack pv i n
    return (pv, 0)

/-- `__xdp2_pvbuf_pop_trailers_from_pvbuf_iovec`, the sibling of
`__xdp2_pvbuf_pop_from_pvbuf_iovec`. Whether the slot is cleared before or after the pvbuf is freed,
in which the two differ, is not seen here. -/
def popTrailersFromPvbufIovec (c : MgrConfig) (f : PopFns) (compress copy : Bool) (pv : Pvbuf)
    (i n : Nat) : PvM (Pvbuf × Nat) :=
  popFromPvbufIovec c f compress copy pv i n

/-- The body of the loop of `__xdp2_pvbuf_pop_trailers`. A long address is met at its second
word. -/
def popTrailersBody (c : MgrConfig) (f : PopFns) (compress copy : Bool) (i : Nat) (p : Popping) :
    PvM (Turn Popping) := do
  assert (!(p.pvbuf.get i).isNull) "Bitmap is set but slot is NULL"
  match (p.pvbuf.get i).tag with
  | .pvbuf => do
    let (pv, left) ← popTrailersFromPvbufIovec c f compress copy p.pvbuf i p.num_drop_bytes
    return Popping.turn i ⟨pv, left⟩
  | .longAddr => do
    let (pv, left) ← popTrailersFromPaddrIovec c copy p.pvbuf (i - 1) p.num_drop_bytes
    return Popping.turn (i - 1) ⟨pv, left⟩
  | .pbuf | .shortAddr => do
    let (pv, left) ← popTrailersFromPaddrIovec c copy p.pvbuf i p.num_drop_bytes
    return Popping.turn i ⟨pv, left⟩

/-- `__xdp2_pvbuf_pop_trailers`: the pvbuf, and the number of bytes dropped. -/
def popTrailers (c : MgrConfig) (compress copy : Bool) :
    (depth : Nat) → Pvbuf → Nat → PvM (Pvbuf × Nat)
  | 0, _, _ => throw .fuel
  | depth + 1, pv, n => do
    paddrToAddr c pv
    if n = 0 then
      return (pv, 0)
    else
      let f : PopFns := ⟨popTrailers c compress copy depth, pvbufFree c depth⟩
      let p ← forBitsRev .fuel (fun p => p.pvbuf.iovec_map) (popTrailersBody c f compress copy)
        (pv.num - 1) ⟨pv, n⟩
      popEnd c compress n p

end Xdp2
