import Xdp2.Pvbuf.Insert

/-!
# Prepending and appending a pvbuf

`__xdp2_pvbuf_prepend_pvbuf` and `__xdp2_pvbuf_append_pvbuf` with all they call. With compression a
pvbuf `src` with fewer than two slots in use is dissolved: what is in its only slot is put in
instead, and the object is freed. The recursive functions take one number for the levels they may go
down, in the pvbuf or in `src`.
-/

namespace Xdp2

open BitWord

/-! ## Dissolving a pvbuf -/

/-- `&pvbuf->iovec[i]`, read for its paddr. -/
def iovecRead (pv : Pvbuf) (i : Nat) : PvM Iovec :=
  if pv.iovec_map.getLsbD i then return pv.get i else throw (.clearSlot i)

/-- `weight = xdp2_pvbuf_iovec_map_weight(pvbuf) <= 1`: what is assigned is the comparison. -/
def weightLeOne (pv : Pvbuf) : Nat := (decide (weight pv.iovec_map ≤ 1)).toNat

/-- The functions for the end of the packet at which a pvbuf is dissolved. -/
structure InsertFns where
  paddr : Iovec → Iovec → Nat → Pvbuf → PvM (Pvbuf × Bool)
  pvbuf : Pvbuf → Nat → Pvbuf → PvM (Pvbuf × Bool)

/-- What is in the only slot of `src` is put in, and `src` is freed. -/
def pvbufCompress (c : MgrConfig) (f : InsertFns) (pv src : Pvbuf) (length weight : Nat) :
    PvM (Pvbuf × Bool) := do
  paddrToAddr c src
  let (pv, ret) ← if weight ≠ 0 then do
      let iovec ← iovecRead src (find src.iovec_map)
      match iovec with
      | .pbuf a => f.paddr (.pbuf a) .null a.dataLen pv
      | .short a => f.paddr (.short a) .null a.dataLen pv
      | .pvbuf _ sub => f.pvbuf sub length pv
      | _ => throw (.assertion "Encountering long address in pvbuf where weight is <= 1")
    else pure (pv, true)
  if ret then objAllocFree c src
  return (pv, ret)

/-! ## Prepending -/

/-- `xdp2_pvbuf_iovec_set_pvbuf_ent`. -/
def iovecSetPvbufEnt (pv : Pvbuf) (i : Nat) (src : Pvbuf) (len : Nat) : PvM Pvbuf :=
  iovecSetPaddrEnt pv i (.pvbuf 0 src) .null len

/-- `__xdp2_pvbuf_prepend_pvbuf_compress`. -/
def prependPvbufCompress (c : MgrConfig) (depth : Nat)
    (prependPvbuf : Pvbuf → Nat → Pvbuf → PvM (Pvbuf × Bool)) (pv src : Pvbuf)
    (length weight : Nat) : PvM (Pvbuf × Bool) :=
  pvbufCompress c ⟨fun w1 w2 len => prependPaddr c true w1 w2 len depth, prependPvbuf⟩ pv src length
    weight

/-- `__xdp2_pvbuf_prepend_pvbuf_into_iovec`, with `insert` for the recursive call. -/
def prependPvbufIntoIovec (c : MgrConfig) (insert : Pvbuf → PvM (Pvbuf × Bool)) (compress : Bool)
    (pv : Pvbuf) (index : Nat) (src : Pvbuf) (length : Nat) : PvM (Pvbuf × Bool) := do
  assert (!(pv.get index).isNull) "__xdp2_pvbuf_prepend_pbuf_pullup iovec is NULL"
  assert (!(pv.get index).isNull) "In pvbuf prepend pvbuf into iovec iovec is NULL"
  match pv.get index with
  | .pvbuf data_length sub => do
    let (pv, ret) ← insertIntoSub insert pv index data_length sub length
    if !ret then
      return (pv, false)
    else if compress then
      let iovec ← checkSingle c (pv.get index)
      return (pv.set index iovec, true)
    else
      return (pv, true)
  | _ => prependPaddrNewPvbuf c pv index (.pvbuf 0 src) .null length

/-- `___xdp2_pvbuf_prepend_pvbuf`. -/
def prependPvbufBackend (c : MgrConfig) (insert : Pvbuf → PvM (Pvbuf × Bool)) (compress : Bool)
    (pv src : Pvbuf) (length : Nat) : PvM (Pvbuf × Bool) := do
  paddrToAddr c pv
  let (pv, i) ← findPrependSlot compress pv
  if i < pv.num then
    let pv ← iovecSetPvbufEnt pv i src length
    return (pv, true)
  else
    prependPvbufIntoIovec c insert compress pv 0 src length

/-- `__xdp2_pvbuf_prepend_pvbuf`: the pvbuf, and whether `src` is in it. -/
def prependPvbuf (c : MgrConfig) : (depth : Nat) → (compress : Bool) → (src : Pvbuf) →
    (length : Nat) → Pvbuf → PvM (Pvbuf × Bool)
  | 0, _, _, _, _ => throw .fuel
  | depth + 1, compress, src, length, pv => do
    paddrToAddr c pv
    paddrToAddr c src
    if compress ∧ weightLeOne src ≠ 0 then
      prependPvbufCompress c (depth + 1) (prependPvbuf c depth true) pv src length (weightLeOne src)
    else
      let i := find pv.iovec_map
      if 0 < i then
        let pv ← iovecSetPvbufEnt pv (min i pv.num - 1) src length
        return (pv, true)
      else
        prependPvbufBackend c (prependPvbuf c depth compress src length) compress pv src length

/-! ## Appending -/

/-- `__xdp2_pvbuf_append_pvbuf_compress`. -/
def appendPvbufCompress (c : MgrConfig) (depth : Nat)
    (appendPvbuf : Pvbuf → Nat → Pvbuf → PvM (Pvbuf × Bool)) (pv src : Pvbuf)
    (length weight : Nat) : PvM (Pvbuf × Bool) :=
  pvbufCompress c ⟨fun w1 w2 len => appendPaddr c true w1 w2 len depth, appendPvbuf⟩ pv src length
    weight

/-- `__xdp2_pvbuf_append_pvbuf_into_iovec`, with `insert` for the recursive call. Other than for
headers, the sub-pvbuf is not looked at again. -/
def appendPvbufIntoIovec (c : MgrConfig) (insert : Pvbuf → PvM (Pvbuf × Bool)) (pv : Pvbuf)
    (index : Nat) (src : Pvbuf) (length : Nat) (index_set : Bool) : PvM (Pvbuf × Bool) :=
  if !index_set then do
    let pv ← iovecSetPvbufEnt pv index src length
    return (pv, true)
  else
    match pv.get index with
    | .pvbuf data_length sub => insertIntoSub insert pv index data_length sub length
    | _ => appendPaddrNewPvbuf c pv index (.pvbuf 0 src) .null length index_set

/-- `___xdp2_pvbuf_append_pvbuf`. -/
def appendPvbufBackend (c : MgrConfig) (insert : Pvbuf → PvM (Pvbuf × Bool)) (compress : Bool)
    (pv src : Pvbuf) (length : Nat) : PvM (Pvbuf × Bool) := do
  paddrToAddr c pv
  let (pv, index) ← findAppendSlot compress pv
  if index < pv.num then
    let pv ← iovecSetPvbufEnt pv index src length
    return (pv, true)
  else
    let last_set ← iovecMapIsset pv (pv.num - 1)
    appendPvbufIntoIovec c insert pv (pv.num - 1) src length last_set

/-- `__xdp2_pvbuf_append_pvbuf`: the pvbuf, and whether `src` is in it. -/
def appendPvbuf (c : MgrConfig) : (depth : Nat) → (compress : Bool) → (src : Pvbuf) →
    (length : Nat) → Pvbuf → PvM (Pvbuf × Bool)
  | 0, _, _, _, _ => throw .fuel
  | depth + 1, compress, src, length, pv => do
    paddrToAddr c pv
    paddrToAddr c src
    if compress ∧ weightLeOne src ≠ 0 then
      appendPvbufCompress c (depth + 1) (appendPvbuf c depth true) pv src length (weightLeOne src)
    else
      let i := revFind pv.iovec_map
      if i < pv.num - 1 then
        let pv ← iovecSetPvbufEnt pv (i + 1) src length
        return (pv, true)
      else
        appendPvbufBackend c (appendPvbuf c depth compress src length) compress pv src length

end Xdp2
