import Xdp2.Pvbuf.Clone
import Xdp2.Pvbuf.Length

/-!
# Segmenting a packet

`__xdp2_pvpkt_segment` and `__xdp2_pvpkt_segment_cb` with all they call, and `__xdp2_pvpkt_iterate`,
which reads the packet vector they make: a chain of pvbufs, where a slot in use is a packet, the
paddr of its data or a pvbuf, and the last slot leads to the next pvbuf.

A callback is given the iovec of a packet and returns it as it is then. `__xdp2_pvpkt_iterate` looks
pvbufs up in the global manager, which is the manager here.
-/

namespace Xdp2

open BitWord

/-! ## Making packets -/

/-- `struct __xdp2_pvbuf_iter_segment`. The fields no function reads are left out; `priv` is part of the
callback. -/
structure IterSegment where
  clone_iter : IterClone
  segment_length : Nat
  pvbuf_list_size : Nat := 0
  packet_need_length : Nat := 0
  cb : Option (Iovec → PvM (Iovec × Int)) := none
  pvbufs_only : Bool := false

/-- The cached length of the pvbuf an iovec leads to, with what a callback has added. -/
def Iovec.addLen (ret : Nat) : Iovec → Iovec
  | .pvbuf data_length sub =>
    if data_length = 0 then .pvbuf data_length sub
    else .pvbuf (BitVec.ofNat 32 (if ret + data_length.toNat < pvbufMaxLen then ret + data_length.toNat
      else 0)) sub
  | x => x

/-- `__xdp2_pvpkt_iterate_do_cb`. -/
def iterateDoCb (ist : IterSegment) : PvM (IterSegment × Bool) :=
  match ist.cb with
  | none => return (ist, true)
  | some cb => do
    let i := ist.clone_iter.index - 1
    let (iovec, ret) ← cb (ist.clone_iter.pvbuf.get i)
    let set (x : Iovec) : IterSegment :=
      { ist with clone_iter.pvbuf := ist.clone_iter.pvbuf.set i x }
    if ret = 0 then return (set iovec, true)
    else if ret < 0 then return ({ set iovec with clone_iter.error := true }, false)
    else return (set (iovec.addLen ret.toNat), true)

/-- The call for the packet before, when a new one is started. -/
def closePacket (ist : IterSegment) : PvM (IterSegment × Bool) :=
  if ist.clone_iter.index ≠ 0 then iterateDoCb ist else return (ist, true)

/-- Another pvbuf is put at the end of the packet list if `num_slots` more slots, and the last one, are
not free. For a long address one slot more is asked for. -/
def packetRoom (ist : IterSegment) (is_long_addr : Bool) : PvM (IterSegment × Bool) :=
  let num_slots := 1 + is_long_addr.toNat
  if ist.clone_iter.num_iovecs - num_slots - is_long_addr.toNat ≤ ist.clone_iter.index then do
    let (cist, ok) ← checkCloneAddIovec ist.clone_iter false ist.pvbuf_list_size
    return ({ ist with clone_iter := cist }, ok)
  else return (ist, true)

/-- The segment is all in the paddr, which goes into the packet list. -/
def putPaddr (ist : IterSegment) (seg : Seg) (size : Nat) : PvM (IterSegment × Option Nat) := do
  let cist := ist.clone_iter
  let pvbuf ← iovecSetPaddrEntAndBumpRefcnt cist.pvbuf cist.index seg.paddr1 seg.paddr2 size
  return ({ ist with
    clone_iter := { cist with
      pvbuf := pvbuf
      index := cist.index + (1 + seg.paddr1.isLongAddr.toNat) } }, some size)

/-- A pvbuf for the packet, with the paddr in it, goes into the packet list. -/
def putPvbuf (c : MgrConfig) (ist : IterSegment) (seg : Seg) (size : Nat) :
    PvM (IterSegment × Option Nat) := do
  let cist := ist.clone_iter
  let pvbuf_size ← pvbufGetSize c
  match ← pvbufAlloc pvbuf_size with
  | none => return ({ ist with clone_iter.error := true }, none)
  | some new => do
    let new ← iovecSetPaddrEntAndBumpRefcnt new 2 seg.paddr1 seg.paddr2 size
    let pvbuf ← iovecSetPvbufEnt cist.pvbuf cist.index new size
    return ({ ist with
      packet_need_length := min ist.segment_length cist.length - size
      clone_iter := { cist with pvbuf := pvbuf, index := cist.index + 1 } }, some size)

/-- The block of the loop that starts a packet: how many bytes of the paddr are in it, or that the
iterator ends. -/
def startPacket (c : MgrConfig) (ist : IterSegment) (seg : Seg) (data_len : Nat) :
    PvM (IterSegment × Option Nat) := do
  let (ist, ok) ← closePacket ist
  if !ok then
    return (ist, none)
  else
    let (ist, ok) ← packetRoom ist seg.paddr1.isLongAddr
    if !ok then
      return (ist, none)
    else if !ist.pvbufs_only ∧
        (ist.segment_length ≤ data_len ∨ data_len = ist.clone_iter.length) then
      putPaddr ist seg (min ist.segment_length data_len)
    else
      putPvbuf c ist seg (min ist.segment_length data_len)

/-- The block of the loop that goes on with a packet. -/
def fillPacket (c : MgrConfig) (ist : IterSegment) (seg : Seg) (data_len : Nat) :
    PvM (IterSegment × Option Nat) := do
  let cist := ist.clone_iter
  let size := min ist.packet_need_length data_len
  match cist.pvbuf.get (cist.index - 1) with
  | .pvbuf data_length sub => do
    let (sub, ok) ← appendPaddr c false seg.paddr1 seg.paddr2 size sub.levels sub
    if !ok then
      return ({ ist with clone_iter := { cist with
        pvbuf := cist.pvbuf.set (cist.index - 1) (.pvbuf data_length sub), error := true } }, none)
    else
      pvbufPaddrBumpRefcnt seg.paddr1 seg.paddr2
      return ({ ist with
        packet_need_length := ist.packet_need_length - size
        clone_iter.pvbuf := cist.pvbuf.set (cist.index - 1)
          ((Iovec.pvbuf data_length sub).addLen size) }, some size)
  | _ => throw (.assertion "Append to a paddr that is not a pvbuf")

/-- The body of the loop, up to the sums at its end. -/
def segmentTurn (c : MgrConfig) (ist : IterSegment) (seg : Seg) (data_len : Nat) :
    PvM (IterSegment × Option Nat) :=
  if ist.packet_need_length = 0 then startPacket c ist seg data_len else fillPacket c ist seg data_len

/-- The loop of `__xdp2_pvpkt_iterate_segment_pvbuf`: whether the iterator goes on. A turn takes at least
a byte. -/
def segmentLoop (c : MgrConfig) : (turns : Nat) → IterSegment → Seg → (data_len : Nat) →
    PvM (IterSegment × Bool)
  | 0, ist, _, data_len => if data_len = 0 then return (ist, true) else throw .fuel
  | turns + 1, ist, seg, data_len =>
    if data_len = 0 then return (ist, true)
    else do
      let (ist, size) ← segmentTurn c ist seg data_len
      match size with
      | none => return (ist, false)
      | some size => segmentLoop c turns ist (seg.addToOffset size) (data_len - size)

/-- `__xdp2_pvpkt_iterate_segment_pvbuf`. -/
def iterateSegmentPvbuf (c : MgrConfig) (pv : Pvbuf) (i : Nat) (ist : IterSegment) :
    PvM (Iter IterSegment) := do
  let (pv, cist, ret) ← iterateIovecCloneCommon pv i ist.clone_iter
  let ist := { ist with clone_iter := cist }
  match ret with
  | .abort => return ⟨pv, ist, false⟩
  | .skip => return ⟨pv, ist, true⟩
  | .paddr seg data_len => do
    let (ist, ok) ← segmentLoop c data_len ist seg data_len
    if !ok then
      return ⟨pv, ist, false⟩
    else
      return ⟨pv, { ist with clone_iter.length := ist.clone_iter.length - data_len }, true⟩

/-- `xdp2_round_up_div`: the divisor is an `unsigned int`. -/
def roundUpDiv (x r : Nat) : PvM Nat :=
  if r % 2 ^ 32 = 0 then throw .divByZero
  else return (x + (r % 2 ^ 32 - 1)) % 2 ^ 64 / (r % 2 ^ 32)

/-- `-ENOMEM`. -/
def enomem : Int := -12

/-- What `___xdp2_pvpkt_segment` does when the iterator is through, and what it returns. -/
def segmentEnd (orig_length : Nat) (t : Iter IterSegment) : PvM (Iter IterSegment × Int) := do
  if t.priv.clone_iter.error then return (t, enomem)
  else
    let (ist, ok) ← closePacket t.priv
    if !ok then return ({ t with priv := ist }, 0)
    else return ({ t with priv := ist },
      (BitVec.ofNat 64 (orig_length - ist.clone_iter.length)).toInt)

/-- `___xdp2_pvpkt_segment`. -/
def pvpktSegmentIter (c : MgrConfig) (depth : Nat) (pv : Pvbuf) (ist : IterSegment) :
    PvM (Iter IterSegment × Int) := do
  if ist.segment_length = 0 then return (⟨pv, ist, true⟩, -1)
  else
    let num_segs := (← roundUpDiv ist.clone_iter.length ist.segment_length) % 2 ^ 32
    let t ← iterateIovec c (iterateSegmentPvbuf c) depth pv
      { ist with pvbuf_list_size := min (num_segs / 8) 15 }
    segmentEnd ist.clone_iter.length t

/-- What `__xdp2_pvpkt_segment` and `__xdp2_pvpkt_segment_cb` have in common: the pvbuf as it is left, and
the packet vector with the length segmented, if there is no error. With a callback all packets are
pvbufs. -/
def pvpktSegmentWith (c : MgrConfig) (depth : Nat) (cb : Option (Iovec → PvM (Iovec × Int))) (pv : Pvbuf)
    (offset length segment_size : Nat) : PvM (Pvbuf × Option (Pvbuf × Nat)) := do
  let pvbuf_size ← pvbufGetSize c
  match ← pvbufAlloc pvbuf_size with
  | none => return (pv, none)
  | some new => do
    let (t, ret) ← pvpktSegmentIter c depth pv
      { clone_iter := { length := length, offset := offset, pvbuf := new }
        segment_length := segment_size
        cb := cb
        pvbufs_only := cb.isSome }
    let vector := t.priv.clone_iter.paddr
    if ret < 0 then
      pvbufFree c vector.levels vector
      return (t.pvbuf, none)
    else
      return (t.pvbuf, some (vector, ret.toNat))

/-- `__xdp2_pvpkt_segment`. -/
def pvpktSegment (c : MgrConfig) (depth : Nat) : Pvbuf → (offset length segment_size : Nat) →
    PvM (Pvbuf × Option (Pvbuf × Nat)) := pvpktSegmentWith c depth none

/-- `__xdp2_pvpkt_segment_cb`. -/
def pvpktSegmentCb (c : MgrConfig) (depth : Nat) (cb : Iovec → PvM (Iovec × Int)) : Pvbuf →
    (offset length segment_size : Nat) → PvM (Pvbuf × Option (Pvbuf × Nat)) :=
  pvpktSegmentWith c depth (some cb)

/-! ## Reading packets -/

section
variable {σ : Type}

/-- The body of the loop of `__xdp2_pvpkt_iterate` over a pvbuf: the pvbuf to go on with is the second
part of the state. The function called is given the pvbuf and the slot of the iovec. -/
def pvpktIterateBody (c : MgrConfig) (func : Pvbuf → Nat → σ → PvM (σ × Bool)) (pv : Pvbuf) (i : Nat)
    (t : σ × Option Pvbuf) : PvM (Turn (σ × Option Pvbuf)) :=
  if i = pv.num - 1 then
    match pv.get i with
    | .pvbuf _ sub => do
      paddrToAddr c sub
      return .done (t.1, some sub)
    | _ => throw (.assertion "iovec in pvpkt is not a pvbuf")
  else do
    let (priv, cont) ← func pv i t.1
    return if cont then .next i (priv, none) else .done (priv, none)

/-- `__xdp2_pvpkt_iterate`. -/
def pvpktIterate (c : MgrConfig) (func : Pvbuf → Nat → σ → PvM (σ × Bool)) :
    (depth : Nat) → Pvbuf → σ → PvM σ
  | 0, _, _ => throw .fuel
  | depth + 1, pv, priv => do
    paddrToAddr c pv
    let (priv, next) ← forBits .fuel (fun _ => pv.iovec_map) (pvpktIterateBody c func pv) 0 (priv, none)
    match next with
    | some sub => pvpktIterate c func depth sub priv
    | none => return priv

end

/-- The leaves of the packet that an iovec of a packet vector is, if it is one. -/
def packetSegs : Iovec → Iovec → Option (List Seg)
  | .pbuf a, _ => some [.pbuf a]
  | .short a, _ => some [.short a]
  | .pvbuf _ sub, _ => some sub.segs
  | .long a, .long2 b => some [.long a b]
  | _, _ => none

/-- A function for the iterator that notes the packets it is called with. -/
def notePacket (pv : Pvbuf) (i : Nat) (l : List (Option (List Seg))) :
    PvM (List (Option (List Seg)) × Bool) :=
  return (l ++ [packetSegs (pv.get i) (pv.get (i + 1))], true)

end Xdp2
