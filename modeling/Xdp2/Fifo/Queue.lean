import Xdp2.Lib.Locked
import Xdp2.Lib.Ring

/-!
# FIFOs

`fifo.h`, the software implementation: a ring of entries under the FIFO's mutex, and for each side
the bit of the FIFO in a poll group, under that group's mutex. The functions are programs in
sections, one for each time a mutex is held; what is done under different mutexes does not touch the
same data.

A poll group stands for its two bits at the number of the FIFO. Statistics, magic numbers and
address translation are left out; a waiter may wake at any time, and takes fuel for how often.
-/

namespace Xdp2

open Locked

/-! ## Data -/

/-- `struct xdp2_fifo`. The conditional variables are here only for whether they are set. -/
structure Fifo where
  num_ents : BitVec 32
  low_water_mark : BitVec 32
  ent_size : BitVec 8
  producer : BitVec 32 := 0
  consumer : BitVec 32 := 0
  queue_full : Bool := false
  consumer_cond : Bool := false
  producer_cond : Bool := false
  queue : Nat → BitVec 64 := fun _ => 0

/-- The bits of a FIFO in the bitmaps `fifos_ready` and `fifos_mask` of a poll group. -/
structure PollBits where
  ready : Bool := false
  mask : Bool := false

/-- The two ways to poll for a FIFO. -/
inductive PollSide where
  | read
  | write
  deriving DecidableEq

/-- A FIFO and the poll groups it is bound to. -/
structure FifoState where
  fifo : Fifo
  poll : PollSide → Option PollBits := fun _ => none

/-- How a call ends that does not return: an assertion fails, or it is still waiting. -/
inductive FifoErr where
  | assertion (text : String)
  | waiting

/-- Where a call stands that has let go of a mutex. -/
inductive FifoLabel where
  /-- It has not begun. -/
  | call
  /-- It goes on to its next section. -/
  | unlock
  /-- It waits for a condition. -/
  | condWait
  /-- It has marked the full FIFO non-writable, and is to look whether that is still right. -/
  | recheck
  /-- It has set the mask, and is to look whether the FIFO is ready. -/
  | enabled (side : PollSide)

/-- Programs on a FIFO. -/
abbrev FifoM := Prog FifoErr FifoState FifoLabel

/-! ## Status -/

namespace Fifo

/-- The producer's index less the consumer's, around the end. -/
def distance (f : Fifo) : BitVec 32 := (f.producer - f.consumer + f.num_ents) % f.num_ents

/-- `xdp2_fifo_sw_num_in_queue`. -/
def numInQueue (f : Fifo) : BitVec 32 :=
  if f.producer = f.consumer ∧ f.queue_full then f.num_ents else f.distance

/-- `xdp2_fifo_sw_avail_in_queue`. -/
def availInQueue (f : Fifo) : BitVec 32 := f.num_ents - f.numInQueue

/-- `xdp2_fifo_sw_is_empty`. -/
def isEmpty (f : Fifo) : Bool := decide (f.consumer = f.producer) && !f.queue_full

/-- `xdp2_fifo_sw_is_full`. -/
def isFull (f : Fifo) : Bool := decide (f.consumer = f.producer) && f.queue_full

/-- `__xdp2_fifo_init`. -/
def init (num_ents ent_size low_water_mark : BitVec 32) : Fifo where
  num_ents := num_ents
  low_water_mark := low_water_mark
  ent_size := ent_size.setWidth 8

/-! ## The ring -/

/-- The word of the queue at which an entry starts. -/
def offset (f : Fifo) (i : BitVec 32) : Nat := (i * f.ent_size.setWidth 32).toNat

/-- The index behind `i`. -/
def next (f : Fifo) (i : BitVec 32) : BitVec 32 := (i + 1) % f.num_ents

/-- The work of queuing. -/
def put (f : Fifo) (messagep : List (BitVec 64)) : Fifo :=
  { f with
    queue := Ring.write f.queue (f.offset f.producer) messagep
    producer := f.next f.producer
    queue_full := f.queue_full || decide (f.consumer = f.next f.producer) }

/-- The consumer goes on to the next entry. -/
def advance (f : Fifo) : Fifo := { f with consumer := f.next f.consumer }

/-- The queue is marked full and its occupancy has fallen below the low water mark. -/
def unblocked (f : Fifo) : Bool := f.queue_full && decide (f.distance < f.low_water_mark)

/-- The work of taking an entry off. -/
def take (f : Fifo) : Fifo :=
  if f.advance.unblocked then { f.advance with queue_full := false } else f.advance

end Fifo

/-! ## Poll groups -/

/-- Set the ready bit of a FIFO that is enabled. -/
def PollBits.makeReady (b : PollBits) : PollBits := { b with ready := b.ready || b.mask }

/-- A change to the bits of one side. -/
def FifoState.mapPoll (s : FifoState) (side : PollSide) (g : PollBits → PollBits) : FifoState :=
  { s with poll := Function.update s.poll side ((s.poll side).map g) }

/-- The common part of `xdp2_fifo_make_readable` and `xdp2_fifo_make_writable`. -/
def makeReady (side : PollSide) : FifoM Unit := do
  let s ← get
  if (s.poll side).isSome then
    release .unlock
    modify fun s => s.mapPoll side PollBits.makeReady
  else pure ()

/-- `xdp2_fifo_make_readable`. -/
def makeReadable : FifoM Unit := makeReady .read

/-- `xdp2_fifo_make_writable`. -/
def makeWritable : FifoM Unit := makeReady .write

/-- The common part of `xdp2_fifo_mark_non_readable` and `xdp2_fifo_mark_non_writable`. -/
def markNonReady (side : PollSide) : FifoM Unit := do
  let s ← get
  if (s.poll side).isSome then
    release .unlock
    modify fun s => s.mapPoll side fun b => { b with ready := false }
  else pure ()

/-- `xdp2_fifo_mark_non_readable`. -/
def markNonReadable : FifoM Unit := markNonReady .read

/-- `xdp2_fifo_mark_non_writable`. -/
def markNonWritable : FifoM Unit := markNonReady .write

/-- A mutex is released, and a part of the source that stands under a condition follows. -/
def unlockThen (cond : Bool) (p : FifoM Unit) : FifoM Unit :=
  if cond then do
    release .unlock
    p
  else pure ()

/-- The common part of `xdp2_fifo_enable_read_poll` and `xdp2_fifo_enable_write_poll`, where
`isReady` says whether the side is ready. -/
def enablePoll (side : PollSide) (isReady : Fifo → Bool) : FifoM Unit := do
  let s ← get
  if (s.poll side).isSome then
    modify fun s => s.mapPoll side fun b => { b with mask := true }
    release (.enabled side)
    let s ← get
    unlockThen (isReady s.fifo) (makeReady side)
  else pure ()

/-- `xdp2_fifo_enable_read_poll`. -/
def enableReadPoll : FifoM Unit := enablePoll .read fun f => decide (f.numInQueue ≠ 0)

/-- `xdp2_fifo_enable_write_poll`. -/
def enableWritePoll : FifoM Unit := enablePoll .write fun f => decide (f.availInQueue ≠ 0)

/-! ## Enqueue and dequeue -/

/-- Wait on a conditional variable of the FIFO, until it is not `blocked` any more. -/
def condWait (blocked : Fifo → Bool) : (fuel : Nat) → FifoM Unit
  | 0 => fail .waiting
  | fuel + 1 => do
    release .condWait
    let s ← get
    if blocked s.fifo then condWait blocked fuel else pure ()

/-- The FIFO has been filled: it is not writable, unless entries have been taken off meanwhile. -/
def becameFull : FifoM Unit := do
  markNonWritable
  release .recheck
  let s ← get
  unlockThen (decide (s.fifo.numInQueue < s.fifo.low_water_mark)) makeWritable

/-- `___xdp2_fifo_sw_enqueue`, once there is space on the queue. -/
def enqueueWork (messagep : List (BitVec 64)) : FifoM Bool := do
  let s ← get
  let f := s.fifo.put messagep
  set { s with fifo := f }
  unlockThen (decide (f.consumer = f.producer)) becameFull
  unlockThen (decide (s.fifo.producer = s.fifo.consumer)) makeReadable
  return true

/-- `___xdp2_fifo_sw_enqueue`. -/
def swEnqueue (messagep : List (BitVec 64)) (wait : Bool) (fuel : Nat) : FifoM Bool := do
  let s ← get
  if s.fifo.ent_size.toNat < messagep.length then
    fail (.assertion "FIFO enqueue: dwords greater than FIFO element size")
  else if s.fifo.isFull then
    if wait then
      if s.fifo.producer_cond then
        condWait Fifo.isFull fuel
        enqueueWork messagep
      else fail (.assertion "Waiting on FIFO enqueue but cond is not set for FIFO")
    else return false
  else enqueueWork messagep

/-- `xdp2_fifo_make_non_readable_after_dequeue`. -/
def makeNonReadableAfterDequeue : FifoM Unit := do
  markNonReadable
  release .unlock
  let s ← get
  unlockThen (!s.fifo.isEmpty) makeReadable

/-- `___xdp2_fifo_sw_dequeue`, once there is an entry. -/
def dequeueWork (num : Nat) : FifoM (Option (List (BitVec 64))) := do
  let s ← get
  let messagep := Ring.segment s.fifo.queue (s.fifo.offset s.fifo.consumer) num
  let f := s.fifo.advance
  set { s with fifo := s.fifo.take }
  unlockThen f.unblocked makeWritable
  unlockThen (decide (f.producer = f.consumer)) makeNonReadableAfterDequeue
  return some messagep

/-- `___xdp2_fifo_sw_dequeue`; the message, where it returns true. -/
def swDequeue (num : Nat) (wait : Bool) (fuel : Nat) : FifoM (Option (List (BitVec 64))) := do
  let s ← get
  if s.fifo.ent_size.toNat < num then
    fail (.assertion "FIFO dequeue: dwords greater than FIFO element size")
  else if s.fifo.isEmpty then
    if wait then
      if s.fifo.consumer_cond then
        condWait Fifo.isEmpty fuel
        dequeueWork num
      else fail (.assertion "Waiting on FIFO dequeue but cond is not set for FIFO")
    else
      release .unlock
      makeNonReadableAfterDequeue
      return none
  else dequeueWork num

/-- A call of a thread. -/
inductive FifoCall where
  | enqueue (messagep : List (BitVec 64)) (wait : Bool) (fuel : Nat)
  | dequeue (num : Nat) (wait : Bool) (fuel : Nat)
  | enableReadPoll
  | enableWritePoll

/-- The program of a call. -/
def FifoCall.prog : FifoCall → FifoM Unit
  | enqueue messagep wait fuel => do let _ ← swEnqueue messagep wait fuel
  | dequeue num wait fuel => do let _ ← swDequeue num wait fuel
  | enableReadPoll => Xdp2.enableReadPoll
  | enableWritePoll => Xdp2.enableWritePoll

/-! ## Occupancy -/

namespace Fifo

/-- The number of entries held. -/
def held (f : Fifo) : Nat :=
  let p := f.producer.toNat
  let c := f.consumer.toNat
  if p = c then if f.queue_full then f.num_ents.toNat else 0
  else if c < p then p - c
  else p + f.num_ents.toNat - c

/-- The indices are in range, and a queue that is marked full has not fallen below the low water
mark. -/
structure Ok (f : Fifo) : Prop where
  producer_lt : f.producer.toNat < f.num_ents.toNat
  consumer_lt : f.consumer.toNat < f.num_ents.toNat
  marked : f.queue_full = true → min f.low_water_mark.toNat f.num_ents.toNat ≤ f.held

section
variable {f : Fifo}

theorem Ok.init {num_ents : BitVec 32} (hpos : 0 < num_ents.toNat)
    (ent_size low_water_mark : BitVec 32) : (init num_ents ent_size low_water_mark).Ok where
  producer_lt := hpos
  consumer_lt := hpos
  marked h := by cases h

theorem next_toNat (hi : i.toNat < f.num_ents.toNat) :
    (f.next i).toNat = if i.toNat + 1 = f.num_ents.toNat then 0 else i.toNat + 1 := by
  have hn := f.num_ents.isLt
  rw [next, BitVec.toNat_umod, BitVec.toNat_add]
  have hone : (i.toNat + (1 : BitVec 32).toNat) % 2 ^ 32 = i.toNat + 1 :=
    Nat.mod_eq_of_lt (by simp; omega)
  rw [hone]
  split
  · rename_i heq
    rw [heq, Nat.mod_self]
  · rename_i hne
    exact Nat.mod_eq_of_lt (by omega)

theorem isFull_iff :
    f.isFull = true ↔ f.producer.toNat = f.consumer.toNat ∧ f.queue_full = true := by
  rw [isFull, Bool.and_eq_true, decide_eq_true_iff, eq_comm, BitVec.toNat_inj]

theorem isEmpty_iff :
    f.isEmpty = true ↔ f.producer.toNat = f.consumer.toNat ∧ f.queue_full = false := by
  rw [isEmpty, Bool.and_eq_true, decide_eq_true_iff, Bool.not_eq_true', eq_comm, BitVec.toNat_inj]

theorem put_queue_full (messagep : List (BitVec 64)) : (f.put messagep).queue_full = true ↔
    f.queue_full = true ∨ f.consumer.toNat = (f.next f.producer).toNat := by
  rw [put, Bool.or_eq_true, decide_eq_true_iff, BitVec.toNat_inj]

/-- The distance of the indices. Where the sum of the difference and the size wraps, it comes out too
small. -/
theorem distance_toNat (hp : f.producer.toNat < f.num_ents.toNat)
    (hc : f.consumer.toNat < f.num_ents.toNat) :
    f.distance.toNat =
      if f.producer.toNat = f.consumer.toNat then 0
      else if f.consumer.toNat < f.producer.toNat then
        if f.producer.toNat - f.consumer.toNat + f.num_ents.toNat < 2 ^ 32 then
          f.producer.toNat - f.consumer.toNat
        else f.producer.toNat - f.consumer.toNat + f.num_ents.toNat - 2 ^ 32
      else f.producer.toNat + f.num_ents.toNat - f.consumer.toNat := by
  have hn := f.num_ents.isLt
  have hsum : f.distance.toNat =
      (f.producer.toNat + f.num_ents.toNat - f.consumer.toNat) % 2 ^ 32 % f.num_ents.toNat := by
    rw [distance, BitVec.toNat_umod, BitVec.toNat_add, BitVec.toNat_sub]
    congr 1
    omega
  rw [hsum]
  split_ifs with heq hlt hwrap
  · rw [heq, Nat.add_sub_cancel_left, Nat.mod_eq_of_lt hn, Nat.mod_self]
  · have hin : (f.producer.toNat + f.num_ents.toNat - f.consumer.toNat) % 2 ^ 32 =
        f.producer.toNat - f.consumer.toNat + f.num_ents.toNat := by omega
    rw [hin, Nat.add_mod_right, Nat.mod_eq_of_lt (by omega)]
  · have hin : (f.producer.toNat + f.num_ents.toNat - f.consumer.toNat) % 2 ^ 32 =
        f.producer.toNat - f.consumer.toNat + f.num_ents.toNat - 2 ^ 32 := by omega
    rw [hin, Nat.mod_eq_of_lt (by omega)]
  · have hin : (f.producer.toNat + f.num_ents.toNat - f.consumer.toNat) % 2 ^ 32 =
        f.producer.toNat + f.num_ents.toNat - f.consumer.toNat := by omega
    rw [hin, Nat.mod_eq_of_lt (by omega)]

theorem distance_le_held (hp : f.producer.toNat < f.num_ents.toNat)
    (hc : f.consumer.toNat < f.num_ents.toNat) : f.distance.toNat ≤ f.held := by
  have hn := f.num_ents.isLt
  rw [distance_toNat hp hc, held]
  split_ifs <;> omega

theorem Ok.numInQueue_le (h : f.Ok) : f.numInQueue.toNat ≤ f.held := by
  rw [numInQueue]
  split
  · rename_i hfull
    rw [held, if_pos (congrArg _ hfull.1), if_pos hfull.2]
  · exact distance_le_held h.producer_lt h.consumer_lt

theorem Ok.numInQueue_eq (h : f.Ok) (hn : f.num_ents.toNat ≤ 2 ^ 31) :
    f.numInQueue.toNat = f.held := by
  have hp := h.producer_lt
  have hc := h.consumer_lt
  rw [numInQueue, held]
  split
  · rename_i hfull
    rw [if_pos (congrArg _ hfull.1), if_pos hfull.2]
  · rename_i hfull
    rw [distance_toNat hp hc]
    split_ifs with heq hqf <;> try omega
    exact absurd ⟨BitVec.eq_of_toNat_eq heq, hqf⟩ hfull

theorem Ok.held_le (h : f.Ok) : f.held ≤ f.num_ents.toNat := by
  have hp := h.producer_lt
  have hc := h.consumer_lt
  rw [held]
  split_ifs <;> omega

theorem Ok.isFull_iff_held (h : f.Ok) : f.isFull = true ↔ f.held = f.num_ents.toNat := by
  have hp := h.producer_lt
  have hc := h.consumer_lt
  rw [isFull_iff, held]
  split_ifs with heq hqf
  · exact ⟨fun _ => rfl, fun _ => ⟨heq, hqf⟩⟩
  · exact ⟨fun hfull => absurd hfull.2 hqf, fun hzero => by omega⟩
  · exact ⟨fun hfull => absurd hfull.1 heq, fun hdist => by omega⟩
  · exact ⟨fun hfull => absurd hfull.1 heq, fun hdist => by omega⟩

theorem Ok.isEmpty_iff_held (h : f.Ok) : f.isEmpty = true ↔ f.held = 0 := by
  have hp := h.producer_lt
  have hc := h.consumer_lt
  rw [isEmpty_iff, held]
  split_ifs with heq hqf
  · exact ⟨fun hempty => absurd hempty.2 (by rw [hqf]; decide), fun hzero => by omega⟩
  · exact ⟨fun _ => rfl, fun _ => ⟨heq, by simpa using hqf⟩⟩
  · exact ⟨fun hempty => absurd hempty.1 heq, fun hdist => by omega⟩
  · exact ⟨fun hempty => absurd hempty.1 heq, fun hdist => by omega⟩

/-! ### What the two operations do to it -/

theorem Ok.held_put (h : f.Ok) (hfull : f.isFull = false) :
    (f.put messagep).held = f.held + 1 := by
  have hp := h.producer_lt
  have hc := h.consumer_lt
  have hroom : ¬ (f.producer.toNat = f.consumer.toNat ∧ f.queue_full = true) := by
    rw [← isFull_iff, hfull]
    exact Bool.false_ne_true
  have hnext := next_toNat hp
  have hqf := put_queue_full (f := f) messagep
  simp only [held, put] at hqf ⊢
  simp only [hqf, hnext]
  split_ifs at * <;> grind

theorem Ok.put (h : f.Ok) (hfull : f.isFull = false) : (f.put messagep).Ok where
  producer_lt := by
    have hp := h.producer_lt
    simp only [Fifo.put, next_toNat hp]
    split <;> omega
  consumer_lt := h.consumer_lt
  marked hqf := by
    rcases (put_queue_full messagep).mp hqf with hbefore | hmet
    · rw [h.held_put hfull]
      exact le_trans (h.marked hbefore) (Nat.le_succ _)
    · have hheld : (f.put messagep).held = f.num_ents.toNat := by
        rw [held]
        exact (if_pos hmet.symm).trans (if_pos hqf)
      rw [hheld]
      exact min_le_right _ _

theorem take_eq : f.take =
    { f.advance with queue_full := f.queue_full && !f.advance.unblocked } := by
  rw [take]
  split
  · rename_i hun
    rw [hun, Bool.not_true, Bool.and_false]
  · rename_i hun
    rw [Bool.not_eq_true] at hun
    rw [hun, Bool.not_false, Bool.and_true]
    rfl

theorem advance_unblocked : f.advance.unblocked = true ↔
    f.queue_full = true ∧ f.advance.distance.toNat < f.low_water_mark.toNat := by
  rw [unblocked, Bool.and_eq_true, decide_eq_true_iff, BitVec.lt_def]
  rfl

theorem take_queue_full : f.take.queue_full = true ↔
    f.queue_full = true ∧ f.low_water_mark.toNat ≤ f.advance.distance.toNat := by
  rw [take_eq, Bool.and_eq_true, Bool.not_eq_true', ← Bool.not_eq_true, advance_unblocked, not_and,
    not_lt]
  exact and_congr_right fun hqf => ⟨fun hle => hle hqf, fun hle _ => hle⟩

theorem Ok.advance_lt (h : f.Ok) : f.advance.consumer.toNat < f.num_ents.toNat := by
  have hc := h.consumer_lt
  simp only [advance, next_toNat hc]
  split <;> omega

theorem Ok.held_take (h : f.Ok) (hempty : f.isEmpty = false) (hmark : 0 < f.low_water_mark.toNat) :
    f.take.held + 1 = f.held := by
  have hp := h.producer_lt
  have hc := h.consumer_lt
  have hsome : ¬ (f.producer.toNat = f.consumer.toNat ∧ f.queue_full = false) := by
    rw [← isEmpty_iff, hempty]
    exact Bool.false_ne_true
  have hnext := next_toNat hc
  have hqf := take_queue_full (f := f)
  have hdist := distance_toNat (f := f.advance) hp h.advance_lt
  rw [take_eq] at hqf ⊢
  simp only [held, advance] at hqf hdist ⊢
  simp only [hqf, hnext, hdist]
  split_ifs at * <;> grind

theorem Ok.take (h : f.Ok) : f.take.Ok := by
  have hp : f.take.producer.toNat < f.take.num_ents.toNat := by
    rw [take_eq]
    exact h.producer_lt
  have hc : f.take.consumer.toNat < f.take.num_ents.toNat := by
    rw [take_eq]
    exact h.advance_lt
  refine ⟨hp, hc, fun hqf => ?_⟩
  have hdist : f.take.distance = f.advance.distance := by
    rw [take_eq]
    rfl
  have hmark : f.take.low_water_mark = f.low_water_mark := by
    rw [take_eq]
    rfl
  calc min f.take.low_water_mark.toNat f.take.num_ents.toNat
      ≤ f.take.low_water_mark.toNat := min_le_left _ _
    _ ≤ f.take.distance.toNat := by rw [hdist, hmark]; exact (take_queue_full.mp hqf).2
    _ ≤ f.take.held := distance_le_held hp hc

end

end Fifo

end Xdp2
