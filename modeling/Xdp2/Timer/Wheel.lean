import Xdp2.Lib.Locked
import Xdp2.Bitmap.Find

/-!
# The timer wheel

`timer.c`: timers hang in the lists of the wheel's slots, a bitmap has the slots in use, and running
the wheel takes the due timers off their lists and calls them. The functions are programs under the
wheel's mutex, let go of only for callbacks: a release carries the timers whose callbacks are due.

Times are numbers below `2 ^ 64`. What a function reads of the clock is an argument, one reading for
each time. `pops` logs what is handed to `set_next_timer_pop`, `calls` the callbacks of a wheel that
one thread uses. Statistics and the debug field `where` are left out. Two loops take fuel: a slot is
scanned again after eight callbacks, and a run starts over when asked to.
-/

namespace Xdp2

open Locked

/-! ## Times -/

/-- A value stored in an `unsigned long`. -/
def ul (n : Nat) : Nat := n % 2 ^ 64

/-- `xdp2_seqno_ul_diff`. -/
def seqnoDiff (x y : Nat) : Nat := ul (x + 2 ^ 64 - y)

/-- `xdp2_seqno_ul_lt`. -/
def seqnoLt (x y : Nat) : Bool := decide (2 ^ 63 < seqnoDiff x y)

/-- `xdp2_seqno_ul_gte`. -/
def seqnoGte (x y : Nat) : Bool := !seqnoLt x y

/-- `xdp2_seqno_ul_gt`. -/
def seqnoGt (x y : Nat) : Bool := decide (2 ^ 63 < seqnoDiff y x)

/-- `xdp2_seqno_ul_lte`. -/
def seqnoLte (x y : Nat) : Bool := !seqnoGt x y

/-! ## Data -/

/-- A `struct xdp2_timer` of the caller. -/
abbrev TimerId := Nat

/-- `struct xdp2_timer`, without the callback and the list links. -/
structure Timer where
  timer_set : Bool := false
  gen : Nat := 0
  index : Nat := 0

/-- `struct xdp2_timer_wheel`, the timers it is used with, and what it has handed out. -/
structure Wheel where
  num_slots : Nat
  slot_bitmap : Bitmap 64
  next_expire_time : Nat
  last_runtime : Nat
  timer_count : Int
  running : Bool
  run_again : Bool
  slots : Nat → List TimerId
  timers : TimerId → Timer
  pops : List Nat
  calls : List TimerId

/-- A wheel in zeroed memory, with zeroed timers. -/
def Wheel.zero (num_slots : Nat) : Wheel where
  num_slots := num_slots
  slot_bitmap _ := 0
  next_expire_time := 0
  last_runtime := 0
  timer_count := 0
  running := false
  run_again := false
  slots _ := []
  timers _ := {}
  pops := []
  calls := []

/-- The expiration of a timer: `(gen * wheel->num_slots) + index`. -/
def Wheel.expiration (w : Wheel) (t : TimerId) : Nat :=
  (w.timers t).gen * w.num_slots + (w.timers t).index

/-- The timer is set. -/
def Wheel.IsSet (w : Wheel) (t : TimerId) : Prop := (w.timers t).timer_set = true

instance (w : Wheel) (t : TimerId) : Decidable (w.IsSet t) := by
  unfold Wheel.IsSet; infer_instance

/-- How an operation ends without returning. -/
inductive WheelErr where
  | assertion
  | fuel
  deriving DecidableEq

/-- An operation under the wheel's mutex. -/
abbrev WheelM := Prog WheelErr Wheel (List TimerId)

/-- `XDP2_ASSERT`. -/
def wheelAssert (cond : Bool) : WheelM Unit := if cond then pure () else fail .assertion

/-! ## Adding and removing -/

/-- Take a timer off the list of a slot. -/
def Wheel.unlink (w : Wheel) (index : Nat) (t : TimerId) : Wheel :=
  { w with
    slots := Function.update w.slots index ((w.slots index).erase t)
    timers := Function.update w.timers t { w.timers t with timer_set := false }
    timer_count := w.timer_count - 1 }

/-- Clear the bit of a slot without timers. -/
def Wheel.clearIfEmpty (w : Wheel) (index : Nat) : Wheel :=
  if (w.slots index).isEmpty then { w with slot_bitmap := w.slot_bitmap.unset index } else w

/-- Put a timer at the head of the list of its slot. -/
def Wheel.link (w : Wheel) (t : TimerId) (expire_time : Nat) : Wheel :=
  let index := expire_time % w.num_slots
  { w with
    slots := Function.update w.slots index (t :: w.slots index)
    slot_bitmap := w.slot_bitmap.set index
    timers := Function.update w.timers t ⟨true, expire_time / w.num_slots, index⟩
    timer_count := w.timer_count + 1 }

/-- `set_next_timer_pop`, for a wheel with an external pop timer. -/
def Wheel.setNextTimerPop (w : Wheel) : Wheel := { w with pops := w.pops ++ [w.next_expire_time] }

/-- `timer_remove_locked`. -/
def timerRemoveLocked (t : TimerId) : WheelM Unit := do
  let w ← get
  wheelAssert (w.timers t).timer_set
  let index := (w.timers t).index
  set ((w.unlink index t).clearIfEmpty index)

/-- `xdp2_timer_remove`. -/
def xdp2TimerRemove (t : TimerId) : WheelM Bool := do
  let w ← get
  if (w.timers t).timer_set then
    timerRemoveLocked t
  return w.running

/-- The wheel with a new time to expire; where the pop timer was not running, the time counts as
the last run. -/
def Wheel.expireAt (w : Wheel) (expire_time current_time : Nat) : Wheel :=
  { w with
    last_runtime := if w.next_expire_time = w.last_runtime then current_time else w.last_runtime
    next_expire_time := expire_time }

/-- The new timer expires before the pop timer does, or the pop timer is not running. -/
def Wheel.NeedsPop (w : Wheel) (expire_time : Nat) : Prop :=
  seqnoLt expire_time w.next_expire_time = true ∨ w.next_expire_time = w.last_runtime

instance (w : Wheel) (e : Nat) : Decidable (w.NeedsPop e) := by
  unfold Wheel.NeedsPop; infer_instance

/-- The part of `__xdp2_timer_add` from the set-up of the timer on. -/
def setupTimer (t : TimerId) (expire_time current_time : Nat) : WheelM Unit := do
  modify fun w => w.link t expire_time
  let w ← get
  if w.NeedsPop expire_time then
    let w' := w.expireAt expire_time current_time
    wheelAssert (seqnoGt w'.next_expire_time w'.last_runtime)
    set w'.setNextTimerPop

/-- The delay of a timer, which is at least one. -/
def atLeastOne (delay : Nat) : Nat := if delay = 0 then 1 else delay

/-- `__xdp2_timer_add`, at the time `current_time`. -/
def xdp2TimerAdd (t : TimerId) (delay : Nat) (not_running : Bool) (current_time : Nat) :
    WheelM Unit := do
  let expire_time := ul (current_time + atLeastOne delay)
  wheelAssert (seqnoGt expire_time current_time)
  let w ← get
  if (w.timers t).timer_set then
    if not_running then return ()
    else
      timerRemoveLocked t
      setupTimer t expire_time current_time
  else setupTimer t expire_time current_time

/-! ## Running the wheel -/

/-- The loop over the timers of a slot: those found due, and whether they are a full batch. -/
def scanSlot (index gen_mx old_gen_mx : Nat) : List TimerId → List TimerId →
    WheelM (List TimerId × Bool)
  | [], cbs => return (cbs, false)
  | timer :: rest, cbs => do
    let w ← get
    let t_gen_mx := ul ((w.timers timer).gen * w.num_slots)
    wheelAssert (seqnoGte t_gen_mx old_gen_mx)
    if seqnoGt t_gen_mx gen_mx then scanSlot index gen_mx old_gen_mx rest cbs
    else
      set (w.unlink index timer)
      if 8 ≤ cbs.length + 1 then return (cbs ++ [timer], true)
      else scanSlot index gen_mx old_gen_mx rest (cbs ++ [timer])

/-- `run_slot`. -/
def runSlot (gen old_gen : Nat) : (fuel : Nat) → (index : Nat) → WheelM Unit
  | 0, _ => fail .fuel
  | fuel + 1, index => do
    let w ← get
    let r ← scanSlot index (ul (gen * w.num_slots)) (ul (old_gen * w.num_slots)) (w.slots index) []
    if r.2 then
      release r.1
      runSlot gen old_gen fuel index
    else
      modify fun w => w.clearIfEmpty index
      if r.1 ≠ [] then release r.1

/-- `xdp2_bitmap_foreach_bit` over the slots, once `index` has been found. The index grows on every
turn, so `turns` greater than `nbits` are enough. -/
def forEachSlot (body : Nat → WheelM Unit) (nbits : Nat) : (turns : Nat) → (index : Nat) →
    WheelM Unit
  | 0, _ => fail .fuel
  | turns + 1, index =>
    if index < nbits then do
      body index
      let w ← get
      forEachSlot body nbits turns (bitmapFindNext w.slot_bitmap index nbits)
    else return ()

/-- Run the slots in use from `index` on, below `nbits`. -/
def runSlots (fuel : Nat) (gen old_gen index nbits : Nat) : WheelM Unit := do
  let w ← get
  forEachSlot (runSlot gen old_gen fuel) nbits (nbits + 1) (bitmapFind w.slot_bitmap index nbits)

/-- What is left of the generations before the new one; the index to go on from. -/
def runOldGens (fuel : Nat) (w : Wheel) (old_gen new_gen : Nat) : WheelM Nat :=
  let index := w.last_runtime % w.num_slots
  if old_gen = new_gen then return index
  else if old_gen + 1 = new_gen then do
    runSlots fuel (new_gen - 1) old_gen index w.num_slots
    return 0
  else do
    runSlots fuel (ul (new_gen + 2 ^ 64 - 1)) old_gen 0 w.num_slots
    return 0

/-- Find the time of the next run. -/
def Wheel.findNextPop (w : Wheel) (new_gen last_index : Nat) : Wheel :=
  let index := bitmapFind w.slot_bitmap last_index w.num_slots
  if index < w.num_slots then
    { w with next_expire_time := ul (new_gen * w.num_slots + index) }.setNextTimerPop
  else
    let index := bitmapFind w.slot_bitmap 0 last_index
    if index < last_index then
      { w with next_expire_time := ul ((new_gen + 1) * w.num_slots + index) }.setNextTimerPop
    else w

/-- One pass of `__xdp2_run_timer_wheel_locked` at the time `current_time`, with `running` set. -/
def runPass (fuel : Nat) (current_time : Nat) : WheelM Unit := do
  let w ← get
  let old_gen := w.last_runtime / w.num_slots
  let new_gen := ul (current_time + 1) / w.num_slots
  wheelAssert (seqnoLte w.last_runtime current_time)
  let index ← runOldGens fuel w old_gen new_gen
  let last_index := ul (current_time + 1) % w.num_slots
  runSlots fuel new_gen old_gen index last_index
  modify fun w => { w with last_runtime := current_time }.findNextPop new_gen last_index

/-- `__xdp2_run_timer_wheel_locked`; `now` has the readings of the clock, the last one first. -/
def runTimerWheelLocked (fuel : Nat) (now : Nat → Nat) : (retries : Nat) → WheelM Unit
  | 0 => fail .fuel
  | retries + 1 => do
    let w ← get
    if w.running then set { w with run_again := true }
    else
      set { w with running := true }
      runPass fuel (now retries)
      let w ← get
      if w.run_again then
        set { w with run_again := false, running := false }
        runTimerWheelLocked fuel now retries
      else set { w with running := false }

/-- `xdp2_run_timer_wheel`. -/
def xdp2RunTimerWheel (fuel : Nat) (now : Nat → Nat) : WheelM Unit :=
  runTimerWheelLocked fuel now fuel

end Xdp2
