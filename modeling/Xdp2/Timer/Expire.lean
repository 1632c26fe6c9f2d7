import Xdp2.Timer.Ops
import Xdp2.Timer.Sweep

/-!
# A wheel that one thread uses

Any sequence of adds, removals and runs at the times of a clock that does not go back, against the
set of timers the wheel stands for (`WheelOp.spec`). As long as all expirations are below `2 ^ 63`,
every operation does what that set does (`wheel_refines`).
-/

namespace Xdp2

open Locked

/-! ## Operations -/

/-- A call into the wheel; `now` is what it reads from the clock. -/
inductive WheelOp where
  | add (t : TimerId) (delay : Nat) (not_running : Bool) (now : Nat)
  | remove (t : TimerId)
  | run (now : Nat)

/-- The time after an operation, where it was `c` before. -/
def WheelOp.time (c : Nat) : WheelOp → Nat
  | add _ _ _ now => now
  | remove _ => c
  | run now => now

/-- The wheel after an operation. -/
def WheelOp.exec (fuel : Nat) (w : Wheel) : WheelOp → Except WheelErr Wheel
  | add t delay not_running now =>
      ((xdp2TimerAdd t delay not_running now).alone called w).map Prod.snd
  | remove t => ((xdp2TimerRemove t).alone called w).map Prod.snd
  | run now => ((xdp2RunTimerWheel fuel fun _ => now).alone called w).map Prod.snd

/-- The clock does not go back and stays below `2 ^ 63`. -/
def ClockFrom : Nat → List WheelOp → Prop
  | _, [] => True
  | c, op :: ops => c ≤ op.time c ∧ op.time c < 2 ^ 63 ∧ ClockFrom (op.time c) ops

/-- The expiration that an operation sets is below `2 ^ 63`. -/
def WheelOp.InRange : WheelOp → Prop
  | add _ delay _ now => now + atLeastOne delay < 2 ^ 63
  | remove _ => True
  | run _ => True

/-! ## The timers a wheel stands for -/

/-- The expirations of the timers that are set. -/
abbrev Pending := TimerId → Option Nat

/-- The timers that are set in a wheel. -/
def Wheel.pending (w : Wheel) : Pending := fun t =>
  if w.IsSet t then some (w.expiration t) else none

/-- What an operation does to the set of timers. -/
def WheelOp.spec (m : Pending) : WheelOp → Pending
  | add t delay not_running now =>
      if (m t).isSome ∧ not_running then m
      else Function.update m t (some (now + atLeastOne delay))
  | remove t => Function.update m t none
  | run now => fun t => (m t).filter (now < ·)

/-- The timers an operation calls. -/
def WheelOp.Calls (m : Pending) (t : TimerId) : WheelOp → Prop
  | run now => ∃ e, m t = some e ∧ e ≤ now
  | _ => False

/-- An operation does to the wheel what it does to the set of timers: it returns, it calls exactly
the timers it should, each once, and leaves exactly the others set. -/
structure OpRefines (fuel : Nat) (w : Wheel) (op : WheelOp) (w' : Wheel) : Prop where
  exec : op.exec fuel w = .ok w'
  pending : w'.pending = op.spec w.pending
  calls : ∃ l, w'.calls = w.calls ++ l ∧ l.Nodup ∧ ∀ t, t ∈ l ↔ op.Calls w.pending t

/-- All operations of a sequence do so, one after the other. -/
def WheelRefines (fuel : Nat) : List WheelOp → Wheel → Prop
  | [], _ => True
  | op :: ops, w => ∃ w', OpRefines fuel w op w' ∧ WheelRefines fuel ops w'

section
variable {w w' : Wheel}

theorem pending_eq_some : w.pending t = some e ↔ w.IsSet t ∧ w.expiration t = e := by
  rw [Wheel.pending]
  split
  · rename_i ht
    simp [ht]
  · rename_i ht
    simp [ht]

theorem pending_eq_none : w.pending t = none ↔ ¬ w.IsSet t := by
  rw [Wheel.pending]
  split <;> simp_all

theorem pending_isSome : (w.pending t).isSome ↔ w.IsSet t := by
  rw [Option.isSome_iff_ne_none, ne_eq, pending_eq_none, not_not]

/-! ## Adding and removing -/

theorem link_expiration (w : Wheel) (t : TimerId) (e : Nat) : (w.link t e).expiration t = e := by
  simp [Wheel.expiration, Wheel.link, Nat.div_add_mod']

theorem link_expiration_ne (h : u ≠ t) (e : Nat) :
    (w.link t e).expiration u = w.expiration u := by
  simp [Wheel.expiration, Wheel.link, h]

theorem setup_expiration (w : Wheel) (t u : TimerId) (e now : Nat) :
    (w.setup t e now).expiration u = (w.link t e).expiration u := by
  rw [Wheel.expiration, (setup_lists w t e now).1, (setup_lists w t e now).2.2.1]
  rfl

theorem setup_pending (w : Wheel) (t : TimerId) (e now : Nat) :
    (w.setup t e now).pending = Function.update w.pending t (some e) := by
  funext u
  rcases eq_or_ne u t with rfl | hne
  · rw [Function.update_self, pending_eq_some, setup_isSet, setup_expiration, link_expiration]
    exact ⟨.inr rfl, rfl⟩
  · rw [Function.update_of_ne hne, Wheel.pending, Wheel.pending, setup_expiration,
      link_expiration_ne hne]
    simp only [setup_isSet, hne, or_false]

theorem removed_pending (w : Wheel) (t : TimerId) :
    (w.removed t).pending = Function.update w.pending t none := by
  funext u
  rcases eq_or_ne u t with rfl | hne
  · rw [Function.update_self, pending_eq_none, removed_isSet]
    exact fun h => h.2 rfl
  · rw [Function.update_of_ne hne, Wheel.pending, Wheel.pending, (removed_same w t).expiration]
    simp only [removed_isSet, ne_eq, hne, not_false_eq_true, and_true]

theorem added_pending (hlt : now + atLeastOne delay < 2 ^ 63) :
    (w.added t delay not_running now).pending =
      (WheelOp.add t delay not_running now).spec w.pending := by
  rw [Wheel.added, WheelOp.spec]
  simp only [pending_isSome]
  split
  · rfl
  · rw [setup_pending, removed_pending, Function.update_idem, ul_eq (by omega)]

/-! ## Running the wheel -/

/-- The time that is found for the next run. -/
structure NextPop (w : Wheel) (now : Nat) (w' : Wheel) : Prop where
  /-- Where timers are set, a time after the run and before all of them. -/
  found : ∀ t, w.IsSet t → ∃ m, w' = { w with next_expire_time := m }.setNextTimerPop ∧
    now < m ∧ m ≤ w.expiration t
  /-- Anything found is soon after the run. -/
  near : w' = w ∨ ∃ m, w' = { w with next_expire_time := m }.setNextTimerPop ∧
    now < m ∧ m ≤ now + 1 + w.num_slots

theorem findNextPop_spec (h : Linked w) (hn : w.num_slots < 2 ^ 31) (hlt : now < 2 ^ 63)
    (hahead : ∀ t, w.IsSet t → now < w.expiration t) :
    NextPop w now (w.findNextPop ((now + 1) / w.num_slots) ((now + 1) % w.num_slots)) := by
  have hnew := Nat.div_add_mod' (now + 1) w.num_slots
  have hmod := Nat.mod_lt (now + 1) h.pos
  generalize (now + 1) / w.num_slots = new_gen at *
  generalize (now + 1) % w.num_slots = last_index at *
  have hbit : ∀ t, w.IsSet t → w.slot_bitmap.isset (w.timers t).index = true := fun t ht =>
    h.bit _ (List.ne_nil_of_mem ((h.mem _ t).mpr ⟨ht, rfl⟩))
  have hfind := bitmapFind_finds w.slot_bitmap (by decide) hmod.le
    (lt_trans hn (by decide))
  have hfind' := bitmapFind_finds w.slot_bitmap (by decide) (Nat.zero_le last_index)
    (lt_trans (hmod.trans hn) (by decide))
  rw [Wheel.findNextPop]
  dsimp only
  generalize bitmapFind w.slot_bitmap last_index w.num_slots = i at *
  generalize bitmapFind w.slot_bitmap 0 last_index = j at *
  by_cases hi : i < w.num_slots
  · -- in the generation of the run
    have hge := hfind.ge
    rw [if_pos hi, ul_eq (by omega)]
    refine ⟨fun t ht => ⟨_, rfl, by omega, ?_⟩, .inr ⟨_, rfl, by omega, by omega⟩⟩
    have hexp := hahead t ht
    have hrange := h.range t ht
    rw [Wheel.expiration] at hexp ⊢
    rcases lt_trichotomy (w.timers t).gen new_gen with hg | hg | hg
    · have := mul_add_le (n := w.num_slots) hg
      omega
    · rw [hg] at hexp ⊢
      have hle : i ≤ (w.timers t).index := by
        by_contra hcon
        have hclear := hfind.clear (w.timers t).index (by omega) (by omega)
        rw [hbit t ht] at hclear
        cases hclear
      omega
    · have := mul_add_le (n := w.num_slots) hg
      omega
  · -- no slot in use from the last index on
    have hidx : ∀ t, w.IsSet t → (w.timers t).index < last_index := by
      intro t ht
      by_contra hcon
      have hclear := hfind.clear (w.timers t).index (by omega) (by have := h.range t ht; omega)
      rw [hbit t ht] at hclear
      cases hclear
    rw [if_neg hi]
    by_cases hj : j < last_index
    · have hmul : (new_gen + 1) * w.num_slots = new_gen * w.num_slots + w.num_slots :=
        Nat.succ_mul _ _
      rw [if_pos hj, ul_eq (by omega)]
      refine ⟨fun t ht => ⟨_, rfl, by omega, ?_⟩, .inr ⟨_, rfl, by omega, by omega⟩⟩
      have hexp := hahead t ht
      have hlast := hidx t ht
      have hle : j ≤ (w.timers t).index := by
        by_contra hcon
        have hclear := hfind'.clear (w.timers t).index (Nat.zero_le _) (by omega)
        rw [hbit t ht] at hclear
        cases hclear
      rw [Wheel.expiration] at hexp ⊢
      rcases lt_trichotomy (w.timers t).gen new_gen with hg | hg | hg
      · have := mul_add_le (n := w.num_slots) hg
        omega
      · rw [hg] at hexp
        omega
      · have := mul_add_le (n := w.num_slots) hg
        omega
    · rw [if_neg hj]
      refine ⟨fun t ht => ?_, .inl rfl⟩
      have hclear := hfind'.clear (w.timers t).index (Nat.zero_le _) (by have := hidx t ht; omega)
      rw [hbit t ht] at hclear
      cases hclear

/-! ## Between two operations -/

/-- What holds between operations, at the time `c`. -/
structure Idle (w : Wheel) (c : Nat) : Prop where
  linked : Linked w
  slots : w.num_slots < 2 ^ 31
  ahead : Ahead w
  last : w.last_runtime ≤ c
  running : w.running = false
  again : w.run_again = false
  /-- Where timers are set the pop timer is not taken to be stopped, so that the time of the last
  run is not moved past them. -/
  pop : ∀ t, w.IsSet t → w.next_expire_time ≠ w.last_runtime

theorem Idle.zero (hn : 0 < n) (hn' : n < 2 ^ 31) : Idle (Wheel.zero n) 0 where
  linked := .zero hn
  slots := hn'
  ahead t ht := by cases ht
  last := le_rfl
  running := rfl
  again := rfl
  pop t ht := by cases ht

theorem exec_remove (fuel : Nat) (w : Wheel) (t : TimerId) :
    (WheelOp.remove t).exec fuel w = .ok (w.removed t) := by
  have hwp : wp (solo called) (fun _ _ _ w' => w' = w.removed t) (xdp2TimerRemove t) () w w :=
    (wp_timerRemove _).mpr rfl
  obtain ⟨a, -, w', halone, rfl⟩ := alone_of_wp hwp
  rw [WheelOp.exec, halone]
  rfl

theorem Idle.removed (h : Idle w c) (t : TimerId) : Idle (w.removed t) c where
  linked := h.linked.removed t
  slots := by rw [(removed_same w t).num_slots]; exact h.slots
  ahead u hu := by
    rw [(removed_same w t).last_runtime, (removed_same w t).expiration]
    exact h.ahead u (removed_isSet.mp hu).1
  last := by rw [(removed_same w t).last_runtime]; exact h.last
  running := by rw [(removed_same w t).running]; exact h.running
  again := by rw [(removed_same w t).run_again]; exact h.again
  pop u hu := by
    rw [(removed_same w t).next_expire_time, (removed_same w t).last_runtime]
    exact h.pop u (removed_isSet.mp hu).1

theorem setup_times (w : Wheel) (t : TimerId) (e now : Nat) :
    (w.NeedsPop e ∧ (w.setup t e now).next_expire_time = e ∧
      (w.setup t e now).last_runtime =
        (if w.next_expire_time = w.last_runtime then now else w.last_runtime) ∧
      (w.setup t e now).pops = w.pops ++ [e]) ∨
    (¬ w.NeedsPop e ∧ (w.setup t e now).next_expire_time = w.next_expire_time ∧
      (w.setup t e now).last_runtime = w.last_runtime ∧ (w.setup t e now).pops = w.pops) := by
  rw [Wheel.setup]
  split
  · rename_i h
    exact .inl ⟨h, rfl, rfl, rfl⟩
  · rename_i h
    exact .inr ⟨h, rfl, rfl, rfl⟩

theorem Idle.setup (h : Idle w c) (ht : ¬ w.IsSet t) (hc : c ≤ now) (hnow : now < e)
    (he : e < 2 ^ 63) : Idle (w.setup t e now) now := by
  have hl := h.linked.setup ht e now
  obtain ⟨hnum, -, -, -, -, hrun, hagain⟩ := setup_lists w t e now
  have hlast := h.last
  have hset : ∀ u, (w.setup t e now).IsSet u →
      u = t ∧ (w.setup t e now).expiration u = e ∨
        w.IsSet u ∧ (w.setup t e now).expiration u = w.expiration u := by
    intro u hu
    rw [setup_expiration]
    rcases eq_or_ne u t with rfl | hne
    · exact .inl ⟨rfl, link_expiration w u e⟩
    · exact .inr ⟨((setup_isSet e now).mp hu).resolve_right hne, link_expiration_ne hne e⟩
  have hslots : (w.setup t e now).num_slots < 2 ^ 31 := by rw [hnum]; exact h.slots
  refine ⟨hl, hslots, ?_, ?_, by rw [hrun]; exact h.running, by rw [hagain]; exact h.again, ?_⟩
  · intro u hu
    rcases setup_times w t e now with ⟨-, -, hlast', -⟩ | ⟨-, -, hlast', -⟩
    · rw [hlast']
      rcases hset u hu with ⟨-, hexp⟩ | ⟨hu', hexp⟩
      · rw [hexp]
        split <;> omega
      · rw [hexp, if_neg (h.pop u hu')]
        exact h.ahead u hu'
    · rw [hlast']
      rcases hset u hu with ⟨-, hexp⟩ | ⟨hu', hexp⟩
      · rw [hexp]
        omega
      · rw [hexp]
        exact h.ahead u hu'
  · rcases setup_times w t e now with ⟨-, -, hlast', -⟩ | ⟨-, -, hlast', -⟩
    · rw [hlast']
      split <;> omega
    · omega
  · intro u _
    rcases setup_times w t e now with ⟨-, hnext, hlast', -⟩ | ⟨hpop, hnext, hlast', -⟩
    · rw [hnext, hlast']
      split <;> omega
    · rw [hnext, hlast']
      exact fun heq => hpop (.inr heq)

theorem atLeastOne_pos (delay : Nat) : 0 < atLeastOne delay := by
  unfold atLeastOne
  split <;> omega

theorem exec_add (h : Idle w c) (hc : c ≤ now) (hlt : now + atLeastOne delay < 2 ^ 63) :
    (WheelOp.add t delay not_running now).exec fuel w =
      .ok (w.added t delay not_running now) := by
  have hpos := atLeastOne_pos delay
  have hlast := h.last
  have hgt : ∀ x, x ≤ now → seqnoGt (ul (now + atLeastOne delay)) x = true := by
    intro x hx
    rw [ul_eq (by omega), seqnoGt_iff (by omega) (by omega)]
    omega
  have hwp : wp (solo called) (fun _ _ _ w' => w' = w.added t delay not_running now)
      (xdp2TimerAdd t delay not_running now) () w w :=
    wp_timerAdd _ (.inl (hgt now le_rfl))
      (fun _ => .inl (hgt _ (by split <;> omega))) rfl
  obtain ⟨a, -, w', halone, rfl⟩ := alone_of_wp hwp
  rw [WheelOp.exec, halone]
  rfl

theorem Idle.added (h : Idle w c) (hc : c ≤ now) (hlt : now + atLeastOne delay < 2 ^ 63) :
    Idle (w.added t delay not_running now) now := by
  have hpos := atLeastOne_pos delay
  rw [Wheel.added]
  split
  · exact { h with last := h.last.trans hc }
  · rw [ul_eq (by omega)]
    exact (h.removed t).setup (fun ht => (removed_isSet.mp ht).2 rfl) hc (by omega) hlt

/-- The wheel after a run at the time `now`: the timers that were due have been called, and the
time of the next run has been set. -/
def RanAt (w : Wheel) (now : Nat) (w' : Wheel) : Prop :=
  ∃ w1, Fired (fun t => w.expiration t ≤ now) w w1 ∧
    NextPop { w1 with last_runtime := now } now w'

theorem NextPop.frame (h : NextPop w now w') : w'.num_slots = w.num_slots ∧ w'.slots = w.slots ∧
    w'.timers = w.timers ∧ w'.slot_bitmap = w.slot_bitmap ∧ w'.last_runtime = w.last_runtime ∧
    w'.running = w.running ∧ w'.run_again = w.run_again ∧ w'.calls = w.calls := by
  rcases h.near with rfl | ⟨m, rfl, -⟩
  · exact ⟨rfl, rfl, rfl, rfl, rfl, rfl, rfl, rfl⟩
  · exact ⟨rfl, rfl, rfl, rfl, rfl, rfl, rfl, rfl⟩

theorem NextPop.running (h : NextPop w now w') (b : Bool) :
    NextPop { w with running := b } now { w' with running := b } where
  found t ht := by
    obtain ⟨m, rfl, hm⟩ := h.found t ht
    exact ⟨m, rfl, hm⟩
  near := by
    rcases h.near with rfl | ⟨m, rfl, hm⟩
    · exact .inl rfl
    · exact .inr ⟨m, rfl, hm⟩

theorem PassEnd.ranAt (h : PassEnd w now w') (hn : w.num_slots < 2 ^ 31) (hlt : now < 2 ^ 63) :
    RanAt w now w' := by
  obtain ⟨w1, hf, rfl⟩ := h
  rw [← hf.same.num_slots] at hn
  have hnext : NextPop { w1 with last_runtime := now } now _ :=
    findNextPop_spec (hf.linked.of_lists rfl rfl rfl rfl) hn hlt fun t ht => by
      have hexp := not_le.mp ((hf.set t).mp ht).2
      rw [← hf.same.expiration] at hexp
      exact hexp
  rw [← hf.same.num_slots]
  exact ⟨w1, hf, hnext⟩

theorem Fired.running (hb : w.running = b') (h : Fired P { w with running := b } w') :
    Fired P w { w' with running := b' } where
  linked := h.linked.of_lists rfl rfl rfl rfl
  same := ⟨h.same.num_slots, h.same.next_expire_time, h.same.last_runtime, hb.symm,
    h.same.run_again, h.same.pops, h.same.gen, h.same.index⟩
  set := h.set
  calls := h.calls

theorem exec_run (h : Idle w c) (hc : c ≤ now) (hlt : now < 2 ^ 63)
    (hfuel : ∀ i, (w.slots i).length < fuel) :
    ∃ w', (WheelOp.run now).exec fuel w = .ok w' ∧ RanAt w now w' := by
  obtain ⟨fuel, rfl⟩ : ∃ k, fuel = k + 1 := ⟨fuel - 1, by have := hfuel 0; omega⟩
  have hl : Linked { w with running := true } := h.linked.of_lists rfl rfl rfl rfl
  have hwp : wp (solo called) (fun _ _ _ w' => RanAt w now w')
      (xdp2RunTimerWheel (fuel + 1) fun _ => now) () w w := by
    rw [xdp2RunTimerWheel, runTimerWheelLocked, wp_bind, wp_get, h.running, if_neg (by simp),
      wp_bind, wp_set, wp_bind]
    refine wp_mono (fun _ _ _ w2 hend => ?_)
      (runPass_ends hl h.ahead h.slots (h.last.trans hc) hlt hfuel)
    obtain ⟨w1, hf, hnext⟩ := hend.ranAt h.slots hlt
    have hagain : w2.run_again = false :=
      (hnext.frame.2.2.2.2.2.2.1.trans hf.same.run_again).trans h.again
    rw [wp_bind, wp_get, if_neg (by rw [hagain]; simp), wp_set]
    exact ⟨_, hf.running h.running, hnext.running false⟩
  obtain ⟨a, -, w', halone, hran⟩ := alone_of_wp hwp
  exact ⟨w', by rw [WheelOp.exec, halone]; rfl, hran⟩

theorem RanAt.isSet (h : RanAt w now w') : w'.IsSet t ↔ w.IsSet t ∧ now < w.expiration t := by
  obtain ⟨w1, hf, hnext⟩ := h
  have hset : w'.IsSet t ↔ w1.IsSet t := by
    unfold Wheel.IsSet
    rw [hnext.frame.2.2.1]
  rw [hset, hf.set, not_le]

theorem RanAt.expiration (h : RanAt w now w') (t : TimerId) :
    w'.expiration t = w.expiration t := by
  obtain ⟨w1, hf, hnext⟩ := h
  rw [← hf.same.expiration, Wheel.expiration, hnext.frame.2.2.1, hnext.frame.1]
  rfl

theorem Idle.ranAt (h : Idle w c) (hr : RanAt w now w') : Idle w' now := by
  have hset : ∀ t, w'.IsSet t → w.IsSet t ∧ now < w.expiration t := fun t => hr.isSet.mp
  have hexp := hr.expiration
  obtain ⟨w1, hf, hnext⟩ := hr
  obtain ⟨hnum, hslots, htimers, hbitmap, hlast, hrun, hagain, -⟩ := hnext.frame
  have hlast' : w'.last_runtime = now := hlast
  constructor
  · exact hf.linked.of_lists hnum hslots htimers hbitmap
  · rw [hnum]
    exact lt_of_eq_of_lt hf.same.num_slots h.slots
  · intro t ht
    obtain ⟨hw, hlt⟩ := hset t ht
    rw [hlast', hexp]
    exact ⟨hlt, (h.ahead t hw).2⟩
  · rw [hlast']
  · exact (hrun.trans hf.same.running).trans h.running
  · exact (hagain.trans hf.same.run_again).trans h.again
  · intro t ht
    obtain ⟨m, rfl, hlt, -⟩ := hnext.found t (by rwa [Wheel.IsSet, htimers] at ht)
    exact Nat.ne_of_gt hlt

/-! ## Sequences of operations -/

theorem RanAt.pending (h : RanAt w now w') : w'.pending = (WheelOp.run now).spec w.pending := by
  funext t
  unfold WheelOp.spec Wheel.pending
  rw [h.expiration]
  simp only [h.isSet]
  by_cases ht : w.IsSet t
  · by_cases hlt : now < w.expiration t
    · simp [ht, hlt, Option.filter]
    · simp [ht, hlt, Option.filter]
  · simp [ht]

theorem RanAt.calls (h : RanAt w now w') : ∃ l, w'.calls = w.calls ++ l ∧ l.Nodup ∧
    ∀ t, t ∈ l ↔ (WheelOp.run now).Calls w.pending t := by
  obtain ⟨w1, hf, hnext⟩ := h
  obtain ⟨l, hl, hnodup, hmem⟩ := hf.calls
  refine ⟨l, hnext.frame.2.2.2.2.2.2.2.trans hl, hnodup, fun t => ?_⟩
  rw [hmem, WheelOp.Calls]
  simp only [pending_eq_some]
  exact ⟨fun ⟨ht, hle⟩ => ⟨_, ⟨ht, rfl⟩, hle⟩, fun ⟨e, ⟨ht, he⟩, hle⟩ => ⟨ht, he ▸ hle⟩⟩

theorem setup_length (w : Wheel) (t : TimerId) (e now i : Nat) :
    ((w.setup t e now).slots i).length ≤ (w.slots i).length + 1 := by
  rw [(setup_lists w t e now).2.1]
  rcases eq_or_ne i (e % w.num_slots) with rfl | hne
  · simp [Wheel.link]
  · simp [Wheel.link, hne]

theorem Linked.removed_length (h : Linked w) (t : TimerId) (i : Nat) :
    ((w.removed t).slots i).length ≤ (w.slots i).length :=
  h.length_le (h.removed t) (fun _ hu => (removed_isSet.mp hu).1) (removed_same w t).index i

theorem opRefines (h : Idle w c) (hc : c ≤ op.time c) (hlt : op.time c < 2 ^ 63)
    (hrange : op.InRange) (hlen : ∀ i, (w.slots i).length ≤ k) (hfuel : k < fuel) :
    ∃ w', OpRefines fuel w op w' ∧ Idle w' (op.time c) ∧ ∀ i, (w'.slots i).length ≤ k + 1 := by
  cases op with
  | add t delay not_running now =>
    refine ⟨w.added t delay not_running now, ⟨exec_add h hc hrange, added_pending hrange, [], ?_⟩,
      h.added hc hrange, fun i => ?_⟩
    · refine ⟨?_, List.nodup_nil, fun t => by simp [WheelOp.Calls]⟩
      rw [List.append_nil, Wheel.added]
      split
      · rfl
      · rw [(setup_lists _ t _ now).2.2.2.2.1, Wheel.removed]
        split
        · rw [clearIfEmpty_calls]
          rfl
        · rfl
    · rw [Wheel.added]
      split
      · exact (hlen i).trans (Nat.le_succ k)
      · exact (setup_length _ t _ now i).trans
          (Nat.succ_le_succ ((h.linked.removed_length t i).trans (hlen i)))
  | remove t =>
    refine ⟨w.removed t, ⟨exec_remove fuel w t, removed_pending w t, [], ?_⟩, h.removed t,
      fun i => ?_⟩
    · refine ⟨?_, List.nodup_nil, fun t => by simp [WheelOp.Calls]⟩
      rw [List.append_nil, Wheel.removed]
      split
      · rw [clearIfEmpty_calls]
        rfl
      · rfl
    · exact ((h.linked.removed_length t i).trans (hlen i)).trans (Nat.le_succ k)
  | run now =>
    obtain ⟨w', hexec, hran⟩ := exec_run h hc hlt fun i => lt_of_le_of_lt (hlen i) hfuel
    refine ⟨w', ⟨hexec, hran.pending, hran.calls⟩, h.ranAt hran, fun i => ?_⟩
    obtain ⟨w1, hf, hnext⟩ := hran
    rw [hnext.frame.2.1]
    exact ((hf.length_le h.linked i).trans (hlen i)).trans (Nat.le_succ k)

theorem refines_from : ∀ {ops : List WheelOp} {w : Wheel} {c k : Nat}, Idle w c →
    ClockFrom c ops → (∀ op ∈ ops, op.InRange) → (∀ i, (w.slots i).length ≤ k) →
    k + ops.length < fuel → WheelRefines fuel ops w := by
  intro ops
  induction ops with
  | nil => intros; trivial
  | cons op ops ih =>
    intro w c k h hclock hrange hlen hfuel
    obtain ⟨hc, hlt, hclock⟩ := hclock
    rw [List.length_cons] at hfuel
    obtain ⟨w', hop, hidle, hlen'⟩ :=
      opRefines h hc hlt (hrange op List.mem_cons_self) hlen (show k < fuel by omega)
    exact ⟨w', hop, ih hidle hclock (fun op hop => hrange op (List.mem_cons_of_mem _ hop)) hlen'
      (by omega)⟩

end

/-- **The wheel does what a set of timers does.** In every sequence of operations on a wheel that
starts empty, at the times of a clock that does not go back and with expirations below `2 ^ 63`,
each run calls exactly the timers that are due, each once, and leaves the others set; every
operation returns, and no assertion fails. -/
theorem wheel_refines {n fuel : Nat} {ops : List WheelOp} (hn : 0 < n) (hn' : n < 2 ^ 31)
    (hclock : ClockFrom 0 ops) (hrange : ∀ op ∈ ops, op.InRange) (hfuel : ops.length < fuel) :
    WheelRefines fuel ops (Wheel.zero n) :=
  refines_from (.zero hn hn') hclock hrange (fun _ => Nat.zero_le 0) (by omega)

/-- Two timers in one slot of a wheel, one of them due. -/
theorem wheel_refines_twoTimers :
    WheelRefines 5 [.add 0 3 false 10, .add 1 11 false 10, .run 15, .remove 1] (Wheel.zero 8) :=
  wheel_refines (by decide) (by decide) (by simp [ClockFrom, WheelOp.time])
    (by simp [WheelOp.InRange, atLeastOne]) (by decide)

/-- With a clock below `2 ^ 63` but an expiration above it, an add trips an assertion. -/
theorem wheel_assertion_fails :
    ClockFrom 0 [.add 0 1 false 0, .add 1 3 false (2 ^ 63 - 1)] ∧
      ∀ fuel, ¬ WheelRefines fuel [.add 0 1 false 0, .add 1 3 false (2 ^ 63 - 1)] (Wheel.zero 1) := by
  refine ⟨by simp [ClockFrom, WheelOp.time], fun fuel h => ?_⟩
  obtain ⟨w, h1, w', h2, -⟩ := h
  have hexec := h1.exec
  cases hexec
  have hexec := h2.exec
  cases hexec

end Xdp2
