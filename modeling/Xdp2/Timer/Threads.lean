import Xdp2.Timer.Ops

/-!
# A wheel that many threads use

Any number of threads add and remove timers and run the wheel, in any interleaving of what they do
under the mutex. A thread that runs the wheel lets go of it to call a batch of timers in hand; what
a callback does with the wheel is done by some other thread here.

The flag `running` belongs to one thread at a time, and only that one has timers in hand. So a
removal that finds it clear finds no callback running or about to, and a timer that is called was
taken out once for each time it was added (`removed_false_callbacks`).
-/

namespace Xdp2

open Locked

/-! ## Threads -/

/-- A call into the wheel; `now` is what it reads from the clock. -/
inductive WheelCall where
  | add (t : TimerId) (delay : Nat) (not_running : Bool) (now : Nat)
  | remove (t : TimerId)
  | run (fuel : Nat) (now : Nat → Nat)

/-- What a call does. Only a removal returns a value. -/
def WheelCall.prog : WheelCall → WheelM Bool
  | add t delay not_running now => do
      xdp2TimerAdd t delay not_running now
      return false
  | remove t => xdp2TimerRemove t
  | run fuel now => do
      xdp2RunTimerWheel fuel now
      return false

/-- Where a thread stands. -/
inductive WheelThread where
  | idle
  /-- About to take the mutex. -/
  | ready (call : WheelCall) (k : WheelM Bool)
  /-- Between two callbacks of a batch, with those that are left. -/
  | calling (cbs : List TimerId) (call : WheelCall) (k : WheelM Bool)
  /-- In the callback of a timer. -/
  | inside (t : TimerId) (cbs : List TimerId) (call : WheelCall) (k : WheelM Bool)

/-- The timers a thread has yet to call. -/
def WheelThread.hand : WheelThread → List TimerId
  | calling cbs _ _ => cbs
  | inside _ cbs _ _ => cbs
  | _ => []

/-- The thread is in the callback of the timer. -/
def WheelThread.In (t : TimerId) : WheelThread → Prop
  | inside u _ _ _ => u = t
  | _ => False

/-- A wheel and its threads. -/
structure WheelPool where
  wheel : Wheel
  threads : Nat → WheelThread

/-- A wheel that nobody uses. -/
def WheelPool.start (w : Wheel) : WheelPool := ⟨w, fun _ => .idle⟩

/-- The pool after a step of the thread `i`. -/
def WheelPool.after (x : WheelPool) (i : Nat) (th : WheelThread) (w : Wheel) : WheelPool :=
  ⟨w, Function.update x.threads i th⟩

/-- What can be seen of a step. -/
inductive WheelEvent where
  /-- The timer is set, anew or again. -/
  | added (t : TimerId)
  /-- `xdp2_timer_remove` returns. -/
  | removed (t : TimerId) (running : Bool)
  /-- The callback of a timer is entered. -/
  | began (t : TimerId)
  /-- The callback of a timer returns. -/
  | ended (t : TimerId)
  | other
  deriving DecidableEq

/-- What can be seen of the return of a call, made in the wheel `w`. -/
def WheelCall.event (w : Wheel) (ret : Bool) : WheelCall → WheelEvent
  | add t _ not_running _ => if w.IsSet t ∧ not_running then .other else .added t
  | remove t => .removed t ret
  | run _ _ => .other

/-- A step of one thread. A section that trips an assertion is not a step. -/
inductive WheelPool.Step : WheelPool → WheelEvent → WheelPool → Prop
  | start {x : WheelPool} {i : Nat} (call : WheelCall) (hi : x.threads i = .idle) :
      Step x .other (x.after i (.ready call call.prog) x.wheel)
  | done {x : WheelPool} {i : Nat} {call : WheelCall} {k : WheelM Bool} {ret : Bool} {w : Wheel}
      (hi : x.threads i = .ready call k) (hk : k.advance x.wheel = .done ret w) :
      Step x (call.event x.wheel ret) (x.after i .idle w)
  | released {x : WheelPool} {i : Nat} {call : WheelCall} {k k' : WheelM Bool}
      {cbs : List TimerId} {w : Wheel} (hi : x.threads i = .ready call k)
      (hk : k.advance x.wheel = .released cbs k' w) :
      Step x .other (x.after i (.calling cbs call k') w)
  | began {x : WheelPool} {i : Nat} {t : TimerId} {cbs : List TimerId} {call : WheelCall}
      {k : WheelM Bool} (hi : x.threads i = .calling (t :: cbs) call k) :
      Step x (.began t) (x.after i (.inside t cbs call k) x.wheel)
  | ended {x : WheelPool} {i : Nat} {t : TimerId} {cbs : List TimerId} {call : WheelCall}
      {k : WheelM Bool} (hi : x.threads i = .inside t cbs call k) :
      Step x (.ended t) (x.after i (.calling cbs call k) x.wheel)
  | resumed {x : WheelPool} {i : Nat} {call : WheelCall} {k : WheelM Bool}
      (hi : x.threads i = .calling [] call k) : Step x .other (x.after i (.ready call k) x.wheel)

/-- Steps one after the other, with what can be seen of them. -/
inductive WheelPool.Runs (x : WheelPool) : List WheelEvent → WheelPool → Prop
  | nil : Runs x [] x
  | snoc {events : List WheelEvent} {e : WheelEvent} {y z : WheelPool} (h : Runs x events y)
      (hs : y.Step e z) : Runs x (events ++ [e]) z

/-! ## What a call does under the mutex -/

/-- How often a timer hangs in the wheel. -/
def Wheel.held (w : Wheel) (t : TimerId) : Nat := if w.IsSet t then 1 else 0

/-- Timers `cbs` have been taken out of the wheel, and none has been set. -/
def TakenOut (w : Wheel) (cbs : List TimerId) (w' : Wheel) : Prop :=
  ∀ t, w'.held t + cbs.count t ≤ w.held t

/-- The terms on which threads share the wheel: one that lets go of the mutex has the flag `running`
from then on. -/
def hasFlag : Contract WheelErr Wheel (List TimerId) Bool where
  owes mine w0 cbs w mine' := mine' = true ∧ (mine = false → w0.running = false) ∧
    w.running = true ∧ Linked w ∧ TakenOut w0 cbs w
  expects _ _ _ w' := w'.running = true ∧ Linked w'
  allows _ := True

/-- Within a section of a thread that has set the flag. -/
structure Running (mine : Bool) (w0 w : Wheel) : Prop where
  linked : Linked w
  running : w.running = true
  flag : mine = false → w0.running = false
  taken : TakenOut w0 [] w

section
variable {w w' : Wheel} {cbs : List TimerId}

theorem held_congr (h : ∀ t, w'.IsSet t ↔ w.IsSet t) (t : TimerId) : w'.held t = w.held t := by
  simp only [Wheel.held, h]

theorem TakenOut.refl (w : Wheel) : TakenOut w [] w := fun _ => le_rfl

theorem TakenOut.unlinkAll (h : TakenOut w0 [] w) (hl : Linked w) (hsub : cbs.Sublist (w.slots i)) :
    TakenOut w0 cbs (w.unlinkAll i cbs) := by
  intro t
  refine le_trans ?_ (h t)
  have hnodup := hsub.nodup (hl.nodup i)
  by_cases ht : t ∈ cbs
  · have hset : w.IsSet t := ((hl.mem i t).mp (hsub.subset ht)).1
    have hunset : ¬ (w.unlinkAll i cbs).IsSet t := fun hset' => (unlinkAll_isSet.mp hset').2 ht
    rw [Wheel.held, Wheel.held, if_pos hset, if_neg hunset, List.count_eq_one_of_mem hnodup ht]
    rfl
  · have hiff : (w.unlinkAll i cbs).IsSet t ↔ w.IsSet t := by simp [unlinkAll_isSet, ht]
    rw [List.count_eq_zero_of_not_mem ht, Wheel.held, Wheel.held]
    simp only [hiff]
    rfl

theorem Running.of_lists (h : Running mine w0 w) (hl : Linked w') (hrun : w'.running = true)
    (hset : ∀ t, w'.IsSet t ↔ w.IsSet t) : Running mine w0 w' where
  linked := hl
  running := hrun
  flag := h.flag
  taken t := by
    rw [held_congr hset]
    exact h.taken t

theorem Running.release (h : Running mine w0 w) (hsub : cbs.Sublist (w.slots i)) (hl : Linked w1)
    (hrun : w1.running = true) (hset : ∀ t, w1.IsSet t ↔ (w.unlinkAll i cbs).IsSet t)
    (hQ : ∀ w', Running true w' w' → Q () true w' w') :
    wp hasFlag Q (release cbs) mine w0 w1 := by
  refine ⟨true, ⟨rfl, h.flag, hrun, hl, fun t => ?_⟩, fun w' hw' => hQ w' ?_⟩
  · rw [held_congr hset]
    exact h.taken.unlinkAll h.linked hsub t
  · exact ⟨hw'.2, hw'.1, (fun h => by cases h), .refl w'⟩

theorem runSlot_running (gen old_gen : Nat) : ∀ {fuel : Nat} {mine : Bool} {w0 w : Wheel},
    Running mine w0 w →
    wp hasFlag (fun _ => Running) (runSlot gen old_gen fuel i) mine w0 w := by
  intro fuel
  induction fuel with
  | zero => intros; trivial
  | succ fuel ih =>
    intro mine w0 w h
    rw [runSlot, wp_bind, wp_get, wp_bind]
    refine wp_scanSlot (fun _ _ => .inr trivial) fun taken full w' hs => ?_
    rw [List.nil_append]
    have hl : Linked w' := by
      rw [hs.wheel]
      exact h.linked.unlinkAll (fun t ht => hs.sub.subset ht) (hs.sub.nodup (h.linked.nodup i))
    have hrun : w'.running = true := by
      rw [hs.wheel, (unlinkAll_same w i taken).running]
      exact h.running
    have hset : ∀ t, w'.IsSet t ↔ (w.unlinkAll i taken).IsSet t := fun t => by rw [hs.wheel]
    cases full with
    | true =>
      rw [if_pos rfl, wp_bind]
      exact h.release hs.sub hl hrun hset fun w1 h1 => ih h1
    | false =>
      have hrun' : (w'.clearIfEmpty i).running = true := by
        rw [(clearIfEmpty_same w' i).running]
        exact hrun
      have hset' : ∀ t, (w'.clearIfEmpty i).IsSet t ↔ (w.unlinkAll i taken).IsSet t := fun t => by
        rw [clearIfEmpty_isSet, hset]
      rw [if_neg (by simp), wp_bind, wp_modify]
      split
      · exact h.release hs.sub (hl.clearIfEmpty i) hrun' hset' fun w1 h1 => h1
      · rename_i hnil
        rw [ne_eq, not_not] at hnil
        subst hnil
        exact h.of_lists (hl.clearIfEmpty i) hrun' hset'

theorem forEachSlot_running
    (hbody : ∀ {i : Nat} {mine : Bool} {w0 w : Wheel}, Running mine w0 w →
      wp hasFlag (fun _ => Running) (body i) mine w0 w)
    (nbits : Nat) :
    ∀ {turns index : Nat} {mine : Bool} {w0 w : Wheel}, Running mine w0 w →
      wp hasFlag (fun _ => Running) (forEachSlot body nbits turns index) mine w0 w := by
  intro turns
  induction turns with
  | zero => intros; trivial
  | succ turns ih =>
    intro index mine w0 w h
    rw [forEachSlot]
    split
    · rw [wp_bind]
      refine wp_mono (fun _ mine w0 w h => ?_) (hbody h)
      rw [wp_bind, wp_get]
      exact ih h
    · exact h

theorem runSlots_running (gen old_gen index nbits : Nat) (h : Running mine w0 w) :
    wp hasFlag (fun _ => Running) (runSlots fuel gen old_gen index nbits) mine w0 w := by
  rw [runSlots, wp_bind, wp_get]
  exact forEachSlot_running (runSlot_running gen old_gen) nbits h

theorem runOldGens_running (w1 : Wheel) (old_gen new_gen : Nat) (h : Running mine w0 w) :
    wp hasFlag (fun _ => Running) (runOldGens fuel w1 old_gen new_gen) mine w0 w := by
  rw [runOldGens]
  split
  · exact h
  · split
    · rw [wp_bind]
      exact wp_mono (fun _ _ _ _ h => h) (runSlots_running _ _ _ _ h)
    · rw [wp_bind]
      exact wp_mono (fun _ _ _ _ h => h) (runSlots_running _ _ _ _ h)

theorem findNextPop_eq (w : Wheel) (new_gen last_index : Nat) :
    ∃ e pops, w.findNextPop new_gen last_index =
      { w with next_expire_time := e, pops := pops } := by
  unfold Wheel.findNextPop
  generalize bitmapFind w.slot_bitmap last_index w.num_slots = index
  generalize bitmapFind w.slot_bitmap 0 last_index = index'
  dsimp only
  split
  · exact ⟨_, _, rfl⟩
  · split
    · exact ⟨_, _, rfl⟩
    · exact ⟨_, _, rfl⟩

theorem runPass_running (now : Nat) (h : Running mine w0 w1) :
    wp hasFlag (fun _ => Running) (runPass fuel now) mine w0 w1 := by
  rw [runPass, wp_bind, wp_get, wp_bind]
  refine wp_wheelAssert (.inr trivial) ?_
  rw [wp_bind]
  refine wp_mono (fun index mine w0 w h => ?_) (runOldGens_running _ _ _ h)
  rw [wp_bind]
  refine wp_mono (fun _ mine w0 w h => ?_) (runSlots_running _ _ _ _ h)
  rw [wp_modify]
  obtain ⟨e, pops, heq⟩ := findNextPop_eq { w with last_runtime := now }
    (ul (now + 1) / w1.num_slots) (ul (now + 1) % w1.num_slots)
  rw [heq]
  exact h.of_lists (h.linked.of_lists rfl rfl rfl rfl) h.running fun _ => Iff.rfl

/-- What a run leaves when it returns: the flag is clear, unless it was another thread's. -/
structure RunEnd (mine : Bool) (w0 w : Wheel) : Prop where
  linked : Linked w
  running : w.running = (w0.running && !mine)
  taken : TakenOut w0 [] w

theorem runTimerWheelLocked_ends (now : Nat → Nat) : ∀ {retries : Nat} {mine : Bool}
    {w0 w : Wheel}, Linked w → TakenOut w0 [] w → w.running = (w0.running && !mine) →
    wp hasFlag (fun _ => RunEnd) (runTimerWheelLocked fuel now retries) mine w0 w := by
  intro retries
  induction retries with
  | zero => intros; trivial
  | succ retries ih =>
    intro mine w0 w hl htaken hrun
    rw [runTimerWheelLocked, wp_bind, wp_get]
    cases hw : w.running with
    | true =>
      rw [if_pos rfl, wp_set]
      exact ⟨hl.of_lists rfl rfl rfl rfl, hw.symm.trans hrun, htaken⟩
    | false =>
      rw [if_neg (by simp), wp_bind, wp_set, wp_bind]
      have hflag : mine = false → w0.running = false := by
        rintro rfl
        rw [hw, Bool.not_false, Bool.and_true] at hrun
        exact hrun.symm
      refine wp_mono (fun _ mine w0 w h => ?_)
        (runPass_running (now retries) ⟨hl.of_lists rfl rfl rfl rfl, rfl, hflag, htaken⟩)
      have hclear : false = (w0.running && !mine) := by
        cases mine with
        | true => rw [Bool.not_true, Bool.and_false]
        | false => rw [h.flag rfl, Bool.false_and]
      rw [wp_bind, wp_get]
      split
      · rw [wp_bind, wp_set]
        exact ih (h.linked.of_lists rfl rfl rfl rfl) h.taken hclear
      · rw [wp_set]
        exact ⟨h.linked.of_lists rfl rfl rfl rfl, hclear, h.taken⟩

/-- What holds when a call returns, of the state at the start of its last section and at its end. -/
def WheelCall.Post (ret mine : Bool) (w0 w : Wheel) : WheelCall → Prop
  | add t delay not_running now => mine = false ∧ w = w0.added t delay not_running now
  | remove t => mine = false ∧ ret = w0.running ∧ w = w0.removed t
  | run _ _ => RunEnd mine w0 w

/-- The rest of a call keeps to the terms and ends as the call should. -/
def WheelCall.Keeps (call : WheelCall) (mine : Bool) (k : WheelM Bool) : Prop :=
  ∀ w, Linked w → (mine = true → w.running = true) →
    wp hasFlag (fun ret mine w0 w => call.Post ret mine w0 w) k mine w w

theorem WheelCall.keeps_prog (call : WheelCall) : call.Keeps false call.prog := by
  intro w hl _
  cases call with
  | add t delay not_running now =>
    rw [WheelCall.prog, wp_bind]
    exact wp_timerAdd _ (.inr trivial) (fun _ => .inr trivial) ⟨rfl, rfl⟩
  | remove t => exact (wp_timerRemove _).mpr ⟨rfl, rfl, rfl⟩
  | run fuel now =>
    rw [WheelCall.prog, wp_bind, xdp2RunTimerWheel]
    refine wp_mono (fun _ _ _ _ h => h) (runTimerWheelLocked_ends now hl (.refl w) ?_)
    rw [Bool.not_false, Bool.and_true]

end

/-! ## Threads and what they have in hand -/

/-- The thread keeps to the terms; `mine` says whether the flag is its own. -/
def WheelThread.Keeps (mine : Bool) : WheelThread → Prop
  | idle => mine = false
  | ready call k => call.Keeps mine k
  | calling _ call k => mine = true ∧ call.Keeps true k
  | inside _ _ call k => mine = true ∧ call.Keeps true k

/-- What holds between steps, after the events seen so far. -/
structure ThreadsOk (x : WheelPool) (events : List WheelEvent) (mine : Nat → Bool) : Prop where
  linked : Linked x.wheel
  progs : ∀ i, (x.threads i).Keeps (mine i)
  one : ∀ i j, mine i = true → mine j = true → i = j
  flag : ∀ i, mine i = true → x.wheel.running = true
  /-- Each add is good for one place in the wheel, in hand or among the callbacks entered. -/
  count : ∀ i t, x.wheel.held t + (x.threads i).hand.count t + events.count (.began t) ≤
    events.count (.added t)

section
variable {x : WheelPool} {w : Wheel} {th : WheelThread}

theorem WheelThread.Keeps.hand_nil (h : th.Keeps false) : th.hand = [] := by
  cases th with
  | idle => rfl
  | ready call k => rfl
  | calling cbs call k => cases h.1
  | inside t cbs call k => cases h.1

theorem ThreadsOk.after (h : ThreadsOk x events mine) (hl : Linked w) (hth : th.Keeps m)
    (hmine : m = true → mine i = true ∨ x.wheel.running = false)
    (hrun : m = true → w.running = true)
    (hkeep : mine i = false → x.wheel.running = true → w.running = true)
    (hcount : ∀ t, w.held t + th.hand.count t + [e].count (.began t) ≤
      x.wheel.held t + (x.threads i).hand.count t + [e].count (.added t)) :
    ThreadsOk (x.after i th w) (events ++ [e]) (Function.update mine i m) := by
  have hother : ∀ j, j ≠ i → mine j = true → mine i = false := by
    intro j hne hj
    cases hi : mine i with
    | false => rfl
    | true => exact absurd (h.one j i hj hi) hne
  have hnot : m = true → ∀ j, j ≠ i → mine j = false := by
    intro hm j hne
    cases hj : mine j with
    | false => rfl
    | true =>
      rcases hmine hm with hi | hstop
      · rw [hother j hne hj] at hi
        cases hi
      · rw [h.flag j hj] at hstop
        cases hstop
  constructor
  · exact hl
  · intro j
    rcases eq_or_ne j i with rfl | hne
    · simpa [WheelPool.after] using hth
    · simpa [WheelPool.after, hne] using h.progs j
  · intro j k hj hk
    rcases eq_or_ne j i with heq | hne
    · rw [heq, Function.update_self] at hj
      rcases eq_or_ne k i with heq' | hne'
      · rw [heq, heq']
      · rw [Function.update_of_ne hne', hnot hj k hne'] at hk
        cases hk
    · rw [Function.update_of_ne hne] at hj
      rcases eq_or_ne k i with heq' | hne'
      · rw [heq', Function.update_self] at hk
        rw [hnot hk j hne] at hj
        cases hj
      · rw [Function.update_of_ne hne'] at hk
        exact h.one j k hj hk
  · intro j hj
    rcases eq_or_ne j i with rfl | hne
    · rw [Function.update_self] at hj
      exact hrun hj
    · rw [Function.update_of_ne hne] at hj
      exact hkeep (hother j hne hj) (h.flag j hj)
  · intro j t
    have hstep := hcount t
    have hi := h.count i t
    rw [List.count_append, List.count_append]
    rcases eq_or_ne j i with rfl | hne
    · simp only [WheelPool.after, Function.update_self]
      omega
    · simp only [WheelPool.after, Function.update_of_ne hne]
      cases hj : mine j with
      | false =>
        have hkeeps := h.progs j
        rw [hj] at hkeeps
        rw [hkeeps.hand_nil, List.count_nil]
        omega
      | true =>
        -- the thread that has moved is not the one with the flag, so it has nothing in hand
        have hkeeps := h.progs i
        rw [hother j hne hj] at hkeeps
        rw [hkeeps.hand_nil, List.count_nil] at hstep
        have hj := h.count j t
        omega

theorem WheelCall.Post.frame {call : WheelCall} {ret : Bool} {w0 : Wheel}
    (h : call.Post ret m w0 w) (hl : Linked w0) :
    Linked w ∧ (m = false → w0.running = true → w.running = true) ∧
      ∀ t, w.held t ≤ w0.held t + [call.event w0 ret].count (.added t) := by
  cases call with
  | add t delay not_running now =>
    obtain ⟨-, rfl⟩ := h
    refine ⟨hl.added t delay not_running now, fun _ hrun => ?_, fun u => ?_⟩
    · rw [Wheel.added]
      split
      · exact hrun
      · rw [(setup_lists _ t _ now).2.2.2.2.2.1, (removed_same w0 t).running]
        exact hrun
    · rcases eq_or_ne u t with rfl | hne
      · rw [WheelCall.event]
        split
        · rename_i hrefused
          rw [Wheel.added, if_pos hrefused]
          exact Nat.le_add_right _ _
        · rw [List.count_singleton_self, Wheel.held]
          split <;> omega
      · have hset : (w0.added t delay not_running now).IsSet u ↔ w0.IsSet u := by
          rw [added_isSet]
          exact or_iff_left hne
        simp only [Wheel.held, hset]
        exact Nat.le_add_right _ _
  | remove t =>
    obtain ⟨-, -, rfl⟩ := h
    refine ⟨hl.removed t, fun _ hrun => ?_, fun u => ?_⟩
    · rw [(removed_same w0 t).running]
      exact hrun
    · refine le_trans ?_ (Nat.le_add_right _ _)
      rw [Wheel.held, Wheel.held]
      split
      · rename_i hu
        rw [if_pos (removed_isSet.mp hu).1]
      · exact Nat.zero_le _
  | run fuel now =>
    refine ⟨h.linked, ?_, fun u => (h.taken u).trans (Nat.le_add_right _ _)⟩
    rintro rfl hrun
    rw [h.running, hrun]
    rfl

theorem ThreadsOk.step (h : ThreadsOk x events mine) (hs : x.Step e y) :
    ∃ mine', ThreadsOk y (events ++ [e]) mine' := by
  cases hs with
  | @start i call hi =>
    have hkeeps := h.progs i
    rw [hi] at hkeeps
    refine ⟨_, h.after h.linked
      (show (WheelThread.ready call call.prog).Keeps false from call.keeps_prog)
      (fun h => by cases h) (fun h => by cases h) (fun _ hrun => hrun) fun t => ?_⟩
    exact Nat.le_add_right _ _
  | @done i call k ret w hi hk =>
    have hkeeps := h.progs i
    rw [hi] at hkeeps
    have hpost := advance_sat (hkeeps x.wheel h.linked (h.flag i))
    rw [hk] at hpost
    obtain ⟨hl, hkeep, hcount⟩ := hpost.frame h.linked
    refine ⟨_, h.after hl (show WheelThread.idle.Keeps false from rfl) (fun h => by cases h)
      (fun h => by cases h) hkeep fun t => ?_⟩
    have hbegan : [call.event x.wheel ret].count (.began t) = 0 := by
      cases call with
      | add u delay not_running now =>
        rw [WheelCall.event]
        split <;> rfl
      | remove u => rfl
      | run fuel now => rfl
    rw [hi, hbegan]
    exact hcount t
  | @released i call k k' cbs w hi hk =>
    have hkeeps := h.progs i
    rw [hi] at hkeeps
    have hsat := advance_sat (hkeeps x.wheel h.linked (h.flag i))
    rw [hk] at hsat
    obtain ⟨m, ⟨rfl, hflag, hrun, hl, htaken⟩, hk'⟩ := hsat
    have hcall : (WheelThread.calling cbs call k').Keeps true :=
      ⟨rfl, fun w' hl' hrun' => hk' w' ⟨hrun' rfl, hl'⟩⟩
    refine ⟨_, h.after hl hcall (fun _ => ?_) (fun _ => hrun) (fun _ _ => hrun) fun t => ?_⟩
    · cases hm : mine i with
      | true => exact .inl rfl
      | false => exact .inr (hflag hm)
    · rw [hi]
      exact htaken t
  | @began i t cbs call k hi =>
    have hkeeps := h.progs i
    rw [hi] at hkeeps
    refine ⟨_, h.after h.linked (show (WheelThread.inside t cbs call k).Keeps _ from hkeeps)
      (fun _ => .inl hkeeps.1) (fun _ => h.flag i hkeeps.1) (fun _ hrun => hrun) fun u => ?_⟩
    rw [hi]
    change x.wheel.held u + cbs.count u + _ ≤ x.wheel.held u + (t :: cbs).count u + _
    rcases eq_or_ne u t with rfl | hne
    · rw [List.count_singleton_self, List.count_cons_self]
      omega
    · have hnone : [WheelEvent.began t].count (.began u) = 0 :=
        List.count_eq_zero_of_not_mem (by simpa using hne)
      rw [List.count_cons_of_ne hne.symm, hnone]
      exact Nat.le_add_right _ _
  | @ended i t cbs call k hi =>
    have hkeeps := h.progs i
    rw [hi] at hkeeps
    refine ⟨_, h.after h.linked (show (WheelThread.calling cbs call k).Keeps _ from hkeeps)
      (fun _ => .inl hkeeps.1) (fun _ => h.flag i hkeeps.1) (fun _ hrun => hrun) fun u => ?_⟩
    rw [hi]
    exact le_rfl
  | @resumed i call k hi =>
    have hkeeps := h.progs i
    rw [hi] at hkeeps
    refine ⟨_, h.after h.linked (show (WheelThread.ready call k).Keeps _ from hkeeps.2)
      (fun _ => .inl hkeeps.1) (fun _ => h.flag i hkeeps.1) (fun _ hrun => hrun) fun u => ?_⟩
    rw [hi]
    exact le_rfl

theorem ThreadsOk.runs (h : ThreadsOk x events mine) (hr : x.Runs post y) :
    ∃ mine', ThreadsOk y (events ++ post) mine' := by
  induction hr with
  | nil => exact ⟨mine, by rw [List.append_nil]; exact h⟩
  | snoc _ hs ih =>
    obtain ⟨mine', h'⟩ := ih
    rw [← List.append_assoc]
    exact h'.step hs

/-! ## A timer that has gone -/

/-- The timer is neither in the wheel nor in anybody's hand, and its callback is not running. -/
structure Gone (t : TimerId) (x : WheelPool) : Prop where
  unset : ¬ x.wheel.IsSet t
  hand : ∀ i, t ∉ (x.threads i).hand
  callback : ∀ i, ¬ (x.threads i).In t

theorem Gone.after (h : Gone t x) (hset : ¬ w.IsSet t) (hhand : t ∉ th.hand) (hin : ¬ th.In t) :
    Gone t (x.after i th w) where
  unset := hset
  hand j := by
    rcases eq_or_ne j i with rfl | hne
    · simpa [WheelPool.after] using hhand
    · simpa [WheelPool.after, hne] using h.hand j
  callback j := by
    rcases eq_or_ne j i with rfl | hne
    · simpa [WheelPool.after] using hin
    · simpa [WheelPool.after, hne] using h.callback j

theorem held_eq_zero : w.held t = 0 ↔ ¬ w.IsSet t := by
  rw [Wheel.held]
  split <;> simp_all

theorem Gone.step (h : Gone t x) (hok : ThreadsOk x events mine) (hs : x.Step e y)
    (he : e ≠ .added t) : Gone t y ∧ e ≠ .began t := by
  have hzero := held_eq_zero.mpr h.unset
  cases hs with
  | start call hi => exact ⟨h.after h.unset List.not_mem_nil id, fun heq => by cases heq⟩
  | @done i call k ret w hi hk =>
    have hkeeps := hok.progs i
    rw [hi] at hkeeps
    have hpost := advance_sat (hkeeps x.wheel hok.linked (hok.flag i))
    rw [hk] at hpost
    obtain ⟨-, -, hcount⟩ := hpost.frame hok.linked
    have hle := hcount t
    rw [hzero, List.count_eq_zero_of_not_mem (by simpa using he.symm)] at hle
    refine ⟨h.after (held_eq_zero.mp (Nat.le_zero.mp hle)) List.not_mem_nil id, ?_⟩
    cases call with
    | add u delay not_running now =>
      rw [WheelCall.event]
      split <;> exact fun heq => by cases heq
    | remove u => exact fun heq => by cases heq
    | run fuel now => exact fun heq => by cases heq
  | @released i call k k' cbs w hi hk =>
    have hkeeps := hok.progs i
    rw [hi] at hkeeps
    have hsat := advance_sat (hkeeps x.wheel hok.linked (hok.flag i))
    rw [hk] at hsat
    obtain ⟨-, ⟨-, -, -, -, htaken⟩, -⟩ := hsat
    have hle := htaken t
    rw [hzero] at hle
    have hnot : t ∉ cbs := List.count_eq_zero.mp (by omega)
    exact ⟨h.after (held_eq_zero.mp (by omega)) hnot id, fun heq => by cases heq⟩
  | @began i u cbs call k hi =>
    have hhand := h.hand i
    rw [hi] at hhand
    rw [WheelThread.hand, List.mem_cons, not_or] at hhand
    obtain ⟨hne, hcbs⟩ := hhand
    exact ⟨h.after h.unset hcbs (Ne.symm hne), fun heq => by cases heq; exact hne rfl⟩
  | @ended i u cbs call k hi =>
    have hhand := h.hand i
    rw [hi] at hhand
    exact ⟨h.after h.unset hhand id, fun heq => by cases heq⟩
  | resumed hi => exact ⟨h.after h.unset List.not_mem_nil id, fun heq => by cases heq⟩

theorem Gone.runs (h : Gone t x) (hok : ThreadsOk x events mine) (hr : x.Runs post y)
    (hadded : .added t ∉ post) : Gone t y ∧ .began t ∉ post := by
  induction hr with
  | nil => exact ⟨h, List.not_mem_nil⟩
  | @snoc post e y z hr hs ih =>
    rw [List.mem_append, not_or, List.mem_singleton] at hadded
    obtain ⟨hy, hbegan⟩ := ih hadded.1
    obtain ⟨mine', hok'⟩ := hok.runs hr
    obtain ⟨hz, hne⟩ := hy.step hok' hs (Ne.symm hadded.2)
    refine ⟨hz, ?_⟩
    rw [List.mem_append, not_or, List.mem_singleton]
    exact ⟨hbegan, Ne.symm hne⟩

theorem ThreadsOk.gone (h : ThreadsOk x events mine) (hs : x.Step (.removed t false) y) :
    Gone t y := by
  generalize he : WheelEvent.removed t false = e at hs
  cases hs with
  | start call hi => cases he
  | @done i call k ret w hi hk =>
    have hkeeps := h.progs i
    rw [hi] at hkeeps
    have hpost := advance_sat (hkeeps x.wheel h.linked (h.flag i))
    rw [hk] at hpost
    cases call with
    | add u delay not_running now =>
      rw [WheelCall.event] at he
      split at he <;> cases he
    | run fuel now => cases he
    | remove u =>
      cases he
      obtain ⟨-, hrun, rfl⟩ := hpost
      have hmine : ∀ j, mine j = false := by
        intro j
        cases hj : mine j with
        | false => rfl
        | true =>
          rw [h.flag j hj] at hrun
          cases hrun
      have hgone : ∀ j, t ∉ (x.threads j).hand ∧ ¬ (x.threads j).In t := by
        intro j
        have hj := h.progs j
        rw [hmine j] at hj
        refine ⟨by rw [hj.hand_nil]; exact List.not_mem_nil, fun hin => ?_⟩
        cases hth : x.threads j with
        | inside u cbs call k =>
          rw [hth] at hj
          cases hj.1
        | _ =>
          rw [hth] at hin
          exact hin
      constructor
      · exact fun hset => (removed_isSet.mp hset).2 rfl
      · intro j
        rcases eq_or_ne j i with rfl | hne
        · simp [WheelPool.after, WheelThread.hand]
        · simpa [WheelPool.after, hne] using (hgone j).1
      · intro j
        rcases eq_or_ne j i with rfl | hne
        · simp [WheelPool.after, WheelThread.In]
        · simpa [WheelPool.after, hne] using (hgone j).2
  | released hi hk => cases he
  | began hi => cases he
  | ended hi => cases he
  | resumed hi => cases he

end

/-- A wheel without timers that nobody runs. -/
structure Wheel.Fresh (w : Wheel) : Prop where
  pos : 0 < w.num_slots
  slots : ∀ i, w.slots i = []
  unset : ∀ t, ¬ w.IsSet t
  running : w.running = false
  run_again : w.run_again = false

theorem Wheel.Fresh.threadsOk (h : w.Fresh) :
    ThreadsOk (.start w) [] fun _ => false where
  linked :=
    { pos := h.pos
      mem := fun i t => by simp [WheelPool.start, h.slots, h.unset]
      nodup := fun i => by simp [WheelPool.start, h.slots]
      range := fun t ht => absurd ht (h.unset t)
      bit := fun i hi => absurd (h.slots i) hi }
  progs _ := rfl
  one _ _ hi := by cases hi
  flag _ hi := by cases hi
  count i t := by
    change w.held t + 0 + 0 ≤ 0
    rw [held_eq_zero.mpr (h.unset t)]

/-- **After a removal that returns false the timer can be freed.** In every interleaving of threads
on a wheel that starts empty, the callback of a timer has been entered no more often than it has
been added; and after a removal that returns false its callback is not running, and is not entered
before the timer is added again. -/
theorem removed_false_callbacks {w : Wheel} {events : List WheelEvent} {x : WheelPool}
    (hw : w.Fresh) (hx : (WheelPool.start w).Runs events x) (t : TimerId) :
    events.count (.began t) ≤ events.count (.added t) ∧
      ∀ {y z : WheelPool} {post : List WheelEvent}, x.Step (.removed t false) y → y.Runs post z →
        .added t ∉ post → .began t ∉ post ∧ ∀ i, ¬ (z.threads i).In t := by
  obtain ⟨mine, hok⟩ := hw.threadsOk.runs hx
  rw [List.nil_append] at hok
  refine ⟨?_, fun hs hr hadded => ?_⟩
  · exact le_trans (Nat.le_add_left _ _) (hok.count 0 t)
  · obtain ⟨mine', hok'⟩ := hok.step hs
    obtain ⟨hgone, hbegan⟩ := (hok.gone hs).runs hok' hr hadded
    exact ⟨hbegan, hgone.callback⟩

theorem Wheel.Fresh.zero (hn : 0 < n) : (Wheel.zero n).Fresh :=
  ⟨hn, fun _ => rfl, (fun _ h => by cases h), rfl, rfl⟩

/-- A timer is added by one thread and removed by another. -/
theorem removed_false_callbacks_twoThreads : ∃ x y,
    (WheelPool.start (Wheel.zero 1)).Runs [.other, .added 0, .other] x ∧
      x.Step (.removed 0 false) y ∧ ∀ i, ¬ (y.threads i).In 0 := by
  have h1 := WheelPool.Runs.nil.snoc
    (.start (x := .start (Wheel.zero 1)) (i := 0) (.add 0 1 false 0) rfl)
  have h2 := h1.snoc (.done (i := 0) rfl rfl)
  have h3 := h2.snoc (.start (i := 1) (.remove 0) rfl)
  refine ⟨_, _, h3, @WheelPool.Step.done _ 1 (.remove 0) _ false _ rfl rfl, ?_⟩
  exact ((removed_false_callbacks (.zero (by decide)) h3 0).2
    (@WheelPool.Step.done _ 1 (.remove 0) _ false _ rfl rfl) .nil
    List.not_mem_nil).2

end Xdp2
