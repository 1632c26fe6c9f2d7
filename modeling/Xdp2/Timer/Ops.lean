import Xdp2.Timer.Lists

/-!
# Adding and removing timers, as functions

`xdp2_timer_remove` and `__xdp2_timer_add` hold the mutex from beginning to end, so each is a
function of the wheel, `Wheel.removed` and `Wheel.added`, and keeps the lists in order.
-/

namespace Xdp2

open Locked

/-- The wheel after `xdp2_timer_remove`. -/
def Wheel.removed (w : Wheel) (t : TimerId) : Wheel :=
  if w.IsSet t then (w.unlink (w.timers t).index t).clearIfEmpty (w.timers t).index else w

/-- The wheel after the set-up of a timer. -/
def Wheel.setup (w : Wheel) (t : TimerId) (expire_time current_time : Nat) : Wheel :=
  if w.NeedsPop expire_time then
    ((w.link t expire_time).expireAt expire_time current_time).setNextTimerPop
  else w.link t expire_time

/-- The wheel after `__xdp2_timer_add`. -/
def Wheel.added (w : Wheel) (t : TimerId) (delay : Nat) (not_running : Bool)
    (current_time : Nat) : Wheel :=
  if w.IsSet t ∧ not_running then w
  else (w.removed t).setup t (ul (current_time + atLeastOne delay)) current_time

section
variable {γ : Type} {w : Wheel}

theorem wp_timerRemoveLocked (Q : Unit → γ → Wheel → Wheel → Prop) (ht : w.IsSet t) :
    wp c Q (timerRemoveLocked t) g w0 w ↔ Q () g w0 (w.removed t) := by
  rw [Wheel.removed, if_pos ht, timerRemoveLocked, wp_bind, wp_get, wp_bind, wheelAssert,
    show (w.timers t).timer_set = true from ht, if_pos rfl, wp_pure, wp_set]

theorem wp_timerRemove (Q : Bool → γ → Wheel → Wheel → Prop) :
    wp c Q (xdp2TimerRemove t) g w0 w ↔ Q w.running g w0 (w.removed t) := by
  rw [xdp2TimerRemove, wp_bind, wp_get]
  by_cases ht : w.IsSet t
  · rw [if_pos (show (w.timers t).timer_set = true from ht), wp_bind, wp_timerRemoveLocked _ ht,
      wp_pure]
  · rw [if_neg (show ¬ (w.timers t).timer_set = true from ht), Wheel.removed, if_neg ht, wp_pure]

theorem wp_setupTimer (Q : Unit → γ → Wheel → Wheel → Prop) (e now : Nat)
    (hassert : w.NeedsPop e →
      seqnoGt e (if w.next_expire_time = w.last_runtime then now else w.last_runtime) = true ∨
        c.allows .assertion)
    (hQ : Q () g w0 (w.setup t e now)) : wp c Q (setupTimer t e now) g w0 w := by
  rw [setupTimer, wp_bind, wp_modify, wp_bind, wp_get]
  rw [Wheel.setup] at hQ
  by_cases hpop : w.NeedsPop e
  · rw [if_pos hpop] at hQ
    rw [if_pos (show (w.link t e).NeedsPop e from hpop)]
    dsimp only
    rw [wp_bind]
    exact wp_wheelAssert (hassert hpop) hQ
  · rw [if_neg hpop] at hQ
    rw [if_neg (show ¬ (w.link t e).NeedsPop e from hpop)]
    exact hQ

theorem removed_times (w : Wheel) (t : TimerId) :
    (w.removed t).next_expire_time = w.next_expire_time ∧
      (w.removed t).last_runtime = w.last_runtime := by
  rw [Wheel.removed]
  split
  · have h := (unlink_same w (w.timers t).index t).trans (clearIfEmpty_same _ (w.timers t).index)
    exact ⟨h.next_expire_time, h.last_runtime⟩
  · exact ⟨rfl, rfl⟩

theorem wp_timerAdd (Q : Unit → γ → Wheel → Wheel → Prop)
    (hassert : seqnoGt (ul (now + atLeastOne delay)) now = true ∨ c.allows .assertion)
    (hassert' : w.NeedsPop (ul (now + atLeastOne delay)) →
      seqnoGt (ul (now + atLeastOne delay))
        (if w.next_expire_time = w.last_runtime then now else w.last_runtime) = true ∨
        c.allows .assertion)
    (hQ : Q () g w0 (w.added t delay not_running now)) :
    wp c Q (xdp2TimerAdd t delay not_running now) g w0 w := by
  rw [xdp2TimerAdd, wp_bind]
  refine wp_wheelAssert hassert ?_
  rw [wp_bind, wp_get]
  rw [Wheel.added] at hQ
  generalize ul (now + atLeastOne delay) = e at *
  have hsetup : ∀ {Q : Unit → γ → Wheel → Wheel → Prop},
      Q () g w0 ((w.removed t).setup t e now) →
      wp c Q (setupTimer t e now) g w0 (w.removed t) := by
    intro Q hQ
    obtain ⟨hnext, hlast⟩ := removed_times w t
    refine wp_setupTimer Q e now (fun hpop => ?_) hQ
    rw [hnext, hlast]
    rw [Wheel.NeedsPop, hnext, hlast] at hpop
    exact hassert' hpop
  by_cases ht : w.IsSet t
  · rw [if_pos (show (w.timers t).timer_set = true from ht)]
    cases not_running with
    | true =>
      rw [if_pos ⟨ht, rfl⟩] at hQ
      exact hQ
    | false =>
      rw [if_neg (by simp)] at hQ
      rw [if_neg (by simp), wp_bind, wp_timerRemoveLocked _ ht]
      exact hsetup hQ
  · rw [if_neg fun h => ht h.1] at hQ
    rw [if_neg (show ¬ (w.timers t).timer_set = true from ht)]
    have hsame : w.removed t = w := by rw [Wheel.removed, if_neg ht]
    rw [hsame] at hsetup hQ
    exact hsetup hQ

/-! ## The lists -/

theorem removed_isSet : (w.removed t).IsSet u ↔ w.IsSet u ∧ u ≠ t := by
  rw [Wheel.removed]
  split
  · rw [clearIfEmpty_isSet, unlink_isSet]
  · rename_i ht
    exact ⟨fun hu => ⟨hu, by rintro rfl; exact ht hu⟩, And.left⟩

theorem removed_same (w : Wheel) (t : TimerId) : SameTimes w (w.removed t) := by
  rw [Wheel.removed]
  split
  · exact (unlink_same w _ t).trans (clearIfEmpty_same _ _)
  · exact .refl w

theorem Linked.removed (h : Linked w) (t : TimerId) : Linked (w.removed t) := by
  rw [Wheel.removed]
  split
  · rename_i ht
    exact (h.unlink ((h.mem _ t).mpr ⟨ht, rfl⟩)).clearIfEmpty _
  · exact h

theorem setup_lists (w : Wheel) (t : TimerId) (e now : Nat) :
    (w.setup t e now).num_slots = w.num_slots ∧
      (w.setup t e now).slots = (w.link t e).slots ∧
      (w.setup t e now).timers = (w.link t e).timers ∧
      (w.setup t e now).slot_bitmap = (w.link t e).slot_bitmap ∧
      (w.setup t e now).calls = w.calls ∧ (w.setup t e now).running = w.running ∧
      (w.setup t e now).run_again = w.run_again := by
  rw [Wheel.setup]
  split <;> exact ⟨rfl, rfl, rfl, rfl, rfl, rfl, rfl⟩

theorem Linked.setup (h : Linked w) (ht : ¬ w.IsSet t) (e now : Nat) :
    Linked (w.setup t e now) := by
  obtain ⟨hnum, hslots, htimers, hbitmap, -⟩ := setup_lists w t e now
  exact (h.link ht e).of_lists hnum hslots htimers hbitmap

theorem setup_isSet (e now : Nat) : (w.setup t e now).IsSet u ↔ w.IsSet u ∨ u = t := by
  rw [← link_isSet e]
  unfold Wheel.IsSet
  rw [(setup_lists w t e now).2.2.1]

theorem added_isSet :
    (w.added t delay not_running now).IsSet u ↔ w.IsSet u ∨ u = t := by
  rw [Wheel.added]
  split
  · rename_i h
    exact ⟨.inl, fun hu => hu.elim id fun heq => by rw [heq]; exact h.1⟩
  · rw [setup_isSet, removed_isSet]
    tauto

theorem Linked.added (h : Linked w) (t : TimerId) (delay : Nat) (not_running : Bool) (now : Nat) :
    Linked (w.added t delay not_running now) := by
  rw [Wheel.added]
  split
  · exact h
  · exact (h.removed t).setup (fun ht => (removed_isSet.mp ht).2 rfl) _ _

end

end Xdp2
