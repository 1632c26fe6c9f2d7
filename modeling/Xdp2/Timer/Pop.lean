import Xdp2.Timer.Expire

/-!
# The pop timer

The time handed to `set_next_timer_pop` last should come after the last run of the wheel and no
later than the first expiration. The wheel takes its pop timer for stopped when `next_expire_time`
is `last_runtime`. After a late run that leaves no timer it lies before `last_runtime`, and the next
timer added is not earlier, so no time is handed out for it: the only way to go wrong
(`popsInTime_iff`).
-/

namespace Xdp2

open Locked

/-- The last time handed out runs the wheel in time for the timers that are set; `r` is the time of
the last run. -/
def PopInTime (w : Wheel) (r : Option Nat) : Prop :=
  (∃ t, w.IsSet t) → ∃ p, w.pops.getLast? = some p ∧ (∀ x, r = some x → x < p) ∧
    ∀ t, w.IsSet t → p ≤ w.expiration t

/-- The time of the last run after an operation. -/
def WheelOp.lastRun (r : Option Nat) : WheelOp → Option Nat
  | run now => some now
  | _ => r

/-- So it is after each operation of a sequence. -/
def PopsInTime (fuel : Nat) : List WheelOp → Wheel → Option Nat → Prop
  | [], _, _ => True
  | op :: ops, w, r => ∃ w', op.exec fuel w = .ok w' ∧ PopInTime w' (op.lastRun r) ∧
      PopsInTime fuel ops w' (op.lastRun r)

/-- A timer is not added to a wheel without timers whose time to expire lies before its last run. -/
def WheelOp.Fresh (w : Wheel) : WheelOp → Prop
  | add _ _ _ _ => (∀ u, ¬ w.IsSet u) → w.last_runtime ≤ w.next_expire_time
  | _ => True

/-- No operation of a sequence does so. -/
def AddsFresh (fuel : Nat) : List WheelOp → Wheel → Prop
  | [], _ => True
  | op :: ops, w => op.Fresh w ∧ ∀ w', op.exec fuel w = .ok w' → AddsFresh fuel ops w'

/-- What holds between operations as long as the timers are added in time. -/
structure PopOk (w : Wheel) (r : Option Nat) : Prop where
  last : w.pops.getLast? = some w.next_expire_time ∨ (w.pops = [] ∧ w.next_expire_time = 0)
  stale : w.next_expire_time < w.last_runtime → r = some w.last_runtime
  run : ∀ x, r = some x → x ≤ w.last_runtime
  near : w.next_expire_time ≤ w.last_runtime + 2 ^ 63
  set : ∀ t, w.IsSet t → w.last_runtime < w.next_expire_time ∧ w.next_expire_time ≤ w.expiration t

theorem PopOk.zero (n : Nat) : PopOk (Wheel.zero n) none where
  last := .inr ⟨rfl, rfl⟩
  stale h := by cases h
  run x h := by cases h
  near := Nat.zero_le _
  set t ht := by cases ht

theorem PopOk.inTime (h : PopOk w r) : PopInTime w r := by
  rintro ⟨t, ht⟩
  obtain ⟨hlt, -⟩ := h.set t ht
  have hlast : w.pops.getLast? = some w.next_expire_time :=
    h.last.resolve_right fun hnone => by omega
  exact ⟨_, hlast, fun x hx => lt_of_le_of_lt (h.run x hx) hlt, fun u hu => (h.set u hu).2⟩

theorem PopOk.removed (h : PopOk w r) (t : TimerId) : PopOk (w.removed t) r := by
  have hs := removed_same w t
  refine ⟨?_, ?_, ?_, ?_, fun u hu => ?_⟩
  · rw [hs.pops, hs.next_expire_time]; exact h.last
  · rw [hs.next_expire_time, hs.last_runtime]; exact h.stale
  · rw [hs.last_runtime]; exact h.run
  · rw [hs.next_expire_time, hs.last_runtime]; exact h.near
  · rw [hs.next_expire_time, hs.last_runtime, hs.expiration]
    exact h.set u (removed_isSet.mp hu).1

theorem PopOk.needsPop (h : PopOk w r) (hi : Idle w c) (hc : c ≤ now) (hnow : now < e)
    (he : e < 2 ^ 63) :
    w.NeedsPop e ↔ e < w.next_expire_time ∨ w.next_expire_time = w.last_runtime := by
  have hlast := hi.last
  have hnear := h.near
  rw [Wheel.NeedsPop, seqnoLt_eq_gt, seqnoGt_iff (by omega) (by omega)]

theorem PopOk.setup (h : PopOk w r) (hi : Idle w c) (hc : c ≤ now) (hnow : now < e)
    (he : e < 2 ^ 63) (hfresh : w.last_runtime ≤ w.next_expire_time) :
    PopOk (w.setup t e now) r := by
  have hpop := h.needsPop hi hc hnow he
  have hlast := hi.last
  have hset : ∀ u, (w.setup t e now).IsSet u →
      (w.setup t e now).expiration u = e ∨
        w.IsSet u ∧ (w.setup t e now).expiration u = w.expiration u := by
    intro u hu
    rw [setup_expiration]
    rcases eq_or_ne u t with rfl | hne
    · exact .inl (link_expiration w u e)
    · exact .inr ⟨((setup_isSet e now).mp hu).resolve_right hne, link_expiration_ne hne e⟩
  rcases setup_times w t e now with ⟨hneeds, hnext', hlast', hpops⟩ | ⟨hneeds, hnext', hlast', hpops⟩
  · -- a new time is handed out
    have hle : (w.setup t e now).last_runtime ≤ now ∧
        w.last_runtime ≤ (w.setup t e now).last_runtime := by
      rw [hlast']
      split <;> omega
    rw [hpop] at hneeds
    refine ⟨?_, fun hlt => by omega, fun x hx => (h.run x hx).trans hle.2, by omega, fun u hu => ?_⟩
    · rw [hpops, hnext']
      exact .inl List.getLast?_concat
    · rw [hnext']
      refine ⟨by omega, ?_⟩
      rcases hset u hu with hexp | ⟨hu', hexp⟩
      · exact hexp.ge
      · have hu'' := h.set u hu'
        omega
  · rw [hpop] at hneeds
    refine ⟨?_, ?_, ?_, ?_, fun u hu => ?_⟩
    · rw [hpops, hnext']; exact h.last
    · rw [hnext', hlast']; exact h.stale
    · rw [hlast']; exact h.run
    · rw [hnext', hlast']; exact h.near
    · rw [hnext', hlast']
      refine ⟨by omega, ?_⟩
      rcases hset u hu with hexp | ⟨hu', hexp⟩
      · omega
      · rw [hexp]
        exact (h.set u hu').2

theorem PopOk.ranAt (h : PopOk w r) (hi : Idle w c) (hc : c ≤ now) (hr : RanAt w now w') :
    PopOk w' (some now) := by
  have hi' := hi.ranAt hr
  have hlast := hi.last
  have hnear := h.near
  obtain ⟨w1, hf, hnext⟩ := hr
  have hlast' : w'.last_runtime = now := hnext.frame.2.2.2.2.1
  have hset : ∀ t, w'.IsSet t → w'.last_runtime < w'.next_expire_time ∧
      w'.next_expire_time ≤ w'.expiration t := by
    intro t ht
    obtain ⟨m, heq, hlt, hle⟩ := hnext.found t (by rwa [Wheel.IsSet, hnext.frame.2.2.1] at ht)
    rw [heq]
    exact ⟨hlt, hle⟩
  have hn := hi.slots
  rw [← hf.same.num_slots] at hn
  refine ⟨?_, fun _ => by rw [hlast'], fun x hx => by cases hx; exact hlast'.ge, ?_, hset⟩
  · rcases hnext.near with heq | ⟨m, heq, -⟩
    · rw [heq]
      have hl := h.last
      rw [← hf.same.pops, ← hf.same.next_expire_time] at hl
      exact hl
    · rw [heq]
      exact .inl List.getLast?_concat
  · rcases hnext.near with heq | ⟨m, heq, -, hle⟩
    · have hnext' : w'.next_expire_time = w.next_expire_time := by
        rw [heq]
        exact hf.same.next_expire_time
      omega
    · have hnext' : w'.next_expire_time = m := by rw [heq]; rfl
      have hle' : m ≤ now + 1 + w1.num_slots := hle
      omega

/-! ## Sequences of operations -/

theorem PopOk.step {k : Nat} {op : WheelOp} (h : PopOk w r) (hi : Idle w c) (hc : c ≤ op.time c)
    (hlt : op.time c < 2 ^ 63) (hrange : op.InRange) (hlen : ∀ i, (w.slots i).length ≤ k)
    (hfuel : k < fuel) (hexec : op.exec fuel w = .ok w') (hfresh : op.Fresh w) :
    PopOk w' (op.lastRun r) := by
  cases op with
  | add t delay not_running now =>
    have hpos := atLeastOne_pos delay
    change c ≤ now at hc
    rw [exec_add hi hc hrange] at hexec
    cases hexec
    rw [Wheel.added]
    split
    · exact h
    · rw [ul_eq (lt_trans hrange (by decide))]
      refine (h.removed t).setup (hi.removed t) hc (show now < now + atLeastOne delay by omega)
        hrange ?_
      rw [(removed_same w t).last_runtime, (removed_same w t).next_expire_time]
      rcases Classical.em (∃ u, w.IsSet u) with ⟨u, hu⟩ | hnone
      · exact (h.set u hu).1.le
      · exact hfresh (not_exists.mp hnone)
  | remove t =>
    rw [exec_remove] at hexec
    cases hexec
    exact h.removed t
  | run now =>
    change c ≤ now at hc
    change now < 2 ^ 63 at hlt
    obtain ⟨w2, hexec', hran⟩ := exec_run hi hc hlt fun i => lt_of_le_of_lt (hlen i) hfuel
    rw [hexec'] at hexec
    cases hexec
    exact h.ranAt hi hc hran

/-- After an add of a timer to a wheel without timers whose time to expire lies before its last run,
the last time handed out is still that one. -/
theorem PopOk.fresh {op : WheelOp} (h : PopOk w r) (hi : Idle w c) (hc : c ≤ op.time c)
    (hrange : op.InRange) (hexec : op.exec fuel w = .ok w') (hin : PopInTime w' (op.lastRun r)) :
    op.Fresh w := by
  cases op with
  | add t delay not_running now =>
    intro hnone
    by_contra hlate
    have hpos := atLeastOne_pos delay
    have hlast := hi.last
    change c ≤ now at hc
    rw [exec_add hi hc hrange] at hexec
    cases hexec
    rw [Wheel.added, if_neg fun ht => hnone t ht.1, ul_eq (lt_trans hrange (by decide)),
      Wheel.removed, if_neg (hnone t)] at hin
    obtain ⟨p, hp, hrun, -⟩ := hin ⟨t, (setup_isSet _ now).mpr (.inr rfl)⟩
    have hneeds : ¬ w.NeedsPop (now + atLeastOne delay) := by
      rw [h.needsPop hi hc (show now < now + atLeastOne delay by omega) hrange]
      omega
    have hpops : (w.setup t (now + atLeastOne delay) now).pops = w.pops := by
      rcases setup_times w t (now + atLeastOne delay) now with ⟨hyes, -⟩ | ⟨-, -, -, hpops⟩
      · exact absurd hyes hneeds
      · exact hpops
    have hlt := hrun _ (h.stale (not_le.mp hlate))
    rw [hpops] at hp
    rcases h.last with heq | ⟨heq, -⟩
    · rw [heq] at hp
      cases hp
      omega
    · rw [heq] at hp
      cases hp
  | remove t => trivial
  | run now => trivial

theorem popsInTime_from : ∀ {ops : List WheelOp} {w : Wheel} {r : Option Nat} {c k : Nat},
    PopOk w r → Idle w c → ClockFrom c ops → (∀ op ∈ ops, op.InRange) →
    (∀ i, (w.slots i).length ≤ k) → k + ops.length < fuel →
    (PopsInTime fuel ops w r ↔ AddsFresh fuel ops w) := by
  intro ops
  induction ops with
  | nil => intros; exact Iff.rfl
  | cons op ops ih =>
    intro w r c k h hi hclock hrange hlen hfuel
    obtain ⟨hc, hlt, hclock⟩ := hclock
    rw [List.length_cons] at hfuel
    have hop := hrange op List.mem_cons_self
    obtain ⟨w', href, hi', hlen'⟩ := opRefines hi hc hlt hop hlen (show k < fuel by omega)
    have hexec := href.exec
    have hrest : op.Fresh w → PopOk w' (op.lastRun r) ∧
        (PopsInTime fuel ops w' (op.lastRun r) ↔ AddsFresh fuel ops w') := fun hfresh =>
      have h' := h.step hi hc hlt hop hlen (by omega) hexec hfresh
      ⟨h', ih h' hi' hclock (fun op hop => hrange op (List.mem_cons_of_mem _ hop)) hlen' (by omega)⟩
    constructor
    · rintro ⟨w2, hexec2, hin, hins⟩
      rw [hexec] at hexec2
      cases hexec2
      have hfresh := h.fresh hi hc hop hexec hin
      refine ⟨hfresh, fun w2 hexec2 => ?_⟩
      rw [hexec] at hexec2
      cases hexec2
      exact (hrest hfresh).2.mp hins
    · rintro ⟨hfresh, hadds⟩
      obtain ⟨h', hiff⟩ := hrest hfresh
      exact ⟨w', hexec, h'.inTime, hiff.mpr (hadds w' hexec)⟩

/-- **The pop timer is in time exactly if no timer is added to a wheel that ran late and was left
empty.** In every sequence of operations on a wheel that starts empty, at the times of a clock that
does not go back and with expirations below `2 ^ 63`. -/
theorem popsInTime_iff {n fuel : Nat} {ops : List WheelOp} (hn : 0 < n) (hn' : n < 2 ^ 31)
    (hclock : ClockFrom 0 ops) (hrange : ∀ op ∈ ops, op.InRange) (hfuel : ops.length < fuel) :
    PopsInTime fuel ops (Wheel.zero n) none ↔ AddsFresh fuel ops (Wheel.zero n) :=
  popsInTime_from (.zero n) (.zero hn hn') hclock hrange (fun _ => Nat.zero_le 0) (by omega)

/-- A run on time that leaves no timer, and an add after it. -/
theorem popsInTime_onTime :
    PopsInTime 4 [.add 0 3 false 10, .run 13, .add 1 2 false 13] (Wheel.zero 8) none := by
  refine (popsInTime_iff (by decide) (by decide) (by simp [ClockFrom, WheelOp.time])
    (by simp [WheelOp.InRange, atLeastOne]) (by decide)).mpr ⟨fun _ => le_rfl, fun w h => ?_⟩
  cases h
  refine ⟨trivial, fun w h => ?_⟩
  cases h
  exact ⟨fun _ => le_rfl, fun _ _ => trivial⟩

/-- A timer that expires at 1 is called at 5, and then a timer is added for 15: the last time handed
out is 1, which has passed. -/
theorem popsInTime_fails :
    ClockFrom 0 [.add 0 1 false 0, .run 5, .add 0 10 false 5] ∧
      ¬ PopsInTime 4 [.add 0 1 false 0, .run 5, .add 0 10 false 5] (Wheel.zero 8) none := by
  refine ⟨by simp [ClockFrom, WheelOp.time], fun h => ?_⟩
  obtain ⟨w1, h1, -, w2, h2, -, w3, h3, hin, -⟩ := h
  have hruns : (do
      let w1 ← (WheelOp.add 0 1 false 0).exec 4 (Wheel.zero 8)
      let w2 ← (WheelOp.run 5).exec 4 w1
      let w3 ← (WheelOp.add 0 10 false 5).exec 4 w2
      return ((w3.timers 0).timer_set, w3.pops.getLast?)) = .ok (true, some 1) := by decide +kernel
  simp only [h1, h2, h3, bind, Except.bind, pure, Except.pure, Except.ok.injEq,
    Prod.mk.injEq] at hruns
  obtain ⟨p, hp, hlt, -⟩ := hin ⟨0, hruns.1⟩
  rw [hruns.2] at hp
  cases hp
  exact absurd (hlt 5 rfl) (by decide)

end Xdp2
