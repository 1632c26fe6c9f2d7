import Xdp2.Bitmap.Search
import Xdp2.Bitmap.OpsSpec

/-!
# Polling

`__xdp2_fifo_sw_poll`: under the mutex of its poll group a poll returns the first FIFO from
`start_pos` on, around the end, that is ready and enabled; the next poll starts behind it. A poll
that finds none may wait and look again when woken. This is a round robin (`poll_fair`), but a poll
that has waited leaves the position where it was (`poll_unfair`).
-/

namespace Xdp2

/-! ## Data -/

/-- `xdp2_bitmap64`: words of 64 bits in the order of the host, first bits first. -/
def host64 : Layout 64 := ⟨.host 64, 0, by decide⟩

/-- `XDP2_POLL_GROUP_MAX_FIFOS`. -/
def maxFifos : Nat := 128

/-- The bitmaps of a poll group at one time that its mutex is held. -/
structure Look where
  fifos_ready : Words 64
  fifos_mask : Words 64

/-- The FIFO is ready and enabled. -/
def Look.Ready (l : Look) (i : Nat) : Prop :=
  host64.isset l.fifos_ready i = true ∧ host64.isset l.fifos_mask i = true

/-- A poll, with what it sees at first and each time that it is woken. -/
structure PollCall where
  wait : Bool
  first : Look
  later : List Look := []

/-- The end of a poll: what it returns, the look that it chose it from, and `start_pos` then. -/
structure Polled where
  v : Nat
  look : Look
  start_pos : Fin 128

/-! ## The poll -/

/-- The copy of the ready bits, under the mask. -/
def Look.fifos (l : Look) : Words 64 :=
  (host64.bitmap2Arg (.destsrc .and) .none l.fifos_ready (.array l.fifos_mask) 0 maxFifos).1

/-- The search from a position. -/
def Look.find (l : Look) (start_pos : Fin 128) : Nat :=
  host64.findRoll false l.fifos start_pos maxFifos

/-- The loop of a poll that waits; nothing while it is still waiting. -/
def waitPoll (start_pos : Fin 128) : List Look → Option Polled
  | [] => none
  | look :: later =>
      let v := look.find start_pos
      if maxFifos ≤ v then waitPoll start_pos later else some ⟨v, look, start_pos⟩

/-- `__xdp2_fifo_sw_poll`. -/
def swPoll (start_pos : Fin 128) (c : PollCall) : Option Polled :=
  let v := c.first.find start_pos
  if v < maxFifos then some ⟨v, c.first, ⟨(v + 1) % 128, Nat.mod_lt _ (by decide)⟩⟩
  else if c.wait then waitPoll start_pos c.later
  else some ⟨maxFifos, c.first, start_pos⟩

/-- Polls one after the other. -/
def polls (start_pos : Fin 128) : List PollCall → Option (List Polled)
  | [] => some []
  | c :: cs => do
    let r ← swPoll start_pos c
    let rs ← polls r.start_pos cs
    return r :: rs

/-! ## What a poll finds -/

/-- How far a position is behind another one, around the end. -/
def ahead (start i : Nat) : Nat := (i + 128 - start) % 128

section
variable {l : Look} {c : PollCall} {r : Polled} {start_pos : Fin 128}

theorem isset_fifos (hi : i < 128) : host64.isset l.fifos i = true ↔ l.Ready i := by
  have hand := (bitmap2Arg_tested (L := host64) (d := l.fifos_ready) (.destsrc .and) .none
    (.array l.fifos_mask) (Nat.zero_le maxFifos) (by decide)).1.bits i
  rw [Look.fifos, hand, if_pos ⟨Nat.zero_le i, hi⟩]
  change (host64.isset l.fifos_mask i && host64.isset l.fifos_ready i) = true ↔ _
  rw [Bool.and_eq_true, and_comm]
  exact Iff.rfl

theorem find_of_ready (start_pos : Fin 128) (hj : j < 128) (hready : l.Ready j) :
    l.find start_pos < 128 ∧ ahead start_pos (l.find start_pos) ≤ ahead start_pos j := by
  have hstart := start_pos.isLt
  have hbit : host64.matching false l.fifos j = true := by
    rw [Layout.matching, (isset_fifos hj).mpr hready]
    rfl
  have hrolls : Rolls (host64.matching false l.fifos) start_pos maxFifos (l.find start_pos) :=
    host64.findFunct_rolls false l.fifos 0 (Nat.le_of_lt hstart) (by decide)
  rw [ahead, ahead]
  by_cases hahead : ∃ x, start_pos.val ≤ x ∧ x < maxFifos ∧ host64.matching false l.fifos x = true
  · -- the first one from the position on
    have hfinds := hrolls.ahead hahead
    obtain ⟨x, hx, hx', hset⟩ := hahead
    have hge := hfinds.ge
    have hlt : l.find start_pos ≤ x := by
      by_contra hgt
      rw [hfinds.clear x hx (by omega)] at hset
      cases hset
    have hlt' : l.find start_pos < 128 := lt_of_le_of_lt hlt hx'
    refine ⟨hlt', ?_⟩
    rcases Nat.lt_or_ge j start_pos with hjlt | hjge
    · omega
    · have hle : l.find start_pos ≤ j := by
        by_contra hgt
        rw [hfinds.clear j hjge (by omega)] at hbit
        cases hbit
      omega
  · -- the first one from the start on
    have hnone : ∀ x, start_pos.val ≤ x → x < maxFifos →
        host64.matching false l.fifos x = false := by
      intro x hx hx'
      by_contra hset
      exact hahead ⟨x, hx, hx', by simpa using hset⟩
    have hfinds := hrolls.around hnone
    have hjlt : j < start_pos.val := by
      by_contra hjge
      rw [hnone j (by omega) hj] at hbit
      cases hbit
    have hle : l.find start_pos ≤ j := by
      by_contra hgt
      rw [hfinds.clear j (Nat.zero_le j) (by omega)] at hbit
      cases hbit
    exact ⟨by omega, by omega⟩

theorem waitPoll_eq : ∀ {later : List Look}, waitPoll start_pos later = some r →
    r.v = r.look.find start_pos ∧ r.start_pos = start_pos
  | [], h => by cases h
  | look :: later, h => by
    rw [waitPoll] at h
    split at h
    · exact waitPoll_eq h
    · cases h
      exact ⟨rfl, rfl⟩

theorem swPoll_of_ready (hr : swPoll start_pos c = some r) (hj : j < 128)
    (hready : r.look.Ready j) : r.v = r.look.find start_pos := by
  rw [swPoll] at hr
  split at hr
  · cases hr
    rfl
  · rename_i hnone
    split at hr
    · exact (waitPoll_eq hr).1
    · cases hr
      exact absurd (find_of_ready _ hj hready).1 hnone

theorem swPoll_start_pos (hr : swPoll start_pos c = some r) (hi : i < 128)
    (hfirst : c.first.Ready i) : r.v < 128 ∧ r.start_pos.val = (r.v + 1) % 128 := by
  have hfound : c.first.find start_pos < maxFifos := (find_of_ready _ hi hfirst).1
  rw [swPoll, if_pos hfound] at hr
  cases hr
  exact ⟨hfound, rfl⟩

end

/-! ## The round robin -/

section
variable {start_pos : Fin 128} {calls : List PollCall} {rs : List Polled} {k : Nat} {r ra rb : Polled}

theorem polls_cons_eq (h : polls start_pos (c :: cs) = some rs) :
    ∃ r rest, swPoll start_pos c = some r ∧ polls r.start_pos cs = some rest ∧ rs = r :: rest := by
  rw [polls, Option.bind_eq_bind, Option.bind_eq_some_iff] at h
  obtain ⟨r, hr, h⟩ := h
  rw [Option.bind_eq_bind, Option.bind_eq_some_iff] at h
  obtain ⟨rest, hrest, h⟩ := h
  cases h
  exact ⟨r, rest, hr, hrest, rfl⟩

theorem polls_get (h : polls start_pos calls = some rs) (hk : rs[k]? = some r) :
    ∃ c start, calls[k]? = some c ∧ swPoll start c = some r := by
  induction calls generalizing start_pos rs k with
  | nil =>
    cases h
    cases hk
  | cons c cs ih =>
    obtain ⟨r0, rest, hr0, hrest, rfl⟩ := polls_cons_eq h
    cases k with
    | zero =>
      cases hk
      exact ⟨c, start_pos, rfl, hr0⟩
    | succ k => exact ih hrest hk

theorem polls_get_succ (h : polls start_pos calls = some rs) (hk : rs[k]? = some r)
    (hk' : rs[k + 1]? = some r') :
    ∃ c, calls[k + 1]? = some c ∧ swPoll r.start_pos c = some r' := by
  induction calls generalizing start_pos rs k with
  | nil =>
    cases h
    cases hk
  | cons c cs ih =>
    obtain ⟨r0, rest, hr0, hrest, rfl⟩ := polls_cons_eq h
    cases k with
    | succ k => exact ih hrest hk hk'
    | zero =>
      cases hk
      cases cs with
      | nil =>
        cases hrest
        cases hk'
      | cons c' cs =>
        obtain ⟨r1, rest', hr1, -, rfl⟩ := polls_cons_eq hrest
        cases hk'
        exact ⟨c', rfl, hr1⟩

/-- The position after the first of the two polls and, as long as the other FIFO has not had its
turn, after every poll until the second: it has not gone past that FIFO. -/
theorem polls_ahead (h : polls start_pos calls = some rs) (hi : i < 128) (hj : j < 128)
    (ha : rs[a]? = some ra) (hai : ra.v = i)
    (hready : ∀ k r, a ≤ k → k ≤ b → rs[k]? = some r → r.look.Ready j)
    (hfirst : ∀ k c, a ≤ k → k < b → calls[k]? = some c → ∃ x, x < 128 ∧ c.first.Ready x)
    (hturn : ∀ k r, a < k → k < b → rs[k]? = some r → r.v ≠ j) (hak : a ≤ k) (hkb : k < b)
    (hk : rs[k]? = some r) :
    ahead (i + 1) r.start_pos ≤ ahead (i + 1) j := by
  induction k, hak using Nat.le_induction generalizing r with
  | base =>
    rw [ha] at hk
    cases hk
    obtain ⟨c, start, hc, hr⟩ := polls_get h ha
    obtain ⟨x, hx, hfx⟩ := hfirst a c le_rfl hkb hc
    have hpos := (swPoll_start_pos hr hx hfx).2
    rw [hai] at hpos
    simp only [ahead]
    omega
  | succ k hak ih =>
    have hlen : ∃ q, rs[k]? = some q := by
      obtain ⟨hlt, -⟩ := List.getElem?_eq_some_iff.mp hk
      exact ⟨_, List.getElem?_eq_getElem (by omega)⟩
    obtain ⟨q, hq⟩ := hlen
    have hbefore := ih (by omega) hq
    obtain ⟨c, hc, hr⟩ := polls_get_succ h hq hk
    have hset := hready (k + 1) r (by omega) (by omega) hk
    obtain ⟨x, hx, hfx⟩ := hfirst (k + 1) c (by omega) hkb hc
    obtain ⟨hv, hpos⟩ := swPoll_start_pos hr hx hfx
    have hturn' := hturn (k + 1) r (by omega) hkb hk
    have hfound := (find_of_ready q.start_pos hj hset).2
    rw [← swPoll_of_ready hr hj hset] at hfound
    have hstart := q.start_pos.isLt
    simp only [ahead] at hbefore hfound ⊢
    omega

end

/-- **The round robin is fair.** Where two polls return the FIFO `i`, and `j` is ready and enabled
when each poll from the first to the second chooses, a poll between them returns `j`, if some FIFO
is ready and enabled whenever one of the polls before the second starts. -/
theorem poll_fair {start_pos : Fin 128} {calls : List PollCall} {rs : List Polled}
    {a b i j : Nat} {ra rb : Polled} (hrun : polls start_pos calls = some rs) (hab : a < b)
    (ha : rs[a]? = some ra) (hb : rs[b]? = some rb) (hi : i < maxFifos) (hj : j < maxFifos)
    (hne : j ≠ i) (hai : ra.v = i) (hbi : rb.v = i)
    (hready : ∀ k r, a ≤ k → k ≤ b → rs[k]? = some r → r.look.Ready j)
    (hfirst : ∀ k c, a ≤ k → k < b → calls[k]? = some c → ∃ x, x < maxFifos ∧ c.first.Ready x) :
    ∃ k r, a < k ∧ k < b ∧ rs[k]? = some r ∧ r.v = j := by
  by_contra hnone
  have hturn : ∀ k r, a < k → k < b → rs[k]? = some r → r.v ≠ j :=
    fun k r hak hkb hk hv => hnone ⟨k, r, hak, hkb, hk, hv⟩
  obtain ⟨m, rfl⟩ : ∃ m, b = m + 1 := ⟨b - 1, by omega⟩
  have hlen : ∃ q, rs[m]? = some q := by
    obtain ⟨hlt, -⟩ := List.getElem?_eq_some_iff.mp hb
    exact ⟨_, List.getElem?_eq_getElem (by omega)⟩
  obtain ⟨q, hq⟩ := hlen
  have hbefore := polls_ahead hrun hi hj ha hai hready hfirst hturn (Nat.le_of_lt_succ hab)
    (Nat.lt_succ_self m) hq
  obtain ⟨c, -, hr⟩ := polls_get_succ hrun hq hb
  have hset := hready (m + 1) rb (Nat.le_of_lt hab) le_rfl hb
  have hfound := (find_of_ready q.start_pos hj hset).2
  rw [← swPoll_of_ready hr hj hset, hbi] at hfound
  have hstart := q.start_pos.isLt
  have hi' : i < 128 := hi
  have hj' : j < 128 := hj
  simp only [ahead] at hbefore hfound
  omega

/-- Two FIFOs are ready, and all are enabled. -/
def twoReady : Look := ⟨fun p => if p = 0 then 3 else 0, fun _ => .allOnes 64⟩

/-- None is ready. -/
def noneReady : Look := ⟨fun _ => 0, fun _ => .allOnes 64⟩

theorem twoReady_ready : twoReady.Ready 1 := by
  refine ⟨?_, ?_⟩ <;> decide +kernel

theorem twoReady_find : twoReady.find 0 = 0 ∧ twoReady.find 1 = 1 ∧ twoReady.find 2 = 0 := by
  refine ⟨?_, ?_, ?_⟩ <;> decide +kernel

theorem noneReady_find : noneReady.find 0 = 128 := by decide +kernel

/-- Three polls that find two FIFOs ready. -/
theorem poll_fair_three :
    polls 0 [⟨false, twoReady, []⟩, ⟨false, twoReady, []⟩, ⟨false, twoReady, []⟩] =
        some [⟨0, twoReady, 1⟩, ⟨1, twoReady, 2⟩, ⟨0, twoReady, 1⟩] ∧
      ∃ k r, 0 < k ∧ k < 2 ∧
        [(⟨0, twoReady, 1⟩ : Polled), ⟨1, twoReady, 2⟩, ⟨0, twoReady, 1⟩][k]? = some r ∧
        r.v = 1 := by
  have hrun : polls 0 [⟨false, twoReady, []⟩, ⟨false, twoReady, []⟩, ⟨false, twoReady, []⟩] =
      some [⟨0, twoReady, 1⟩, ⟨1, twoReady, 2⟩, ⟨0, twoReady, 1⟩] := by
    simp [polls, swPoll, twoReady_find, maxFifos]
  refine ⟨hrun, poll_fair hrun (by decide) rfl rfl (i := 0) (by decide) (by decide) (by decide)
    rfl rfl ?_ ?_⟩
  · intro k r _ hk hr
    interval_cases k <;> cases hr <;> exact twoReady_ready
  · intro k c _ hk hc
    interval_cases k <;> cases hc <;> exact ⟨1, by decide, twoReady_ready⟩

/-- The first poll waits until two FIFOs are ready and returns the first of them; the second poll
returns it again. -/
theorem poll_unfair :
    polls 0 [⟨true, noneReady, [twoReady]⟩, ⟨false, twoReady, []⟩] =
        some [⟨0, twoReady, 0⟩, ⟨0, twoReady, 1⟩] ∧ twoReady.Ready 1 := by
  refine ⟨?_, twoReady_ready⟩
  simp [polls, swPoll, waitPoll, twoReady_find, noneReady_find, maxFifos]

end Xdp2
