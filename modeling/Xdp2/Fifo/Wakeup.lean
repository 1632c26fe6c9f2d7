import Xdp2.Fifo.Queue

/-!
# Wake-ups

Any number of threads on one FIFO. `Asleep` is a state in which the FIFO is ready and its ready bit
is clear, so that a poller sleeps. The bits change under other mutexes than the FIFO: such states
come about all the time, and whoever brings one about repairs it in a later section
(`Locked.Pool.Keeps`).

For reading this works (`read_wakeup`), up to the size where `xdp2_fifo_num_in_queue` wraps. For
writing (`write_wakeup`) an enqueue that has cleared the bit has to find the FIFO below its low
water mark or still marked full; if it has been drained and filled again in part, the bit stays
clear (`write_wakeup_lost`).
-/

namespace Xdp2

open Locked Pool

/-! ## Sleeping pollers -/

/-- A poller for the side, which is enabled, sleeps although the FIFO is ready for it. -/
def Asleep (side : PollSide) (isReady : Fifo → Prop) (s : FifoState) : Prop :=
  ∃ b, s.poll side = some b ∧ b.mask = true ∧ b.ready = false ∧ isReady s.fifo

/-- An invariant of the FIFO itself. -/
def Inv (I : Fifo → Prop) (s : FifoState) : Prop := I s.fifo

section
variable {I R : Fifo → Prop} {cond : FifoLabel → FifoState → Prop} {side other : PollSide}
  {o o' o'' : Bool} {b : FifoLabel} {s s0 : FifoState} {p : FifoM Unit}

/-- The pieces of the programs keep the invariant `I` of the FIFO and see to the pollers of `side`. -/
abbrev Tends (I R : Fifo → Prop) (cond : FifoLabel → FifoState → Prop) (side : PollSide) (o : Bool)
    (b : FifoLabel) (p : FifoM Unit) (o' : Bool) : Prop :=
  Keeps (Inv I) (Asleep side R) cond o b p o'

theorem Asleep.congr (hpoll : s'.poll side = s.poll side) (hready : R s'.fifo → R s.fifo)
    (h : Asleep side R s') : Asleep side R s := by
  obtain ⟨bits, hbits, hmask, hclear, hR⟩ := h
  exact ⟨bits, hpoll ▸ hbits, hmask, hclear, hready hR⟩

theorem mapPoll_poll_of_ne (hne : side ≠ other) :
    (s.mapPoll other g).poll side = s.poll side :=
  Function.update_of_ne hne _ _

theorem passes_mapPoll_of_ne (hne : side ≠ other) (hI : Inv I s) :
    Passes (Inv I) (Asleep side R) o s (s.mapPoll other g) o :=
  .of_imp hI (Asleep.congr (mapPoll_poll_of_ne hne) id)

theorem not_asleep_makeReady : ¬ Asleep side R (s.mapPoll side PollBits.makeReady) := by
  rintro ⟨bits, hbits, hmask, hclear, -⟩
  simp only [FifoState.mapPoll, Function.update_self, Option.map_eq_some_iff] at hbits
  obtain ⟨bits0, -, rfl⟩ := hbits
  rw [PollBits.makeReady, Bool.or_eq_false_iff] at hclear
  rw [PollBits.makeReady, hclear.2] at hmask
  cases hmask

theorem not_asleep_of_isSome (h : ¬ (s.poll side).isSome = true) : ¬ Asleep side R s := by
  rintro ⟨bits, hbits, -⟩
  rw [hbits] at h
  exact h rfl

/-! ## The functions on poll groups -/

theorem makeReady_tends : Tends I R cond side o b (makeReady side) false := by
  refine Keeps.get fun s hs _ => ?_
  split
  · refine Passes.release (.same hs) (Keeps.modify fun s hs _ => ?_)
    exact .of_not_bad hs not_asleep_makeReady
  · rename_i hnone
    exact Passes.of_not_bad hs (not_asleep_of_isSome hnone)

theorem makeReady_tends_of_ne (hne : side ≠ other) :
    Tends I R cond side o b (makeReady other) o := by
  refine Keeps.get fun s hs _ => ?_
  split
  · refine Passes.release (.same hs) (Keeps.modify fun s hs _ => ?_)
    exact passes_mapPoll_of_ne hne hs
  · exact Passes.same hs

theorem markNonReady_tends : Tends I R cond side o b (markNonReady side) true := by
  refine Keeps.get fun s hs _ => ?_
  split
  · refine Passes.release (.same hs) (Keeps.modify fun s hs _ => ?_)
    exact .owing hs
  · exact Passes.owing hs

theorem markNonReady_tends_of_ne (hne : side ≠ other) :
    Tends I R cond side o b (markNonReady other) o := by
  refine Keeps.get fun s hs _ => ?_
  split
  · refine Passes.release (.same hs) (Keeps.modify fun s hs _ => ?_)
    exact passes_mapPoll_of_ne hne hs
  · exact Passes.same hs

theorem passes_unlockThen (h : Passes (Inv I) (Asleep side R) o s0 s o')
    (hp : c = true → Tends I R cond side o' .unlock p o'')
    (hc : c = false → Passes (Inv I) (Asleep side R) o s0 s o'') :
    wp (repairs (Inv I) (Asleep side R) cond)
      (fun _ o s0 s => Passes (Inv I) (Asleep side R) o s0 s o'')
      (unlockThen c p) o s0 s := by
  cases c with
  | true => exact h.release (hp rfl)
  | false => exact hc rfl

theorem recheck_tends (isReady : Fifo → Bool)
    (h : ∀ s, Inv I s → cond b s → isReady s.fifo = false → ¬ R s.fifo) :
    Tends I R cond side o b (get >>= fun s => unlockThen (isReady s.fifo) (makeReady side))
      false := by
  refine Keeps.get fun s hs hc => passes_unlockThen (.same hs) (fun _ => makeReady_tends) ?_
  intro hnot
  refine .of_not_bad hs ?_
  rintro ⟨_, -, -, -, hR⟩
  exact h s hs hc hnot hR

theorem recheck_tends_of_ne (hne : side ≠ other) (isReady : Fifo → Bool) :
    Tends I R cond side o b (get >>= fun s => unlockThen (isReady s.fifo) (makeReady other)) o :=
  Keeps.get fun _ hs _ =>
    passes_unlockThen (.same hs) (fun _ => makeReady_tends_of_ne hne) fun _ => .same hs

theorem enablePoll_tends
    (h : ∀ s, Inv I s → cond (.enabled side) s → isReady s.fifo = false → ¬ R s.fifo) :
    Tends I R cond side o b (enablePoll side isReady) false := by
  refine Keeps.get fun s hs _ => ?_
  split
  · exact Passes.release (.owing hs) (recheck_tends isReady h)
  · rename_i hnone
    exact Passes.of_not_bad hs (not_asleep_of_isSome hnone)

theorem enablePoll_tends_of_ne (hne : side ≠ other) :
    Tends I R cond side o b (enablePoll other isReady) o := by
  refine Keeps.get fun s hs _ => ?_
  split
  · exact Passes.release (passes_mapPoll_of_ne hne hs) (recheck_tends_of_ne hne isReady)
  · exact Passes.same hs

theorem wp_condWait (hQ : ∀ s, Inv I s → blocked s.fifo = false → Q () false s s)
    (h : Passes (Inv I) (Asleep side R) o s0 s false) :
    wp (repairs (Inv I) (Asleep side R) cond) Q (condWait blocked fuel) o s0 s := by
  induction fuel generalizing o s0 s with
  | zero => trivial
  | succ fuel ih =>
    refine ⟨false, h, fun s' hs' => ?_⟩
    change wp _ _ (if _ then _ else _) _ _ _
    split
    · exact ih (.same hs'.1)
    · rename_i hfree
      exact hQ s' hs'.1 (by simpa using hfree)

/-! ## Enqueue and dequeue -/

theorem wp_enqueueWork_tends
    (hput : Passes (Inv I) (Asleep side R) false s { s with fifo := s.fifo.put messagep } owed)
    (hfull : Tends I R cond side owed .unlock becameFull owed)
    (hempty : s.fifo.producer = s.fifo.consumer → Tends I R cond side owed .unlock makeReadable false)
    (hsome : s.fifo.producer ≠ s.fifo.consumer → owed = false) :
    wp (repairs (Inv I) (Asleep side R) cond)
      (fun _ o s0 s => Passes (Inv I) (Asleep side R) o s0 s false)
      (enqueueWork messagep) false s s := by
  rw [enqueueWork, wp_bind, wp_get, wp_bind, wp_set, wp_bind]
  refine wp_mono (fun _ o s1 s2 hpass => ?_) (passes_unlockThen hput (fun _ => hfull) fun _ => hput)
  rw [wp_bind]
  refine passes_unlockThen hpass (fun hc => hempty (of_decide_eq_true hc)) fun hc => ?_
  rw [← hsome (of_decide_eq_false hc)]
  exact hpass

theorem wp_dequeueWork_tends
    (htake : Passes (Inv I) (Asleep side R) false s { s with fifo := s.fifo.take } owed)
    (hmark : s.fifo.advance.unblocked = true → Tends I R cond side owed .unlock makeWritable false)
    (hleft : s.fifo.advance.unblocked = false → owed = false)
    (hempty : Tends I R cond side false .unlock makeNonReadableAfterDequeue false) :
    wp (repairs (Inv I) (Asleep side R) cond)
      (fun _ o s0 s => Passes (Inv I) (Asleep side R) o s0 s false)
      (dequeueWork num) false s s := by
  rw [dequeueWork, wp_bind, wp_get, wp_bind, wp_set, wp_bind]
  have hmarked := passes_unlockThen htake hmark fun hc => by
    obtain rfl := hleft hc
    exact htake
  refine wp_mono (fun _ o s1 s2 hpass => ?_) hmarked
  rw [wp_bind]
  exact passes_unlockThen hpass (fun _ => hempty) fun _ => hpass

theorem swEnqueue_tends
    (hwork : ∀ s, Inv I s → s.fifo.isFull = false →
      wp (repairs (Inv I) (Asleep side R) cond)
        (fun _ o s0 s => Passes (Inv I) (Asleep side R) o s0 s false)
        (enqueueWork messagep) false s s) :
    Tends I R cond side false b (FifoCall.enqueue messagep wait fuel).prog false := by
  refine Keeps.map (Keeps.get fun s hs _ => ?_) _
  split
  · trivial
  · split
    · cases wait with
      | false => exact Passes.same hs
      | true =>
        rw [if_pos rfl]
        split
        · rw [wp_bind]
          exact wp_condWait (fun s hs hfree => hwork s hs hfree) (.same hs)
        · trivial
    · rename_i hfull
      exact hwork s hs (by simpa using hfull)

theorem swDequeue_tends
    (hempty : Tends I R cond side false .unlock makeNonReadableAfterDequeue false)
    (hwork : ∀ s, Inv I s → s.fifo.isEmpty = false →
      wp (repairs (Inv I) (Asleep side R) cond)
        (fun _ o s0 s => Passes (Inv I) (Asleep side R) o s0 s false)
        (dequeueWork num) false s s) :
    Tends I R cond side false b (FifoCall.dequeue num wait fuel).prog false := by
  refine Keeps.map (Keeps.get fun s hs _ => ?_) _
  split
  · trivial
  · split
    · cases wait with
      | false =>
        rw [if_neg Bool.false_ne_true]
        exact Passes.release (.same hs) (hempty.map _)
      | true =>
        rw [if_pos rfl]
        split
        · rw [wp_bind]
          exact wp_condWait (fun s hs hfree => hwork s hs hfree) (.same hs)
        · trivial
    · rename_i hsome
      exact hwork s hs (by simpa using hsome)

end

/-! ## Any number of threads -/

/-- The operations that threads start. -/
def fifoOps (b : FifoLabel) (p : FifoM Unit) : Prop := b = .call ∧ ∃ call : FifoCall, p = call.prog

/-- A FIFO that has been initialised, and bound to poll groups; nobody is at work. -/
def freshPool (num_ents ent_size low_water_mark : BitVec 32) (consumer_cond producer_cond : Bool)
    (poll : PollSide → Option PollBits) : Pool FifoErr FifoState FifoLabel Unit where
  state :=
    { fifo := { Fifo.init num_ents ent_size low_water_mark with
        consumer_cond := consumer_cond, producer_cond := producer_cond }
      poll := poll }
  threads _ := none

/-- A schedule of calls: a thread makes a call, or runs a section of the one it is in. -/
def schedule (turns : List (Nat × Option FifoCall)) :
    List (Nat × Option (FifoLabel × FifoM Unit)) :=
  turns.map fun turn => (turn.1, turn.2.map fun call => (.call, call.prog))

theorem reaches_of_schedule (h : x.play (schedule turns) = some y) :
    Reaches fifoOps (fun _ _ => True) x y := by
  refine reaches_of_play (fun t bp hbp => ?_) h
  obtain ⟨⟨t', c⟩, -, heq⟩ := List.mem_map.mp hbp
  cases c with
  | none => cases heq
  | some call =>
    cases heq
    exact ⟨rfl, call, rfl⟩

/-! ### Readers -/

section
variable {cond : FifoLabel → FifoState → Prop} {o : Bool} {b : FifoLabel} {call : FifoCall}

/-- What holds of the FIFO for readers: its indices are in range, and it does not wrap. -/
def ReadInv (f : Fifo) : Prop := f.Ok ∧ f.num_ents.toNat ≤ 2 ^ 31

/-- There is something to read. -/
def NonEmpty (f : Fifo) : Prop := f.isEmpty = false

theorem ReadInv.put (h : ReadInv f) (hfull : f.isFull = false) :
    ReadInv (f.put messagep) := ⟨h.1.put hfull, h.2⟩

theorem ReadInv.take (h : ReadInv f) : ReadInv f.take := by
  refine ⟨h.1.take, ?_⟩
  rw [Fifo.take_eq]
  exact h.2

theorem makeNonReadableAfterDequeue_read :
    Tends ReadInv NonEmpty cond .read o b makeNonReadableAfterDequeue false :=
  markNonReady_tends.seq fun _ => recheck_tends (fun f => !f.isEmpty) fun _ _ _ hempty hsome => by
    rw [hsome] at hempty
    cases hempty

theorem call_tends_read : Tends ReadInv NonEmpty cond .read false b call.prog false := by
  have hne : PollSide.read ≠ PollSide.write := by decide
  cases call with
  | enqueue messagep wait fuel =>
    refine swEnqueue_tends fun s hs hfull => ?_
    -- the thread that enqueues to an empty FIFO owes the readers a wake-up
    have hput : Passes (Inv ReadInv) (Asleep .read NonEmpty) false s
        { s with fifo := s.fifo.put messagep } (decide (s.fifo.producer = s.fifo.consumer)) := by
      by_cases heq : s.fifo.producer = s.fifo.consumer
      · rw [decide_eq_true heq]
        exact .owing (ReadInv.put hs hfull)
      · rw [decide_eq_false heq]
        refine .of_imp (ReadInv.put hs hfull) (Asleep.congr rfl fun _ => ?_)
        rw [NonEmpty, Fifo.isEmpty, decide_eq_false (Ne.symm heq), Bool.false_and]
    refine wp_enqueueWork_tends hput ?_ (fun _ => makeReady_tends) decide_eq_false
    exact (markNonReady_tends_of_ne hne).seq fun _ =>
      recheck_tends_of_ne hne fun f => decide (f.numInQueue < f.low_water_mark)
  | dequeue num wait fuel =>
    refine swDequeue_tends makeNonReadableAfterDequeue_read fun s hs hempty => ?_
    have htake : Passes (Inv ReadInv) (Asleep .read NonEmpty) false s
        { s with fifo := s.fifo.take } false :=
      .of_imp (ReadInv.take hs) (Asleep.congr rfl fun _ => hempty)
    exact wp_dequeueWork_tends htake (fun _ => makeReady_tends_of_ne hne) (fun _ => rfl)
      makeNonReadableAfterDequeue_read
  | enableReadPoll =>
    change Tends _ _ _ _ _ _ (enablePoll .read fun f => decide (f.numInQueue ≠ 0)) _
    refine enablePoll_tends fun s hs _ hzero hsome => ?_
    have hheld : s.fifo.held = 0 := by
      rw [← hs.1.numInQueue_eq hs.2, not_not.mp (of_decide_eq_false hzero)]
      rfl
    rw [← hs.1.isEmpty_iff_held, hsome] at hheld
    cases hheld
  | enableWritePoll =>
    change Tends _ _ _ _ _ _ (enablePoll .write fun f => decide (f.availInQueue ≠ 0)) _
    exact enablePoll_tends_of_ne hne

end

/-- **No wake-up is lost for readers.** However the sections of any number of threads interleave,
when none of them is at work the ready bit of a FIFO that is enabled for reading and not empty is set,
as long as the FIFO has at most `2 ^ 31` entries. -/
theorem read_wakeup {num_ents ent_size low_water_mark : BitVec 32}
    {consumer_cond producer_cond : Bool} {poll : PollSide → Option PollBits}
    {y : Pool FifoErr FifoState FifoLabel Unit} {bits : PollBits} (hpos : 1 ≤ num_ents.toNat)
    (hn : num_ents.toNat ≤ 2 ^ 31)
    (hreach : Reaches fifoOps (fun _ _ => True)
      (freshPool num_ents ent_size low_water_mark consumer_cond producer_cond poll) y)
    (hquiet : y.Quiet) (hbits : y.state.poll .read = some bits) (hmask : bits.mask = true)
    (hsome : y.state.fifo.isEmpty = false) : bits.ready = true := by
  have hops : ∀ b p, fifoOps b p →
      Repairs (Inv ReadInv) (Asleep .read NonEmpty) (fun _ _ => True) false b p := by
    rintro b p ⟨-, call, rfl⟩
    exact call_tends_read.repairs
  have hstart : ¬ Asleep .read NonEmpty
      (freshPool num_ents ent_size low_water_mark consumer_cond producer_cond poll).state := by
    rintro ⟨_, -, -, -, hne⟩
    cases hne
  have hinv : Inv ReadInv
      (freshPool num_ents ent_size low_water_mark consumer_cond producer_cond poll).state :=
    ⟨⟨hpos, hpos, fun h => by cases h⟩, hn⟩
  have hgood := (not_bad hops (fun _ => rfl) hinv hstart hreach).2 hquiet
  by_contra hclear
  exact hgood ⟨bits, hbits, hmask, by simpa using hclear, hsome⟩

/-- One enqueue to a FIFO that is polled for reading. -/
theorem read_wakeup_enqueue :
    ∃ y : Pool FifoErr FifoState FifoLabel Unit,
      Reaches fifoOps (fun _ _ => True)
        (freshPool 2 1 1 false false fun _ => some { ready := false, mask := true }) y ∧
      y.Quiet ∧ y.state.fifo.isEmpty = false ∧
      ∃ bits, y.state.poll .read = some bits ∧ bits.mask = true ∧ bits.ready = true := by
  have hplay : ∃ y, (freshPool 2 1 1 false false fun _ => some { ready := false, mask := true }).play
      (schedule [(0, some (.enqueue [7] false 0)), (0, none), (0, none), (0, none)]) = some y ∧ y.Quiet ∧ y.state.fifo.isEmpty = false ∧
        ∃ bits, y.state.poll .read = some bits ∧ bits.mask = true := by
    refine ⟨_, rfl, ?_, rfl, _, rfl, rfl⟩
    intro t
    cases t <;> rfl
  obtain ⟨y, hy, hquiet, hsome, bits, hbits, hmask⟩ := hplay
  have hreach := reaches_of_schedule hy
  exact ⟨y, hreach, hquiet, hsome, bits, hbits, hmask,
    read_wakeup (by decide) (by decide) hreach hquiet hbits hmask hsome⟩

/-- A FIFO of `2 ^ 32 - 1` entries gets one, and is enabled for reading then: the number of entries
comes out as zero, and the ready bit stays clear. -/
theorem read_wakeup_lost :
    ∃ y : Pool FifoErr FifoState FifoLabel Unit,
      Reaches fifoOps (fun _ _ => True) (freshPool (2 ^ 32 - 1) 1 1 false false fun _ => some {}) y ∧
      y.Quiet ∧ y.state.fifo.isEmpty = false ∧
      y.state.poll .read = some { ready := false, mask := true } := by
  have hplay : ∃ y, (freshPool (2 ^ 32 - 1) 1 1 false false fun _ => some {}).play
      (schedule [(0, some (.enqueue [7] false 0)), (0, none), (0, none), (0, none),
        (0, some .enableReadPoll), (0, none), (0, none)]) = some y ∧ y.Quiet ∧ y.state.fifo.isEmpty = false ∧
        y.state.poll .read = some { ready := false, mask := true } := by
    refine ⟨_, rfl, ?_, rfl, rfl⟩
    intro t
    cases t <;> rfl
  obtain ⟨y, hy, hquiet, hsome, hbits⟩ := hplay
  exact ⟨y, reaches_of_schedule hy, hquiet, hsome, hbits⟩

/-! ### Writers -/

section
variable {o : Bool} {b : FifoLabel} {call : FifoCall}

/-- The FIFO is not marked full, or its mark is out of reach. -/
def Writable (f : Fifo) : Prop :=
  f.queue_full = false ∨ f.num_ents.toNat < f.low_water_mark.toNat

/-- When an enqueue that has filled the FIFO looks again, the FIFO is below its low water mark or still
marked full; and when a side is enabled, it has space or a mark within reach. -/
def WriteCond : FifoLabel → FifoState → Prop
  | .recheck, s => s.fifo.numInQueue < s.fifo.low_water_mark ∨ s.fifo.queue_full = true
  | .enabled .write, s => s.fifo.availInQueue ≠ 0 ∨ s.fifo.low_water_mark ≤ s.fifo.num_ents
  | _, _ => True

theorem becameFull_write : Tends Fifo.Ok Writable WriteCond .write o b becameFull false := by
  refine markNonReady_tends.seq fun _ =>
    recheck_tends (fun f => decide (f.numInQueue < f.low_water_mark)) fun s hs hc hge hw => ?_
  have hge' : ¬ s.fifo.numInQueue < s.fifo.low_water_mark := of_decide_eq_false hge
  rcases hw with hunmarked | hout
  · rw [WriteCond, hunmarked] at hc
    rcases hc with hlt | hmarked
    · exact hge' hlt
    · cases hmarked
  · have hle := hs.numInQueue_le
    have hheld := hs.held_le
    rw [BitVec.lt_def] at hge'
    omega

theorem makeNonReadableAfterDequeue_write :
    Tends Fifo.Ok Writable WriteCond .write o b makeNonReadableAfterDequeue o :=
  (markNonReady_tends_of_ne (by decide)).seq fun _ =>
    recheck_tends_of_ne (by decide) fun f => !f.isEmpty

theorem Writable.of_put (h : Writable (f.put messagep)) :
    Writable f := by
  rcases h with hunmarked | hout
  · rw [Fifo.put, Bool.or_eq_false_iff] at hunmarked
    exact .inl hunmarked.1
  · exact .inr hout

theorem Writable.of_take (hleft : f.advance.unblocked = false) (h : Writable f.take) :
    Writable f := by
  rw [Fifo.take, hleft] at h
  exact h

theorem Fifo.Ok.queue_full_of_availInQueue {f : Fifo} (h : f.Ok) (hzero : f.availInQueue = 0) :
    f.queue_full = true := by
  have hn := f.num_ents.isLt
  have hle : f.numInQueue.toNat ≤ f.num_ents.toNat := le_trans h.numInQueue_le h.held_le
  have hnum : f.numInQueue.toNat = f.num_ents.toNat := by
    have hsub : f.num_ents.toNat - f.numInQueue.toNat = 0 := by
      rw [← BitVec.toNat_sub_of_le (BitVec.le_def.mpr hle)]
      exact congrArg BitVec.toNat hzero
    omega
  by_contra hunmarked
  have hlt : f.distance.toNat < f.num_ents.toNat := by
    rw [Fifo.distance, BitVec.toNat_umod]
    exact Nat.mod_lt _ (Nat.zero_lt_of_lt h.producer_lt)
  rw [Fifo.numInQueue, if_neg fun hfull => hunmarked hfull.2] at hnum
  omega

theorem call_tends_write : Tends Fifo.Ok Writable WriteCond .write false b call.prog false := by
  have hne : PollSide.write ≠ PollSide.read := by decide
  cases call with
  | enqueue messagep wait fuel =>
    refine swEnqueue_tends fun s hs hfull => ?_
    have hput : Passes (Inv Fifo.Ok) (Asleep .write Writable) false s
        { s with fifo := s.fifo.put messagep } false :=
      .of_imp (Fifo.Ok.put hs hfull) (Asleep.congr rfl Writable.of_put)
    exact wp_enqueueWork_tends hput becameFull_write (fun _ => makeReady_tends_of_ne hne)
      fun _ => rfl
  | dequeue num wait fuel =>
    refine swDequeue_tends makeNonReadableAfterDequeue_write fun s hs hempty => ?_
    -- the thread that takes the mark off owes the writers a wake-up
    have htake : Passes (Inv Fifo.Ok) (Asleep .write Writable) false s
        { s with fifo := s.fifo.take } s.fifo.advance.unblocked := by
      cases hun : s.fifo.advance.unblocked with
      | true => exact .owing (Fifo.Ok.take hs)
      | false => exact .of_imp (Fifo.Ok.take hs) (Asleep.congr rfl (Writable.of_take hun))
    exact wp_dequeueWork_tends htake (fun _ => makeReady_tends) id
      makeNonReadableAfterDequeue_write
  | enableReadPoll =>
    change Tends _ _ _ _ _ _ (enablePoll .read fun f => decide (f.numInQueue ≠ 0)) _
    exact enablePoll_tends_of_ne hne
  | enableWritePoll =>
    change Tends _ _ _ _ _ _ (enablePoll .write fun f => decide (f.availInQueue ≠ 0)) _
    refine enablePoll_tends fun s hs hc hzero hw => ?_
    have hzero' : s.fifo.availInQueue = 0 := not_not.mp (of_decide_eq_false hzero)
    rcases hw with hunmarked | hout
    · rw [hs.queue_full_of_availInQueue hzero'] at hunmarked
      cases hunmarked
    · rcases hc with hsome | hle
      · exact hsome hzero'
      · exact absurd (BitVec.le_def.mp hle) (Nat.not_le.mpr hout)

end

/-- **When no wake-up is lost for writers.** However the sections of any number of threads
interleave, when none is at work the ready bit of a FIFO that is enabled for writing and below its
low water mark is set, as long as every enqueue that fills the FIFO finds it below the mark or still
marked full when it looks again, and no FIFO is enabled that is full with a mark out of reach. -/
theorem write_wakeup {num_ents ent_size low_water_mark : BitVec 32}
    {consumer_cond producer_cond : Bool} {poll : PollSide → Option PollBits}
    {y : Pool FifoErr FifoState FifoLabel Unit} {bits : PollBits} (hpos : 1 ≤ num_ents.toNat)
    (hstart : ∀ bits, poll .write = some bits → bits.mask = true → bits.ready = true)
    (hreach : Reaches fifoOps WriteCond
      (freshPool num_ents ent_size low_water_mark consumer_cond producer_cond poll) y)
    (hquiet : y.Quiet) (hbits : y.state.poll .write = some bits) (hmask : bits.mask = true)
    (hlow : y.state.fifo.held < y.state.fifo.low_water_mark.toNat) : bits.ready = true := by
  have hops : ∀ b p, fifoOps b p →
      Repairs (Inv Fifo.Ok) (Asleep .write Writable) WriteCond false b p := by
    rintro b p ⟨-, call, rfl⟩
    exact call_tends_write.repairs
  have hgood : ¬ Asleep .write Writable
      (freshPool num_ents ent_size low_water_mark consumer_cond producer_cond poll).state := by
    rintro ⟨bits, hbits, hmask, hclear, -⟩
    rw [hstart bits hbits hmask] at hclear
    cases hclear
  have hinv : Inv Fifo.Ok
      (freshPool num_ents ent_size low_water_mark consumer_cond producer_cond poll).state :=
    ⟨hpos, hpos, fun h => by cases h⟩
  obtain ⟨hok, hawake⟩ := not_bad hops (fun _ => rfl) hinv hgood hreach
  by_contra hclear
  refine hawake hquiet ⟨bits, hbits, hmask, by simpa using hclear, ?_⟩
  -- below the mark the FIFO is not marked full
  rcases Bool.eq_false_or_eq_true y.state.fifo.queue_full with hfull | hfree
  · right
    have hmarked := hok.marked hfull
    omega
  · exact .inl hfree

/-- An empty FIFO is enabled for writing. -/
theorem write_wakeup_enable :
    ∃ y : Pool FifoErr FifoState FifoLabel Unit,
      Reaches fifoOps WriteCond (freshPool 2 1 1 false false fun _ => some {}) y ∧
      y.Quiet ∧ y.state.fifo.held < y.state.fifo.low_water_mark.toNat ∧
      ∃ bits, y.state.poll .write = some bits ∧ bits.mask = true ∧ bits.ready = true := by
  have hrun : ∃ y : Pool FifoErr FifoState FifoLabel Unit,
      Reaches fifoOps WriteCond (freshPool 2 1 1 false false fun _ => some {}) y ∧
      y.Quiet ∧ y.state.fifo.held < y.state.fifo.low_water_mark.toNat ∧
      ∃ bits, y.state.poll .write = some bits ∧ bits.mask = true := by
    refine ⟨_, .head (.start (t := 0) rfl ⟨rfl, .enableWritePoll, rfl⟩)
      (.head (.released (t := 0) rfl trivial rfl)
        (.head (.released (t := 0) rfl (.inl (by decide)) rfl)
          (.head (.released (t := 0) rfl trivial rfl)
            (.single (.done (t := 0) rfl trivial rfl))))), ?_, by decide, _, rfl, rfl⟩
    intro t
    cases t <;> rfl
  obtain ⟨y, hreach, hquiet, hlow, bits, hbits, hmask⟩ := hrun
  have hstart : ∀ bits : PollBits, some ({} : PollBits) = some bits → bits.mask = true →
      bits.ready = true := by
    intro bits heq hset
    cases heq
    cases hset
  exact ⟨y, hreach, hquiet, hlow, bits, hbits, hmask,
    write_wakeup (by decide) hstart hreach hquiet hbits hmask hlow⟩

/-- A lost wake-up: the thread 0 fills a FIFO of two entries with the mark at one; before it clears
the ready bit, the thread 1 drains the FIFO and the thread 2 puts an entry in. The thread 0 clears
the bit, finds an entry and leaves it, and so does the thread 1 when it takes that entry, as the
FIFO is not marked full. -/
def lostTurns : List (Nat × Option FifoCall) :=
  [(0, some (.enqueue [1] false 0)), (0, none), (0, none),
    (0, some (.enqueue [2] false 0)), (0, none),
    (1, some (.dequeue 1 false 0)), (1, none),
    (1, some (.dequeue 1 false 0)), (1, none), (1, none), (1, none), (1, none), (1, none),
    (2, some (.enqueue [3] false 0)), (2, none), (2, none),
    (0, none), (0, none), (0, none),
    (1, some (.dequeue 1 false 0)), (1, none), (1, none), (1, none)]

/-- A writer is left asleep at a FIFO that has been drained. -/
theorem write_wakeup_lost :
    ∃ y : Pool FifoErr FifoState FifoLabel Unit,
      Reaches fifoOps (fun _ _ => True)
        (freshPool 2 1 1 false false fun side =>
          if side = .write then some { ready := true, mask := true } else none) y ∧
      y.Quiet ∧ y.state.poll .write = some { ready := false, mask := true } ∧
      y.state.fifo.held < y.state.fifo.low_water_mark.toNat := by
  have hplay : ∃ y, (freshPool 2 1 1 false false fun side =>
      if side = .write then some { ready := true, mask := true } else none).play
        (schedule lostTurns) = some y ∧ y.Quiet ∧
      y.state.poll .write = some { ready := false, mask := true } ∧
      y.state.fifo.held < y.state.fifo.low_water_mark.toNat := by
    refine ⟨_, rfl, ?_, rfl, by decide⟩
    intro t
    rcases t with _ | _ | _ | t <;> rfl
  obtain ⟨y, hy, hquiet, hbits, hlow⟩ := hplay
  exact ⟨y, reaches_of_schedule hy, hquiet, hbits, hlow⟩

end Xdp2
