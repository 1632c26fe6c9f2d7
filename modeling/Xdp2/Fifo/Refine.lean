import Xdp2.Fifo.Queue

/-!
# A FIFO that one thread uses

Non-waiting enqueues and dequeues against a bounded queue (`queueStep`): `fifo_refines` says that
the FIFO is one, as long as its size does not make `xdp2_fifo_num_in_queue` wrap.

The low water mark is described as a hysteresis, `latchStep`. The FIFO has it only where the mark is
the size (`hysteresis_iff`): one dequeue moves the indices apart, and the FIFO does not count as
full any more.
-/

namespace Xdp2

open Locked

/-! ## Operations -/

/-- A non-waiting operation. -/
inductive FifoOp where
  | enqueue (messagep : List (BitVec 64))
  | dequeue (num : Nat)

/-- What the caller gets: the value returned, and the message where there is one. -/
structure FifoReply where
  ret : Bool
  messagep : List (BitVec 64) := []
  deriving DecidableEq

/-- Nobody else is at work while a mutex is free. -/
def idle (_ : FifoLabel) (s : FifoState) : FifoState := s

/-- The operation of the only thread. -/
def FifoOp.exec (s : FifoState) : FifoOp → Except FifoErr (FifoReply × FifoState)
  | enqueue messagep =>
      ((swEnqueue messagep false 0).alone idle s).map fun r => (⟨r.1, []⟩, r.2)
  | dequeue num =>
      ((swDequeue num false 0).alone idle s).map fun r => (⟨r.1.isSome, r.1.getD []⟩, r.2)

/-- The number of words that an operation moves. -/
def FifoOp.num : FifoOp → Nat
  | enqueue messagep => messagep.length
  | dequeue num => num

/-! ## What an operation does to the FIFO -/

/-- The FIFO after an operation. -/
def FifoOp.fifo (f : Fifo) : FifoOp → Fifo
  | enqueue messagep => if f.isFull then f else f.put messagep
  | dequeue _ => if f.isEmpty then f else f.take

/-- The reply to it. -/
def FifoOp.reply (f : Fifo) : FifoOp → FifoReply
  | enqueue _ => ⟨!f.isFull, []⟩
  | dequeue num =>
      if f.isEmpty then ⟨false, []⟩ else ⟨true, Ring.segment f.queue (f.offset f.consumer) num⟩

section
variable {s : FifoState} {q : FifoM Unit} {messagep : List (BitVec 64)}

/-- The program leaves the FIFO itself alone. -/
def Spares (p : FifoM Unit) : Prop :=
  ∀ s0 s, wp (solo idle) (fun _ _ _ s' => s'.fifo = s.fifo) p () s0 s

theorem Spares.unlockThen (h : Spares p) (cond : Bool) : Spares (unlockThen cond p) := by
  intro s0 s
  rw [Xdp2.unlockThen]
  split
  · rw [wp_bind]
    refine ⟨(), trivial, fun s' hs' => ?_⟩
    cases hs'
    exact h s s
  · exact rfl

theorem Spares.seq (hp : Spares p) (b : FifoLabel) {q : FifoState → FifoM Unit}
    (hq : ∀ s, Spares (q s)) :
    Spares (p >>= fun _ => release b >>= fun _ => get >>= q) := by
  intro s0 s
  rw [wp_bind]
  refine wp_mono (fun _ _ s1 s' hs' => ?_) (hp s0 s)
  rw [wp_bind]
  refine ⟨(), trivial, fun s'' hs'' => ?_⟩
  cases hs''
  change wp _ _ (get >>= q) _ _ _
  rw [wp_bind, wp_get]
  exact wp_mono (fun _ _ _ _ hq' => Eq.trans hq' hs') (hq s' s' s')

theorem spares_makeReady (side : PollSide) : Spares (makeReady side) := by
  intro s0 s
  rw [makeReady, wp_bind]
  change wp _ _ (if _ then _ else _) _ _ _
  split
  · refine ⟨(), trivial, fun s' hs' => ?_⟩
    cases hs'
    exact rfl
  · exact rfl

theorem spares_markNonReady (side : PollSide) : Spares (markNonReady side) := by
  intro s0 s
  rw [markNonReady, wp_bind]
  change wp _ _ (if _ then _ else _) _ _ _
  split
  · refine ⟨(), trivial, fun s' hs' => ?_⟩
    cases hs'
    exact rfl
  · exact rfl

theorem spares_becameFull : Spares becameFull :=
  (spares_markNonReady .write).seq .recheck fun _ => (spares_makeReady .write).unlockThen _

theorem spares_makeNonReadableAfterDequeue : Spares makeNonReadableAfterDequeue :=
  (spares_markNonReady .read).seq .unlock fun _ => (spares_makeReady .read).unlockThen _

theorem wp_enqueueWork (s0 s : FifoState) (messagep : List (BitVec 64)) :
    wp (solo idle) (fun a _ _ s' => a = true ∧ s'.fifo = s.fifo.put messagep)
      (enqueueWork messagep) () s0 s := by
  rw [enqueueWork, wp_bind, wp_get, wp_bind, wp_set, wp_bind]
  refine wp_mono (fun _ _ s1 s' hs' => ?_) (spares_becameFull.unlockThen _ _ _)
  rw [wp_bind]
  refine wp_mono (fun _ _ s2 s'' hs'' => ?_) ((spares_makeReady .read).unlockThen _ _ _)
  exact ⟨rfl, hs''.trans hs'⟩

theorem wp_dequeueWork (s0 s : FifoState) (num : Nat) :
    wp (solo idle) (fun a _ _ s' =>
        a = some (Ring.segment s.fifo.queue (s.fifo.offset s.fifo.consumer) num) ∧
        s'.fifo = s.fifo.take)
      (dequeueWork num) () s0 s := by
  rw [dequeueWork, wp_bind, wp_get, wp_bind, wp_set, wp_bind]
  refine wp_mono (fun _ _ s1 s' hs' => ?_) ((spares_makeReady .write).unlockThen _ _ _)
  rw [wp_bind]
  refine wp_mono (fun _ _ s2 s'' hs'' => ?_) (spares_makeNonReadableAfterDequeue.unlockThen _ _ _)
  exact ⟨rfl, hs''.trans hs'⟩

theorem swEnqueue_alone (hnum : messagep.length ≤ s.fifo.ent_size.toNat) :
    ∃ s', (swEnqueue messagep false 0).alone idle s = .ok (!s.fifo.isFull, s') ∧
      s'.fifo = (FifoOp.enqueue messagep).fifo s.fifo := by
  have hwp : wp (solo idle) (fun a _ _ s' => a = (!s.fifo.isFull) ∧
      s'.fifo = (FifoOp.enqueue messagep).fifo s.fifo) (swEnqueue messagep false 0) () s s := by
    rw [swEnqueue, wp_bind, wp_get, if_neg (Nat.not_lt.mpr hnum)]
    cases hfull : s.fifo.isFull with
    | true => exact ⟨rfl, by simp [FifoOp.fifo, hfull]⟩
    | false => simpa [FifoOp.fifo, hfull] using wp_enqueueWork s s messagep
  obtain ⟨a, _, s', hrun, rfl, hfifo⟩ := alone_of_wp hwp
  exact ⟨s', hrun, hfifo⟩

theorem swDequeue_alone (num : Nat) (hnum : num ≤ s.fifo.ent_size.toNat) :
    ∃ r s', (swDequeue num false 0).alone idle s = .ok (r, s') ∧
      FifoReply.mk r.isSome (r.getD []) = (FifoOp.dequeue num).reply s.fifo ∧
      s'.fifo = (FifoOp.dequeue num).fifo s.fifo := by
  have hwp : wp (solo idle) (fun r _ _ s' =>
      FifoReply.mk r.isSome (r.getD []) = (FifoOp.dequeue num).reply s.fifo ∧
      s'.fifo = (FifoOp.dequeue num).fifo s.fifo) (swDequeue num false 0) () s s := by
    rw [swDequeue, wp_bind, wp_get, if_neg (Nat.not_lt.mpr hnum)]
    cases hempty : s.fifo.isEmpty with
    | true =>
      refine ⟨(), trivial, fun s' hs' => ?_⟩
      cases hs'
      change wp _ _ (makeNonReadableAfterDequeue >>= _) _ _ _
      rw [wp_bind]
      refine wp_mono (fun _ _ s1 s' hs' => ?_) (spares_makeNonReadableAfterDequeue _ _)
      simp only [wp_pure, FifoOp.fifo, FifoOp.reply, hempty]
      exact ⟨rfl, hs'⟩
    | false =>
      refine wp_mono (fun r _ s1 s' hs' => ?_) (wp_dequeueWork s s num)
      obtain ⟨rfl, hfifo⟩ := hs'
      simp only [FifoOp.fifo, FifoOp.reply, hempty]
      exact ⟨rfl, hfifo⟩
  obtain ⟨r, _, s', hrun, hr, hfifo⟩ := alone_of_wp hwp
  exact ⟨r, s', hrun, hr, hfifo⟩

/-- An operation that moves at most an entry comes to its end, and does to the FIFO what it
should. -/
theorem exec_eq {op : FifoOp} (hnum : op.num ≤ s.fifo.ent_size.toNat) :
    ∃ s', op.exec s = .ok (op.reply s.fifo, s') ∧ s'.fifo = op.fifo s.fifo := by
  cases op with
  | enqueue messagep =>
    obtain ⟨s', hrun, hfifo⟩ := swEnqueue_alone hnum
    exact ⟨s', by rw [FifoOp.exec, hrun]; rfl, hfifo⟩
  | dequeue num =>
    obtain ⟨r, s', hrun, hr, hfifo⟩ := swDequeue_alone num hnum
    exact ⟨s', by rw [← hr, FifoOp.exec, hrun]; rfl, hfifo⟩

end

/-! ## The entries held -/

namespace Fifo

/-- The entry at an index. -/
def entry (f : Fifo) (i : Nat) : List (BitVec 64) :=
  Ring.segment f.queue (i * f.ent_size.toNat) f.ent_size.toNat

/-- The FIFO holds the entries `q`. -/
structure Holds (f : Fifo) (q : List (List (BitVec 64))) : Prop where
  ok : f.Ok
  mark : 0 < f.low_water_mark.toNat
  small : f.num_ents.toNat * f.ent_size.toNat < 2 ^ 31
  held : f.held = q.length
  entries : Ring.cells f.num_ents.toNat f.entry f.consumer.toNat q.length = q

section
variable {f : Fifo} {q : List (List (BitVec 64))} {messagep : List (BitVec 64)}

theorem Ok.producer_eq (h : f.Ok) :
    f.producer.toNat = (f.consumer.toNat + f.held) % f.num_ents.toNat := by
  have hp := h.producer_lt
  have hc := h.consumer_lt
  rw [Ring.add_mod_size hc h.held_le, Fifo.held]
  split_ifs <;> omega

theorem offset_eq (hi : i.toNat < f.num_ents.toNat)
    (hsmall : f.num_ents.toNat * f.ent_size.toNat < 2 ^ 31) :
    f.offset i = i.toNat * f.ent_size.toNat := by
  have hle : i.toNat * f.ent_size.toNat ≤ f.num_ents.toNat * f.ent_size.toNat :=
    Nat.mul_le_mul_right _ (Nat.le_of_lt hi)
  have hsize := f.ent_size.isLt
  have hwide : (f.ent_size.setWidth 32).toNat = f.ent_size.toNat := by
    rw [BitVec.toNat_setWidth, Nat.mod_eq_of_lt (by omega)]
  rw [offset, BitVec.toNat_mul, hwide, Nat.mod_eq_of_lt (by omega)]

theorem entry_put (hi : f.producer.toNat < f.num_ents.toNat)
    (hsmall : f.num_ents.toNat * f.ent_size.toNat < 2 ^ 31)
    (hlen : messagep.length = f.ent_size.toNat) :
    (f.put messagep).entry = Ring.write f.entry f.producer.toNat [messagep] := by
  funext i
  have hoff := offset_eq hi hsmall
  have hsize : (f.put messagep).ent_size = f.ent_size := rfl
  have hqueue : (f.put messagep).queue =
      Ring.write f.queue (f.producer.toNat * f.ent_size.toNat) messagep := by rw [← hoff]; rfl
  rw [entry, hsize, hqueue]
  rcases Nat.lt_trichotomy i f.producer.toNat with hlt | rfl | hgt
  · rw [Ring.write_of_lt (.inl hlt)]
    have hle := Nat.mul_le_mul_right f.ent_size.toNat (Nat.succ_le_of_lt hlt)
    rw [Nat.succ_mul] at hle
    exact Ring.segment_congr fun j hj => Ring.write_of_lt (.inl (by omega))
  · rw [← hlen, Ring.segment_write]
    exact (Ring.write_add (l := [messagep]) Nat.zero_lt_one).symm
  · rw [Ring.write_of_lt (.inr hgt)]
    have hle := Nat.mul_le_mul_right f.ent_size.toNat (Nat.succ_le_of_lt hgt)
    rw [Nat.succ_mul] at hle
    exact Ring.segment_congr fun j hj => Ring.write_of_lt (.inr (by omega))

theorem Holds.put (h : f.Holds q) (hfull : f.isFull = false)
    (hlen : messagep.length = f.ent_size.toNat) : (f.put messagep).Holds (q ++ [messagep]) where
  ok := h.ok.put hfull
  mark := h.mark
  small := h.small
  held := by rw [h.ok.held_put hfull, h.held, List.length_append, List.length_singleton]
  entries := by
    have hroom : q.length + 1 ≤ f.num_ents.toNat := by
      have hle : (f.put messagep).held ≤ f.num_ents.toNat := (h.ok.put hfull).held_le
      rw [h.ok.held_put hfull, h.held] at hle
      exact hle
    have hp : f.producer.toNat = (f.consumer.toNat + q.length) % f.num_ents.toNat := by
      rw [← h.held]
      exact h.ok.producer_eq
    rw [entry_put h.ok.producer_lt h.small hlen, List.length_append]
    exact (Ring.cells_write (l := [messagep]) h.ok.consumer_lt hp h.ok.producer_lt hroom).trans
      (congrArg (· ++ [messagep]) h.entries)

theorem take_entry : f.take.entry = f.entry := by
  rw [take_eq]
  rfl

theorem Holds.take (h : f.Holds (messagep :: q)) : f.take.Holds q ∧
    Ring.segment f.queue (f.offset f.consumer) f.ent_size.toNat = messagep := by
  have hempty : f.isEmpty = false := by
    rw [← Bool.not_eq_true, h.ok.isEmpty_iff_held, h.held]
    exact Nat.succ_ne_zero _
  have hfirst : Ring.cells f.num_ents.toNat f.entry f.consumer.toNat 1 =
      [f.entry f.consumer.toNat] := by
    simp [Ring.cells, Nat.mod_eq_of_lt h.ok.consumer_lt]
  have hcells := h.entries
  rw [List.length_cons, Nat.add_comm, Ring.cells_add, hfirst, List.singleton_append,
    List.cons_eq_cons] at hcells
  obtain ⟨hhead, htail⟩ := hcells
  have hheld := h.ok.held_take hempty h.mark
  rw [h.held, List.length_cons] at hheld
  refine ⟨⟨h.ok.take, ?_, ?_, Nat.succ_injective hheld, ?_⟩, ?_⟩
  · rw [take_eq]
    exact h.mark
  · rw [take_eq]
    exact h.small
  · have hnext : f.take.consumer.toNat = (f.consumer.toNat + 1) % f.num_ents.toNat := by
      rw [take_eq, Ring.add_mod_size h.ok.consumer_lt (Nat.one_le_of_lt h.ok.consumer_lt)]
      refine (next_toNat h.ok.consumer_lt).trans ?_
      have hc := h.ok.consumer_lt
      split_ifs <;> omega
    have hsize : f.take.num_ents = f.num_ents := by
      rw [take_eq]
      rfl
    rw [take_entry, hnext, hsize]
    exact htail
  · rw [offset_eq h.ok.consumer_lt h.small]
    exact hhead

end

end Fifo

/-! ## Against a bounded queue -/

/-- What can be seen of an operation: the reply, and the status functions after it. -/
structure FifoReport where
  reply : FifoReply
  num_in_queue : Nat
  avail_in_queue : Nat
  is_empty : Bool
  is_full : Bool
  deriving DecidableEq

/-- The report of the FIFO. -/
def Fifo.report (f : Fifo) (reply : FifoReply) : FifoReport :=
  ⟨reply, f.numInQueue.toNat, f.availInQueue.toNat, f.isEmpty, f.isFull⟩

/-- The reports of a sequence of operations. -/
def fifoRun : FifoState → List FifoOp → Except FifoErr (List FifoReport)
  | _, [] => .ok []
  | s, op :: ops => do
    let r ← op.exec s
    let rest ← fifoRun r.2 ops
    return r.2.fifo.report r.1 :: rest

/-- What an operation does to a queue of at most `capacity` entries. -/
def queueStep (capacity : Nat) (q : List (List (BitVec 64))) :
    FifoOp → FifoReply × List (List (BitVec 64))
  | .enqueue messagep =>
      if q.length < capacity then (⟨true, []⟩, q ++ [messagep]) else (⟨false, []⟩, q)
  | .dequeue _ =>
      match q with
      | [] => (⟨false, []⟩, [])
      | messagep :: rest => (⟨true, messagep⟩, rest)

/-- The report of such a queue. -/
def queueReport (capacity : Nat) (q : List (List (BitVec 64))) (reply : FifoReply) : FifoReport :=
  ⟨reply, q.length, capacity - q.length, q.isEmpty, decide (q.length = capacity)⟩

/-- The reports of a sequence of operations on it. -/
def queueRun (capacity : Nat) (q : List (List (BitVec 64))) : List FifoOp → List FifoReport
  | [] => []
  | op :: ops =>
      queueReport capacity (queueStep capacity q op).2 (queueStep capacity q op).1 ::
        queueRun capacity (queueStep capacity q op).2 ops

section
variable {f : Fifo} {q : List (List (BitVec 64))} {op : FifoOp}

theorem FifoOp.fifo_config (op : FifoOp) (f : Fifo) : (op.fifo f).num_ents = f.num_ents ∧
    (op.fifo f).ent_size = f.ent_size ∧ (op.fifo f).low_water_mark = f.low_water_mark := by
  cases op with
  | enqueue messagep =>
    rw [FifoOp.fifo]
    split <;> exact ⟨rfl, rfl, rfl⟩
  | dequeue num =>
    rw [FifoOp.fifo]
    split
    · exact ⟨rfl, rfl, rfl⟩
    · rw [Fifo.take_eq]
      exact ⟨rfl, rfl, rfl⟩

theorem Fifo.Holds.isFull_eq (h : f.Holds q) :
    f.isFull = decide (q.length = f.num_ents.toNat) := by
  rw [Bool.eq_iff_iff, h.ok.isFull_iff_held, h.held, decide_eq_true_iff]

theorem Fifo.Holds.isEmpty_eq (h : f.Holds q) : f.isEmpty = q.isEmpty := by
  rw [Bool.eq_iff_iff, h.ok.isEmpty_iff_held, h.held, List.isEmpty_iff_length_eq_zero]

theorem Fifo.Holds.step (h : f.Holds q) (hnum : op.num = f.ent_size.toNat) :
    (op.fifo f).Holds (queueStep f.num_ents.toNat q op).2 ∧
      op.reply f = (queueStep f.num_ents.toNat q op).1 := by
  have hle : q.length ≤ f.num_ents.toNat := by
    rw [← h.held]
    exact h.ok.held_le
  cases op with
  | enqueue messagep =>
    simp only [FifoOp.fifo, FifoOp.reply, queueStep, h.isFull_eq]
    by_cases hfull : q.length = f.num_ents.toNat
    · simp only [hfull, decide_true, if_true, lt_irrefl, if_false]
      exact ⟨h, rfl⟩
    · have hroom : q.length < f.num_ents.toNat := lt_of_le_of_ne hle hfull
      simp only [hfull, decide_false, Bool.false_eq_true, if_false, hroom, if_true]
      exact ⟨h.put (by rw [h.isFull_eq, decide_eq_false hfull]) hnum, rfl⟩
  | dequeue num =>
    simp only [FifoOp.fifo, FifoOp.reply, h.isEmpty_eq]
    cases q with
    | nil => exact ⟨h, rfl⟩
    | cons messagep rest =>
      obtain ⟨htake, hmsg⟩ := h.take
      refine ⟨htake, ?_⟩
      have hnum' : num = f.ent_size.toNat := hnum
      simp only [List.isEmpty_cons, Bool.false_eq_true, if_false, queueStep, hnum', hmsg]

theorem Fifo.Holds.report_eq (h : f.Holds q) (hn : f.num_ents.toNat ≤ 2 ^ 31)
    (reply : FifoReply) : f.report reply = queueReport f.num_ents.toNat q reply := by
  have hnum := h.ok.numInQueue_eq hn
  have hle := h.ok.held_le
  have havail : f.availInQueue.toNat = f.num_ents.toNat - q.length := by
    rw [Fifo.availInQueue, BitVec.toNat_sub_of_le (by rw [BitVec.le_def, hnum]; exact hle), hnum,
      h.held]
  rw [Fifo.report, queueReport, hnum, havail, h.held, h.isEmpty_eq, h.isFull_eq]

theorem Fifo.Holds.run : ∀ {ops : List FifoOp} {s : FifoState} {q : List (List (BitVec 64))},
    s.fifo.Holds q → s.fifo.num_ents.toNat ≤ 2 ^ 31 →
    (∀ op ∈ ops, op.num = s.fifo.ent_size.toNat) →
    fifoRun s ops = .ok (queueRun s.fifo.num_ents.toNat q ops)
  | [], _, _, _, _, _ => rfl
  | op :: ops, s, q, h, hn, hwhole => by
    have hnum := hwhole op List.mem_cons_self
    have hfits : op.num ≤ s.fifo.ent_size.toNat := le_of_eq hnum
    obtain ⟨s', hexec, hfifo⟩ := exec_eq hfits
    obtain ⟨hstep, hreply⟩ := h.step hnum
    have hents : s'.fifo.num_ents = s.fifo.num_ents := by rw [hfifo, (op.fifo_config _).1]
    rw [← hfifo] at hstep
    have hrest := Fifo.Holds.run hstep (by rw [hents]; exact hn) fun op' hop' => by
      rw [hfifo, (op.fifo_config _).2.1]
      exact hwhole op' (List.mem_cons_of_mem _ hop')
    rw [fifoRun, hexec, queueRun]
    change (fifoRun s' ops >>= _) = _
    rw [hrest, hents, ← hreply]
    exact congrArg (fun r => Except.ok (r :: _)) (by
      rw [hstep.report_eq (by rw [hents]; exact hn), hents])

end

theorem Fifo.Holds.init {num_ents ent_size low_water_mark : BitVec 32}
    (hpos : 0 < num_ents.toNat) (hmark : 0 < low_water_mark.toNat)
    (hsmall : num_ents.toNat * ent_size.toNat < 2 ^ 31) :
    (Fifo.init num_ents ent_size low_water_mark).Holds [] where
  ok := .init hpos _ _
  mark := hmark
  small := by
    refine lt_of_le_of_lt (Nat.mul_le_mul_left _ ?_) hsmall
    change (ent_size.setWidth 8).toNat ≤ ent_size.toNat
    rw [BitVec.toNat_setWidth]
    exact Nat.mod_le _ _
  held := rfl
  entries := rfl

/-- **A FIFO is a bounded queue.** Whatever non-waiting enqueues and dequeues of whole entries are
made on an initialised FIFO, the replies and the status after each are those of a queue of at most
`num_ents` entries, as long as `num_ents` is at most `2 ^ 31`. -/
theorem fifo_refines {num_ents ent_size low_water_mark : BitVec 32}
    {poll : PollSide → Option PollBits} {ops : List FifoOp} (hpos : 1 ≤ num_ents.toNat)
    (hsmall : num_ents.toNat * ent_size.toNat < 2 ^ 31) (hmark : 1 ≤ low_water_mark.toNat)
    (hwhole : ∀ op ∈ ops, op.num = (Fifo.init num_ents ent_size low_water_mark).ent_size.toNat)
    (hn : num_ents.toNat ≤ 2 ^ 31) :
    fifoRun ⟨.init num_ents ent_size low_water_mark, poll⟩ ops =
      .ok (queueRun num_ents.toNat [] ops) :=
  Fifo.Holds.run (.init hpos hmark hsmall) hn hwhole

/-- Two entries of two words each, through a FIFO of two. -/
theorem fifo_refines_two :
    fifoRun ⟨.init 2 2 1, fun _ => none⟩
        [.enqueue [1, 2], .enqueue [3, 4], .enqueue [5, 6], .dequeue 2, .enqueue [7, 8],
          .dequeue 2, .dequeue 2, .dequeue 2] =
      .ok (queueRun 2 []
        [.enqueue [1, 2], .enqueue [3, 4], .enqueue [5, 6], .dequeue 2, .enqueue [7, 8],
          .dequeue 2, .dequeue 2, .dequeue 2]) :=
  fifo_refines (by decide) (by decide) (by decide) (by decide) (by decide)

/-- With entries of no words there is nothing that bounds their number: one entry in a FIFO of
`2 ^ 32 - 1` is counted as none. -/
theorem fifo_not_refines :
    (2 ^ 32 - 1) * (0 : BitVec 32).toNat < 2 ^ 31 ∧
      (FifoOp.enqueue []).num = (Fifo.init (2 ^ 32 - 1) 0 1).ent_size.toNat ∧
      fifoRun ⟨.init (2 ^ 32 - 1) 0 1, fun _ => none⟩ [.enqueue []] =
        .ok [⟨⟨true, []⟩, 0, 2 ^ 32 - 1, false, false⟩] ∧
      queueRun (2 ^ 32 - 1) [] [.enqueue []] = [⟨⟨true, []⟩, 1, 2 ^ 32 - 2, false, false⟩] := by
  refine ⟨by decide, rfl, ?_, ?_⟩
  · rfl
  · rfl

/-! ## The low water mark -/

/-- The values that a sequence of operations returns. -/
def fifoReturns (s : FifoState) (ops : List FifoOp) : Except FifoErr (List Bool) :=
  (fifoRun s ops).map (List.map fun r => r.reply.ret)

section
variable {σ : Type}

/-- The values that a machine returns. -/
def returns (step : σ → FifoOp → Bool × σ) (s : σ) : List FifoOp → List Bool
  | [] => []
  | op :: ops => (step s op).1 :: returns step (step s op).2 ops

/-- Where it ends. -/
def leaves (step : σ → FifoOp → Bool × σ) (s : σ) (ops : List FifoOp) : σ :=
  ops.foldl (fun s op => (step s op).2) s

theorem returns_append (step : σ → FifoOp → Bool × σ) (ops' : List FifoOp) :
    ∀ (ops : List FifoOp) (s : σ),
      returns step s (ops ++ ops') = returns step s ops ++ returns step (leaves step s ops) ops'
  | [], _ => rfl
  | op :: ops, s => congrArg (_ :: ·) (returns_append step ops' ops (step s op).2)

end

/-- A count of at most `capacity` entries. -/
def countStep (capacity : Nat) (count : Nat) : FifoOp → Bool × Nat
  | .enqueue _ => if count < capacity then (true, count + 1) else (false, count)
  | .dequeue _ => if count = 0 then (false, 0) else (true, count - 1)

/-- The hysteresis: an enqueue that fills the queue blocks those after it, until dequeues have
brought the count below `mark`. -/
def latchStep (capacity mark : Nat) (s : Nat × Bool) : FifoOp → Bool × (Nat × Bool)
  | .enqueue _ => if s.2 then (false, s) else (true, s.1 + 1, decide (s.1 + 1 = capacity))
  | .dequeue _ => if s.1 = 0 then (false, s) else (true, s.1 - 1, s.2 && decide (mark ≤ s.1 - 1))

section
variable {f : Fifo} {op : FifoOp}

theorem Fifo.Ok.count (h : f.Ok) (hmark : 0 < f.low_water_mark.toNat) (op : FifoOp) :
    (op.fifo f).Ok ∧
      countStep f.num_ents.toNat f.held op = ((op.reply f).ret, (op.fifo f).held) := by
  have hle := h.held_le
  cases op with
  | enqueue messagep =>
    have hiff := h.isFull_iff_held
    cases hfull : f.isFull with
    | true =>
      replace hiff := hiff.mp hfull
      simp only [FifoOp.fifo, FifoOp.reply, hfull, countStep, hiff]
      exact ⟨h, by simp [hiff]⟩
    | false =>
      rw [hfull] at hiff
      have hroom : f.held < f.num_ents.toNat := lt_of_le_of_ne hle fun heq => by simp [heq] at hiff
      simp only [FifoOp.fifo, FifoOp.reply, hfull, countStep, hroom]
      exact ⟨h.put hfull, by simp [h.held_put hfull]⟩
  | dequeue num =>
    have hiff := h.isEmpty_iff_held
    cases hempty : f.isEmpty with
    | true =>
      replace hiff := hiff.mp hempty
      simp only [FifoOp.fifo, FifoOp.reply, hempty, countStep, hiff]
      exact ⟨h, by simp [hiff]⟩
    | false =>
      have hsome : f.held ≠ 0 := fun heq => by simp [hempty, heq] at hiff
      have hheld := h.held_take hempty hmark
      simp only [FifoOp.fifo, FifoOp.reply, hempty, countStep, hsome]
      exact ⟨h.take, by simp [← hheld]⟩

theorem Fifo.Ok.returns_eq : ∀ {ops : List FifoOp} {s : FifoState}, s.fifo.Ok →
    0 < s.fifo.low_water_mark.toNat → (∀ op ∈ ops, op.num ≤ s.fifo.ent_size.toNat) →
    fifoReturns s ops = .ok (returns (countStep s.fifo.num_ents.toNat) s.fifo.held ops)
  | [], _, _, _, _ => rfl
  | op :: ops, s, h, hmark, hfits => by
    obtain ⟨s', hexec, hfifo⟩ := exec_eq (hfits op List.mem_cons_self)
    obtain ⟨hok, hcount⟩ := h.count hmark op
    rw [← hfifo] at hok hcount
    have hents : s'.fifo.num_ents = s.fifo.num_ents := by rw [hfifo, (op.fifo_config _).1]
    have hrest := Fifo.Ok.returns_eq hok (by rw [hfifo, (op.fifo_config _).2.2]; exact hmark)
      fun op' hop' => by
        rw [hfifo, (op.fifo_config _).2.1]
        exact hfits op' (List.mem_cons_of_mem _ hop')
    rw [fifoReturns, hents] at hrest
    rw [fifoReturns, fifoRun, hexec, returns, hcount]
    change Except.map _ (fifoRun s' ops >>= fun rest => pure (s'.fifo.report _ :: rest)) = _
    cases hrun : fifoRun s' ops with
    | error e => rw [hrun] at hrest; cases hrest
    | ok rest =>
      rw [hrun] at hrest
      injection hrest with hrest
      exact congrArg (fun l => Except.ok (_ :: l)) hrest

theorem returns_latch_self (hle : count ≤ capacity) :
    returns (latchStep capacity capacity) (count, decide (count = capacity)) ops =
      returns (countStep capacity) count ops := by
  induction ops generalizing count with
  | nil => rfl
  | cons op ops ih =>
    cases op with
    | enqueue messagep =>
      rcases eq_or_lt_of_le hle with rfl | hlt
      · simpa [returns, latchStep, countStep] using ih hle
      · simpa [returns, latchStep, countStep, hlt, hlt.ne] using ih hlt
    | dequeue num =>
      cases count with
      | zero => simpa [returns, latchStep, countStep] using ih hle
      | succ count =>
        have hne : count ≠ capacity := by omega
        have hnle : ¬ capacity ≤ count := by omega
        simpa [returns, latchStep, countStep, hne, hnle] using ih (Nat.le_of_succ_le hle)

theorem leaves_enqueues (mark k : Nat) (hk : k ≤ capacity) (hpos : 0 < capacity) :
    leaves (countStep capacity) 0 (List.replicate k (.enqueue [])) = k ∧
      leaves (latchStep capacity mark) (0, false) (List.replicate k (.enqueue [])) =
        (k, decide (k = capacity)) := by
  induction k with
  | zero => exact ⟨rfl, by simp [leaves, hpos.ne]⟩
  | succ k ih =>
    obtain ⟨hcount, hlatch⟩ := ih (Nat.le_of_succ_le hk)
    have hlt : k < capacity := hk
    rw [List.replicate_succ', leaves, leaves, List.foldl_append, List.foldl_append]
    rw [leaves] at hcount hlatch
    rw [hcount, hlatch]
    exact ⟨by simp [countStep, hlt], by simp [latchStep, hlt.ne]⟩

theorem returns_latch_ne (hpos : 0 < capacity) (hlt : mark < capacity) :
    returns (latchStep capacity mark) (0, false)
        (List.replicate capacity (.enqueue []) ++ [.dequeue 0, .enqueue []]) ≠
      returns (countStep capacity) 0
        (List.replicate capacity (.enqueue []) ++ [.dequeue 0, .enqueue []]) := by
  obtain ⟨hcount, hlatch⟩ := leaves_enqueues mark capacity le_rfl hpos
  intro heq
  rw [returns_append, returns_append, hcount, hlatch] at heq
  have hlast := List.append_inj_right' heq rfl
  have hne : capacity ≠ 0 := hpos.ne'
  have hle : mark ≤ capacity - 1 := by omega
  have hless : capacity - 1 < capacity := by omega
  simp [returns, latchStep, countStep, hne, hle, hless] at hlast

end

/-- **The hysteresis of the low water mark.** The enqueues on an initialised FIFO are blocked from
when it is filled until its occupancy is below the low water mark, and only then, just where the mark
is the number of entries. -/
theorem hysteresis_iff {num_ents ent_size low_water_mark : BitVec 32}
    {poll : PollSide → Option PollBits} (hmark : 1 ≤ low_water_mark.toNat)
    (hle : low_water_mark.toNat ≤ num_ents.toNat) :
    (∀ ops : List FifoOp,
        (∀ op ∈ ops, op.num ≤ (Fifo.init num_ents ent_size low_water_mark).ent_size.toNat) →
        fifoReturns ⟨.init num_ents ent_size low_water_mark, poll⟩ ops =
          .ok (returns (latchStep num_ents.toNat low_water_mark.toNat) (0, false) ops)) ↔
      low_water_mark.toNat = num_ents.toNat := by
  have hpos : 0 < num_ents.toNat := lt_of_lt_of_le hmark hle
  have hcount : ∀ ops : List FifoOp,
      (∀ op ∈ ops, op.num ≤ (Fifo.init num_ents ent_size low_water_mark).ent_size.toNat) →
      fifoReturns ⟨.init num_ents ent_size low_water_mark, poll⟩ ops =
        .ok (returns (countStep num_ents.toNat) 0 ops) :=
    fun ops hops => Fifo.Ok.returns_eq (.init hpos _ _) hmark hops
  constructor
  · intro hall
    by_contra hne
    have hfits : ∀ op ∈ List.replicate num_ents.toNat (FifoOp.enqueue []) ++
        [.dequeue 0, .enqueue []],
        op.num ≤ (Fifo.init num_ents ent_size low_water_mark).ent_size.toNat := by
      intro op hop
      have hzero : op.num = 0 := by
        simp only [List.mem_append, List.mem_replicate, List.mem_cons, List.not_mem_nil,
          or_false] at hop
        rcases hop with ⟨-, rfl⟩ | rfl | rfl <;> rfl
      rw [hzero]
      exact Nat.zero_le _
    have heq := (hall _ hfits).symm.trans (hcount _ hfits)
    injection heq with heq
    exact returns_latch_ne hpos (lt_of_le_of_ne hle hne) heq
  · intro heq ops hops
    rw [hcount ops hops, heq]
    have hlatch : returns _ _ ops = _ := returns_latch_self (Nat.zero_le num_ents.toNat)
    rw [decide_eq_false hpos.ne] at hlatch
    rw [hlatch]

/-- The mark at the size, which is two. -/
theorem hysteresis_two : (Fifo.init 2 1 2).isEmpty = true ∧
    ∀ ops : List FifoOp, (∀ op ∈ ops, op.num ≤ (Fifo.init 2 1 2).ent_size.toNat) →
      fifoReturns ⟨.init 2 1 2, fun _ => none⟩ ops =
        .ok (returns (latchStep 2 2) (0, false) ops) :=
  ⟨rfl, (hysteresis_iff (by decide) (by decide)).mpr rfl⟩

/-- A FIFO of two entries with the mark at one is filled; after one dequeue an enqueue succeeds,
although one entry is not below the mark. -/
theorem hysteresis_fails :
    fifoReturns ⟨.init 2 1 1, fun _ => none⟩ [.enqueue [1], .enqueue [2], .dequeue 1, .enqueue [3]] =
        .ok [true, true, true, true] ∧
      returns (latchStep 2 1) (0, false) [.enqueue [1], .enqueue [2], .dequeue 1, .enqueue [3]] =
        [true, true, true, false] := by
  refine ⟨?_, ?_⟩
  · rfl
  · rfl

end Xdp2
