import Xdp2.Parser.NodeLimit

/-!
# Encapsulation depth

With `max_encaps` below 255 the counter counts (`EncapInv`): a parse makes no callback behind more
than `max_encaps` encapsulations, and ends with `XDP2_STOP_ENCAP_DEPTH`. The counter has eight bits,
so from 255 on it wraps before the test can fire, and only the node limit ends a walk round a cycle
(`encapLoop`, `encapLimited_iff`).
-/

namespace Xdp2

open StateError

variable {α : Type}

/-- A callback, other than one of the exit node, is made behind at most `max_encaps`
encapsulations. -/
def BehindAtMost (cfg : Config) (pre : List Event) (k : Call) : Prop :=
  (∀ a, k.role ≠ .exit a) → (encapsulations pre).length ≤ cfg.max_encaps.toNat

/-- The depth limit, of the outcome of a parse: no callback behind more than `max_encaps`
encapsulations, and if more are counted, the parse has stopped at the first one too many with
`XDP2_STOP_ENCAP_DEPTH`, with nothing but the exit node's callbacks after it. -/
structure EncapStops (cfg : Config) (r : EStateM.Result Err (St α) Int) : Prop where
  calls : EachCall (BehindAtMost cfg) (final r).log
  stops : cfg.max_encaps.toNat < (encapsulations (final r).log).length →
    ∃ s' pre id b post, r = .ok Code.stopEncapDepth s' ∧ s'.log = pre ++ .encap id b :: post ∧
      (encapsulations pre).length = cfg.max_encaps.toNat ∧
      ∀ e ∈ post, ∃ k a, e = .call k ∧ k.role = .exit a

/-- A configuration limits the depth: of every graph, on every packet. -/
def EncapLimited (cfg : Config) : Prop :=
  ∀ (α : Type) (g : Graph α) (root : NodeId) (fuel : Nat) (pkt : Packet) (mem : UserMem α),
    EncapStops cfg ((xdp2Parse ⟨cfg, root, g⟩ fuel pkt).run (.init mem))

theorem BehindAtMost.append_call (l : List Event) (k' k : Call) (h : BehindAtMost cfg l k) :
    BehindAtMost cfg (l ++ [.call k']) k := by
  simpa [BehindAtMost] using h

@[simp] theorem encapsulations_advance_log (s : St α) (pd : ProtoDef) (hlen : Nat) :
    encapsulations (s.advance pd hlen).log = encapsulations s.log := by
  rw [St.advance]
  split
  · rfl
  · simp

@[simp] theorem encapsulations_countEncap (s : St α) (cfg : Config) (id : NodeId) :
    encapsulations (s.countEncap cfg id).log = encapsulations s.log ++ [id] := by
  simp [St.countEncap]

@[simp] theorem advance_var (s : St α) (pd : ProtoDef) (hlen : Nat) :
    (s.advance pd hlen).var = s.var := by
  rw [St.advance]
  split <;> rfl

section
variable {L : Loop α} {p : Parser α} {c : Cursor} {s s1 s2 : St α} {id : NodeId} {pd : ProtoDef}
  {hlen : Nat} {fr : Nat × Nat}

theorem Processed.encapsulations (h : Processed L p c s id pd hlen s1) :
    encapsulations s1.log = encapsulations s.log := h.filterMap (fun _ => rfl) fun _ => rfl

/-! ## Below 255 the counter counts -/

/-- The loop invariant while the counter cannot wrap. -/
structure EncapInv (cfg : Config) (s : St α) : Prop where
  calls : EachCall (BehindAtMost cfg) s.log
  counter : s.var.encaps.toNat = (Xdp2.encapsulations s.log).length
  le : (Xdp2.encapsulations s.log).length ≤ cfg.max_encaps.toNat

/-- Where the walk stops: within the limit, or just past it with `XDP2_STOP_ENCAP_DEPTH`. -/
structure EncapEnd (cfg : Config) (ret : Int) (s : St α) : Prop where
  calls : EachCall (BehindAtMost cfg) s.log
  depth : (Xdp2.encapsulations s.log).length ≤ cfg.max_encaps.toNat ∨
    ret = Code.stopEncapDepth ∧ ∃ pre id, s.log = pre ++ [.encap id false] ∧
      (Xdp2.encapsulations pre).length = cfg.max_encaps.toNat

theorem EncapInv.processed (hI : EncapInv p.config s) (h : Processed L p c s id pd hlen s1) :
    EncapInv p.config s1 := by
  refine ⟨?_, by rw [h.encaps, h.encapsulations, hI.counter], by rw [h.encapsulations]; exact hI.le⟩
  refine (L.eachCall hI.calls id).moves BehindAtMost.append_call h.moves ?_
  intro k _ _
  have harr : Xdp2.encapsulations (L.arrive s id).log = Xdp2.encapsulations s.log := by
    rcases L.arrive_log s id with hl | hl <;> simp [hl]
  rw [harr]
  exact hI.le

theorem EncapInv.count (hI : EncapInv p.config s) (hlim : p.config.max_encaps.toNat < 255)
    (id : NodeId) :
    (s.countEncap p.config id).var.encaps.toNat = (Xdp2.encapsulations s.log).length + 1 := by
  have hle := hI.le
  have hc := hI.counter
  have hadd : (s.var.encaps + 1).toNat = s.var.encaps.toNat + 1 := by
    rw [UInt8.toNat_add]
    exact Nat.mod_eq_of_lt (by simp; omega)
  rw [← hc]
  exact hadd

theorem EncapInv.entered (hI : EncapInv p.config s) (hlim : p.config.max_encaps.toNat < 255)
    (hent : Entered p.config c id pd s s2 fr) : EncapInv p.config s2 := by
  cases hent with
  | plain _ => exact hI
  | encap _ hle =>
    have hcount := hI.count hlim id
    refine ⟨hI.calls.countEncap _ _, ?_, ?_⟩
    · rw [hcount, encapsulations_countEncap, List.length_append, List.length_singleton]
    · rw [encapsulations_countEncap, List.length_append, List.length_singleton]
      omega

theorem EncapInv.advance (hI : EncapInv p.config s) (pd : ProtoDef) (hlen : Nat) :
    EncapInv p.config (s.advance pd hlen) :=
  ⟨hI.calls.advance pd hlen, by rw [advance_var, encapsulations_advance_log, hI.counter],
    by rw [encapsulations_advance_log]; exact hI.le⟩

theorem EncapInv.stop (hI : EncapInv p.config s) (ret : Int) : EncapEnd p.config ret s :=
  ⟨hI.calls, .inl hI.le⟩

theorem EncapInv.outcome (hlim : p.config.max_encaps.toNat < 255) (hI : EncapInv p.config s)
    (hout : VisitOutcome L p c s r) :
    VisitSat (fun ret _ s => EncapEnd p.config ret s) (fun _ s => EncapInv p.config s)
      (EncapInv p.config) r := by
  cases hout with
  | null => exact hI
  | @short id pd ret hid hpd hlen =>
    refine ⟨L.eachCall hI.calls _, .inl ?_⟩
    rcases L.arrive_log s id with hl | hl <;> simpa [hl] using hI.le
  | crash h => exact hI.processed h
  | stop h => exact (hI.processed h).stop _
  | @handler _ _ _ s1 s' k h hc hret hlog henc hcode =>
    have hp := hI.processed h
    refine ⟨?_, .inl ?_⟩
    · rw [hlog]
      refine hp.calls.snoc fun k hk _ => hp.le
    · rw [hlog]
      simpa using hp.le
  | @tooDeep id pd hlen s1 h henc hgt =>
    have hp := hI.processed h
    have hcount := hp.count hlim id
    have hle := hp.le
    refine ⟨hp.calls.countEncap _ _, .inr ⟨rfl, s1.log, id, St.countEncap_beyond hgt, ?_⟩⟩
    omega
  | noKey h hent => exact (hI.processed h).entered hlim hent
  | unknown h hent => exact ((hI.processed h).entered hlim hent).stop _
  | zeroLen h hent => exact (((hI.processed h).entered hlim hent).advance _ _).stop _
  | next h hent => exact ((hI.processed h).entered hlim hent).advance _ _

end

theorem Exited.encapsulations (h : Exited p ret frame s s') :
    encapsulations s'.log = encapsulations s.log :=
  h.filterMap fun _ => rfl

theorem EncapEnd.exited (h : EncapEnd p.config ret s) (hex : Exited p ret frame s s') :
    EncapStops p.config (.ok ret s' : EStateM.Result Err (St α) Int) := by
  obtain ⟨es, hl, hes⟩ := hex.calls
  have hexit : ∀ e ∈ es, ∃ k a, e = .call k ∧ k.role = .exit a := by
    intro e he
    obtain ⟨k, rfl, hk⟩ := hes e he
    obtain ⟨a, -, ha⟩ := hk.role
    exact ⟨k, a, rfl, ha⟩
  have henc : encapsulations es = [] := by
    refine List.filterMap_eq_nil_iff.2 fun e he => ?_
    obtain ⟨k, a, rfl, -⟩ := hexit e he
    rfl
  refine ⟨h.calls.exited BehindAtMost.append_call hex ?_, fun hgt => ?_⟩
  · intro k hk hrole
    obtain ⟨a, -, ha⟩ := hk.role
    exact absurd ha (hrole a)
  · simp only [final_ok, hl, encapsulations_append, henc, List.append_nil] at hgt
    rcases h.depth with hle | ⟨rfl, pre, id, hs, hpre⟩
    · omega
    · exact ⟨s', pre, id, false, es, rfl, by rw [hl, hs, List.append_assoc]; rfl, hpre, hexit⟩

theorem encapStops_of_lt (p : Parser α) (hlim : p.config.max_encaps.toNat < 255) (fuel : Nat)
    (pkt : Packet) (mem : UserMem α) :
    EncapStops p.config ((xdp2Parse p fuel pkt).run (.init mem)) := by
  have hinit : EncapInv p.config (.init mem : St α) := ⟨.nil, rfl, Nat.zero_le _⟩
  have hw := walk_rule (I := fun _ s => EncapInv p.config s) (fun c s hI =>
    hI.outcome hlim (visit_outcome p fuel c s)) p.config.max_nodes.toNat (.init p pkt) (.init mem) hinit
  -- within the limit nothing has to stop
  have hwithin : ∀ (r : EStateM.Result Err (St α) Int), EncapInv p.config (final r) →
      EncapStops p.config r := by
    intro r hI
    exact ⟨hI.calls, fun hgt => absurd hI.le (Nat.not_le.2 hgt)⟩
  exact parse_rule hw (fun e s' hI => hwithin _ hI) (fun s' ⟨_, hI⟩ => hwithin _ hI)
    fun ret frame s1 s' hend hex => hend.exited hex

/-! ## A node limit below the depth limit -/

/-- A callback is made in a visit, behind encapsulations of earlier visits. -/
def BehindVisits (pre : List Event) (k : Call) : Prop :=
  (∀ a, k.role ≠ .exit a) → (encapsulations pre).length < (visited pre).length

theorem BehindVisits.append_call (l : List Event) (k' k : Call) (h : BehindVisits l k) :
    BehindVisits (l ++ [.call k']) k := by
  simpa [BehindVisits] using h

/-- There are at most as many encapsulations as visits. -/
structure VisitsInv (s : St α) : Prop where
  calls : EachCall BehindVisits s.log
  le : (encapsulations s.log).length ≤ (visited s.log).length

section
variable {p : Parser α} {c : Cursor} {s s1 s2 : St α} {id : NodeId} {pd : ProtoDef}
  {hlen : Nat} {fr : Nat × Nat}

theorem VisitsInv.processed (hI : VisitsInv s) (h : Processed parseLoop p c s id pd hlen s1) :
    EachCall BehindVisits s1.log ∧
      (Xdp2.encapsulations s1.log).length < (Xdp2.visited s1.log).length := by
  have hlt : (Xdp2.encapsulations (parseLoop.arrive s id).log).length <
      (Xdp2.visited (parseLoop.arrive s id).log).length := by
    have := hI.le
    simp [parseLoop, St.atNode]
    omega
  refine ⟨(parseLoop.eachCall hI.calls id).moves BehindVisits.append_call h.moves fun k _ _ => hlt,
    ?_⟩
  rw [h.moves.encapsulations, h.moves.visited]
  exact hlt

theorem VisitsInv.entered (hI : VisitsInv s) (h : Processed parseLoop p c s id pd hlen s1)
    (hent : Entered p.config c id pd s1 s2 fr) : VisitsInv s2 := by
  obtain ⟨hcalls, hlt⟩ := hI.processed h
  refine ⟨hent.eachCall hcalls, ?_⟩
  cases hent with
  | plain _ => exact Nat.le_of_lt hlt
  | encap _ _ =>
    simp only [encapsulations_countEncap, List.length_append, List.length_singleton]
    simp only [St.countEncap, St.push_log, visited_append, visited_encap, visited_nil,
      List.append_nil]
    exact hlt

theorem VisitsInv.advance (hI : VisitsInv s) (pd : ProtoDef) (hlen : Nat) :
    VisitsInv (s.advance pd hlen) := by
  refine ⟨hI.calls.advance pd hlen, ?_⟩
  rw [encapsulations_advance_log, St.advance]
  split
  · exact hI.le
  · simpa using hI.le

theorem VisitsInv.visit (fuel : Nat) (hI : VisitsInv s) :
    VisitSat (fun _ _ s => VisitsInv s) (fun _ s => VisitsInv s) VisitsInv
      ((visit p fuel c).run s) := by
  have hquiet : ∀ {s1 : St α}, EachCall BehindVisits s1.log ∧
      (Xdp2.encapsulations s1.log).length < (Xdp2.visited s1.log).length → VisitsInv s1 :=
    fun h => ⟨h.1, Nat.le_of_lt h.2⟩
  have hout := visit_outcome p fuel c s
  generalize (Xdp2.visit p fuel c).run s = r at hout ⊢
  cases hout with
  | null => exact hI
  | short hid hpd hlen =>
    refine ⟨parseLoop.eachCall hI.calls _, ?_⟩
    have := hI.le
    simp [parseLoop, St.atNode]
    omega
  | crash h => exact hquiet (hI.processed h)
  | stop h => exact hquiet (hI.processed h)
  | @handler _ _ _ s1 s' k h hc hret hlog henc hcode =>
    obtain ⟨hcalls, hlt⟩ := hI.processed h
    refine ⟨?_, ?_⟩
    · rw [hlog]
      exact hcalls.snoc fun k hk _ => hlt
    · rw [hlog]
      simpa using Nat.le_of_lt hlt
  | tooDeep h henc hgt =>
    obtain ⟨hcalls, hlt⟩ := hI.processed h
    refine ⟨hcalls.countEncap _ _, ?_⟩
    simp only [St.countEncap, St.push_log, encapsulations_append, encapsulations_encap,
      encapsulations_nil, visited_append, visited_encap, visited_nil, List.append_nil,
      List.length_append, List.length_singleton]
    exact hlt
  | noKey h hent => exact hI.entered h hent
  | unknown h hent => exact hI.entered h hent
  | zeroLen h hent => exact (hI.entered h hent).advance _ _
  | next h hent => exact (hI.entered h hent).advance _ _

end

theorem VisitsInv.stops (h : VisitsInv (final r))
    (hle : (visited (final r).log).length ≤ cfg.max_encaps.toNat) :
    EncapStops cfg r := by
  refine ⟨fun pre k post hlog hrole => ?_, fun hgt => ?_⟩
  · have hlt := h.calls pre k post hlog hrole
    have hpre : (visited pre).length ≤ (visited (final r).log).length := by
      rw [hlog, visited_append, List.length_append]
      omega
    omega
  · have := h.le
    omega

theorem VisitsInv.exited (h : VisitsInv s) (hex : Exited p ret frame s s') : VisitsInv s' := by
  refine ⟨h.calls.exited BehindVisits.append_call hex ?_, ?_⟩
  · intro k hk hrole
    obtain ⟨a, -, ha⟩ := hk.role
    exact absurd ha (hrole a)
  · rw [hex.visited, hex.encapsulations]
    exact h.le

theorem encapStops_of_nodes (p : Parser α)
    (hlim : p.config.max_nodes.toNat < p.config.max_encaps.toNat) (fuel : Nat) (pkt : Packet)
    (mem : UserMem α) : EncapStops p.config ((xdp2Parse p fuel pkt).run (.init mem)) := by
  have hinit : VisitsInv (.init mem : St α) := ⟨.nil, Nat.le_refl _⟩
  have hw := walk_rule (p := p) (I := fun _ s => VisitsInv s) (fun c s hI => hI.visit fuel)
    p.config.max_nodes.toNat (.init p pkt) (.init mem) hinit
  have hinv : VisitsInv (final ((xdp2Parse p fuel pkt).run (.init mem))) :=
    parse_rule (R := fun r => VisitsInv (final r)) hw (fun _ _ hI => hI) (fun _ ⟨_, hI⟩ => hI)
      fun _ _ _ _ hI hex => hI.exited hex
  have hv := parse_visited_le p fuel pkt (.init mem)
  exact hinv.stops (by
    have hzero : (visited (.init mem : St α).log).length = 0 := rfl
    omega)

/-! ## From 255 on the test never fires -/

/-- The protocol of the node below. -/
def encapProto : ProtoDef := { encap := true, overlay := true, min_len := 0 }

/-- A node that encapsulates itself: no header, an encapsulation, and the next node is the node
again. Its handler does nothing. -/
def encapNode : ParseNode Unit where
  proto_def := some encapProto
  ops := { handler := some fun _ mem => (Code.okay, mem) }
  wildcard_node := some 0

/-- The graph of that node alone. -/
def encapGraph : Graph Unit where
  node _ := encapNode
  tlv _ := {}
  flagField _ := {}
  arrel _ := {}

/-- A parser that goes round. -/
def encapLoop (cfg : Config) : Parser Unit := ⟨cfg, 0, encapGraph⟩

/-- The callback of the node that goes round. -/
def encapCall (c : Cursor) : Call := ⟨.node 0, .handler, some c.hdr.off, 0, c.frame, Code.okay⟩

theorem encapLoop_visit (cfg : Config) (fuel : Nat) (hc : c.parse_node = some 0)
    (hle : (s.var.encaps + 1).toNat ≤ cfg.max_encaps.toNat) :
    ∃ c' s', (visit (encapLoop cfg) fuel c).run s = .ok (.next c') s' ∧ c'.parse_node = some 0 ∧
      s'.var.encaps = s.var.encaps + 1 ∧
      (encapsulations s'.log).length = (encapsulations s.log).length + 1 := by
  let s0 := (s.atNode 0).push (.call (encapCall c))
  have hproc : (visit (encapLoop cfg) fuel c).run s =
      (proceed (encapLoop cfg) 0 encapNode encapProto 0 c).run s0 := by
    rw [visit, hc]
    rfl
  have hout := enterEncap_outcome (encapLoop cfg) c 0 encapProto 0 s0
  rw [hproc, proceed, if_neg (by decide), run_bind]
  generalize (enterEncap (encapLoop cfg) 0 encapProto c.frame c.frame_num).run s0 = r at hout ⊢
  cases hout with
  | @tooMany s1 hm _ hgt =>
    have henc : s1.var.encaps = s.var.encaps := hm.encaps
    have hgt' : cfg.max_encaps.toNat < (s1.var.encaps + 1).toNat := hgt
    rw [henc] at hgt'
    omega
  | @entered s1 s2 fr hm hent =>
    cases hent with
    | plain h => cases h
    | encap _ _ =>
      have henc : s1.var.encaps = s.var.encaps := hm.encaps
      have hfound : (foundNext encapNode encapProto 0 c (some 0)
          (nextFrame cfg c.frame c.frame_num)).run (s1.countEncap cfg 0) =
          .ok (.next (c.advance encapProto 0 (some 0) (nextFrame cfg c.frame c.frame_num)))
            ((s1.countEncap cfg 0).advance encapProto 0) := by
        rw [foundNext, run_bind_ok (run_modify _ _), if_neg (by simp [encapNode]), run_pure]
      refine ⟨_, _, hfound, rfl, congrArg (· + 1) henc, ?_⟩
      have hlen : encapsulations s1.log = encapsulations s.log := by
        rw [hm.encapsulations]
        simp [s0, St.atNode]
      rw [encapsulations_advance_log, encapsulations_countEncap, hlen, List.length_append,
        List.length_singleton]

/-- With a limit of 255 or more, a walk round the loop ends at the node limit, with one
encapsulation counted for each node. -/
theorem encapLoop_walk (cfg : Config) (hlim : 255 ≤ cfg.max_encaps.toNat) (fuel : Nat) :
    ∀ (nodes : Nat) (c : Cursor) (s : St Unit), c.parse_node = some 0 →
      ∃ s', (walk (encapLoop cfg) fuel nodes c).run s = .ok .maxNodes s' ∧
        (encapsulations s'.log).length = (encapsulations s.log).length + nodes + 1 := by
  intro nodes
  induction nodes with
  | zero =>
    intro c s hc
    have hbyte := (s.var.encaps + 1).toNat_lt
    obtain ⟨c', s', hv, -, -, hlen⟩ := encapLoop_visit cfg fuel (s := s) hc (by omega)
    exact ⟨s', by rw [walk, run_bind_ok hv, run_pure], hlen⟩
  | succ nodes ih =>
    intro c s hc
    have hbyte := (s.var.encaps + 1).toNat_lt
    obtain ⟨c', s1, hv, hc', -, hlen⟩ := encapLoop_visit cfg fuel (s := s) hc (by omega)
    obtain ⟨s', hw, hlen'⟩ := ih c' s1 hc'
    exact ⟨s', by rw [walk, run_bind_ok hv]; exact hw, by omega⟩

/-- With a limit of 255 or more and a node limit that is not below it, the parse of the loop goes
past the depth limit: more encapsulations are counted than allowed, and it ends at the node
limit. -/
theorem encapLoop_not_stops (cfg : Config) (hlim : 255 ≤ cfg.max_encaps.toNat)
    (hnodes : cfg.max_encaps.toNat ≤ cfg.max_nodes.toNat) (fuel : Nat) :
    ¬ EncapStops cfg ((xdp2Parse (encapLoop cfg) fuel emptyPacket).run (.init noMem)) := by
  intro h
  obtain ⟨s', hw, hlen⟩ := encapLoop_walk cfg hlim fuel (encapLoop cfg).config.max_nodes.toNat
    (.init (encapLoop cfg) emptyPacket) (.init noMem) rfl
  have hrun : (xdp2Parse (encapLoop cfg) fuel emptyPacket).run (.init noMem) =
      .ok Code.stopMaxNodes s' := by
    rw [xdp2Parse, run_bind_ok hw]
    rfl
  have hmany : cfg.max_encaps.toNat < (encapsulations s'.log).length := by
    have : (encapLoop cfg).config.max_nodes.toNat = cfg.max_nodes.toNat := rfl
    omega
  have hstop := h.stops
  rw [hrun] at hstop
  obtain ⟨_, _, _, _, _, heq, -⟩ := hstop hmany
  cases heq

/-- **When the encapsulation depth is limited as documented**: exactly when `max_encaps` is below
255, so that the counter can exceed it, or the node limit is below `max_encaps`, so that the walk
cannot get there. -/
theorem encapLimited_iff (cfg : Config) :
    EncapLimited cfg ↔
      cfg.max_encaps.toNat < 255 ∨ cfg.max_nodes.toNat < cfg.max_encaps.toNat := by
  constructor
  · intro h
    by_contra hne
    exact encapLoop_not_stops cfg (by omega) (by omega) 0 (h Unit encapGraph 0 0 emptyPacket noMem)
  · rintro (hlt | hlt) α g root fuel pkt mem
    · exact encapStops_of_lt ⟨cfg, root, g⟩ hlt fuel pkt mem
    · exact encapStops_of_nodes ⟨cfg, root, g⟩ hlt fuel pkt mem

/-- With the limit 255 and a node limit of 300 the parse of the loop does not stop at the 256th
encapsulation. -/
theorem encap_counter_wraps :
    ¬ EncapStops { max_nodes := 300, max_encaps := 255, max_frames := 1 }
      ((xdp2Parse (encapLoop { max_nodes := 300, max_encaps := 255, max_frames := 1 }) 0
        emptyPacket).run (.init noMem)) :=
  encapLoop_not_stops _ (by decide) (by decide) 0

end Xdp2
