import Xdp2.Parser.SubSpec

/-!
# What a visit does

`visit_outcome` says once what an iteration of the loop of `__xdp2_parse` can do to the cursor and
the state, as the inductive `VisitOutcome`: the callbacks (`NodeCall`) come first, then the
encapsulation is counted, then the header is passed. It is stated over a `Loop`, as the library has
a second copy. `walk_rule` is the induction over the loop.
-/

namespace Xdp2

open StateError

variable {α : Type}

/-! ## Length checks -/

theorem usize_natCast {n : Nat} (h : n < 2 ^ 64) : usize n = n := by
  unfold usize
  omega

/-- The length checks let a length pass only if it is at least the minimal length and lies within
the remaining packet, whatever signed value the `len` operation returns. -/
theorem headerLen_ok (h : headerLen pd hdr len = .ok hlen) :
    pd.min_len.toNat ≤ usize hlen ∧ usize hlen ≤ len := by
  have hmin : pd.min_len.toNat < 2 ^ 16 := pd.min_len.toNat_lt
  unfold headerLen at h
  split at h
  · cases h
  · split at h
    · cases h
      rw [usize_natCast (by omega)]
      omega
    · rename_i f _
      have hlt := (f hdr len).toInt_lt
      dsimp only at h
      split at h
      · cases h
      · split at h
        · cases h
        · cases h
          unfold usize at *
          omega

/-! ## Stages of a visit -/

/-- A callback made while the node `id` with a header of length `hlen` is visited: one of the node
itself on that header, one of a sub-parser, or one of the atencap node. A TLV callback among them
has returned `XDP2_OKAY`. -/
structure NodeCall (c : Cursor) (id : NodeId) (hlen : Nat) (k : Call) : Prop where
  frame_eq : k.frame = c.frame
  role : (k.role = .node id ∧ k.hdr = some c.hdr.off ∧ k.hdr_len = hlen) ∨ k.role.isSub ∨
    ∃ a, k.role = .atencap a
  quiet : k.role.isTlv → k.ret = Code.okay

theorem QuietCall.nodeCall {id : NodeId} (h : QuietCall c.frame k) : NodeCall c id hlen k :=
  ⟨h.frame_eq, .inr (.inl h.role), h.quiet⟩

section
variable (c : Cursor) (id : NodeId) (hlen : Nat)

theorem nodeCall_self (cb : Callback) (ret : Int) :
    NodeCall c id hlen ⟨.node id, cb, some c.hdr.off, hlen, c.frame, ret⟩ :=
  ⟨rfl, .inl ⟨rfl, rfl, rfl⟩, fun h => by cases h⟩

theorem processNode_run (g : Graph α) (fuel : Nat) (n : ParseNode α) (pd : ProtoDef) :
    CodeRun (NodeCall c id hlen) (TlvCall c.frame)
      (processNode g fuel id n pd c.hdr hlen c.frame) := by
  have hhandler : ∀ cb h, CallRun (NodeCall c id hlen)
      (callHandlerVoid (.node id) cb h (some c.hdr) hlen c.frame : ParseM α Unit) :=
    fun cb h => callHandlerVoid_moves fun ret => nodeCall_self c id hlen _ _
  refine CallRun.after (callExtract_moves (nodeCall_self c id hlen _ _)) fun _ => ?_
  refine (hhandler _ _).after fun _ => CodeRun.seq ?_ ((hhandler _ _).after fun _ => .pure _)
  exact (parseSub_run g fuel id n pd c.hdr hlen c.frame).mono
    (fun _ => QuietCall.nodeCall) fun _ h => h

end

/-- The events of running a special node: its callbacks without a header, in its role and with the
frame given; `hret` is the code its handler returns. -/
def specialEvents (g : Graph α) (role : NodeId → Role) (node : Option NodeId) (frame : Nat)
    (hret : Int) : List Event :=
  match node with
  | none => []
  | some a =>
    (if (g.node a).ops.extract_metadata.isSome then
      [.call ⟨role a, .extractMetadata, none, 0, frame, Code.okay⟩] else []) ++
    (if (g.node a).ops.handler.isSome then [.call ⟨role a, .handler, none, 0, frame, hret⟩] else [])

theorem mem_specialEvents (h : e ∈ specialEvents g role node frame hret) :
    ∃ a cb ret, node = some a ∧ e = .call ⟨role a, cb, none, 0, frame, ret⟩ := by
  cases node with
  | none => cases h
  | some a =>
    rw [specialEvents, List.mem_append] at h
    rcases h with h | h
    · split at h
      · exact ⟨a, _, _, rfl, List.mem_singleton.1 h⟩
      · cases h
    · split at h
      · exact ⟨a, _, _, rfl, List.mem_singleton.1 h⟩
      · cases h

theorem runSpecialNode_eq (g : Graph α) (role : NodeId → Role) (node : Option NodeId) (frame : Nat)
    (s : St α) : ∃ s' hret, (runSpecialNode g role node frame).run s = .ok () s' ∧
      s'.log = s.log ++ specialEvents g role node frame hret ∧ s'.var = s.var := by
  cases node with
  | none => exact ⟨s, 0, rfl, by simp [specialEvents], rfl⟩
  | some a =>
    simp only [runSpecialNode, runExitNode, callExtract, callHandlerVoid, specialEvents]
    cases (g.node a).ops.extract_metadata with
    | none =>
      cases (g.node a).ops.handler with
      | none => exact ⟨_, 0, rfl, by simp, rfl⟩
      | some h => exact ⟨_, _, rfl, rfl, rfl⟩
    | some f =>
      cases (g.node a).ops.handler with
      | none => exact ⟨_, 0, rfl, rfl, rfl⟩
      | some h => exact ⟨_, _, rfl, List.append_assoc _ _ _, rfl⟩

theorem specialEvents_moves (hl : s'.log = s.log ++ specialEvents g role node frame hret)
    (hv : s'.var = s.var) (hP : ∀ a, node = some a → ∀ cb ret, P ⟨role a, cb, none, 0, frame, ret⟩) :
    Moves P s s' := by
  refine ⟨⟨_, hl, fun e he => ?_⟩, by rw [hv], by rw [hv]⟩
  obtain ⟨a, cb, ret, ha, rfl⟩ := mem_specialEvents he
  exact ⟨_, rfl, hP a ha cb ret⟩

theorem St.countEncap_within {s : St α} {id : NodeId}
    (h : (s.countEncap cfg id).var.encaps.toNat ≤ cfg.max_encaps.toNat) :
    (s.countEncap cfg id).log = s.log ++ [.encap id true] := by
  have h' : (s.var.encaps + 1).toNat ≤ cfg.max_encaps.toNat := h
  simp only [St.countEncap, St.push_log, h', decide_true]

theorem St.countEncap_beyond {s : St α} {id : NodeId}
    (h : cfg.max_encaps.toNat < (s.countEncap cfg id).var.encaps.toNat) :
    (s.countEncap cfg id).log = s.log ++ [.encap id false] := by
  have h' : ¬ (s.var.encaps + 1).toNat ≤ cfg.max_encaps.toNat := Nat.not_le.2 h
  simp only [St.countEncap, St.push_log, h', decide_false]

/-- The encapsulation accounting let the walk go on with the frame pointer and number `fr`:
either the protocol is not an encapsulation, or it was counted and is within the limit. -/
inductive Entered (cfg : Config) (c : Cursor) (id : NodeId) (pd : ProtoDef) (s : St α) :
    St α → Nat × Nat → Prop where
  | plain (h : pd.encap = false) : Entered cfg c id pd s s (c.frame, c.frame_num)
  | encap (h : pd.encap = true) (hle : (s.countEncap cfg id).var.encaps.toNat ≤ cfg.max_encaps.toNat) :
      Entered cfg c id pd s (s.countEncap cfg id) (nextFrame cfg c.frame c.frame_num)

/-- What the encapsulation accounting can do: fail in no way, count one too many, or let the walk
go on. The atencap node's callbacks come before the count. -/
inductive EnterOutcome (p : Parser α) (c : Cursor) (id : NodeId) (pd : ProtoDef) (hlen : Nat)
    (s : St α) : EStateM.Result Err (St α) (Option (Nat × Nat)) → Prop where
  | tooMany {s1 : St α} (hm : Moves (NodeCall c id hlen) s s1) (henc : pd.encap = true)
      (hgt : p.config.max_encaps.toNat < (s1.countEncap p.config id).var.encaps.toNat) :
      EnterOutcome p c id pd hlen s (.ok none (s1.countEncap p.config id))
  | entered {s1 s2 : St α} {fr : Nat × Nat} (hm : Moves (NodeCall c id hlen) s s1)
      (h : Entered p.config c id pd s1 s2 fr) : EnterOutcome p c id pd hlen s (.ok (some fr) s2)

theorem tooManyEncaps_run (cfg : Config) (id : NodeId) (s : St α) :
    (tooManyEncaps cfg id).run s =
      .ok (decide (cfg.max_encaps.toNat < (s.countEncap cfg id).var.encaps.toNat))
        (s.countEncap cfg id) := rfl

theorem enterEncap_outcome (p : Parser α) (c : Cursor) (id : NodeId) (pd : ProtoDef) (hlen : Nat)
    (s : St α) :
    EnterOutcome p c id pd hlen s ((enterEncap p id pd c.frame c.frame_num).run s) := by
  rw [enterEncap]
  cases hencap : pd.encap with
  | false => exact .entered (.refl s) (.plain hencap)
  | true =>
    obtain ⟨s1, hret, hs1, hl, hv⟩ :=
      runSpecialNode_eq p.graph .atencap p.config.atencap_node c.frame s
    have hm : Moves (NodeCall c id hlen) s s1 := specialEvents_moves hl hv
      fun a _ cb ret => ⟨rfl, .inr (.inr ⟨a, rfl⟩), fun h => by cases h⟩
    simp only [if_true]
    rw [run_bind_ok hs1, run_bind_ok (tooManyEncaps_run p.config id s1)]
    by_cases hgt : p.config.max_encaps.toNat < (s1.countEncap p.config id).var.encaps.toNat
    · simp only [hgt, decide_true, if_true]
      exact .tooMany hm hencap hgt
    · simp only [hgt, decide_false]
      exact .entered hm (.encap hencap (by omega))

/-! ## A whole visit -/

/-- What tells the copies of the loop apart in the outcomes of an iteration: the length checks,
and what is recorded when the walk arrives at a node. -/
structure Loop (α : Type) where
  headerLen : ProtoDef → Hdr → Nat → Except Int Int
  arrive : St α → NodeId → St α
  arrive_log : ∀ s id, (arrive s id).log = s.log ∨ (arrive s id).log = s.log ++ [.node id]
  arrive_encaps : ∀ s id, (arrive s id).var.encaps = s.var.encaps
  arrive_ret_code : ∀ s id, (arrive s id).var.ret_code = s.var.ret_code

/-- The loop of `__xdp2_parse`. -/
def parseLoop : Loop α where
  headerLen := headerLen
  arrive := St.atNode
  arrive_log _ _ := .inr rfl
  arrive_encaps _ _ := rfl
  arrive_ret_code _ _ := rfl

/-- A visit of the node `id` has passed the length checks with the header length `hlen` and then
made callbacks up to the state `s'`. -/
structure Processed (L : Loop α) (p : Parser α) (c : Cursor) (s : St α) (id : NodeId)
    (pd : ProtoDef) (hlen : Nat) (s' : St α) : Prop where
  node : c.parse_node = some id
  proto_def : (p.graph.node id).proto_def = some pd
  len : ∃ h, L.headerLen pd c.hdr c.len = .ok h ∧ hlen = usize h
  moves : Moves (NodeCall c id hlen) (L.arrive s id) s'

/-- Everything an iteration of the loop can do from the cursor `c` and the state `s`. -/
inductive VisitOutcome (L : Loop α) (p : Parser α) (c : Cursor) (s : St α) :
    EStateM.Result Err (St α) Visit → Prop where
  /-- There is no node at the cursor, or it has no protocol definition. -/
  | null : VisitOutcome L p c s (.error .fault s)
  /-- The length checks fail. -/
  | short {id : NodeId} {pd : ProtoDef} {ret : Int} (hid : c.parse_node = some id)
      (hpd : (p.graph.node id).proto_def = some pd)
      (hlen : L.headerLen pd c.hdr c.len = .error ret) :
      VisitOutcome L p c s (.ok (.stop ret c.frame) (L.arrive s id))
  /-- A sub-parser does not return. -/
  | crash {id : NodeId} {pd : ProtoDef} {hlen : Nat} {e : Err} {s' : St α}
      (h : Processed L p c s id pd hlen s') : VisitOutcome L p c s (.error e s')
  /-- A sub-parser's own code, or the end at a leaf. -/
  | stop {id : NodeId} {pd : ProtoDef} {hlen : Nat} {ret : Int} {s' : St α}
      (h : Processed L p c s id pd hlen s') : VisitOutcome L p c s (.ok (.stop ret c.frame) s')
  /-- A TLV handler's code. -/
  | handler {id : NodeId} {pd : ProtoDef} {hlen : Nat} {s1 s' : St α} {k : Call}
      (h : Processed L p c s id pd hlen s1) (hc : TlvCall c.frame k) (hret : k.ret ≠ Code.okay)
      (hlog : s'.log = s1.log ++ [.call k]) (henc : s'.var.encaps = s1.var.encaps)
      (hcode : s'.var.ret_code = s1.var.ret_code) :
      VisitOutcome L p c s (.ok (.stop k.ret c.frame) s')
  /-- One encapsulation too many. -/
  | tooDeep {id : NodeId} {pd : ProtoDef} {hlen : Nat} {s1 : St α}
      (h : Processed L p c s id pd hlen s1) (henc : pd.encap = true)
      (hgt : p.config.max_encaps.toNat < (s1.countEncap p.config id).var.encaps.toNat) :
      VisitOutcome L p c s (.ok (.stop Code.stopEncapDepth c.frame) (s1.countEncap p.config id))
  /-- The key of the next protocol cannot be read. -/
  | noKey {id : NodeId} {pd : ProtoDef} {hlen : Nat} {s1 s2 : St α} {fr : Nat × Nat}
      (h : Processed L p c s id pd hlen s1) (hent : Entered p.config c id pd s1 s2 fr) :
      VisitOutcome L p c s (.error .fault s2)
  /-- There is no next node: an error code of the protocol or the code for unknown protocols. -/
  | unknown {id : NodeId} {pd : ProtoDef} {hlen : Nat} {s1 s2 : St α} {fr : Nat × Nat} {ret : Int}
      (h : Processed L p c s id pd hlen s1) (hent : Entered p.config c id pd s1 s2 fr) :
      VisitOutcome L p c s (.ok (.stop ret fr.1) s2)
  /-- The packet is used up and the node allows that. -/
  | zeroLen {id : NodeId} {pd : ProtoDef} {hlen : Nat} {s1 s2 : St α} {fr : Nat × Nat}
      (h : Processed L p c s id pd hlen s1) (hent : Entered p.config c id pd s1 s2 fr) :
      VisitOutcome L p c s (.ok (.stop Code.stopOkay fr.1) (s2.advance pd hlen))
  /-- The walk goes on. -/
  | next {id : NodeId} {pd : ProtoDef} {hlen : Nat} {s1 s2 : St α} {fr : Nat × Nat}
      {node : Option NodeId} (h : Processed L p c s id pd hlen s1)
      (hent : Entered p.config c id pd s1 s2 fr) :
      VisitOutcome L p c s (.ok (.next (c.advance pd hlen node fr)) (s2.advance pd hlen))

theorem nextParseNode_eq (n : ParseNode α) (pd : ProtoDef) (hdr : Hdr) (s : St α) :
    (nextParseNode n pd hdr).run s = .error .fault s ∨
      ∃ r, (nextParseNode n pd hdr).run s = .ok r s := by
  rw [nextParseNode]
  split
  · rw [readKey, run_bind, run_bind_ok (run_get s)]
    cases s.mem.keys[n.key_sel.toNat]? with
    | none => exact .inl rfl
    | some key => exact .inr ⟨_, rfl⟩
  · exact .inr ⟨_, rfl⟩
  · exact .inr ⟨_, rfl⟩

theorem proceed_outcome {id : NodeId} (n : ParseNode α) (h : Processed L p c s id pd hlen s1) :
    VisitOutcome L p c s ((proceed p id n pd hlen c).run s1) := by
  rw [proceed]
  split
  · exact .stop h
  · have hout := enterEncap_outcome p c id pd hlen s1
    rw [run_bind]
    generalize (enterEncap p id pd c.frame c.frame_num).run s1 = r at hout ⊢
    cases hout with
    | tooMany hm henc hgt => exact .tooDeep { h with moves := h.moves.trans hm } henc hgt
    | @entered s2 s3 fr hm hent =>
      have h' : Processed L p c s id pd hlen s2 := { h with moves := h.moves.trans hm }
      dsimp only
      rcases nextParseNode_eq n pd c.hdr s3 with hn | ⟨r, hn⟩
      · rw [run_bind_error hn]
        exact .noKey h' hent
      · rw [run_bind_ok hn]
        cases r with
        | error ret => exact .unknown h' hent
        | ok node =>
          dsimp only
          rw [foundNext, run_bind_ok (run_modify s3 _)]
          dsimp only
          split
          · exact .zeroLen h' hent
          · exact .next h' hent

/-- **One iteration of the loop** has one of the outcomes listed. -/
theorem visit_outcome (p : Parser α) (fuel : Nat) (c : Cursor) (s : St α) :
    VisitOutcome parseLoop p c s ((visit p fuel c).run s) := by
  rw [visit]
  cases hid : c.parse_node with
  | none => exact .null
  | some id =>
    rw [run_bind_ok (show (deref (some id)).run s = .ok id s from rfl)]
    dsimp only
    cases hpd : (p.graph.node id).proto_def with
    | none => exact .null
    | some pd =>
      rw [run_bind_ok (show (deref (some pd)).run s = .ok pd s from rfl), run_bind_ok (run_modify s _)]
      cases hlen : headerLen pd c.hdr c.len with
      | error ret => exact .short hid hpd hlen
      | ok h =>
        have hproc := processNode_run c id (usize h) p.graph fuel (p.graph.node id) pd
          (s.atNode id)
        dsimp only
        rw [run_bind]
        generalize (processNode p.graph fuel id (p.graph.node id) pd c.hdr (usize h) c.frame).run
          (s.atNode id) = r at hproc ⊢
        cases hproc with
        | stopped hm hc hret hlog henc hcode =>
          simp only [if_pos hret]
          exact .handler ⟨hid, hpd, ⟨h, hlen, rfl⟩, hm⟩ hc hret hlog henc hcode
        | quiet hm =>
          have hp : Processed parseLoop p c s id pd (usize h) (final r) := ⟨hid, hpd, ⟨h, hlen, rfl⟩, hm⟩
          cases r with
          | error e s' => exact .crash hp
          | ok ret s' =>
            dsimp only
            split
            · exact .stop hp
            · exact proceed_outcome _ hp

/-! ## Callbacks of a visit -/

section
variable {s : St α}

theorem Loop.eachCall (L : Loop α) (h : EachCall P s.log) (id : NodeId) :
    EachCall P (L.arrive s id).log := by
  rcases L.arrive_log s id with hl | hl
  · rw [hl]; exact h
  · rw [hl]; exact h.snoc fun _ he => by cases he

theorem EachCall.countEncap (h : EachCall P s.log) (cfg : Config) (id : NodeId) :
    EachCall P (s.countEncap cfg id).log := h.snoc fun _ he => by cases he

theorem EachCall.advance (h : EachCall P s.log) (pd : ProtoDef) (hlen : Nat) :
    EachCall P (s.advance pd hlen).log := by
  rw [St.advance]
  split
  · exact h
  · exact h.snoc fun _ he => by cases he

theorem Entered.eachCall {id : NodeId} (h : Entered cfg c id pd s1 s2 fr) (hc : EachCall P s1.log) : EachCall P s2.log := by
  cases h with
  | plain => exact hc
  | encap => exact hc.countEncap _ _

/-- A reading of the log that sees neither callbacks nor arrivals is unchanged until the
encapsulation is counted. -/
theorem Processed.filterMap {β : Type} {id : NodeId} (h : Processed L p c s id pd hlen s1)
    {f : Event → Option β} (hcall : ∀ k, f (.call k) = none) (hnode : ∀ n, f (.node n) = none) :
    s1.log.filterMap f = s.log.filterMap f := by
  rw [h.moves.filterMap hcall]
  rcases L.arrive_log s id with hl | hl <;> simp [hl, hnode]

theorem Processed.encaps {id : NodeId} (h : Processed L p c s id pd hlen s1) : s1.var.encaps = s.var.encaps :=
  h.moves.encaps.trans (L.arrive_encaps s id)

end

/-! ## The loop -/

/-- What is claimed of the outcome of an iteration: `Q` where it stops the walk, `I` where it goes
on, `F` where it does not return. -/
def VisitSat (Q : Int → Nat → St α → Prop) (I : Cursor → St α → Prop) (F : St α → Prop) :
    EStateM.Result Err (St α) Visit → Prop
  | .ok (.stop ret frame) s => Q ret frame s
  | .ok (.next c) s => I c s
  | .error _ s => F s

/-- What is claimed of the end of a walk: `Q` at the label `out`, `M` at the node limit, `F` where
a visit does not return. -/
def WalkSat (Q : Int → Nat → St α → Prop) (M F : St α → Prop) :
    EStateM.Result Err (St α) WalkEnd → Prop
  | .ok (.out ret frame) s => Q ret frame s
  | .ok .maxNodes s => M s
  | .error _ s => F s

/-- An invariant of cursor and state, indexed by the number of visits made, that every visit keeps
gives a fact about the end of the walk: after at most `nodes + 1` more visits, and after exactly as
many where the node limit ends it. -/
theorem walk_rule_count {I : Nat → Cursor → St α → Prop} {Q : Nat → Int → Nat → St α → Prop}
    {F : Nat → St α → Prop}
    (hstep : ∀ k c s, I k c s → VisitSat (Q k) (I (k + 1)) (F k) ((visit p fuel c).run s)) :
    ∀ (nodes k : Nat) (c : Cursor) (s : St α), I k c s →
      WalkSat (fun ret frame s => ∃ j ≤ nodes, Q (k + j) ret frame s)
        (fun s => ∃ c, I (k + nodes + 1) c s) (fun s => ∃ j ≤ nodes, F (k + j) s)
        ((walk p fuel nodes c).run s) := by
  intro nodes
  induction nodes with
  | zero =>
    intro k c s hI
    have h := hstep k c s hI
    rw [walk, run_bind]
    generalize (visit p fuel c).run s = r at h ⊢
    match r, h with
    | .ok (.stop ret frame) s', h => exact ⟨0, Nat.le_refl 0, h⟩
    | .ok (.next c') s', h => exact ⟨c', h⟩
    | .error e s', h => exact ⟨0, Nat.le_refl 0, h⟩
  | succ nodes ih =>
    intro k c s hI
    have h := hstep k c s hI
    rw [walk, run_bind]
    generalize (visit p fuel c).run s = r at h ⊢
    match r, h with
    | .ok (.stop ret frame) s', h => exact ⟨0, Nat.zero_le _, h⟩
    | .error e s', h => exact ⟨0, Nat.zero_le _, h⟩
    | .ok (.next c') s', h =>
      have hrest := ih (k + 1) c' s' h
      have hshift : ∀ j, k + 1 + j = k + (j + 1) := fun j => by omega
      dsimp only
      generalize (walk p fuel nodes c').run s' = r' at hrest ⊢
      match r', hrest with
      | .ok (.out ret frame) s2, ⟨j, hj, hq⟩ =>
        exact ⟨j + 1, Nat.succ_le_succ hj, hshift j ▸ hq⟩
      | .ok .maxNodes s2, ⟨c2, hc2⟩ => exact ⟨c2, hshift nodes ▸ hc2⟩
      | .error e s2, ⟨j, hj, hf⟩ => exact ⟨j + 1, Nat.succ_le_succ hj, hshift j ▸ hf⟩

theorem walk_rule {I : Cursor → St α → Prop} {Q : Int → Nat → St α → Prop} {F : St α → Prop}
    (hstep : ∀ c s, I c s → VisitSat Q I F ((visit p fuel c).run s)) (nodes : Nat) (c : Cursor)
    (s : St α) (hI : I c s) :
    WalkSat Q (fun s => ∃ c, I c s) F ((walk p fuel nodes c).run s) := by
  have h := walk_rule_count (I := fun _ => I) (Q := fun _ => Q) (F := fun _ => F)
    (fun _ => hstep) nodes 0 c s hI
  generalize (walk p fuel nodes c).run s = r at h ⊢
  match r, h with
  | .ok (.out ret frame) s', ⟨_, _, hq⟩ => exact hq
  | .ok .maxNodes s', h => exact h
  | .error e s', ⟨_, _, hf⟩ => exact hf

/-! ## A whole parse -/

/-- A callback of the exit node for the code `ret`. -/
structure ExitCall (cfg : Config) (ret : Int) (frame : Nat) (k : Call) : Prop where
  role : ∃ a, cfg.exitNode ret = some a ∧ k.role = .exit a
  frame_eq : k.frame = frame

/-- The end of a parse at the label `out`: the code is stored, then the exit node is run. -/
structure Exited (p : Parser α) (ret : Int) (frame : Nat) (s s' : St α) : Prop where
  log : ∃ hret, s'.log = s.log ++ specialEvents p.graph .exit (p.config.exitNode ret) frame hret
  ret_code : s'.var.ret_code = s8 ret

theorem finish_out (p : Parser α) (ret : Int) (frame : Nat) (s : St α) :
    ∃ s', (finish p (.out ret frame)).run s = .ok ret s' ∧ Exited p ret frame s s' := by
  obtain ⟨s', hret, hs', hl, hv⟩ := runSpecialNode_eq p.graph .exit (p.config.exitNode ret) frame
    { s with var.ret_code := s8 ret }
  refine ⟨s', ?_, ⟨hret, hl⟩, by rw [hv]⟩
  rw [finish, run_bind_ok (run_modify s _), run_bind_ok hs', run_pure]

theorem Exited.calls (h : Exited p ret frame s s') :
    ∃ es, s'.log = s.log ++ es ∧ ∀ e ∈ es, ∃ k, e = .call k ∧ ExitCall p.config ret frame k := by
  obtain ⟨hret, hl⟩ := h.log
  refine ⟨_, hl, fun e he => ?_⟩
  obtain ⟨a, cb, r, ha, rfl⟩ := mem_specialEvents he
  exact ⟨_, rfl, ⟨a, ha, rfl⟩, rfl⟩

theorem Exited.filterMap {β : Type} (h : Exited p ret frame s s') {f : Event → Option β}
    (hf : ∀ k, f (.call k) = none) :
    s'.log.filterMap f = s.log.filterMap f := by
  obtain ⟨es, hl, hes⟩ := h.calls
  have hcalls : OnlyCalls es := fun e he => by
    obtain ⟨k, rfl, -⟩ := hes e he
    exact ⟨k, rfl⟩
  rw [hl, List.filterMap_append, hcalls.filterMap_eq_nil hf, List.append_nil]

theorem xdp2Parse_cases (p : Parser α) (fuel : Nat) (pkt : Packet) (s : St α) :
    (∃ e s', (walk p fuel p.config.max_nodes.toNat (.init p pkt)).run s = .error e s' ∧
      (xdp2Parse p fuel pkt).run s = .error e s') ∨
    (∃ s', (walk p fuel p.config.max_nodes.toNat (.init p pkt)).run s = .ok .maxNodes s' ∧
      (xdp2Parse p fuel pkt).run s = .ok Code.stopMaxNodes s') ∨
    ∃ ret frame s1 s', (walk p fuel p.config.max_nodes.toNat (.init p pkt)).run s =
        .ok (.out ret frame) s1 ∧
      (xdp2Parse p fuel pkt).run s = .ok ret s' ∧ Exited p ret frame s1 s' := by
  rw [xdp2Parse]
  cases hw : (walk p fuel p.config.max_nodes.toNat (.init p pkt)).run s with
  | error e s' => exact .inl ⟨e, s', rfl, run_bind_error hw⟩
  | ok r s1 =>
    rw [run_bind_ok hw]
    cases r with
    | maxNodes => exact .inr (.inl ⟨s1, rfl, rfl⟩)
    | out ret frame =>
      obtain ⟨s', hf, hex⟩ := finish_out p ret frame s1
      exact .inr (.inr ⟨ret, frame, s1, s', rfl, hf, hex⟩)

theorem EachCall.exited (h : EachCall P s.log) (hP : ∀ l k c, P l c → P (l ++ [.call k]) c)
    (hex : Exited p ret frame s s') (hQ : ∀ k, ExitCall p.config ret frame k → P s.log k) :
    EachCall P s'.log := by
  obtain ⟨es, hl, he⟩ := hex.calls
  rw [hl]
  refine h.append_calls hP (fun e hmem => ?_) fun c hc => ?_
  · obtain ⟨c, rfl, -⟩ := he e hmem
    exact ⟨c, rfl⟩
  · obtain ⟨c', heq, hc'⟩ := he _ hc
    cases heq
    exact hQ _ hc'

theorem parse_rule {R : EStateM.Result Err (St α) Int → Prop}
    (hw : WalkSat Q M F ((walk p fuel p.config.max_nodes.toNat (.init p pkt)).run s))
    (hF : ∀ e s', F s' → R (.error e s')) (hM : ∀ s', M s' → R (.ok Code.stopMaxNodes s'))
    (hQ : ∀ ret frame s1 s', Q ret frame s1 → Exited p ret frame s1 s' → R (.ok ret s')) :
    R ((xdp2Parse p fuel pkt).run s) := by
  rcases xdp2Parse_cases p fuel pkt s with ⟨e, s', hwe, hpe⟩ | ⟨s', hwe, hpe⟩ |
    ⟨ret, frame, s1, s', hwe, hpe, hex⟩
  · rw [hwe] at hw
    rw [hpe]
    exact hF e s' hw
  · rw [hwe] at hw
    rw [hpe]
    exact hM s' hw
  · rw [hwe] at hw
    rw [hpe]
    exact hQ ret frame s1 s' hw hex

/-- A property of every callback that holds at the start, that every visit keeps together with an
invariant `I` of the cursor, and that the exit node's callbacks have, holds of every callback of a
parse, whichever way it ends. -/
theorem parse_eachCall {Q : Int → Nat → St α → Prop} (hP : ∀ l k c, P l c → P (l ++ [.call k]) c)
    (hinit : I (.init p pkt) s) (hlog : ∀ c s, I c s → EachCall P s.log)
    (hstep : ∀ c s, I c s → VisitSat (fun ret frame s => Q ret frame s ∧ EachCall P s.log) I (fun s => EachCall P s.log) ((visit p fuel c).run s))
    (hexit : ∀ ret frame s k, Q ret frame s → ExitCall p.config ret frame k → P s.log k) :
    EachCall P (final ((xdp2Parse p fuel pkt).run s)).log := by
  refine parse_rule (R := fun r => EachCall P (final r).log)
    (walk_rule hstep p.config.max_nodes.toNat (.init p pkt) s hinit) (fun _ _ h => h) ?_ ?_
  · rintro s' ⟨c', hc'⟩
    exact hlog c' s' hc'
  · rintro ret frame s1 s' ⟨hq, hcalls⟩ hex
    exact hcalls.exited hP hex fun k hk => hexit ret frame s1 k hq hk

end Xdp2
