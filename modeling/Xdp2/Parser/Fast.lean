import Xdp2.Parser.VisitSpec

/-!
# The fast parser

`__xdp2_parse_fast`, a second copy of the walk, and its validator `xdp2_parse_validate_fast`. The
copy has no test of the length after the `len` operation, no arrays, no post handlers, no leaf test
before the encapsulation accounting, no test for a missing `next_proto`, no code for unknown
protocols, no zero length stop, no node limit and no special nodes, and does not maintain the last
node. The loop takes fuel.
-/

namespace Xdp2

open StateError

variable {α : Type}

/-! ## The loop -/

/-- The length checks of the fast loop. Both comparisons are unsigned. -/
def fastHeaderLen (pd : ProtoDef) (hdr : Hdr) (len : Nat) : Except Int Int :=
  if len < pd.min_len.toNat then .error Code.stopLength
  else match pd.ops.len with
    | none => .ok pd.min_len.toNat
    | some f =>
      if len < usize (f hdr len).toInt then .error Code.stopLength else .ok (f hdr len).toInt

/-- The sub-parsers of the fast loop: TLVs and flag-fields only, without a look at the protocol
definition's type. -/
def fastSub (g : Graph α) (fuel : Nat) (id : NodeId) (n : ParseNode α) (pd : ProtoDef)
    (hdr : Hdr) (hlen frame : Nat) : ParseM α Int :=
  match n.node_type with
  | .tlvs _ => xdp2ParseTlvs g frame fuel id hdr hlen
  | .flagFields fn =>
    match pd.node_type with
    | .flagFields d => xdp2ParseFlagFields g fn d hdr frame
    | _ => throw .fault
  | _ => return Code.okay

/-- The callbacks of one protocol node. The handler's code is dropped. -/
def fastProcess (g : Graph α) (fuel : Nat) (id : NodeId) (n : ParseNode α) (pd : ProtoDef)
    (hdr : Hdr) (hlen frame : Nat) : ParseM α Int := do
  callExtract (.node id) n.ops (some hdr) hlen frame
  callHandlerVoid (.node id) .handler n.ops.handler (some hdr) hlen frame
  fastSub g fuel id n pd hdr hlen frame

/-- Encapsulation accounting of the fast loop, also at a leaf. -/
def fastEncap (cfg : Config) (id : NodeId) (pd : ProtoDef) (frame frame_num : Nat) :
    ParseM α (Option (Nat × Nat)) :=
  if pd.encap then do
    let tooMany ← tooManyEncaps cfg id
    if tooMany then return none else return some (nextFrame cfg frame frame_num)
  else
    return some (frame, frame_num)

/-- The next node: the table's, else the wildcard node, else an okay stop. With a table,
`next_proto` is called whether or not it is set. -/
def fastNext (n : ParseNode α) (pd : ProtoDef) (hdr : Hdr) : ParseM α (Except Int NodeId) :=
  match n.proto_table with
  | some table => do
    let f ← deref pd.ops.next_proto
    if f hdr < 0 then return .error (f hdr)
    else match (lookupNode (f hdr) table).or n.wildcard_node with
      | some next => return .ok next
      | none => return .error Code.stopOkay
  | none =>
    match n.wildcard_node with
    | some w => return .ok w
    | none => return .error Code.stopOkay

/-- Proceed to the next protocol layer. -/
def fastProceed (p : Parser α) (id : NodeId) (n : ParseNode α) (pd : ProtoDef) (hlen : Nat)
    (c : Cursor) : ParseM α Visit := do
  match ← fastEncap p.config id pd c.frame c.frame_num with
  | none => return .stop Code.stopEncapDepth c.frame
  | some fr =>
    match ← fastNext n pd c.hdr with
    | .error ret => return .stop ret fr.1
    | .ok next =>
      modify fun s => s.advance pd hlen
      return .next (c.advance pd hlen (some next) fr)

/-- One iteration of the loop of `__xdp2_parse_fast`. -/
def fastVisit (p : Parser α) (fuel : Nat) (c : Cursor) : ParseM α Visit := do
  let id ← deref c.parse_node
  let n := p.graph.node id
  let pd ← deref n.proto_def
  match fastHeaderLen pd c.hdr c.len with
  | .error ret => return .stop ret c.frame
  | .ok hlen =>
    let ret ← fastProcess p.graph fuel id n pd c.hdr (usize hlen) c.frame
    if ret ≠ Code.okay then return .stop ret c.frame
    else fastProceed p id n pd (usize hlen) c

/-- The loop of `__xdp2_parse_fast`, for at most `steps` iterations. -/
def fastWalk (p : Parser α) (fuel : Nat) : (steps : Nat) → Cursor → ParseM α Int
  | 0, _ => throw .fuel
  | steps + 1, c => do
    match ← fastVisit p fuel c with
    | .stop ret _ => return ret
    | .next c' => fastWalk p fuel steps c'

/-- `__xdp2_parse_fast`, for at most `steps` iterations. -/
def xdp2ParseFast (p : Parser α) (fuel steps : Nat) (pkt : Packet) : ParseM α Int :=
  fastWalk p fuel steps (Cursor.init p pkt)

/-! ## The validator -/

/-- `NUM_FAST_NODES`. -/
def numFastNodes : Nat := 64

/-- The tests of `validate_parse_fast_node` on the node itself. -/
def fastNodeOk (n : ParseNode α) : Bool :=
  n.ops.post_handler.isNone &&
  match n.proto_def with
  | none => false
  | some pd =>
    pd.ops.next_proto_keyin.isNone &&
    match n.node_type, pd.node_type with
    | .tlvs _, .tlvs _ => true
    | .tlvs _, _ => false
    | .flagFields _, .flagFields _ => true
    | .flagFields _, _ => false
    | _, _ => true

/-- The loop over the entries of a protocol table: each node is validated, the first failure
ends the loop, and the nodes seen are passed along. -/
def validateEntries (validate : List NodeId → NodeId → Bool × List NodeId) :
    List Entry → List NodeId → Bool × List NodeId
  | [], fast_nodes => (true, fast_nodes)
  | e :: entries, fast_nodes =>
    match e.node with
    | none => validateEntries validate entries fast_nodes
    | some id =>
      match validate fast_nodes id with
      | (true, fast_nodes') => validateEntries validate entries fast_nodes'
      | (false, fast_nodes') => (false, fast_nodes')

/-- `validate_parse_fast_node`. Each nested call sees one more node, so the recursion is at most
`numFastNodes + 1` deep. -/
def validateParseFastNode (g : Graph α) : (depth : Nat) → List NodeId → NodeId → Bool × List NodeId
  | 0, fast_nodes, _ => (false, fast_nodes)
  | depth + 1, fast_nodes, id =>
    if id ∈ fast_nodes then (true, fast_nodes)
    else if numFastNodes ≤ fast_nodes.length then (false, fast_nodes)
    else if ¬ fastNodeOk (g.node id) then (false, fast_nodes ++ [id])
    else match (g.node id).proto_table with
      | none => (true, fast_nodes ++ [id])
      | some entries =>
        validateEntries (validateParseFastNode g depth) entries (fast_nodes ++ [id])

/-- `xdp2_parse_validate_fast`, its `calloc` succeeding. -/
def xdp2ParseValidateFast (p : Parser α) : Bool :=
  p.config.okay_node.isNone && p.config.fail_node.isNone && p.config.atencap_node.isNone &&
    p.config.num_counters == 0 && p.config.num_keys == 0 &&
    (validateParseFastNode p.graph (numFastNodes + 1) [] p.root_node).1

/-! ## What an iteration does -/

/-- The loop of `__xdp2_parse_fast`, which records nothing on arrival at a node. -/
def fastLoop : Loop α where
  headerLen := fastHeaderLen
  arrive s _ := s
  arrive_log _ _ := .inl rfl
  arrive_encaps _ _ := rfl
  arrive_ret_code _ _ := rfl

theorem fastSub_run (g : Graph α) (fuel : Nat) (id : NodeId) (n : ParseNode α) (pd : ProtoDef)
    (hdr : Hdr) (hlen frame : Nat) : SubRun frame (fastSub g fuel id n pd hdr hlen frame) := by
  unfold fastSub
  split
  · exact (tlvRuns g frame fuel).tlvs _ _ _
  · split
    · exact xdp2ParseFlagFields_run g _ _ _
    · exact .throw _
  · exact .pure _

theorem fastProcess_run (c : Cursor) (id : NodeId) (hlen : Nat) (g : Graph α) (fuel : Nat)
    (n : ParseNode α) (pd : ProtoDef) :
    CodeRun (NodeCall c id hlen) (TlvCall c.frame)
      (fastProcess g fuel id n pd c.hdr hlen c.frame) := by
  refine CallRun.after (callExtract_moves (nodeCall_self c id hlen _ _)) fun _ => ?_
  refine CallRun.after (callHandlerVoid_moves fun ret => nodeCall_self c id hlen _ _) fun _ => ?_
  exact (fastSub_run g fuel id n pd c.hdr hlen c.frame).mono
    (fun _ => QuietCall.nodeCall) fun _ h => h

/-- The accounting makes no callbacks: it counts one encapsulation too many or lets the walk go
on. -/
theorem fastEncap_outcome (p : Parser α) (c : Cursor) (id : NodeId) (pd : ProtoDef) (hlen : Nat)
    (s : St α) :
    EnterOutcome p c id pd hlen s ((fastEncap p.config id pd c.frame c.frame_num).run s) := by
  rw [fastEncap]
  cases hencap : pd.encap with
  | false => exact .entered (.refl s) (.plain hencap)
  | true =>
    simp only [if_true]
    rw [run_bind_ok (tooManyEncaps_run p.config id s)]
    by_cases hgt : p.config.max_encaps.toNat < (s.countEncap p.config id).var.encaps.toNat
    · simp only [hgt, decide_true, if_true]
      exact .tooMany (.refl s) hencap hgt
    · simp only [hgt, decide_false]
      exact .entered (.refl s) (.encap hencap (by omega))

theorem fastNext_eq (n : ParseNode α) (pd : ProtoDef) (hdr : Hdr) (s : St α) :
    (fastNext n pd hdr).run s = .error .fault s ∨ ∃ r, (fastNext n pd hdr).run s = .ok r s := by
  rw [fastNext]
  cases n.proto_table with
  | none => cases n.wildcard_node <;> exact .inr ⟨_, rfl⟩
  | some table =>
    cases pd.ops.next_proto with
    | none => exact .inl rfl
    | some f =>
      rw [run_bind_ok (show (deref (some f)).run s = .ok f s from rfl)]
      split
      · exact .inr ⟨_, rfl⟩
      · split <;> exact .inr ⟨_, rfl⟩

theorem fastProceed_outcome {c : Cursor} {s s1 : St α} {id : NodeId} {pd : ProtoDef} {hlen : Nat}
    (n : ParseNode α) (h : Processed fastLoop p c s id pd hlen s1) :
    VisitOutcome fastLoop p c s ((fastProceed p id n pd hlen c).run s1) := by
  have hout := fastEncap_outcome p c id pd hlen s1
  rw [fastProceed, run_bind]
  generalize (fastEncap p.config id pd c.frame c.frame_num).run s1 = r at hout ⊢
  cases hout with
  | tooMany hm henc hgt => exact .tooDeep { h with moves := h.moves.trans hm } henc hgt
  | @entered s2 s3 fr hm hent =>
    have h' : Processed fastLoop p c s id pd hlen s2 := { h with moves := h.moves.trans hm }
    dsimp only
    rcases fastNext_eq n pd c.hdr s3 with hn | ⟨r, hn⟩
    · rw [run_bind_error hn]
      exact .noKey h' hent
    · rw [run_bind_ok hn]
      cases r with
      | error ret => exact .unknown h' hent
      | ok node => exact .next h' hent

theorem fastVisit_outcome (p : Parser α) (fuel : Nat) (c : Cursor) (s : St α) :
    VisitOutcome fastLoop p c s ((fastVisit p fuel c).run s) := by
  rw [fastVisit]
  cases hid : c.parse_node with
  | none => exact .null
  | some id =>
    rw [run_bind_ok (show (deref (some id)).run s = .ok id s from rfl)]
    dsimp only
    cases hpd : (p.graph.node id).proto_def with
    | none => exact .null
    | some pd =>
      rw [run_bind_ok (show (deref (some pd)).run s = .ok pd s from rfl)]
      cases hlen : fastHeaderLen pd c.hdr c.len with
      | error ret => exact VisitOutcome.short (L := fastLoop) hid hpd hlen
      | ok h =>
        have hproc := fastProcess_run c id (usize h) p.graph fuel (p.graph.node id) pd s
        dsimp only
        rw [run_bind]
        generalize (fastProcess p.graph fuel id (p.graph.node id) pd c.hdr (usize h) c.frame).run s
          = r at hproc ⊢
        cases hproc with
        | stopped hm hc hret hlog henc hcode =>
          simp only [if_pos hret]
          exact .handler ⟨hid, hpd, ⟨h, hlen, rfl⟩, hm⟩ hc hret hlog henc hcode
        | quiet hm =>
          have hp : Processed fastLoop p c s id pd (usize h) (final r) :=
            ⟨hid, hpd, ⟨h, hlen, rfl⟩, hm⟩
          cases r with
          | error e s' => exact .crash hp
          | ok ret s' =>
            dsimp only
            split
            · exact .stop hp
            · exact fastProceed_outcome _ hp

theorem fastWalk_rule (hI : ∀ c s, I c s → F s)
    (hstep : ∀ c s, I c s → VisitSat (fun _ _ s => F s) I F ((fastVisit p fuel c).run s)) :
    ∀ (steps : Nat) (c : Cursor) (s : St α), I c s → F (final ((fastWalk p fuel steps c).run s)) := by
  intro steps
  induction steps with
  | zero => exact fun c s hc => hI c s hc
  | succ steps ih =>
    intro c s hc
    have h := hstep c s hc
    rw [fastWalk, run_bind]
    generalize (fastVisit p fuel c).run s = r at h ⊢
    match r, h with
    | .ok (.stop ret frame) s', h => exact h
    | .ok (.next c') s', h => exact ih c' s' h
    | .error e s', h => exact h

end Xdp2
