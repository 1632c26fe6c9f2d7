import Xdp2.Parser.Generated
import Xdp2.Parser.FastEquiv

/-!
# The generated parser compared with the loop

For which runs the generated parser does what `__xdp2_parse` does. The template treats leaves, empty
tables, nodes without a next protocol operation, wildcard nodes and the end of the packet
differently: `AlikeAt` lists these for one node, `visit_generatedNode` compares one iteration,
`generated_of_walk` a walk.
-/

namespace Xdp2

open StateError

variable {α : Type}

/-! ## The claim -/

/-- Every node of the graph is plain and has no post handler. -/
def Graph.Plain (g : Graph α) : Prop :=
  ∀ id, (g.node id).node_type = .plain ∧ (g.node id).ops.post_handler = none

/-- The same callbacks have been made. -/
def SameCalls (s t : St α) : Prop := calls s.log = calls t.log

theorem agreeOn_self {β : Type} (r : EStateM.Result Err (St α) β) : AgreeOn SameCalls r r := by
  cases r with
  | ok b s => exact ⟨rfl, rfl⟩
  | error e s => exact ⟨rfl, rfl⟩

/-- Unless `__xdp2_parse` stops at the node limit, the generated parser ends as it does, with the
same code after the same callbacks. -/
def GeneratedEquiv (p : Parser α) (fuel : Nat) (pkt : Packet) (s : St α) : Prop :=
  (∀ s', (walk p fuel p.config.max_nodes.toNat (.init p pkt)).run s ≠ .ok .maxNodes s') →
    ∀ depth, p.config.max_nodes.toNat < depth →
      AgreeOn SameCalls ((xdp2Parse p fuel pkt).run s) ((generatedParse p depth pkt).run s)

/-! ## Where the two differ -/

/-- The loop and the parse function go on alike from the node `n`, whose header has `hlen` bytes.
The protocol number may depend on a key that the callbacks set, so it is taken in any state. -/
structure AlikeAt (n : ParseNode α) (pd : ProtoDef) (hlen : Nat) (c : Cursor) : Prop where
  /-- At a leaf only the generated code enters the encapsulation. -/
  leaf : n.isLeaf → pd.encap = false
  /-- An empty table counts as none when the template is instantiated. -/
  edges : n.proto_table ≠ some []
  /-- The generated code calls `next_proto` without a test. -/
  op : n.proto_table.isSome → pd.ops.next_proto_keyin.isSome ∨ pd.ops.next_proto.isSome
  /-- At an unknown protocol with a wildcard node, the loop asks the table again. -/
  miss : n.wildcard_node.isSome → pd.ops.next_proto.isSome →
    ∀ table, n.proto_table = some table →
      ∀ (s s' : St α) type, (generatedType n pd c.hdr).run s = .ok type s' → 0 ≤ type →
        (lookupNode type table).isSome
  /-- The generated code does not stop at the end of the packet. -/
  zero : ∀ (s s' : St α) next, (nextParseNode n pd c.hdr).run s = .ok (.ok next) s' →
    n.zero_len_ok → (if pd.overlay then c.len else subSize c.len hlen) ≠ 0

/-- The loop and the generated code treat the node under the cursor alike. -/
def StepAlike (p : Parser α) (c : Cursor) : Prop :=
  ∀ id pd hlen, c.parse_node = some id → (p.graph.node id).proto_def = some pd →
    headerLen pd c.hdr c.len = .ok hlen → AlikeAt (p.graph.node id) pd (usize hlen) c

/-- The loop's variables at a call of the parse function of `id`. -/
def ParseArgs.cursor (a : ParseArgs) (id : NodeId) : Cursor :=
  ⟨some id, a.hdr, a.len, a.frame, a.frame_num⟩

@[simp] theorem ParseArgs.cursor_parse_node (a : ParseArgs) (id : NodeId) :
    (a.cursor id).parse_node = some id := rfl

@[simp] theorem ParseArgs.cursor_hdr (a : ParseArgs) (id : NodeId) : (a.cursor id).hdr = a.hdr := rfl

@[simp] theorem ParseArgs.cursor_len (a : ParseArgs) (id : NodeId) : (a.cursor id).len = a.len := rfl

@[simp] theorem ParseArgs.cursor_frame (a : ParseArgs) (id : NodeId) :
    (a.cursor id).frame = a.frame := rfl

@[simp] theorem ParseArgs.cursor_frame_num (a : ParseArgs) (id : NodeId) :
    (a.cursor id).frame_num = a.frame_num := rfl

theorem ParseArgs.init_cursor (p : Parser α) (pkt : Packet) :
    (ParseArgs.init p pkt).cursor p.root_node = .init p pkt := rfl

theorem ParseArgs.cursor_advance (a : ParseArgs) (id target : NodeId) (pd : ProtoDef) (hlen : Nat)
    (fr : Nat × Nat) :
    (a.cursor id).advance pd hlen (some target) fr = (a.advance pd hlen fr).cursor target := rfl

/-- An iteration of the loop ends as a parse function does. -/
inductive Follows : EStateM.Result Err (St α) Visit → EStateM.Result Err (St α) Tail → Prop
  | stop {ret : Int} {frame : Nat} {s : St α} :
      Follows (.ok (.stop ret frame) s) (.ok (.ret ret frame) s)
  | next {id : NodeId} {a : ParseArgs} {s : St α} :
      Follows (.ok (.next (a.cursor id)) s) (.ok (.call id a) s)
  | crash {e : Err} {s t : St α} (h : SameCalls s t) : Follows (.error e s) (.error e t)

theorem Follows.bind {β : Type} {m : ParseM α β} {k : β → ParseM α Visit} {k' : β → ParseM α Tail}
    (h : ∀ b t, Follows ((k b).run t) ((k' b).run t)) :
    Follows ((m >>= k).run s) ((m >>= k').run s) := by
  rw [run_bind, run_bind]
  cases m.run s with
  | error e t => exact .crash rfl
  | ok b t => exact h b t

/-! ## The selection of the next node -/

section
variable {n : ParseNode α} {pd : ProtoDef} {hlen : Nat}

/-- What the switch statement and the wildcard call after it select. -/
def switchNode (n : ParseNode α) (table : List Entry) (type : Int) : Except Int NodeId :=
  ((lookupNode type table).or n.wildcard_node).elim (.error n.unknown_ret.toInt) .ok

theorem tableNode_eq_switch (hpos : 0 ≤ type)
    (hmiss : n.wildcard_node.isSome → pd.ops.next_proto.isSome → (lookupNode type table).isSome) :
    tableNode n pd hdr table type = (switchNode n table type).map some := by
  rw [tableNode, if_neg (by omega), switchNode]
  cases hlook : lookupNode type table with
  | some next => rfl
  | none =>
    rw [hlook] at hmiss
    dsimp only
    rw [wildcardNode]
    cases hw : n.wildcard_node with
    | none => rfl
    | some w =>
      rw [hw] at hmiss
      cases hf : pd.ops.next_proto with
      | none => cases n.proto_table <;> rfl
      | some f => rw [hf] at hmiss; cases hmiss rfl rfl

theorem nextParseNode_table (htab : n.proto_table = some table)
    (hop : pd.ops.next_proto_keyin.isSome ∨ pd.ops.next_proto.isSome) :
    nextParseNode n pd hdr = do
      let type ← generatedType n pd hdr
      return tableNode n pd hdr table type := by
  rw [nextParseNode, generatedType, htab]
  cases hkey : pd.ops.next_proto_keyin with
  | some f => simp
  | none =>
    cases hf : pd.ops.next_proto with
    | some f => rfl
    | none => simp [hkey, hf] at hop

theorem nextParseNode_generated (h : AlikeAt n pd hlen c) (hleaf : n.isLeaf = false) :
    nextParseNode n pd c.hdr = (do
      let r ← generatedNext n pd c.hdr
      return r.map some : ParseM α _) := by
  cases htab : n.proto_table with
  | none =>
    cases hw : n.wildcard_node with
    | none => simp [ParseNode.isLeaf, htab, hw] at hleaf
    | some w => simp [nextParseNode, htab, wildcardNode, hw, generatedNext, ParseNode.outEdges,
        Except.map]
  | some table =>
    have hne : n.outEdges.isEmpty = false := by
      cases table with
      | nil => exact absurd htab h.edges
      | cons e es => rw [ParseNode.outEdges, htab]; rfl
    have hedges : n.outEdges = table := by rw [ParseNode.outEdges, htab]; rfl
    rw [nextParseNode_table htab (h.op (by rw [htab]; rfl)), generatedNext, hne, hedges,
      if_neg (by simp), bind_assoc]
    funext s
    change EStateM.run _ s = EStateM.run _ s
    rw [run_bind, run_bind]
    cases ht : (generatedType n pd c.hdr).run s with
    | error e t => rfl
    | ok type t =>
      dsimp only
      by_cases hneg : type < 0
      · rw [if_pos hneg, tableNode, if_pos hneg]
        rfl
      · rw [if_neg hneg, tableNode_eq_switch (by omega)
          fun hw hf => h.miss hw hf table htab s t type ht (by omega)]
        rfl

end

/-! ## One iteration -/

section
variable {p : Parser α} {fuel : Nat} {id : NodeId} {a : ParseArgs} {s : St α} {pd : ProtoDef}
  {hlen : Nat}

theorem processNode_plain (hplain : p.graph.Plain) (hdr : Hdr) (frame : Nat) :
    processNode p.graph fuel id (p.graph.node id) pd hdr hlen frame = (do
      callExtract (.node id) (p.graph.node id).ops (some hdr) hlen frame
      callHandlerVoid (.node id) .handler (p.graph.node id).ops.handler (some hdr) hlen frame
      return Code.okay) := by
  obtain ⟨htype, hpost⟩ := hplain id
  rw [processNode, parseSub, htype, hpost]
  rfl

theorem generatedTail_follows (h : AlikeAt n pd hlen (a.cursor id)) (hleaf : n.isLeaf = false)
    (fr : Nat × Nat) :
    Follows ((do
        match ← nextParseNode n pd a.hdr with
        | .error ret => return .stop ret fr.1
        | .ok next => foundNext n pd hlen (a.cursor id) next fr : ParseM α Visit).run s)
      ((generatedTail n pd hlen a fr).run s) := by
  have hsel := nextParseNode_generated h hleaf
  rw [ParseArgs.cursor_hdr] at hsel
  rw [generatedTail, run_bind, run_bind]
  cases hgen : (generatedNext n pd a.hdr).run s with
  | error e t => rw [hsel, run_bind_error hgen]; exact .crash rfl
  | ok r t =>
    have hrun : (nextParseNode n pd a.hdr).run s = .ok (r.map some) t := by
      rw [hsel, run_bind_ok hgen, run_pure]
    rw [hrun]
    cases r with
    | error ret => exact .stop
    | ok target =>
      have hgo : ¬ (((a.cursor id).advance pd hlen (some target) fr).len = 0 ∧
          n.zero_len_ok = true) := fun hz => h.zero s t (some target) hrun hz.2 hz.1
      dsimp only [Except.map]
      rw [foundNext, run_bind, run_bind, run_modify]
      simp only [if_neg hgo]
      rw [ParseArgs.cursor_advance]
      exact .next

theorem proceed_generated {n : ParseNode α} (h : AlikeAt n pd hlen (a.cursor id)) :
    Follows ((proceed p id n pd hlen (a.cursor id)).run s)
      ((do
        match ← enterEncap p id pd a.frame a.frame_num with
        | none => return .ret Code.stopEncapDepth a.frame
        | some fr => generatedTail n pd hlen a fr : ParseM α Tail).run s) := by
  rw [proceed]
  cases hleaf : n.isLeaf with
  | true =>
    have hl := hleaf
    simp only [ParseNode.isLeaf, Bool.and_eq_true, Option.isNone_iff_eq_none] at hl
    have hnext : generatedNext n pd a.hdr = pure (.error Code.stopOkay) := by
      rw [generatedNext, ParseNode.outEdges, hl.1, hl.2]
      rfl
    have henc : enterEncap p id pd a.frame a.frame_num = pure (some (a.frame, a.frame_num)) := by
      rw [enterEncap, h.leaf hleaf]
      rfl
    rw [henc, pure_bind]
    dsimp only
    rw [generatedTail, hnext]
    exact .stop
  | false =>
    rw [if_neg (by simp)]
    refine .bind fun fr t => ?_
    cases fr with
    | none => exact .stop
    | some fr => exact generatedTail_follows h hleaf fr

theorem visit_generatedNode (fuel : Nat) (s : St α) (hplain : p.graph.Plain) (h : StepAlike p (a.cursor id)) :
    Follows ((visit p fuel (a.cursor id)).run s) ((generatedNode p id a).run s) := by
  rw [visit, ParseArgs.cursor_parse_node, run_bind_ok (show (deref (some id)).run s = .ok id s from rfl), generatedNode]
  dsimp only
  cases hpd : (p.graph.node id).proto_def with
  | none => exact .crash (by simp [SameCalls, St.atNode])
  | some pd =>
    rw [run_bind_ok (show (deref (some pd)).run s = .ok pd s from rfl), run_bind, run_modify,
      run_bind, run_modify]
    dsimp only
    rw [run_bind_ok (show (deref (some pd)).run (s.atNode id) = .ok pd _ from rfl), checkPktLen]
    simp only [ParseArgs.cursor_hdr, ParseArgs.cursor_len, ParseArgs.cursor_frame]
    cases hhl : headerLen pd a.hdr a.len with
    | error ret => exact .stop
    | ok hl =>
      have hal := h id pd hl rfl hpd hhl
      dsimp only
      rw [processNode_plain hplain]
      simp only [bind_assoc, pure_bind, ne_eq, not_true_eq_false, if_false]
      exact .bind fun _ _ => .bind fun _ _ => proceed_generated hal

/-! ## The walk -/

theorem generated_of_walk (hplain : p.graph.Plain) :
    ∀ {nodes depth : Nat} {id : NodeId} {a : ParseArgs} {s : St α}, nodes < depth →
      (∀ c' s', Reaches p fuel (a.cursor id) s c' s' → StepAlike p c') →
      (∃ ret frame s', (walk p fuel nodes (a.cursor id)).run s = .ok (.out ret frame) s' ∧
        (generatedFrom p depth id a).run s = .ok (ret, frame) s') ∨
      (∃ e s' t', (walk p fuel nodes (a.cursor id)).run s = .error e s' ∧
        (generatedFrom p depth id a).run s = .error e t' ∧ SameCalls s' t') ∨
      ∃ s', (walk p fuel nodes (a.cursor id)).run s = .ok .maxNodes s' := by
  intro nodes
  induction nodes with
  | zero =>
    intro depth id a s hlt hall
    obtain ⟨depth, rfl⟩ : ∃ k, depth = k + 1 := ⟨depth - 1, by omega⟩
    have hstep := visit_generatedNode fuel s hplain (hall _ s (.refl _ s))
    rw [walk, run_bind, generatedFrom, run_bind]
    generalize (visit p fuel (a.cursor id)).run s = r at hstep ⊢
    generalize (generatedNode p id a).run s = r' at hstep ⊢
    cases hstep with
    | stop => exact .inl ⟨_, _, _, rfl, rfl⟩
    | next => exact .inr (.inr ⟨_, rfl⟩)
    | crash h => exact .inr (.inl ⟨_, _, _, rfl, rfl, h⟩)
  | succ nodes ih =>
    intro depth id a s hlt hall
    obtain ⟨depth, rfl⟩ : ∃ k, depth = k + 1 := ⟨depth - 1, by omega⟩
    have hstep := visit_generatedNode fuel s hplain (hall _ s (.refl _ s))
    rw [walk, run_bind, generatedFrom, run_bind]
    cases hv : (visit p fuel (a.cursor id)).run s with
    | error e s' =>
      rw [hv] at hstep
      generalize (generatedNode p id a).run s = r' at hstep ⊢
      cases hstep with
      | crash h => exact .inr (.inl ⟨_, _, _, rfl, rfl, h⟩)
    | ok v s' =>
      rw [hv] at hstep
      generalize (generatedNode p id a).run s = r' at hstep ⊢
      cases hstep with
      | stop => exact .inl ⟨_, _, _, rfl, rfl⟩
      | next => exact ih (by omega) fun c' s' hr => hall c' s' (.step hv hr)

end

/-- A node whose table leads to node 1. -/
def tableRoot : ParseNode Unit where
  proto_def := some { min_len := 0, ops := { next_proto := some fun _ => 5 } }
  ops := { handler := some fun _ m => (Code.okay, m) }
  proto_table := some [⟨5, some 1⟩]

/-- A parser that goes from the node `root` to a leaf with a handler. -/
def rootParser (root : ParseNode Unit) (max_encaps : UInt16) : Parser Unit where
  config := { max_nodes := 4, max_encaps := max_encaps, max_frames := 1 }
  root_node := 0
  graph := ⟨fun id => if id = 0 then root else handledNode, fun _ => {}, fun _ => {}, fun _ => {}⟩

theorem tableRoot_stepAlike (c : Cursor) : StepAlike (rootParser tableRoot 4) c := by
  intro id pd hlen _ hpd _
  change (if id = 0 then tableRoot else handledNode).proto_def = some pd at hpd
  change AlikeAt (if id = 0 then tableRoot else handledNode) pd _ c
  rcases eq_or_ne id 0 with h0 | h0
  · rw [if_pos h0] at hpd ⊢
    cases hpd
    exact
      { leaf := fun h => by cases h
        edges := fun h => by cases h
        op := fun _ => .inr rfl
        miss := fun h => by cases h
        zero := fun _ _ _ _ h => by cases h }
  · rw [if_neg h0] at hpd ⊢
    cases hpd
    exact
      { leaf := fun _ => rfl
        edges := fun h => by cases h
        op := fun h => by cases h
        miss := fun h => by cases h
        zero := fun _ _ _ _ h => by cases h }

theorem rootParser_plain (htype : root.node_type = .plain) (hpost : root.ops.post_handler = none) :
    (rootParser root max_encaps).graph.Plain := by
  intro id
  change (if id = 0 then root else handledNode).node_type = _ ∧
    (if id = 0 then root else handledNode).ops.post_handler = _
  split
  · exact ⟨htype, hpost⟩
  · exact ⟨rfl, rfl⟩

/-- A leaf whose protocol is an encapsulation. -/
def encapLeaf : ParseNode Unit where
  proto_def := some { emptyProto with encap := true }

/-- A node at which the parse may end with the packet. -/
def zeroLenRoot : ParseNode Unit where
  zero_len_ok := true
  proto_def := some emptyProto
  wildcard_node := some 1

end Xdp2
