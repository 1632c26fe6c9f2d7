import Xdp2.Parser.VisitSpec

/-!
# The selection of the next node

The protocol number of the header selects a node of the table, the wildcard node stands in for what
the table does not have, and a node without one stops the parse with its own code
(`ParseNode.chosen`). If there is a `next_proto` operation the loop asks the table again after it
has taken the wildcard node, which is then replaced by null (`ParseNode.Misled`): the only deviation
(`nextParseNode_iff`).
-/

namespace Xdp2

open StateError

variable {α : Type}

/-- The protocol number that a header gives to look up in the node's table, if there is one. -/
def ParseNode.nextType (n : ParseNode α) (pd : ProtoDef) (hdr : Hdr) (keys : List UInt32) :
    Option Int :=
  if n.proto_table.isNone then none
  else match pd.ops.next_proto_keyin, pd.ops.next_proto with
    | some f, _ => some (f hdr (keys.getD n.key_sel.toNat 0))
    | none, some f => some (f hdr)
    | none, none => none

/-- The node that the table has for the header. -/
def ParseNode.tableEntry (n : ParseNode α) (pd : ProtoDef) (hdr : Hdr) (keys : List UInt32) :
    Option NodeId :=
  (n.nextType pd hdr keys).bind fun type => n.proto_table.bind (lookupNode type)

/-- The node to be parsed next, or the code to stop with: the table's, else the wildcard node, else
the code for unknown protocols. -/
def ParseNode.chosen (n : ParseNode α) (pd : ProtoDef) (hdr : Hdr) (keys : List UInt32) :
    Except Int NodeId :=
  match (n.tableEntry pd hdr keys).or n.wildcard_node with
  | some id => .ok id
  | none => .error n.unknown_ret.toInt

/-- The wildcard node is taken and then given up for the answer of a second look-up. -/
def ParseNode.Misled (n : ParseNode α) (pd : ProtoDef) (hdr : Hdr) (keys : List UInt32) : Prop :=
  n.tableEntry pd hdr keys = none ∧ ∃ table w f, n.proto_table = some table ∧
    n.wildcard_node = some w ∧ pd.ops.next_proto = some f ∧
    ¬ (0 ≤ f hdr ∧ lookupNode (f hdr) table = some w)

section
variable {n : ParseNode α} {pd : ProtoDef}

theorem wildcardNode_iff (h : n.tableEntry pd hdr keys = none) :
    wildcardNode n pd hdr = (n.chosen pd hdr keys).map some ↔ ¬ n.Misled pd hdr keys := by
  have hmisled : n.Misled pd hdr keys ↔ ∃ table w f, n.proto_table = some table ∧
      n.wildcard_node = some w ∧ pd.ops.next_proto = some f ∧
      ¬ (0 ≤ f hdr ∧ lookupNode (f hdr) table = some w) := and_iff_right h
  rw [hmisled, ParseNode.chosen, h, Option.none_or, wildcardNode]
  cases hw : n.wildcard_node with
  | none => exact iff_of_true rfl fun ⟨_, _, _, _, hw', _⟩ => by cases hw'
  | some w =>
    cases htab : n.proto_table with
    | none => exact iff_of_true rfl fun ⟨_, _, _, htab', _⟩ => by cases htab'
    | some table =>
      cases hf : pd.ops.next_proto with
      | none => exact iff_of_true rfl fun ⟨_, _, _, _, _, hf', _⟩ => by cases hf'
      | some f =>
        have hright : (∃ table' w' f', some table = some table' ∧ some w = some w' ∧
            some f = some f' ∧ ¬ (0 ≤ f' hdr ∧ lookupNode (f' hdr) table' = some w')) ↔
            ¬ (0 ≤ f hdr ∧ lookupNode (f hdr) table = some w) := by simp
        rw [hright, not_not]
        dsimp only
        split
        · rename_i hneg
          exact iff_of_false (fun h => by cases h) fun h => by omega
        · rename_i hpos
          rw [Except.map]
          simp only [Except.ok.injEq]
          exact (and_iff_right (by omega)).symm

theorem tableNode_iff (htab : n.proto_table = some table)
    (htype : n.nextType pd hdr keys = some type) (hpos : 0 ≤ type) :
    tableNode n pd hdr table type = (n.chosen pd hdr keys).map some ↔ ¬ n.Misled pd hdr keys := by
  have hentry : n.tableEntry pd hdr keys = lookupNode type table := by
    rw [ParseNode.tableEntry, htype, htab]
    rfl
  rw [tableNode, if_neg (by omega)]
  cases hlook : lookupNode type table with
  | none => exact wildcardNode_iff (hentry.trans hlook)
  | some next =>
    rw [hlook] at hentry
    refine iff_of_true ?_ fun h => by rw [h.1] at hentry; cases hentry
    rw [ParseNode.chosen, hentry]
    rfl

theorem nextParseNode_iff (hneg : ∀ type, n.nextType pd hdr s.mem.keys = some type → 0 ≤ type)
    (hkey : pd.ops.next_proto_keyin.isSome → n.key_sel.toNat < s.mem.keys.length) :
    (nextParseNode n pd hdr).run s = .ok ((n.chosen pd hdr s.mem.keys).map some) s ↔
      ¬ n.Misled pd hdr s.mem.keys := by
  have hread : pd.ops.next_proto_keyin.isSome →
      (readKey n.key_sel).run s = .ok (s.mem.keys.getD n.key_sel.toNat 0) s := by
    intro hkeyin
    rw [readKey, run_bind, run_get]
    simp only [List.getElem?_eq_getElem (hkey hkeyin), deref, List.getD_eq_getElem?_getD, Option.getD_some]
    rfl
  have hok : ∀ r r' : Except Int (Option NodeId),
      (EStateM.Result.ok r s : EStateM.Result Err (St α) _) = .ok r' s ↔ r = r' := by
    intro r r'
    rw [EStateM.Result.ok.injEq]
    exact and_iff_left rfl
  cases htab : n.proto_table with
  | none =>
    have hentry : n.tableEntry pd hdr s.mem.keys = none := by
      rw [ParseNode.tableEntry, htab]
      cases n.nextType pd hdr s.mem.keys <;> rfl
    rw [nextParseNode, htab, run_pure, hok]
    exact wildcardNode_iff hentry
  | some table =>
    have htype : n.nextType pd hdr s.mem.keys =
        match pd.ops.next_proto_keyin, pd.ops.next_proto with
        | some f, _ => some (f hdr (s.mem.keys.getD n.key_sel.toNat 0))
        | none, some f => some (f hdr)
        | none, none => none := by
      rw [ParseNode.nextType, htab]
      rfl
    cases hkeyin : pd.ops.next_proto_keyin with
    | some f =>
      rw [hkeyin] at htype
      rw [nextParseNode, htab, hkeyin]
      dsimp only
      rw [run_bind_ok (hread (by rw [hkeyin]; rfl)), run_pure, hok]
      exact tableNode_iff htab htype (hneg _ htype)
    | none =>
      cases hproto : pd.ops.next_proto with
      | some f =>
        rw [hkeyin, hproto] at htype
        rw [nextParseNode, htab, hkeyin, hproto]
        dsimp only
        rw [run_pure, hok]
        exact tableNode_iff htab htype (hneg _ htype)
      | none =>
        rw [hkeyin, hproto] at htype
        rw [nextParseNode, htab, hkeyin, hproto]
        dsimp only
        rw [run_pure, hok]
        refine wildcardNode_iff ?_
        rw [ParseNode.tableEntry, htype]
        rfl

theorem proceed_chosen {id : NodeId} {hlen : Nat} {c : Cursor} {s1 s2 : St α} {fr : Nat × Nat}
    {r : Except Int NodeId} (hleaf : n.isLeaf = false)
    (henter : (enterEncap p id pd c.frame c.frame_num).run s1 = .ok (some fr) s2)
    (hnext : (nextParseNode n pd c.hdr).run s2 = .ok (r.map some) s2) :
    (∀ next, r = .ok next →
      (proceed p id n pd hlen c).run s1 = (foundNext n pd hlen c (some next) fr).run s2) ∧
    ∀ ret, r = .error ret → (proceed p id n pd hlen c).run s1 = .ok (.stop ret fr.1) s2 := by
  rw [proceed, hleaf, if_neg Bool.false_ne_true, run_bind_ok henter]
  dsimp only
  rw [run_bind_ok hnext]
  constructor
  · rintro next rfl
    rfl
  · rintro ret rfl
    rfl

end

/-- **The next node is the table's, else the wildcard node, else there is a stop with the node's
code, if and only if the second look-up does not interfere.** Where it does not, a visit goes on
with a node, and never with a null pointer. -/
theorem next_node_selection (p : Parser α) (id : NodeId) (n : ParseNode α) (pd : ProtoDef)
    (hlen : Nat) (c : Cursor) (s1 s2 : St α) (fr : Nat × Nat) (hleaf : n.isLeaf = false)
    (henter : (enterEncap p id pd c.frame c.frame_num).run s1 = .ok (some fr) s2)
    (hneg : ∀ type, n.nextType pd c.hdr s2.mem.keys = some type → 0 ≤ type)
    (hkey : pd.ops.next_proto_keyin.isSome → n.key_sel.toNat < s2.mem.keys.length) :
    ((nextParseNode n pd c.hdr).run s2 = .ok ((n.chosen pd c.hdr s2.mem.keys).map some) s2 ↔
      ¬ n.Misled pd c.hdr s2.mem.keys) ∧
    (¬ n.Misled pd c.hdr s2.mem.keys →
      (∀ next, n.chosen pd c.hdr s2.mem.keys = .ok next →
        (proceed p id n pd hlen c).run s1 = (foundNext n pd hlen c (some next) fr).run s2) ∧
      ∀ ret, n.chosen pd c.hdr s2.mem.keys = .error ret →
        (proceed p id n pd hlen c).run s1 = .ok (.stop ret fr.1) s2) :=
  ⟨nextParseNode_iff hneg hkey, fun h =>
    proceed_chosen hleaf henter ((nextParseNode_iff hneg hkey).mpr h)⟩

/-- A node with a table for the protocol number 1 and a wildcard node. -/
def wildcardExample : Parser Unit where
  config := { max_nodes := 8, max_encaps := 4, max_frames := 1 }
  root_node := 0
  graph := {
    node := fun id =>
      if id = 0 then
        { proto_def := some { min_len := 1, ops := { next_proto := some fun hdr => hdr.byte.toNat } }
          proto_table := some [⟨1, some 1⟩]
          wildcard_node := some 2 }
      else { proto_def := some { min_len := 1 } }
    tlv := fun _ => {}
    flagField := fun _ => {}
    arrel := fun _ => {} }

/-- Its table is used for a header with the protocol number 1. -/
theorem next_node_selection_example :
    let n := wildcardExample.graph.node 0
    let pd : ProtoDef := { min_len := 1, ops := { next_proto := some fun hdr => hdr.byte.toNat } }
    let c : Cursor := ⟨some 0, ⟨fun _ => 1, 0⟩, 4, 0, 0⟩
    let s : St Unit := .init ⟨[], [], [], ()⟩
    (proceed wildcardExample 0 n pd 1 c).run s =
      (foundNext n pd 1 c (some 1) (c.frame, c.frame_num)).run s := by
  intro n pd c s
  have h := next_node_selection wildcardExample 0 n pd 1 c s s (c.frame, c.frame_num) rfl rfl
    (fun type htype => by cases htype; decide) (fun hkeyin => by cases hkeyin)
  exact (h.2 (fun hmisled => by cases hmisled.1)).1 1 rfl

/-- A header with another protocol number ends in the use of a null pointer. -/
theorem wildcard_parse_faults :
    ∃ s, (xdp2Parse wildcardExample 4 ⟨fun _ => 7, 4, by decide⟩).run (.init ⟨[], [], [], ()⟩) =
      .error .fault s :=
  ⟨_, rfl⟩

end Xdp2
