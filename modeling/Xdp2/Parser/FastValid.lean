import Xdp2.Parser.Fast

/-!
# What the fast parser's validator guarantees

`validate_parse_fast_node` searches depth first over the protocol tables, with the nodes seen in an
array of 64 entries. A search that succeeds has seen and tested every node reachable over the tables
(`validate_closed`), and it ends (`validate_depth`). `__xdp2_parse_fast` also goes to wildcard
nodes, which the search does not follow, and the tests let array nodes pass, which it does not parse
(`validate_fast_iff`).
-/

namespace Xdp2

open StateError

variable {α : Type}

/-- What the fast loop needs of a node: a protocol definition, nothing that it does not run, and a
type that it processes and that is the definition's too. -/
structure FastReady (n : ParseNode α) : Prop where
  proto_def : ∃ pd, n.proto_def = some pd ∧ pd.ops.next_proto_keyin = none ∧
    (∀ tn, n.node_type = .tlvs tn → ∃ d, pd.node_type = .tlvs d) ∧
    ∀ fn, n.node_type = .flagFields fn → ∃ d, pd.node_type = .flagFields d
  post_handler : n.ops.post_handler = none
  not_array : ∀ an, n.node_type ≠ .array an

/-- A node has another one in its protocol table. -/
def TableEdge (g : Graph α) (a b : NodeId) : Prop :=
  ∃ table, (g.node a).proto_table = some table ∧ ∃ e ∈ table, e.node = some b

/-- The fast loop can go from a node to another one. -/
def FastEdge (g : Graph α) (a b : NodeId) : Prop :=
  TableEdge g a b ∨ (g.node a).wildcard_node = some b

/-- The nodes behind a node over protocol tables. -/
abbrev TableReach (g : Graph α) : NodeId → NodeId → Prop := Relation.ReflTransGen (TableEdge g)

/-- The nodes behind a node over protocol tables and wildcard nodes. -/
abbrev FastReach (g : Graph α) : NodeId → NodeId → Prop := Relation.ReflTransGen (FastEdge g)

/-- The fast loop comes to a cursor. -/
inductive FastVisits (p : Parser α) (fuel : Nat) (c : Cursor) (s : St α) : Cursor → St α → Prop where
  | zero : FastVisits p fuel c s c s
  | succ {c1 c2 : Cursor} {s1 s2 : St α} (h : FastVisits p fuel c s c1 s1)
      (hnext : (fastVisit p fuel c1).run s1 = .ok (.next c2) s2) : FastVisits p fuel c s c2 s2

/-! ## The tests of a node -/

theorem fastReady_iff (n : ParseNode α) :
    FastReady n ↔ fastNodeOk n = true ∧ ∀ an, n.node_type ≠ .array an := by
  rw [fastNodeOk, Bool.and_eq_true, Option.isNone_iff_eq_none]
  constructor
  · rintro ⟨⟨pd, hpd, hkey, htlvs, hflags⟩, hpost, harray⟩
    refine ⟨⟨hpost, ?_⟩, harray⟩
    rw [hpd]
    dsimp only
    rw [Bool.and_eq_true, Option.isNone_iff_eq_none]
    refine ⟨hkey, ?_⟩
    cases htype : n.node_type with
    | plain => rfl
    | array an => exact absurd htype (harray an)
    | tlvs tn =>
      obtain ⟨d, hd⟩ := htlvs tn htype
      rw [hd]
    | flagFields fn =>
      obtain ⟨d, hd⟩ := hflags fn htype
      rw [hd]
  · rintro ⟨⟨hpost, hdef⟩, harray⟩
    cases hpd : n.proto_def with
    | none =>
      rw [hpd] at hdef
      cases hdef
    | some pd =>
      rw [hpd] at hdef
      dsimp only at hdef
      rw [Bool.and_eq_true, Option.isNone_iff_eq_none] at hdef
      obtain ⟨hkey, htype⟩ := hdef
      refine ⟨⟨pd, hpd, hkey, fun tn htlvs => ?_, fun fn hflags => ?_⟩, hpost, harray⟩
      · rw [htlvs] at htype
        cases hd : pd.node_type with
        | tlvs d => exact ⟨d, rfl⟩
        | plain => rw [hd] at htype; cases htype
        | flagFields d => rw [hd] at htype; cases htype
        | array d => rw [hd] at htype; cases htype
      · rw [hflags] at htype
        cases hd : pd.node_type with
        | flagFields d => exact ⟨d, rfl⟩
        | plain => rw [hd] at htype; cases htype
        | tlvs d => rw [hd] at htype; cases htype
        | array d => rw [hd] at htype; cases htype

/-! ## The search -/

/-- A search that succeeds has only added to the nodes it knows, and what it has added is closed. -/
structure Searched (g : Graph α) (seen seen' : List NodeId) : Prop where
  subset : seen ⊆ seen'
  ok : ∀ a ∈ seen', a ∉ seen → fastNodeOk (g.node a) = true
  closed : ∀ a ∈ seen', a ∉ seen → ∀ b, TableEdge g a b → b ∈ seen'

namespace Searched

theorem refl (seen : List NodeId) : Searched g seen seen :=
  ⟨List.Subset.refl _, fun _ h hn => absurd h hn, fun _ h hn => absurd h hn⟩

theorem trans (h1 : Searched g seen seen1) (h2 : Searched g seen1 seen2) : Searched g seen seen2 := by
  refine ⟨List.Subset.trans h1.subset h2.subset, fun a ha hn => ?_, fun a ha hn b hedge => ?_⟩
  · by_cases ha1 : a ∈ seen1
    · exact h1.ok a ha1 hn
    · exact h2.ok a ha ha1
  · by_cases ha1 : a ∈ seen1
    · exact h2.subset (h1.closed a ha1 hn b hedge)
    · exact h2.closed a ha ha1 b hedge

theorem node {id : NodeId} (hok : fastNodeOk (g.node id) = true)
    (hedges : ∀ b, TableEdge g id b → b ∈ seen1) (h : Searched g (seen ++ [id]) seen1) :
    Searched g seen seen1 := by
  have hsplit : ∀ {a}, a ∉ seen → a ≠ id → a ∉ seen ++ [id] := fun hn hne hmem =>
    (List.mem_append.mp hmem).elim hn fun h => hne (List.mem_singleton.mp h)
  refine ⟨fun a ha => h.subset (List.mem_append_left _ ha), fun a ha hn => ?_, fun a ha hn => ?_⟩
  · by_cases hid : a = id
    · rwa [hid]
    · exact h.ok a ha (hsplit hn hid)
  · by_cases hid : a = id
    · rwa [hid]
    · exact h.closed a ha (hsplit hn hid)

end Searched

theorem validateEntries_searched
    (hcall : ∀ {seen id seen'}, validate seen id = (true, seen') → Searched g seen seen' ∧ id ∈ seen')
    (h : validateEntries validate entries seen = (true, seen')) :
    Searched g seen seen' ∧ ∀ e ∈ entries, ∀ id, e.node = some id → id ∈ seen' := by
  induction entries generalizing seen with
  | nil =>
    cases h
    exact ⟨.refl _, List.forall_mem_nil _⟩
  | cons e entries ih =>
    rw [validateEntries] at h
    cases hnode : e.node with
    | none =>
      rw [hnode] at h
      obtain ⟨hsearched, hmem⟩ := ih h
      refine ⟨hsearched, List.forall_mem_cons.mpr ⟨fun id hid => ?_, hmem⟩⟩
      rw [hnode] at hid
      cases hid
    | some id =>
      rw [hnode] at h
      dsimp only at h
      rcases hval : validate seen id with ⟨ok, seen1⟩
      rw [hval] at h
      cases ok with
      | false => cases h
      | true =>
        obtain ⟨hfirst, hid⟩ := hcall hval
        obtain ⟨hrest, hmem⟩ := ih h
        refine ⟨hfirst.trans hrest, List.forall_mem_cons.mpr ⟨fun id' hid' => ?_, hmem⟩⟩
        rw [hnode] at hid'
        cases hid'
        exact hrest.subset hid

theorem validate_searched {depth : Nat} {seen seen' : List NodeId} {id : NodeId}
    (h : validateParseFastNode g depth seen id = (true, seen')) :
    Searched g seen seen' ∧ id ∈ seen' := by
  induction depth generalizing seen id seen' with
  | zero => cases h
  | succ depth ih =>
    rw [validateParseFastNode] at h
    have hself : id ∈ seen ++ [id] := List.mem_append_right _ (List.mem_singleton_self id)
    split_ifs at h with hmem hfull hok
    · cases h
      exact ⟨.refl _, hmem⟩
    · cases h
    · cases htable : (g.node id).proto_table with
      | none =>
        rw [htable] at h
        cases h
        refine ⟨.node hok (fun b hedge => ?_) (.refl _), hself⟩
        obtain ⟨table, htable', -⟩ := hedge
        rw [htable] at htable'
        cases htable'
      | some entries =>
        rw [htable] at h
        obtain ⟨hsearched, hentries⟩ := validateEntries_searched ih h
        refine ⟨.node hok (fun b hedge => ?_) hsearched, hsearched.subset hself⟩
        obtain ⟨table, htable', e, he, hb⟩ := hedge
        rw [htable] at htable'
        cases htable'
        exact hentries e he b hb
    · cases h

/-- **A search that succeeds has tested every node reachable over the tables.** -/
theorem validate_closed {depth : Nat} {root : NodeId}
    (h : (validateParseFastNode g depth [] root).1 = true) {id : NodeId}
    (hreach : TableReach g root id) : fastNodeOk (g.node id) = true := by
  obtain ⟨hsearched, hroot⟩ := validate_searched (Prod.ext h rfl)
  have hseen : id ∈ (validateParseFastNode g depth [] root).2 := by
    induction hreach with
    | refl => exact hroot
    | tail _ hedge ih => exact hsearched.closed _ ih List.not_mem_nil _ hedge
  exact hsearched.ok id hseen List.not_mem_nil

/-! ## The end of the search -/

/-- The loop over the entries only adds to the nodes seen, and depends on the calls with at least as
many nodes seen only. -/
theorem validateEntries_congr (hgrow : ∀ seen id, seen.length ≤ (validate seen id).2.length)
    (hsame : ∀ seen id, n ≤ seen.length → validate seen id = validate' seen id)
    (hn : n ≤ seen.length) :
    validateEntries validate entries seen = validateEntries validate' entries seen := by
  induction entries generalizing seen with
  | nil => rfl
  | cons e entries ih =>
    rw [validateEntries, validateEntries]
    cases e.node with
    | none => exact ih hn
    | some id =>
      have hlen := hgrow seen id
      dsimp only
      rw [← hsame seen id hn]
      generalize validate seen id = r at hlen ⊢
      obtain ⟨ok, seen1⟩ := r
      cases ok with
      | false => rfl
      | true => exact ih (hn.trans hlen)

theorem validateEntries_length (hgrow : ∀ seen id, seen.length ≤ (validate seen id).2.length)
    (entries : List Entry) (seen : List NodeId) :
    seen.length ≤ (validateEntries validate entries seen).2.length := by
  induction entries generalizing seen with
  | nil => exact le_rfl
  | cons e entries ih =>
    rw [validateEntries]
    cases e.node with
    | none => exact ih seen
    | some id =>
      have hlen := hgrow seen id
      dsimp only
      generalize validate seen id = r at hlen ⊢
      obtain ⟨ok, seen1⟩ := r
      cases ok with
      | false => exact hlen
      | true => exact hlen.trans (ih seen1)

theorem validate_length (g : Graph α) (depth : Nat) (seen : List NodeId) (id : NodeId) :
    seen.length ≤ (validateParseFastNode g depth seen id).2.length := by
  induction depth generalizing seen id with
  | zero => exact le_rfl
  | succ depth ih =>
    have happ : seen.length ≤ (seen ++ [id]).length := by
      rw [List.length_append]
      exact Nat.le_add_right _ _
    rw [validateParseFastNode]
    split_ifs
    · exact le_rfl
    · exact le_rfl
    · cases (g.node id).proto_table with
      | none => exact happ
      | some entries => exact happ.trans (validateEntries_length ih entries _)
    · exact happ

/-- **The search ends**: with a depth for each free entry of the array and one more, it does not
depend on the depth. -/
theorem validate_depth (g : Graph α) (id : NodeId) (h : numFastNodes + 1 ≤ depth + seen.length)
    (hpos : 0 < depth) (h' : numFastNodes + 1 ≤ depth' + seen.length) (hpos' : 0 < depth') :
    validateParseFastNode g depth seen id = validateParseFastNode g depth' seen id := by
  induction depth generalizing seen id depth' with
  | zero => exact absurd hpos (lt_irrefl 0)
  | succ depth ih =>
    obtain ⟨depth', rfl⟩ : ∃ d, depth' = d + 1 := ⟨depth' - 1, by omega⟩
    rw [validateParseFastNode, validateParseFastNode]
    split_ifs with hmem hfull hok
    · rfl
    · rfl
    · cases (g.node id).proto_table with
      | none => rfl
      | some entries =>
        -- every nested call has the node itself among those seen
        refine validateEntries_congr (validate_length g depth)
          (fun seen1 id1 (hlen : seen.length + 1 ≤ seen1.length) => ?_) ?_
        · exact ih id1 (by omega) (by omega) (by omega) (by omega)
        · rw [List.length_append, List.length_singleton]
    · rfl

/-! ## The nodes of the fast loop -/

theorem fastNext_edge {pd : ProtoDef} {hdr : Hdr} {s s' : St α} {id next : NodeId}
    (h : (fastNext (g.node id) pd hdr).run s = .ok (.ok next) s') : FastEdge g id next := by
  rw [fastNext] at h
  cases htable : (g.node id).proto_table with
  | none =>
    rw [htable] at h
    cases hw : (g.node id).wildcard_node with
    | none => rw [hw] at h; cases h
    | some w =>
      rw [hw] at h
      cases h
      exact .inr hw
  | some table =>
    rw [htable] at h
    cases hop : pd.ops.next_proto with
    | none => rw [hop] at h; cases h
    | some f =>
      rw [hop] at h
      dsimp only at h
      rw [run_bind_ok (show (deref (some f) : ParseM α _).run s = .ok f s from rfl)] at h
      split at h
      · cases h
      · cases hnext : (lookupNode (f hdr) table).or (g.node id).wildcard_node with
        | none => rw [hnext] at h; cases h
        | some next' =>
          rw [hnext] at h
          cases h
          rcases lookup_or_mem hnext with hmem | hw
          · exact .inl ⟨table, htable, hmem⟩
          · exact .inr hw

theorem fastVisit_edge {fuel : Nat} {c c' : Cursor} {s s' : St α}
    (h : (fastVisit p fuel c).run s = .ok (.next c') s') :
    ∃ id next, c.parse_node = some id ∧ c'.parse_node = some next ∧ FastEdge p.graph id next := by
  rw [fastVisit] at h
  obtain ⟨id, s1, hid, hdef⟩ := run_bind_eq_ok h
  obtain ⟨pd, s2, -, hvisit⟩ := run_bind_eq_ok hdef
  have hnode : c.parse_node = some id := by
    cases hnode : c.parse_node with
    | none => rw [hnode] at hid; cases hid
    | some id' =>
      rw [hnode] at hid
      cases hid
      rfl
  cases hlen : fastHeaderLen pd c.hdr c.len with
  | error ret => rw [hlen] at hvisit; cases hvisit
  | ok hlen' =>
    rw [hlen] at hvisit
    obtain ⟨ret, s3, -, hgo⟩ := run_bind_eq_ok hvisit
    split at hgo
    · cases hgo
    · rw [fastProceed] at hgo
      obtain ⟨fr, s4, -, hencap⟩ := run_bind_eq_ok hgo
      cases fr with
      | none => cases hencap
      | some fr =>
        obtain ⟨r, s₅, hnext, hmove⟩ := run_bind_eq_ok hencap
        cases r with
        | error ret => cases hmove
        | ok next =>
          cases hmove
          exact ⟨id, next, hnode, rfl, fastNext_edge hnext⟩

theorem FastVisits.reach (h : FastVisits p fuel (.init p pkt) s0 c s) :
    ∃ id, c.parse_node = some id ∧ FastReach p.graph p.root_node id := by
  induction h with
  | zero => exact ⟨p.root_node, rfl, .refl⟩
  | succ _ hnext ih =>
    obtain ⟨id, hid, hreach⟩ := ih
    obtain ⟨id', next, hid', hnode, hedge⟩ := fastVisit_edge hnext
    rw [hid] at hid'
    cases hid'
    exact ⟨next, hnode, hreach.tail hedge⟩

/-- **What `xdp2_parse_validate_fast` guarantees.** Its search ends. The nodes that the fast loop
visits are among those reachable over tables and wildcard nodes. And where the validator agrees, all
of these are as the loop needs them exactly if none is an array node and those not reachable over
tables alone pass the tests too. -/
theorem validate_fast_iff (p : Parser α) :
    (∀ depth, numFastNodes + 1 ≤ depth → validateParseFastNode p.graph depth [] p.root_node =
      validateParseFastNode p.graph (numFastNodes + 1) [] p.root_node) ∧
    (∀ fuel pkt c (s0 s : St α), FastVisits p fuel (.init p pkt) s0 c s →
      ∃ id, c.parse_node = some id ∧ FastReach p.graph p.root_node id) ∧
    (xdp2ParseValidateFast p = true →
      ((∀ id, FastReach p.graph p.root_node id → FastReady (p.graph.node id)) ↔
        ∀ id, FastReach p.graph p.root_node id →
          (∀ an, (p.graph.node id).node_type ≠ .array an) ∧
          (¬ TableReach p.graph p.root_node id → fastNodeOk (p.graph.node id) = true))) := by
  refine ⟨fun depth hdepth => ?_, fun fuel pkt c s0 s h => h.reach, fun hvalid => ?_⟩
  · exact validate_depth p.graph p.root_node hdepth (by omega) le_rfl (Nat.succ_pos _)
  · have hsearch : (validateParseFastNode p.graph (numFastNodes + 1) [] p.root_node).1 = true := by
      rw [xdp2ParseValidateFast, Bool.and_eq_true] at hvalid
      exact hvalid.2
    refine forall_congr' fun id => imp_congr_right fun _ => ?_
    rw [fastReady_iff]
    constructor
    · rintro ⟨hok, harray⟩
      exact ⟨harray, fun _ => hok⟩
    · rintro ⟨harray, hok⟩
      refine ⟨?_, harray⟩
      by_cases htable : TableReach p.graph p.root_node id
      · exact validate_closed hsearch htable
      · exact hok htable

/-- A root node with a wildcard node behind it, which has the given operations. -/
def wildcardParser (post_handler : Option (Handler Unit)) : Parser Unit where
  config := { max_nodes := 4, max_encaps := 4, max_frames := 1 }
  root_node := 0
  graph :=
    { node := fun id =>
        if id = 0 then { proto_def := some { min_len := 0 }, wildcard_node := some 1 }
        else { proto_def := some { min_len := 0 }, ops := { post_handler := post_handler } }
      tlv := fun _ => {}
      flagField := fun _ => {}
      arrel := fun _ => {} }

/-- Without a post handler, every node is as the fast loop needs it. -/
theorem validate_fast_iff_wildcard :
    xdp2ParseValidateFast (wildcardParser none) = true ∧
      ∀ id, FastReach (wildcardParser none).graph 0 id →
        FastReady ((wildcardParser none).graph.node id) := by
  refine ⟨by decide, ((validate_fast_iff (wildcardParser none)).2.2 (by decide)).mpr ?_⟩
  intro id _
  by_cases hid : id = 0
  · subst hid
    exact ⟨(fun an h => by cases h), fun _ => rfl⟩
  · constructor
    · intro an h
      simp [wildcardParser, hid] at h
    · intro _
      simp [wildcardParser, hid, fastNodeOk]

/-- The validator agrees, and the fast loop comes to a node with a post handler, which it does not
run. -/
theorem validate_fast_wildcard :
    let p := wildcardParser (some fun _ mem => (Code.okay, mem))
    xdp2ParseValidateFast p = true ∧ FastReach p.graph p.root_node 1 ∧
      ¬ FastReady (p.graph.node 1) := by
  refine ⟨by decide, .single (.inr rfl), fun h => ?_⟩
  cases h.post_handler

end Xdp2
