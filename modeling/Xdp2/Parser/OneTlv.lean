import Xdp2.Parser.SubSpec

/-!
# Overlay nodes of a TLV

`OneTlv` is what parsing one TLV is meant to be: each node visited, by type or as an overlay, is
held against its own protocol definition. `xdp2_parse_one_tlv` reads the definition once and keeps
it for the other nodes: a TLV too short for the first node stays too short for the wildcard node,
and the function does not end. Otherwise it does, as intended if the other definitions ask for
nothing else (`oneTlv_runs`).
-/

namespace Xdp2

open StateError

variable {α : Type}

/-- The type of a node's overlay by the node's own definition, or the length of the TLV. -/
def Graph.overlayKey (g : Graph α) (id : TlvId) (hdr : Hdr) (tlv_len : Nat) : Int :=
  ((g.tlv id).proto_tlv_def.map fun d => d.overlayType hdr tlv_len).getD (cint tlv_len)

/-- The callbacks of a TLV node. -/
def tlvCallbacks (g : Graph α) (id : TlvId) (hdr : Hdr) (tlv_len frame : Nat) : ParseM α Int := do
  callExtract (.tlv id) (g.tlv id).tlv_ops (some hdr) tlv_len frame
  callHandler (.tlv id) .handler (g.tlv id).tlv_ops.handler (some hdr) tlv_len frame

/-- One TLV is parsed from a node on, with a code and a state at the end. -/
inductive OneTlv (g : Graph α) (tn : ParseTlvsNode) (hdr : Hdr) (tlv_len frame : Nat) :
    TlvId → St α → Int → St α → Prop where
  /-- The TLV is too short for the node, and there is no other one. -/
  | short {id : TlvId} {s : St α} (hshort : tlvTooShort (g.tlv id).proto_tlv_def tlv_len = true)
      (hw : tn.tlv_wildcard_node = none) :
      OneTlv g tn hdr tlv_len frame id s tn.unknown_tlv_type_ret s
  /-- The TLV is too short for the node and left to the wildcard node. -/
  | wildcard {id w : TlvId} {s s' : St α} {ret : Int}
      (hshort : tlvTooShort (g.tlv id).proto_tlv_def tlv_len = true)
      (hw : tn.tlv_wildcard_node = some w) (hrest : OneTlv g tn hdr tlv_len frame w s ret s') :
      OneTlv g tn hdr tlv_len frame id s ret s'
  /-- The handler stops the parse. -/
  | stop {id : TlvId} {s s' : St α} {ret : Int}
      (hlong : tlvTooShort (g.tlv id).proto_tlv_def tlv_len = false)
      (hcalls : (tlvCallbacks g id hdr tlv_len frame).run s = .ok ret s') (hret : ret ≠ Code.okay) :
      OneTlv g tn hdr tlv_len frame id s ret s'
  /-- The node has no overlay. -/
  | plain {id : TlvId} {s s' : St α}
      (hlong : tlvTooShort (g.tlv id).proto_tlv_def tlv_len = false)
      (hcalls : (tlvCallbacks g id hdr tlv_len frame).run s = .ok Code.okay s')
      (htable : (g.tlv id).overlay_table = none) :
      OneTlv g tn hdr tlv_len frame id s Code.okay s'
  /-- The node has an overlay node for its overlay type, or for all others. -/
  | overlay {id next : TlvId} {s s1 s' : St α} {ret : Int} {table : List Entry}
      (hlong : tlvTooShort (g.tlv id).proto_tlv_def tlv_len = false)
      (hcalls : (tlvCallbacks g id hdr tlv_len frame).run s = .ok Code.okay s1)
      (htable : (g.tlv id).overlay_table = some table)
      (hnext : (lookupTlvNode (g.overlayKey id hdr tlv_len) table).or
        (g.tlv id).overlay_wildcard_node = some next)
      (hrest : OneTlv g tn hdr tlv_len frame next s1 ret s') :
      OneTlv g tn hdr tlv_len frame id s ret s'
  /-- The node has no overlay node for its overlay type. -/
  | unknown {id : TlvId} {s s' : St α} {table : List Entry}
      (hlong : tlvTooShort (g.tlv id).proto_tlv_def tlv_len = false)
      (hcalls : (tlvCallbacks g id hdr tlv_len frame).run s = .ok Code.okay s')
      (htable : (g.tlv id).overlay_table = some table)
      (hnext : (lookupTlvNode (g.overlayKey id hdr tlv_len) table).or
        (g.tlv id).overlay_wildcard_node = none) :
      OneTlv g tn hdr tlv_len frame id s (g.tlv id).unknown_overlay_ret s'

/-- A node has another one in its overlay table or as the wildcard node of its overlay. -/
def OverlayEdge (g : Graph α) (a b : TlvId) : Prop :=
  (∃ table, (g.tlv a).overlay_table = some table ∧ ∃ e ∈ table, e.node = some b) ∨
    (g.tlv a).overlay_wildcard_node = some b

/-- The overlay nodes behind a node, itself included. -/
abbrev OverlayReach (g : Graph α) : TlvId → TlvId → Prop := Relation.ReflTransGen (OverlayEdge g)

/-- The definition `d` asks of a TLV what a node's own one does. -/
structure AlikeTlv (g : Graph α) (d : Option ProtoTlvDef) (hdr : Hdr) (tlv_len : Nat) (id : TlvId) :
    Prop where
  short : tlvTooShort (g.tlv id).proto_tlv_def tlv_len = tlvTooShort d tlv_len
  key : (g.tlv id).overlay_table ≠ none →
    ∃ d', d = some d' ∧ d'.overlayType hdr tlv_len = g.overlayKey id hdr tlv_len

section
variable {g : Graph α} {tn : ParseTlvsNode} {d : Option ProtoTlvDef} {hdr : Hdr}
  {tlv_len frame fuel : Nat} {id : TlvId} {s : St α}

theorem overlayEdge_of_or (htable : (g.tlv id).overlay_table = some table)
    (hnext : (lookupTlvNode key table).or (g.tlv id).overlay_wildcard_node = some next) :
    OverlayEdge g id next := by
  rcases lookup_or_mem hnext with hmem | hw
  · exact .inl ⟨table, htable, hmem⟩
  · exact .inr hw

theorem tlvCallbacks_ok (g : Graph α) (id : TlvId) (hdr : Hdr) (tlv_len frame : Nat) (s : St α) :
    ∃ ret s', (tlvCallbacks g id hdr tlv_len frame).run s = .ok ret s' := by
  obtain ⟨s1, hs1⟩ := callExtract_ok (.tlv id) (g.tlv id).tlv_ops (some hdr) tlv_len frame s
  rw [tlvCallbacks, run_bind_ok hs1]
  rcases callHandler_outcome (.tlv id) .handler (g.tlv id).tlv_ops.handler (some hdr) tlv_len frame s1
    with h | ⟨ret, s', h, -⟩
  · exact ⟨_, _, h⟩
  · exact ⟨_, _, h⟩

/-! ## The steps of the function -/

theorem parseOneTlvAgain_loops (hshort : tlvTooShort d tlv_len = true)
    (hw : tn.tlv_wildcard_node = some w) :
    (parseOneTlvAgain g frame fuel tn d hdr tlv_len id).run s = .error .fuel s := by
  induction fuel generalizing id with
  | zero =>
    rw [parseOneTlvAgain]
    rfl
  | succ fuel ih =>
    rw [parseOneTlvAgain, if_pos hshort, hw]
    exact ih

theorem parseOneTlvAgain_run (hlong : tlvTooShort d tlv_len = false)
    (hcalls : (tlvCallbacks g id hdr tlv_len frame).run s = .ok ret s1) :
    (parseOneTlvAgain g frame (fuel + 1) tn d hdr tlv_len id).run s =
      if ret ≠ Code.okay then .ok ret s1
      else (do
        let ret ← parseNestedTlvs g frame fuel d hdr tlv_len (g.tlv id).nested_node
        if ret ≠ Code.okay then return ret
        else match (g.tlv id).overlay_table with
          | none => return Code.okay
          | some table =>
            let d' ← deref d
            match (lookupTlvNode (d'.overlayType hdr tlv_len) table).or
                (g.tlv id).overlay_wildcard_node with
            | some next => parseOneTlvAgain g frame fuel tn d hdr tlv_len next
            | none => return (g.tlv id).unknown_overlay_ret : ParseM α Int).run s1 := by
  rw [tlvCallbacks, run_bind] at hcalls
  rw [parseOneTlvAgain, if_neg (by rw [hlong]; exact Bool.false_ne_true), run_bind]
  cases hextract : (callExtract (.tlv id) (g.tlv id).tlv_ops (some hdr) tlv_len frame).run s with
  | error e s' => rw [hextract] at hcalls; cases hcalls
  | ok _ s' =>
    rw [hextract] at hcalls
    dsimp only at hcalls ⊢
    rw [run_bind_ok hcalls]
    split
    · rfl
    · rfl

theorem parseOneTlvAgain_overlay (hlong : tlvTooShort d tlv_len = false)
    (hnested : (g.tlv id).nested_node = none)
    (hcalls : (tlvCallbacks g id hdr tlv_len frame).run s = .ok Code.okay s1) :
    (parseOneTlvAgain g frame (fuel + 2) tn d hdr tlv_len id).run s =
      (match (g.tlv id).overlay_table with
        | none => return Code.okay
        | some table => do
          let d' ← deref d
          match (lookupTlvNode (d'.overlayType hdr tlv_len) table).or
              (g.tlv id).overlay_wildcard_node with
          | some next => parseOneTlvAgain g frame (fuel + 1) tn d hdr tlv_len next
          | none => return (g.tlv id).unknown_overlay_ret : ParseM α Int).run s1 := by
  have hnone : (parseNestedTlvs g frame (fuel + 1) d hdr tlv_len (g.tlv id).nested_node).run s1 =
      .ok Code.okay s1 := by
    rw [hnested]
    rfl
  rw [parseOneTlvAgain_run hlong hcalls, if_neg (not_not.mpr rfl), run_bind_ok hnone,
    if_neg (not_not.mpr rfl)]

/-- A TLV that is long enough for the first node gets out of the function, with the fuel that the
overlay nodes need. It faults if a node has overlays and there is no definition. -/
theorem oneTlv_ends (tn : ParseTlvsNode) (hdr : Hdr) (frame : Nat)
    (hlong : tlvTooShort d tlv_len = false)
    (hacc : Acc (fun b a => OverlayEdge g a b) id)
    (hnested : ∀ id', OverlayReach g id id' → (g.tlv id').nested_node = none) (s : St α) :
    ∃ N r, (∀ fuel, N ≤ fuel →
        (parseOneTlvAgain g frame fuel tn d hdr tlv_len id).run s = r) ∧
      (∀ e s', r = .error e s' →
        e = .fault ∧ d = none ∧ ∃ id', OverlayReach g id id' ∧ (g.tlv id').overlay_table ≠ none) ∧
      ((∀ id', OverlayReach g id id' → AlikeTlv g d hdr tlv_len id') →
        ∃ ret s', r = .ok ret s' ∧ OneTlv g tn hdr tlv_len frame id s ret s') := by
  induction hacc generalizing s with
  | intro id _ ih =>
    have hself : ∀ {id'}, OverlayReach g id id' → (g.tlv id').nested_node = none := hnested _
    obtain ⟨ret, s1, hcalls⟩ := tlvCallbacks_ok g id hdr tlv_len frame s
    by_cases hret : ret = Code.okay
    · subst hret
      have hrun : ∀ {fuel}, 2 ≤ fuel → ∃ fuel', fuel = fuel' + 2 := fun h =>
        ⟨_, (Nat.sub_add_cancel h).symm⟩
      cases htable : (g.tlv id).overlay_table with
      | none =>
        refine ⟨2, .ok Code.okay s1, fun fuel hfuel => ?_, (fun e s' h => by cases h),
          fun halike => ?_⟩
        · obtain ⟨fuel, rfl⟩ := hrun hfuel
          rw [parseOneTlvAgain_overlay hlong (hself .refl) hcalls, htable]
          rfl
        · exact ⟨_, _, rfl, .plain ((halike id .refl).short.trans hlong) hcalls htable⟩
      | some table =>
        cases d with
        | none =>
          have hsome : (g.tlv id).overlay_table ≠ none := by
            rw [htable]
            exact Option.some_ne_none _
          refine ⟨2, .error .fault s1, fun fuel hfuel => ?_, fun e s' h => ?_, fun halike => ?_⟩
          · obtain ⟨fuel, rfl⟩ := hrun hfuel
            rw [parseOneTlvAgain_overlay hlong (hself .refl) hcalls, htable]
            rfl
          · cases h
            exact ⟨rfl, rfl, id, .refl, hsome⟩
          · obtain ⟨d', hd', -⟩ := (halike id .refl).key hsome
            cases hd'
        | some d' =>
          have hkey : (∀ id', OverlayReach g id id' → AlikeTlv g (some d') hdr tlv_len id') →
              d'.overlayType hdr tlv_len = g.overlayKey id hdr tlv_len := by
            intro halike
            obtain ⟨d'', hd'', hkey⟩ :=
              (halike id .refl).key (by rw [htable]; exact Option.some_ne_none _)
            cases hd''
            exact hkey
          cases hnext : (lookupTlvNode (d'.overlayType hdr tlv_len) table).or
              (g.tlv id).overlay_wildcard_node with
          | none =>
            refine ⟨2, .ok (g.tlv id).unknown_overlay_ret s1, fun fuel hfuel => ?_,
              (fun e s' h => by cases h), fun halike => ?_⟩
            · obtain ⟨fuel, rfl⟩ := hrun hfuel
              rw [parseOneTlvAgain_overlay hlong (hself .refl) hcalls, htable]
              dsimp only
              rw [run_bind_ok (show (deref (some d') : ParseM α _).run s1 = .ok d' s1 from rfl), hnext]
              rfl
            · rw [hkey halike] at hnext
              exact ⟨_, _, rfl, .unknown ((halike id .refl).short.trans hlong) hcalls htable hnext⟩
          | some next =>
            have hedge := overlayEdge_of_or htable hnext
            obtain ⟨N, r, hr, hfault, hown⟩ :=
              ih next hedge (fun id' h => hself (.head hedge h)) s1
            refine ⟨N + 2, r, fun fuel hfuel => ?_, fun e s' h => ?_, fun halike => ?_⟩
            · obtain ⟨fuel, rfl⟩ := hrun (show 2 ≤ fuel by omega)
              rw [parseOneTlvAgain_overlay hlong (hself .refl) hcalls, htable]
              dsimp only
              rw [run_bind_ok (show (deref (some d') : ParseM α _).run s1 = .ok d' s1 from rfl), hnext]
              exact hr _ (by omega)
            · cases (hfault e s' h).2.1
            · obtain ⟨ret, s', hr', hrest⟩ := hown fun id' h => halike id' (.head hedge h)
              rw [hkey halike] at hnext
              exact ⟨ret, s', hr', .overlay ((halike id .refl).short.trans hlong) hcalls htable hnext
                hrest⟩
    · refine ⟨1, .ok ret s1, fun fuel hfuel => ?_, (fun e s' h => by cases h), fun halike => ?_⟩
      · obtain ⟨fuel, rfl⟩ : ∃ fuel', fuel = fuel' + 1 := ⟨fuel - 1, by omega⟩
        rw [parseOneTlvAgain_run hlong hcalls, if_pos hret]
      · exact ⟨ret, s1, rfl, .stop ((halike id .refl).short.trans hlong) hcalls hret⟩

end

/-- TLVs of two bytes or more, whose overlay node for four bytes needs `m` bytes. -/
def overlayExample (m : Nat) : Graph Unit where
  node _ := { proto_def := none }
  tlv id :=
    if id = 0 then
      { proto_tlv_def := some { min_len := 2 }, overlay_table := some [⟨4, some 1⟩] }
    else
      { proto_tlv_def := some { min_len := m }
        tlv_ops := { handler := some fun _ mem => (Code.okay, mem) } }
  flagField _ := {}
  arrel _ := {}

theorem overlayExample_edge (h : OverlayEdge (overlayExample m) a b) :
    a = 0 ∧ b = 1 := by
  rcases h with ⟨table, htable, e, he, hb⟩ | hw
  · by_cases ha : a = 0
    · subst ha
      cases htable
      rw [List.mem_singleton] at he
      subst he
      exact ⟨rfl, (Option.some_inj.mp hb).symm⟩
    · simp [overlayExample, ha] at htable
  · by_cases ha : a = 0
    · subst ha
      cases hw
    · simp [overlayExample, ha] at hw

end Xdp2
