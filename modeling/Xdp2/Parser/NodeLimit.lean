import Xdp2.Parser.VisitSpec

/-!
# The node limit

`WalkEnds` is the walk with the node limit left aside. The loop follows it for up to `max_nodes + 1`
nodes (`walk_out_iff`), since the limit is tested after a visit, and stops with
`XDP2_STOP_MAX_NODES` where it would visit one more (`walk_maxNodes`). A parse keeps the documented
limit of `max_nodes` exactly when the walk ends by itself within it (`nodesLimited_iff`).
-/

namespace Xdp2

open StateError

variable {α : Type}

/-- The walk from a cursor and state ends after `k` nodes with the code `ret`, in the given frame
and state; there is no limit on `k`. -/
inductive WalkEnds (p : Parser α) (fuel : Nat) :
    Cursor → St α → Nat → Int → Nat → St α → Prop where
  | stop {c : Cursor} {s s' : St α} {ret : Int} {frame : Nat}
      (h : (visit p fuel c).run s = .ok (.stop ret frame) s') : WalkEnds p fuel c s 1 ret frame s'
  | next {c c' : Cursor} {s s1 s' : St α} {k : Nat} {ret : Int} {frame : Nat}
      (h : (visit p fuel c).run s = .ok (.next c') s1) (hrest : WalkEnds p fuel c' s1 k ret frame s') :
      WalkEnds p fuel c s (k + 1) ret frame s'

/-- The loop ends with a code exactly where the walk ends within the nodes allowed, the one at the
cursor included. -/
theorem walk_out_iff :
    ∀ {nodes : Nat} {c : Cursor} {s : St α},
      (walk p fuel nodes c).run s = .ok (.out ret frame) s' ↔
        ∃ k ≤ nodes + 1, WalkEnds p fuel c s k ret frame s' := by
  intro nodes
  induction nodes with
  | zero =>
    intro c s
    rw [walk, run_bind]
    constructor
    · intro h
      cases hv : (visit p fuel c).run s with
      | error e s1 => rw [hv] at h; cases h
      | ok v s1 =>
        rw [hv] at h
        cases v with
        | stop r f => cases h; exact ⟨1, Nat.le_refl 1, .stop hv⟩
        | next c' => cases h
    · rintro ⟨k, hk, hw⟩
      cases hw with
      | stop h => rw [h]; rfl
      | next h hrest => cases hrest <;> omega
  | succ nodes ih =>
    intro c s
    rw [walk, run_bind]
    constructor
    · intro h
      cases hv : (visit p fuel c).run s with
      | error e s1 => rw [hv] at h; cases h
      | ok v s1 =>
        rw [hv] at h
        cases v with
        | stop r f => cases h; exact ⟨1, by omega, .stop hv⟩
        | next c' =>
          obtain ⟨k, hk, hw⟩ := ih.1 h
          exact ⟨k + 1, by omega, .next hv hw⟩
    · rintro ⟨k, hk, hw⟩
      cases hw with
      | stop h => rw [h]; rfl
      | next h hrest =>
        rw [h]
        exact ih.2 ⟨_, by omega, hrest⟩

theorem visit_visited (p : Parser α) (fuel : Nat) (c : Cursor) (s : St α) :
    VisitSat (fun _ _ s' => (visited s'.log).length = (visited s.log).length + 1)
      (fun _ s' => (visited s'.log).length = (visited s.log).length + 1)
      (fun s' => (visited s'.log).length ≤ (visited s.log).length + 1)
      ((visit p fuel c).run s) := by
  have hproc : ∀ {id pd hlen s1}, Processed parseLoop p c s id pd hlen s1 →
      (visited s1.log).length = (visited s.log).length + 1 := by
    intro id pd hlen s1 h
    rw [h.moves.visited]
    simp [parseLoop, St.atNode]
  have hent : ∀ {id pd fr} {s1 s2 : St α}, Entered p.config c id pd s1 s2 fr →
      visited s2.log = visited s1.log := by
    intro id pd fr s1 s2 h
    cases h <;> simp [St.countEncap]
  have hadv : ∀ (s1 : St α) pd hlen, visited (s1.advance pd hlen).log = visited s1.log := by
    intro s1 pd hlen
    rw [St.advance]
    split <;> simp
  have hout := visit_outcome p fuel c s
  generalize (visit p fuel c).run s = r at hout ⊢
  cases hout with
  | null => exact Nat.le_succ _
  | short hid hpd hlen => simp [VisitSat, parseLoop, St.atNode]
  | crash h => exact Nat.le_of_eq (hproc h)
  | stop h => exact hproc h
  | handler h hc hret hlog henc hcode => simpa [VisitSat, hlog] using hproc h
  | tooDeep h henc hgt => simpa [VisitSat, St.countEncap] using hproc h
  | noKey h he => exact Nat.le_of_eq (by rw [hent he, hproc h])
  | unknown h he => simpa [VisitSat, hent he] using hproc h
  | zeroLen h he => simpa [VisitSat, hadv, hent he] using hproc h
  | next h he => simpa [VisitSat, hadv, hent he] using hproc h

theorem WalkEnds.visited (h : WalkEnds p fuel c s k ret frame s') :
    (Xdp2.visited s'.log).length = (Xdp2.visited s.log).length + k := by
  induction h with
  | @stop c s s' ret frame h =>
    have hv := visit_visited p fuel c s
    rw [h] at hv
    exact hv
  | @next c c' s s1 s' k ret frame h _ ih =>
    have hv := visit_visited p fuel c s
    rw [h] at hv
    have hv' : (Xdp2.visited s1.log).length = (Xdp2.visited s.log).length + 1 := hv
    omega

/-- A parse marks at most one node more than the limit, and exactly that many where the limit ends
it. -/
theorem walk_visited (p : Parser α) (fuel nodes : Nat) (c : Cursor) (s : St α) :
    WalkSat (fun _ _ s' => (visited s'.log).length ≤ (visited s.log).length + nodes + 1)
      (fun s' => (visited s'.log).length = (visited s.log).length + nodes + 1)
      (fun s' => (visited s'.log).length ≤ (visited s.log).length + nodes + 1)
      ((walk p fuel nodes c).run s) := by
  have hstep : ∀ k c (s1 : St α), (visited s1.log).length = (visited s.log).length + k →
      VisitSat (fun _ _ s' => (visited s'.log).length = (visited s.log).length + k + 1)
        (fun _ s' => (visited s'.log).length = (visited s.log).length + (k + 1))
        (fun s' => (visited s'.log).length ≤ (visited s.log).length + k + 1)
        ((visit p fuel c).run s1) := by
    intro k c s1 hk
    have hv := visit_visited p fuel c s1
    rw [hk] at hv
    exact hv
  have h := walk_rule_count (I := fun k _ s' => _ = _ + k) hstep nodes 0 c s rfl
  generalize (walk p fuel nodes c).run s = r at h ⊢
  match r, h with
  | .ok (.out ret frame) s', ⟨j, hj, hq⟩ => simp only [WalkSat]; omega
  | .ok .maxNodes s', ⟨_, hc⟩ => simp only [WalkSat]; omega
  | .error e s', ⟨j, hj, hf⟩ => simp only [WalkSat]; omega

theorem Exited.visited (h : Exited p ret frame s s') :
    visited s'.log = visited s.log := h.filterMap fun _ => rfl

theorem parse_visited_le (p : Parser α) (fuel : Nat) (pkt : Packet) (s : St α) :
    (visited (final ((xdp2Parse p fuel pkt).run s)).log).length ≤
      (visited s.log).length + p.config.max_nodes.toNat + 1 := by
  refine parse_rule (R := fun r => (visited (final r).log).length ≤ _)
    (walk_visited p fuel p.config.max_nodes.toNat (.init p pkt) s) (fun _ _ h => h)
    (fun _ h => Nat.le_of_eq h) fun _ _ s1 s' h hex => ?_
  rw [final_ok, hex.visited]
  exact h

/-- The documented limit, of the parse of a packet from zeroed control data: it returns after
visiting at most `max_nodes` nodes, with `XDP2_STOP_MAX_NODES` exactly if the walk would not end
within that many. -/
def NodesLimited (p : Parser α) (pkt : Packet) (mem : UserMem α) : Prop :=
  ∃ fuel ret s', (xdp2Parse p fuel pkt).run (.init mem) = .ok ret s' ∧
    (visited s'.log).length ≤ p.config.max_nodes.toNat ∧
    (ret = Code.stopMaxNodes ↔ ¬ ∃ k ≤ p.config.max_nodes.toNat, ∃ code frame s1,
      WalkEnds p fuel (.init p pkt) (.init mem) k code frame s1)

/-- **The node limit is kept exactly when it is not needed**: when the walk, with the limit left
aside, ends within `max_nodes` nodes, and not with the limit's own code. -/
theorem nodesLimited_iff (p : Parser α) (pkt : Packet) (mem : UserMem α) :
    NodesLimited p pkt mem ↔
      ∃ fuel, ∃ k ≤ p.config.max_nodes.toNat, ∃ code frame s1,
        WalkEnds p fuel (.init p pkt) (.init mem) k code frame s1 ∧ code ≠ Code.stopMaxNodes := by
  have hzero : (visited (.init mem : St α).log).length = 0 := rfl
  constructor
  · rintro ⟨fuel, ret, s', hrun, hle, hcode⟩
    rcases xdp2Parse_cases p fuel pkt (.init mem) with ⟨e, s1, -, hpe⟩ | ⟨s1, hwe, hpe⟩ |
      ⟨ret', frame, s1, s2, hwe, hpe, hex⟩
    · rw [hpe] at hrun; cases hrun
    · -- at the limit one node more has been visited
      rw [hpe] at hrun
      cases hrun
      have hv := walk_visited p fuel p.config.max_nodes.toNat (.init p pkt) (.init mem)
      rw [hwe] at hv
      have hv' : (visited s'.log).length = _ + p.config.max_nodes.toNat + 1 := hv
      omega
    · rw [hpe] at hrun
      cases hrun
      obtain ⟨k, hk, hw⟩ := walk_out_iff.1 hwe
      have hvis := hw.visited
      rw [hex.visited] at hle
      refine ⟨fuel, k, by omega, ret, frame, s1, hw, fun hmax => ?_⟩
      exact (hcode.1 hmax) ⟨k, by omega, ret, frame, s1, hw⟩
  · rintro ⟨fuel, k, hk, code, frame, s1, hw, hne⟩
    have hwe := walk_out_iff.2 ⟨k, Nat.le_succ_of_le hk, hw⟩
    obtain ⟨s', hf, hex⟩ := finish_out p code frame s1
    have hrun : (xdp2Parse p fuel pkt).run (.init mem) = .ok code s' := by
      rw [xdp2Parse, run_bind_ok hwe, hf]
    refine ⟨fuel, code, s', hrun, ?_, ?_⟩
    · rw [hex.visited, hw.visited]
      omega
    · exact ⟨fun h => absurd h hne, fun h => absurd ⟨k, hk, code, frame, s1, hw⟩ h⟩

/-! ## A walk one node too long -/

/-- A protocol without a header. -/
def emptyProto : ProtoDef := { min_len := 0 }

/-- Two nodes in a row: the second is a leaf. -/
def twoNodes : Graph Unit where
  node
    | 0 => { proto_def := some emptyProto, wildcard_node := some 1 }
    | _ => { proto_def := some emptyProto }
  tlv _ := {}
  flagField _ := {}
  arrel _ := {}

/-- A packet without a byte. -/
def emptyPacket : Packet := ⟨fun _ => 0, 0, by decide⟩

/-- The caller's memory where nothing is handed in. -/
def noMem : UserMem Unit := ⟨[], [], [], ()⟩

/-- Two nodes in a row with a limit of one node. -/
def twoNodesParser : Parser Unit where
  config := { max_nodes := 1, max_encaps := 4, max_frames := 1 }
  root_node := 0
  graph := twoNodes

/-- A parse with the limit one visits two nodes and returns `XDP2_STOP_OKAY`. -/
theorem twoNodes_not_limited : ¬ NodesLimited twoNodesParser emptyPacket noMem := by
  rintro ⟨fuel, ret, s', hrun, hle, -⟩
  have heq : (xdp2Parse twoNodesParser fuel emptyPacket).run (.init noMem) =
      .ok Code.stopOkay ⟨⟨some 1, -4, 0, 0⟩, noMem, [.node 0, .advance 0, .node 1]⟩ := rfl
  rw [heq] at hrun
  cases hrun
  exact absurd hle (by decide)

end Xdp2
