import Xdp2.Parser.Frames
import Xdp2.Parser.NodeLimit

/-!
# The end of a parse

At the label `out` the code is stored in `ctrl->var.ret_code` and its exit node is run with the
current frame; the node limit returns past that label, with neither. The stored code is a signed
byte. These are the only exceptions (`exitsProperly_iff`).
-/

namespace Xdp2

open StateError

variable {α : Type}

/-- What a return owes the caller: the code stored is the one returned, and the last thing done,
once, is to run the exit node for it (the okay node or the fail node, if set) with the frame of the
encapsulations passed. -/
structure ExitsProperly (p : Parser α) (ret : Int) (s' : St α) : Prop where
  ret_code : s'.var.ret_code = ret
  exit : ∃ pre hret, s'.log = pre ++ specialEvents p.graph .exit (p.config.exitNode ret)
      (frameAt p.config (passedEncaps pre).length) hret ∧
    ∀ k ∈ calls pre, ∀ a, k.role ≠ .exit a

theorem s8_eq_iff (code : Int) : s8 code = code ↔ -128 ≤ code ∧ code ≤ 127 := by
  unfold s8
  rw [Int.bmod_eq_iff (by decide)]
  omega

/-- The loop invariant: no exit node has been run, and the stored code is still the caller's. -/
structure RunningInv (code : Int) (s : St α) : Prop where
  calls : EachCall (fun _ k => ∀ a, k.role ≠ .exit a) s.log
  ret_code : s.var.ret_code = code

section
variable {p : Parser α} {c : Cursor} {s s1 s2 : St α} {id : NodeId} {pd : ProtoDef}
  {hlen : Nat} {fr : Nat × Nat} {code : Int}

theorem NodeCall.not_exit (h : NodeCall c id hlen k) (a : NodeId) : k.role ≠ .exit a := by
  intro ha
  rcases h.role with ⟨hrole, -⟩ | hsub | ⟨b, hb⟩
  · rw [ha] at hrole; cases hrole
  · rw [ha] at hsub; cases hsub
  · rw [ha] at hb; cases hb

theorem TlvCall.not_exit (h : TlvCall frame k) (a : NodeId) :
    k.role ≠ .exit a := by
  intro ha
  have htlv := h.tlv
  rw [ha] at htlv
  cases htlv

theorem RunningInv.processed (hI : RunningInv code s)
    (h : Processed parseLoop p c s id pd hlen s1) : RunningInv code s1 :=
  ⟨(parseLoop.eachCall hI.calls id).moves (fun _ _ _ h => h) h.moves fun _ hk => hk.not_exit,
    by rw [h.moves.ret_code, parseLoop.arrive_ret_code, hI.ret_code]⟩

theorem RunningInv.entered (hI : RunningInv code s1) (hent : Entered cfg c id pd s1 s2 fr) :
    RunningInv code s2 := by
  refine ⟨hent.eachCall hI.calls, ?_⟩
  cases hent with
  | plain _ => exact hI.ret_code
  | encap _ _ => exact hI.ret_code

theorem RunningInv.advance (hI : RunningInv code s) (pd : ProtoDef) (hlen : Nat) :
    RunningInv code (s.advance pd hlen) :=
  ⟨hI.calls.advance pd hlen, by rw [advance_var, hI.ret_code]⟩

theorem RunningInv.visit (fuel : Nat) (hI : RunningInv code s) :
    VisitSat (fun _ _ s => RunningInv code s) (fun _ s => RunningInv code s) (RunningInv code)
      ((visit p fuel c).run s) := by
  have hout := visit_outcome p fuel c s
  generalize (Xdp2.visit p fuel c).run s = r at hout ⊢
  cases hout with
  | null => exact hI
  | short hid hpd hlen =>
    exact ⟨parseLoop.eachCall hI.calls _, by rw [parseLoop.arrive_ret_code, hI.ret_code]⟩
  | crash h => exact hI.processed h
  | stop h => exact hI.processed h
  | @handler _ _ _ s1 s' k h hc hret hlog henc hcode =>
    have hp := hI.processed h
    refine ⟨?_, by rw [hcode, hp.ret_code]⟩
    rw [hlog]
    refine hp.calls.snoc fun k hk => ?_
    cases hk
    exact hc.not_exit
  | tooDeep h henc hgt => exact ⟨(hI.processed h).calls.countEncap _ _, (hI.processed h).ret_code⟩
  | noKey h hent => exact (hI.processed h).entered hent
  | unknown h hent => exact (hI.processed h).entered hent
  | zeroLen h hent => exact ((hI.processed h).entered hent).advance _ _
  | next h hent => exact ((hI.processed h).entered hent).advance _ _

end

/-- Where the walk of a parse ends with a code, no exit node has been run and the frame is that of
the encapsulations passed. -/
theorem walk_end (p : Parser α) (fuel : Nat) (pkt : Packet) (mem : UserMem α) :
    WalkSat (fun _ frame s => RunningInv 0 s ∧
        frame = frameAt p.config (passedEncaps s.log).length)
      (RunningInv 0) (RunningInv 0)
      ((walk p fuel p.config.max_nodes.toNat (.init p pkt)).run (.init mem)) := by
  have hrun := walk_rule (p := p) (I := fun _ s => RunningInv 0 s) (fun c s hI => hI.visit fuel)
    p.config.max_nodes.toNat (.init p pkt) (.init mem) ⟨.nil, rfl⟩
  have hframe := walk_rule (I := FrameInv p.config)
    (fun c s hI => hI.outcome (visit_outcome p fuel c s)) p.config.max_nodes.toNat (.init p pkt)
    (.init mem) (.init p pkt _ mem)
  generalize (walk p fuel p.config.max_nodes.toNat (.init p pkt)).run (.init mem) = r
    at hrun hframe ⊢
  match r, hrun, hframe with
  | .ok (.out ret frame) s', hrun, hframe => exact ⟨hrun, hframe.1⟩
  | .ok .maxNodes s', ⟨_, hrun⟩, _ => exact hrun
  | .error e s', hrun, _ => exact hrun

/-- **When a return is proper**: exactly when the walk, with the node limit left aside, ends within
the `max_nodes + 1` nodes the loop visits, and with a code that fits the signed byte it is stored
in. -/
theorem exitsProperly_iff (p : Parser α) (fuel : Nat) (pkt : Packet) (mem : UserMem α) {ret : Int}
    {s' : St α} (hrun : (xdp2Parse p fuel pkt).run (.init mem) = .ok ret s') :
    ExitsProperly p ret s' ↔
      ∃ k ≤ p.config.max_nodes.toNat + 1, ∃ code frame s1,
        WalkEnds p fuel (.init p pkt) (.init mem) k code frame s1 ∧ -128 ≤ code ∧ code ≤ 127 := by
  have hend := walk_end p fuel pkt mem
  rcases xdp2Parse_cases p fuel pkt (.init mem) with ⟨e, s1, -, hpe⟩ | ⟨s1, hwe, hpe⟩ |
    ⟨code, frame, s1, s2, hwe, hpe, hex⟩
  · rw [hpe] at hrun; cases hrun
  · -- the node limit: the stored code is still zero
    rw [hwe] at hend
    rw [hpe] at hrun
    cases hrun
    constructor
    · intro h
      have hzero : s'.var.ret_code = 0 := hend.ret_code
      rw [h.ret_code] at hzero
      exact absurd hzero (by decide)
    · rintro ⟨k, hk, code, frame, s2, hw, -⟩
      rw [walk_out_iff.2 ⟨k, hk, hw⟩] at hwe
      cases hwe
  · rw [hwe] at hend
    rw [hpe] at hrun
    cases hrun
    obtain ⟨hI, hframe⟩ := hend
    obtain ⟨k, hk, hw⟩ := walk_out_iff.1 hwe
    constructor
    · intro h
      refine ⟨k, hk, ret, frame, s1, hw, (s8_eq_iff ret).1 ?_⟩
      rw [← hex.ret_code, h.ret_code]
    · rintro ⟨k', hk', code', frame', s3, hw', hcode⟩
      have hsame := hwe.symm.trans (walk_out_iff.2 ⟨k', hk', hw'⟩)
      cases hsame
      obtain ⟨hret, hlog⟩ := hex.log
      refine ⟨by rw [hex.ret_code, (s8_eq_iff ret).2 hcode], s1.log, hret, ?_, fun k hk a => ?_⟩
      · rw [hlog, ← hframe]
      · obtain ⟨pre, post, -, h⟩ := hI.calls.mem (mem_calls.1 hk)
        exact h a

/-- Two nodes in a row with room for both: the return is proper. -/
theorem twoNodes_exits :
    (xdp2Parse twoNodesParser 0 emptyPacket).run (.init noMem) =
      .ok Code.stopOkay ⟨⟨some 1, -4, 0, 0⟩, noMem, [.node 0, .advance 0, .node 1]⟩ ∧
    ExitsProperly twoNodesParser Code.stopOkay
      ⟨⟨some 1, -4, 0, 0⟩, noMem, [.node 0, .advance 0, .node 1]⟩ :=
  ⟨rfl, (exitsProperly_iff twoNodesParser 0 emptyPacket noMem rfl).2
    ⟨2, by decide, _, _, _, .next rfl (.stop rfl), by decide, by decide⟩⟩

/-- Two nodes in a row and a limit that allows one, with a fail node whose handler counts. -/
def limitParser : Parser Nat where
  config := { max_nodes := 0, max_encaps := 4, max_frames := 1, fail_node := some 2 }
  root_node := 0
  graph :=
    { node := fun
        | 0 => { proto_def := some emptyProto, wildcard_node := some 1 }
        | 1 => { proto_def := some emptyProto }
        | _ => { proto_def := none,
                 ops := { handler := some fun _ mem => (0, { mem with arg := mem.arg + 1 }) } }
      tlv := fun _ => {}
      flagField := fun _ => {}
      arrel := fun _ => {} }

/-- The node limit returns `XDP2_STOP_MAX_NODES` with the stored code zero and the fail node not
run. -/
theorem limit_not_exits :
    ∃ s', (xdp2Parse limitParser 0 emptyPacket).run (.init ⟨[], [], [], 0⟩) =
        .ok Code.stopMaxNodes s' ∧ s'.mem.arg = 0 ∧ ¬ ExitsProperly limitParser Code.stopMaxNodes s' := by
  refine ⟨_, rfl, rfl, fun h => ?_⟩
  exact absurd h.ret_code (by decide)

end Xdp2
