import Xdp2.Parser.NodeLimit

/-!
# Stop codes of length operations

A `len` operation may return a negative `XDP2_STOP_*` code, with which the parse is to stop.
`__xdp2_parse` compares the value with the remaining length first, as `size_t`, for which a negative
value is larger than any packet, so the code becomes `XDP2_STOP_LENGTH`. `len_code_iff` says for
which codes and lengths this is not so.
-/

namespace Xdp2

open StateError

variable {α : Type}

/-- After `k` visits the walk is at another cursor. -/
inductive Visits (p : Parser α) (fuel : Nat) (c : Cursor) (s : St α) :
    Nat → Cursor → St α → Prop where
  | zero : Visits p fuel c s 0 c s
  | succ {k : Nat} {c1 c2 : Cursor} {s1 s2 : St α} (h : Visits p fuel c s k c1 s1)
      (hnext : (visit p fuel c1).run s1 = .ok (.next c2) s2) : Visits p fuel c s (k + 1) c2 s2

/-- The code that the length checks give for a negative value of a length operation. -/
def lenCode (len : Nat) (code : Int) : Int :=
  if len < usize code then Code.stopLength else cint code

/-- The code is passed on as it is: it is `XDP2_STOP_LENGTH` anyway, or an `int` that is not above
the remaining length when read as a `size_t`. -/
def LenCodeKept (len : Nat) (code : Int) : Prop :=
  code = Code.stopLength ∨ -2 ^ 31 ≤ code ∧ 2 ^ 64 + code ≤ len

theorem Visits.walkEnds (h : Visits p fuel c s k c' s')
    (hend : WalkEnds p fuel c' s' k' ret frame s'') :
    WalkEnds p fuel c s (k + k') ret frame s'' := by
  induction h generalizing k' with
  | zero => rwa [Nat.zero_add]
  | succ _ hnext ih =>
    rw [Nat.add_assoc, Nat.add_comm 1]
    exact ih (.next hnext hend)

theorem usize_of_neg (hneg : code < 0) (hge : -2 ^ 63 ≤ code) :
    (usize code : Int) = 2 ^ 64 + code := by
  unfold usize
  omega

theorem cint_eq_iff (hneg : code < 0) : cint code = code ↔ -2 ^ 31 ≤ code := by
  unfold cint
  rw [Int.bmod_eq_iff (by decide)]
  omega

theorem headerLen_neg (hf : pd.ops.len = some f) (hmin : pd.min_len.toNat ≤ len)
    (hneg : (f hdr len).toInt < 0) :
    headerLen pd hdr len = .error (lenCode len (f hdr len).toInt) := by
  rw [headerLen, if_neg (by omega), hf, lenCode]
  dsimp only
  split
  · rfl
  · rw [if_pos (show (f hdr len).toInt < pd.min_len.toNat by omega)]

theorem lenCode_eq_iff (hneg : code < 0) (hge : -2 ^ 63 ≤ code) :
    lenCode len code = code ↔ LenCodeKept len code := by
  have husize := usize_of_neg hneg hge
  rw [lenCode, LenCodeKept]
  split
  · constructor
    · exact fun h => .inl h.symm
    · rintro (h | h)
      · exact h.symm
      · omega
  · rw [cint_eq_iff hneg]
    constructor
    · intro h
      exact .inr ⟨h, by omega⟩
    · rintro (h | h)
      · rw [h]
        decide
      · exact h.1

theorem visit_neg {id : NodeId} {pd : ProtoDef} {f : Hdr → Nat → Int64}
    (hid : c.parse_node = some id) (hpd : (p.graph.node id).proto_def = some pd)
    (hf : pd.ops.len = some f) (hmin : pd.min_len.toNat ≤ c.len)
    (hneg : (f c.hdr c.len).toInt < 0) :
    (visit p fuel c).run s =
      .ok (.stop (lenCode c.len (f c.hdr c.len).toInt) c.frame) (s.atNode id) := by
  rw [visit, hid, run_bind_ok (show (deref (some id)).run s = .ok id s from rfl)]
  dsimp only
  rw [hpd, run_bind_ok (show (deref (some pd)).run s = .ok pd s from rfl),
    run_bind_ok (run_modify s _), headerLen_neg hf hmin hneg]
  rfl

/-- **What becomes of a negative value of a length operation.** The parse makes no callback of the
node and no other visit, runs the exit node for the code that the length checks have made of it, and
returns that code; it is the value of the operation exactly when `LenCodeKept` holds. -/
theorem len_code_iff (p : Parser α) (fuel : Nat) (pkt : Packet) (s0 : St α) {k : Nat} {c : Cursor}
    {s : St α} {id : NodeId} {pd : ProtoDef} {f : Hdr → Nat → Int64}
    (hvisits : Visits p fuel (.init p pkt) s0 k c s) (hk : k ≤ p.config.max_nodes.toNat)
    (hid : c.parse_node = some id) (hpd : (p.graph.node id).proto_def = some pd)
    (hf : pd.ops.len = some f) (hmin : pd.min_len.toNat ≤ c.len)
    (hneg : (f c.hdr c.len).toInt < 0) :
    ∃ ret s', (xdp2Parse p fuel pkt).run s0 = .ok ret s' ∧
      (∃ hret, s'.log = s.log ++ .node id ::
        specialEvents p.graph .exit (p.config.exitNode ret) c.frame hret) ∧
      (ret = (f c.hdr c.len).toInt ↔ LenCodeKept c.len (f c.hdr c.len).toInt) := by
  have hends := hvisits.walkEnds (.stop (visit_neg hid hpd hf hmin hneg))
  have hwalk := walk_out_iff.mpr ⟨k + 1, Nat.succ_le_succ hk, hends⟩
  rcases xdp2Parse_cases p fuel pkt s0 with ⟨e, s1, hw, -⟩ | ⟨s1, hw, -⟩ |
    ⟨ret, frame, s1, s', hw, hrun, hexited⟩
  · rw [hwalk] at hw
    cases hw
  · rw [hwalk] at hw
    cases hw
  · rw [hwalk] at hw
    cases hw
    obtain ⟨hret, hlog⟩ := hexited.log
    refine ⟨_, s', hrun, ⟨hret, ?_⟩, lenCode_eq_iff hneg (Int64.le_toInt _)⟩
    rw [hlog, St.atNode, St.push_log, List.append_assoc, List.singleton_append]

/-- A protocol that asks for a successful stop, as GRE does for a routing flag, with an okay and a fail
node that have handlers. -/
def okayStopParser : Parser Unit where
  config :=
    { max_nodes := 4, max_encaps := 4, max_frames := 1, okay_node := some 1, fail_node := some 2 }
  root_node := 0
  graph :=
    { node := fun
        | 0 => { proto_def := some { min_len := 4, ops := { len := some fun _ _ => -4 } } }
        | _ => { proto_def := none
                 ops := { handler := some fun _ mem => (Code.okay, mem) } }
      tlv := fun _ => {}
      flagField := fun _ => {}
      arrel := fun _ => {} }

/-- The stop of `okayStopParser`, at a packet so long that the code is kept. -/
theorem len_code_iff_okayStop :
    let pkt : Packet := ⟨fun _ => 0, 2 ^ 64 - 4, by decide⟩
    ∃ ret s', (xdp2Parse okayStopParser 0 pkt).run (.init ⟨[], [], [], ()⟩) = .ok ret s' ∧
      (ret = Code.stopOkay ↔ LenCodeKept (2 ^ 64 - 4) Code.stopOkay) := by
  intro pkt
  obtain ⟨ret, s', hrun, -, hiff⟩ := len_code_iff okayStopParser 0 pkt (.init ⟨[], [], [], ()⟩)
    .zero (Nat.zero_le _) rfl rfl rfl (by decide) (by decide)
  exact ⟨ret, s', hrun, hiff⟩

/-- Four bytes: the parse returns `XDP2_STOP_LENGTH` and runs the fail node. -/
theorem okayStop_fails :
    let pkt : Packet := ⟨fun _ => 0, 4, by decide⟩
    ∃ s', (xdp2Parse okayStopParser 0 pkt).run (.init ⟨[], [], [], ()⟩) = .ok Code.stopLength s' ∧
      s'.log = [.node 0, .call ⟨.exit 2, .handler, none, 0, 0, Code.okay⟩] :=
  ⟨_, rfl, rfl⟩

end Xdp2
