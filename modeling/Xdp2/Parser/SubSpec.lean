import Xdp2.Parser.Log

/-!
# What the sub-parsers do

`SubRun frame m`: from any state, `m` makes callbacks of TLVs, flag-fields and array elements only,
all with the frame it was given, and leaves the marks of the walk, the encapsulation counter and the
stored code alone. If a TLV handler returns a code other than `XDP2_OKAY`, that call is the last one
and its code the result. The TLV functions call each other, so all are proved at once by induction
on the fuel (`TlvRuns`).
-/

namespace Xdp2

open StateError

variable {α : Type}

/-- The callbacks of a sub-parser. -/
def Role.isSub : Role → Bool
  | .tlv _ | .flagField _ | .arrel _ => true
  | _ => false

/-- The callbacks of a TLV node. -/
def Role.isTlv : Role → Bool
  | .tlv _ => true
  | _ => false

/-- A callback of a sub-parser with the frame it was given. -/
structure SubCall (frame : Nat) (c : Call) : Prop where
  role : c.role.isSub
  frame_eq : c.frame = frame

/-- A callback of a sub-parser that does not stop it: one of a TLV node has returned
`XDP2_OKAY`. -/
structure QuietCall (frame : Nat) (c : Call) : Prop extends SubCall frame c where
  quiet : c.role.isTlv → c.ret = Code.okay

/-- A callback of a TLV node. -/
structure TlvCall (frame : Nat) (c : Call) : Prop extends SubCall frame c where
  tlv : c.role.isTlv

/-- Every run of `m` is one of a sub-parser. -/
abbrev SubRun (frame : Nat) (m : ParseM α Int) : Prop :=
  CodeRun (QuietCall frame) (TlvCall frame) m

/-- Every run of `m` makes quiet calls only. -/
abbrev QuietRun {β : Type} (frame : Nat) (m : ParseM α β) : Prop := CallRun (QuietCall frame) m

/-! ## Callbacks -/

section
variable {hdr : Option Hdr} {frame : Nat}

theorem callExtract_moves
    (hP : P ⟨role, .extractMetadata, hdr.map Hdr.off, hdr_len, frame, Code.okay⟩) :
    Along (Moves P) (callExtract role ops hdr hdr_len frame) := by
  intro s
  rw [callExtract]
  cases ops.extract_metadata with
  | none => exact .refl s
  | some f => exact .one hP rfl rfl

theorem callExtract_ok (role : Role) (ops : NodeOps α) (hdr : Option Hdr) (hdr_len frame : Nat)
    (s : St α) : ∃ s', (callExtract role ops hdr hdr_len frame).run s = .ok () s' := by
  rw [callExtract]
  cases ops.extract_metadata with
  | none => exact ⟨s, rfl⟩
  | some f => exact ⟨_, rfl⟩

/-- A handler is called at most once, and as the caller says; its code is the result, which is
`XDP2_OKAY` when there is no handler. -/
theorem callHandler_outcome (role : Role) (cb : Callback) (h : Option (Handler α))
    (hdr : Option Hdr) (hdr_len frame : Nat) (s : St α) :
    (callHandler role cb h hdr hdr_len frame).run s = .ok Code.okay s ∨
    ∃ ret s', (callHandler role cb h hdr hdr_len frame).run s = .ok ret s' ∧
      s'.log = s.log ++ [.call ⟨role, cb, hdr.map Hdr.off, hdr_len, frame, ret⟩] ∧
      s'.var = s.var := by
  cases h with
  | none => exact .inl rfl
  | some f => exact .inr ⟨_, _, rfl, rfl, rfl⟩

theorem callHandler_moves (hP : ∀ ret, P ⟨role, cb, hdr.map Hdr.off, hdr_len, frame, ret⟩) :
    Along (Moves P) (callHandler role cb h hdr hdr_len frame) := by
  intro s
  rcases callHandler_outcome role cb h hdr hdr_len frame s with hr | ⟨ret, s', hr, hl, hv⟩
  · rw [hr]
    exact .refl s
  · rw [hr]
    exact .one (hP ret) hl hv

theorem callHandlerVoid_moves (hP : ∀ ret, P ⟨role, cb, hdr.map Hdr.off, hdr_len, frame, ret⟩) :
    Along (Moves P) (callHandlerVoid role cb h hdr hdr_len frame) :=
  CallRun.bind (callHandler_moves hP) fun _ => .pure _

theorem callHandlerVoid_ok (role : Role) (cb : Callback) (h : Option (Handler α))
    (hdr : Option Hdr) (hdr_len frame : Nat) (s : St α) :
    ∃ s', (callHandlerVoid role cb h hdr hdr_len frame).run s = .ok () s' := by
  rcases callHandler_outcome role cb h hdr hdr_len frame s with hr | ⟨ret, s', hr, -⟩
  · exact ⟨s, by rw [callHandlerVoid, run_bind_ok hr]; rfl⟩
  · exact ⟨s', by rw [callHandlerVoid, run_bind_ok hr]; rfl⟩

end

/-! ## Flag-fields and arrays -/

section
variable (g : Graph α) {frame : Nat}

theorem parseOneFlagField_quiet (n : ParseFlagFieldsNode) (i : Nat) (f : FlagField) (cp : Hdr) :
    QuietRun frame (parseOneFlagField g n i f cp frame) := by
  refine (CallRun.deref _).bind fun table => ?_
  split
  · exact .pure _
  · refine CallRun.bind (callExtract_moves ?_) fun _ => callHandlerVoid_moves fun ret => ?_
    · exact ⟨⟨rfl, rfl⟩, fun h => by cases h⟩
    · exact ⟨⟨rfl, rfl⟩, fun h => by cases h⟩

theorem parseFlagFieldsFrom_quiet (n : ParseFlagFieldsNode) (flags : UInt32)
    (fields : List FlagField) (hdr : Hdr) : ∀ (rest : List FlagField) (i : Nat),
    QuietRun frame (parseFlagFieldsFrom g n flags fields hdr frame i rest)
  | [], _ => .pure _
  | f :: rest, i => by
    have ih := parseFlagFieldsFrom_quiet n flags fields hdr rest (i + 1)
    rw [parseFlagFieldsFrom]
    split
    · exact ih
    · exact (parseOneFlagField_quiet g n i f _).bind fun _ => ih

theorem xdp2ParseFlagFields_run (n : ParseFlagFieldsNode) (d : ProtoFlagFieldsDef) (hdr : Hdr) :
    SubRun frame (xdp2ParseFlagFields g n d hdr frame) :=
  (parseFlagFieldsFrom_quiet g n _ _ _ _ _).code

theorem parseOneArrel_quiet (n : ParseArrayNode) (el_type : Int) (cp : Hdr) (el_length : Nat) :
    QuietRun frame (parseOneArrel g n el_type cp el_length frame) := by
  unfold parseOneArrel
  split
  · refine CallRun.bind (callExtract_moves ?_) fun _ =>
      CallRun.bind (callHandlerVoid_moves fun ret => ?_) fun _ => .pure _
    · exact ⟨⟨rfl, rfl⟩, fun h => by cases h⟩
    · exact ⟨⟨rfl, rfl⟩, fun h => by cases h⟩
  · exact .pure _

theorem parseArrayFrom_run (n : ParseArrayNode) (d : ProtoArrayDef) :
    ∀ (left : Nat) (cp : Hdr) (hlen : Nat), SubRun frame (parseArrayFrom g n d frame left cp hlen)
  | 0, _, _ => .pure _
  | left + 1, cp, hlen => by
    rw [parseArrayFrom]
    split
    · exact .pure _
    · split
      · exact .pure _
      · exact (parseOneArrel_quiet g n _ cp _).code.seq (parseArrayFrom_run n d left _ _)

theorem xdp2ParseArray_run (n : ParseArrayNode) (d : ProtoArrayDef) (hdr : Hdr) (hlen : Nat) :
    SubRun frame (xdp2ParseArray g n d hdr hlen frame) :=
  parseArrayFrom_run g n d _ _ _

end

/-! ## TLVs -/

theorem callHandler_tlv_run (id : TlvId) (h : Option (Handler α)) (hdr : Hdr) (tlv_len : Nat) :
    SubRun frame (callHandler (.tlv id) .handler h (some hdr) tlv_len frame) := by
  intro s
  rcases callHandler_outcome (.tlv id) .handler h (some hdr) tlv_len frame s with
    hr | ⟨ret, s', hr, hl, hv⟩
  · rw [hr]
    exact .quiet (.refl s)
  · rw [hr]
    by_cases hret : ret = Code.okay
    · exact .quiet (.one ⟨⟨rfl, rfl⟩, fun _ => hret⟩ hl hv)
    · exact .stopped (c := ⟨_, _, _, _, _, ret⟩) (.refl s) ⟨⟨rfl, rfl⟩, rfl⟩ hret hl (by rw [hv])
        (by rw [hv])

/-- The statement about the TLV functions at one amount of fuel. -/
structure TlvRuns (g : Graph α) (frame fuel : Nat) : Prop where
  again : ∀ tn d hdr tlv_len id, SubRun frame (parseOneTlvAgain g frame fuel tn d hdr tlv_len id)
  nested : ∀ d hdr tlv_len node, SubRun frame (parseNestedTlvs g frame fuel d hdr tlv_len node)
  tlvs : ∀ id hdr hlen, SubRun frame (xdp2ParseTlvs g frame fuel id hdr hlen)
  loop : ∀ tn d cp hlen cnt, SubRun frame (parseTlvsFrom g frame fuel tn d cp hlen cnt)
  typed : ∀ tn cp tlv_len type, SubRun frame (parseTypedTlv g frame fuel tn cp tlv_len type)

section
variable {g : Graph α} {frame : Nat}

theorem TlvRuns.zero : TlvRuns g frame 0 where
  again _ _ _ _ _ := .throw _
  nested _ _ _ _ := .throw _
  tlvs _ _ _ := .throw _
  loop _ _ _ _ _ := .throw _
  typed _ _ _ _ := .throw _

theorem TlvRuns.again_step (ih : TlvRuns g frame fuel) (tn : ParseTlvsNode)
    (d : Option ProtoTlvDef) (hdr : Hdr) (tlv_len : Nat) (id : TlvId) :
    SubRun frame (parseOneTlvAgain g frame (fuel + 1) tn d hdr tlv_len id) := by
  rw [parseOneTlvAgain]
  split
  · split
    · exact ih.again _ _ _ _ _
    · exact .pure _
  · refine CallRun.after (callExtract_moves ⟨⟨rfl, rfl⟩, fun _ => rfl⟩) fun _ => ?_
    refine (callHandler_tlv_run _ _ _ _).seq ((ih.nested _ _ _ _).seq ?_)
    split
    · exact .pure _
    · refine CallRun.after (.deref d) fun d' => ?_
      split
      · exact ih.again _ _ _ _ _
      · exact .pure _

theorem TlvRuns.nested_step (ih : TlvRuns g frame fuel) (d : Option ProtoTlvDef) (hdr : Hdr)
    (tlv_len : Nat) (node : Option NodeId) :
    SubRun frame (parseNestedTlvs g frame (fuel + 1) d hdr tlv_len node) := by
  cases node with
  | none => rw [parseNestedTlvs]; exact .pure _
  | some nested =>
    rw [parseNestedTlvs]
    refine CallRun.after (.deref d) fun d' => CallRun.after (fun s => .silent rfl rfl rfl) fun _ => ?_
    intro s
    have h := ih.tlvs nested (hdr.add (d'.nestedOffset hdr tlv_len))
      (subSize tlv_len (d'.nestedOffset hdr tlv_len)) s
    rw [run_bind]
    generalize (xdp2ParseTlvs g frame fuel nested _ _).run s = r at h ⊢
    cases h with
    | stopped h hc hret hlog henc hcode => exact .stopped h hc hret hlog henc hcode
    | quiet h =>
      cases r with
      | error e s' => exact .quiet h
      | ok ret s' => exact .quiet (h.trans (.silent rfl rfl rfl))

theorem TlvRuns.tlvs_step (ih : TlvRuns g frame fuel) (id : NodeId) (hdr : Hdr) (hlen : Nat) :
    SubRun frame (xdp2ParseTlvs g frame (fuel + 1) id hdr hlen) := by
  rw [xdp2ParseTlvs]
  have hq : QuietRun frame (derefTlvs g id) := by
    unfold derefTlvs
    split <;> exact fun s => .refl s
  exact hq.after fun td => ih.loop _ _ _ _ _

theorem TlvRuns.loop_step (ih : TlvRuns g frame fuel) (tn : ParseTlvsNode) (d : ProtoTlvsDef)
    (cp : Hdr) (hlen : Nat) (cnt : UInt32) :
    SubRun frame (parseTlvsFrom g frame (fuel + 1) tn d cp hlen cnt) := by
  rw [parseTlvsFrom]
  split
  · exact .pure _
  · split
    · exact ih.loop _ _ _ _ _
    · split
      · exact .pure _
      · split
        · exact .pure _
        · split
          · exact .pure _
          · exact (ih.typed _ _ _ _).seq (ih.loop _ _ _ _ _)

theorem TlvRuns.typed_step (ih : TlvRuns g frame fuel) (tn : ParseTlvsNode) (cp : Hdr)
    (tlv_len : Nat) (type : Int) :
    SubRun frame (parseTypedTlv g frame (fuel + 1) tn cp tlv_len type) := by
  rw [parseTypedTlv]
  split
  · exact ih.again _ _ _ _ _
  · exact .pure _

end

theorem tlvRuns (g : Graph α) (frame fuel : Nat) : TlvRuns g frame fuel := by
  induction fuel with
  | zero => exact .zero
  | succ fuel ih =>
    exact ⟨ih.again_step, ih.nested_step, ih.tlvs_step, ih.loop_step, ih.typed_step⟩

theorem parseSub_run (g : Graph α) (fuel : Nat) (id : NodeId) (n : ParseNode α) (pd : ProtoDef)
    (hdr : Hdr) (hlen frame : Nat) : SubRun frame (parseSub g fuel id n pd hdr hlen frame) := by
  unfold parseSub
  split
  · exact (tlvRuns g frame fuel).tlvs _ _ _
  · exact xdp2ParseFlagFields_run g _ _ _
  · exact xdp2ParseArray_run g _ _ _ _
  · exact .pure _

end Xdp2
