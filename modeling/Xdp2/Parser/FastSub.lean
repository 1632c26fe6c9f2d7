import Xdp2.Parser.Fast

/-!
# Callbacks that do not look at the last node

Only `__xdp2_parse` maintains `ctrl->var.last_node`. States that differ in that field and in the
marks of their logs are `SameRun`; if no callback looks at the field (`Oblivious`), the sub-parsers
make the same callbacks from both and end alike.
-/

namespace Xdp2

open StateError

variable {α : Type}

/-- The control data with the last node left out. -/
def CtrlVar.forget (v : CtrlVar) : CtrlVar := { v with last_node := none }

/-- Two runs have made the same callbacks and are in the same state, but for the last node. -/
structure SameRun (s t : St α) : Prop where
  mem : s.mem = t.mem
  var : s.var.forget = t.var.forget
  calls : calls s.log = calls t.log

theorem SameRun.encaps (h : SameRun s t) : s.var.encaps = t.var.encaps :=
  (CtrlVar.mk.inj h.var).2.2.1

/-- The operations of a node do not look at the last node. -/
structure NodeOps.Oblivious (ops : NodeOps α) : Prop where
  extract : ∀ f, ops.extract_metadata = some f → ∀ hdr len frame var mem,
    f ⟨hdr, len, frame, var⟩ mem = f ⟨hdr, len, frame, var.forget⟩ mem
  handler : ∀ f, ops.handler = some f → ∀ hdr len frame var mem,
    f ⟨hdr, len, frame, var⟩ mem = f ⟨hdr, len, frame, var.forget⟩ mem

/-- No operation of the graph looks at the last node. -/
structure Graph.Oblivious (g : Graph α) : Prop where
  node : ∀ id, (g.node id).ops.Oblivious
  tlv : ∀ id, (g.tlv id).tlv_ops.Oblivious
  flagField : ∀ id, (g.flagField id).Oblivious
  arrel : ∀ id, (g.arrel id).Oblivious

section
variable {ops : NodeOps α} {hdr : Option Hdr} {frame : Nat}

theorem callExtract_agree (h : ops.Oblivious) :
    Agree SameRun (callExtract role ops hdr hdr_len frame)
      (callExtract role ops hdr hdr_len frame) := by
  rw [callExtract]
  cases hf : ops.extract_metadata with
  | none => exact .pure ()
  | some f =>
    refine .modify fun s t hst => ⟨?_, hst.var, ?_⟩
    · change f ⟨hdr, hdr_len, frame, s.var⟩ s.mem = f ⟨hdr, hdr_len, frame, t.var⟩ t.mem
      rw [h.extract f hf, hst.var, hst.mem, ← h.extract f hf]
    · simp [hst.calls]

theorem callHandler_agree (h : ops.Oblivious) (cb : Callback) :
    Agree SameRun (callHandler role cb ops.handler hdr hdr_len frame)
      (callHandler role cb ops.handler hdr hdr_len frame) := by
  cases hf : ops.handler with
  | none => exact .pure _
  | some f =>
    intro s t hst
    have hr : f ⟨hdr, hdr_len, frame, s.var⟩ s.mem = f ⟨hdr, hdr_len, frame, t.var⟩ t.mem := by
      rw [h.handler f hf, hst.var, hst.mem, ← h.handler f hf]
    rw [callHandler, run_modifyGet, run_modifyGet]
    simp only [hr]
    exact ⟨rfl, rfl, hst.var, by simp [hst.calls]⟩

theorem callHandlerVoid_agree (h : ops.Oblivious) (cb : Callback) :
    Agree SameRun (callHandlerVoid role cb ops.handler hdr hdr_len frame)
      (callHandlerVoid role cb ops.handler hdr hdr_len frame) :=
  (callHandler_agree h cb).bind fun _ => .pure ()

theorem deref_agree {β : Type} (b : Option β) :
    Agree SameRun (deref b : ParseM α β) (deref b) := by
  cases b with
  | none => exact .throw _
  | some b => exact .pure b

theorem seqCode_agree (hm : Agree SameRun m m') (hk : Agree SameRun k k') :
    Agree SameRun (m >>= fun ret => if ret ≠ Code.okay then pure ret else k)
      (m' >>= fun ret => if ret ≠ Code.okay then pure ret else k') :=
  hm.bind fun ret => .ite (.pure ret) hk

end

/-! ## Flag-fields -/

section
variable {g : Graph α} {frame : Nat}

theorem parseOneFlagField_agree (hg : g.Oblivious) (n : ParseFlagFieldsNode) (i : Nat)
    (f : FlagField) (cp : Hdr) :
    Agree SameRun (parseOneFlagField g n i f cp frame) (parseOneFlagField g n i f cp frame) := by
  refine (deref_agree _).bind fun table => ?_
  split
  · exact .pure ()
  · exact (callExtract_agree (hg.flagField _)).bind fun _ =>
      callHandlerVoid_agree (hg.flagField _) .handler

theorem parseFlagFieldsFrom_agree (hg : g.Oblivious) (n : ParseFlagFieldsNode) (flags : UInt32)
    (fields : List FlagField) (hdr : Hdr) : ∀ (rest : List FlagField) (i : Nat),
    Agree SameRun (parseFlagFieldsFrom g n flags fields hdr frame i rest)
      (parseFlagFieldsFrom g n flags fields hdr frame i rest)
  | [], _ => .pure _
  | f :: rest, i => by
    have ih := parseFlagFieldsFrom_agree hg n flags fields hdr rest (i + 1)
    rw [parseFlagFieldsFrom]
    exact .ite ih ((parseOneFlagField_agree hg n i f _).bind fun _ => ih)

/-! ## TLVs -/

/-- The statement about the TLV functions at one amount of fuel. -/
structure TlvAgrees (g : Graph α) (frame fuel : Nat) : Prop where
  again : ∀ tn d hdr tlv_len id, Agree SameRun (parseOneTlvAgain g frame fuel tn d hdr tlv_len id)
    (parseOneTlvAgain g frame fuel tn d hdr tlv_len id)
  nested : ∀ d hdr tlv_len node, Agree SameRun (parseNestedTlvs g frame fuel d hdr tlv_len node)
    (parseNestedTlvs g frame fuel d hdr tlv_len node)
  tlvs : ∀ id hdr hlen, Agree SameRun (xdp2ParseTlvs g frame fuel id hdr hlen)
    (xdp2ParseTlvs g frame fuel id hdr hlen)
  loop : ∀ tn d cp hlen cnt, Agree SameRun (parseTlvsFrom g frame fuel tn d cp hlen cnt)
    (parseTlvsFrom g frame fuel tn d cp hlen cnt)
  typed : ∀ tn cp tlv_len type, Agree SameRun (parseTypedTlv g frame fuel tn cp tlv_len type)
    (parseTypedTlv g frame fuel tn cp tlv_len type)

variable {fuel : Nat}

theorem TlvAgrees.zero : TlvAgrees g frame 0 where
  again _ _ _ _ _ := .throw _
  nested _ _ _ _ := .throw _
  tlvs _ _ _ := .throw _
  loop _ _ _ _ _ := .throw _
  typed _ _ _ _ := .throw _

theorem TlvAgrees.again_step (hg : g.Oblivious) (ih : TlvAgrees g frame fuel)
    (tn : ParseTlvsNode) (d : Option ProtoTlvDef) (hdr : Hdr) (tlv_len : Nat) (id : TlvId) :
    Agree SameRun (parseOneTlvAgain g frame (fuel + 1) tn d hdr tlv_len id)
      (parseOneTlvAgain g frame (fuel + 1) tn d hdr tlv_len id) := by
  rw [parseOneTlvAgain]
  refine .ite ?_ ?_
  · split
    · exact ih.again _ _ _ _ _
    · exact .pure _
  · refine (callExtract_agree (hg.tlv id)).bind fun _ => ?_
    refine seqCode_agree (callHandler_agree (hg.tlv id) .handler)
      (seqCode_agree (ih.nested _ _ _ _) ?_)
    split
    · exact .pure _
    · refine (deref_agree d).bind fun d' => ?_
      split
      · exact ih.again _ _ _ _ _
      · exact .pure _

theorem TlvAgrees.nested_step (ih : TlvAgrees g frame fuel) (d : Option ProtoTlvDef) (hdr : Hdr)
    (tlv_len : Nat) (node : Option NodeId) :
    Agree SameRun (parseNestedTlvs g frame (fuel + 1) d hdr tlv_len node)
      (parseNestedTlvs g frame (fuel + 1) d hdr tlv_len node) := by
  cases node with
  | none => rw [parseNestedTlvs]; exact .pure _
  | some nested =>
    -- both runs change the level counter alike
    have hlevel : ∀ f : UInt8 → UInt8, Agree (ε := Err) (SameRun (α := α))
        (modify fun s => { s with var.tlv_levels := f s.var.tlv_levels })
        (modify fun s => { s with var.tlv_levels := f s.var.tlv_levels }) := by
      intro f
      refine .modify fun s t hst => ⟨hst.mem, ?_, hst.calls⟩
      have hv := hst.var
      simp only [CtrlVar.forget, CtrlVar.mk.injEq, true_and] at hv ⊢
      exact ⟨hv.1, hv.2.1, by rw [hv.2.2]⟩
    rw [parseNestedTlvs]
    refine (deref_agree d).bind fun d' => (hlevel (· + 1)).bind fun _ => ?_
    exact (ih.tlvs _ _ _).bind fun ret => (hlevel (· - 1)).bind fun _ => .pure ret

theorem TlvAgrees.tlvs_step (ih : TlvAgrees g frame fuel) (id : NodeId) (hdr : Hdr) (hlen : Nat) :
    Agree SameRun (xdp2ParseTlvs g frame (fuel + 1) id hdr hlen)
      (xdp2ParseTlvs g frame (fuel + 1) id hdr hlen) := by
  rw [xdp2ParseTlvs]
  have hderef : Agree SameRun (derefTlvs g id) (derefTlvs g id) := by
    unfold derefTlvs
    split
    · exact .pure _
    · exact .throw _
  exact hderef.bind fun td => ih.loop _ _ _ _ _

theorem TlvAgrees.loop_step (ih : TlvAgrees g frame fuel) (tn : ParseTlvsNode) (d : ProtoTlvsDef)
    (cp : Hdr) (hlen : Nat) (cnt : UInt32) :
    Agree SameRun (parseTlvsFrom g frame (fuel + 1) tn d cp hlen cnt)
      (parseTlvsFrom g frame (fuel + 1) tn d cp hlen cnt) := by
  rw [parseTlvsFrom]
  refine .ite (.pure _) (.ite (ih.loop _ _ _ _ _) (.ite (.pure _) (.ite (.pure _) ?_)))
  split
  · exact .pure _
  · exact seqCode_agree (ih.typed _ _ _ _) (ih.loop _ _ _ _ _)

theorem TlvAgrees.typed_step (ih : TlvAgrees g frame fuel) (tn : ParseTlvsNode) (cp : Hdr)
    (tlv_len : Nat) (type : Int) :
    Agree SameRun (parseTypedTlv g frame (fuel + 1) tn cp tlv_len type)
      (parseTypedTlv g frame (fuel + 1) tn cp tlv_len type) := by
  rw [parseTypedTlv]
  split
  · exact ih.again _ _ _ _ _
  · exact .pure _

end

theorem tlvAgrees (hg : g.Oblivious) (frame fuel : Nat) : TlvAgrees g frame fuel := by
  induction fuel with
  | zero => exact .zero
  | succ fuel ih =>
    exact ⟨ih.again_step hg, ih.nested_step, ih.tlvs_step, ih.loop_step, ih.typed_step⟩

end Xdp2
