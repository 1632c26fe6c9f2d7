import Xdp2.Parser.FastSub
import Xdp2.Parser.NodeLimit

/-!
# The two parsers compared

The validator lets parsers pass on which the two differ, so the condition is put on the nodes the
walk reaches: `NodeAgrees` and `ProceedAgrees` list every test in which the loops differ.
`visit_fastVisit` compares one iteration, `fast_of_walk` a walk.
-/

namespace Xdp2

open StateError

variable {α : Type}

/-! ## The claim -/

/-- If `__xdp2_parse` returns other than on the node limit, `__xdp2_parse_fast` returns the same
code after the same callbacks. -/
def FastEquiv (p : Parser α) (fuel : Nat) (pkt : Packet) (mem : UserMem α) : Prop :=
  ∀ ret frame s1 s', (walk p fuel p.config.max_nodes.toNat (.init p pkt)).run (.init mem) =
      .ok (.out ret frame) s1 →
    (xdp2Parse p fuel pkt).run (.init mem) = .ok ret s' →
    ∀ steps, p.config.max_nodes.toNat < steps →
      ∃ t', (xdp2ParseFast p fuel steps pkt).run (.init mem) = .ok ret t' ∧
        calls t'.log = calls s'.log

/-! ## Where the loops differ -/

/-- The node selected where no key is needed. -/
def selectNode (n : ParseNode α) (pd : ProtoDef) (hdr : Hdr) : Except Int (Option NodeId) :=
  match n.proto_table, pd.ops.next_proto with
  | some table, some f => tableNode n pd hdr table (f hdr)
  | _, _ => wildcardNode n pd hdr

/-- The loops go on alike from a processed node, with `encaps` encapsulations counted. -/
structure ProceedAgrees (cfg : Config) (n : ParseNode α) (pd : ProtoDef) (hlen : Nat) (c : Cursor)
    (encaps : UInt8) : Prop where
  /-- At a leaf the fast loop counts an encapsulation first. -/
  leaf : n.isLeaf → pd.encap → (encaps + 1).toNat ≤ cfg.max_encaps.toNat
  /-- The fast loop calls `next_proto` without a test. -/
  table : n.isLeaf = false → n.proto_table.isSome → pd.ops.next_proto.isSome
  /-- An unknown protocol ends the fast loop with `XDP2_STOP_OKAY` where there is no wildcard node,
  and the other loop asks the table again where there is one. -/
  miss : ∀ table f, n.proto_table = some table → pd.ops.next_proto = some f → 0 ≤ f c.hdr →
    lookupNode (f c.hdr) table = none → n.wildcard_node = none ∧ n.unknown_ret.toInt = Code.stopOkay
  /-- The fast loop does not stop at the end of the packet. -/
  zero : ∀ next fr, selectNode n pd c.hdr = .ok next → n.zero_len_ok →
    (c.advance pd hlen next fr).len ≠ 0

/-- The loops treat the node `id` alike. -/
structure NodeAgrees (p : Parser α) (fuel : Nat) (c : Cursor) (s : St α) (id : NodeId)
    (pd : ProtoDef) : Prop where
  /-- The fast loop does not test the length a protocol gives against its minimal length. -/
  minLen : ∀ f, pd.ops.len = some f → usize (f c.hdr c.len).toInt ≤ c.len →
    (pd.min_len.toNat : Int) ≤ (f c.hdr c.len).toInt
  /-- The validator does not look at wildcard nodes. -/
  valid : ∀ hlen, headerLen pd c.hdr c.len = .ok hlen → fastNodeOk (p.graph.node id)
  /-- The fast loop does not parse arrays. -/
  noArray : ∀ hlen an d, headerLen pd c.hdr c.len = .ok hlen →
    (p.graph.node id).node_type = .array an → pd.node_type = .array d →
    (d.num_els c.hdr (subSize (usize hlen) (d.start_offset c.hdr))).toNat = 0
  proceed : ∀ hlen s1, headerLen pd c.hdr c.len = .ok hlen →
    (processNode p.graph fuel id (p.graph.node id) pd c.hdr (usize hlen) c.frame).run
      (s.atNode id) = .ok Code.okay s1 →
    ProceedAgrees p.config (p.graph.node id) pd (usize hlen) c s1.var.encaps

/-- The loops treat the node under the cursor alike. -/
def StepAgrees (p : Parser α) (fuel : Nat) (c : Cursor) (s : St α) : Prop :=
  ∀ id pd, c.parse_node = some id → (p.graph.node id).proto_def = some pd →
    NodeAgrees p fuel c s id pd

/-- The walk of `__xdp2_parse` gets from one cursor and state to another. -/
inductive Reaches (p : Parser α) (fuel : Nat) : Cursor → St α → Cursor → St α → Prop
  | refl (c : Cursor) (s : St α) : Reaches p fuel c s c s
  | step {c c' c'' : Cursor} {s s' s'' : St α} (h : (visit p fuel c).run s = .ok (.next c') s')
      (h' : Reaches p fuel c' s' c'' s'') : Reaches p fuel c s c'' s''

/-! ## One iteration -/

section
variable {p : Parser α} {c : Cursor} {pd : ProtoDef}

theorem fastHeaderLen_eq (h : ∀ f, pd.ops.len = some f → usize (f c.hdr c.len).toInt ≤ c.len →
    (pd.min_len.toNat : Int) ≤ (f c.hdr c.len).toInt) :
    fastHeaderLen pd c.hdr c.len = headerLen pd c.hdr c.len := by
  rw [fastHeaderLen, headerLen]
  split
  · rfl
  · cases hf : pd.ops.len with
    | none => rfl
    | some f =>
      have h := h f hf
      dsimp only
      split
      · rfl
      · rw [if_neg (by omega)]

theorem processNode_eq_fast {id : NodeId} {hdr : Hdr} {hlen frame : Nat} (g : Graph α)
    (hpd : n.proto_def = some pd) (hok : fastNodeOk n)
    (hna : ∀ an d, n.node_type = .array an → pd.node_type = .array d →
      (d.num_els hdr (subSize hlen (d.start_offset hdr))).toNat = 0) :
    processNode g fuel id n pd hdr hlen frame = fastProcess g fuel id n pd hdr hlen frame := by
  simp only [fastNodeOk, hpd, Bool.and_eq_true, Option.isNone_iff_eq_none] at hok
  obtain ⟨hpost, -, htypes⟩ := hok
  have hsub : parseSub g fuel id n pd hdr hlen frame = fastSub g fuel id n pd hdr hlen frame := by
    rw [parseSub, fastSub]
    cases hn : n.node_type <;> cases hd : pd.node_type <;> simp only [hn, hd] at htypes ⊢ <;>
      try contradiction
    rw [xdp2ParseArray, hna _ _ hn hd, parseArrayFrom]
  have htail : ∀ ret : Int, (if ret ≠ Code.okay then pure ret else do
      callHandlerVoid (.node id) .postHandler n.ops.post_handler (some hdr) hlen frame
      return Code.okay) = (pure ret : ParseM α Int) := by
    intro ret
    rw [hpost]
    split
    · rfl
    · rename_i h
      rw [not_not.mp h]
      rfl
  rw [processNode, fastProcess, hsub]
  simp only [htail, bind_pure]

theorem fastProcess_agree (hg : p.graph.Oblivious) (id : NodeId) (pd : ProtoDef) (hdr : Hdr)
    (hlen frame : Nat) :
    Agree SameRun (fastProcess p.graph fuel id (p.graph.node id) pd hdr hlen frame)
      (fastProcess p.graph fuel id (p.graph.node id) pd hdr hlen frame) := by
  refine (callExtract_agree (hg.node id)).bind fun _ =>
    (callHandlerVoid_agree (hg.node id) .handler).bind fun _ => ?_
  unfold fastSub
  split
  · exact (tlvAgrees hg frame fuel).tlvs _ _ _
  · split
    · exact parseFlagFieldsFrom_agree hg _ _ _ _ _ _
    · exact .throw _
  · exact .pure _

theorem nextParseNode_select (hdr : Hdr) (hkey : pd.ops.next_proto_keyin = none) :
    nextParseNode n pd hdr = pure (selectNode n pd hdr) := by
  rw [nextParseNode, selectNode, hkey]
  cases n.proto_table <;> cases pd.ops.next_proto <;> rfl

theorem fastNext_select (h : ProceedAgrees cfg n pd hlen c encaps) (hleaf : n.isLeaf = false) :
    (∃ ret, selectNode n pd c.hdr = .error ret ∧ fastNext n pd c.hdr = pure (.error ret)) ∨
      ∃ next, selectNode n pd c.hdr = .ok (some next) ∧ fastNext n pd c.hdr = pure (.ok next) := by
  cases htab : n.proto_table with
  | none =>
    cases hw : n.wildcard_node with
    | none => simp [ParseNode.isLeaf, htab, hw] at hleaf
    | some w => exact .inr ⟨w, by simp [selectNode, htab, wildcardNode, hw], by
        simp [fastNext, htab, hw]⟩
  | some table =>
    obtain ⟨f, hf⟩ := Option.isSome_iff_exists.mp (h.table hleaf (by simp [htab]))
    by_cases hneg : f c.hdr < 0
    · exact .inl ⟨f c.hdr, by simp [selectNode, htab, hf, tableNode, hneg], by
        simp [fastNext, htab, hf, deref, hneg]⟩
    · cases hlook : lookupNode (f c.hdr) table with
      | some next => exact .inr ⟨next, by simp [selectNode, htab, hf, tableNode, hneg, hlook], by
          simp [fastNext, htab, hf, deref, hneg, hlook]⟩
      | none =>
        obtain ⟨hw, hret⟩ := h.miss table f htab hf (by omega) hlook
        exact .inl ⟨Code.stopOkay, by
          simp [selectNode, htab, hf, tableNode, hneg, hlook, wildcardNode, hw, hret], by
          simp [fastNext, htab, hf, deref, hneg, hlook, hw]⟩

/-- What is claimed of an iteration of both loops: they stop with the same code after the same
callbacks, or go on at the same cursor in the same state; nothing where the first one does not
return. -/
inductive SameStep : EStateM.Result Err (St α) Visit → EStateM.Result Err (St α) Visit → Prop
  | stop {ret : Int} {frame frame' : Nat} {s t : St α} (h : calls s.log = calls t.log) :
      SameStep (.ok (.stop ret frame) s) (.ok (.stop ret frame') t)
  | next {c : Cursor} {s t : St α} (h : SameRun s t) :
      SameStep (.ok (.next c) s) (.ok (.next c) t)
  | crash {e : Err} {s : St α} {r : EStateM.Result Err (St α) Visit} : SameStep (.error e s) r

theorem SameRun.countEncap (h : SameRun s t) (cfg : Config) (id : NodeId) :
    SameRun (s.countEncap cfg id) (t.countEncap cfg id) := by
  have hv := CtrlVar.mk.inj h.var
  refine ⟨h.mem, ?_, ?_⟩
  · simp only [St.countEncap, St.push, CtrlVar.forget, CtrlVar.mk.injEq, true_and]
    exact ⟨hv.2.1, by rw [h.encaps], hv.2.2.2⟩
  · simp [St.countEncap, St.push, h.calls]

theorem SameRun.advance (h : SameRun s t) (pd : ProtoDef) (hlen : Nat) :
    SameRun (s.advance pd hlen) (t.advance pd hlen) := by
  rw [St.advance, St.advance]
  split
  · exact h
  · exact ⟨h.mem, h.var, by simp [St.push, h.calls]⟩

theorem SameRun.atNode (h : SameRun s t) (id : NodeId) : SameRun (s.atNode id) t :=
  ⟨h.mem, h.var, by simp [St.atNode, St.push, h.calls]⟩

theorem fastEncap_agree (cfg : Config) (id : NodeId) (pd : ProtoDef) (frame frame_num : Nat) :
    Agree SameRun (fastEncap cfg id pd frame frame_num : ParseM α _)
      (fastEncap cfg id pd frame frame_num) := by
  rw [fastEncap]
  refine .ite (.bind ?_ fun tooMany => ?_) (.pure _)
  · intro s t hst
    rw [tooManyEncaps_run, tooManyEncaps_run]
    have h := hst.countEncap cfg id
    exact ⟨by rw [h.encaps], h⟩
  · exact .ite (.pure _) (.pure _)

theorem enterEncap_eq_fast (h : p.config.atencap_node = none) (id : NodeId) (frame frame_num : Nat) :
    enterEncap p id pd frame frame_num = fastEncap p.config id pd frame frame_num := by
  rw [enterEncap, h]
  rfl

theorem fastProceed_leaf (pd : ProtoDef) (hlen : Nat) (id : NodeId) (hleaf : n.isLeaf)
    (henc : pd.encap → (t.var.encaps + 1).toNat ≤ p.config.max_encaps.toNat) :
    ∃ frame t', (fastProceed p id n pd hlen c).run t = .ok (.stop Code.stopOkay frame) t' ∧
      calls t'.log = calls t.log := by
  have hnext : fastNext n pd c.hdr = pure (.error Code.stopOkay) := by
    simp only [ParseNode.isLeaf, Bool.and_eq_true, Option.isNone_iff_eq_none] at hleaf
    rw [fastNext, hleaf.1, hleaf.2]
  rw [fastProceed, hnext]
  cases hpd : pd.encap with
  | false =>
    rw [fastEncap, hpd]
    exact ⟨c.frame, t, rfl, rfl⟩
  | true =>
    have hle : ¬ p.config.max_encaps.toNat < (t.countEncap p.config id).var.encaps.toNat :=
      Nat.not_lt.mpr (henc hpd)
    rw [fastEncap, hpd, if_pos rfl, run_bind, run_bind_ok (tooManyEncaps_run p.config id t)]
    simp only [hle, decide_false]
    exact ⟨_, t.countEncap p.config id, rfl, by simp [St.countEncap, St.push]⟩

theorem proceed_fastProceed (id : NodeId) (hat : p.config.atencap_node = none)
    (hkey : pd.ops.next_proto_keyin = none) (h : ProceedAgrees p.config n pd hlen c s.var.encaps)
    (hst : SameRun s t) :
    SameStep ((proceed p id n pd hlen c).run s) ((fastProceed p id n pd hlen c).run t) := by
  rw [proceed]
  cases hleaf : n.isLeaf with
  | true =>
    obtain ⟨frame, t', ht, hcalls⟩ := fastProceed_leaf (p := p) (c := c) pd hlen id hleaf
      (hst.encaps ▸ h.leaf hleaf)
    rw [ht]
    exact .stop (hst.calls.trans hcalls.symm)
  | false =>
    have hag := fastEncap_agree p.config id pd c.frame c.frame_num s t hst
    rw [enterEncap_eq_fast hat, nextParseNode_select _ hkey, fastProceed, if_neg (by simp)]
    rw [run_bind, run_bind]
    cases hs : (fastEncap p.config id pd c.frame c.frame_num).run s with
    | error e s' => exact .crash
    | ok fr s' =>
      cases ht : (fastEncap p.config id pd c.frame c.frame_num).run t with
      | error e t' => rw [hs, ht] at hag; exact hag.elim
      | ok fr' t' =>
        rw [hs, ht] at hag
        obtain ⟨rfl, hst'⟩ := hag
        cases fr with
        | none => exact .stop hst'.calls
        | some fr =>
          rcases fastNext_select h hleaf with ⟨ret, hsel, hfast⟩ | ⟨next, hsel, hfast⟩
          · rw [hsel, hfast]
            exact .stop hst'.calls
          · have hzero : ¬ ((c.advance pd hlen (some next) fr).len = 0 ∧ n.zero_len_ok = true) :=
              fun hz => h.zero (some next) fr hsel hz.2 hz.1
            have hfound : (foundNext n pd hlen c (some next) fr).run s' =
                .ok (.next (c.advance pd hlen (some next) fr)) (s'.advance pd hlen) := by
              rw [foundNext, run_bind, run_modify]
              simp only [if_neg hzero]
              rfl
            rw [hsel, hfast]
            simp only [pure_bind, hfound]
            exact .next (hst'.advance pd hlen)

theorem visit_fastVisit (hg : p.graph.Oblivious) (hat : p.config.atencap_node = none)
    (h : StepAgrees p fuel c s) (hst : SameRun s t) :
    SameStep ((visit p fuel c).run s) ((fastVisit p fuel c).run t) := by
  rw [visit, fastVisit]
  cases hid : c.parse_node with
  | none => exact .crash
  | some id =>
    rw [run_bind_ok (show (deref (some id)).run s = .ok id s from rfl),
      run_bind_ok (show (deref (some id)).run t = .ok id t from rfl)]
    dsimp only
    cases hpd : (p.graph.node id).proto_def with
    | none => exact .crash
    | some pd =>
      rw [run_bind_ok (show (deref (some pd)).run s = .ok pd s from rfl),
        run_bind_ok (show (deref (some pd)).run t = .ok pd t from rfl), run_bind, run_modify]
      have h := h id pd hid hpd
      rw [fastHeaderLen_eq h.minLen]
      cases hlen : headerLen pd c.hdr c.len with
      | error ret => exact .stop (hst.atNode id).calls
      | ok hl =>
        have hproc := h.proceed hl
        dsimp only
        rw [processNode_eq_fast p.graph hpd (h.valid hl hlen) fun an d => h.noArray hl an d hlen]
          at hproc ⊢
        have hag : AgreeOn SameRun
            ((fastProcess p.graph fuel id (p.graph.node id) pd c.hdr (usize hl) c.frame).run
              (s.atNode id))
            ((fastProcess p.graph fuel id (p.graph.node id) pd c.hdr (usize hl) c.frame).run t) :=
          fastProcess_agree hg id pd c.hdr (usize hl) c.frame _ _ (hst.atNode id)
        rw [run_bind, run_bind]
        cases hs : (fastProcess p.graph fuel id (p.graph.node id) pd c.hdr (usize hl) c.frame).run
            (s.atNode id) with
        | error e s' => exact .crash
        | ok ret s' =>
          cases ht : (fastProcess p.graph fuel id (p.graph.node id) pd c.hdr (usize hl)
              c.frame).run t with
          | error e t' => rw [hs, ht] at hag; exact hag.elim
          | ok ret' t' =>
            rw [hs, ht] at hag
            obtain ⟨rfl, hst'⟩ := hag
            dsimp only
            by_cases hret : ret ≠ Code.okay
            · rw [if_pos hret, if_pos hret]
              exact .stop hst'.calls
            · rw [if_neg hret, if_neg hret]
              have hkey : pd.ops.next_proto_keyin = none := by
                have hv := h.valid hl hlen
                simp only [fastNodeOk, hpd, Bool.and_eq_true, Option.isNone_iff_eq_none] at hv
                exact hv.2.1
              rw [not_not.mp hret] at hs
              exact proceed_fastProceed id hat hkey (hproc s' hlen hs) hst'

/-! ## The walk -/

theorem fast_of_walk (hg : p.graph.Oblivious) (hat : p.config.atencap_node = none) :
    ∀ {nodes steps : Nat} {c : Cursor} {s t : St α}, nodes < steps →
      (∀ c' s', Reaches p fuel c s c' s' → StepAgrees p fuel c' s') → SameRun s t →
      (walk p fuel nodes c).run s = .ok (.out ret frame) s' →
      ∃ t', (fastWalk p fuel steps c).run t = .ok ret t' ∧ calls t'.log = calls s'.log := by
  intro nodes
  induction nodes with
  | zero =>
    intro steps c s t hlt hall hst hrun
    obtain ⟨steps, rfl⟩ : ∃ k, steps = k + 1 := ⟨steps - 1, by omega⟩
    have hstep := visit_fastVisit hg hat (hall c s (.refl c s)) hst
    rw [walk, run_bind] at hrun
    rw [fastWalk, run_bind]
    cases hv : (visit p fuel c).run s with
    | error e s1 => rw [hv] at hrun; cases hrun
    | ok v s1 =>
      rw [hv] at hstep hrun
      generalize (fastVisit p fuel c).run t = r at hstep ⊢
      cases hstep with
      | stop hcalls => cases hrun; exact ⟨_, rfl, hcalls.symm⟩
      | next hst' => cases hrun
  | succ nodes ih =>
    intro steps c s t hlt hall hst hrun
    obtain ⟨steps, rfl⟩ : ∃ k, steps = k + 1 := ⟨steps - 1, by omega⟩
    have hstep := visit_fastVisit hg hat (hall c s (.refl c s)) hst
    rw [walk, run_bind] at hrun
    rw [fastWalk, run_bind]
    cases hv : (visit p fuel c).run s with
    | error e s1 => rw [hv] at hrun; cases hrun
    | ok v s1 =>
      rw [hv] at hstep hrun
      generalize (fastVisit p fuel c).run t = r at hstep ⊢
      cases hstep with
      | stop hcalls => cases hrun; exact ⟨_, rfl, hcalls.symm⟩
      | next hst' =>
        exact ih (by omega) (fun c' s' hr => hall c' s' (.step hv hr)) hst' hrun

end

theorem validate_special (h : xdp2ParseValidateFast p) :
    p.config.okay_node = none ∧ p.config.fail_node = none ∧ p.config.atencap_node = none := by
  simp only [xdp2ParseValidateFast, Bool.and_eq_true, Option.isNone_iff_eq_none] at h
  exact ⟨h.1.1.1.1.1, h.1.1.1.1.2, h.1.1.1.2⟩

/-- A leaf with a handler. -/
def handledNode : ParseNode Unit where
  proto_def := some emptyProto
  ops := { handler := some fun _ m => (Code.okay, m) }

/-- A node whose protocol table does not know the next protocol. -/
def unknownNode : ParseNode Unit where
  proto_def := some { min_len := 0, ops := { next_proto := some fun _ => 5 } }
  proto_table := some []

/-- A parser for a graph of one node. -/
def oneNodeParser (n : ParseNode Unit) : Parser Unit where
  config := { max_nodes := 4, max_encaps := 4, max_frames := 1 }
  root_node := 0
  graph := ⟨fun _ => n, fun _ => {}, fun _ => {}, fun _ => {}⟩

theorem handledNode_oblivious : (oneNodeParser handledNode).graph.Oblivious where
  node _ := ⟨(fun _ hf => by cases hf), (fun _ hf => by cases hf; exact fun _ _ _ _ _ => rfl)⟩
  tlv _ := ⟨(fun _ hf => by cases hf), (fun _ hf => by cases hf)⟩
  flagField _ := ⟨(fun _ hf => by cases hf), (fun _ hf => by cases hf)⟩
  arrel _ := ⟨(fun _ hf => by cases hf), (fun _ hf => by cases hf)⟩

theorem handledNode_stepAgrees (fuel : Nat) (c : Cursor) (s : St Unit) :
    StepAgrees (oneNodeParser handledNode) fuel c s := by
  intro id pd _ hpd
  cases hpd
  exact
    { minLen := fun f hf => by cases hf
      valid := fun _ _ => rfl
      noArray := fun _ an d _ hn => by cases hn
      proceed := fun _ _ _ _ =>
        { leaf := fun _ he => by cases he
          table := fun hl => by cases hl
          miss := fun _ _ ht => by cases ht
          zero := fun _ _ _ hz => by cases hz } }

end Xdp2
