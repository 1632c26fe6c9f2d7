import Xdp2.Parser.VisitSpec

/-!
# Stop codes of handlers

A handler may return a `XDP2_STOP_*` code to end the parse. That of a TLV handler does; those of the
other handlers are dropped. So stop codes are honoured in every run in which only TLV handlers
return one (`stopsHonoured_of_tlv_only`).
-/

namespace Xdp2

open StateError

variable {α : Type}

/-- The callbacks whose code is to be honoured: those of protocol nodes and of what their headers
contain. -/
def Role.isParse : Role → Bool
  | .node _ | .tlv _ | .flagField _ | .arrel _ => true
  | .atencap _ | .exit _ => false

/-- Stop codes are honoured in the outcome of a parse: after a callback that returned one there are
only callbacks of the exit node, and the code is the result. -/
def StopsHonoured (r : EStateM.Result Err (St α) Int) : Prop :=
  ∀ pre k post, (final r).log = pre ++ .call k :: post → k.role.isParse → Code.IsStop k.ret →
    (∃ s', r = .ok k.ret s') ∧ ∀ e ∈ post, ∃ k' a, e = .call k' ∧ k'.role = .exit a

/-- A callback returned a stop code only if it is one of a TLV handler. -/
def OnlyTlvStops (log : List Event) : Prop :=
  ∀ k ∈ calls log, k.role.isParse → ¬ k.role.isTlv → ¬ Code.IsStop k.ret

/-- A callback that has not stopped the walk: if it is one of a TLV, it returned `XDP2_OKAY`. -/
def QuietTlv (_ : List Event) (k : Call) : Prop := k.role.isTlv → k.ret = Code.okay

/-- Where the walk stops: no TLV callback has stopped it, or the last one has, with the walk's
code. -/
def StopEnd (ret : Int) (s : St α) : Prop :=
  EachCall QuietTlv s.log ∨
    ∃ l k, s.log = l ++ [.call k] ∧ EachCall QuietTlv l ∧ k.role.isTlv ∧ k.ret = ret

section
variable {p : Parser α} {c : Cursor} {s s1 : St α} {id : NodeId} {pd : ProtoDef} {hlen : Nat}

theorem Processed.quietTlv (h : Processed parseLoop p c s id pd hlen s1)
    (hq : EachCall QuietTlv s.log) : EachCall QuietTlv s1.log :=
  (parseLoop.eachCall hq id).moves (fun _ _ _ h => h) h.moves fun _ hk => hk.quiet

theorem visit_quietTlv (fuel : Nat) (hq : EachCall QuietTlv s.log) :
    VisitSat (fun ret _ s => StopEnd ret s) (fun _ s => EachCall QuietTlv s.log)
      (fun s => EachCall QuietTlv s.log) ((visit p fuel c).run s) := by
  have hout := visit_outcome p fuel c s
  generalize (visit p fuel c).run s = r at hout ⊢
  cases hout with
  | null => exact hq
  | short hid hpd hlen => exact .inl (parseLoop.eachCall hq _)
  | crash h => exact h.quietTlv hq
  | stop h => exact .inl (h.quietTlv hq)
  | handler h hc hret hlog henc hcode => exact .inr ⟨_, _, hlog, h.quietTlv hq, hc.tlv, rfl⟩
  | tooDeep h henc hgt => exact .inl ((h.quietTlv hq).countEncap _ _)
  | noKey h hent => exact hent.eachCall (h.quietTlv hq)
  | unknown h hent => exact .inl (hent.eachCall (h.quietTlv hq))
  | zeroLen h hent => exact .inl ((hent.eachCall (h.quietTlv hq)).advance _ _)
  | next h hent => exact (hent.eachCall (h.quietTlv hq)).advance _ _

end

theorem EachCall.not_stop (h : EachCall QuietTlv log) (heq : log = pre ++ .call k :: post)
    (htlv : k.role.isTlv) : ¬ Code.IsStop k.ret := by
  rw [h pre k post heq htlv]
  decide

theorem StopEnd.honoured (h : StopEnd ret s) (hex : Exited p ret frame s s')
    (honly : OnlyTlvStops s'.log) :
    StopsHonoured (.ok ret s' : EStateM.Result Err (St α) Int) := by
  obtain ⟨es, hl, hes⟩ := hex.calls
  intro pre k post heq hparse hstop
  have hmem : .call k ∈ s'.log := by
    have : s'.log = pre ++ .call k :: post := heq
    rw [this]
    simp
  have htlv : k.role.isTlv := by
    by_contra hne
    exact honly k (mem_calls.2 hmem) hparse hne hstop
  have hexit : ∀ e ∈ es, ∃ k' a, e = .call k' ∧ k'.role = .exit a := by
    intro e he
    obtain ⟨k', rfl, hk'⟩ := hes e he
    obtain ⟨a, -, ha⟩ := hk'.role
    exact ⟨k', a, rfl, ha⟩
  have hnot : .call k ∉ es := by
    intro he
    obtain ⟨k', a, hk', ha⟩ := hexit _ he
    cases hk'
    rw [ha] at htlv
    cases htlv
  obtain ⟨post', hs, rfl⟩ := split_append (hl.symm.trans heq) hnot
  rcases h with hq | ⟨l, k0, hl0, hq, -, hret⟩
  · exact absurd hstop (hq.not_stop hs htlv)
  · -- the callback is the one that stopped the walk: before it there is no stop code
    rw [hl0] at hs
    rcases List.eq_nil_or_concat post' with rfl | ⟨post1, e, rfl⟩
    · obtain ⟨-, hk⟩ := List.append_inj' hs rfl
      cases hk
      exact ⟨⟨s', by rw [hret]⟩, by simpa using hexit⟩
    · rw [List.concat_eq_append, ← List.cons_append, ← List.append_assoc] at hs
      obtain ⟨hl1, -⟩ := List.append_inj' hs rfl
      exact absurd hstop (hq.not_stop hl1 htlv)

/-- **Stop codes of TLV handlers are honoured**: in every run in which no other handler returns a
stop code, a stop code ends the parse. -/
theorem stopsHonoured_of_tlv_only (p : Parser α) (fuel : Nat) (pkt : Packet) (var : CtrlVar)
    (mem : UserMem α)
    (honly : OnlyTlvStops (final ((xdp2Parse p fuel pkt).run (.start var mem))).log) :
    StopsHonoured ((xdp2Parse p fuel pkt).run (.start var mem)) := by
  have hw := walk_rule (p := p) (I := fun _ s => EachCall QuietTlv s.log)
    (fun c s hq => visit_quietTlv fuel hq) p.config.max_nodes.toNat (.init p pkt)
    (.start var mem) .nil
  -- where no TLV callback has stopped the walk there is no stop code at all
  have hquiet : ∀ r : EStateM.Result Err (St α) Int, EachCall QuietTlv (final r).log →
      OnlyTlvStops (final r).log → StopsHonoured r := by
    intro r hq honly pre k post heq hparse hstop
    by_cases htlv : k.role.isTlv
    · exact absurd hstop (hq.not_stop heq htlv)
    · exact absurd hstop (honly k (mem_calls.2 (by rw [heq]; simp)) hparse htlv)
  exact parse_rule (R := fun r => OnlyTlvStops (final r).log → StopsHonoured r) hw
    (fun e s' hq => hquiet (.error e s') hq) (fun s' ⟨_, hq⟩ => hquiet (.ok _ s') hq)
    (fun _ _ _ _ hend hex => hend.honoured hex) honly

/-! ## A TLV handler that stops, and a node handler that does not -/

/-- A list of one byte TLVs, all of the same type. -/
def byteTlvs : ProtoTlvsDef := { type := fun _ => 0, start_offset := fun _ => 0, min_len := 1 }

/-- A node whose header is a list of one byte TLVs, and behind it a leaf with a handler. Both TLVs
have the same node, whose handler returns `XDP2_STOP_FAIL`. -/
def tlvGraph : Graph Unit where
  node
    | 0 => { node_type := .tlvs { tlv_wildcard_node := some 0 }
             proto_def := some { min_len := 2, node_type := .tlvs byteTlvs }
             wildcard_node := some 1 }
    | _ => { proto_def := some { min_len := 0 }
             ops := { handler := some fun _ mem => (Code.okay, mem) } }
  tlv _ := { tlv_ops := { handler := some fun _ mem => (Code.stopFail, mem) } }
  flagField _ := {}
  arrel _ := {}

/-- The configuration of both examples. -/
def stopConfig : Config := { max_nodes := 10, max_encaps := 4, max_frames := 1 }

/-- Two bytes. -/
def twoBytes : Packet := ⟨fun _ => 0, 2, by decide⟩

/-- The first TLV ends the parse with its handler's code. -/
theorem tlv_stop_honoured :
    OnlyTlvStops (final ((xdp2Parse ⟨stopConfig, 0, tlvGraph⟩ 10 twoBytes).run
        (.start .zero ⟨[], [], [], ()⟩))).log ∧
      StopsHonoured ((xdp2Parse ⟨stopConfig, 0, tlvGraph⟩ 10 twoBytes).run
        (.start .zero ⟨[], [], [], ()⟩)) := by
  have honly : OnlyTlvStops (final ((xdp2Parse ⟨stopConfig, 0, tlvGraph⟩ 10 twoBytes).run
      (.start .zero ⟨[], [], [], ()⟩))).log := by
    have hlog : calls (final ((xdp2Parse ⟨stopConfig, 0, tlvGraph⟩ 10 twoBytes).run
        (.start .zero ⟨[], [], [], ()⟩))).log =
        [⟨.tlv 0, .handler, some 0, 1, 0, Code.stopFail⟩] := rfl
    intro k hk _ hne
    rw [hlog] at hk
    obtain rfl := List.mem_singleton.1 hk
    exact absurd rfl hne
  exact ⟨honly, stopsHonoured_of_tlv_only _ _ _ _ _ honly⟩

/-- A node whose handler returns `XDP2_STOP_FAIL`, and behind it a leaf with a handler. -/
def handlerGraph : Graph Unit where
  node
    | 0 => { proto_def := some { min_len := 0 }
             ops := { handler := some fun _ mem => (Code.stopFail, mem) }
             wildcard_node := some 1 }
    | _ => { proto_def := some { min_len := 0 }
             ops := { handler := some fun _ mem => (Code.okay, mem) } }
  tlv _ := {}
  flagField _ := {}
  arrel _ := {}

/-- The handler's code is dropped: the leaf's handler is called and the parse returns
`XDP2_STOP_OKAY`. -/
theorem handler_stop_dropped :
    ¬ StopsHonoured ((xdp2Parse ⟨stopConfig, 0, handlerGraph⟩ 10 twoBytes).run
      (.start .zero ⟨[], [], [], ()⟩)) := by
  intro h
  have hret : (xdp2Parse ⟨stopConfig, 0, handlerGraph⟩ 10 twoBytes).run
      (.start .zero ⟨[], [], [], ()⟩) = .ok Code.stopOkay
        ⟨⟨some 1, -4, 0, 0⟩, ⟨[], [], [], ()⟩,
          [.node 0, .call ⟨.node 0, .handler, some 0, 0, 0, Code.stopFail⟩, .advance 0,
            .node 1, .call ⟨.node 1, .handler, some 0, 0, 0, Code.okay⟩]⟩ := rfl
  rw [hret] at h
  obtain ⟨⟨s', hs'⟩, -⟩ := h [.node 0] ⟨.node 0, .handler, some 0, 0, 0, Code.stopFail⟩
    [.advance 0, .node 1, .call ⟨.node 1, .handler, some 0, 0, 0, Code.okay⟩] rfl rfl (by decide)
  cases hs'

end Xdp2
