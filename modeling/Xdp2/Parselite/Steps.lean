import Xdp2.Parselite.Parse

/-!
# What a step of the parselite parser does

`Went` says once what is known of the state a case of a switch goes to: the parser has gone on over
a header it has read, or is at the same place, behind an IPv4 header with no length or with an IP
protocol as an EtherType. All that is said of whole parses is derived from that.
-/

namespace Xdp2

open Reading

variable {cfg : ParseliteConfig} {m : Bytes} {s : ParseliteState} {metadata : ParseliteMetadata}

/-- An IPv4 header in an IPv4 header, with no length: `ihl` is zero and the protocol is `IPPROTO_IPIP`. It is read
to its end and is not a fragment at which the parser stops. -/
structure ParseliteState.Stuck (cfg : ParseliteConfig) (m : Bytes) (s : ParseliteState) : Prop where
  label : s.label = .switchEtherType
  eth_proto : s.metadata.eth_proto = ethPIp
  len : 20 ≤ s.len
  ihl : ∃ ver_ihl, run m (byte s.hdr) = some ver_ihl ∧ ver_ihl % 16 = 0
  protocol : run m (byte (s.hdr + 9)) = some ipprotoIpip
  frag_off : ∃ frag_off, run m (be16 (s.hdr + 6)) = some frag_off ∧
    ¬ (frag_off &&& 0x3fff ≠ 0 ∧ (cfg.flags &&& parseliteFParse1stfrag = 0 ∨ frag_off &&& 0x1fff ≠ 0))
  tos : Safe m (byte (s.hdr + 1))
  ttl : Safe m (byte (s.hdr + 8))
  addrs : Safe m (bytes (s.hdr + 12) 8)

/-- The entry behind an entropy label is not all in the packet. -/
def ParseliteState.MplsPeek (m : Bytes) (s : ParseliteState) : Prop :=
  s.label = .switchEtherType ∧ etherCase s.metadata.eth_proto = .mpls ∧ 4 ≤ s.len ∧ s.len < 8 ∧
    ∃ entry, run m (be32 s.hdr) = some entry ∧ mplsLabel entry = mplsLabelEntropy

/-- The key of a GRE header is not all in the packet, where the parser looks for it. -/
def ParseliteState.GrePeek (cfg : ParseliteConfig) (m : Bytes) (s : ParseliteState) : Prop :=
  (∃ ip_proto, s.label = .switchIpProto ip_proto ∧ ipCase ip_proto = .gre) ∧ 4 ≤ s.len ∧
    ∃ flags, run m (be16 s.hdr) = some flags ∧ flags &&& greRouting = 0 ∧ flags &&& greKey ≠ 0 ∧
      ((greVersion cfg.littleEndian flags = 0 ∧ 4 + greV0FlagsLength flags greAllFlags ≤ s.len ∧
          s.len < 4 + greV0FlagsLength flags greAllFlags + greV0FlagsLength flags greKeyOmask + 4) ∨
        (greVersion cfg.littleEndian flags = 1 ∧ run m (be16 (s.hdr + 2)) = some greProtoPpp ∧
          4 + greV1FlagsLength flags greAllFlags ≤ s.len ∧
          s.len < 4 + greV1FlagsLength flags greAllFlags + greV1FlagsLength flags greKeyOmask + 4))

/-- The parser reads behind the packet. -/
def ParseliteState.PeeksBehind (cfg : ParseliteConfig) (m : Bytes) (s : ParseliteState) : Prop :=
  s.MplsPeek m ∨ s.GrePeek cfg m

/-- `hdr += hlen; len -= hlen`. -/
structure ParseliteState.Moved (s : ParseliteState) (hlen : Nat) (s' : ParseliteState) : Prop where
  hdr : s'.hdr = s.hdr + hlen
  len : s'.len = (s.len + 2 ^ 64 - hlen) % 2 ^ 64

/-- What is known of the state a switch goes to. -/
inductive ParseliteState.Went (cfg : ParseliteConfig) (m : Bytes) (s s' : ParseliteState) : Prop
  | onward (hlen : Nat) : s.Moved hlen s' → 0 < hlen → (∃ addr, s.hdr ≤ addr ∧ (m addr).isSome) →
      (hlen ≤ s.len ∨ s.GrePeek cfg m) → s.Went cfg m s'
  | noLength (ip_proto : Nat) : s.Moved 0 s' → s.label = .switchEtherType → s.metadata.eth_proto = ethPIp →
      s'.label = .switchIpProto ip_proto → (ip_proto = ipprotoIpip → s.Stuck cfg m) → s.Went cfg m s'
  | etherType (ip_proto : Nat) : s.Moved 0 s' → s.label = .switchIpProto ip_proto →
      s'.label = .switchEtherType → (ipCase ip_proto = .ipip ↔ s'.metadata.eth_proto = ethPIp) →
      s.Went cfg m s'

/-- A step that goes on goes to a state with a property. -/
def GoesTo (P : ParseliteState → Prop) (next : ParseliteState ⊕ ParseliteResult) : Prop :=
  ∀ s', next = .inl s' → P s'

theorem gives_doReturn : Gives m (doReturn ret metadata) (GoesTo P) :=
  gives_pure fun _ h => by cases h

theorem gives_goTo (h : P ⟨label, s.hdr + hlen, (s.len + 2 ^ 64 - hlen) % 2 ^ 64, metadata⟩) :
    Gives m (goTo label s hlen metadata) (GoesTo P) :=
  gives_pure fun _ heq => by
    cases heq
    exact h

theorem ParseliteState.Went.over {label : ParseliteLabel} {hlen addr : Nat} (hpos : 0 < hlen)
    (haddr : s.hdr ≤ addr) (hread : (m addr).isSome) (hlen' : ¬ s.len < hlen) :
    s.Went cfg m ⟨label, s.hdr + hlen, (s.len + 2 ^ 64 - hlen) % 2 ^ 64, metadata⟩ :=
  .onward hlen ⟨rfl, rfl⟩ hpos ⟨addr, haddr, hread⟩ (.inl (Nat.le_of_not_lt hlen'))

/-! ## EtherTypes -/

theorem caseIp_went (hlabel : s.label = .switchEtherType) (heth : s.metadata.eth_proto = ethPIp) :
    Gives m (caseIp cfg.flags s) (GoesTo (s.Went cfg m)) := by
  refine gives_ite (fun _ => gives_doReturn) fun hlen => gives_bind (gives_byte fun ver_ihl hsome hihl => ?_)
  refine gives_ite (fun _ => gives_doReturn) fun hlen' => gives_bind (gives_of_run fun ip_proto hproto => ?_)
  refine gives_bind (gives_of_run fun frag_off hfrag => ?_)
  refine gives_bind (gives_of_run fun tos htos => gives_bind (gives_of_run fun ttl httl => ?_))
  refine gives_bind (gives_of_run fun addrs haddrs => ?_)
  have hgoes : ∀ metadata, ¬ (frag_off &&& 0x3fff ≠ 0 ∧
        (cfg.flags &&& parseliteFParse1stfrag = 0 ∨ frag_off &&& 0x1fff ≠ 0)) →
      Gives m (goTo (.switchIpProto ip_proto) s (ver_ihl % 16 * 4) metadata) (GoesTo (s.Went cfg m)) := by
    intro metadata hgo
    refine gives_goTo ?_
    rcases Nat.eq_zero_or_pos (ver_ihl % 16) with hzero | hpos
    · rw [hzero, Nat.zero_mul]
      refine .noLength ip_proto ⟨rfl, rfl⟩ hlabel heth rfl fun hipip => ?_
      exact ⟨hlabel, heth, Nat.le_of_not_lt hlen, ⟨ver_ihl, hihl, hzero⟩, hipip ▸ hproto, ⟨frag_off, hfrag, hgo⟩,
        Option.isSome_of_eq_some htos, Option.isSome_of_eq_some httl, Option.isSome_of_eq_some haddrs⟩
    · exact .over (by omega) (Nat.le_refl _) hsome hlen'
  refine gives_ite (fun hf => gives_ite (fun _ => gives_doReturn) fun hno => ?_) fun hno => ?_
  · exact hgoes _ fun h => hno h.2
  · exact hgoes _ fun h => hno h.1

theorem caseIpv6_went : Gives m (caseIpv6 cfg.flags s) (GoesTo (s.Went cfg m)) := by
  refine gives_ite (fun _ => gives_doReturn) fun hlen => gives_bind (gives_byte fun nexthdr hsome _ => ?_)
  refine gives_bind (gives_of_run fun word _ => gives_bind (gives_of_run fun dsfield _ => ?_))
  refine gives_bind (gives_of_run fun hop_limit _ => gives_bind (gives_of_run fun addrs _ => ?_))
  exact gives_ite (fun _ => gives_doReturn) fun _ =>
    gives_goTo (.over (by decide) (Nat.le_add_right _ 6) hsome hlen)

theorem caseVlan_went : Gives m (caseVlan s) (GoesTo (s.Went cfg m)) := by
  refine gives_ite (fun _ => gives_doReturn) fun hlen => gives_bind (gives_be16 fun tci hsome _ => ?_)
  refine gives_bind (gives_of_run fun proto _ => ?_)
  exact gives_goTo (.over (by decide) (Nat.le_refl _) hsome hlen)

theorem caseBatman_went : Gives m (caseBatman s) (GoesTo (s.Went cfg m)) := by
  refine gives_ite (fun _ => gives_doReturn) fun hlen => gives_bind (gives_byte fun version hsome _ => ?_)
  refine gives_bind (gives_of_run fun packet_type _ => gives_ite (fun _ => gives_doReturn) fun _ => ?_)
  refine gives_bind (gives_of_run fun proto _ => ?_)
  exact gives_goTo (.over (by decide) (Nat.le_add_right _ 1) hsome hlen)

theorem casePppSes_went : Gives m (casePppSes s) (GoesTo (s.Went cfg m)) := by
  refine gives_ite (fun _ => gives_doReturn) fun hlen => gives_bind (gives_be16 fun proto hsome _ => ?_)
  have hover : ∀ metadata, Gives m (goTo .switchEtherType s 8 metadata) (GoesTo (s.Went cfg m)) := fun _ =>
    gives_goTo (.over (by decide) (Nat.le_add_right _ 6) hsome hlen)
  exact gives_ite (fun _ => hover _) fun _ => gives_ite (fun _ => hover _) fun _ => gives_doReturn

/-! ## IP protocols -/

theorem caseOptions_went : Gives m (caseOptions s) (GoesTo (s.Went cfg m)) := by
  refine gives_ite (fun _ => gives_doReturn) fun _ => gives_ite (fun _ => gives_doReturn) fun _ => ?_
  refine gives_bind (gives_byte fun hdrlen hsome _ => gives_ite (fun _ => gives_doReturn) fun hlen => ?_)
  refine gives_bind (gives_of_run fun nexthdr _ => ?_)
  exact gives_goTo (.over (by omega) (Nat.le_add_right _ 1) hsome hlen)

theorem caseFragment_went : Gives m (caseFragment cfg.flags s) (GoesTo (s.Went cfg m)) := by
  refine gives_ite (fun _ => gives_doReturn) fun _ => gives_ite (fun _ => gives_doReturn) fun hlen => ?_
  refine gives_bind (gives_be16 fun frag_off hsome _ => gives_ite (fun _ => gives_doReturn) fun _ => ?_)
  refine gives_bind (gives_of_run fun nexthdr _ => ?_)
  exact gives_goTo (.over (by decide) (Nat.le_add_right _ 2) hsome hlen)

theorem greV0Inner_went (hpos : 0 < hlen) (hlen' : ¬ s.len < hlen) (hsome : (m s.hdr).isSome) :
    Gives m (greV0Inner hlen s metadata) (GoesTo (s.Went cfg m)) := by
  refine gives_ite (fun _ => gives_ite (fun _ => gives_doReturn) fun hteb => ?_) fun _ => ?_
  · exact gives_goTo (.over (by omega) (Nat.le_refl _) hsome (by omega))
  · exact gives_goTo (.over hpos (Nat.le_refl _) hsome hlen')

theorem caseGreV0_went (hsome : (m s.hdr).isSome) :
    Gives m (caseGreV0 flags s) (GoesTo (s.Went cfg m)) := by
  refine gives_ite (fun _ => gives_doReturn) fun hlen => gives_bind (gives_of_run fun protocol _ => ?_)
  refine gives_ite (fun _ => gives_bind (gives_of_run fun keyid _ => ?_)) fun _ => ?_
  · exact greV0Inner_went (by omega) hlen hsome
  · exact greV0Inner_went (by omega) hlen hsome

theorem caseGreV1_went (hsome : (m s.hdr).isSome) (hflags : run m (be16 s.hdr) = some flags)
    (hlabel : ∃ ip_proto, s.label = .switchIpProto ip_proto ∧ ipCase ip_proto = .gre)
    (hlen : ¬ s.len < 4) (hrouting : flags &&& greRouting = 0)
    (hversion : greVersion cfg.littleEndian flags = 1) :
    Gives m (caseGreV1 flags s) (GoesTo (s.Went cfg m)) := by
  refine gives_bind (gives_of_run fun protocol hprotocol => gives_ite (fun _ => gives_doReturn) fun hkey => ?_)
  refine gives_ite (fun _ => gives_doReturn) fun hlen' => gives_bind (gives_of_run fun keyid _ => ?_)
  refine gives_bind (gives_of_run fun proto _ => ?_)
  obtain ⟨rfl, hkeyflag⟩ := not_not.mp hkey
  -- where the PPP header is not all in the packet, neither is the key
  have hover : ∀ metadata, Gives m
      (goTo .switchEtherType s (4 + greV1FlagsLength flags greAllFlags + pppHdrlen) metadata)
      (GoesTo (s.Went cfg m)) := by
    intro metadata
    refine gives_goTo (.onward _ ⟨rfl, rfl⟩ (by omega) ⟨s.hdr, Nat.le_refl _, hsome⟩ ?_)
    rcases Nat.lt_or_ge s.len (4 + greV1FlagsLength flags greAllFlags + pppHdrlen) with hshort | hle
    · right
      refine ⟨hlabel, Nat.le_of_not_lt hlen, flags, hflags, hrouting, hkeyflag,
        .inr ⟨hversion, hprotocol, Nat.le_of_not_lt hlen', ?_⟩⟩
      have hppp : pppHdrlen = 4 := rfl
      omega
    · exact .inl hle
  exact gives_ite (fun _ => hover _) fun _ => gives_ite (fun _ => hover _) fun _ => gives_doReturn

theorem caseGre_went (hlabel : ∃ ip_proto, s.label = .switchIpProto ip_proto ∧ ipCase ip_proto = .gre) :
    Gives m (caseGre cfg.littleEndian s) (GoesTo (s.Went cfg m)) := by
  refine gives_ite (fun _ => gives_doReturn) fun hlen => gives_bind (gives_be16 fun flags hsome hflags => ?_)
  refine gives_ite (fun _ => gives_doReturn) fun hrouting => ?_
  refine gives_ite (fun _ => caseGreV0_went hsome) fun _ => gives_ite (fun hversion => ?_) fun _ => gives_doReturn
  exact caseGreV1_went hsome hflags hlabel hlen (not_not.mp hrouting) hversion

theorem caseEtherType_went (hlabel : s.label = .switchIpProto ip_proto)
    (heth : ipCase ip_proto = .ipip ↔ eth_proto = ethPIp) :
    Gives m (caseEtherType eth_proto s) (GoesTo (s.Went cfg m)) :=
  gives_goTo (.etherType ip_proto ⟨rfl, rfl⟩ hlabel rfl heth)

/-! ## Cases that return -/

theorem caseMpls_returns : Gives m (caseMpls s) (GoesTo P) :=
  gives_ite (fun _ => gives_doReturn) fun _ => gives_bind (gives_of_run fun _ _ =>
    gives_ite (fun _ => gives_bind (gives_of_run fun _ _ => gives_doReturn)) fun _ => gives_doReturn)

theorem caseArp_returns : Gives m (caseArp s) (GoesTo P) := by
  refine gives_ite (fun _ => gives_doReturn) fun _ => gives_bind (gives_of_run fun ar_hrd _ => ?_)
  refine gives_bind (gives_of_run fun ar_pro _ => gives_bind (gives_of_run fun ar_hln _ => ?_))
  refine gives_bind (gives_of_run fun ar_pln _ => gives_bind (gives_of_run fun ar_op _ => ?_))
  refine gives_ite (fun _ => gives_doReturn) fun _ => gives_bind (gives_of_run fun sha _ => ?_)
  refine gives_bind (gives_of_run fun tha _ => gives_bind (gives_of_run fun sip _ => ?_))
  exact gives_bind (gives_of_run fun tip _ => gives_doReturn)

theorem caseTipc_returns : Gives m (caseTipc rand s) (GoesTo P) :=
  gives_ite (fun _ => gives_doReturn) fun _ => gives_bind (gives_of_run fun _ _ =>
    gives_ite (fun _ => gives_doReturn) fun _ => gives_bind (gives_of_run fun _ _ => gives_doReturn))

theorem caseTcp_returns : Gives m (caseTcp s) (GoesTo P) :=
  gives_ite (fun _ => gives_doReturn) fun _ => gives_bind (gives_of_run fun _ _ =>
    gives_ite (fun _ => gives_doReturn) fun _ => gives_bind (gives_of_run fun _ _ =>
      gives_bind (gives_of_run fun _ _ => gives_doReturn)))

theorem casePorts_returns :
    Gives m (casePorts hlen unlessFragment s) (GoesTo P) :=
  gives_ite (fun _ => gives_doReturn) fun _ => gives_ite (fun _ => gives_doReturn) fun _ =>
    gives_bind (gives_of_run fun _ _ => gives_doReturn)

theorem caseIcmp_returns : Gives m (caseIcmp littleEndian s) (GoesTo P) :=
  gives_ite (fun _ => gives_doReturn) fun _ => gives_bind (gives_of_run fun _ _ =>
    gives_bind (gives_of_run fun _ _ =>
      gives_ite (fun _ => gives_bind (gives_of_run fun _ _ => gives_doReturn)) fun _ => gives_doReturn))

/-! ## A step -/

theorem etherCase_ip (h : etherCase eth_proto = .ip) : eth_proto = ethPIp := by
  by_contra hne
  rw [etherCase, if_neg hne] at h
  simp only [ite_eq_iff, reduceCtorEq, and_false, or_self] at h

/-- **All that a step can do** when it goes on. -/
theorem parseliteStep_went (h : run m (parseliteStep cfg s) = some (.inl s')) : s.Went cfg m s' := by
  have hgives : Gives m (parseliteStep cfg s) (GoesTo (s.Went cfg m)) := by
    unfold parseliteStep
    cases hlabel : s.label with
    | switchEtherType =>
      dsimp only
      cases hcase : etherCase s.metadata.eth_proto with
      | ip => exact caseIp_went hlabel (etherCase_ip hcase)
      | ipv6 => exact caseIpv6_went
      | vlan => exact caseVlan_went
      | mpls => exact caseMpls_returns
      | arp => exact caseArp_returns
      | tipc => exact caseTipc_returns
      | batman => exact caseBatman_went
      | fcoe => exact gives_doReturn
      | pppSes => exact casePppSes_went
      | other => exact gives_doReturn
    | switchIpProto ip_proto =>
      dsimp only
      cases hcase : ipCase ip_proto with
      | options => exact caseOptions_went
      | fragment => exact caseFragment_went
      | tcp => exact caseTcp_returns
      | udp => exact casePorts_returns
      | sctp => exact casePorts_returns
      | dccp => exact casePorts_returns
      | gre => exact caseGre_went ⟨ip_proto, hlabel, hcase⟩
      | icmp => exact caseIcmp_returns
      | igmp => exact gives_doReturn
      | mpls => exact caseEtherType_went hlabel (by rw [hcase]; decide)
      | ipip => exact caseEtherType_went hlabel (by rw [hcase]; decide)
      | ipv6 => exact caseEtherType_went hlabel (by rw [hcase]; decide)
      | other => exact gives_doReturn
  exact hgives _ h _ rfl

end Xdp2
