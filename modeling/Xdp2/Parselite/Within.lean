import Xdp2.Parselite.Ends

/-!
# What the parselite parser reads

The result depends on nothing but the packet just if the parser gets to no header at which it looks
behind it (`parseliteParse_same_iff`): an MPLS entropy label that ends the packet, or a GRE header
whose key, where the parser looks for it, is not all in the packet.
-/

namespace Xdp2

open Reading

variable {m : Bytes} {s : ParseliteState}

theorem safe_doReturn : Safe m (doReturn ret metadata) := rfl

theorem safe_goTo : Safe m (goTo label s hlen metadata) := rfl

/-! ## Reads in the packet -/

section
variable (hm : ∀ addr < s.hdr + s.len, (m addr).isSome)
include hm

theorem caseIp_safe : Safe m (caseIp flags s) := by
  refine safe_ite (fun _ => safe_doReturn) fun hlen => safe_bind (safe_byte hm (by omega)) fun ver_ihl _ => ?_
  refine safe_ite (fun _ => safe_doReturn) fun _ => safe_bind (safe_byte hm (by omega)) fun ip_proto _ => ?_
  refine safe_bind (safe_be16 hm (by omega)) fun frag_off _ => ?_
  refine safe_bind (safe_byte hm (by omega)) fun tos _ => safe_bind (safe_byte hm (by omega)) fun ttl _ => ?_
  refine safe_bind (safe_bytes hm (by omega)) fun addrs _ => ?_
  exact safe_ite (fun _ => safe_ite (fun _ => safe_doReturn) fun _ => safe_goTo) fun _ => safe_goTo

theorem caseIpv6_safe : Safe m (caseIpv6 flags s) := by
  refine safe_ite (fun _ => safe_doReturn) fun hlen => safe_bind (safe_byte hm (by omega)) fun nexthdr _ => ?_
  refine safe_bind (safe_be32 hm (by omega)) fun word _ => safe_bind (safe_be16 hm (by omega)) fun ds _ => ?_
  refine safe_bind (safe_byte hm (by omega)) fun hop_limit _ => ?_
  refine safe_bind (safe_bytes hm (by omega)) fun addrs _ => ?_
  exact safe_ite (fun _ => safe_doReturn) fun _ => safe_goTo

theorem caseVlan_safe : Safe m (caseVlan s) := by
  refine safe_ite (fun _ => safe_doReturn) fun hlen => safe_bind (safe_be16 hm (by omega)) fun tci _ => ?_
  exact safe_bind (safe_be16 hm (by omega)) fun proto _ => safe_goTo

theorem caseMpls_safe (hpeek : ¬ (4 ≤ s.len ∧ s.len < 8 ∧
    ∃ entry, run m (be32 s.hdr) = some entry ∧ mplsLabel entry = mplsLabelEntropy)) : Safe m (caseMpls s) := by
  refine safe_ite (fun _ => safe_doReturn) fun hlen => safe_bind (safe_be32 hm (by omega)) fun entry hentry => ?_
  refine safe_ite (fun hlabel => ?_) fun _ => safe_doReturn
  have hnext : 8 ≤ s.len := by
    by_contra hshort
    exact hpeek ⟨Nat.le_of_not_lt hlen, Nat.lt_of_not_le hshort, entry, hentry, hlabel⟩
  exact safe_bind (safe_be32 hm (by omega)) fun next _ => safe_doReturn

theorem caseArp_safe : Safe m (caseArp s) := by
  refine safe_ite (fun _ => safe_doReturn) fun hlen => safe_bind (safe_be16 hm (by omega)) fun ar_hrd _ => ?_
  refine safe_bind (safe_be16 hm (by omega)) fun ar_pro _ => safe_bind (safe_byte hm (by omega)) fun _ _ => ?_
  refine safe_bind (safe_byte hm (by omega)) fun ar_pln _ => safe_bind (safe_be16 hm (by omega)) fun _ _ => ?_
  refine safe_ite (fun _ => safe_doReturn) fun _ => safe_bind (safe_bytes hm (by omega)) fun sha _ => ?_
  refine safe_bind (safe_bytes hm (by omega)) fun tha _ => safe_bind (safe_bytes hm (by omega)) fun sip _ => ?_
  exact safe_bind (safe_bytes hm (by omega)) fun tip _ => safe_doReturn

theorem caseTipc_safe : Safe m (caseTipc rand s) := by
  refine safe_ite (fun _ => safe_doReturn) fun hlen => safe_bind (safe_be32 hm (by omega)) fun w0 _ => ?_
  refine safe_ite (fun _ => safe_doReturn) fun _ => ?_
  exact safe_bind (safe_bytes hm (by omega)) fun w3 _ => safe_doReturn

theorem caseBatman_safe : Safe m (caseBatman s) := by
  refine safe_ite (fun _ => safe_doReturn) fun hlen => safe_bind (safe_byte hm (by omega)) fun version _ => ?_
  refine safe_bind (safe_byte hm (by omega)) fun packet_type _ => safe_ite (fun _ => safe_doReturn) fun _ => ?_
  exact safe_bind (safe_be16 hm (by omega)) fun proto _ => safe_goTo

theorem casePppSes_safe : Safe m (casePppSes s) := by
  refine safe_ite (fun _ => safe_doReturn) fun hlen => safe_bind (safe_be16 hm (by omega)) fun proto _ => ?_
  exact safe_ite (fun _ => safe_goTo) fun _ => safe_ite (fun _ => safe_goTo) fun _ => safe_doReturn

theorem caseOptions_safe : Safe m (caseOptions s) := by
  refine safe_ite (fun _ => safe_doReturn) fun _ => safe_ite (fun _ => safe_doReturn) fun hlen => ?_
  refine safe_bind (safe_byte hm (by omega)) fun hdrlen _ => safe_ite (fun _ => safe_doReturn) fun _ => ?_
  exact safe_bind (safe_byte hm (by omega)) fun nexthdr _ => safe_goTo

theorem caseFragment_safe : Safe m (caseFragment flags s) := by
  refine safe_ite (fun _ => safe_doReturn) fun _ => safe_ite (fun _ => safe_doReturn) fun hlen => ?_
  refine safe_bind (safe_be16 hm (by omega)) fun frag_off _ => safe_ite (fun _ => safe_doReturn) fun _ => ?_
  exact safe_bind (safe_byte hm (by omega)) fun nexthdr _ => safe_goTo

theorem caseTcp_safe : Safe m (caseTcp s) := by
  refine safe_ite (fun _ => safe_doReturn) fun hlen => safe_bind (safe_byte hm (by omega)) fun doff _ => ?_
  refine safe_ite (fun _ => safe_doReturn) fun _ => safe_bind (safe_be32 hm (by omega)) fun ports _ => ?_
  exact safe_bind (safe_be16 hm (by omega)) fun word _ => safe_doReturn

theorem casePorts_safe (hports : 4 ≤ hlen) :
    Safe m (casePorts hlen unlessFragment s) := by
  refine safe_ite (fun _ => safe_doReturn) fun hlen' => safe_ite (fun _ => safe_doReturn) fun _ => ?_
  exact safe_bind (safe_be32 hm (by omega)) fun ports _ => safe_doReturn

theorem caseIcmp_safe : Safe m (caseIcmp littleEndian s) := by
  refine safe_ite (fun _ => safe_doReturn) fun hlen => safe_bind (safe_byte hm (by omega)) fun type _ => ?_
  refine safe_bind (safe_byte hm (by omega)) fun code _ => safe_ite (fun _ => ?_) fun _ => safe_doReturn
  exact safe_bind (safe_be16 hm (by omega)) fun id _ => safe_doReturn

theorem caseGreV0_safe
    (hkey : flags &&& greKey ≠ 0 → 4 + greV0FlagsLength flags greAllFlags ≤ s.len →
      4 + greV0FlagsLength flags greAllFlags + greV0FlagsLength flags greKeyOmask + 4 ≤ s.len) :
    Safe m (caseGreV0 flags s) := by
  refine safe_ite (fun _ => safe_doReturn) fun hlen' => safe_bind (safe_be16 hm (by omega)) fun protocol _ => ?_
  have hinner : ∀ hlen metadata, Safe m (greV0Inner hlen s metadata) := fun _ _ =>
    safe_ite (fun _ => safe_ite (fun _ => safe_doReturn) fun _ => safe_goTo) fun _ => safe_goTo
  refine safe_ite (fun hflag => ?_) fun _ => hinner _ _
  have hin := hkey hflag (Nat.le_of_not_lt hlen')
  exact safe_bind (safe_be32 hm (by omega)) fun keyid _ => hinner _ _

theorem caseGreV1_safe (hlen : 4 ≤ s.len)
    (hkey : run m (be16 (s.hdr + 2)) = some greProtoPpp → flags &&& greKey ≠ 0 →
      4 + greV1FlagsLength flags greAllFlags ≤ s.len →
      4 + greV1FlagsLength flags greAllFlags + greV1FlagsLength flags greKeyOmask + 4 ≤ s.len) :
    Safe m (caseGreV1 flags s) := by
  refine safe_bind (safe_be16 hm (by omega)) fun protocol hprotocol => ?_
  refine safe_ite (fun _ => safe_doReturn) fun hppp => safe_ite (fun _ => safe_doReturn) fun hlen' => ?_
  obtain ⟨rfl, hflag⟩ := not_not.mp hppp
  have hin := hkey hprotocol hflag (Nat.le_of_not_lt hlen')
  refine safe_bind (safe_be32 hm (by omega)) fun keyid _ => safe_bind (safe_be16 hm (by omega)) fun proto _ => ?_
  exact safe_ite (fun _ => safe_goTo) fun _ => safe_ite (fun _ => safe_goTo) fun _ => safe_doReturn

theorem caseGre_safe (hlabel : s.label = .switchIpProto ip_proto) (hcase : ipCase ip_proto = .gre)
    (hpeek : ¬ s.GrePeek cfg m) : Safe m (caseGre cfg.littleEndian s) := by
  refine safe_ite (fun _ => safe_doReturn) fun hlen => safe_bind (safe_be16 hm (by omega)) fun flags hflags => ?_
  refine safe_ite (fun _ => safe_doReturn) fun hrouting => safe_ite (fun hversion => ?_) fun _ =>
    safe_ite (fun hversion => ?_) fun _ => safe_doReturn
  · refine caseGreV0_safe hm fun hkey hle => ?_
    by_contra hshort
    exact hpeek ⟨⟨ip_proto, hlabel, hcase⟩, Nat.le_of_not_lt hlen, flags, hflags, not_not.mp hrouting, hkey,
      .inl ⟨hversion, hle, Nat.lt_of_not_le hshort⟩⟩
  · refine caseGreV1_safe hm (Nat.le_of_not_lt hlen) fun hppp hkey hle => ?_
    by_contra hshort
    exact hpeek ⟨⟨ip_proto, hlabel, hcase⟩, Nat.le_of_not_lt hlen, flags, hflags, not_not.mp hrouting, hkey,
      .inr ⟨hversion, hppp, hle, Nat.lt_of_not_le hshort⟩⟩

theorem parseliteStep_safe (hpeek : ¬ s.PeeksBehind cfg m) : Safe m (parseliteStep cfg s) := by
  unfold parseliteStep
  cases hlabel : s.label with
  | switchEtherType =>
    dsimp only
    cases hcase : etherCase s.metadata.eth_proto with
    | ip => exact caseIp_safe hm
    | ipv6 => exact caseIpv6_safe hm
    | vlan => exact caseVlan_safe hm
    | mpls => exact caseMpls_safe hm fun h => hpeek (.inl ⟨hlabel, hcase, h⟩)
    | arp => exact caseArp_safe hm
    | tipc => exact caseTipc_safe hm
    | batman => exact caseBatman_safe hm
    | fcoe => exact safe_doReturn
    | pppSes => exact casePppSes_safe hm
    | other => exact safe_doReturn
  | switchIpProto ip_proto =>
    dsimp only
    cases hcase : ipCase ip_proto with
    | options => exact caseOptions_safe hm
    | fragment => exact caseFragment_safe hm
    | tcp => exact caseTcp_safe hm
    | udp => exact casePorts_safe hm (by decide)
    | sctp => exact casePorts_safe hm (by decide)
    | dccp => exact casePorts_safe hm (by decide)
    | gre => exact caseGre_safe hm hlabel hcase fun h => hpeek (.inr h)
    | icmp => exact caseIcmp_safe hm
    | igmp => exact safe_doReturn
    | mpls => exact safe_goTo
    | ipip => exact safe_goTo
    | ipv6 => exact safe_goTo
    | other => exact safe_doReturn

end

/-! ## Reads behind the packet -/

theorem parseliteStep_missing (hend : ∀ addr, s.hdr + s.len ≤ addr → m addr = none)
    (hpeek : s.PeeksBehind cfg m) : run m (parseliteStep cfg s) = none := by
  rcases hpeek with ⟨hlabel, hcase, hlen, hlt, entry, hentry, hentropy⟩ |
    ⟨⟨ip_proto, hlabel, hcase⟩, hlen, flags, hflags, hrouting, hkey, hversion⟩
  · rw [parseliteStep, hlabel]
    dsimp only
    rw [hcase]
    dsimp only
    rw [caseMpls, if_neg (Nat.not_lt.mpr hlen), run_bind, hentry, Option.bind_some, if_pos hentropy]
    exact missing_left (be32_missing (hend _ (by omega)))
  · rw [parseliteStep, hlabel]
    dsimp only
    rw [hcase]
    dsimp only
    rw [caseGre, if_neg (Nat.not_lt.mpr hlen), run_bind, hflags, Option.bind_some,
      if_neg (not_not.mpr hrouting)]
    rcases hversion with ⟨hv0, hle, hlt⟩ | ⟨hv1, hppp, hle, hlt⟩
    · rw [if_pos hv0, caseGreV0]
      dsimp only
      rw [if_neg (Nat.not_lt.mpr hle)]
      refine missing_right fun protocol => ?_
      rw [if_pos hkey]
      exact missing_left (be32_missing (hend _ (by omega)))
    · rw [if_neg (by rw [hv1]; decide), if_pos hv1, caseGreV1, run_bind, hppp, Option.bind_some,
        if_neg (not_not.mpr ⟨rfl, hkey⟩)]
      dsimp only
      rw [if_neg (Nat.not_lt.mpr hle)]
      exact missing_left (be32_missing (hend _ (by omega)))

/-! ## Whole parses -/

/-- A TIPC keepalive message. -/
def ParseliteState.Keepalive (m : Bytes) (s : ParseliteState) : Prop :=
  s.label = .switchEtherType ∧ etherCase s.metadata.eth_proto = .tipc ∧ 16 ≤ s.len ∧
    ∃ w0, run m (be32 s.hdr) = some w0 ∧ w0 &&& tipcKeepaliveMsgMask = tipcKeepaliveMsgMask

theorem parseliteStep_rand (flags : Nat) (littleEndian : Bool) (rand rand' : List Nat)
    (h : ¬ s.Keepalive m) :
    run m (parseliteStep ⟨flags, littleEndian, rand⟩ s) = run m (parseliteStep ⟨flags, littleEndian, rand'⟩ s) := by
  unfold parseliteStep
  cases hlabel : s.label with
  | switchEtherType =>
    dsimp only
    cases hcase : etherCase s.metadata.eth_proto with
    | tipc =>
      dsimp only
      by_cases hlen : s.len < 16
      · rw [caseTipc, caseTipc, if_pos hlen, if_pos hlen]
      · rw [caseTipc, caseTipc, if_neg hlen, if_neg hlen, run_bind, run_bind]
        cases hw0 : run m (be32 s.hdr) with
        | none => rfl
        | some w0 =>
          have hno : ¬ w0 &&& tipcKeepaliveMsgMask = tipcKeepaliveMsgMask := fun hkeep =>
            h ⟨hlabel, hcase, Nat.le_of_not_lt hlen, w0, hw0, hkeep⟩
          rw [Option.bind_some, Option.bind_some, if_neg hno, if_neg hno]
    | _ => rfl
  | switchIpProto ip_proto => rfl

theorem packetBytes_isSome (addr : Nat) (h : addr < packet.length) : (packetBytes packet addr).isSome := by
  rw [packetBytes, List.getElem?_eq_getElem h]
  rfl

theorem parseliteStart_safe :
    Safe (packetBytes packet) (parseliteNext cfg (.start start_mode packet.length metadata)) := by
  refine safe_bind ?_ fun _ _ => safe_pure _
  dsimp only
  unfold parseliteStart
  dsimp only
  split
  · refine safe_ite (fun _ => safe_doReturn) fun hlen => ?_
    refine safe_bind (safe_be16 packetBytes_isSome (by omega)) fun eth_proto _ => ?_
    exact safe_bind (safe_bytes packetBytes_isSome (by omega)) fun eth_addrs _ => safe_goTo
  · exact safe_goTo
  · refine safe_ite (fun _ => safe_doReturn) fun hlen => ?_
    refine safe_bind (safe_byte packetBytes_isSome (by omega)) fun b _ => ?_
    exact safe_ite (fun _ => safe_goTo) fun _ => safe_ite (fun _ => safe_goTo) fun _ => safe_doReturn
  · exact safe_doReturn

/-- What the parser takes for the rest of the packet is the rest of the packet. -/
def ParseliteAt.InPacket (size : Nat) : ParseliteAt → Prop
  | .start _ len _ => len = size
  | .at s => s.hdr + s.len = size

theorem not_peeksBehind (hin : s.hdr + s.len = packet.length)
    (hsafe : Safe (packetBytes packet) (parseliteNext cfg (.at s))) :
    ¬ s.PeeksBehind cfg (packetBytes packet) := by
  intro hpeek
  have hmissing := parseliteStep_missing (fun addr hle => packetBytes_none addr (hin ▸ hle)) hpeek
  rw [Safe, parseliteNext, missing_left hmissing] at hsafe
  cases hsafe

theorem ParseliteAt.InPacket.step (hlen : packet.length < 2 ^ 64) (h : p.InPacket packet.length)
    (hstep : run (packetBytes packet) (parseliteNext cfg p) = some (.inl p')) :
    p'.InPacket packet.length := by
  cases p with
  | start start_mode len metadata =>
    obtain ⟨s', hlen, rfl, hle, hhdr, hlen'⟩ := parseliteStart_at hstep
    dsimp only [InPacket] at h ⊢
    omega
  | «at» s =>
    obtain ⟨s', rfl, hwent⟩ := parseliteNext_at hstep
    have hpeek := not_peeksBehind h (Option.isSome_of_eq_some hstep)
    have hmove : ∀ hlen, hlen ≤ s.len → s.Moved hlen s' → s'.hdr + s'.len = packet.length := by
      intro hlen hle hmoved
      have hhdr := hmoved.hdr
      have hlen' := hmoved.len
      dsimp only [InPacket] at h
      omega
    cases hwent with
    | onward hlen hmoved _ _ hle =>
      rcases hle with hle | hgre
      · exact hmove hlen hle hmoved
      · exact (hpeek (.inr hgre)).elim
    | noLength _ hmoved => exact hmove 0 (Nat.zero_le _) hmoved
    | etherType _ hmoved => exact hmove 0 (Nat.zero_le _) hmoved

theorem reaches_inPacket (hlen : packet.length < 2 ^ 64)
    (h : Reaches (parseliteNext cfg) (packetBytes packet) (.start start_mode packet.length metadata) p) :
    p.InPacket packet.length :=
  h.keeps rfl fun _ _ _ hin hstep => hin.step hlen hstep

/-- **The result depends on nothing but the packet** just if the parser looks behind it nowhere. For
every packet with no TIPC keepalive message, all flags, start modes and metadata: in all memories
with the bytes of the packet the parser comes to the same, after any number of steps, just if it
gets to no MPLS entropy label that ends the packet and to no GRE header whose key, where the parser
looks for it, is not all in the packet. -/
theorem parseliteParse_same_iff (flags : Nat) (littleEndian : Bool) (hlen : packet.length < 2 ^ 64)
    (metadata : ParseliteMetadata) (max_encaps start_mode : Nat)
    (hkeepalive : ∀ s, Reaches (parseliteNext ⟨flags, littleEndian, []⟩) (packetBytes packet)
      (.start start_mode packet.length metadata) (.at s) → ¬ s.Keepalive (packetBytes packet)) :
    (∀ m1 m2 rand1 rand2, Extends (packetBytes packet) m1 → Extends (packetBytes packet) m2 → ∀ steps,
      parseliteParse ⟨flags, littleEndian, rand1⟩ m1 packet.length metadata max_encaps start_mode steps =
        parseliteParse ⟨flags, littleEndian, rand2⟩ m2 packet.length metadata max_encaps start_mode steps) ↔
    ∀ s, Reaches (parseliteNext ⟨flags, littleEndian, []⟩) (packetBytes packet)
      (.start start_mode packet.length metadata) (.at s) →
        ¬ s.PeeksBehind ⟨flags, littleEndian, []⟩ (packetBytes packet) := by
  constructor
  · intro hsame s hreach
    have hsafe := same_runs_iff.mp (fun m1 m2 h1 h2 => hsame m1 m2 [] [] h1 h2) (.at s) hreach
    exact not_peeksBehind (reaches_inPacket hlen hreach) hsafe
  · intro hwithin m1 m2 rand1 rand2 h1 h2 steps
    have hone : ∀ m rand, Extends (packetBytes packet) m →
        parseliteParse ⟨flags, littleEndian, rand⟩ m packet.length metadata max_encaps start_mode steps =
          parseliteParse ⟨flags, littleEndian, []⟩ (packetBytes packet) packet.length metadata max_encaps
            start_mode steps := by
      intro m rand hext
      refine runSteps_congr (fun p hreach => ?_) steps
      cases p with
      | start _ _ _ =>
        cases reaches_inPacket hlen hreach
        obtain ⟨next, hnext⟩ := Option.isSome_iff_exists.mp parseliteStart_safe
        rw [hnext]
        exact run_mono hext hnext
      | «at» s =>
        have hin : s.hdr + s.len = packet.length := reaches_inPacket hlen hreach
        have hsafe := parseliteStep_safe (fun addr h => packetBytes_isSome addr (hin ▸ h)) (hwithin s hreach)
        obtain ⟨next, hnext⟩ := Option.isSome_iff_exists.mp hsafe
        have hrand := parseliteStep_rand flags littleEndian rand [] (hkeepalive s hreach)
        rw [run_parseliteNext_at hnext]
        exact run_parseliteNext_at (run_mono hext (hrand.trans hnext))
    rw [hone m1 rand1 h1, hone m2 rand2 h2]

/-- Metadata for a packet that starts with an MPLS entry. -/
def mplsMetadata : ParseliteMetadata := { zeroMetadata with eth_proto := ethPMplsUc }

theorem parseliteParse_same_label : mplsMetadata.eth_proto = ethPMplsUc ∧
    ∀ m1 m2 rand1 rand2, Extends (packetBytes [0, 1, 0x11, 64]) m1 → Extends (packetBytes [0, 1, 0x11, 64]) m2 →
      ∀ steps, parseliteParse ⟨0, true, rand1⟩ m1 4 mplsMetadata 4 1 steps =
        parseliteParse ⟨0, true, rand2⟩ m2 4 mplsMetadata 4 1 steps := by
  -- the parser gets to the switch once, where it returns
  have hreach : ∀ s, Reaches (parseliteNext ⟨0, true, []⟩) (packetBytes [0, 1, 0x11, 64])
      (.start 1 4 mplsMetadata) (.at s) → s = ⟨.switchEtherType, 0, 4, mplsMetadata⟩ := by
    intro s h
    rcases h.cases_head with heq | ⟨p, hstep, h⟩
    · cases heq
    · cases hstep
      rcases h.cases_head with heq | ⟨p, hstep, -⟩
      · cases heq
        rfl
      · cases hstep
  refine ⟨rfl, (parseliteParse_same_iff 0 true (by decide) mplsMetadata 4 1 fun s h hkeep => ?_).mpr
    fun s h hpeek => ?_⟩
  · rw [hreach s h] at hkeep
    exact absurd hkeep.2.1 (by decide)
  · rw [hreach s h] at hpeek
    rcases hpeek with ⟨-, -, -, -, entry, hentry, hlabel⟩ | ⟨⟨_, hlabel, -⟩, -⟩
    · cases hentry
      exact absurd hlabel (by decide)
    · cases hlabel

/-- **The key of an entropy label that ends the packet is what follows the packet.** -/
theorem parseliteParse_entropy_differs :
    ∃ m1 m2, Extends (packetBytes [0, 0, 0x71, 64]) m1 ∧ Extends (packetBytes [0, 0, 0x71, 64]) m2 ∧
      parseliteParse ⟨0, true, []⟩ m1 4 mplsMetadata 4 1 2 ≠
        parseliteParse ⟨0, true, []⟩ m2 4 mplsMetadata 4 1 2 := by
  have hext : ∀ b, Extends (packetBytes [0, 0, 0x71, 64])
      fun addr => some ((packetBytes [0, 0, 0x71, 64] addr).getD b) := by
    intro b addr v hv
    dsimp only
    rw [hv]
    rfl
  refine ⟨_, _, hext 0, hext 0xff, fun heq => ?_⟩
  have hkeyid := congrArg (fun r => r.map fun r => r.map fun r => r.metadata.keyid) heq
  exact absurd hkeyid (by decide)

end Xdp2
