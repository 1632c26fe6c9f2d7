import Xdp2.Parselite.Steps

/-!
# When the parselite parser ends

At an IPv4 header in an IPv4 header with no length the parser goes from one switch to the other for
ever. At any other place it goes on over a header it has read, or takes an IP protocol for an
EtherType once, so that a measure gets less (`parseliteParse_ends_iff`); it can read finitely many
bytes, even where the length it has left is wrong.
-/

namespace Xdp2

open Reading

variable {cfg : ParseliteConfig} {m : Bytes} {s s' : ParseliteState}

theorem run_parseliteNext_at (h : run m (parseliteStep cfg s) = some next) :
    run m (parseliteNext cfg (.at s)) = some (next.map .at id) := by
  rw [parseliteNext, run_bind, h]
  rfl

theorem parseliteNext_at (h : run m (parseliteNext cfg (.at s)) = some (.inl p)) :
    ∃ s', p = .at s' ∧ s.Went cfg m s' := by
  rw [parseliteNext, run_bind] at h
  obtain ⟨next, hnext, h⟩ := Option.bind_eq_some_iff.mp h
  cases next with
  | inl s' =>
    cases h
    exact ⟨s', rfl, parseliteStep_went hnext⟩
  | inr r => cases h

theorem parseliteStart_at
    (h : run m (parseliteNext cfg (.start start_mode len metadata)) = some (.inl p)) :
    ∃ s' hlen, p = .at s' ∧ hlen ≤ len ∧ s'.hdr = hlen ∧ s'.len = (len + 2 ^ 64 - hlen) % 2 ^ 64 := by
  let P : ParseliteState → Prop := fun s' =>
    ∃ hlen, hlen ≤ len ∧ s'.hdr = hlen ∧ s'.len = (len + 2 ^ 64 - hlen) % 2 ^ 64
  have hstay : ∀ metadata', Gives m (goTo .switchEtherType ⟨.switchEtherType, 0, len, metadata⟩ 0 metadata')
      (GoesTo P) := fun _ => gives_goTo ⟨0, Nat.zero_le _, rfl, rfl⟩
  have hgives : Gives m (parseliteStart start_mode len metadata) (GoesTo P) := by
    unfold parseliteStart
    dsimp only
    split
    · refine gives_ite (fun _ => gives_doReturn) fun hlen => gives_bind (gives_of_run fun eth_proto _ => ?_)
      refine gives_bind (gives_of_run fun eth_addrs _ => gives_goTo ?_)
      exact ⟨14, Nat.le_of_not_lt hlen, rfl, rfl⟩
    · exact hstay _
    · refine gives_ite (fun _ => gives_doReturn) fun _ => gives_bind (gives_of_run fun b _ => ?_)
      exact gives_ite (fun _ => hstay _) fun _ => gives_ite (fun _ => hstay _) fun _ => gives_doReturn
    · exact gives_doReturn
  rw [parseliteNext, run_bind] at h
  obtain ⟨next, hnext, h⟩ := Option.bind_eq_some_iff.mp h
  cases next with
  | inl s' =>
    cases h
    obtain ⟨hlen, hle, hhdr, hlen'⟩ := hgives _ hnext s' rfl
    exact ⟨s', hlen, rfl, hle, hhdr, hlen'⟩
  | inr r => cases h

theorem ParseliteState.Went.moved (h : s.Went cfg m s') : ∃ hlen, s.Moved hlen s' := by
  cases h with
  | onward hlen hmoved => exact ⟨hlen, hmoved⟩
  | noLength _ hmoved => exact ⟨0, hmoved⟩
  | etherType _ hmoved => exact ⟨0, hmoved⟩

/-! ## The measure -/

/-- How far the parser is from going on, where it is. -/
def ParseliteState.waits (s : ParseliteState) : Nat :=
  match s.label with
  | .switchEtherType => if s.metadata.eth_proto = ethPIp then 3 else 1
  | .switchIpProto ip_proto => if ipCase ip_proto = .ipip then 4 else 2

theorem ParseliteState.waits_le (s : ParseliteState) : s.waits ≤ 4 := by
  unfold waits
  split
  · split
    · decide
    · decide
  · split
    · decide
    · decide

/-- What is left of the memory, and what the parser waits for. -/
def ParseliteState.left (size : Nat) (s : ParseliteState) : Nat := 8 * (size - s.hdr) + s.waits

theorem ipCase_ipprotoIpip (h : ipCase ip_proto = .ipip) : ip_proto = ipprotoIpip := by
  by_contra hne
  rw [ipCase, if_neg hne] at h
  simp only [ite_eq_iff, reduceCtorEq, and_false, or_self] at h

theorem ParseliteState.Went.left_lt (hsize : ∀ addr, size ≤ addr → m addr = none)
    (h : s.Went cfg m s') (hstuck : ¬ s.Stuck cfg m) : s'.left size < s.left size := by
  unfold left
  cases h with
  | onward hlen hmoved hpos hread =>
    obtain ⟨addr, hle, hsome⟩ := hread
    have hlt : addr < size := by
      by_contra hge
      rw [hsize addr (Nat.le_of_not_lt hge)] at hsome
      cases hsome
    have hhdr := hmoved.hdr
    have hwaits := s'.waits_le
    omega
  | noLength ip_proto hmoved hlabel heth hlabel' hipip =>
    have hne : ¬ ipCase ip_proto = .ipip := fun hcase => hstuck (hipip (ipCase_ipprotoIpip hcase))
    have hwaits : s'.waits = 2 := by
      rw [waits, hlabel']
      exact if_neg hne
    have hwaits' : s.waits = 3 := by
      rw [waits, hlabel]
      exact if_pos heth
    have hhdr := hmoved.hdr
    rw [hwaits, hwaits', hhdr, Nat.add_zero]
    omega
  | etherType ip_proto hmoved hlabel hlabel' hiff =>
    have hwaits : s'.waits + 1 = s.waits := by
      rw [waits, waits, hlabel, hlabel']
      dsimp only
      by_cases hcase : ipCase ip_proto = .ipip
      · rw [if_pos hcase, if_pos (hiff.mp hcase)]
      · rw [if_neg hcase, if_neg fun heth => hcase (hiff.mpr heth)]
    have hhdr := hmoved.hdr
    rw [hhdr, Nat.add_zero]
    omega

/-! ## A stuck parser -/

theorem ParseliteState.Stuck.congr (h : s.Stuck cfg m) (hlabel : s'.label = .switchEtherType)
    (heth : s'.metadata.eth_proto = ethPIp) (hhdr : s'.hdr = s.hdr) (hlen : s'.len = s.len) :
    s'.Stuck cfg m where
  label := hlabel
  eth_proto := heth
  len := hlen ▸ h.len
  ihl := hhdr ▸ h.ihl
  protocol := hhdr ▸ h.protocol
  frag_off := hhdr ▸ h.frag_off
  tos := hhdr ▸ h.tos
  ttl := hhdr ▸ h.ttl
  addrs := hhdr ▸ h.addrs

theorem ParseliteState.Stuck.goes (h : s.Stuck cfg m) :
    ∃ metadata, metadata.eth_proto = ethPIp ∧
      run m (parseliteStep cfg s) = some (.inl ⟨.switchIpProto ipprotoIpip, s.hdr, s.len % 2 ^ 64, metadata⟩) := by
  obtain ⟨ver_ihl, hihl, hzero⟩ := h.ihl
  obtain ⟨frag_off, hfrag, hgo⟩ := h.frag_off
  obtain ⟨tos, htos⟩ := Option.isSome_iff_exists.mp h.tos
  obtain ⟨ttl, httl⟩ := Option.isSome_iff_exists.mp h.ttl
  obtain ⟨addrs, haddrs⟩ := Option.isSome_iff_exists.mp h.addrs
  have hstep : parseliteStep cfg s = caseIp cfg.flags s := by
    rw [parseliteStep, h.label]
    dsimp only
    rw [h.eth_proto]
    rfl
  rw [hstep, caseIp, if_neg (Nat.not_lt.mpr h.len), run_bind, hihl, Option.bind_some, hzero, Nat.zero_mul,
    if_neg (Nat.not_lt_zero _), run_bind, h.protocol, Option.bind_some, run_bind, hfrag, Option.bind_some,
    run_bind, htos, Option.bind_some, run_bind, httl, Option.bind_some, run_bind, haddrs, Option.bind_some]
  dsimp only
  by_cases hf : frag_off &&& 0x3fff ≠ 0
  · rw [if_pos hf, if_neg fun hstop => hgo ⟨hf, hstop⟩]
    refine ⟨_, ?_, by rw [goTo, run_pure, Nat.add_zero, Nat.sub_zero, Nat.add_mod_right]⟩
    exact h.eth_proto
  · rw [if_neg hf]
    refine ⟨_, ?_, by rw [goTo, run_pure, Nat.add_zero, Nat.sub_zero, Nat.add_mod_right]⟩
    exact h.eth_proto

/-- The parser is stuck, or it is at the switch over IP protocols of a stuck one. -/
def ParseliteAt.StaysStuck (cfg : ParseliteConfig) (m : Bytes) : ParseliteAt → Prop
  | .start _ _ _ => False
  | .at s => s.len < 2 ^ 64 ∧ (s.Stuck cfg m ∨ (s.label = .switchIpProto ipprotoIpip ∧
      ({ s with
        label := .switchEtherType
        metadata := { s.metadata with eth_proto := ethPIp } } : ParseliteState).Stuck cfg m))

theorem ParseliteAt.StaysStuck.step (h : p.StaysStuck cfg m) :
    ∃ p', run m (parseliteNext cfg p) = some (.inl p') ∧ p'.StaysStuck cfg m := by
  cases p with
  | start _ _ _ => exact h.elim
  | «at» s =>
    obtain ⟨hlt, hstuck | ⟨hlabel, hstuck⟩⟩ := h
    · obtain ⟨metadata, heth, hgoes⟩ := hstuck.goes
      rw [Nat.mod_eq_of_lt hlt] at hgoes
      exact ⟨_, run_parseliteNext_at hgoes, hlt, .inr ⟨rfl, hstuck.congr rfl rfl rfl rfl⟩⟩
    · have hgoes : run m (parseliteStep cfg s) = some (.inl ⟨.switchEtherType, s.hdr, s.len,
          { s.metadata with eth_proto := ethPIp }⟩) := by
        rw [parseliteStep, hlabel]
        change run m (caseEtherType ethPIp s) = _
        rw [caseEtherType, goTo, run_pure, Nat.add_zero, Nat.sub_zero, Nat.add_mod_right, Nat.mod_eq_of_lt hlt]
      exact ⟨_, run_parseliteNext_at hgoes, hlt, .inl hstuck⟩

/-! ## Whole parses -/

theorem reaches_len_lt (h : Reaches (parseliteNext cfg) m (.start start_mode len metadata) (.at s)) :
    s.len < 2 ^ 64 := by
  have hmod : ∀ a, a % 2 ^ 64 < 2 ^ 64 := fun a => Nat.mod_lt a (by decide)
  cases h with
  | tail hreach hstep =>
    rename_i p
    cases p with
    | start _ _ _ =>
      obtain ⟨s', hlen, hs', -, -, hlen'⟩ := parseliteStart_at hstep
      cases hs'
      rw [hlen']
      exact hmod _
    | «at» s'' =>
      obtain ⟨s', hs', hwent⟩ := parseliteNext_at hstep
      cases hs'
      obtain ⟨hlen, hmoved⟩ := hwent.moved
      rw [hmoved.len]
      exact hmod _

/-- What is left for a parse, before its start and at a switch. -/
def ParseliteAt.left (size : Nat) : ParseliteAt → Nat
  | .start _ _ _ => 8 * size + 5
  | .at s => s.left size

/-- **The parser ends just if it does not get stuck.** For every packet, in every memory of finitely
many bytes, and for all flags, start modes and metadata: the parser returns, or reads where there is
no byte, unless it gets to an IPv4 header in an IPv4 header that has no length. -/
theorem parseliteParse_ends_iff (cfg : ParseliteConfig) {m : Bytes} {size : Nat}
    (hsize : ∀ addr, size ≤ addr → m addr = none) (len : Nat) (metadata : ParseliteMetadata)
    (max_encaps start_mode : Nat) :
    (∃ steps r, parseliteParse cfg m len metadata max_encaps start_mode steps = some r) ↔
      ∀ s, Reaches (parseliteNext cfg) m (.start start_mode len metadata) (.at s) → ¬ s.Stuck cfg m := by
  constructor
  · rintro ⟨steps, r, hr⟩ s hreach hstuck
    have hstays : (ParseliteAt.at s).StaysStuck cfg m := ⟨reaches_len_lt hreach, .inl hstuck⟩
    have hnever := runSteps_goes_on hreach hstays (fun _ h => h.step) steps
    rw [parseliteParse, hnever] at hr
    cases hr
  · intro hfree
    refine runSteps_ends (ParseliteAt.left size) fun p p' hreach hstep => ?_
    cases p with
    | start _ _ _ =>
      obtain ⟨s', hlen, rfl, -⟩ := parseliteStart_at hstep
      have hwaits := s'.waits_le
      dsimp only [ParseliteAt.left, ParseliteState.left]
      omega
    | «at» s =>
      obtain ⟨s', rfl, hwent⟩ := parseliteNext_at hstep
      exact hwent.left_lt hsize (hfree s hreach)

/-- The bytes of a packet, with nothing behind it. -/
def packetBytes (packet : List UInt8) : Bytes := fun addr => packet[addr]?

theorem packetBytes_none (addr : Nat) (h : packet.length ≤ addr) :
    packetBytes packet addr = none := List.getElem?_eq_none h

/-- Metadata that is all zeros. -/
def zeroMetadata : ParseliteMetadata where
  addr_type := 0
  is_fragment := 0
  first_frag := 0
  vlan_count := 0
  tos := 0
  ttl := 0
  eth_addrs := List.replicate 12 0
  tcp_flags := 0
  mpls := ⟨0, 0, 0, 0⟩
  arp := ⟨List.replicate 4 0, List.replicate 4 0, 0, List.replicate 6 0, List.replicate 6 0⟩
  eth_proto := 0
  ip_proto := 0
  flow_label := 0
  vlan := (⟨0, 0, 0⟩, ⟨0, 0, 0⟩)
  keyid := 0
  ports := 0
  icmp := ⟨0, 0, 0⟩
  addrs := List.replicate 32 0

/-- An IPv4 header with a UDP header. -/
def udpPacket : List UInt8 :=
  [0x45, 0, 0, 28, 0, 0, 0, 0, 64, 17, 0, 0, 10, 0, 0, 1, 10, 0, 0, 2, 0x9c, 0x40, 0, 80, 0, 8, 0, 0]

theorem parseliteParse_ends_udpPacket :
    (∃ steps r, parseliteParse ⟨0, true, []⟩ (packetBytes udpPacket) 28 zeroMetadata 4 2 steps = some r) ∧
      ∀ s, Reaches (parseliteNext ⟨0, true, []⟩) (packetBytes udpPacket) (.start 2 28 zeroMetadata) (.at s) →
        ¬ s.Stuck ⟨0, true, []⟩ (packetBytes udpPacket) := by
  have hends : ∃ steps r, parseliteParse ⟨0, true, []⟩ (packetBytes udpPacket) 28 zeroMetadata 4 2 steps = some r :=
    ⟨3, _, rfl⟩
  exact ⟨hends, (parseliteParse_ends_iff ⟨0, true, []⟩ packetBytes_none 28 zeroMetadata 4 2).mp hends⟩

/-- An IPv4 header with no length, for IPv4 in IPv4. -/
def stuckPacket : List UInt8 := [0x40, 0, 0, 20, 0, 0, 0, 0, 64, 4, 0, 0, 10, 0, 0, 1, 10, 0, 0, 2]

/-- **The parser does not end** for a packet of twenty bytes. -/
theorem parseliteParse_stuckPacket :
    stuckPacket.length = 20 ∧ ∀ (cfg : ParseliteConfig) (steps : Nat),
      parseliteParse cfg (packetBytes stuckPacket) 20 zeroMetadata 4 2 steps = none := by
  refine ⟨rfl, fun cfg steps => ?_⟩
  let s : ParseliteState := ⟨.switchEtherType, 0, 20, { zeroMetadata with eth_proto := ethPIp }⟩
  have hreach : Reaches (parseliteNext cfg) (packetBytes stuckPacket) (.start 2 20 zeroMetadata) (.at s) :=
    .tail .refl rfl
  have hstuck : s.Stuck cfg (packetBytes stuckPacket) :=
    ⟨rfl, rfl, by decide, ⟨0x40, rfl, rfl⟩, rfl, ⟨0, rfl, by simp⟩, rfl, rfl, rfl⟩
  have hstays : (ParseliteAt.at s).StaysStuck cfg (packetBytes stuckPacket) := ⟨by decide, .inl hstuck⟩
  exact runSteps_goes_on hreach hstays (fun _ h => h.step) steps

end Xdp2
