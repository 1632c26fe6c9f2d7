import Xdp2.Lib.Reading

/-!
# The parselite parser

`parselite_parse` of `lib/parselite/parser.c`: two switches, over EtherTypes and over IP protocols,
with `goto` between them. Each case is a function that reads the header at `hdr` and returns, or
goes to a switch again.

A header is read where it is, also behind the packet. A number copied from the packet stands for its
bytes, the highest first; `littleEndian` says how the machine has a number in memory, where the
parser compares the two. `rand` is what `rand()` returns, as it is in memory.
-/

namespace Xdp2

open Reading

/-! ## Metadata -/

structure ParseliteMpls where
  ttl : Nat
  bos : Nat
  tc : Nat
  label : Nat
  deriving DecidableEq

structure ParseliteArp where
  sip : List Nat
  tip : List Nat
  op : Nat
  sha : List Nat
  tha : List Nat
  deriving DecidableEq

structure ParseliteVlan where
  id : Nat
  priority : Nat
  tpid : Nat
  deriving DecidableEq

structure ParseliteIcmp where
  type : Nat
  code : Nat
  id : Nat
  deriving DecidableEq

/-- `struct parselite_metadata`. The addresses are a union: they are its bytes. -/
structure ParseliteMetadata where
  addr_type : Nat
  is_fragment : Nat
  first_frag : Nat
  vlan_count : Nat
  tos : Nat
  ttl : Nat
  eth_addrs : List Nat
  tcp_flags : Nat
  mpls : ParseliteMpls
  arp : ParseliteArp
  eth_proto : Nat
  ip_proto : Nat
  flow_label : Nat
  vlan : ParseliteVlan × ParseliteVlan
  keyid : Nat
  ports : Nat
  icmp : ParseliteIcmp
  addrs : List Nat
  deriving DecidableEq

/-- `memcpy` to the start of a union. -/
def overwrite (old new : List Nat) : List Nat := new ++ old.drop new.length

/-! ## The switches -/

/-- The cases of the switch over EtherTypes. -/
inductive EtherCase
  | ip
  | ipv6
  | vlan
  | mpls
  | arp
  | tipc
  | batman
  | fcoe
  | pppSes
  | other
  deriving DecidableEq

/-- `ETH_P_IP`. -/
def ethPIp : Nat := 0x0800

/-- `ETH_P_IPV6`. -/
def ethPIpv6 : Nat := 0x86dd

/-- `ETH_P_MPLS_UC`. -/
def ethPMplsUc : Nat := 0x8847

/-- `ETH_P_TEB`. -/
def ethPTeb : Nat := 0x6558

def etherCase (eth_proto : Nat) : EtherCase :=
  if eth_proto = ethPIp then .ip
  else if eth_proto = ethPIpv6 then .ipv6
  -- `ETH_P_8021AD`, `ETH_P_8021Q`
  else if eth_proto = 0x88a8 ∨ eth_proto = 0x8100 then .vlan
  -- `ETH_P_MPLS_UC`, `ETH_P_MPLS_MC`
  else if eth_proto = ethPMplsUc ∨ eth_proto = 0x8848 then .mpls
  -- `ETH_P_ARP`, `ETH_P_RARP`
  else if eth_proto = 0x0806 ∨ eth_proto = 0x8035 then .arp
  else if eth_proto = 0x88ca then .tipc
  else if eth_proto = 0x4305 then .batman
  else if eth_proto = 0x8906 then .fcoe
  else if eth_proto = 0x8864 then .pppSes
  else .other

/-- The cases of the switch over IP protocols. -/
inductive IpCase
  | options
  | fragment
  | tcp
  | udp
  | sctp
  | dccp
  | gre
  | icmp
  | igmp
  | mpls
  | ipip
  | ipv6
  | other
  deriving DecidableEq

/-- `IPPROTO_IPIP`. -/
def ipprotoIpip : Nat := 4

def ipCase (ip_proto : Nat) : IpCase :=
  -- `IPPROTO_HOPOPTS`, `IPPROTO_ROUTING`, `IPPROTO_DSTOPTS`
  if ip_proto = 0 ∨ ip_proto = 43 ∨ ip_proto = 60 then .options
  else if ip_proto = 44 then .fragment
  else if ip_proto = 6 then .tcp
  else if ip_proto = 17 then .udp
  else if ip_proto = 132 then .sctp
  else if ip_proto = 33 then .dccp
  else if ip_proto = 47 then .gre
  else if ip_proto = 1 then .icmp
  else if ip_proto = 2 then .igmp
  else if ip_proto = 137 then .mpls
  else if ip_proto = ipprotoIpip then .ipip
  else if ip_proto = 41 then .ipv6
  else .other

/-- Where the parser goes to. -/
inductive ParseliteLabel
  | switchEtherType
  | switchIpProto (ip_proto : Nat)
  deriving DecidableEq

/-- The position in the packet, what is left of it, and the metadata. -/
structure ParseliteState where
  label : ParseliteLabel
  hdr : Nat
  len : Nat
  metadata : ParseliteMetadata
  deriving DecidableEq

/-- What is returned, and the metadata. -/
structure ParseliteResult where
  ret : Bool
  metadata : ParseliteMetadata
  deriving DecidableEq

/-- What a case of a switch comes to. -/
abbrev ParseliteStep := Reading (ParseliteState ⊕ ParseliteResult)

/-- `goto doreturn`. -/
def doReturn (ret : Bool) (metadata : ParseliteMetadata) : ParseliteStep := pure (.inr ⟨ret, metadata⟩)

/-- `goto` a switch with `hdr += hlen; len -= hlen`. -/
def goTo (label : ParseliteLabel) (s : ParseliteState) (hlen : Nat) (metadata : ParseliteMetadata) :
    ParseliteStep :=
  pure (.inl ⟨label, s.hdr + hlen, (s.len + 2 ^ 64 - hlen) % 2 ^ 64, metadata⟩)

/-- `PARSELITE_F_PARSE_1STFRAG`. -/
def parseliteFParse1stfrag : Nat := 1

/-- `PARSELITE_F_STOP_FLOWLABEL`. -/
def parseliteFStopFlowlabel : Nat := 2

/-! ### EtherTypes -/

/-- `ETH_P_IP`. The first byte has the version and `ihl`. -/
def caseIp (flags : Nat) (s : ParseliteState) : ParseliteStep :=
  if s.len < 20 then doReturn false s.metadata
  else do
    let ver_ihl ← byte s.hdr
    let hlen := ver_ihl % 16 * 4
    if s.len < hlen then doReturn false s.metadata
    else do
      let ip_proto ← byte (s.hdr + 9)
      let frag_off ← be16 (s.hdr + 6)
      let tos ← byte (s.hdr + 1)
      let ttl ← byte (s.hdr + 8)
      let addrs ← bytes (s.hdr + 12) 8
      let metadata :=
        { s.metadata with
          ip_proto := ip_proto
          tos := tos
          ttl := ttl
          addr_type := 0
          addrs := overwrite s.metadata.addrs addrs }
      -- `IP_MF | IP_OFFSET`
      if frag_off &&& 0x3fff ≠ 0 then
        let metadata :=
          { metadata with
            is_fragment := 1
            first_frag := if frag_off &&& 0x1fff = 0 then 1 else 0 }
        if flags &&& parseliteFParse1stfrag = 0 ∨ frag_off &&& 0x1fff ≠ 0 then doReturn true metadata
        else goTo (.switchIpProto ip_proto) s hlen metadata
      else goTo (.switchIpProto ip_proto) s hlen metadata

/-- `ETH_P_IPV6`. -/
def caseIpv6 (flags : Nat) (s : ParseliteState) : ParseliteStep :=
  if s.len < 40 then doReturn false s.metadata
  else do
    let nexthdr ← byte (s.hdr + 6)
    let word ← be32 s.hdr
    let dsfield ← be16 s.hdr
    let hop_limit ← byte (s.hdr + 7)
    let addrs ← bytes (s.hdr + 8) 32
    let flowlabel := word &&& 0xfffff
    let metadata :=
      { s.metadata with
        ip_proto := nexthdr
        tos := (dsfield >>> 4) % 256
        ttl := hop_limit
        addr_type := 1
        flow_label := flowlabel
        addrs := overwrite s.metadata.addrs addrs }
    if flowlabel ≠ 0 ∧ flags &&& parseliteFStopFlowlabel ≠ 0 then doReturn true metadata
    else goTo (.switchIpProto nexthdr) s 40 metadata

/-- `ETH_P_8021AD` and `ETH_P_8021Q`. -/
def caseVlan (s : ParseliteState) : ParseliteStep :=
  if s.len < 4 then doReturn false s.metadata
  else do
    let tci ← be16 s.hdr
    let proto ← be16 (s.hdr + 2)
    let vlan : ParseliteVlan := ⟨tci &&& 0x0fff, (tci &&& 0xe000) >>> 13, s.metadata.eth_proto⟩
    let count := s.metadata.vlan_count
    let metadata :=
      { s.metadata with
        eth_proto := proto
        vlan_count := if count < 2 then count + 1 else count
        vlan := if count = 0 then (vlan, s.metadata.vlan.2) else (s.metadata.vlan.1, vlan) }
    goTo .switchEtherType s 4 metadata

/-- The label of an MPLS entry. -/
def mplsLabel (entry : Nat) : Nat := (entry &&& 0xfffff000) >>> 12

/-- `MPLS_LABEL_ENTROPY`. -/
def mplsLabelEntropy : Nat := 7

/-- `ETH_P_MPLS_UC` and `ETH_P_MPLS_MC`. The entry behind the first one is read for an entropy label. -/
def caseMpls (s : ParseliteState) : ParseliteStep :=
  if s.len < 4 then doReturn false s.metadata
  else do
    let entry ← be32 s.hdr
    let metadata :=
      { s.metadata with
        mpls := ⟨entry &&& 0xff, (entry &&& 0x100) >>> 8, (entry &&& 0xe00) >>> 9, mplsLabel entry⟩ }
    if mplsLabel entry = mplsLabelEntropy then do
      let next ← be32 (s.hdr + 4)
      doReturn true { metadata with keyid := next &&& 0xfffff000 }
    else doReturn true metadata

/-- `ETH_P_ARP` and `ETH_P_RARP`. -/
def caseArp (s : ParseliteState) : ParseliteStep :=
  if s.len < 28 then doReturn false s.metadata
  else do
    let ar_hrd ← be16 s.hdr
    let ar_pro ← be16 (s.hdr + 2)
    let ar_hln ← byte (s.hdr + 4)
    let ar_pln ← byte (s.hdr + 5)
    let ar_op ← be16 (s.hdr + 6)
    if ar_hrd ≠ 1 ∨ ar_pro ≠ ethPIp ∨ ar_hln ≠ 6 ∨ ar_pln ≠ 4 ∨ (ar_op ≠ 2 ∧ ar_op ≠ 1) then
      doReturn false s.metadata
    else do
      let sha ← bytes (s.hdr + 8) 6
      let tha ← bytes (s.hdr + 18) 6
      let sip ← bytes (s.hdr + 14) 4
      let tip ← bytes (s.hdr + 24) 4
      doReturn true { s.metadata with arp := ⟨sip, tip, ar_op &&& 0xff, sha, tha⟩ }

/-- `TIPC_KEEPALIVE_MSG_MASK`. -/
def tipcKeepaliveMsgMask : Nat := 0x0e080000

/-- `ETH_P_TIPC`. -/
def caseTipc (rand : List Nat) (s : ParseliteState) : ParseliteStep :=
  if s.len < 16 then doReturn false s.metadata
  else do
    let w0 ← be32 s.hdr
    if w0 &&& tipcKeepaliveMsgMask = tipcKeepaliveMsgMask then
      doReturn true { s.metadata with addrs := overwrite s.metadata.addrs rand, addr_type := 2 }
    else do
      let w3 ← bytes (s.hdr + 12) 4
      doReturn true { s.metadata with addrs := overwrite s.metadata.addrs w3, addr_type := 2 }

/-- `ETH_P_BATMAN`. -/
def caseBatman (s : ParseliteState) : ParseliteStep :=
  if s.len < 24 then doReturn false s.metadata
  else do
    let version ← byte (s.hdr + 1)
    let packet_type ← byte s.hdr
    if version ≠ 15 ∨ packet_type ≠ 0x40 then doReturn false s.metadata
    else do
      let proto ← be16 (s.hdr + 22)
      goTo .switchEtherType s 24 { s.metadata with eth_proto := proto }

/-- `ETH_P_FCOE`. -/
def caseFcoe (s : ParseliteState) : ParseliteStep := doReturn (decide (38 ≤ s.len)) s.metadata

/-- `PPP_IP`. -/
def pppIp : Nat := 0x21

/-- `PPP_IPV6`. -/
def pppIpv6 : Nat := 0x57

/-- `ETH_P_PPP_SES`. -/
def casePppSes (s : ParseliteState) : ParseliteStep :=
  if s.len < 8 then doReturn false s.metadata
  else do
    let proto ← be16 (s.hdr + 6)
    if proto = pppIp then goTo .switchEtherType s 8 { s.metadata with eth_proto := ethPIp }
    else if proto = pppIpv6 then goTo .switchEtherType s 8 { s.metadata with eth_proto := ethPIpv6 }
    else doReturn false s.metadata

/-! ### IP protocols -/

/-- `IPPROTO_HOPOPTS`, `IPPROTO_ROUTING` and `IPPROTO_DSTOPTS`. -/
def caseOptions (s : ParseliteState) : ParseliteStep :=
  if s.metadata.eth_proto ≠ ethPIpv6 then doReturn false s.metadata
  else if s.len < 2 then doReturn false s.metadata
  else do
    let hdrlen ← byte (s.hdr + 1)
    let hlen := (hdrlen + 1) * 8
    if s.len < hlen then doReturn false s.metadata
    else do
      let nexthdr ← byte s.hdr
      goTo (.switchIpProto nexthdr) s hlen s.metadata

/-- `IPPROTO_FRAGMENT`. -/
def caseFragment (flags : Nat) (s : ParseliteState) : ParseliteStep :=
  if s.metadata.eth_proto ≠ ethPIpv6 then doReturn false s.metadata
  else if s.len < 8 then doReturn false s.metadata
  else do
    let frag_off ← be16 (s.hdr + 2)
    if flags &&& parseliteFParse1stfrag = 0 ∨ frag_off &&& 0xfff8 ≠ 0 then doReturn true s.metadata
    else do
      let nexthdr ← byte s.hdr
      goTo (.switchIpProto nexthdr) s 8
        { s.metadata with ip_proto := nexthdr, is_fragment := 1, first_frag := 1 }

/-- `IPPROTO_TCP`. -/
def caseTcp (s : ParseliteState) : ParseliteStep :=
  if s.len < 20 then doReturn false s.metadata
  else do
    let doff ← byte (s.hdr + 12)
    if s.len < doff / 16 * 4 then doReturn false s.metadata
    else do
      let ports ← be32 s.hdr
      let word ← be16 (s.hdr + 12)
      doReturn true { s.metadata with
        ports := if s.metadata.is_fragment = 0 then ports else s.metadata.ports
        tcp_flags := word &&& 0x0fff }

/-- A header of a given length that starts with ports. -/
def casePorts (hlen : Nat) (unlessFragment : Bool) (s : ParseliteState) : ParseliteStep :=
  if s.len < hlen then doReturn false s.metadata
  else if unlessFragment ∧ s.metadata.is_fragment ≠ 0 then doReturn true s.metadata
  else do
    let ports ← be32 s.hdr
    doReturn true { s.metadata with ports := ports }

/-- `IPPROTO_UDP`. -/
def caseUdp (s : ParseliteState) : ParseliteStep := casePorts 8 true s

/-- `IPPROTO_SCTP`. -/
def caseSctp (s : ParseliteState) : ParseliteStep := casePorts 12 false s

/-- `IPPROTO_DCCP`. -/
def caseDccp (s : ParseliteState) : ParseliteStep := casePorts 12 false s

/-- `GRE_CSUM`. -/
def greCsum : Nat := 0x8000

/-- `GRE_ROUTING`. -/
def greRouting : Nat := 0x4000

/-- `GRE_KEY`. -/
def greKey : Nat := 0x2000

/-- `GRE_SEQ`. -/
def greSeq : Nat := 0x1000

/-- `GRE_ACK`. -/
def greAck : Nat := 0x0080

/-- `GRE_KEY_OMASK`. -/
def greKeyOmask : Nat := greRouting ||| greCsum

/-- `GRE_PROTO_PPP`. -/
def greProtoPpp : Nat := 0x880b

/-- `__gre_flags_length`. -/
def greFlagsLength (flags mask : Nat) : Nat :=
  (if (flags ||| mask) &&& greCsum ≠ 0 then 4 else 0) + (if (flags ||| mask) &&& greKey ≠ 0 then 4 else 0) +
    (if (flags ||| mask) &&& greSeq ≠ 0 then 4 else 0) + if (flags ||| mask) &&& greAck ≠ 0 then 4 else 0

/-- All flags, as `-1U` is where they are used. -/
def greAllFlags : Nat := 0xffff

/-- `gre_v0_flags_length`. -/
def greV0FlagsLength (flags mask : Nat) : Nat := greFlagsLength flags (mask &&& (greAllFlags ^^^ greAck))

/-- `gre_v1_flags_length`. -/
def greV1FlagsLength (flags mask : Nat) : Nat := greFlagsLength flags mask

/-- The version, as the machine has the number that is compared with those of the cases. -/
def greVersion (littleEndian : Bool) (flags : Nat) : Nat :=
  if littleEndian then (flags &&& 7) * 256 else flags &&& 7

/-- `IPPROTO_GRE`, version 0, behind the header: an Ethernet header is passed over. -/
def greV0Inner (hlen : Nat) (s : ParseliteState) (metadata : ParseliteMetadata) : ParseliteStep :=
  if metadata.eth_proto = ethPTeb then
    if s.len - hlen < 14 then doReturn false metadata
    else goTo .switchEtherType s (hlen + 14) metadata
  else goTo .switchEtherType s hlen metadata

/-- `IPPROTO_GRE`, version 0. -/
def caseGreV0 (flags : Nat) (s : ParseliteState) : ParseliteStep :=
  let hlen := 4 + greV0FlagsLength flags greAllFlags
  if s.len < hlen then doReturn false s.metadata
  else do
    let protocol ← be16 (s.hdr + 2)
    if flags &&& greKey ≠ 0 then do
      let keyid ← be32 (s.hdr + hlen + greV0FlagsLength flags greKeyOmask)
      greV0Inner hlen s { s.metadata with eth_proto := protocol, keyid := keyid }
    else greV0Inner hlen s { s.metadata with eth_proto := protocol }

/-- `PPP_HDRLEN`. -/
def pppHdrlen : Nat := 4

/-- `IPPROTO_GRE`, version 1. The length of the PPP header is not checked. -/
def caseGreV1 (flags : Nat) (s : ParseliteState) : ParseliteStep := do
  let protocol ← be16 (s.hdr + 2)
  if ¬ (protocol = greProtoPpp ∧ flags &&& greKey ≠ 0) then doReturn false s.metadata
  else
    let hlen := 4 + greV1FlagsLength flags greAllFlags
    if s.len < hlen then doReturn false s.metadata
    else do
      let keyid ← be32 (s.hdr + hlen + greV1FlagsLength flags greKeyOmask)
      let metadata := { s.metadata with eth_proto := greProtoPpp, keyid := keyid }
      let proto ← be16 (s.hdr + hlen + 2)
      if proto = pppIp then goTo .switchEtherType s (hlen + pppHdrlen) { metadata with eth_proto := ethPIp }
      else if proto = pppIpv6 then
        goTo .switchEtherType s (hlen + pppHdrlen) { metadata with eth_proto := ethPIpv6 }
      else doReturn false metadata

/-- `IPPROTO_GRE`. -/
def caseGre (littleEndian : Bool) (s : ParseliteState) : ParseliteStep :=
  if s.len < 4 then doReturn false s.metadata
  else do
    let flags ← be16 s.hdr
    if flags &&& greRouting ≠ 0 then doReturn false s.metadata
    else if greVersion littleEndian flags = 0 then caseGreV0 flags s
    else if greVersion littleEndian flags = 1 then caseGreV1 flags s
    else doReturn false s.metadata

/-- `icmp_has_id`. -/
def icmpHasId (type : Nat) : Bool := type ∈ [8, 0, 13, 14, 128, 129]

/-- The identifier one, as it is in memory. -/
def icmpIdOne (littleEndian : Bool) : Nat := if littleEndian then 256 else 1

/-- `IPPROTO_ICMP`. -/
def caseIcmp (littleEndian : Bool) (s : ParseliteState) : ParseliteStep :=
  if s.len < 8 then doReturn false s.metadata
  else do
    let type ← byte s.hdr
    let code ← byte (s.hdr + 1)
    if icmpHasId type then do
      let id ← be16 (s.hdr + 4)
      doReturn true { s.metadata with icmp := ⟨type, code, if id = 0 then icmpIdOne littleEndian else id⟩ }
    else doReturn true { s.metadata with icmp := ⟨type, code, 0⟩ }

/-- `IPPROTO_IGMP`. -/
def caseIgmp (s : ParseliteState) : ParseliteStep := doReturn (decide (8 ≤ s.len)) s.metadata

/-- A protocol that has an EtherType: nothing is read. -/
def caseEtherType (eth_proto : Nat) (s : ParseliteState) : ParseliteStep :=
  goTo .switchEtherType s 0 { s.metadata with eth_proto := eth_proto }

/-! ## The parser -/

/-- What does not change while a packet is parsed. -/
structure ParseliteConfig where
  flags : Nat
  littleEndian : Bool
  rand : List Nat

/-- A switch. -/
def parseliteStep (cfg : ParseliteConfig) (s : ParseliteState) : ParseliteStep :=
  match s.label with
  | .switchEtherType =>
    match etherCase s.metadata.eth_proto with
    | .ip => caseIp cfg.flags s
    | .ipv6 => caseIpv6 cfg.flags s
    | .vlan => caseVlan s
    | .mpls => caseMpls s
    | .arp => caseArp s
    | .tipc => caseTipc cfg.rand s
    | .batman => caseBatman s
    | .fcoe => caseFcoe s
    | .pppSes => casePppSes s
    | .other => doReturn false s.metadata
  | .switchIpProto ip_proto =>
    match ipCase ip_proto with
    | .options => caseOptions s
    | .fragment => caseFragment cfg.flags s
    | .tcp => caseTcp s
    | .udp => caseUdp s
    | .sctp => caseSctp s
    | .dccp => caseDccp s
    | .gre => caseGre cfg.littleEndian s
    | .icmp => caseIcmp cfg.littleEndian s
    | .igmp => caseIgmp s
    | .mpls => caseEtherType ethPMplsUc s
    | .ipip => caseEtherType ethPIp s
    | .ipv6 => caseEtherType ethPIpv6 s
    | .other => doReturn false s.metadata

/-- The switch over start modes: `PARSELITE_START_ETHER`, `PARSELITE_START_ETHTYPE` and
`PARSELITE_START_IP`. -/
def parseliteStart (start_mode len : Nat) (metadata : ParseliteMetadata) : ParseliteStep :=
  let s : ParseliteState := ⟨.switchEtherType, 0, len, metadata⟩
  match start_mode with
  | 0 =>
    if len < 14 then doReturn false metadata
    else do
      let eth_proto ← be16 12
      let eth_addrs ← bytes 0 12
      goTo .switchEtherType s 14 { metadata with eth_proto := eth_proto, eth_addrs := eth_addrs }
  | 1 => goTo .switchEtherType s 0 metadata
  | 2 =>
    if len < 1 then doReturn false metadata
    else do
      let b ← byte 0
      if b / 16 = 4 then goTo .switchEtherType s 0 { metadata with eth_proto := ethPIp }
      else if b / 16 = 6 then goTo .switchEtherType s 0 { metadata with eth_proto := ethPIpv6 }
      else doReturn false metadata
  | _ => doReturn false metadata

/-- The state of a parse: before its start, or at a switch. -/
inductive ParseliteAt
  | start (start_mode len : Nat) (metadata : ParseliteMetadata)
  | at (s : ParseliteState)

/-- A step of a parse. -/
def parseliteNext (cfg : ParseliteConfig) (p : ParseliteAt) : Reading (ParseliteAt ⊕ ParseliteResult) :=
  let step :=
    match p with
    | .start start_mode len metadata => parseliteStart start_mode len metadata
    | .at s => parseliteStep cfg s
  step >>= fun next => pure (next.map .at id)

/-- `parselite_parse`, for a number of steps. The number of encapsulation layers is not used. -/
def parseliteParse (cfg : ParseliteConfig) (mem : Bytes) (len : Nat) (metadata : ParseliteMetadata)
    (_max_encaps start_mode steps : Nat) : Option (Option ParseliteResult) :=
  runSteps (parseliteNext cfg) mem steps (.start start_mode len metadata)

end Xdp2
