import Mathlib

/-!
# One order for the two directions of a flow

`XDP2_HASH_CONSISTENTIFY` of `parser_metadata.h` and `parselite_hash_metadata` of
`parselite/parser.h` order the two addresses of a frame, and the ports if those are the same, so
that both directions of a flow hash alike. They do (`consistentify_exchange_iff`), but for IPv4
addresses `2 ^ 31` apart: the difference as an `int` is then negative in both directions.
-/

namespace Xdp2

/-! ## Frames -/

/-- `struct in6_addr`. -/
abbrev In6Addr := Fin 16 → UInt8

/-- The fields of a metadata frame that are hashed and those that say how. The addresses are a union, of which
`addr_type` says the member that is used; what the other fields are does not matter. -/
structure FlowFrame (ρ : Type) where
  addr_type : Nat
  fields : ρ
  port16 : UInt16 × UInt16
  v4_addrs : UInt32 × UInt32
  v6_addrs : In6Addr × In6Addr

/-- The sign of what `memcmp` returns. -/
def memcmp : List UInt8 → List UInt8 → Int
  | x :: xs, y :: ys => if x = y then memcmp xs ys else if x < y then -1 else 1
  | _, _ => 0

/-- The value of the difference of two addresses as an `int`. -/
def addrDiff (a b : UInt32) : Int := (a - b).toBitVec.toInt

/-- A turn of the loop that exchanges addresses: the words `s6_addr32[i]` are exchanged. -/
def swapWord (addrs : In6Addr × In6Addr) (i : Nat) : In6Addr × In6Addr :=
  (fun k => if k.val / 4 = i then addrs.2 k else addrs.1 k,
    fun k => if k.val / 4 = i then addrs.1 k else addrs.2 k)

/-- Whether the endpoints are exchanged, by the sign of the difference of the addresses. -/
def exchanges (addr_diff : Int) (port16 : UInt16 × UInt16) : Prop :=
  addr_diff < 0 ∨ (addr_diff = 0 ∧ port16.2 < port16.1)

instance (addr_diff : Int) (port16 : UInt16 × UInt16) : Decidable (exchanges addr_diff port16) :=
  inferInstanceAs (Decidable (_ ∨ _))

section
variable {ρ : Type}

/-- The endpoints of a frame in order, with the values of `addr_type` for the two kinds of addresses. -/
def consistentify (ipv4 ipv6 : Nat) (frame : FlowFrame ρ) : FlowFrame ρ :=
  if frame.addr_type = ipv4 then
    if exchanges (addrDiff frame.v4_addrs.2 frame.v4_addrs.1) frame.port16 then
      { frame with v4_addrs := frame.v4_addrs.swap, port16 := frame.port16.swap }
    else frame
  else if frame.addr_type = ipv6 then
    if exchanges (memcmp (List.ofFn frame.v6_addrs.2) (List.ofFn frame.v6_addrs.1)) frame.port16 then
      { frame with v6_addrs := (List.range 4).foldl swapWord frame.v6_addrs, port16 := frame.port16.swap }
    else frame
  else frame

/-- `XDP2_ADDR_TYPE_IPV4`. -/
def addrTypeIpv4 : Nat := 1

/-- `XDP2_ADDR_TYPE_IPV6`. -/
def addrTypeIpv6 : Nat := 2

/-- `XDP2_HASH_CONSISTENTIFY`. -/
def hashConsistentify (frame : FlowFrame ρ) : FlowFrame ρ := consistentify addrTypeIpv4 addrTypeIpv6 frame

/-- `xdp2_parser_big_hash_frame`, with the hash of the fields of a frame in place of
`XDP2_COMMON_COMPUTE_HASH`. -/
def parserBigHashFrame (hash : FlowFrame ρ → UInt32) (frame : FlowFrame ρ) : FlowFrame ρ × UInt32 :=
  (hashConsistentify frame, hash (hashConsistentify frame))

/-- `PARSELITE_ATYPE_IPV4`. -/
def parseliteAtypeIpv4 : Nat := 0

/-- `PARSELITE_ATYPE_IPV6`. -/
def parseliteAtypeIpv6 : Nat := 1

/-- `parselite_hash_metadata`, with the hash of the fields of a frame in place of `siphash`. -/
def parseliteHashMetadata (hash : FlowFrame ρ → UInt32) (metadata : FlowFrame ρ) : FlowFrame ρ × UInt32 :=
  let metadata := consistentify parseliteAtypeIpv4 parseliteAtypeIpv6 metadata
  (metadata, if hash metadata = 0 then 1 else hash metadata)

/-! ## The two directions -/

/-- The other direction: the addresses and the ports are exchanged. -/
def FlowFrame.exchange (ipv4 : Nat) (frame : FlowFrame ρ) : FlowFrame ρ :=
  if frame.addr_type = ipv4 then { frame with v4_addrs := frame.v4_addrs.swap, port16 := frame.port16.swap }
  else { frame with v6_addrs := frame.v6_addrs.swap, port16 := frame.port16.swap }

theorem memcmp_swap (a b : List UInt8) : memcmp b a = -memcmp a b := by
  induction a generalizing b with
  | nil =>
    cases b with
    | nil => rfl
    | cons y ys => rfl
  | cons x xs ih =>
    cases b with
    | nil => rfl
    | cons y ys =>
      rw [memcmp, memcmp]
      by_cases heq : x = y
      · rw [if_pos heq, if_pos heq.symm]
        exact ih ys
      · rw [if_neg heq, if_neg (Ne.symm heq)]
        have hne : x.toNat ≠ y.toNat := fun h => heq (UInt8.toNat_inj.mp h)
        simp only [UInt8.lt_iff_toNat_lt]
        split_ifs <;> omega

theorem memcmp_eq_zero (hlen : a.length = b.length) (h : memcmp a b = 0) : a = b := by
  induction a generalizing b with
  | nil => exact (List.eq_nil_of_length_eq_zero hlen.symm).symm
  | cons x xs ih =>
    cases b with
    | nil => cases hlen
    | cons y ys =>
      rw [memcmp] at h
      split at h
      · rename_i heq
        rw [heq, ih (Nat.succ.inj hlen) h]
      · split at h <;> cases h

theorem foldl_swapWord (addrs : In6Addr × In6Addr) (m : Nat) :
    (List.range m).foldl swapWord addrs =
      (fun k => if k.val / 4 < m then addrs.2 k else addrs.1 k,
        fun k => if k.val / 4 < m then addrs.1 k else addrs.2 k) := by
  induction m with
  | zero => rfl
  | succ m ih =>
    rw [List.range_succ, List.foldl_append, ih, List.foldl_cons, List.foldl_nil, swapWord]
    refine Prod.ext (funext fun k => ?_) (funext fun k => ?_)
    · dsimp only
      split_ifs <;> first | rfl | omega
    · dsimp only
      split_ifs <;> first | rfl | omega

theorem swapWords_eq_swap (addrs : In6Addr × In6Addr) : (List.range 4).foldl swapWord addrs = addrs.swap := by
  rw [foldl_swapWord]
  refine Prod.ext (funext fun k => ?_) (funext fun k => ?_)
  · exact if_pos (by omega)
  · exact if_pos (by omega)

theorem exchanges_neg (hne : d = 0 → port16.1 ≠ port16.2) :
    exchanges (-d) port16.swap ↔ ¬ exchanges d port16 := by
  have hports : d = 0 → port16.1.toNat ≠ port16.2.toNat := fun h heq => hne h (UInt16.toNat_inj.mp heq)
  simp only [exchanges, Prod.fst_swap, Prod.snd_swap, UInt16.lt_iff_toNat_lt]
  omega

theorem same_order (hsame : d = 0 → port16.1 = port16.2 → other = frame) :
    (if exchanges (-d) port16.swap then frame else other) = if exchanges d port16 then other else frame := by
  by_cases htie : d = 0 ∧ port16.1 = port16.2
  · rw [hsame htie.1 htie.2, ite_self, ite_self]
  · rw [not_and] at htie
    by_cases hex : exchanges d port16
    · rw [if_pos hex, if_neg fun h => (exchanges_neg htie).mp h hex]
    · rw [if_neg hex, if_pos ((exchanges_neg htie).mpr hex)]

theorem addrDiff_swap (h : b - a ≠ 2 ^ 31) : addrDiff a b = -addrDiff b a := by
  have hsub : (a - b).toBitVec = -(b - a).toBitVec := by
    rw [← UInt32.toBitVec_neg, UInt32.neg_sub]
  have hmin : (b - a).toBitVec ≠ BitVec.intMin 32 := fun heq => h (UInt32.toBitVec_inj.mp heq)
  rw [addrDiff, addrDiff, hsub, BitVec.toInt_neg_of_ne_intMin hmin]

theorem addrDiff_eq_zero (h : addrDiff a b = 0) : a = b := by
  have hzero : (a - b).toBitVec = 0#32 := BitVec.toInt_inj.mp h
  have hsub : a - b = 0 := UInt32.toBitVec_inj.mp hzero
  rw [UInt32.sub_eq_iff_eq_add.mp hsub, UInt32.zero_add]

/-- IPv4 addresses that are `2 ^ 31` apart. -/
def FlowFrame.Opposite (ipv4 : Nat) (frame : FlowFrame ρ) : Prop :=
  frame.addr_type = ipv4 ∧ frame.v4_addrs.2 - frame.v4_addrs.1 = 2 ^ 31

theorem consistentify_exchange (htype : frame.addr_type = ipv4 ∨ frame.addr_type = ipv6)
    (hopp : ¬ frame.Opposite ipv4) :
    consistentify ipv4 ipv6 (frame.exchange ipv4) = consistentify ipv4 ipv6 frame := by
  by_cases hv4 : frame.addr_type = ipv4
  · have hdiff := addrDiff_swap fun h => hopp ⟨hv4, h⟩
    rw [FlowFrame.exchange, if_pos hv4, consistentify, if_pos hv4, consistentify, if_pos hv4]
    simp only [Prod.fst_swap, Prod.snd_swap, Prod.swap_swap]
    rw [hdiff]
    refine same_order fun hzero hports => ?_
    have haddrs := addrDiff_eq_zero hzero
    obtain ⟨t, r, ⟨p, q⟩, ⟨a, b⟩, v6⟩ := frame
    dsimp only at haddrs hports
    rw [haddrs, hports]
    rfl
  · have hv6 := htype.resolve_left hv4
    have hdiff := memcmp_swap (List.ofFn frame.v6_addrs.2) (List.ofFn frame.v6_addrs.1)
    rw [FlowFrame.exchange, if_neg hv4, consistentify, if_neg hv4, if_pos hv6, consistentify, if_neg hv4,
      if_pos hv6, swapWords_eq_swap, swapWords_eq_swap]
    simp only [Prod.fst_swap, Prod.snd_swap, Prod.swap_swap]
    rw [hdiff]
    refine same_order fun hzero hports => ?_
    have haddrs := List.ofFn_injective (memcmp_eq_zero (by rw [List.length_ofFn, List.length_ofFn]) hzero)
    obtain ⟨t, r, ⟨p, q⟩, v4, ⟨a, b⟩⟩ := frame
    dsimp only at haddrs hports
    rw [haddrs, hports]
    rfl

theorem consistentify_opposite (ipv6 : Nat) (hopp : frame.Opposite ipv4) :
    consistentify ipv4 ipv6 (frame.exchange ipv4) ≠ consistentify ipv4 ipv6 frame := by
  obtain ⟨hv4, hdiff⟩ := hopp
  have hback : frame.v4_addrs.1 - frame.v4_addrs.2 = 2 ^ 31 := by
    rw [← UInt32.neg_sub, hdiff]
    rfl
  have hneg : ∀ a b : UInt32, a - b = 2 ^ 31 → addrDiff a b < 0 := by
    intro a b h
    rw [addrDiff, h]
    decide
  rw [FlowFrame.exchange, if_pos hv4, consistentify, if_pos hv4, consistentify, if_pos hv4,
    if_pos (.inl (hneg _ _ hback)), if_pos (.inl (hneg _ _ hdiff))]
  intro heq
  have haddrs := congrArg (fun f => f.v4_addrs.1) heq
  simp only [Prod.fst_swap, Prod.swap_swap] at haddrs
  rw [haddrs, UInt32.sub_self] at hdiff
  exact absurd hdiff (by decide)

/-- **The two directions of a flow give the same endpoints**, in the same order, just if it has no
IPv4 addresses `2 ^ 31` apart, for the frames of `XDP2_HASH_CONSISTENTIFY` and those of
`parselite_hash_metadata`; and the hash is then the same. -/
theorem consistentify_exchange_iff (hash : FlowFrame ρ → UInt32) (frame : FlowFrame ρ) :
    (frame.addr_type = addrTypeIpv4 ∨ frame.addr_type = addrTypeIpv6 →
      ((hashConsistentify (frame.exchange addrTypeIpv4) = hashConsistentify frame ↔
          ¬ frame.Opposite addrTypeIpv4) ∧
        (¬ frame.Opposite addrTypeIpv4 →
          parserBigHashFrame hash (frame.exchange addrTypeIpv4) = parserBigHashFrame hash frame))) ∧
    (frame.addr_type = parseliteAtypeIpv4 ∨ frame.addr_type = parseliteAtypeIpv6 →
      (((parseliteHashMetadata hash (frame.exchange parseliteAtypeIpv4)).1 = (parseliteHashMetadata hash frame).1 ↔
          ¬ frame.Opposite parseliteAtypeIpv4) ∧
        (¬ frame.Opposite parseliteAtypeIpv4 →
          parseliteHashMetadata hash (frame.exchange parseliteAtypeIpv4) = parseliteHashMetadata hash frame))) := by
  refine ⟨fun htype => ⟨⟨fun h hopp => consistentify_opposite _ hopp h, consistentify_exchange htype⟩, ?_⟩,
    fun htype => ⟨⟨fun h hopp => consistentify_opposite _ hopp h, consistentify_exchange htype⟩, ?_⟩⟩
  · intro hopp
    rw [parserBigHashFrame, parserBigHashFrame, hashConsistentify, hashConsistentify,
      consistentify_exchange htype hopp]
  · intro hopp
    rw [parseliteHashMetadata, parseliteHashMetadata, consistentify_exchange htype hopp]

/-- A frame with two IPv4 addresses, as they are read on a little-endian machine. -/
def v4Frame (addr_type : Nat) (src dst : UInt32) : FlowFrame Unit :=
  ⟨addr_type, (), (40000, 80), (src, dst), (fun _ => 0, fun _ => 0)⟩

/-- The addresses 10.0.0.1 and 10.0.0.2. -/
theorem consistentify_exchange_neighbours :
    hashConsistentify ((v4Frame addrTypeIpv4 0x0100000a 0x0200000a).exchange addrTypeIpv4) =
        hashConsistentify (v4Frame addrTypeIpv4 0x0100000a 0x0200000a) ∧
      (parseliteHashMetadata (fun _ => 0)
          ((v4Frame parseliteAtypeIpv4 0x0100000a 0x0200000a).exchange parseliteAtypeIpv4)).1 =
        (parseliteHashMetadata (fun _ => 0) (v4Frame parseliteAtypeIpv4 0x0100000a 0x0200000a)).1 :=
  ⟨((consistentify_exchange_iff (fun _ => 0) _).1 (.inl rfl)).1.mpr fun h => absurd h.2 (by decide),
    ((consistentify_exchange_iff (fun _ => 0) _).2 (.inl rfl)).1.mpr fun h => absurd h.2 (by decide)⟩

/-- The addresses 10.0.0.1 and 10.0.0.129. -/
theorem consistentify_halfApart :
    hashConsistentify ((v4Frame addrTypeIpv4 0x0100000a 0x8100000a).exchange addrTypeIpv4) ≠
        hashConsistentify (v4Frame addrTypeIpv4 0x0100000a 0x8100000a) ∧
      (parseliteHashMetadata (fun _ => 0)
          ((v4Frame parseliteAtypeIpv4 0x0100000a 0x8100000a).exchange parseliteAtypeIpv4)).1 ≠
        (parseliteHashMetadata (fun _ => 0) (v4Frame parseliteAtypeIpv4 0x0100000a 0x8100000a)).1 := by
  have hopp : ∀ t, (v4Frame t 0x0100000a 0x8100000a).Opposite t := fun t =>
    ⟨rfl, (by decide : (0x8100000a : UInt32) - 0x0100000a = 2 ^ 31)⟩
  exact ⟨consistentify_opposite addrTypeIpv6 (hopp _), consistentify_opposite parseliteAtypeIpv6 (hopp parseliteAtypeIpv4)⟩

end

end Xdp2
