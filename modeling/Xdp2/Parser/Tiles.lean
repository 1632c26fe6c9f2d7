import Xdp2.Lib.Abut
import Xdp2.Parser.OneTlv

/-!
# The area of the TLVs of a header

`xdp2_parse_tlvs` cuts the area from `start_offset` to the end of the header into padding bytes,
TLVs with a node and unknown TLVs. `TlvsRun` is the loop as it is meant, with its pieces, the offset
where it stops and the number of TLVs. The pieces abut, and every callback is handed its piece
(`TlvsRun.covers`, `TlvsRun.log`). The function does not return from a TLV that is too short for its
node if there is a wildcard node, or whose overlay nodes form a cycle (`ReturnsAt`); and the counter
of TLVs is an `unsigned int`, the limit a `size_t`.
-/

namespace Xdp2

open StateError

variable {α : Type}

/-- What the loop takes a piece of the area for. -/
inductive TileKind where
  | pad1
  | unknown
  | node (id : TlvId)
  deriving DecidableEq

/-- A piece of the area. -/
structure Tile where
  off : Nat
  len : Nat
  kind : TileKind

/-- The number of TLVs in a piece: none in padding. -/
def Tile.tlvs (t : Tile) : Nat := if t.kind = .pad1 then 0 else 1

/-- The pieces cover the area from one offset to another. -/
abbrev Tile.Cover : Nat → List Tile → Nat → Prop := Abut.Covers Tile.off Tile.len

/-- The byte at `cp` is one byte of padding. -/
abbrev ProtoTlvsDef.Pad1 (d : ProtoTlvsDef) (cp : Hdr) : Prop :=
  d.pad1_enable = true ∧ cp.byte = d.pad1_val

/-- The byte at `cp` is the end of the list. -/
abbrev ProtoTlvsDef.Eol (d : ProtoTlvsDef) (cp : Hdr) : Prop :=
  d.eol_enable = true ∧ cp.byte = d.eol_val

/-- The node of a TLV: that of the table, else the wildcard node. -/
def ParseTlvsNode.tlvNode (tn : ParseTlvsNode) (type : Int) : Option TlvId :=
  (tn.tlv_proto_table.bind (lookupTlvNode type)).or tn.tlv_wildcard_node

/-- The kind of a TLV. -/
def ParseTlvsNode.tlvKind (tn : ParseTlvsNode) (type : Int) : TileKind :=
  ((tn.tlvNode type).map TileKind.node).getD .unknown

/-- The piece is what the header has at its offset. -/
inductive TileAt (tn : ParseTlvsNode) (d : ProtoTlvsDef) (hdr : Hdr) (hlen : Nat) : Tile → Prop where
  | pad1 {o : Nat} (ho : o < hlen) (hpad : d.Pad1 (hdr.add o)) : TileAt tn d hdr hlen ⟨o, 1, .pad1⟩
  | tlv {o len : Nat} (ho : o < hlen) (hpad : ¬ d.Pad1 (hdr.add o)) (heol : ¬ d.Eol (hdr.add o))
      (hlen' : d.tlvLen (hdr.add o) (hlen - o) = some len) :
      TileAt tn d hdr hlen ⟨o, len, tn.tlvKind (d.type (hdr.add o))⟩

/-- The callback is one of a TLV node and gets the piece `t`. -/
structure TileCall (hdr : Hdr) (frame : Nat) (t : Tile) (c : Call) : Prop where
  kind : ∃ id, t.kind = .node id
  role : c.role.isTlv = true
  hdr_eq : c.hdr = some (hdr.add t.off).off
  len_eq : c.hdr_len = t.len
  frame_eq : c.frame = frame

/-- The loop halts at an offset, with `n` TLVs behind it, and takes no other piece. -/
inductive TlvsHalt (tn : ParseTlvsNode) (d : ProtoTlvsDef) (hdr : Hdr) (hlen : Nat) :
    Nat → Nat → Int → Prop where
  | full {n : Nat} : TlvsHalt tn d hdr hlen hlen n Code.okay
  | eol {o n : Nat} (ho : o < hlen) (heol : d.Eol (hdr.add o)) :
      TlvsHalt tn d hdr hlen o n Code.okay
  | limit {o n : Nat} (ho : o < hlen) (hmax : tn.max_tlvs ≠ 0) (hn : n = tn.max_tlvs) :
      TlvsHalt tn d hdr hlen o n Code.stopOptionLimit
  | length {o n : Nat} (ho : o < hlen) (hlen' : d.tlvLen (hdr.add o) (hlen - o) = none) :
      TlvsHalt tn d hdr hlen o n Code.stopTlvLength
  /-- An unknown TLV that is not skipped. -/
  | unknown {o n len : Nat} (htile : TileAt tn d hdr hlen ⟨o, len, .unknown⟩)
      (hret : tn.unknown_tlv_type_ret ≠ Code.okay) :
      TlvsHalt tn d hdr hlen o n tn.unknown_tlv_type_ret

/-- The loop as it is meant, from an offset and a number of TLVs on: the pieces it takes, the offset
at which it stops, and the code. -/
inductive TlvsRun (tn : ParseTlvsNode) (d : ProtoTlvsDef) (hdr : Hdr) (hlen frame : Nat) :
    Nat → Nat → St α → List Tile → Nat → Int → St α → Prop where
  | halt {o n : Nat} {s : St α} {ret : Int} (h : TlvsHalt tn d hdr hlen o n ret) :
      TlvsRun tn d hdr hlen frame o n s [] o ret s
  /-- A TLV whose node stops the parse. -/
  | stop {n : Nat} {t : Tile} {id : TlvId} {s s' : St α} {ret : Int} (htile : TileAt tn d hdr hlen t)
      (hkind : t.kind = .node id) (hn : tn.max_tlvs ≠ 0 → n < tn.max_tlvs)
      (hcalls : Moves (TileCall hdr frame t) s s') (hret : ret ≠ Code.okay) :
      TlvsRun tn d hdr hlen frame t.off n s [t] (t.off + t.len) ret s'
  | next {n e : Nat} {t : Tile} {ts : List Tile} {s s1 s' : St α} {ret : Int}
      (htile : TileAt tn d hdr hlen t) (hn : tn.max_tlvs ≠ 0 → n + t.tlvs ≤ tn.max_tlvs)
      (hcalls : Moves (TileCall hdr frame t) s s1)
      (hrest : TlvsRun tn d hdr hlen frame (t.off + t.len) (n + t.tlvs) s1 ts e ret s') :
      TlvsRun tn d hdr hlen frame t.off n s (t :: ts) e ret s'

/-- A run from the offset `o` on can come to the piece `t`. -/
def TileFrom (tn : ParseTlvsNode) (d : ProtoTlvsDef) (hdr : Hdr) (hlen o : Nat) (t : Tile) : Prop :=
  ∃ ts, Tile.Cover o ts t.off ∧ (∀ u ∈ ts, TileAt tn d hdr hlen u) ∧ TileAt tn d hdr hlen t

/-- The parse of a TLV of length `len` with the node `id` returns: the TLV is not too short for it or
there is no wildcard node, no chain of overlay nodes is endless, and a node without a definition has
no overlays. -/
structure ReturnsAt (g : Graph α) (tn : ParseTlvsNode) (len : Nat) (id : TlvId) : Prop where
  long : ¬ (tlvTooShort (g.tlv id).proto_tlv_def len = true ∧ tn.tlv_wildcard_node.isSome = true)
  acyclic : Acc (fun b a => OverlayEdge g a b) id
  defined : (g.tlv id).proto_tlv_def = none →
    ∀ id', OverlayReach g id id' → (g.tlv id').overlay_table = none

/-- No overlay node behind `id` has nested TLVs. -/
def Graph.Flat (g : Graph α) (id : TlvId) : Prop :=
  ∀ id', OverlayReach g id id' → (g.tlv id').nested_node = none

/-! ## Pieces -/

section
variable {tn : ParseTlvsNode} {d : ProtoTlvsDef} {hdr : Hdr} {hlen frame n : Nat} {t : Tile} {ts : List Tile}
  {s s' : St α} {ret : Int}

theorem Tile.tlvs_node {id : TlvId} (h : t.kind = .node id) : t.tlvs = 1 := by
  simp [Tile.tlvs, h]

theorem ParseTlvsNode.tlvKind_ne_pad1 (type : Int) : tn.tlvKind type ≠ .pad1 := by
  rw [ParseTlvsNode.tlvKind]
  cases tn.tlvNode type with
  | none => exact (fun h => by cases h)
  | some id => exact (fun h => by cases h)

theorem ProtoTlvsDef.tlvLen_fits {left len : Nat} (hmin : d.len = none → 0 < d.min_len)
    (h : d.tlvLen cp left = some len) : 0 < len ∧ len ≤ left := by
  rw [ProtoTlvsDef.tlvLen] at h
  split at h
  · cases h
  · rename_i hle
    cases hl : d.len with
    | none =>
      rw [hl] at h
      cases h
      exact ⟨hmin hl, Nat.le_of_not_lt hle⟩
    | some f =>
      rw [hl] at h
      dsimp only at h
      split at h
      · cases h
      · rename_i hno
        cases h
        omega

theorem TileAt.fits (hmin : d.len = none → 0 < d.min_len) (h : TileAt tn d hdr hlen t) :
    0 < t.len ∧ t.off + t.len ≤ hlen := by
  cases h with
  | pad1 ho _ => exact ⟨Nat.one_pos, ho⟩
  | tlv ho _ _ hl =>
    obtain ⟨hpos, hle⟩ := ProtoTlvsDef.tlvLen_fits hmin hl
    dsimp only
    omega

theorem TileFrom.tail (ht : TileAt tn d hdr hlen t) (h : TileFrom tn d hdr hlen (t.off + t.len) u) :
    TileFrom tn d hdr hlen t.off u := by
  obtain ⟨ts, hcover, hts, hu⟩ := h
  exact ⟨t :: ts, .cons rfl hcover, List.forall_mem_cons.mpr ⟨ht, hts⟩, hu⟩

namespace TlvsRun

theorem covers (h : TlvsRun tn d hdr hlen frame o n s ts e ret s') : Tile.Cover o ts e := by
  induction h with
  | halt _ => exact .nil
  | stop _ _ _ _ _ => exact .one rfl
  | next _ _ _ _ ih => exact .cons rfl ih

theorem tileAt (h : TlvsRun tn d hdr hlen frame o n s ts e ret s') :
    ∀ t ∈ ts, TileAt tn d hdr hlen t := by
  induction h with
  | halt _ => exact List.forall_mem_nil _
  | stop htile _ _ _ _ => exact List.forall_mem_singleton.mpr htile
  | next htile _ _ _ ih => exact List.forall_mem_cons.mpr ⟨htile, ih⟩

theorem stop_le (hmin : d.len = none → 0 < d.min_len)
    (h : TlvsRun tn d hdr hlen frame o n s ts e ret s') : e ≤ hlen := by
  induction h with
  | halt h =>
    cases h with
    | full => exact le_rfl
    | eol ho _ => exact ho.le
    | limit ho _ _ => exact ho.le
    | length ho _ => exact ho.le
    | unknown htile _ => exact (Nat.le_add_right _ _).trans (htile.fits hmin).2
  | stop htile _ _ _ _ => exact (htile.fits hmin).2
  | next _ _ _ _ ih => exact ih

theorem tlvs_le (h : TlvsRun tn d hdr hlen frame o n s ts e ret s') (hmax : tn.max_tlvs ≠ 0)
    (hn : n ≤ tn.max_tlvs) : n + (ts.map Tile.tlvs).sum ≤ tn.max_tlvs := by
  induction h with
  | halt _ => exact hn
  | stop _ hkind hlt _ _ =>
    rw [List.map_singleton, List.sum_singleton, Tile.tlvs_node hkind]
    exact hlt hmax
  | next _ hle _ _ ih =>
    rw [List.map_cons, List.sum_cons, ← Nat.add_assoc]
    exact ih (hle hmax)

theorem log (h : TlvsRun tn d hdr hlen frame o n s ts e ret s') :
    ∃ ess : List (List Event), s'.log = s.log ++ ess.flatten ∧
      List.Forall₂ (fun t es => ∀ ev ∈ es, ∃ c, ev = .call c ∧ TileCall hdr frame t c) ts ess := by
  induction h with
  | halt _ => exact ⟨[], (List.append_nil _).symm, .nil⟩
  | stop _ _ _ hcalls _ =>
    obtain ⟨es, hlog, hes⟩ := hcalls.log
    exact ⟨[es], by rw [hlog, List.flatten_singleton], .cons hes .nil⟩
  | next _ _ hcalls _ ih =>
    obtain ⟨es, hlog, hes⟩ := hcalls.log
    obtain ⟨ess, hlog', hess⟩ := ih
    exact ⟨es :: ess, by rw [hlog', hlog, List.flatten_cons, List.append_assoc], .cons hes hess⟩

end TlvsRun

end

/-! ## The counter -/

/-- The counter `cnt` stands for the number `n` of TLVs, with `left` bytes of the area to come: it
is that number, or the limit is above what the counter can hold and the area too small for it. -/
structure Counts (max left : Nat) (cnt : UInt32) (n : Nat) : Prop where
  le : max ≠ 0 → n ≤ max
  room : max ≠ 0 → max + 1 < 2 ^ 32 ∧ cnt.toNat = n ∨ 2 ^ 32 ≤ max + 1 ∧ n + left ≤ max

namespace Counts

variable {max left n : Nat} {cnt : UInt32}

theorem init (h : max ≠ 0 → max + 1 < 2 ^ 32 ∨ left ≤ max) : Counts max left 0 0 where
  le _ := Nat.zero_le _
  room hmax := by
    have hzero : (0 : UInt32).toNat = 0 := rfl
    rcases h hmax with hlt | hle
    · exact .inl ⟨hlt, hzero⟩
    · omega

theorem toNat_succ (h : cnt.toNat + 1 < 2 ^ 32) : (cnt + 1).toNat = cnt.toNat + 1 := by
  rw [UInt32.toNat_add]
  exact Nat.mod_eq_of_lt h

theorem eq_max (h : Counts max left cnt n) (hmax : max ≠ 0) (hover : max < (cnt + 1).toNat) :
    n = max := by
  have hle := h.le hmax
  rcases h.room hmax with ⟨hlt, hcnt⟩ | ⟨hge, -⟩
  · rw [toNat_succ (by omega)] at hover
    omega
  · have := (cnt + 1).toNat_lt
    omega

theorem lt_max (h : Counts max left cnt n) (hleft : 0 < left)
    (hunder : ¬ (max ≠ 0 ∧ max < (cnt + 1).toNat)) (hmax : max ≠ 0) : n < max := by
  have hle := h.le hmax
  have hunder := Nat.le_of_not_lt fun hlt => hunder ⟨hmax, hlt⟩
  rcases h.room hmax with ⟨hlt, hcnt⟩ | ⟨-, hroom⟩
  · rw [toNat_succ (by omega)] at hunder
    omega
  · omega

theorem skip (h : Counts max left cnt n) : Counts max (left - 1) cnt n :=
  ⟨h.le, fun hmax => (h.room hmax).imp_right fun hroom => ⟨hroom.1, by omega⟩⟩

theorem step (h : Counts max left cnt n) (hpos : 0 < len) (hlen : len ≤ left)
    (hlt : max ≠ 0 → n < max) : Counts max (left - len) (cnt + 1) (n + 1) where
  le := hlt
  room hmax := by
    have hn := hlt hmax
    rcases h.room hmax with ⟨hmax', hcnt⟩ | ⟨hge, hroom⟩
    · exact .inl ⟨hmax', by rw [toNat_succ (by omega), hcnt]⟩
    · exact .inr ⟨hge, by omega⟩

end Counts

/-! ## One TLV -/

section
variable {g : Graph α} {tn : ParseTlvsNode} {hdr : Hdr} {frame : Nat} {id : TlvId} {t : Tile}

theorem parseOneTlvAgain_calls (tn : ParseTlvsNode) (hdr : Hdr) (frame : Nat)
    (d : Option ProtoTlvDef) (hkind : ∃ id, t.kind = .node id) (fuel : Nat) (hflat : g.Flat id) :
    CallRun (TileCall hdr frame t)
      (parseOneTlvAgain g frame fuel tn d (hdr.add t.off) t.len id) := by
  induction fuel generalizing id with
  | zero => exact fun s => .refl s
  | succ fuel ih =>
    by_cases hshort : tlvTooShort d t.len = true
    · intro s
      rw [parseOneTlvAgain, if_pos hshort]
      cases hw : tn.tlv_wildcard_node with
      | none => exact .refl s
      | some w =>
        dsimp only
        rw [parseOneTlvAgain_loops hshort hw]
        exact .refl s
    · rw [parseOneTlvAgain, if_neg hshort, hflat id .refl]
      refine CallRun.bind (callExtract_moves ⟨hkind, rfl, rfl, rfl, rfl⟩) fun _ =>
        CallRun.bind (callHandler_moves fun ret => ⟨hkind, rfl, rfl, rfl, rfl⟩) fun ret => ?_
      split
      · exact .pure _
      · refine CallRun.bind (fun s => ?_) fun ret => ?_
        · cases fuel with
          | zero => exact .refl s
          | succ fuel => exact .refl s
        · split
          · exact .pure _
          · split
            · exact .pure _
            · rename_i table htable
              refine CallRun.bind (.deref d) fun d' => ?_
              split
              · rename_i next hnext
                exact ih fun id' h => hflat id' (.head (overlayEdge_of_or htable hnext) h)
              · exact .pure _

theorem parseTypedTlv_ends (hkind : t.kind = .node id) (hnode : tn.tlvNode type = some id)
    (hflat : g.Flat id) (hret : ReturnsAt g tn t.len id) (s : St α) :
    ∃ N ret s', (∀ fuel, N ≤ fuel →
        (parseTypedTlv g frame fuel tn (hdr.add t.off) t.len type).run s = .ok ret s') ∧
      Moves (TileCall hdr frame t) s s' := by
  have htyped : ∀ fuel, (parseTypedTlv g frame (fuel + 1) tn (hdr.add t.off) t.len type).run s =
      (parseOneTlvAgain g frame fuel tn (g.tlv id).proto_tlv_def (hdr.add t.off) t.len id).run s := by
    intro fuel
    rw [ParseTlvsNode.tlvNode] at hnode
    rw [parseTypedTlv, hnode]
  cases hlong : tlvTooShort (g.tlv id).proto_tlv_def t.len with
  | true =>
    have hw : tn.tlv_wildcard_node = none :=
      Option.not_isSome_iff_eq_none.mp fun hsome => hret.long ⟨hlong, hsome⟩
    refine ⟨2, tn.unknown_tlv_type_ret, s, fun fuel hfuel => ?_, .refl s⟩
    obtain ⟨fuel, rfl⟩ : ∃ fuel', fuel = fuel' + 2 := ⟨fuel - 2, by omega⟩
    rw [htyped, parseOneTlvAgain, if_pos hlong, hw]
    rfl
  | false =>
    obtain ⟨N, r, hr, hfault, -⟩ := oneTlv_ends tn (hdr.add t.off) frame hlong hret.acyclic hflat s
    cases r with
    | error e s' =>
      obtain ⟨-, hnone, id', hreach, htable⟩ := hfault e s' rfl
      exact absurd (hret.defined hnone id' hreach) htable
    | ok ret s' =>
      refine ⟨N + 1, ret, s', fun fuel hfuel => ?_, ?_⟩
      · obtain ⟨fuel, rfl⟩ : ∃ fuel', fuel = fuel' + 1 := ⟨fuel - 1, by omega⟩
        rw [htyped]
        exact hr fuel (by omega)
      · have hmoves := parseOneTlvAgain_calls tn hdr frame (g.tlv id).proto_tlv_def ⟨id, hkind⟩ N hflat s
        rwa [hr N le_rfl] at hmoves

theorem parseTypedTlv_tile (hdr : Hdr) (frame : Nat) (t : Tile) (hkind : t.kind = tn.tlvKind type)
    (hflat : ∀ id, tn.tlvNode type = some id → g.Flat id)
    (hret : ∀ id, tn.tlvNode type = some id → ReturnsAt g tn t.len id) (s : St α) :
    ∃ N ret s', (∀ fuel, N ≤ fuel →
        (parseTypedTlv g frame fuel tn (hdr.add t.off) t.len type).run s = .ok ret s') ∧
      Moves (TileCall hdr frame t) s s' ∧
      (tn.tlvNode type = none → ret = tn.unknown_tlv_type_ret ∧ s' = s) := by
  rw [ParseTlvsNode.tlvKind] at hkind
  cases hnode : tn.tlvNode type with
  | none =>
    refine ⟨1, tn.unknown_tlv_type_ret, s, fun fuel hfuel => ?_, .refl s, fun _ => ⟨rfl, rfl⟩⟩
    obtain ⟨fuel, rfl⟩ : ∃ fuel', fuel = fuel' + 1 := ⟨fuel - 1, by omega⟩
    rw [ParseTlvsNode.tlvNode] at hnode
    rw [parseTypedTlv, hnode]
    rfl
  | some id =>
    rw [hnode] at hkind
    obtain ⟨N, ret, s', hrun, hmoves⟩ :=
      parseTypedTlv_ends hkind hnode (hflat id hnode) (hret id hnode) s
    exact ⟨N, ret, s', hrun, hmoves, (fun h => by cases h)⟩

end

/-! ## The loop -/

section
variable {g : Graph α} {tn : ParseTlvsNode} {d : ProtoTlvsDef} {hdr : Hdr} {hlen frame : Nat}

theorem parseTlvsFrom_turn (g : Graph α) (tn : ParseTlvsNode) (d : ProtoTlvsDef) (hdr : Hdr)
    (hlen frame o len : Nat) (cnt : UInt32) (ho : o < hlen) (hlen64 : hlen < 2 ^ 64)
    (hpad : ¬ d.Pad1 (hdr.add o)) (heol : ¬ d.Eol (hdr.add o))
    (hlimit : ¬ (tn.max_tlvs ≠ 0 ∧ tn.max_tlvs < (cnt + 1).toNat))
    (hl : d.tlvLen (hdr.add o) (hlen - o) = some len) (hle : len ≤ hlen - o) (fuel : Nat) :
    parseTlvsFrom g frame (fuel + 1) tn d (hdr.add o) (hlen - o) cnt = (do
      let ret ← parseTypedTlv g frame fuel tn (hdr.add o) len (d.type (hdr.add o))
      if ret ≠ Code.okay then return ret
      else parseTlvsFrom g frame fuel tn d (hdr.add (o + len)) (hlen - (o + len)) (cnt + 1)) := by
  have hsub : subSize (hlen - o) len = hlen - (o + len) := by
    rw [subSize_eq hle (by omega)]
    omega
  rw [parseTlvsFrom, if_neg (by omega), if_neg hpad, if_neg heol, if_neg hlimit, hl]
  simp only [hsub, Hdr.add_add]

/-- A TLV that fits and is within the limit: it is a piece of the area, and the loop goes on behind
it or stops with it. -/
theorem parseTlvsFrom_tlv (ho : o < hlen) (hlen64 : hlen < 2 ^ 64) (hpad : ¬ d.Pad1 (hdr.add o))
    (heol : ¬ d.Eol (hdr.add o)) (hlimit : ¬ (tn.max_tlvs ≠ 0 ∧ tn.max_tlvs < (cnt + 1).toNat))
    (hlt : tn.max_tlvs ≠ 0 → n < tn.max_tlvs) (hl : d.tlvLen (hdr.add o) (hlen - o) = some len)
    (hle : len ≤ hlen - o) (hflat : ∀ type id, tn.tlvNode type = some id → g.Flat id)
    (hret : ∀ id, tn.tlvNode (d.type (hdr.add o)) = some id → ReturnsAt g tn len id)
    (ih : ∀ s1 : St α, ∃ N ret s' ts e, (∀ fuel, N ≤ fuel →
        (parseTlvsFrom g frame fuel tn d (hdr.add (o + len)) (hlen - (o + len)) (cnt + 1)).run s1 =
          .ok ret s') ∧
      TlvsRun tn d hdr hlen frame (o + len) (n + 1) s1 ts e ret s') :
    ∃ N ret s' ts e, (∀ fuel, N ≤ fuel →
        (parseTlvsFrom g frame fuel tn d (hdr.add o) (hlen - o) cnt).run s = .ok ret s') ∧
      TlvsRun tn d hdr hlen frame o n s ts e ret s' := by
  have hloop := parseTlvsFrom_turn g tn d hdr hlen frame o len cnt ho hlen64 hpad heol hlimit hl hle
  have htile : TileAt tn d hdr hlen ⟨o, len, tn.tlvKind (d.type (hdr.add o))⟩ :=
    .tlv ho hpad heol hl
  have htlvs : Tile.tlvs ⟨o, len, tn.tlvKind (d.type (hdr.add o))⟩ = 1 :=
    if_neg (tn.tlvKind_ne_pad1 _)
  obtain ⟨N, ret, s1, htyped, hcalls, hunknown⟩ := parseTypedTlv_tile hdr frame
    ⟨o, len, tn.tlvKind (d.type (hdr.add o))⟩ rfl (hflat _) hret s
  by_cases hokay : ret = Code.okay
  · obtain ⟨N', ret', s', ts, e, hrun, hrest⟩ := ih s1
    refine ⟨N + N' + 1, ret', s', _ :: ts, e, fun fuel hfuel => ?_, .next htile ?_ hcalls ?_⟩
    · obtain ⟨fuel, rfl⟩ : ∃ fuel', fuel = fuel' + 1 := ⟨fuel - 1, by omega⟩
      rw [hloop, run_bind_ok (htyped fuel (by omega)), if_neg (not_not.mpr hokay)]
      exact hrun fuel (by omega)
    · rw [htlvs]
      exact hlt
    · rw [htlvs]
      exact hrest
  · have hrun : ∀ fuel, N + 1 ≤ fuel →
        (parseTlvsFrom g frame fuel tn d (hdr.add o) (hlen - o) cnt).run s = .ok ret s1 := by
      intro fuel hfuel
      obtain ⟨fuel, rfl⟩ : ∃ fuel', fuel = fuel' + 1 := ⟨fuel - 1, by omega⟩
      rw [hloop, run_bind_ok (htyped fuel (by omega)), if_pos hokay]
      rfl
    cases hnode : tn.tlvNode (d.type (hdr.add o)) with
    | none =>
      obtain ⟨rfl, rfl⟩ := hunknown hnode
      have hkind : tn.tlvKind (d.type (hdr.add o)) = .unknown := by
        rw [ParseTlvsNode.tlvKind, hnode]
        rfl
      rw [hkind] at htile
      exact ⟨N + 1, _, _, [], o, hrun, .halt (.unknown htile hokay)⟩
    | some id =>
      have hkind : tn.tlvKind (d.type (hdr.add o)) = .node id := by
        rw [ParseTlvsNode.tlvKind, hnode]
        rfl
      exact ⟨N + 1, ret, s1, _, _, hrun, .stop htile hkind hlt hcalls hokay⟩

theorem parseTlvsFrom_runs (frame : Nat) (hlen64 : hlen < 2 ^ 64)
    (hmin : d.len = none → 0 < d.min_len) (hflat : ∀ type id, tn.tlvNode type = some id → g.Flat id)
    {n : Nat} {cnt : UInt32} (ho : o ≤ hlen) (hcnt : Counts tn.max_tlvs (hlen - o) cnt n)
    (hret : ∀ t id, TileFrom tn d hdr hlen o t → t.kind = .node id → ReturnsAt g tn t.len id)
    (s : St α) :
    ∃ N ret s' ts e, (∀ fuel, N ≤ fuel →
        (parseTlvsFrom g frame fuel tn d (hdr.add o) (hlen - o) cnt).run s = .ok ret s') ∧
      TlvsRun tn d hdr hlen frame o n s ts e ret s' := by
  -- every piece has a length, so the rest of the area gets smaller
  induction hk : hlen - o using Nat.strong_induction_on generalizing o n cnt s with
  | _ k ih =>
    subst hk
    have hone : ∀ {fuel}, 1 ≤ fuel → ∃ fuel', fuel = fuel' + 1 := fun h =>
      ⟨_, (Nat.sub_add_cancel h).symm⟩
    rcases ho.lt_or_eq with ho | rfl
    swap
    · refine ⟨1, Code.okay, s, [], o, fun fuel hfuel => ?_, .halt .full⟩
      obtain ⟨fuel, rfl⟩ := hone hfuel
      rw [parseTlvsFrom, if_pos (Nat.sub_self o)]
      rfl
    have hleft : ¬ hlen - o = 0 := by omega
    by_cases hpad : d.Pad1 (hdr.add o)
    · have htile : TileAt tn d hdr hlen ⟨o, 1, .pad1⟩ := .pad1 ho hpad
      have hcnt' : Counts tn.max_tlvs (hlen - (o + 1)) cnt n := hcnt.skip
      obtain ⟨N, ret, s', ts, e, hrun, hrest⟩ := ih (hlen - (o + 1)) (by omega) ho hcnt'
        (fun t id h => hret t id (.tail htile h)) s rfl
      refine ⟨N + 1, ret, s', _, e, fun fuel hfuel => ?_, .next htile hcnt.le (.refl s) hrest⟩
      obtain ⟨fuel, rfl⟩ := hone (show 1 ≤ fuel by omega)
      rw [parseTlvsFrom, if_neg hleft, if_pos hpad, Hdr.add_add, Nat.sub_sub]
      exact hrun fuel (by omega)
    by_cases heol : d.Eol (hdr.add o)
    · refine ⟨1, Code.okay, s, [], o, fun fuel hfuel => ?_, .halt (.eol ho heol)⟩
      obtain ⟨fuel, rfl⟩ := hone hfuel
      rw [parseTlvsFrom, if_neg hleft, if_neg hpad, if_pos heol]
      rfl
    by_cases hlimit : tn.max_tlvs ≠ 0 ∧ tn.max_tlvs < (cnt + 1).toNat
    · refine ⟨1, Code.stopOptionLimit, s, [], o, fun fuel hfuel => ?_,
        .halt (.limit ho hlimit.1 (hcnt.eq_max hlimit.1 hlimit.2))⟩
      obtain ⟨fuel, rfl⟩ := hone hfuel
      rw [parseTlvsFrom, if_neg hleft, if_neg hpad, if_neg heol, if_pos hlimit]
      rfl
    cases hl : d.tlvLen (hdr.add o) (hlen - o) with
    | none =>
      refine ⟨1, Code.stopTlvLength, s, [], o, fun fuel hfuel => ?_, .halt (.length ho hl)⟩
      obtain ⟨fuel, rfl⟩ := hone hfuel
      rw [parseTlvsFrom, if_neg hleft, if_neg hpad, if_neg heol, if_neg hlimit, hl]
      rfl
    | some len =>
      obtain ⟨hpos, hle⟩ := ProtoTlvsDef.tlvLen_fits hmin hl
      have hlt := hcnt.lt_max (by omega) hlimit
      have htile : TileAt tn d hdr hlen ⟨o, len, tn.tlvKind (d.type (hdr.add o))⟩ :=
        .tlv ho hpad heol hl
      refine parseTlvsFrom_tlv ho hlen64 hpad heol hlimit hlt hl hle hflat (fun id hnode => ?_)
        fun s1 => ?_
      · refine hret _ id ⟨[], .nil, List.forall_mem_nil _, htile⟩ ?_
        rw [ParseTlvsNode.tlvKind, hnode]
        rfl
      · have hcnt' : Counts tn.max_tlvs (hlen - (o + len)) (cnt + 1) (n + 1) := by
          rw [← Nat.sub_sub]
          exact hcnt.step hpos hle hlt
        have ho' : o + len ≤ hlen := by omega
        exact ih (hlen - (o + len)) (by omega) ho' hcnt' (fun t id h => hret t id (.tail htile h)) s1
          rfl

end

theorem xdp2ParseTlvs_loop {id : NodeId} {tn : ParseTlvsNode} {pd : ProtoDef} {d : ProtoTlvsDef}
    {hdr : Hdr} {hlen : Nat} (hnode : (g.node id).node_type = .tlvs tn)
    (hproto : (g.node id).proto_def = some pd) (hdef : pd.node_type = .tlvs d)
    (hlen64 : hlen < 2 ^ 64) (hstart : d.start_offset hdr ≤ hlen) (frame fuel : Nat) (s : St α) :
    (xdp2ParseTlvs g frame (fuel + 1) id hdr hlen).run s =
      (parseTlvsFrom g frame fuel tn d (hdr.add (d.start_offset hdr)) (hlen - d.start_offset hdr)
        0).run s := by
  have hderef : (derefTlvs g id : ParseM α _).run s = .ok (tn, d) s := by
    obtain ⟨_, _, _, _, _⟩ := pd
    cases hdef
    rw [derefTlvs, hnode, hproto]
    rfl
  rw [xdp2ParseTlvs, run_bind_ok hderef]
  dsimp only
  rw [subSize_eq hstart hlen64]

/-- TLVs of one byte, their type, behind padding bytes of zero. -/
def tlvsExampleDef : ProtoTlvsDef where
  type cp := cp.byte.toNat
  start_offset _ := 1
  pad1_enable := true
  min_len := 1

/-- At most two TLVs, with a node for type five. -/
def tlvsExampleNode (wildcard : Option TlvId) : ParseTlvsNode where
  tlv_proto_table := some [⟨5, some 0⟩]
  tlv_wildcard_node := wildcard
  max_tlvs := 2

/-- The nodes of the TLVs need `m` bytes. -/
def tlvsExample (m : Nat) (wildcard : Option TlvId) : Graph Unit where
  node _ :=
    { node_type := .tlvs (tlvsExampleNode wildcard)
      proto_def := some { node_type := .tlvs tlvsExampleDef, min_len := 1 } }
  tlv _ :=
    { proto_tlv_def := some { min_len := m }
      tlv_ops := { handler := some fun _ mem => (Code.okay, mem) } }
  flagField _ := {}
  arrel _ := {}

end Xdp2
