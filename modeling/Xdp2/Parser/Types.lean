import Xdp2.Lib.StateError

/-!
# Parse graphs

The data the parser loops read: protocol definitions and parse nodes (`parser_types.h`), with the
super structures of TLVs, flag-fields and array nodes, and the parser configuration.

Pointers between nodes are names that a `Graph` resolves, so a graph may be cyclic; one that may be
null is an `Option`. A header pointer is an offset into the memory from the packet's first byte on,
`Hdr.mem`, of which a protocol's functions are arbitrary functions. Callbacks may read and change
what the caller handed in (`UserMem`), and see the variable part of the control data (`CtrlVar`).
Names and debug printing are left out.
-/

namespace Xdp2

/-! ## Machine integers -/

/-- A signed value as a `size_t`. -/
def usize (i : Int) : Nat := (i % 2 ^ 64).toNat

/-- A `size_t` as a `ssize_t`. -/
def ssize (n : Nat) : Int := (n : Int).bmod (2 ^ 64)

/-- Subtraction of `size_t` values. -/
def subSize (a b : Nat) : Nat := (a + 2 ^ 64 - b % 2 ^ 64) % 2 ^ 64

theorem subSize_eq (hle : b ≤ a) (ha : a < 2 ^ 64) : subSize a b = a - b := by
  unfold subSize
  omega

/-- Pointer arithmetic, on offsets from the first byte of the packet. -/
def ptrAdd (off n : Nat) : Nat := (off + n) % 2 ^ 64

/-- A value stored in a `__s8`. -/
def s8 (i : Int) : Int := i.bmod (2 ^ 8)

/-- A value stored in an `int`. -/
def cint (i : Int) : Int := i.bmod (2 ^ 32)

/-! ## Return codes -/

namespace Code

def okay : Int := 0
def stopOkay : Int := -4
def stopNodeOkay : Int := -5
def stopSubNodeOkay : Int := -6
def stopFail : Int := -12
def stopLength : Int := -13
def stopUnknownProto : Int := -14
def stopEncapDepth : Int := -15
def stopUnknownTlv : Int := -16
def stopTlvLength : Int := -17
def stopOptionLimit : Int := -22
def stopMaxNodes : Int := -23
def stopThreadsFail : Int := -34

/-- `XDP2_CODE_IS_OKAY`. -/
def isOkay (code : Int) : Bool := code == okay || code == stopOkay

/-- One of the `XDP2_STOP_*` codes: the three okay ones and the failures, which the enumeration
lists without a gap. -/
def IsStop (code : Int) : Prop :=
  code = stopOkay ∨ code = stopNodeOkay ∨ code = stopSubNodeOkay ∨
    (stopThreadsFail ≤ code ∧ code ≤ stopFail)

instance (code : Int) : Decidable (IsStop code) := by
  unfold IsStop; infer_instance

end Code

/-! ## Pointers and callbacks -/

/-- A parse node, a protocol node of the graph. -/
abbrev NodeId := Nat
/-- A TLV node. -/
abbrev TlvId := Nat
/-- A flag-field node. -/
abbrev FlagFieldId := Nat
/-- An array element node. -/
abbrev ArrelId := Nat

/-- A pointer into the packet's memory. -/
structure Hdr where
  mem : Nat → UInt8
  off : Nat

/-- `*cp`. -/
def Hdr.byte (cp : Hdr) : UInt8 := cp.mem cp.off

/-- `cp + n`. -/
def Hdr.add (cp : Hdr) (n : Nat) : Hdr := { cp with off := ptrAdd cp.off n }

theorem Hdr.add_add (cp : Hdr) (m n : Nat) : (cp.add m).add n = cp.add (m + n) := by
  simp only [Hdr.add, ptrAdd, Nat.mod_add_mod, Nat.add_assoc]

/-- `struct xdp2_ctrl_var_data`, the fields the parser maintains. -/
structure CtrlVar where
  last_node : Option NodeId
  ret_code : Int
  encaps : UInt8
  tlv_levels : UInt8
  deriving DecidableEq

/-- The control data's variable part as the caller zeroes it. -/
def CtrlVar.zero : CtrlVar := ⟨none, 0, 0, 0⟩

/-- The memory the caller hands in and the callbacks work on: the metadata buffer, the counters
and keys of `struct xdp2_ctrl_key_data`, and the caller's argument. -/
structure UserMem (α : Type) where
  metadata : List UInt8
  counters : List UInt8
  keys : List UInt32
  arg : α
  deriving DecidableEq

/-- The arguments of a callback: header pointer (null for the special nodes), header length, frame
(as an offset into the metadata buffer) and control data. -/
structure CbArgs where
  hdr : Option Hdr
  hdr_len : Nat
  frame : Nat
  var : CtrlVar

/-- An `extract_metadata` operation. -/
abbrev ExtractMetadata (α : Type) := CbArgs → UserMem α → UserMem α

/-- A `handler` or `post_handler` operation. -/
abbrev Handler (α : Type) := CbArgs → UserMem α → Int × UserMem α

/-- `struct xdp2_parse_node_ops`; the ops of TLV, flag-field and array element nodes have no
`post_handler`. -/
structure NodeOps (α : Type) where
  extract_metadata : Option (ExtractMetadata α) := none
  handler : Option (Handler α) := none
  post_handler : Option (Handler α) := none

/-! ## Protocol definitions -/

/-- `struct xdp2_parse_ops`. `len` returns a `ssize_t`. -/
structure ParseOps where
  len : Option (Hdr → Nat → Int64) := none
  next_proto : Option (Hdr → Int) := none
  next_proto_keyin : Option (Hdr → UInt32 → Int) := none

/-- `struct xdp2_proto_tlvs_def` past its `proto_def`, with `struct xdp2_proto_tlvs_opts`. -/
structure ProtoTlvsDef where
  len : Option (Hdr → Nat → Int64) := none
  type : Hdr → Int
  start_offset : Hdr → Nat
  pad1_enable : Bool := false
  pad1_val : UInt8 := 0
  eol_enable : Bool := false
  eol_val : UInt8 := 0
  min_len : Nat

/-- `struct xdp2_flag_field`. -/
structure FlagField where
  flag : UInt32
  mask : UInt32
  size : Nat

/-- `struct xdp2_proto_flag_fields_def` past its `proto_def`. -/
structure ProtoFlagFieldsDef where
  get_flags : Hdr → UInt32
  start_fields_offset : Hdr → Nat
  flag_fields : List FlagField

/-- `struct xdp2_proto_array_def` past its `proto_def`. -/
structure ProtoArrayDef where
  el_type : Option (Hdr → Int) := none
  num_els : Hdr → Nat → UInt32
  start_offset : Hdr → Nat
  el_length : Nat

/-- `proto_def->node_type` with the super structure it announces. -/
inductive ProtoExt where
  | plain
  | tlvs (d : ProtoTlvsDef)
  | flagFields (d : ProtoFlagFieldsDef)
  | array (d : ProtoArrayDef)

/-- `struct xdp2_proto_def`. -/
structure ProtoDef where
  node_type : ProtoExt := .plain
  encap : Bool := false
  overlay : Bool := false
  min_len : UInt16
  ops : ParseOps := {}

/-! ## Parse nodes -/

/-- An entry of a protocol, TLV, flag-field or array table: a key and the node it selects. -/
structure Entry where
  value : Int
  node : Option Nat

/-- A look-up in a table of entries: the node of the first entry with the key. The source has
one copy for each kind of table. -/
def lookup (value : Int) : List Entry → Option Nat
  | [] => none
  | e :: table => if value = e.value then e.node else lookup value table

theorem lookup_mem (h : lookup value table = some b) :
    ∃ e ∈ table, e.node = some b := by
  induction table with
  | nil => cases h
  | cons e table ih =>
    rw [lookup] at h
    split at h
    · exact ⟨e, List.mem_cons_self, h⟩
    · obtain ⟨e', he', hb⟩ := ih h
      exact ⟨e', List.mem_cons_of_mem e he', hb⟩

theorem lookup_or_mem (h : (lookup value table).or w = some b) :
    (∃ e ∈ table, e.node = some b) ∨ w = some b := by
  cases hlook : lookup value table with
  | none =>
    rw [hlook, Option.none_or] at h
    exact .inr h
  | some b' =>
    rw [hlook, Option.some_or, Option.some_inj] at h
    subst h
    exact .inl (lookup_mem hlook)

/-- `lookup_node`. -/
def lookupNode (type : Int) (table : List Entry) : Option NodeId := lookup type table

/-- `lookup_tlv_node`. -/
def lookupTlvNode (type : Int) (table : List Entry) : Option TlvId := lookup type table

/-- `lookup_array_node`. -/
def lookupArrayNode (type : Int) (table : List Entry) : Option ArrelId := lookup type table

/-- `lookup_flag_field_node`. -/
def lookupFlagFieldNode (idx : Int) (table : List Entry) : Option FlagFieldId := lookup idx table

/-- `struct xdp2_proto_tlv_def`. -/
structure ProtoTlvDef where
  min_len : Nat
  nested_offset : Option (Hdr → Nat → Nat) := none
  overlay_type : Option (Hdr → Int) := none

/-- `struct xdp2_parse_tlv_node`. -/
structure ParseTlvNode (α : Type) where
  proto_tlv_def : Option ProtoTlvDef := none
  tlv_ops : NodeOps α := {}
  overlay_table : Option (List Entry) := none
  overlay_wildcard_node : Option TlvId := none
  unknown_overlay_ret : Int := Code.okay
  nested_node : Option NodeId := none

/-- `struct xdp2_parse_tlvs_node` past its parse node. -/
structure ParseTlvsNode where
  tlv_proto_table : Option (List Entry) := none
  unknown_tlv_type_ret : Int := Code.okay
  tlv_wildcard_node : Option TlvId := none
  max_tlvs : Nat := 0

/-- `struct xdp2_parse_flag_fields_node` past its parse node. -/
structure ParseFlagFieldsNode where
  flag_fields_proto_table : Option (List Entry) := none

/-- `struct xdp2_parse_array_node` past its parse node. -/
structure ParseArrayNode where
  array_proto_table : Option (List Entry) := none
  max_els : UInt32 := 0xffffffff
  unknown_array_type_ret : Int := Code.okay
  array_wildcard_node : Option ArrelId := none

/-- `parse_node->node_type` with the super structure it announces. -/
inductive NodeExt where
  | plain
  | tlvs (n : ParseTlvsNode)
  | flagFields (n : ParseFlagFieldsNode)
  | array (n : ParseArrayNode)

/-- `struct xdp2_parse_node`. `zero_len_ok` is the bit `XDP2_PARSE_NODE_F_ZERO_LEN_OK` of
`flags`, the only one. -/
structure ParseNode (α : Type) where
  node_type : NodeExt := .plain
  unknown_ret : Int8 := -14
  key_sel : UInt8 := 0
  zero_len_ok : Bool := false
  proto_def : Option ProtoDef
  ops : NodeOps α := {}
  proto_table : Option (List Entry) := none
  wildcard_node : Option NodeId := none

/-- The nodes of a parse graph. -/
structure Graph (α : Type) where
  node : NodeId → ParseNode α
  tlv : TlvId → ParseTlvNode α
  flagField : FlagFieldId → NodeOps α
  arrel : ArrelId → NodeOps α

/-- `struct xdp2_parser_config`. -/
structure Config where
  max_nodes : UInt16
  max_encaps : UInt16
  max_frames : UInt16
  metameta_size : Nat := 0
  frame_size : Nat := 0
  num_counters : UInt8 := 0
  num_keys : UInt8 := 0
  okay_node : Option NodeId := none
  fail_node : Option NodeId := none
  atencap_node : Option NodeId := none

/-- `struct xdp2_parser`, with the graph its root node points into. -/
structure Parser (α : Type) where
  config : Config
  root_node : NodeId
  graph : Graph α

end Xdp2
