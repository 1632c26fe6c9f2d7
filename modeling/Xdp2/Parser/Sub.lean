import Xdp2.Parser.Types

/-!
# Callbacks and sub-parsers

The state a parse runs in, its callbacks, and the parsers of TLVs (`xdp2_parse_tlvs`,
`xdp2_parse_one_tlv`), flag-fields (`xdp2_parse_flag_fields`) and array elements
(`xdp2_parse_array`). A `log`, which the program never reads, has every callback with the arguments
that place it, and marks for the moves of the walk.

A dereference of, or call through, a null pointer and the use of a node as a super structure it is
not are `Err.fault`. TLV parsing can go on for ever, so it takes fuel and ends with `Err.fuel`.
-/

namespace Xdp2

/-- Why a callback is made. `node` is a protocol node of the walk, `atencap` the node run at each
encapsulation, `exit` the okay or fail node. -/
inductive Role where
  | node (n : NodeId)
  | tlv (t : TlvId)
  | flagField (f : FlagFieldId)
  | arrel (a : ArrelId)
  | atencap (n : NodeId)
  | exit (n : NodeId)
  deriving DecidableEq

/-- Which operation of the node is called. -/
inductive Callback where
  | extractMetadata
  | handler
  | postHandler
  deriving DecidableEq

/-- A callback that was made: for whom, which one, with which header (an offset into the packet,
or null), header length and frame, and the code it returned (`extract_metadata` returns none). -/
structure Call where
  role : Role
  cb : Callback
  hdr : Option Nat
  hdr_len : Nat
  frame : Nat
  ret : Int
  deriving DecidableEq

/-- What a run did. `node n` is `ctrl->var.last_node = parse_node` at the head of the loop, `encap n
within` the increment of `ctrl->var.encaps` and whether it then is within the limit, `advance len`
the move over a header of a protocol that is not an overlay. -/
inductive Event where
  | node (n : NodeId)
  | call (c : Call)
  | encap (n : NodeId) (within : Bool)
  | advance (len : Nat)
  deriving DecidableEq

/-- The state of a parse: the control data's variable part, the caller's memory, the log. -/
structure St (α : Type) where
  var : CtrlVar
  mem : UserMem α
  log : List Event

/-- The state with one more event in the log. -/
def St.push {α : Type} (s : St α) (e : Event) : St α := { s with log := s.log ++ [e] }

/-- How a run ends without returning. -/
inductive Err where
  | fault
  | fuel
  deriving DecidableEq

/-- A computation of the parser. -/
abbrev ParseM (α : Type) := EStateM Err (St α)

variable {α : Type}

/-- Dereference a pointer that must not be null. -/
def deref {β : Type} : Option β → ParseM α β
  | some b => pure b
  | none => throw .fault

/-- Call `extract_metadata` if it is set. -/
def callExtract (role : Role) (ops : NodeOps α) (hdr : Option Hdr) (hdr_len frame : Nat) :
    ParseM α Unit :=
  match ops.extract_metadata with
  | none => pure ()
  | some f => modify fun s =>
      { s with mem := f ⟨hdr, hdr_len, frame, s.var⟩ s.mem }.push
        (.call ⟨role, .extractMetadata, hdr.map Hdr.off, hdr_len, frame, Code.okay⟩)

/-- Call a handler if it is set; its code, or `XDP2_OKAY` when there is none. -/
def callHandler (role : Role) (cb : Callback) (h : Option (Handler α)) (hdr : Option Hdr)
    (hdr_len frame : Nat) : ParseM α Int :=
  match h with
  | none => pure Code.okay
  | some f => modifyGet fun s =>
      let r := f ⟨hdr, hdr_len, frame, s.var⟩ s.mem
      (r.1, { s with mem := r.2 }.push (.call ⟨role, cb, hdr.map Hdr.off, hdr_len, frame, r.1⟩))

/-- Call a handler and drop its code. -/
def callHandlerVoid (role : Role) (cb : Callback) (h : Option (Handler α)) (hdr : Option Hdr)
    (hdr_len frame : Nat) : ParseM α Unit := do
  let _ ← callHandler role cb h hdr hdr_len frame
  return ()

/-! ## Flag-fields -/

/-- The mask of a flag, which defaults to the flag itself. -/
def FlagField.maskOf (f : FlagField) : UInt32 := if f.mask ≠ 0 then f.mask else f.flag

/-- Whether the flags announce the field. -/
def FlagField.present (flags : UInt32) (f : FlagField) : Bool := flags &&& f.maskOf == f.flag

/-- `__xdp2_flag_fields_offset`: the length of the fields present among the first `targ_idx`. -/
def flagFieldsOffsetOf (targ_idx : Nat) (flags : UInt32) (fields : List FlagField) : Int :=
  ssize ((fields.take targ_idx).foldl
    (fun offset f => if f.present flags then (offset + f.size) % 2 ^ 64 else offset) 0)

/-- `xdp2_flag_fields_offset`, for the field `f` at index `targ_idx`. -/
def flagFieldsOffset (targ_idx : Nat) (f : FlagField) (flags : UInt32)
    (fields : List FlagField) : Int :=
  if f.present flags then flagFieldsOffsetOf targ_idx flags fields else -1

/-- The callbacks of one flag-field at offset `off`. The handler's code is dropped. -/
def parseOneFlagField (g : Graph α) (n : ParseFlagFieldsNode) (i : Nat) (f : FlagField)
    (cp : Hdr) (frame : Nat) : ParseM α Unit := do
  let table ← deref n.flag_fields_proto_table
  match lookupFlagFieldNode i table with
  | none => return ()
  | some id =>
    callExtract (.flagField id) (g.flagField id) (some cp) f.size frame
    callHandlerVoid (.flagField id) .handler (g.flagField id).handler (some cp) f.size frame

/-- The loop of `xdp2_parse_flag_fields` over the fields from index `i` on, which are the last
argument. -/
def parseFlagFieldsFrom (g : Graph α) (n : ParseFlagFieldsNode) (flags : UInt32)
    (fields : List FlagField) (hdr : Hdr) (frame : Nat) : Nat → List FlagField → ParseM α Int
  | _, [] => return Code.okay
  | i, f :: rest =>
    let off := flagFieldsOffset i f flags fields
    if off < 0 then
      parseFlagFieldsFrom g n flags fields hdr frame (i + 1) rest
    else do
      parseOneFlagField g n i f (hdr.add (usize off)) frame
      parseFlagFieldsFrom g n flags fields hdr frame (i + 1) rest

/-- `xdp2_parse_flag_fields`. -/
def xdp2ParseFlagFields (g : Graph α) (n : ParseFlagFieldsNode) (d : ProtoFlagFieldsDef)
    (hdr : Hdr) (frame : Nat) : ParseM α Int :=
  parseFlagFieldsFrom g n (d.get_flags hdr) d.flag_fields
    (hdr.add (d.start_fields_offset hdr)) frame 0 d.flag_fields

/-! ## Arrays -/

/-- One array element of type `el_type`: the callbacks of its node or of the wildcard node, whose
handler's code is dropped, or the code for unknown types. -/
def parseOneArrel (g : Graph α) (n : ParseArrayNode) (el_type : Int) (cp : Hdr)
    (el_length frame : Nat) : ParseM α Int :=
  match (n.array_proto_table.bind (lookupArrayNode el_type)).or n.array_wildcard_node with
  | some id => do
    callExtract (.arrel id) (g.arrel id) (some cp) el_length frame
    callHandlerVoid (.arrel id) .handler (g.arrel id).handler (some cp) el_length frame
    return Code.okay
  | none => return n.unknown_array_type_ret

/-- The type of an array element, zero without an `el_type` operation. -/
def ProtoArrayDef.elType (d : ProtoArrayDef) (cp : Hdr) : Int :=
  match d.el_type with
  | some f => f cp
  | none => 0

/-- The loop of `xdp2_parse_array` with `left` elements still to come. -/
def parseArrayFrom (g : Graph α) (n : ParseArrayNode) (d : ProtoArrayDef) (frame : Nat) :
    (left : Nat) → Hdr → Nat → ParseM α Int
  | 0, _, _ => return Code.okay
  | left + 1, cp, hlen =>
    if hlen = 0 then
      -- out of header length before the end of the array
      return Code.stopLength
    else if d.elType cp < 0 then
      return d.elType cp
    else do
      let ret ← parseOneArrel g n (d.elType cp) cp d.el_length frame
      if ret ≠ Code.okay then
        return ret
      else
        parseArrayFrom g n d frame left (cp.add d.el_length) (subSize hlen d.el_length)

/-- `xdp2_parse_array`. -/
def xdp2ParseArray (g : Graph α) (n : ParseArrayNode) (d : ProtoArrayDef) (hdr : Hdr)
    (hlen frame : Nat) : ParseM α Int :=
  let off := d.start_offset hdr
  parseArrayFrom g n d frame (d.num_els hdr (subSize hlen off)).toNat (hdr.add off)
    (subSize hlen off)

/-! ## TLVs -/

/-- The super structures of a TLVs node; a node that is not one faults. -/
def derefTlvs (g : Graph α) (id : NodeId) : ParseM α (ParseTlvsNode × ProtoTlvsDef) :=
  match (g.node id).node_type, (g.node id).proto_def with
  | .tlvs n, some { node_type := .tlvs d, .. } => pure (n, d)
  | _, _ => throw .fault

/-- The TLV is shorter than its protocol definition, if it has one, allows. -/
def tlvTooShort (d : Option ProtoTlvDef) (tlv_len : Nat) : Bool :=
  d.any fun d => tlv_len < d.min_len

/-- The offset of nested TLVs in a TLV. -/
def ProtoTlvDef.nestedOffset (d : ProtoTlvDef) (hdr : Hdr) (tlv_len : Nat) : Nat :=
  match d.nested_offset with
  | some f => f hdr tlv_len
  | none => 0

/-- The key of a TLV in an overlay table: its overlay type or its length. -/
def ProtoTlvDef.overlayType (d : ProtoTlvDef) (hdr : Hdr) (tlv_len : Nat) : Int :=
  match d.overlay_type with
  | some f => f hdr
  | none => cint tlv_len

/-- The length of the TLV at `cp` with `hlen` bytes left, as a `size_t`; `none` for a length error.
Without a `len` operation every TLV has the minimal length. -/
def ProtoTlvsDef.tlvLen (d : ProtoTlvsDef) (cp : Hdr) (hlen : Nat) : Option Nat :=
  if hlen < d.min_len then none
  else match d.len with
    | none => some d.min_len
    | some f =>
      let tlv_len := usize (f cp hlen).toInt
      if tlv_len = 0 ∨ hlen < tlv_len then none else some tlv_len

mutual

/-- `xdp2_parse_one_tlv` from the label `parse_again` on. The protocol definition `d` is that of
the node the function was entered with: the jumps to the label change the node only. -/
def parseOneTlvAgain (g : Graph α) (frame fuel : Nat) (tn : ParseTlvsNode)
    (d : Option ProtoTlvDef) (hdr : Hdr) (tlv_len : Nat) (id : TlvId) : ParseM α Int :=
  match fuel with
  | 0 => throw .fuel
  | fuel + 1 =>
    if tlvTooShort d tlv_len then
      -- a length error is treated as an unrecognized TLV
      match tn.tlv_wildcard_node with
      | some w => parseOneTlvAgain g frame fuel tn d hdr tlv_len w
      | none => return tn.unknown_tlv_type_ret
    else do
      callExtract (.tlv id) (g.tlv id).tlv_ops (some hdr) tlv_len frame
      let ret ← callHandler (.tlv id) .handler (g.tlv id).tlv_ops.handler (some hdr) tlv_len frame
      if ret ≠ Code.okay then
        return ret
      else
        let ret ← parseNestedTlvs g frame fuel d hdr tlv_len (g.tlv id).nested_node
        if ret ≠ Code.okay then
          return ret
        else
          match (g.tlv id).overlay_table with
          | none => return Code.okay
          | some table =>
            let d' ← deref d
            match (lookupTlvNode (d'.overlayType hdr tlv_len) table).or
                (g.tlv id).overlay_wildcard_node with
            | some next => parseOneTlvAgain g frame fuel tn d hdr tlv_len next
            | none => return (g.tlv id).unknown_overlay_ret
termination_by structural fuel

/-- The TLVs nested in a TLV, if its node has a nested node. -/
def parseNestedTlvs (g : Graph α) (frame fuel : Nat) (d : Option ProtoTlvDef) (hdr : Hdr)
    (tlv_len : Nat) (nested_node : Option NodeId) : ParseM α Int :=
  match fuel with
  | 0 => throw .fuel
  | fuel + 1 =>
    match nested_node with
    | none => return Code.okay
    | some nested => do
      let d' ← deref d
      let off := d'.nestedOffset hdr tlv_len
      modify fun s => { s with var.tlv_levels := s.var.tlv_levels + 1 }
      let ret ← xdp2ParseTlvs g frame fuel nested (hdr.add off) (subSize tlv_len off)
      modify fun s => { s with var.tlv_levels := s.var.tlv_levels - 1 }
      return ret
termination_by structural fuel

/-- `xdp2_parse_tlvs`. -/
def xdp2ParseTlvs (g : Graph α) (frame fuel : Nat) (id : NodeId) (hdr : Hdr) (hlen : Nat) :
    ParseM α Int :=
  match fuel with
  | 0 => throw .fuel
  | fuel + 1 => do
    let (tn, d) ← derefTlvs g id
    let off := d.start_offset hdr
    parseTlvsFrom g frame fuel tn d (hdr.add off) (subSize hlen off) 0
termination_by structural fuel

/-- The loop of `xdp2_parse_tlvs`, with `tlv_cnt` TLVs already seen. -/
def parseTlvsFrom (g : Graph α) (frame fuel : Nat) (tn : ParseTlvsNode) (d : ProtoTlvsDef)
    (cp : Hdr) (hlen : Nat) (tlv_cnt : UInt32) : ParseM α Int :=
  match fuel with
  | 0 => throw .fuel
  | fuel + 1 =>
    if hlen = 0 then
      return Code.okay
    else if d.pad1_enable ∧ cp.byte = d.pad1_val then
      parseTlvsFrom g frame fuel tn d (cp.add 1) (hlen - 1) tlv_cnt
    else if d.eol_enable ∧ cp.byte = d.eol_val then
      return Code.okay
    else if tn.max_tlvs ≠ 0 ∧ tn.max_tlvs < (tlv_cnt + 1).toNat then
      return Code.stopOptionLimit
    else
      match d.tlvLen cp hlen with
      | none => return Code.stopTlvLength
      | some tlv_len => do
        let ret ← parseTypedTlv g frame fuel tn cp tlv_len (d.type cp)
        if ret ≠ Code.okay then
          return ret
        else
          parseTlvsFrom g frame fuel tn d (cp.add tlv_len) (subSize hlen tlv_len) (tlv_cnt + 1)
termination_by structural fuel

/-- One TLV of type `type`: the node of the table, else the wildcard node, else the code for
unknown types. -/
def parseTypedTlv (g : Graph α) (frame fuel : Nat) (tn : ParseTlvsNode) (cp : Hdr)
    (tlv_len : Nat) (type : Int) : ParseM α Int :=
  match fuel with
  | 0 => throw .fuel
  | fuel + 1 =>
    match (tn.tlv_proto_table.bind (lookupTlvNode type)).or tn.tlv_wildcard_node with
    | some id => parseOneTlvAgain g frame fuel tn (g.tlv id).proto_tlv_def cp tlv_len id
    | none => return tn.unknown_tlv_type_ret
termination_by structural fuel

end

end Xdp2
