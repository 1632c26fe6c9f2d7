import Xdp2.Parser.Sub

/-!
# The protocol walk

`__xdp2_parse` as a loop over `visit`, one iteration of the source's `do … while (1)`, which ends
the walk with a code (`Visit.stop`, the source's `goto out`) or selects the next node
(`Visit.next`). Its stages are the length checks (`headerLen`), the callbacks and sub-parsers
(`processNode`), the encapsulation accounting (`enterEncap`) and the selection of the next node
(`nextParseNode`); `walk` then tests the node limit. The `flags` argument only switches debug
printing and is left out.
-/

namespace Xdp2

variable {α : Type}

/-- A packet: the memory from its first byte on, and its length, a `size_t`. -/
structure Packet where
  mem : Nat → UInt8
  len : Nat
  len_lt : len < 2 ^ 64

/-- The local variables of the loop: the node to visit, header pointer, remaining length, frame
pointer and frame number. -/
structure Cursor where
  parse_node : Option NodeId
  hdr : Hdr
  len : Nat
  frame : Nat
  frame_num : Nat

/-- Where the loop starts. -/
def Cursor.init (p : Parser α) (pkt : Packet) : Cursor where
  parse_node := some p.root_node
  hdr := ⟨pkt.mem, 0⟩
  len := pkt.len
  frame := p.config.metameta_size
  frame_num := 0

/-- How an iteration of the loop ends: with a code and the current frame, or with the next node. -/
inductive Visit where
  | stop (ret : Int) (frame : Nat)
  | next (c : Cursor)

/-- The protocol definition length checks: the header length, or the code to stop with. The first
two comparisons are between a `size_t` and a `ssize_t`, hence unsigned; the third is signed. -/
def headerLen (pd : ProtoDef) (hdr : Hdr) (len : Nat) : Except Int Int :=
  if len < pd.min_len.toNat then .error Code.stopLength
  else match pd.ops.len with
    | none => .ok pd.min_len.toNat
    | some f =>
      let hlen := (f hdr len).toInt
      if len < usize hlen then .error Code.stopLength
      else if hlen < pd.min_len.toNat then
        .error (if hlen < 0 then cint hlen else Code.stopLength)
      else .ok hlen

/-- The sub-parser for what the header contains. A node whose type is not that of its protocol
definition is processed as a plain one. -/
def parseSub (g : Graph α) (fuel : Nat) (id : NodeId) (n : ParseNode α) (pd : ProtoDef)
    (hdr : Hdr) (hlen frame : Nat) : ParseM α Int :=
  match n.node_type, pd.node_type with
  | .tlvs _, .tlvs _ => xdp2ParseTlvs g frame fuel id hdr hlen
  | .flagFields fn, .flagFields d => xdp2ParseFlagFields g fn d hdr frame
  | .array an, .array d => xdp2ParseArray g an d hdr hlen frame
  | _, _ => return Code.okay

/-- The callbacks of one protocol node, with the sub-parser between handler and post handler. The
codes of both handlers are dropped; the result is the sub-parser's. -/
def processNode (g : Graph α) (fuel : Nat) (id : NodeId) (n : ParseNode α) (pd : ProtoDef)
    (hdr : Hdr) (hlen frame : Nat) : ParseM α Int := do
  callExtract (.node id) n.ops (some hdr) hlen frame
  callHandlerVoid (.node id) .handler n.ops.handler (some hdr) hlen frame
  let ret ← parseSub g fuel id n pd hdr hlen frame
  if ret ≠ Code.okay then
    return ret
  else
    callHandlerVoid (.node id) .postHandler n.ops.post_handler (some hdr) hlen frame
    return Code.okay

/-- A parse node without protocol table and wildcard node. -/
def ParseNode.isLeaf (n : ParseNode α) : Bool := n.proto_table.isNone && n.wildcard_node.isNone

/-- `__xdp2_parse_run_exit_node`, for the atencap node and the exit nodes. -/
def runExitNode (g : Graph α) (role : NodeId → Role) (id : NodeId) (frame : Nat) :
    ParseM α Unit := do
  callExtract (role id) (g.node id).ops none 0 frame
  callHandlerVoid (role id) .handler (g.node id).ops.handler none 0 frame

/-- Run a special node of the configuration if it is set. -/
def runSpecialNode (g : Graph α) (role : NodeId → Role) (node : Option NodeId) (frame : Nat) :
    ParseM α Unit :=
  match node with
  | none => return ()
  | some id => runExitNode g role id frame

/-- `++ctrl->var.encaps`, an eight bit counter, with its test against the limit. -/
def St.countEncap (s : St α) (cfg : Config) (id : NodeId) : St α :=
  { s with var.encaps := s.var.encaps + 1 }.push
    (.encap id (decide ((s.var.encaps + 1).toNat ≤ cfg.max_encaps.toNat)))

/-- Count an encapsulation; whether it is one too many. -/
def tooManyEncaps (cfg : Config) (id : NodeId) : ParseM α Bool := do
  modify fun s => s.countEncap cfg id
  let s ← get
  return decide (cfg.max_encaps.toNat < s.var.encaps.toNat)

/-- The frame of the next encapsulation: frame pointer and number advance together. -/
def nextFrame (cfg : Config) (frame frame_num : Nat) : Nat × Nat :=
  if frame_num < cfg.max_frames.toNat then (frame + cfg.frame_size, frame_num + 1)
  else (frame, frame_num)

/-- Encapsulation accounting at a node that is not a leaf: the frame pointer and number to go on
with, or none when there are too many encapsulations. -/
def enterEncap (p : Parser α) (id : NodeId) (pd : ProtoDef) (frame frame_num : Nat) :
    ParseM α (Option (Nat × Nat)) :=
  if pd.encap then do
    runSpecialNode p.graph .atencap p.config.atencap_node frame
    let tooMany ← tooManyEncaps p.config id
    if tooMany then return none else return some (nextFrame p.config frame frame_num)
  else
    return some (frame, frame_num)

/-- `ctrl->key.keys[parse_node->key_sel]`. -/
def readKey (sel : UInt8) : ParseM α UInt32 := do
  let s ← get
  deref s.mem.keys[sel.toNat]?

/-- The selection of the next node once the table has not given one: the wildcard node, or the
code for unknown protocols. With a table and a `next_proto` operation the table is asked a second
time and its answer, null included, replaces the wildcard node. -/
def wildcardNode (n : ParseNode α) (pd : ProtoDef) (hdr : Hdr) : Except Int (Option NodeId) :=
  match n.wildcard_node with
  | none => .error n.unknown_ret.toInt
  | some w =>
    match n.proto_table, pd.ops.next_proto with
    | some table, some f =>
      if f hdr < 0 then .error (f hdr) else .ok (lookupNode (f hdr) table)
    | _, _ => .ok (some w)

/-- The selection of the next node when the protocol number is `type`. -/
def tableNode (n : ParseNode α) (pd : ProtoDef) (hdr : Hdr) (table : List Entry) (type : Int) :
    Except Int (Option NodeId) :=
  if type < 0 then .error type
  else match lookupNode type table with
    | some next => .ok (some next)
    | none => wildcardNode n pd hdr

/-- The selection of the next node: a node, which may be null, or the code to stop with. -/
def nextParseNode (n : ParseNode α) (pd : ProtoDef) (hdr : Hdr) :
    ParseM α (Except Int (Option NodeId)) :=
  match n.proto_table, pd.ops.next_proto_keyin, pd.ops.next_proto with
  | some table, some f, _ => do
    let key ← readKey n.key_sel
    return tableNode n pd hdr table (f hdr key)
  | some table, none, some f => return tableNode n pd hdr table (f hdr)
  | _, _, _ => return wildcardNode n pd hdr

/-- The log of a move over a header, which an overlay protocol does not make. -/
def St.advance (s : St α) (pd : ProtoDef) (hlen : Nat) : St α :=
  if pd.overlay then s else s.push (.advance hlen)

/-- The cursor moved over the header of a visited node to the node `next`. -/
def Cursor.advance (c : Cursor) (pd : ProtoDef) (hlen : Nat) (next : Option NodeId)
    (fr : Nat × Nat) : Cursor where
  parse_node := next
  hdr := if pd.overlay then c.hdr else c.hdr.add hlen
  len := if pd.overlay then c.len else subSize c.len hlen
  frame := fr.1
  frame_num := fr.2

/-- The rest of a visit, from the label `found_next` on. -/
def foundNext (n : ParseNode α) (pd : ProtoDef) (hlen : Nat) (c : Cursor) (next : Option NodeId)
    (fr : Nat × Nat) : ParseM α Visit := do
  modify fun s => s.advance pd hlen
  let c' := c.advance pd hlen next fr
  if c'.len = 0 ∧ n.zero_len_ok then return .stop Code.stopOkay fr.1 else return .next c'

/-- Proceed to the next protocol layer from a node whose callbacks have been made. -/
def proceed (p : Parser α) (id : NodeId) (n : ParseNode α) (pd : ProtoDef) (hlen : Nat)
    (c : Cursor) : ParseM α Visit :=
  if n.isLeaf then return .stop Code.stopOkay c.frame
  else do
    match ← enterEncap p id pd c.frame c.frame_num with
    | none => return .stop Code.stopEncapDepth c.frame
    | some fr =>
      match ← nextParseNode n pd c.hdr with
      | .error ret => return .stop ret fr.1
      | .ok next => foundNext n pd hlen c next fr

/-- `ctrl->var.last_node = parse_node`. -/
def St.atNode (s : St α) (id : NodeId) : St α :=
  { s with var.last_node := some id }.push (.node id)

/-- One iteration of the loop of `__xdp2_parse`. -/
def visit (p : Parser α) (fuel : Nat) (c : Cursor) : ParseM α Visit := do
  let id ← deref c.parse_node
  let n := p.graph.node id
  let pd ← deref n.proto_def
  modify fun s => s.atNode id
  match headerLen pd c.hdr c.len with
  | .error ret => return .stop ret c.frame
  | .ok hlen =>
    let ret ← processNode p.graph fuel id n pd c.hdr (usize hlen) c.frame
    if ret ≠ Code.okay then return .stop ret c.frame
    else proceed p id n pd (usize hlen) c

/-- How the loop ends: at the label `out` with a code and the current frame, or at the node
limit. -/
inductive WalkEnd where
  | out (ret : Int) (frame : Nat)
  | maxNodes

/-- The loop of `__xdp2_parse`, with `nodes` more nodes allowed after the one at the cursor. -/
def walk (p : Parser α) (fuel : Nat) : (nodes : Nat) → Cursor → ParseM α WalkEnd
  | 0, c => do
    match ← visit p fuel c with
    | .stop ret frame => return .out ret frame
    | .next _ => return .maxNodes
  | nodes + 1, c => do
    match ← visit p fuel c with
    | .stop ret frame => return .out ret frame
    | .next c' => walk p fuel nodes c'

/-- The exit node for a code. -/
def Config.exitNode (cfg : Config) (ret : Int) : Option NodeId :=
  if Code.isOkay ret then cfg.okay_node else cfg.fail_node

/-- What follows the loop: at the label `out` the code is stored and the exit node run, at the
node limit neither is. -/
def finish (p : Parser α) : WalkEnd → ParseM α Int
  | .maxNodes => return Code.stopMaxNodes
  | .out ret frame => do
    modify fun s => { s with var.ret_code := s8 ret }
    runSpecialNode p.graph .exit (p.config.exitNode ret) frame
    return ret

/-- `__xdp2_parse`. -/
def xdp2Parse (p : Parser α) (fuel : Nat) (pkt : Packet) : ParseM α Int := do
  let e ← walk p fuel p.config.max_nodes.toNat (Cursor.init p pkt)
  finish p e

/-- The state a parse starts from: control data, the caller's memory, an empty log. -/
def St.start (var : CtrlVar) (mem : UserMem α) : St α := ⟨var, mem, []⟩

/-- The start with zeroed control data. -/
def St.init (mem : UserMem α) : St α := .start .zero mem

end Xdp2
