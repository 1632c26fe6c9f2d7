import Xdp2.Parser.Walk

/-!
# The generated parser

The parser that the compiler's C template makes from a parse graph: one function for each parse node
(`generate_protocol_parse_function`), which ends by calling the next one, and an entry function
(`generate_entry_parse_function`). What the template decides when it is instantiated is a test on
the node here. It is modelled for plain nodes. All calls to the next function are tail calls:
`generatedNode` is a function up to that call, and `generatedFrom` makes the calls, `depth` of which
the stack has room for.
-/

namespace Xdp2

variable {α : Type}

/-- The arguments that change from one parse function to the next. -/
structure ParseArgs where
  hdr : Hdr
  len : Nat
  frame : Nat
  frame_num : Nat

/-- How a parse function ends: it returns a code, with the frame then in `*frame`, or calls the
function of another node. -/
inductive Tail where
  | ret (code : Int) (frame : Nat)
  | call (target : NodeId) (a : ParseArgs)

/-- The template's `out_edges`: one for each entry of the protocol table. -/
def ParseNode.outEdges (n : ParseNode α) : List Entry := n.proto_table.getD []

/-- `check_pkt_len`, the tests of `__xdp2_parse` in the same order. -/
def checkPktLen (pd : ProtoDef) (hdr : Hdr) (len : Nat) : Except Int Int := headerLen pd hdr len

/-- The protocol number to switch on. `next_proto` is called without a test. -/
def generatedType (n : ParseNode α) (pd : ProtoDef) (hdr : Hdr) : ParseM α Int :=
  match pd.ops.next_proto_keyin with
  | some f => do
    let key ← readKey n.key_sel
    return f hdr key
  | none => do
    let f ← deref pd.ops.next_proto
    return f hdr

/-- The function that is called next, or the code that is returned instead. The switch statement
over the out edges has a case for each entry. -/
def generatedNext (n : ParseNode α) (pd : ProtoDef) (hdr : Hdr) : ParseM α (Except Int NodeId) :=
  if n.outEdges.isEmpty then
    return n.wildcard_node.elim (.error Code.stopOkay) .ok
  else do
    let type ← generatedType n pd hdr
    if type < 0 then return .error type
    else
      return ((lookupNode type n.outEdges).or n.wildcard_node).elim
        (.error n.unknown_ret.toInt) .ok

/-- The arguments for the next function: the header is passed over unless the protocol is an
overlay. -/
def ParseArgs.advance (a : ParseArgs) (pd : ProtoDef) (hlen : Nat) (fr : Nat × Nat) :
    ParseArgs where
  hdr := if pd.overlay then a.hdr else a.hdr.add hlen
  len := if pd.overlay then a.len else subSize a.len hlen
  frame := fr.1
  frame_num := fr.2

/-- The end of a parse function, after the encapsulation accounting. -/
def generatedTail (n : ParseNode α) (pd : ProtoDef) (hlen : Nat) (a : ParseArgs)
    (fr : Nat × Nat) : ParseM α Tail := do
  match ← generatedNext n pd a.hdr with
  | .error ret => return .ret ret fr.1
  | .ok target =>
    modify fun s => s.advance pd hlen
    return .call target (a.advance pd hlen fr)

/-- The parse function of the node `id`, up to its tail call. -/
def generatedNode (p : Parser α) (id : NodeId) (a : ParseArgs) : ParseM α Tail := do
  let n := p.graph.node id
  modify fun s => s.atNode id
  let pd ← deref n.proto_def
  match checkPktLen pd a.hdr a.len with
  | .error ret => return .ret ret a.frame
  | .ok hlen =>
    callExtract (.node id) n.ops (some a.hdr) (usize hlen) a.frame
    callHandlerVoid (.node id) .handler n.ops.handler (some a.hdr) (usize hlen) a.frame
    match ← enterEncap p id pd a.frame a.frame_num with
    | none => return .ret Code.stopEncapDepth a.frame
    | some fr => generatedTail n pd (usize hlen) a fr

/-- A call of the parse function of the node `id`: the code and the frame it comes back with. -/
def generatedFrom (p : Parser α) : (depth : Nat) → NodeId → ParseArgs → ParseM α (Int × Nat)
  | 0, _, _ => throw .fuel
  | depth + 1, id, a => do
    match ← generatedNode p id a with
    | .ret code frame => return (code, frame)
    | .call target a' => generatedFrom p depth target a'

/-- The arguments for the root's function. -/
def ParseArgs.init (p : Parser α) (pkt : Packet) : ParseArgs where
  hdr := ⟨pkt.mem, 0⟩
  len := pkt.len
  frame := p.config.metameta_size
  frame_num := 0

/-- The entry function of the generated parser. -/
def generatedParse (p : Parser α) (depth : Nat) (pkt : Packet) : ParseM α Int := do
  let r ← generatedFrom p depth p.root_node (.init p pkt)
  modify fun s => { s with var.ret_code := s8 r.1 }
  runSpecialNode p.graph .exit (p.config.exitNode r.1) r.2
  return r.1

end Xdp2
