import Vuma.Lib.HashMap
import Vuma.Opt.FunctionMerge
import Vuma.Scg.Node

/-!
# The code generator's graph, read as semantic nodes

`Scg` of `scg_to_ir.rs`: statement lists with a layer of identifiers and edges over them. The
adapters `node_type` and `node_payload` give each identified statement the type and the payload of a
semantic node. A statement has here the data that the adapters read; a floating-point literal is
given by its text.
-/

namespace Vuma.Codegen.Adapter

open IR Lib Scg

inductive ScgType where
  | i8 | i16 | i32 | i64 | u8 | u16 | u32 | u64 | ptr | void | f32 | f64
  | channel (inner : ScgType)
  deriving DecidableEq, Repr

namespace ScgType

/-- `{:?}` of a type. -/
def debug : ScgType → String
  | i8 => "I8" | i16 => "I16" | i32 => "I32" | i64 => "I64"
  | u8 => "U8" | u16 => "U16" | u32 => "U32" | u64 => "U64"
  | ptr => "Ptr" | void => "Void" | f32 => "F32" | f64 => "F64"
  | channel inner => "Channel(" ++ debug inner ++ ")"

/-- `{}` of a type. -/
def display : ScgType → String
  | i8 => "i8" | i16 => "i16" | i32 => "i32" | i64 => "i64"
  | u8 => "u8" | u16 => "u16" | u32 => "u32" | u64 => "u64"
  | ptr => "ptr" | void => "void" | f32 => "f32" | f64 => "f64"
  | channel inner => "Channel<" ++ display inner ++ ">"

end ScgType

/-- `{:?}` of a unary operator. -/
def debugUnaryOp : UnaryOpKind → String
  | .neg => "Neg" | .not => "Not" | .clz => "Clz" | .ctz => "Ctz" | .popcnt => "Popcnt"

/-- `ScgExpr`, as far as its label reads it. -/
inductive ScgExpr where
  | var (name : String)
  | int (i : Int64)
  | float (text : String)
  | label (name : String)
  | binOp (op : BinOpKind)
  | load
  deriving DecidableEq, Repr

def exprLabel : ScgExpr → String
  | .var n => n
  | .int i => "lit_" ++ toString i.toInt
  | .float text => "lit_" ++ text
  | .label l => l
  | .binOp op => Opt.debugBinOp op
  | .load => "load"

/-- The kinds of the code generator's `ControlNode`. -/
inductive ControlNode where
  | ifElse | loop | brk | cont | switch
  deriving DecidableEq, Repr

/-- The code generator's `AllocationNode`. -/
inductive AllocationNode where
  | stack (size : UInt32)
  | heap
  deriving DecidableEq, Repr

/-- The code generator's `AccessNode`. -/
inductive AccessNode where
  | load | store
  deriving DecidableEq, Repr

inductive PmtOpStmt where
  | stateInit (layoutName : String)
  | stateRead (layoutName fieldName : String)
  | stateWrite (layoutName fieldName : String)
  | stateTransform (fromLayout toLayout : String)
  | arenaNew
  | arenaAlloc (layoutName : String)
  | arenaGrow
  | arenaFree
  deriving DecidableEq, Repr

inductive ScgStatement where
  | control (c : ControlNode)
  | allocation (a : AllocationNode)
  | access (a : AccessNode)
  | cast (fromTy toTy : ScgType)
  | computation (op : BinOpKind) (tailCall : Bool)
  | unaryComputation (op : UnaryOpKind) (tailCall : Bool)
  | call (func : String)
  | ret
  | constantTime (op : ConstantTimeOp) (dst : String) (operands : List ScgExpr)
  | structAccess
  | enumAccess
  | getAddress
  | syscall (nr : UInt32) (dst : Option String) (args : List ScgExpr)
  | foreignConsume (layoutName : String)
  | channelOpen (dst : String) (elemTy : ScgType)
  | channelSend (channel message : ScgExpr) (ty : ScgType)
  | channelRecv (dst : String) (channel : ScgExpr) (ty : ScgType)
  | channelClose (channel : ScgExpr)
  | channelRecvResult
  | pmtOp (p : PmtOpStmt)
  | tryStmt
  deriving DecidableEq, Repr

/-- `ScgNode`; a function is its body. -/
inductive ScgNode where
  | function (body : List ScgStatement)
  | data
  deriving DecidableEq, Repr

structure NodeLoc where
  fnIdx : Nat
  stmtIdx : Nat
  deriving DecidableEq, Repr

structure CodegenEdge where
  source : NodeId
  target : NodeId
  kind : EdgeKind
  label : Option String
  deriving DecidableEq, Repr

structure Scg where
  nodes : List ScgNode
  edges : List CodegenEdge
  nodeIndex : HashMap NodeId NodeLoc
  semanticNodes : Option (HashMap NodeId NodeData)

/-- The type of a statement, from `node_type`. -/
def ScgStatement.nodeType : ScgStatement → NodeType
  | control _ => .control
  | allocation _ => .allocation
  | access _ => .access
  | cast .. => .cast
  | computation .. | unaryComputation .. | call _ => .computation
  | ret => .control
  | constantTime .. => .constantTime
  | structAccess | enumAccess | getAddress | channelRecvResult => .computation
  | syscall .. => .syscall
  | foreignConsume _ => .foreignConsume
  | channelOpen .. => .channelOpen
  | channelSend .. => .channelSend
  | channelRecv .. => .channelRecv
  | channelClose _ => .channelClose
  | pmtOp p =>
    match p with
    | .arenaFree => .deallocation
    | .stateInit _ => .stateInit
    | .stateRead .. => .stateRead
    | .stateWrite .. => .stateWrite
    | .stateTransform .. => .stateTransform
    | .arenaNew => .arenaNew
    | .arenaAlloc _ => .arenaAlloc
    | .arenaGrow => .arenaGrow
  | tryStmt => .computation

/-- The payload of a computation that only has a name. -/
def otherComputation (op : String) (tailCall : Bool) : NodePayload :=
  .computation ⟨.other op, none, tailCall⟩

/-- The payload of a statement, from `node_payload`. -/
def ScgStatement.nodePayload : ScgStatement → NodePayload
  | control c =>
    let kind := match c with
      | .ifElse => ControlKind.branch
      | .loop => .loopHeader
      | .brk => .loopExit
      | .cont => .jump
      | .switch => .switch
    .control ⟨kind, none⟩
  | allocation a =>
    let size := match a with
      | .stack size => size.toUInt64
      | .heap => 0
    .allocation ⟨size, 0, 0, none⟩
  | access a =>
    let mode := match a with
      | .load => AccessMode.read
      | .store => .write
    .access ⟨mode, 0, none, none⟩
  | cast fromTy toTy => .cast ⟨fromTy.debug, toTy.debug, false⟩
  | computation op tailCall => otherComputation (Opt.debugBinOp op) tailCall
  | unaryComputation op tailCall => otherComputation (debugUnaryOp op) tailCall
  | call func => otherComputation func false
  | ret => .control ⟨.functionReturn, none⟩
  | constantTime op dst operands => .constantTime ⟨op, dst, operands.map exprLabel⟩
  | syscall nr dst args => .syscall ⟨nr, dst, args.map exprLabel⟩
  | foreignConsume layoutName => .foreignConsume ⟨0, layoutName⟩
  | channelOpen dst elemTy => .channelOpen ⟨dst, elemTy.display⟩
  | channelSend channel message ty =>
    .channelSend ⟨exprLabel channel, exprLabel message, ty.display⟩
  | channelRecv dst channel ty => .channelRecv ⟨dst, exprLabel channel, ty.display⟩
  | channelClose channel => .channelClose ⟨exprLabel channel⟩
  | pmtOp p =>
    match p with
    | .arenaFree => .deallocation ⟨0, 0⟩
    | .stateInit layoutName => .stateInit ⟨layoutName, 0⟩
    | .stateRead layoutName fieldName => .stateRead ⟨0, layoutName, fieldName, 0⟩
    | .stateWrite layoutName fieldName => .stateWrite ⟨0, layoutName, fieldName, 0⟩
    | .stateTransform fromLayout toLayout => .stateTransform ⟨0, fromLayout, toLayout, 0⟩
    | .arenaNew => .arenaNew ⟨0, 0⟩
    | .arenaAlloc layoutName => .arenaAlloc ⟨0, layoutName, 0, 0⟩
    | .arenaGrow => .arenaGrow ⟨0, 0, 0⟩
  | structAccess | enumAccess | getAddress | channelRecvResult => otherComputation "unknown" false
  | tryStmt => otherComputation "__try" false

namespace Scg

def getNode (g : Scg) (id : NodeId) : Option ScgStatement := do
  let loc ← g.nodeIndex.lookup id
  match ← g.nodes[loc.fnIdx]? with
  | .function body => body[loc.stmtIdx]?
  | .data => none

/-- `node_type`; the semantic nodes, where they are given, go first. -/
def nodeType (g : Scg) (id : NodeId) : Option NodeType :=
  match g.semanticNodes with
  | some sn => (sn.lookup id).map NodeData.nodeType
  | none => (g.getNode id).map ScgStatement.nodeType

def nodePayload (g : Scg) (id : NodeId) : Option NodePayload :=
  match g.semanticNodes with
  | some sn => (sn.lookup id).map NodeData.payload
  | none => (g.getNode id).map ScgStatement.nodePayload

end Scg

end Vuma.Codegen.Adapter
