import Mathlib

/-!
# Nodes, edges and regions of the semantic computation graph

The data of `node.rs`, `edge.rs` and `region.rs`. Identifiers are wrapped `u64`s in the source; here
they are the numbers themselves.
-/

namespace Vuma.Scg

abbrev NodeId := UInt64

abbrev EdgeId := UInt64

abbrev RegionId := UInt64

inductive NodeType where
  | computation | allocation | deallocation | access | cast | effect | control | phantom | vTable
  | closureEnv | structDef | enumDef | matchDispatch | constantTime | syscall | stateInit
  | stateRead | stateWrite | stateTransform | foreignConsume | arenaNew | arenaAlloc | arenaGrow
  | arenaFree | channelOpen | channelSend | channelRecv | channelClose
  deriving DecidableEq, Repr

/-- `{:?}` of a node type. -/
def debugNodeType : NodeType → String
  | .computation => "Computation" | .allocation => "Allocation"
  | .deallocation => "Deallocation" | .access => "Access" | .cast => "Cast" | .effect => "Effect"
  | .control => "Control" | .phantom => "Phantom" | .vTable => "VTable"
  | .closureEnv => "ClosureEnv" | .structDef => "StructDef" | .enumDef => "EnumDef"
  | .matchDispatch => "Match" | .constantTime => "ConstantTime" | .syscall => "Syscall"
  | .stateInit => "StateInit" | .stateRead => "StateRead" | .stateWrite => "StateWrite"
  | .stateTransform => "StateTransform" | .foreignConsume => "ForeignConsume"
  | .arenaNew => "ArenaNew" | .arenaAlloc => "ArenaAlloc" | .arenaGrow => "ArenaGrow"
  | .arenaFree => "ArenaFree" | .channelOpen => "ChannelOpen" | .channelSend => "ChannelSend"
  | .channelRecv => "ChannelRecv" | .channelClose => "ChannelClose"

structure BDReference where
  bdId : UInt64
  version : Option UInt64
  deriving DecidableEq, Repr

structure ProgramPoint where
  file : Option String
  line : Option UInt64
  column : Option UInt64
  offset : Option UInt64
  deriving DecidableEq, Repr

/-! ## Payloads -/

inductive IntrinsicKind where
  | capabilityGrant | capabilityDelegate | capabilityVerify | capabilityRevoke | starkProve
  | starkVerify
  deriving DecidableEq, Repr

/-- `ComputationKind`; `arm_count` is a `usize`. -/
inductive ComputationKind where
  | other (op : String)
  | intrinsic (kind : IntrinsicKind)
  | structAccess (structName fieldName : String) (fieldOffset fieldSize : UInt64)
  | enumTag (enumName tagType : String) (tagSize : UInt64)
  | matchNode (armCount : UInt64) (subjectType : String)
  deriving DecidableEq, Repr

structure ComputationNode where
  kind : ComputationKind
  resultType : Option String
  tailCall : Bool
  deriving DecidableEq, Repr

structure AllocationNode where
  size : UInt64
  align : UInt64
  regionId : RegionId
  typeName : Option String
  deriving DecidableEq, Repr

structure DeallocationNode where
  allocationNode : NodeId
  regionId : RegionId
  deriving DecidableEq, Repr

inductive AccessMode where
  | read | write | readWrite
  deriving DecidableEq, Repr

structure AccessNode where
  mode : AccessMode
  regionId : RegionId
  offset : Option UInt64
  accessSize : Option UInt64
  deriving DecidableEq, Repr

structure CastNode where
  fromType : String
  toType : String
  isLossless : Bool
  deriving DecidableEq, Repr

structure EffectNode where
  effectKind : String
  isObservable : Bool
  deriving DecidableEq, Repr

inductive ControlKind where
  | branch | loopHeader | loopExit | join | functionEntry | functionReturn | jump | switch
  | switchCase | closureEntry | closureReturn | futurePoll | wakerRegistration | stateTransition
  deriving DecidableEq, Repr

structure ControlNode where
  kind : ControlKind
  label : Option String
  deriving DecidableEq, Repr

structure PhantomNode where
  purpose : String
  deriving DecidableEq, Repr

structure VTableNode where
  traitName : String
  concreteType : String
  methodEntries : List NodeId
  deriving DecidableEq, Repr

structure ClosureEnvNode where
  capturedVars : List String
  captureModes : List Bool
  closureEntry : Option NodeId
  deriving DecidableEq, Repr

structure StructFieldInfo where
  name : String
  typeName : String
  offset : UInt64
  size : UInt64
  deriving DecidableEq, Repr

structure StructDefNode where
  name : String
  fields : List StructFieldInfo
  totalSize : UInt64
  alignment : UInt64
  deriving DecidableEq, Repr

structure EnumVariantInfo where
  name : String
  discriminant : UInt64
  payloadType : Option String
  payloadSize : UInt64
  deriving DecidableEq, Repr

structure EnumDefNode where
  name : String
  variants : List EnumVariantInfo
  tagType : String
  tagSize : UInt64
  maxPayloadSize : UInt64
  totalSize : UInt64
  alignment : UInt64
  deriving DecidableEq, Repr

inductive MatchPatternInfo where
  | wildcard
  | lit (n : Int64)
  | ident (name : String)
  | enum (variant : String) (binding : Option String)
  | struct (name : String) (fields : List String)
  | or (patterns : List MatchPatternInfo)
  deriving Repr

mutual

/-- Equality of patterns is decided pattern by pattern. -/
def MatchPatternInfo.decEq : (p q : MatchPatternInfo) → Decidable (p = q)
  | .wildcard, .wildcard => isTrue rfl
  | .lit n, .lit m => decidable_of_iff (n = m) (by simp)
  | .ident a, .ident b => decidable_of_iff (a = b) (by simp)
  | .enum a x, .enum b y => decidable_of_iff (a = b ∧ x = y) (by simp)
  | .struct a x, .struct b y => decidable_of_iff (a = b ∧ x = y) (by simp)
  | .or ps, .or qs =>
    have := decEqList ps qs
    decidable_of_iff (ps = qs) (by simp)
  | .wildcard, .lit _ | .wildcard, .ident _ | .wildcard, .enum .. | .wildcard, .struct ..
  | .wildcard, .or _ | .lit _, .wildcard | .lit _, .ident _ | .lit _, .enum ..
  | .lit _, .struct .. | .lit _, .or _ | .ident _, .wildcard | .ident _, .lit _
  | .ident _, .enum .. | .ident _, .struct .. | .ident _, .or _ | .enum .., .wildcard
  | .enum .., .lit _ | .enum .., .ident _ | .enum .., .struct .. | .enum .., .or _
  | .struct .., .wildcard | .struct .., .lit _ | .struct .., .ident _ | .struct .., .enum ..
  | .struct .., .or _ | .or _, .wildcard | .or _, .lit _ | .or _, .ident _ | .or _, .enum ..
  | .or _, .struct .. => isFalse nofun

/-- Equality of lists of patterns. -/
def MatchPatternInfo.decEqList : (ps qs : List MatchPatternInfo) → Decidable (ps = qs)
  | [], [] => isTrue rfl
  | [], _ :: _ | _ :: _, [] => isFalse nofun
  | p :: ps, q :: qs =>
    have := decEq p q
    have := decEqList ps qs
    decidable_of_iff (p = q ∧ ps = qs) (by simp)

end

instance : DecidableEq MatchPatternInfo := MatchPatternInfo.decEq

structure MatchArmInfo where
  pattern : MatchPatternInfo
  guard : Option String
  body : List String
  deriving DecidableEq, Repr

structure MatchNode where
  subject : String
  arms : List MatchArmInfo
  subjectType : String
  deriving DecidableEq, Repr

inductive ConstantTimeOp where
  | ctSelect | ctEq
  deriving DecidableEq, Repr

structure ConstantTimeNode where
  op : ConstantTimeOp
  dst : String
  operands : List String
  deriving DecidableEq, Repr

structure SyscallNode where
  nr : UInt32
  dst : Option String
  args : List String
  deriving DecidableEq, Repr

structure StateInitNode where
  layoutName : String
  resultVreg : UInt32
  deriving DecidableEq, Repr

structure StateReadNode where
  stateVreg : UInt32
  layoutName : String
  fieldName : String
  resultVreg : UInt32
  deriving DecidableEq, Repr

structure StateWriteNode where
  stateVreg : UInt32
  layoutName : String
  fieldName : String
  valueVreg : UInt32
  deriving DecidableEq, Repr

structure StateTransformNode where
  inputVreg : UInt32
  inputLayout : String
  outputLayout : String
  resultVreg : UInt32
  deriving DecidableEq, Repr

structure ForeignConsumeNode where
  inputVreg : UInt32
  layoutName : String
  deriving DecidableEq, Repr

structure ArenaNewNode where
  capacityVreg : UInt32
  resultVreg : UInt32
  deriving DecidableEq, Repr

structure ArenaAllocNode where
  arenaVreg : UInt32
  layoutName : String
  resultArenaVreg : UInt32
  resultStateVreg : UInt32
  deriving DecidableEq, Repr

structure ArenaGrowNode where
  arenaVreg : UInt32
  minCapacityVreg : UInt32
  resultVreg : UInt32
  deriving DecidableEq, Repr

structure ArenaFreeNode where
  arenaVreg : UInt32
  deriving DecidableEq, Repr

structure ChannelOpenNode where
  dst : String
  elemType : String
  deriving DecidableEq, Repr

structure ChannelSendNode where
  channel : String
  message : String
  ty : String
  deriving DecidableEq, Repr

structure ChannelRecvNode where
  dst : String
  channel : String
  ty : String
  deriving DecidableEq, Repr

structure ChannelCloseNode where
  channel : String
  deriving DecidableEq, Repr

inductive NodePayload where
  | computation (n : ComputationNode)
  | allocation (n : AllocationNode)
  | deallocation (n : DeallocationNode)
  | access (n : AccessNode)
  | cast (n : CastNode)
  | effect (n : EffectNode)
  | control (n : ControlNode)
  | phantom (n : PhantomNode)
  | vTable (n : VTableNode)
  | closureEnv (n : ClosureEnvNode)
  | structDef (n : StructDefNode)
  | enumDef (n : EnumDefNode)
  | matchDispatch (n : MatchNode)
  | constantTime (n : ConstantTimeNode)
  | syscall (n : SyscallNode)
  | stateInit (n : StateInitNode)
  | stateRead (n : StateReadNode)
  | stateWrite (n : StateWriteNode)
  | stateTransform (n : StateTransformNode)
  | foreignConsume (n : ForeignConsumeNode)
  | arenaNew (n : ArenaNewNode)
  | arenaAlloc (n : ArenaAllocNode)
  | arenaGrow (n : ArenaGrowNode)
  | arenaFree (n : ArenaFreeNode)
  | channelOpen (n : ChannelOpenNode)
  | channelSend (n : ChannelSendNode)
  | channelRecv (n : ChannelRecvNode)
  | channelClose (n : ChannelCloseNode)
  deriving DecidableEq, Repr

structure NodeData where
  id : NodeId
  nodeType : NodeType
  annotation : Option BDReference
  programPoint : ProgramPoint
  payload : NodePayload
  deriving DecidableEq, Repr

/-! ## Edges and regions -/

inductive EdgeKind where
  | dataFlow | controlFlow | derivation | annotation | dispatch
  | call (fromNode toNode : NodeId) (callerRegion : RegionId)
  | ret (fromNode toNode : NodeId) (returnValues : List NodeId)
  | syscallArg
  deriving DecidableEq, Repr

structure EdgeData where
  id : EdgeId
  source : NodeId
  target : NodeId
  kind : EdgeKind
  label : Option String
  deriving DecidableEq, Repr

inductive DeploymentTarget where
  | heap | stack | gpu | shared | persisted
  | custom (name : String)
  deriving DecidableEq, Repr

/-- `SCGRegion`; two regions are equal when their sets of nodes have the same elements. -/
structure SCGRegion where
  id : RegionId
  nodes : Finset NodeId
  scopeLevel : UInt32
  securityBoundary : Bool
  deploymentTarget : DeploymentTarget
  deriving DecidableEq

end Vuma.Scg
