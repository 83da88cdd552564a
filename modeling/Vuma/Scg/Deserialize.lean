import Vuma.Lib.Asking
import Vuma.Scg.Graph

/-!
# Reading a graph from bytes

`deserialize_scg` of `serialize.rs`. The vectors for elements whose number stands in the input are
allocated before the elements are read, and the counters of the graph are raised above the
identifiers read; `allow` says which of these requests are granted, and a request that is not is the
panic of the program. `utf8Error` is the text of an error of `str::from_utf8`, and the reading of
nested patterns has as many stack frames as the input has bytes.
-/

namespace Vuma.Scg

open Lib

/-- The errors of `DeserializeError` that are returned. -/
inductive DeserializeError where
  | invalidMagic (expected found : Bytes)
  | unsupportedVersion (version minSupported : UInt32)
  | unexpectedEof (context : String)
  | invalidValue (field value : String)
  | invalidUtf8 (context source : String)
  | consistencyError (msg : String)
  deriving DecidableEq, Repr

/-- The elements for which a vector is allocated. -/
inductive Elem where
  | node | edge | region | methodEntry | capturedVar | captureMode | structField | enumVariant
  | matchArm | bodyStmt | operand | arg | patternField | pattern
  deriving DecidableEq, Repr

/-- What is asked for: room for some elements, or the number after an identifier, for a counter. -/
inductive Request where
  | room (elem : Elem) (count : UInt64)
  | successor (id : UInt64)
  deriving DecidableEq, Repr

abbrev Read := Reader (Failure DeserializeError)

/-! ## `BinaryReader` -/

def readBytes (n : Nat) (context : String) : Read Bytes :=
  takeBytes (.err (.unexpectedEof context)) n

def readU8 (context : String) : Read UInt8 := do
  let bytes ← readBytes 1 context
  pure (UInt8.ofNat (ofLeBytes bytes))

def readBool (context : String) : Read Bool := do
  let val ← readU8 context
  pure (val != 0)

def readU32Le (context : String) : Read UInt32 := do
  let bytes ← readBytes 4 context
  pure (UInt32.ofNat (ofLeBytes bytes))

def readU64Le (context : String) : Read UInt64 := do
  let bytes ← readBytes 8 context
  pure (UInt64.ofNat (ofLeBytes bytes))

section

variable (utf8Error : Bytes → String)

/-- `str::from_utf8`, with its error. -/
def fromUtf8 (bytes : Bytes) (context : String) : Read String :=
  match String.fromUTF8? ⟨bytes.toArray⟩ with
  | some s => pure s
  | none => throw (.err (.invalidUtf8 context (utf8Error bytes)))

def readString (context : String) : Read String := do
  let len ← readU32Le (context ++ ".length")
  if len = 0 then pure ""
  else
    let bytes ← readBytes len.toNat context
    fromUtf8 utf8Error bytes context

def readOptionalString (context : String) : Read (Option String) := do
  let has ← readBool (context ++ ".has")
  if has then
    let s ← readString utf8Error context
    pure (some s)
  else pure none

def readOptionalU64 (context : String) : Read (Option UInt64) := do
  let has ← readBool (context ++ ".has")
  if has then
    let v ← readU64Le context
    pure (some v)
  else pure none

end

/-! ## Tags -/

/-- The error for a tag that stands for nothing. -/
def invalidTag {α : Type} (field : String) (tag : UInt32) : Read α :=
  throw (.err (.invalidValue field (toString tag.toNat)))

/-- The value that a tag stands for in a table. -/
def ofTag {α : Type} (table : List α) (field : String) (tag : UInt32) : Read α :=
  match table[tag.toNat]? with
  | some a => pure a
  | none => invalidTag field tag

/-- `tag_to_node_type`; the constants number the types from zero. -/
def tagToNodeType (tag : UInt32) : Read NodeType :=
  ofTag [.computation, .allocation, .deallocation, .access, .cast, .effect, .control, .phantom,
    .vTable, .closureEnv, .structDef, .enumDef, .matchDispatch, .constantTime, .syscall, .stateInit,
    .stateRead, .stateWrite, .stateTransform, .foreignConsume, .arenaNew, .arenaAlloc, .arenaGrow,
    .arenaFree, .channelOpen, .channelSend, .channelRecv, .channelClose] "NodeType" tag

/-- `tag_to_edge_kind`; the inner data of calls and returns is not stored. -/
def tagToEdgeKind (tag : UInt32) : Read EdgeKind :=
  ofTag [.dataFlow, .controlFlow, .derivation, EdgeKind.annotation, .dispatch, .call 0 0 0,
    .ret 0 0 [], .syscallArg] "EdgeKind" tag

def tagToAccessMode (tag : UInt32) : Read AccessMode :=
  ofTag [.read, .write, .readWrite] "AccessMode" tag

def tagToControlKind (tag : UInt32) : Read ControlKind :=
  ofTag [.branch, .loopHeader, .loopExit, .join, .functionEntry, .functionReturn, .jump, .switch,
    .switchCase, .closureEntry, .closureReturn, .futurePoll, .wakerRegistration, .stateTransition]
    "ControlKind" tag

def tagToDeploymentTarget (utf8Error : Bytes → String) (tag : UInt32) : Read DeploymentTarget :=
  if tag.toNat = 5 then do
    let name ← readString utf8Error "DeploymentTarget.Custom"
    pure (.custom name)
  else ofTag [.heap, .stack, .gpu, .shared, .persisted] "DeploymentTarget" tag

/-- A character of `to_lowercase`. Outside ASCII only the Kelvin sign becomes an ASCII letter. -/
def lowercaseChar (c : Char) : Char := if c = '\u212a' then 'k' else c.toLower

def IntrinsicKind.fromLabel (label : String) : Option IntrinsicKind :=
  let lower := label.map lowercaseChar
  if lower = "capability_grant" then some .capabilityGrant
  else if lower = "capability_delegate" then some .capabilityDelegate
  else if lower = "capability_verify" then some .capabilityVerify
  else if lower = "capability_revoke" then some .capabilityRevoke
  else if lower = "stark_prove" then some .starkProve
  else if lower = "stark_verify" then some .starkVerify
  else none

/-! ## Nodes -/

section

variable (allow : Request → Bool) (utf8Error : Bytes → String)

/-- `Vec::with_capacity` for a count that has been read, and the loop that fills the vector. -/
def readVec {α : Type} (elem : Elem) (count : UInt64) (r : Nat → Read α) : Read (List α) := do
  ask allow (.room elem count)
  readIndexed r 0 count.toNat

/-- A value that may be there. -/
def readIf {α : Type} (has : Bool) (r : Read α) : Read (Option α) :=
  if has then some <$> r else pure none

def readOptionalBdReference (context : String) : Read (Option BDReference) := do
  let has ← readBool (context ++ ".has")
  if has then
    let bdId ← readU64Le (context ++ ".bd_id")
    let version ← readOptionalU64 (context ++ ".version")
    pure (some ⟨bdId, version⟩)
  else pure none

def readProgramPoint (context : String) : Read ProgramPoint := do
  let file ← readOptionalString utf8Error (context ++ ".file")
  let line ← readOptionalU64 (context ++ ".line")
  let column ← readOptionalU64 (context ++ ".column")
  let offset ← readOptionalU64 (context ++ ".offset")
  pure ⟨file, line, column, offset⟩

/-- `read_match_pattern`, with some stack frames left. -/
def readMatchPattern : Nat → String → Read MatchPatternInfo
  | 0, _ => throw .panic
  | frames + 1, context => do
    let tag ← readU32Le (context ++ ".tag")
    match tag.toNat with
    | 0 => pure .wildcard
    | 1 => do
      let v ← readU64Le (context ++ ".value")
      pure (.lit v.toInt64)
    | 2 => do
      let name ← readString utf8Error (context ++ ".name")
      pure (.ident name)
    | 3 => do
      let variant ← readString utf8Error (context ++ ".variant")
      let binding ← readOptionalString utf8Error (context ++ ".binding")
      pure (.enum variant binding)
    | 4 => do
      let name ← readString utf8Error (context ++ ".name")
      let fieldCount ← readU64Le (context ++ ".field_count")
      let fields ← readVec allow .patternField fieldCount fun i =>
        readString utf8Error s!"{context}.field[{i}]"
      pure (.struct name fields)
    | 5 => do
      let patternCount ← readU64Le (context ++ ".pattern_count")
      let patterns ← readVec allow .pattern patternCount fun i =>
        readMatchPattern frames s!"{context}.pattern[{i}]"
      pure (.or patterns)
    | _ => invalidTag (context ++ ".tag") tag

/-- A field of a struct definition. -/
def readStructField (context : String) (i : Nat) : Read StructFieldInfo := do
  let name ← readString utf8Error s!"{context}.field[{i}].name"
  let typeName ← readString utf8Error s!"{context}.field[{i}].type"
  let offset ← readU64Le s!"{context}.field[{i}].offset"
  let size ← readU64Le s!"{context}.field[{i}].size"
  pure ⟨name, typeName, offset, size⟩

/-- A variant of an enum definition. -/
def readEnumVariant (context : String) (i : Nat) : Read EnumVariantInfo := do
  let name ← readString utf8Error s!"{context}.variant[{i}].name"
  let discriminant ← readU64Le s!"{context}.variant[{i}].discriminant"
  let payloadType ← readOptionalString utf8Error s!"{context}.variant[{i}].payload_type"
  let payloadSize ← readU64Le s!"{context}.variant[{i}].payload_size"
  pure ⟨name, discriminant, payloadType, payloadSize⟩

/-- An arm of a match. -/
def readMatchArm (frames : Nat) (context : String) (i : Nat) : Read MatchArmInfo := do
  let pattern ← readMatchPattern allow utf8Error frames s!"{context}.arm[{i}].pattern"
  let guard ← readOptionalString utf8Error s!"{context}.arm[{i}].guard"
  let bodyCount ← readU64Le s!"{context}.arm[{i}].body_count"
  let body ← readVec allow .bodyStmt bodyCount fun j =>
    readString utf8Error s!"{context}.arm[{i}].body[{j}]"
  pure ⟨pattern, guard, body⟩

/-- The arms of `read_payload`. -/
def readPayloadOf (frames : Nat) (payloadType : NodeType) (context : String) :
    Read NodePayload := do
  match payloadType with
  | .computation =>
    let operation ← readString utf8Error (context ++ ".kind")
    let resultType ← readOptionalString utf8Error (context ++ ".result_type")
    let kind := match IntrinsicKind.fromLabel operation with
      | some k => ComputationKind.intrinsic k
      | none => .other operation
    pure (.computation ⟨kind, resultType, false⟩)
  | .allocation =>
    let size ← readU64Le (context ++ ".size")
    let align ← readU64Le (context ++ ".align")
    let regionId ← readU64Le (context ++ ".region_id")
    let typeName ← readOptionalString utf8Error (context ++ ".type_name")
    pure (.allocation ⟨size, align, regionId, typeName⟩)
  | .deallocation =>
    let allocationNode ← readU64Le (context ++ ".allocation_node")
    let regionId ← readU64Le (context ++ ".region_id")
    pure (.deallocation ⟨allocationNode, regionId⟩)
  | .access =>
    let modeTag ← readU32Le (context ++ ".mode")
    let mode ← tagToAccessMode modeTag
    let regionId ← readU64Le (context ++ ".region_id")
    let offset ← readOptionalU64 (context ++ ".offset")
    let accessSize ← readOptionalU64 (context ++ ".access_size")
    pure (.access ⟨mode, regionId, offset, accessSize⟩)
  | .cast =>
    let fromType ← readString utf8Error (context ++ ".from_type")
    let toType ← readString utf8Error (context ++ ".to_type")
    let isLossless ← readBool (context ++ ".is_lossless")
    pure (.cast ⟨fromType, toType, isLossless⟩)
  | .effect =>
    let effectKind ← readString utf8Error (context ++ ".effect_kind")
    let isObservable ← readBool (context ++ ".is_observable")
    pure (.effect ⟨effectKind, isObservable⟩)
  | .control =>
    let kindTag ← readU32Le (context ++ ".kind")
    let kind ← tagToControlKind kindTag
    let label ← readOptionalString utf8Error (context ++ ".label")
    pure (.control ⟨kind, label⟩)
  | .phantom =>
    let purpose ← readString utf8Error (context ++ ".purpose")
    pure (.phantom ⟨purpose⟩)
  | .vTable =>
    let traitName ← readString utf8Error (context ++ ".trait_name")
    let concreteType ← readString utf8Error (context ++ ".concrete_type")
    let count ← readU64Le (context ++ ".method_count")
    let methodEntries ← readVec allow .methodEntry count fun i =>
      readU64Le s!"{context}.method[{i}]"
    pure (.vTable ⟨traitName, concreteType, methodEntries⟩)
  | .closureEnv =>
    let varCount ← readU64Le (context ++ ".var_count")
    let capturedVars ← readVec allow .capturedVar varCount fun i =>
      readString utf8Error s!"{context}.captured_var[{i}]"
    let modeCount ← readU64Le (context ++ ".mode_count")
    let captureModes ← readVec allow .captureMode modeCount fun i =>
      readBool s!"{context}.capture_mode[{i}]"
    let closureEntry ← readOptionalU64 (context ++ ".closure_entry")
    pure (.closureEnv ⟨capturedVars, captureModes, closureEntry⟩)
  | .structDef =>
    let name ← readString utf8Error (context ++ ".name")
    let fieldCount ← readU64Le (context ++ ".field_count")
    let fields ← readVec allow .structField fieldCount (readStructField utf8Error context)
    let totalSize ← readU64Le (context ++ ".total_size")
    let alignment ← readU64Le (context ++ ".alignment")
    pure (.structDef ⟨name, fields, totalSize, alignment⟩)
  | .enumDef =>
    let name ← readString utf8Error (context ++ ".name")
    let variantCount ← readU64Le (context ++ ".variant_count")
    let variants ← readVec allow .enumVariant variantCount (readEnumVariant utf8Error context)
    let tagType ← readString utf8Error (context ++ ".tag_type")
    let tagSize ← readU64Le (context ++ ".tag_size")
    let maxPayloadSize ← readU64Le (context ++ ".max_payload_size")
    let totalSize ← readU64Le (context ++ ".total_size")
    let alignment ← readU64Le (context ++ ".alignment")
    pure (.enumDef ⟨name, variants, tagType, tagSize, maxPayloadSize, totalSize, alignment⟩)
  | .matchDispatch =>
    let subject ← readString utf8Error (context ++ ".subject")
    let subjectType ← readString utf8Error (context ++ ".subject_type")
    let armCount ← readU64Le (context ++ ".arm_count")
    let arms ← readVec allow .matchArm armCount (readMatchArm allow utf8Error frames context)
    pure (.matchDispatch ⟨subject, arms, subjectType⟩)
  | .constantTime =>
    let opTag ← readU32Le (context ++ ".op")
    let op ← ofTag [ConstantTimeOp.ctSelect, .ctEq] (context ++ ".op") opTag
    let dst ← readString utf8Error (context ++ ".dst")
    let operandCount ← readU64Le (context ++ ".operand_count")
    let operands ← readVec allow .operand operandCount fun i =>
      readString utf8Error s!"{context}.operand[{i}]"
    pure (.constantTime ⟨op, dst, operands⟩)
  | .syscall =>
    let nr ← readU32Le (context ++ ".nr")
    let hasDst ← readU32Le (context ++ ".has_dst")
    let dst ← readIf (hasDst != 0) (readString utf8Error (context ++ ".dst"))
    let argCount ← readU64Le (context ++ ".arg_count")
    let args ← readVec allow .arg argCount fun i => readString utf8Error s!"{context}.arg[{i}]"
    pure (.syscall ⟨nr, dst, args⟩)
  | .stateInit =>
    let layoutName ← readString utf8Error (context ++ ".layout_name")
    let resultVreg ← readU32Le (context ++ ".result_vreg")
    pure (.stateInit ⟨layoutName, resultVreg⟩)
  | .stateRead =>
    let stateVreg ← readU32Le (context ++ ".state_vreg")
    let layoutName ← readString utf8Error (context ++ ".layout_name")
    let fieldName ← readString utf8Error (context ++ ".field_name")
    let resultVreg ← readU32Le (context ++ ".result_vreg")
    pure (.stateRead ⟨stateVreg, layoutName, fieldName, resultVreg⟩)
  | .stateWrite =>
    let stateVreg ← readU32Le (context ++ ".state_vreg")
    let layoutName ← readString utf8Error (context ++ ".layout_name")
    let fieldName ← readString utf8Error (context ++ ".field_name")
    let valueVreg ← readU32Le (context ++ ".value_vreg")
    pure (.stateWrite ⟨stateVreg, layoutName, fieldName, valueVreg⟩)
  | .stateTransform =>
    let inputVreg ← readU32Le (context ++ ".input_vreg")
    let inputLayout ← readString utf8Error (context ++ ".input_layout")
    let outputLayout ← readString utf8Error (context ++ ".output_layout")
    let resultVreg ← readU32Le (context ++ ".result_vreg")
    pure (.stateTransform ⟨inputVreg, inputLayout, outputLayout, resultVreg⟩)
  | .foreignConsume =>
    let inputVreg ← readU32Le (context ++ ".input_vreg")
    let layoutName ← readString utf8Error (context ++ ".layout_name")
    pure (.foreignConsume ⟨inputVreg, layoutName⟩)
  | .arenaNew =>
    let capacityVreg ← readU32Le (context ++ ".capacity_vreg")
    let resultVreg ← readU32Le (context ++ ".result_vreg")
    pure (.arenaNew ⟨capacityVreg, resultVreg⟩)
  | .arenaAlloc =>
    let arenaVreg ← readU32Le (context ++ ".arena_vreg")
    let layoutName ← readString utf8Error (context ++ ".layout_name")
    let resultArenaVreg ← readU32Le (context ++ ".result_arena_vreg")
    let resultStateVreg ← readU32Le (context ++ ".result_state_vreg")
    pure (.arenaAlloc ⟨arenaVreg, layoutName, resultArenaVreg, resultStateVreg⟩)
  | .arenaGrow =>
    let arenaVreg ← readU32Le (context ++ ".arena_vreg")
    let minCapacityVreg ← readU32Le (context ++ ".min_capacity_vreg")
    let resultVreg ← readU32Le (context ++ ".result_vreg")
    pure (.arenaGrow ⟨arenaVreg, minCapacityVreg, resultVreg⟩)
  | .arenaFree =>
    let arenaVreg ← readU32Le (context ++ ".arena_vreg")
    pure (.arenaFree ⟨arenaVreg⟩)
  | .channelOpen =>
    let dst ← readString utf8Error (context ++ ".dst")
    let elemType ← readString utf8Error (context ++ ".elem_type")
    pure (.channelOpen ⟨dst, elemType⟩)
  | .channelSend =>
    let channel ← readString utf8Error (context ++ ".channel")
    let message ← readString utf8Error (context ++ ".message")
    let ty ← readString utf8Error (context ++ ".ty")
    pure (.channelSend ⟨channel, message, ty⟩)
  | .channelRecv =>
    let dst ← readString utf8Error (context ++ ".dst")
    let channel ← readString utf8Error (context ++ ".channel")
    let ty ← readString utf8Error (context ++ ".ty")
    pure (.channelRecv ⟨dst, channel, ty⟩)
  | .channelClose =>
    let channel ← readString utf8Error (context ++ ".channel")
    pure (.channelClose ⟨channel⟩)

def readPayload (frames : Nat) (expectedType : NodeType) (context : String) :
    Read NodePayload := do
  let tag ← readU32Le (context ++ ".tag")
  let payloadType ← tagToNodeType tag
  if payloadType ≠ expectedType then
    throw (.err (.consistencyError (s!"node_type {debugNodeType expectedType} does not match " ++
      s!"payload tag {debugNodeType payloadType}")))
  else readPayloadOf allow utf8Error frames payloadType context

def readNode (frames : Nat) (index : Nat) : Read NodeData := do
  let ctx := s!"node[{index}]"
  let id ← readU64Le ctx
  let tag ← readU32Le (ctx ++ ".node_type")
  let nodeType ← tagToNodeType tag
  let ann ← readOptionalBdReference (ctx ++ ".annotation")
  let programPoint ← readProgramPoint utf8Error (ctx ++ ".program_point")
  let payload ← readPayload allow utf8Error frames nodeType (ctx ++ ".payload")
  pure ⟨id, nodeType, ann, programPoint, payload⟩

/-! ## Edges and regions -/

def readEdge (index : Nat) : Read EdgeData := do
  let ctx := s!"edge[{index}]"
  let id ← readU64Le ctx
  let source ← readU64Le (ctx ++ ".source")
  let target ← readU64Le (ctx ++ ".target")
  let tag ← readU32Le (ctx ++ ".kind")
  let kind ← tagToEdgeKind tag
  let label ← readOptionalString utf8Error (ctx ++ ".label")
  pure ⟨id, source, target, kind, label⟩

/-- `read_region`. The number of nodes is a `u32`, for which a set can always ask for room. -/
def readRegion (index : Nat) : Read SCGRegion := do
  let ctx := s!"region[{index}]"
  let id ← readU64Le ctx
  let nodeCount ← readU32Le (ctx ++ ".node_count")
  let nodes ← readIndexed (fun j => readU64Le s!"{ctx}.nodes[{j}]") 0 nodeCount.toNat
  let scopeLevel ← readU32Le (ctx ++ ".scope_level")
  let securityBoundary ← readBool (ctx ++ ".security_boundary")
  let dtTag ← readU32Le (ctx ++ ".deployment_target")
  let deploymentTarget ← tagToDeploymentTarget utf8Error dtTag
  pure ⟨id, nodes.toFinset, scopeLevel, securityBoundary, deploymentTarget⟩

/-! ## The graph -/

structure SerializedSCG where
  nodes : List NodeData
  edges : List EdgeData
  regions : List SCGRegion
  nextNodeId : UInt64
  nextEdgeId : UInt64

/-- The bytes of `MAGIC`, `VSCG`. -/
def magicBytes : Bytes := [0x56, 0x53, 0x43, 0x47]

def minSupportedVersion : UInt32 := 1

/-- The reading part of `deserialize_scg`. -/
def readScg (frames : Nat) : Read SerializedSCG := do
  let magic ← readBytes 4 "magic"
  if magic ≠ magicBytes then throw (.err (.invalidMagic magicBytes magic))
  else
    let version ← readU32Le "version"
    if version < minSupportedVersion then
      throw (.err (.unsupportedVersion version minSupportedVersion))
    else
      let nextNodeId ← readU64Le "next_node_id"
      let nextEdgeId ← readU64Le "next_edge_id"
      let nodeCount ← readU32Le "node_count"
      let edgeCount ← readU32Le "edge_count"
      let regionCount ← readU32Le "region_count"
      let nodes ← readVec allow .node nodeCount.toUInt64 (readNode allow utf8Error frames)
      let edges ← readVec allow .edge edgeCount.toUInt64 (readEdge utf8Error)
      let regions ← readVec allow .region regionCount.toUInt64 (readRegion utf8Error)
      pure ⟨nodes, edges, regions, nextNodeId, nextEdgeId⟩

/-- `e.to_string()` for an error of the graph. -/
def SCGError.text : SCGError → String
  | nodeNotFound id => s!"node not found: NodeId({id.toNat})"
  | edgeNotFound id => s!"edge not found: EdgeId({id.toNat})"
  | duplicateNode id => s!"duplicate node: NodeId({id.toNat})"
  | duplicateEdge id => s!"duplicate edge: EdgeId({id.toNat})"
  | invalidEdgeEndpoints source target =>
    s!"invalid edge endpoints: source=NodeId({source.toNat}), target=NodeId({target.toNat})"

/-- What an operation on the graph gives. -/
def ofOutcome {α : Type} (r : Outcome SCGError α × SCG) : Except (Failure DeserializeError) SCG :=
  match r.1 with
  | .ok _ => .ok r.2
  | .err e => .error (.err (.consistencyError e.text))
  | .panic => .error .panic

/-- A node of the input is added: its counter is raised, and its annotation is set. -/
def restoreNode (scg : SCG) (node : NodeData) : Except (Failure DeserializeError) SCG := do
  let scg' ← ofOutcome (scg.addNodeWithId node.id node.nodeType node.payload node.programPoint)
  if scg.nextNodeId ≤ node.id then ask allow (.successor node.id)
  match node.annotation with
  | some ann => pure (scg'.modifyNode node.id fun nd => { nd with annotation := some ann })
  | none => pure scg'

/-- An edge of the input is added: its counter is raised, and its label is set. -/
def restoreEdge (scg : SCG) (edge : EdgeData) : Except (Failure DeserializeError) SCG := do
  let scg' ← ofOutcome (scg.addEdgeWithId edge.id edge.source edge.target edge.kind)
  if scg.nextEdgeId ≤ edge.id then ask allow (.successor edge.id)
  match edge.label with
  | some label => pure (scg'.modifyEdge edge.id fun ed => { ed with label := some label })
  | none => pure scg'

def serializedToScg (s : SerializedSCG) : Except (Failure DeserializeError) SCG := do
  let scg ← s.nodes.foldlM (restoreNode allow) SCG.new
  let scg ← s.edges.foldlM (restoreEdge allow) scg
  pure (s.regions.foldl SCG.addRegion scg)

def deserializeScg (data : Bytes) : Except (Failure DeserializeError) SCG := do
  let (serialized, _) ← (readScg allow utf8Error data.length).run data
  serializedToScg allow serialized

end

end Vuma.Scg
