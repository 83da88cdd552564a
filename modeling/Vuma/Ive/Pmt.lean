import Vuma.Ive.StateOps
import Vuma.Scg.Graph

/-!
# Verification of state programs

`verify_pmt` of `verification.rs`. It compares the layouts with what it derives itself, goes through
the nodes of the program in the order of their numbers, and hands what it has collected to the four
verifiers of state operations.
-/

namespace Vuma.Ive

open Lib Scg

/-! ## Programs -/

/-- `ScgStatement` of the code generator, as far as the verifier tells statements apart. -/
inductive PmtStatement where
  | foreignConsume (layoutName : String)
  | stateInit (layoutName : String)
  | stateRead (layoutName fieldName : String)
  | stateWrite (layoutName fieldName : String)
  | stateTransform (fromLayout toLayout : String)
  | arenaNew
  | arenaAlloc (layoutName : String)
  | arenaGrow
  | arenaFree
  | other
  deriving DecidableEq, Repr

namespace PmtStatement

/-- The node type of a statement. -/
def nodeType : PmtStatement → NodeType
  | foreignConsume _ => .foreignConsume
  | stateInit _ => .stateInit
  | stateRead .. => .stateRead
  | stateWrite .. => .stateWrite
  | stateTransform .. => .stateTransform
  | arenaNew => .arenaNew
  | arenaAlloc _ => .arenaAlloc
  | arenaGrow => .arenaGrow
  | arenaFree => .deallocation
  | other => .computation

/-- The payload that stands for a statement: the code generator has no vregs, which are all 0. -/
def payload : PmtStatement → NodePayload
  | foreignConsume layoutName => .foreignConsume ⟨0, layoutName⟩
  | stateInit layoutName => .stateInit ⟨layoutName, 0⟩
  | stateRead layoutName fieldName => .stateRead ⟨0, layoutName, fieldName, 0⟩
  | stateWrite layoutName fieldName => .stateWrite ⟨0, layoutName, fieldName, 0⟩
  | stateTransform fromLayout toLayout => .stateTransform ⟨0, fromLayout, toLayout, 0⟩
  | arenaNew => .arenaNew ⟨0, 0⟩
  | arenaAlloc layoutName => .arenaAlloc ⟨0, layoutName, 0, 0⟩
  | arenaGrow => .arenaGrow ⟨0, 0, 0⟩
  | arenaFree => .deallocation ⟨0, 0⟩
  | other => .computation ⟨.other "unknown", none, false⟩

end PmtStatement

/-- `Scg` of the code generator: the bodies of the functions, and where a node stands in them. A
graph that comes from a semantic graph keeps the nodes of that graph under their numbers. -/
structure CodegenScg where
  nodes : List (Option (List PmtStatement))
  nodeIndex : HashMap NodeId (Nat × Nat)
  semanticNodes : Option (HashMap NodeId NodeData)
  semantic_id : ∀ sn ∈ semanticNodes, ∀ id, ∀ data ∈ sn.lookup id, data.id = id

namespace CodegenScg

def getNode (scg : CodegenScg) (id : NodeId) : Option PmtStatement := do
  let (fnIdx, stmtIdx) ← scg.nodeIndex.lookup id
  let body ← scg.nodes[fnIdx]?.join
  body[stmtIdx]?

/-- `node_data`, with `node_type` and `node_payload`. -/
def nodeData (scg : CodegenScg) (id : NodeId) : Option NodeData :=
  match scg.semanticNodes with
  | some sn => sn.lookup id
  | none => (scg.getNode id).map fun stmt =>
      ⟨id, stmt.nodeType, none, ⟨none, none, none, none⟩, stmt.payload⟩

/-- The payload of a node of the index. -/
def nodePayload (scg : CodegenScg) (id : NodeId) : Option NodePayload :=
  if (scg.nodeIndex.lookup id).isSome then (scg.nodeData id).map NodeData.payload else none

/-- `from_semantic_scg`, from the nodes of the graph. -/
def fromSemanticScg (nodes : List NodeData) : CodegenScg where
  nodes := []
  nodeIndex := nodes.foldl (fun m data => m.insert data.id (0, 0)) ∅
  semanticNodes := some (nodes.foldl (fun m data => m.insert data.id data) ∅)
  semantic_id := by
    suffices hgen : ∀ (nodes : List NodeData) (m : HashMap NodeId NodeData),
        (∀ id, ∀ data ∈ m.lookup id, data.id = id) →
        ∀ id, ∀ data ∈ (nodes.foldl (fun m data => m.insert data.id data) m).lookup id,
          data.id = id by
      intro sn hsn
      obtain rfl := Option.mem_some_iff.1 hsn
      exact hgen nodes ∅ (by simp)
    intro nodes
    induction nodes with
    | nil => exact fun m h => h
    | cons d nodes ih =>
      refine fun m h => ih _ fun id data hdata => ?_
      rw [HashMap.lookup_insert_ite] at hdata
      split_ifs at hdata with heq
      · cases hdata
        exact heq.symm
      · exact h id data hdata

/-- The nodes of `to_semantic_scg`. -/
def toSemanticScg (it : KeyOrder NodeId) (scg : CodegenScg) : SCG :=
  (it.order scg.nodeIndex.keys).foldl (fun g id =>
    match scg.nodeData id with
    | some data =>
      (g.addNodeWithId data.id data.nodeType data.payload data.programPoint).2
    | none => g) .new

end CodegenScg

/-- The payloads of `SCG::nodes`. -/
def nodePayloads (g : SCG) : List NodePayload :=
  (g.graph.nodes.filterMap fun entry => entry).map fun entry => entry.weight.payload

/-! ## Typed states -/

inductive TypedStateKind where
  | stateInit | stateRead | stateWrite | stateTransform | foreignConsume
  deriving DecidableEq, Repr

/-- The kind as it is printed. -/
def TypedStateKind.debug : TypedStateKind → String
  | stateInit => "StateInit"
  | stateRead => "StateRead"
  | stateWrite => "StateWrite"
  | stateTransform => "StateTransform"
  | foreignConsume => "ForeignConsume"

/-- `TypedStateMeta`, without what is kept for messages. -/
inductive TypedStateMeta where
  | stateInit (layoutName : String)
  | stateRead (layoutName fieldName : String)
  | stateWrite (layoutName fieldName : String)
  | stateTransform (inputLayout outputLayout : String)
  | foreignConsume
  deriving DecidableEq, Repr

/-- `TypedStateTriple`, without what is kept for messages. -/
structure TypedStateTriple where
  kind : TypedStateKind
  layout : String
  field : String
  deriving DecidableEq, Repr

/-- The triple of a node. -/
def tripleOfPayload : NodePayload → Option TypedStateTriple
  | .stateInit n => some ⟨.stateInit, n.layoutName, ""⟩
  | .stateRead n => some ⟨.stateRead, n.layoutName, n.fieldName⟩
  | .stateWrite n => some ⟨.stateWrite, n.layoutName, n.fieldName⟩
  | .stateTransform n => some ⟨.stateTransform, n.inputLayout, "->" ++ n.outputLayout⟩
  | .foreignConsume n => some ⟨.foreignConsume, n.layoutName, ""⟩
  | _ => none

def extractTypedStateTriplesFromScg (it : KeyOrder NodeId) (scg : CodegenScg) :
    List TypedStateTriple :=
  (it.order scg.nodeIndex.keys).filterMap fun id => (scg.nodePayload id).bind tripleOfPayload

def extractTypedStateTriplesFromCodegenMeta (meta_ : List TypedStateMeta) : List TypedStateTriple :=
  meta_.map fun
    | .stateInit layoutName => ⟨.stateInit, layoutName, ""⟩
    | .stateRead layoutName fieldName => ⟨.stateRead, layoutName, fieldName⟩
    | .stateWrite layoutName fieldName => ⟨.stateWrite, layoutName, fieldName⟩
    | .stateTransform inputLayout outputLayout =>
      ⟨.stateTransform, inputLayout, "->" ++ outputLayout⟩
    | .foreignConsume => ⟨.foreignConsume, "", ""⟩

/-- The order in which triples are reported. -/
def TypedStateTriple.le (a b : TypedStateTriple) : Bool :=
  if a.kind ≠ b.kind then a.kind.ctorIdx ≤ b.kind.ctorIdx
  else if a.layout ≠ b.layout then a.layout ≤ b.layout
  else a.field ≤ b.field

def verifyTypedStateConformance (it : KeyOrder NodeId) (scg : CodegenScg)
    (codegenMeta : List TypedStateMeta) : List String :=
  let semantic := extractTypedStateTriplesFromScg it scg
  let codegen := extractTypedStateTriplesFromCodegenMeta codegenMeta
  let kinds : List TypedStateKind :=
    [.stateInit, .stateRead, .stateWrite, .stateTransform, .foreignConsume]
  let counted (l : List TypedStateTriple) := l.filter (·.kind ≠ .foreignConsume)
  let keys := (counted semantic).dedup ++ (counted codegen).dedup
  (kinds.flatMap fun kind =>
    let a := semantic.countP (·.kind = kind)
    let b := codegen.countP (·.kind = kind)
    if a ≠ b then
      [s!"{kind.debug}: count mismatch (semantic SCG={a}, codegen Scg={b})"]
    else []) ++
  (keys.mergeSort TypedStateTriple.le).flatMap fun key =>
    let a := semantic.count key
    let b := codegen.count key
    if a ≠ b then
      [s!"{key.kind.debug} layout='{key.layout}' field='{key.field}': occurrence count mismatch " ++
        s!"(semantic SCG={a}, codegen Scg={b})"]
    else []

/-! ## The walk over the nodes -/

/-- What `verify_pmt` collects. -/
structure PmtWalk where
  stateVarLayouts : HashMap String String
  consumedVars : Finset String
  consumedVregs : Finset UInt32
  reads : List (String × String × String)
  writes : List StateWriteOp
  transforms : List (String × String)
  stateInitCount : Nat
  accessedFieldRefs : HashMap String (List String)

namespace PmtWalk

/-- The walk starts with nothing. -/
def empty : PmtWalk := ⟨∅, ∅, ∅, [], [], [], 0, ∅⟩

/-- The name of a state variable, which is made up of the node and the vreg. -/
def stateVar (id : NodeId) (vreg : UInt32) : String :=
  "_state_" ++ (toString id ++ ("_" ++ toString vreg))

/-- A variable gets a layout, unless it has one. -/
def setLayout (w : PmtWalk) (var layoutName : String) : PmtWalk :=
  if (w.stateVarLayouts.lookup var).isSome then w
  else { w with stateVarLayouts := w.stateVarLayouts.insert var layoutName }

/-- A state is consumed. -/
def consume (w : PmtWalk) (var : String) (vreg : UInt32) : PmtWalk :=
  { w with
    consumedVars := insert var w.consumedVars
    consumedVregs := insert vreg w.consumedVregs }

/-- A field of a layout is used. -/
def accessField (w : PmtWalk) (layoutName fieldName : String) : PmtWalk :=
  let fields := (w.accessedFieldRefs.lookup layoutName).getD []
  { w with
    accessedFieldRefs := w.accessedFieldRefs.insert layoutName
      (if fieldName ∈ fields then fields else fields ++ [fieldName]) }

/-- The declared type of a field, or the empty text. -/
def fieldType (layouts : HashMap String PmtLayoutSpec) (layoutName fieldName : String) : String :=
  (((layouts.lookup layoutName).bind fun spec =>
    spec.fields.find? (·.name = fieldName)).map PmtFieldSpec.typeName).getD ""

/-- One node of the walk. -/
def step (layouts : HashMap String PmtLayoutSpec) (w : PmtWalk) (id : NodeId) :
    NodePayload → PmtWalk
  | .stateInit _ => { w with stateInitCount := w.stateInitCount + 1 }
  | .stateTransform n =>
    let var := stateVar id n.inputVreg
    let w := (w.setLayout var n.inputLayout).consume var n.inputVreg
    { w with transforms := w.transforms ++ [(n.inputLayout, n.outputLayout)] }
  | .foreignConsume n =>
    let var := stateVar id n.inputVreg
    (w.setLayout var n.layoutName).consume var n.inputVreg
  | .stateRead n =>
    let var := stateVar id n.stateVreg
    let w := (w.setLayout var n.layoutName).accessField n.layoutName n.fieldName
    { w with
      reads := w.reads ++ [(var, n.fieldName, fieldType layouts n.layoutName n.fieldName)] }
  | .stateWrite n =>
    let var := stateVar id n.stateVreg
    let w := (w.setLayout var n.layoutName).accessField n.layoutName n.fieldName
    { w with
      writes := w.writes ++ [⟨var, n.fieldName, fieldType layouts n.layoutName n.fieldName,
        n.stateVreg ∈ w.consumedVregs⟩] }
  | _ => w

end PmtWalk

/-- The nodes in the order of their numbers. -/
def stateNodes (it : KeyOrder NodeId) (scg : CodegenScg) : List (NodeId × NodePayload) :=
  ((it.order scg.nodeIndex.keys).filterMap fun id =>
    (scg.nodePayload id).map fun payload => (id, payload)).mergeSort fun a b => a.1 ≤ b.1

/-- The walk over all nodes. -/
def pmtWalk (it : KeyOrder NodeId) (layouts : HashMap String PmtLayoutSpec) (scg : CodegenScg) :
    PmtWalk :=
  (stateNodes it scg).foldl (fun w node => w.step layouts node.1 node.2) .empty

/-! ## The verdict -/

/-- `VerificationStatus`, as far as it is used here; of a counterexample only the description is
set. -/
inductive VerificationStatus where
  | proven
  | violated (description : String)
  deriving DecidableEq, Repr

structure VerificationResult where
  invariant : String
  status : VerificationStatus
  message : String
  deriving DecidableEq, Repr

/-- `VerificationInput`. What becomes of the contracts is only a note in the message. -/
structure VerificationInput where
  scg : CodegenScg
  pmtLayouts : Option (HashMap String PmtLayoutSpec)
  typedStateMeta : List TypedStateMeta
  contractNote : String

/-- The layouts, none if they are not given. -/
def VerificationInput.layouts (input : VerificationInput) : HashMap String PmtLayoutSpec :=
  input.pmtLayouts.getD ∅

/-- A result for a cross-check that has failed. -/
def crossCheckFailed (message : String) : VerificationResult :=
  ⟨"pmt-state", .violated message, message⟩

/-- The verdict on what has been collected. -/
def pmtVerdict (layouts : HashMap String PmtLayoutSpec) (w : PmtWalk) (arena : List NodePayload)
    (note : String) : VerificationResult :=
  let readResults := verifyStateReads w.stateVarLayouts layouts w.reads
  let writeResults := verifyStateWrites w.stateVarLayouts layouts w.writes w.consumedVars
  let transformResults := verifyAllTransforms layouts w.transforms
  let arenaResults := verifyArenaBounds layouts arena
  let readErrs := readResults.filterMap (·.error)
  let writeErrs := writeResults.filterMap (·.error)
  let transformErrs := transformResults.filterMap (·.error)
  let arenaErrs := arenaResults.filterMap (·.error)
  let totalOps := w.reads.length + w.writes.length + w.transforms.length
  if readResults.all (·.valid) && writeResults.all (·.valid) && transformResults.all (·.valid) &&
      arenaResults.all (·.valid) then
    ⟨"pmt-state", .proven, s!"pmt-state check passed ({w.stateInitCount} init(s), " ++
      s!"{w.reads.length} read(s), {w.writes.length} write(s), {w.transforms.length} transform(s))" ++
      note⟩
  else if totalOps = 0 then
    ⟨"pmt-state", .proven, "pmt-state check passed (no state operations found)" ++ note⟩
  else
    ⟨"pmt-state", .violated ("; ".intercalate (readErrs ++ writeErrs ++ transformErrs ++ arenaErrs)),
      s!"pmt-state violations: {readErrs.length} read-error(s), {writeErrs.length} " ++
      s!"write-error(s), {transformErrs.length} transform-error(s)" ++ note⟩

def verifyPmt (its : KeyOrder String) (itn : KeyOrder NodeId) (input : VerificationInput) :
    VerificationResult :=
  match verifyLayoutConsistency its input.layouts with
  | first :: rest =>
    crossCheckFailed (s!"pmt-state layout consistency failed: {rest.length + 1} mismatch(es) —" ++
      "                          pipeline-provided layouts do not match independently" ++
      s!"                          re-derived layouts (first: {first})")
  | [] =>
    let w := pmtWalk itn input.layouts input.scg
    match verifyLayoutFieldListConsistency its input.layouts w.accessedFieldRefs with
    | first :: rest =>
      crossCheckFailed (s!"pmt-state layout field-list cross-check failed: {rest.length + 1} " ++
        "mismatch(es) —                          parser-provided field lists do not match " ++
        "IVE-derived                          (SCG-referenced) field lists " ++ s!"(first: {first})")
    | [] =>
      match if input.typedStateMeta ≠ [] ∧ input.scg.semanticNodes.isSome then
          verifyTypedStateConformance itn input.scg input.typedStateMeta else [] with
      | first :: rest =>
        crossCheckFailed ("pmt-state typed-state conformance cross-check failed: " ++
          s!"{rest.length + 1} mismatch(es) — semantic SCG and codegen Scg disagree " ++
          s!"on typed-state op counts/layout/field (first: {first})")
      | [] => pmtVerdict input.layouts w (nodePayloads (input.scg.toSemanticScg itn))
          input.contractNote

end Vuma.Ive
