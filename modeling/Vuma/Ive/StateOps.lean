import Vuma.Ive.PmtLayout
import Vuma.Scg.Node

/-!
# The verifiers of state operations

`state_read.rs`, `state_write.rs`, `state_transform.rs` and `arena_bounds.rs`. Each gives one result
for every operation that it is asked about.
-/

namespace Vuma.Ive

open Lib Scg

/-! ## Reads and writes -/

/-- `StateReadVerification` and `StateWriteVerification`, which have the same fields. -/
structure StateAccessVerification where
  varName : String
  layoutName : String
  fieldName : String
  valid : Bool
  error : Option String
  deriving DecidableEq, Repr

/-- The check of an access to a field, which reads and writes do with texts of their own. -/
def verifyAccess (exceeds : PmtFieldSpec → String → UInt64 → String) (verb : String)
    (stateVarLayouts : HashMap String String) (layouts : HashMap String PmtLayoutSpec)
    (var field type : String) : StateAccessVerification :=
  match stateVarLayouts.lookup var with
  | none => ⟨var, "", field, false, some s!"variable '{var}' is not state-typed"⟩
  | some layoutName =>
    match layouts.lookup layoutName with
    | none => ⟨var, layoutName, field, false, some s!"layout '{layoutName}' not found"⟩
    | some layout =>
      match layout.fields.find? (·.name = field) with
      | none => ⟨var, layoutName, field, false,
          some s!"field '{field}' not found in layout '{layoutName}'"⟩
      | some fi =>
        if fi.offset + fi.size > layout.totalSize then
          ⟨var, layoutName, field, false, some (exceeds fi layoutName layout.totalSize)⟩
        else if fi.typeName ≠ type then
          ⟨var, layoutName, field, false,
            some s!"type mismatch: field '{field}' is '{fi.typeName}' but {verb} as '{type}'"⟩
        else ⟨var, layoutName, field, true, none⟩

def verifyStateReads (stateVarLayouts : HashMap String String)
    (layouts : HashMap String PmtLayoutSpec) (reads : List (String × String × String)) :
    List StateAccessVerification :=
  reads.map fun (var, field, expectedType) =>
    verifyAccess (fun fi layoutName total =>
      s!"field '{field}' at offset {fi.offset} size {fi.size} exceeds layout '{layoutName}' " ++
        s!"total_size {total}") "read" stateVarLayouts layouts var field expectedType

structure StateWriteOp where
  varName : String
  fieldName : String
  valueType : String
  afterConsume : Bool
  deriving DecidableEq, Repr

def verifyStateWrites (stateVarLayouts : HashMap String String)
    (layouts : HashMap String PmtLayoutSpec) (writes : List StateWriteOp)
    (consumedVars : Finset String) : List StateAccessVerification :=
  writes.map fun w =>
    if w.afterConsume ∨ w.varName ∈ consumedVars then
      ⟨w.varName, "", w.fieldName, false, some (s!"linearity violation: state '{w.varName}' " ++
        "written after being consumed by a transform")⟩
    else
      verifyAccess (fun fi _ total =>
        s!"field '{w.fieldName}' at offset {fi.offset} size {fi.size} exceeds layout " ++
          s!"total_size {total}") "written" stateVarLayouts layouts w.varName w.fieldName w.valueType

/-! ## Transforms -/

inductive TransformKind where
  | reinterpret | copy | identity
  deriving DecidableEq, Repr

structure StateTransformVerification where
  inputLayout : String
  outputLayout : String
  valid : Bool
  transformKind : TransformKind
  error : Option String
  deriving DecidableEq, Repr

def verifyTransform (layouts : HashMap String PmtLayoutSpec) (inputLayout outputLayout : String) :
    StateTransformVerification :=
  match layouts.lookup inputLayout with
  | none => ⟨inputLayout, outputLayout, false, .copy,
      some s!"input layout '{inputLayout}' not found"⟩
  | some inInfo =>
    match layouts.lookup outputLayout with
    | none => ⟨inputLayout, outputLayout, false, .copy,
        some s!"output layout '{outputLayout}' not found"⟩
    | some outInfo =>
      if inputLayout = outputLayout then ⟨inputLayout, outputLayout, true, .identity, none⟩
      else if inInfo.totalSize = outInfo.totalSize then
        ⟨inputLayout, outputLayout, true, .reinterpret, none⟩
      else ⟨inputLayout, outputLayout, true, .copy, none⟩

def verifyAllTransforms (layouts : HashMap String PmtLayoutSpec)
    (transforms : List (String × String)) : List StateTransformVerification :=
  transforms.map fun (inputLayout, outputLayout) => verifyTransform layouts inputLayout outputLayout

/-! ## Arenas -/

structure ArenaBoundsVerification where
  valid : Bool
  error : Option String
  deriving DecidableEq, Repr

/-- What is known of the arenas: a capacity, which may be unknown, and how much is used. -/
structure ArenaState where
  capacity : HashMap UInt32 (Option UInt64)
  used : HashMap UInt32 UInt64

/-- The state of an arena is passed on to another vreg, as far as it is there. -/
def ArenaState.propagate (s : ArenaState) (arena result : UInt32) : ArenaState where
  capacity :=
    match s.capacity.lookup arena with
    | some cap => s.capacity.insert result cap
    | none => s.capacity
  used :=
    match s.used.lookup arena with
    | some used => s.used.insert result used
    | none => s.used

/-- One node of the loop of `verify_arena_bounds`. -/
def arenaStep (layouts : HashMap String PmtLayoutSpec) (s : ArenaState) :
    NodePayload → ArenaState × Option ArenaBoundsVerification
  | .arenaNew n =>
    (⟨s.capacity.insert n.resultVreg none, s.used.insert n.resultVreg 0⟩, none)
  | .arenaAlloc n =>
    match layouts.lookup n.layoutName with
    | none => (s.propagate n.arenaVreg n.resultArenaVreg,
        some ⟨false, some s!"arena_alloc: layout '{n.layoutName}' not found in registry"⟩)
    | some layout =>
      if layout.totalSize = 0 then
        (s.propagate n.arenaVreg n.resultArenaVreg, some ⟨false, some
          s!"arena_alloc: layout '{n.layoutName}' has total_size 0 (zero-size alloc)"⟩)
      else
        let used := (s.used.lookup n.arenaVreg).getD 0
        let cap := (s.capacity.lookup n.arenaVreg).join
        let keep (used : UInt64) : ArenaState :=
          ⟨s.capacity.insert n.resultArenaVreg cap, s.used.insert n.resultArenaVreg used⟩
        if used.toNat + layout.totalSize.toNat ≥ 2 ^ 64 then
          (keep used, some ⟨false, some (s!"arena_alloc: used ({used}) + layout " ++
            s!"'{n.layoutName}' total_size ({layout.totalSize}) overflows u64")⟩)
        else
          let newUsed := used + layout.totalSize
          match cap with
          | some c =>
            if newUsed > c then
              (keep used, some ⟨false, some (s!"arena_alloc: used ({used}) + layout " ++
                s!"'{n.layoutName}' total_size ({layout.totalSize}) = {newUsed} > capacity ({c})")⟩)
            else (keep newUsed, some ⟨true, none⟩)
          | none => (keep newUsed, some ⟨true, none⟩)
  | _ => (s, none)

/-- The loop of `verify_arena_bounds`. -/
def arenaLoop (layouts : HashMap String PmtLayoutSpec) :
    ArenaState → List NodePayload → List ArenaBoundsVerification
  | _, [] => []
  | s, node :: nodes =>
    let r := arenaStep layouts s node
    r.2.toList ++ arenaLoop layouts r.1 nodes

/-- `verify_arena_bounds`, on the payloads of the nodes. -/
def verifyArenaBounds (layouts : HashMap String PmtLayoutSpec) (nodes : List NodePayload) :
    List ArenaBoundsVerification :=
  arenaLoop layouts ⟨∅, ∅⟩ nodes

end Vuma.Ive
