import Vuma.Bd.Descriptor
import Vuma.Lib.Codec

/-!
# Binary serialization of descriptors

`serialize.rs`: the `write_binary` and `read_binary` of every type of a descriptor, and
`serialize_bd` and `deserialize_bd`. A writer appends bytes to a vector and does not fail, so it is
the bytes it appends; it writes a set in its iteration order. A reader consumes bytes and builds
sets by insertion, so what it returns has no order.
-/

namespace Vuma.Bd

open Vuma.Lib

/-- `BinaryError`; the only I/O error of a cursor is an unexpected end. -/
inductive BinaryError where
  | io
  | invalidData (msg : String)
  deriving DecidableEq, Repr

abbrev Read := Reader BinaryError

/-! ## Primitives -/

def writeU8 (v : UInt8) : Bytes := leBytes 1 v.toNat

def readU8 : Read UInt8 := do
  let v ← readLe .io 1
  pure (UInt8.ofNat v)

def writeU32 (v : UInt32) : Bytes := leBytes 4 v.toNat

def readU32 : Read UInt32 := do
  let v ← readLe .io 4
  pure (UInt32.ofNat v)

def writeU64 (v : UInt64) : Bytes := leBytes 8 v.toNat

def readU64 : Read UInt64 := do
  let v ← readLe .io 8
  pure (UInt64.ofNat v)

def writeBool (v : Bool) : Bytes := writeU8 (if v then 1 else 0)

def readBool : Read Bool := do
  let v ← readU8
  pure (v != 0)

/-- `s.as_bytes()`. -/
def asBytes (s : String) : Bytes := s.toByteArray.data.toList

def writeString (s : String) : Bytes :=
  writeU32 (UInt32.ofNat (asBytes s).length) ++ asBytes s

def readString : Read String := do
  let len ← readU32
  let buf ← takeBytes .io len.toNat
  match String.fromUTF8? ⟨buf.toArray⟩ with
  | some s => pure s
  | none => throw (.invalidData "invalid UTF-8 in string field")

section

variable {α β : Type}

def writeOpt (w : α → Bytes) : Option α → Bytes
  | none => writeU8 0
  | some v => writeU8 1 ++ w v

def readOpt (r : Read α) : Read (Option α) := do
  let tag ← readU8
  match tag.toNat with
  | 0 => pure none
  | 1 => do
    let v ← r
    pure (some v)
  | other => throw (.invalidData s!"invalid Option tag: {other}")

def writeVec (w : α → Bytes) (v : List α) : Bytes :=
  writeU32 (UInt32.ofNat v.length) ++ v.flatMap w

def readVec (r : Read α) : Read (List α) := do
  let len ← readU32
  readTimes r len.toNat

def writeHashset (w : α → Bytes) (s : HashSet α) : Bytes := writeVec w s.iter

/-- Every element read is inserted into the set. -/
def readHashset [DecidableEq α] (r : Read α) : Read (Finset α) := do
  let items ← readVec r
  pure (items.foldl (fun out item => insert item out) ∅)

/-- A tag that stands for a value of an enumeration. -/
def readTag (name : String) (ofTag : Nat → Option α) : Read α := do
  let tag ← readU8
  match ofTag tag.toNat with
  | some v => pure v
  | none => throw (.invalidData s!"invalid {name} discriminant: {tag}")

end

/-! ## Capabilities and relations -/

def Capability.tag : Capability → UInt8
  | .read => 0
  | .write => 1
  | .execute => 2
  | .iterate => 3
  | .send => 4
  | .persist => 5
  | .serialize => 6
  | .deserialize => 7
  | .hash => 8
  | .compare => 9
  | .derivePtr => 10
  | .cast => 11
  | .fork => 12
  | .drop => 13
  | .share => 14
  | .move => 15
  | .pin => 16
  | .stateRead => 17
  | .stateWrite => 18
  | .stateTransform => 19
  | .stateConsume => 20

def Capability.ofTag : Nat → Option Capability
  | 0 => some .read
  | 1 => some .write
  | 2 => some .execute
  | 3 => some .iterate
  | 4 => some .send
  | 5 => some .persist
  | 6 => some .serialize
  | 7 => some .deserialize
  | 8 => some .hash
  | 9 => some .compare
  | 10 => some .derivePtr
  | 11 => some .cast
  | 12 => some .fork
  | 13 => some .drop
  | 14 => some .share
  | 15 => some .move
  | 16 => some .pin
  | 17 => some .stateRead
  | 18 => some .stateWrite
  | 19 => some .stateTransform
  | 20 => some .stateConsume
  | _ => none

def writeCapability (c : Capability) : Bytes := writeU8 c.tag

def readCapability : Read Capability := readTag "Capability" Capability.ofTag

def writeCondition : Condition → Bytes
  | .inPhase id => writeU8 0 ++ writeU64 id
  | .afterOp id => writeU8 1 ++ writeU64 id
  | .beforeOp id => writeU8 2 ++ writeU64 id
  | .notConcurrentWith id => writeU8 3 ++ writeU64 id
  | .requiresLock id => writeU8 4 ++ writeU64 id
  | .securityLevel lvl => writeU8 5 ++ writeU8 lvl
  | .validDuring id => writeU8 6 ++ writeU64 id

def readCondition : Read Condition := do
  let tag ← readU8
  match tag.toNat with
  | 0 => return .inPhase (← readU64)
  | 1 => return .afterOp (← readU64)
  | 2 => return .beforeOp (← readU64)
  | 3 => return .notConcurrentWith (← readU64)
  | 4 => return .requiresLock (← readU64)
  | 5 => return .securityLevel (← readU8)
  | 6 => return .validDuring (← readU64)
  | other => throw (.invalidData s!"invalid Condition discriminant: {other}")

def writeCapD (c : CapD HashSet) : Bytes :=
  writeHashset writeCapability c.caps ++ writeHashset writeCondition c.conditions

def readCapD : Read (CapD Finset) := do
  let caps ← readHashset readCapability
  let conditions ← readHashset readCondition
  return ⟨caps, conditions⟩

def TemporalKind.tag : TemporalKind → UInt8
  | .outlives => 0
  | .coincides => 1
  | .precedes => 2
  | .succeeds => 3
  | .epochBefore => 4
  | .epochAfter => 5

def TemporalKind.ofTag : Nat → Option TemporalKind
  | 0 => some .outlives
  | 1 => some .coincides
  | 2 => some .precedes
  | 3 => some .succeeds
  | 4 => some .epochBefore
  | 5 => some .epochAfter
  | _ => none

def writeTemporalKind (k : TemporalKind) : Bytes := writeU8 k.tag

def readTemporalKind : Read TemporalKind := readTag "TemporalKind" TemporalKind.ofTag

def DepKind.tag : DepKind → UInt8
  | .dataDep => 0
  | .controlDep => 1
  | .aliasDep => 2

def DepKind.ofTag : Nat → Option DepKind
  | 0 => some .dataDep
  | 1 => some .controlDep
  | 2 => some .aliasDep
  | _ => none

def writeDepKind (k : DepKind) : Bytes := writeU8 k.tag

def readDepKind : Read DepKind := readTag "DepKind" DepKind.ofTag

def FlowPolicy.tag : FlowPolicy → UInt8
  | .noDowngrade => 0
  | .noCrossBoundary => 1
  | .sanitized => 2

def FlowPolicy.ofTag : Nat → Option FlowPolicy
  | 0 => some .noDowngrade
  | 1 => some .noCrossBoundary
  | 2 => some .sanitized
  | _ => none

def writeFlowPolicy (p : FlowPolicy) : Bytes := writeU8 p.tag

def readFlowPolicy : Read FlowPolicy := readTag "FlowPolicy" FlowPolicy.ofTag

def writeRelation : Relation → Bytes
  | .temporal k => writeU8 0 ++ writeTemporalKind k
  | .containment => writeU8 1
  | .dependency k => writeU8 2 ++ writeDepKind k
  | .equivalence => writeU8 3
  | .security p => writeU8 4 ++ writeFlowPolicy p
  | .liveness => writeU8 5

def readRelation : Read Relation := do
  let tag ← readU8
  match tag.toNat with
  | 0 => return .temporal (← readTemporalKind)
  | 1 => return .containment
  | 2 => return .dependency (← readDepKind)
  | 3 => return .equivalence
  | 4 => return .security (← readFlowPolicy)
  | 5 => return .liveness
  | other => throw (.invalidData s!"invalid Relation discriminant: {other}")

def writeRelD (r : RelD HashSet) : Bytes := writeHashset writeRelation r.relations

def readRelD : Read (RelD Finset) := do
  let relations ← readHashset readRelation
  return ⟨relations⟩

/-! ## Leaf representations -/

def SpaceFillingCurve.tag : SpaceFillingCurve → UInt8
  | .zOrder => 0
  | .hilbert => 1
  | .rowMajor => 2

def SpaceFillingCurve.ofTag : Nat → Option SpaceFillingCurve
  | 0 => some .zOrder
  | 1 => some .hilbert
  | 2 => some .rowMajor
  | _ => none

def writeSpaceFillingCurve (c : SpaceFillingCurve) : Bytes := writeU8 c.tag

def readSpaceFillingCurve : Read SpaceFillingCurve :=
  readTag "SpaceFillingCurve" SpaceFillingCurve.ofTag

def writeByteRep (b : ByteRep) : Bytes := writeU64 b.size ++ writeU64 b.align

def readByteRep : Read ByteRep := do
  let size ← readU64
  let align ← readU64
  return ⟨size, align⟩

def writeManifoldSpatialRep (m : ManifoldSpatialRep) : Bytes :=
  writeU32 m.dimensions ++ (writeVec writeU64 m.dimSizes ++ (writeU64 m.elementSize ++
    (writeSpaceFillingCurve m.curve ++ (writeU32 m.order ++ writeU64 m.totalBytes))))

def readManifoldSpatialRep : Read ManifoldSpatialRep := do
  let dimensions ← readU32
  let dimSizes ← readVec readU64
  let elementSize ← readU64
  let curve ← readSpaceFillingCurve
  let order ← readU32
  let totalBytes ← readU64
  return ⟨dimensions, dimSizes, elementSize, curve, order, totalBytes⟩

def writeGestaltSuperpositionRep (g : GestaltSuperpositionRep) : Bytes :=
  writeVec writeString g.variants ++ (writeU64 g.maxSize ++ (writeU64 g.maxAlign ++
    (writeBool g.degraded ++ writeOpt writeU64 g.tagOffset)))

def readGestaltSuperpositionRep : Read GestaltSuperpositionRep := do
  let variants ← readVec readString
  let maxSize ← readU64
  let maxAlign ← readU64
  let degraded ← readBool
  let tagOffset ← readOpt readU64
  return ⟨variants, maxSize, maxAlign, degraded, tagOffset⟩

def writeFieldOffset (f : String × UInt64) : Bytes := writeString f.1 ++ writeU64 f.2

def readFieldOffset : Read (String × UInt64) := do
  let name ← readString
  let off ← readU64
  return (name, off)

def writeConceptRelationalRep (c : ConceptRelationalRep) : Bytes :=
  writeVec writeString c.fieldNames ++ (writeVec writeFieldOffset c.fieldOffsets ++
    (writeU64 c.totalSize ++ (writeU64 c.align ++ writeBool c.useSoa)))

def readConceptRelationalRep : Read ConceptRelationalRep := do
  let fieldNames ← readVec readString
  let fieldOffsets ← readVec readFieldOffset
  let totalSize ← readU64
  let align ← readU64
  let useSoa ← readBool
  return ⟨fieldNames, fieldOffsets, totalSize, align, useSoa⟩

/-! ## Representations -/

mutual

def writeRepD : RepD HashSet → Bytes
  | .byte b => writeU8 0 ++ writeByteRep b
  | .struct fields totalSize align =>
    writeU8 1 ++ (writeU32 (UInt32.ofNat fields.length) ++ writeOffsetRepds fields ++
      (writeU64 totalSize ++ writeU64 align))
  | .array element count => writeU8 2 ++ (writeRepD element ++ writeU64 count)
  | .enum variants =>
    writeU8 3 ++ (writeU32 (UInt32.ofNat variants.length) ++ writeOffsetRepds variants)
  | .ptr pointee => writeU8 4 ++ writeRepD pointee
  | .union alternatives maxSize maxAlign =>
    writeU8 5 ++ (writeU32 (UInt32.ofNat alternatives.length) ++ writeRepDs alternatives ++
      (writeU64 maxSize ++ writeU64 maxAlign))
  | .func params result =>
    writeU8 6 ++ (writeU32 (UInt32.ofNat params.length) ++ writeRepDs params ++ writeRepD result)
  | .manifoldSpatial m => writeU8 7 ++ writeManifoldSpatialRep m
  | .gestaltSuperposition g => writeU8 8 ++ writeGestaltSuperpositionRep g
  | .conceptRelational c => writeU8 9 ++ writeConceptRelationalRep c
  | .generic name constraints =>
    writeU8 10 ++ (writeString name ++
      (writeU32 (UInt32.ofNat constraints.length) ++ writeBDConstraints constraints))
  | .state layout => writeU8 11 ++ writeU32 layout
  | .ref layout field => writeU8 12 ++ (writeU32 layout ++ writeU32 field)
  | .dependentArray elem countVar => writeU8 13 ++ (writeRepD elem ++ writeString countVar)

def writeBDConstraint : BDConstraint HashSet → Bytes
  | .capDAtLeast capd => writeU8 0 ++ writeCapD capd
  | .repDCompatibleWith repd => writeU8 1 ++ writeRepD repd
  | .relDContains reld => writeU8 2 ++ writeRelD reld

/-- `write_offset_repd` for every pair. -/
def writeOffsetRepds : List (UInt64 × RepD HashSet) → Bytes
  | [] => []
  | (off, rep) :: pairs => writeU64 off ++ writeRepD rep ++ writeOffsetRepds pairs

def writeRepDs : List (RepD HashSet) → Bytes
  | [] => []
  | rep :: reps => writeRepD rep ++ writeRepDs reps

def writeBDConstraints : List (BDConstraint HashSet) → Bytes
  | [] => []
  | c :: cs => writeBDConstraint c ++ writeBDConstraints cs

end

section

variable (rep : Read (RepD Finset))

/-- `read_offset_repd`, where `rep` reads a representation. -/
def readOffsetRepd : Read (UInt64 × RepD Finset) := do
  let off ← readU64
  let r ← rep
  return (off, r)

def readStruct : Read (RepD Finset) := do
  let fields ← readVec (readOffsetRepd rep)
  let totalSize ← readU64
  let align ← readU64
  return .struct fields totalSize align

def readArray : Read (RepD Finset) := do
  let element ← rep
  let count ← readU64
  return .array element count

def readEnum : Read (RepD Finset) := do
  let variants ← readVec (readOffsetRepd rep)
  return .enum variants

def readPtr : Read (RepD Finset) := do
  let pointee ← rep
  return .ptr pointee

def readUnion : Read (RepD Finset) := do
  let alternatives ← readVec rep
  let maxSize ← readU64
  let maxAlign ← readU64
  return .union alternatives maxSize maxAlign

def readFunc : Read (RepD Finset) := do
  let params ← readVec rep
  let result ← rep
  return .func params result

def readBDConstraint : Read (BDConstraint Finset) := do
  let tag ← readU8
  match tag.toNat with
  | 0 => return .capDAtLeast (← readCapD)
  | 1 => return .repDCompatibleWith (← rep)
  | 2 => return .relDContains (← readRelD)
  | other => throw (.invalidData s!"invalid BDConstraint discriminant: {other}")

def readGeneric : Read (RepD Finset) := do
  let name ← readString
  let constraints ← readVec (readBDConstraint rep)
  return .generic name constraints

def readDependentArray : Read (RepD Finset) := do
  let elem ← rep
  let countVar ← readString
  return .dependentArray elem countVar

end

def readState : Read (RepD Finset) := do
  let layout ← readU32
  return .state layout

def readRef : Read (RepD Finset) := do
  let layout ← readU32
  let field ← readU32
  return .ref layout field

/-- `RepD::read_binary` after the tag. -/
def readRepDTagged (rep : Read (RepD Finset)) (tag : UInt8) : Read (RepD Finset) :=
  match tag.toNat with
  | 0 => return .byte (← readByteRep)
  | 1 => readStruct rep
  | 2 => readArray rep
  | 3 => readEnum rep
  | 4 => readPtr rep
  | 5 => readUnion rep
  | 6 => readFunc rep
  | 7 => return .manifoldSpatial (← readManifoldSpatialRep)
  | 8 => return .gestaltSuperposition (← readGestaltSuperpositionRep)
  | 9 => return .conceptRelational (← readConceptRelationalRep)
  | 10 => readGeneric rep
  | 11 => readState
  | 12 => readRef
  | 13 => readDependentArray rep
  | other => throw (.invalidData s!"invalid RepD discriminant: {other}")

/-- `RepD::read_binary` with at most `fuel` representations inside one another. -/
def readRepDFuel : Nat → Read (RepD Finset)
  | 0 => throw .io
  | fuel + 1 => do
    let tag ← readU8
    readRepDTagged (readRepDFuel fuel) tag

/-- `RepD::read_binary`. A representation starts with its tag, so there are never more of them
inside one another than bytes. -/
def readRepD : Read (RepD Finset) := fun s => readRepDFuel (s.length + 1) s

def writeBD (bd : BD HashSet) : Bytes := writeRepD bd.repd ++ (writeCapD bd.capd ++ writeRelD bd.reld)

def readBD : Read (BD Finset) := do
  let repd ← readRepD
  let capd ← readCapD
  let reld ← readRelD
  return ⟨repd, capd, reld⟩

/-! ## Entry points -/

/-- `MAGIC`, the bytes of `VBD\0`. -/
def magic : Bytes := [86, 66, 68, 0]

def version : UInt32 := 1

def serializeBd (bd : BD HashSet) : Bytes := magic ++ writeU32 version ++ writeBD bd

def deserializeBd (data : Bytes) : Except BinaryError (BD Finset) := do
  let (got, data) ← (takeBytes .io 4).run data
  if got ≠ magic then
    throw (.invalidData s!"bad magic header: expected {magic}, got {got}")
  let (v, data) ← readU32.run data
  if v ≠ version then
    throw (.invalidData s!"unsupported BD binary version: got {v}, expected {version}")
  let (bd, _) ← readBD.run data
  return bd

end Vuma.Bd
