import Mathlib

/-!
# Behavioural descriptors

The data of `capd.rs`, `reld.rs`, `repd.rs` and `descriptor.rs`. A descriptor holds sets of
capabilities, conditions and relations; the types are parametrised by what a set is. With `Finset`
two descriptors are equal when `==` says so; with `HashSet` a set has the order in which it is
iterated over.
-/

namespace Vuma.Bd

/-- A `HashSet` together with its iteration order. -/
structure HashSet (α : Type) where
  iter : List α
  nodup : iter.Nodup

/-- The elements, without the order. -/
def HashSet.elems {α : Type} (s : HashSet α) : Finset α := ⟨s.iter, s.nodup⟩

inductive Capability where
  | read | write | execute | iterate | send | persist | serialize | deserialize | hash | compare
  | derivePtr | cast | fork | drop | share | move | pin | stateRead | stateWrite | stateTransform
  | stateConsume
  deriving DecidableEq, Repr

inductive Condition where
  | inPhase (id : UInt64)
  | afterOp (id : UInt64)
  | beforeOp (id : UInt64)
  | notConcurrentWith (id : UInt64)
  | requiresLock (id : UInt64)
  | securityLevel (lvl : UInt8)
  | validDuring (id : UInt64)
  deriving DecidableEq, Repr

inductive TemporalKind where
  | outlives | coincides | precedes | succeeds | epochBefore | epochAfter
  deriving DecidableEq, Repr

inductive DepKind where
  | dataDep | controlDep | aliasDep
  deriving DecidableEq, Repr

inductive FlowPolicy where
  | noDowngrade | noCrossBoundary | sanitized
  deriving DecidableEq, Repr

inductive Relation where
  | temporal (k : TemporalKind)
  | containment
  | dependency (k : DepKind)
  | equivalence
  | security (p : FlowPolicy)
  | liveness
  deriving DecidableEq, Repr

inductive SpaceFillingCurve where
  | zOrder | hilbert | rowMajor
  deriving DecidableEq, Repr

structure ByteRep where
  size : UInt64
  align : UInt64
  deriving DecidableEq, Repr

structure ManifoldSpatialRep where
  dimensions : UInt32
  dimSizes : List UInt64
  elementSize : UInt64
  curve : SpaceFillingCurve
  order : UInt32
  totalBytes : UInt64
  deriving DecidableEq, Repr

structure GestaltSuperpositionRep where
  variants : List String
  maxSize : UInt64
  maxAlign : UInt64
  degraded : Bool
  tagOffset : Option UInt64
  deriving DecidableEq, Repr

structure ConceptRelationalRep where
  fieldNames : List String
  fieldOffsets : List (String × UInt64)
  totalSize : UInt64
  align : UInt64
  useSoa : Bool
  deriving DecidableEq, Repr

structure CapD (S : Type → Type) where
  caps : S Capability
  conditions : S Condition

structure RelD (S : Type → Type) where
  relations : S Relation

mutual

/-- `RepD`; the structs of its constructors are unfolded where they hold further representations. -/
inductive RepD (S : Type → Type) where
  | byte (b : ByteRep)
  | struct (fields : List (UInt64 × RepD S)) (totalSize align : UInt64)
  | array (element : RepD S) (count : UInt64)
  | enum (variants : List (UInt64 × RepD S))
  | ptr (pointee : RepD S)
  | union (alternatives : List (RepD S)) (maxSize maxAlign : UInt64)
  | func (params : List (RepD S)) (result : RepD S)
  | manifoldSpatial (m : ManifoldSpatialRep)
  | gestaltSuperposition (g : GestaltSuperpositionRep)
  | conceptRelational (c : ConceptRelationalRep)
  | generic (name : String) (constraints : List (BDConstraint S))
  | state (layout : UInt32)
  | ref (layout field : UInt32)
  | dependentArray (elem : RepD S) (countVar : String)

/-- `BDConstraint` of `repd.rs`: a constraint on a generic parameter. -/
inductive BDConstraint (S : Type → Type) where
  | capDAtLeast (capd : CapD S)
  | repDCompatibleWith (repd : RepD S)
  | relDContains (reld : RelD S)

end

structure BD (S : Type → Type) where
  repd : RepD S
  capd : CapD S
  reld : RelD S

/-! ## Forgetting the iteration order -/

def CapD.elems (c : CapD HashSet) : CapD Finset := ⟨c.caps.elems, c.conditions.elems⟩

def RelD.elems (r : RelD HashSet) : RelD Finset := ⟨r.relations.elems⟩

mutual

def RepD.elems : RepD HashSet → RepD Finset
  | .byte b => .byte b
  | .struct fields totalSize align => .struct (fieldElems fields) totalSize align
  | .array element count => .array element.elems count
  | .enum variants => .enum (fieldElems variants)
  | .ptr pointee => .ptr pointee.elems
  | .union alternatives maxSize maxAlign => .union (repElems alternatives) maxSize maxAlign
  | .func params result => .func (repElems params) result.elems
  | .manifoldSpatial m => .manifoldSpatial m
  | .gestaltSuperposition g => .gestaltSuperposition g
  | .conceptRelational c => .conceptRelational c
  | .generic name constraints => .generic name (constraintElems constraints)
  | .state layout => .state layout
  | .ref layout field => .ref layout field
  | .dependentArray elem countVar => .dependentArray elem.elems countVar

def BDConstraint.elems : BDConstraint HashSet → BDConstraint Finset
  | .capDAtLeast capd => .capDAtLeast capd.elems
  | .repDCompatibleWith repd => .repDCompatibleWith repd.elems
  | .relDContains reld => .relDContains reld.elems

def fieldElems : List (UInt64 × RepD HashSet) → List (UInt64 × RepD Finset)
  | [] => []
  | (off, rep) :: fields => (off, rep.elems) :: fieldElems fields

def repElems : List (RepD HashSet) → List (RepD Finset)
  | [] => []
  | rep :: reps => rep.elems :: repElems reps

def constraintElems : List (BDConstraint HashSet) → List (BDConstraint Finset)
  | [] => []
  | c :: cs => c.elems :: constraintElems cs

end

def BD.elems (bd : BD HashSet) : BD Finset := ⟨bd.repd.elems, bd.capd.elems, bd.reld.elems⟩

end Vuma.Bd
