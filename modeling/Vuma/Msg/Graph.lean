import Vuma.Lib.Table

/-!
# The memory state graph

The entities of the graph and the queries that follow a chain of derivations back to its region. A
chain may run in a circle: the queries then do not come back, which is the value `none` here, as is
the panic of an address sum that leaves the machine word.
-/

namespace Vuma.Msg

open Lib

abbrev RegionId := Nat
abbrev DerivationId := Nat
abbrev AccessId := Nat
abbrev SyncEdgeId := Nat
abbrev Address := Nat

structure ProgramPoint where
  file : String
  line : Nat
  col : Nat
  nodeId : Option Nat
  deriving DecidableEq, Repr

inductive RegionStatus where
  | allocated
  | freed
  | stack
  | mapped
  | device
  | leaked
  deriving DecidableEq, Repr

structure Region where
  id : RegionId
  base : Address
  size : Nat
  status : RegionStatus
  allocPoint : ProgramPoint
  freePoint : Option ProgramPoint
  ownerContext : Option String
  deriving DecidableEq, Repr

inductive DerivationSource where
  | region (id : RegionId)
  | anotherDerivation (id : DerivationId)
  deriving DecidableEq, Repr

structure RepD where
  name : String
  size : Nat
  deriving DecidableEq, Repr

inductive DerivationExpr where
  | constant (offset : Int)
  | scaled (factor : Int) (stride : Nat)
  | add (a b : DerivationExpr)
  | sub (a b : DerivationExpr)
  deriving DecidableEq, Repr

inductive DerivationKind where
  | direct
  | offset (amount : Int)
  | cast (source target : RepD)
  | arithmetic (expr : DerivationExpr)
  deriving DecidableEq, Repr

structure Derivation where
  id : DerivationId
  source : DerivationSource
  kind : DerivationKind
  provenRange : Address × Address
  deriving DecidableEq, Repr

inductive AccessKind where
  | read
  | write
  deriving DecidableEq, Repr

structure Access where
  id : AccessId
  target : DerivationId
  kind : AccessKind
  size : Nat
  programPoint : ProgramPoint
  deriving DecidableEq, Repr

/-- `sync::Ordering`. -/
inductive SyncOrdering where
  | happensBefore
  | atomicAcquireRelease
  | mutexLocked (lock : Nat)
  deriving DecidableEq, Repr

structure SyncEdge where
  id : SyncEdgeId
  access1 : AccessId
  access2 : AccessId
  ordering : SyncOrdering
  deriving DecidableEq, Repr

instance : Entity Region := ⟨Region.id⟩
instance : Entity Derivation := ⟨Derivation.id⟩
instance : Entity Access := ⟨Access.id⟩
instance : Entity SyncEdge := ⟨SyncEdge.id⟩

/-- `MSG`, without the counters of free identifiers, which nothing reads. -/
structure MSG where
  regions : Table Region
  derivations : Table Derivation
  accesses : Table Access
  syncEdges : Table SyncEdge

/-- The two graphs have the same entities. -/
structure MSG.SameGraph (m m' : MSG) : Prop where
  regions : m.regions.get = m'.regions.get
  derivations : m.derivations.get = m'.derivations.get
  accesses : m.accesses.get = m'.accesses.get
  syncEdges : m.syncEdges.get = m'.syncEdges.get

theorem MSG.SameGraph.symm {m m' : MSG} (h : m.SameGraph m') : m'.SameGraph m :=
  ⟨h.1.symm, h.2.symm, h.3.symm, h.4.symm⟩

def Region.isLive (r : Region) : Bool :=
  match r.status with
  | .allocated | .stack | .mapped | .device => true
  | .freed | .leaked => false

/-- `Region::end`. -/
def Region.end? (r : Region) : Option Address :=
  if r.base + r.size < 2 ^ 64 then some (r.base + r.size) else none

/-- `Derivation::base_region`, with the derivations of a graph. -/
def MSG.baseRegion (msg : MSG) (source : DerivationSource) : Option (Option RegionId) :=
  match source with
  | .region rid => some (some rid)
  | .anotherDerivation parent =>
    match msg.derivations.get parent with
    | some d => msg |>.baseRegion d.source
    | none => some none
partial_fixpoint

export MSG (baseRegion)

inductive VerificationStatus where
  | safe
  | provenUnsafe
  | unverified
  deriving DecidableEq, Repr

def verifyAccess (msg : MSG) (aid : AccessId) : Option VerificationStatus :=
  match msg.accesses.get aid with
  | none => some .unverified
  | some access =>
    match msg.derivations.get access.target with
    | none => some .provenUnsafe
    | some deriv => do
      match ← baseRegion msg deriv.source with
      | none => return .provenUnsafe
      | some rid =>
        match msg.regions.get rid with
        | none => return .provenUnsafe
        | some region =>
          if !region.isLive then return .provenUnsafe
          if deriv.provenRange.1 < region.base then return .provenUnsafe
          -- the end is computed only when the first comparison has failed
          if deriv.provenRange.2 > (← region.end?) then return .provenUnsafe
          return .safe

def MSG.derivationResolvesToRegion (msg : MSG) (deriv : Derivation) (target : RegionId) :
    Option Bool :=
  match deriv.source with
  | .region rid => some (rid = target)
  | .anotherDerivation parent =>
    match msg.derivations.get parent with
    | some d => msg |>.derivationResolvesToRegion d target
    | none => some false
partial_fixpoint

def MSG.isDerivedFromAny (msg : MSG) (sources : List DerivationId) (deriv : Derivation)
    (visited : List DerivationId) : Option (Bool × List DerivationId) :=
  if deriv.id ∈ visited then some (false, visited)
  else
    match deriv.source with
    | .anotherDerivation parent =>
      if parent ∈ sources then some (true, deriv.id :: visited)
      else
        match msg.derivations.get parent with
        | some d => msg |>.isDerivedFromAny sources d (deriv.id :: visited)
        | none => some (false, deriv.id :: visited)
    | .region _ => some (false, deriv.id :: visited)
partial_fixpoint

export MSG (derivationResolvesToRegion isDerivedFromAny)

end Vuma.Msg
