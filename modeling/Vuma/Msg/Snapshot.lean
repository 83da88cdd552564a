import Vuma.Msg.Delta

/-!
# Snapshots of the semantic computation graph

`compute_scg_delta`: two snapshots of the nodes of a program are compared node by node, and the
difference is put down as a delta of the memory state graph. A node that has changed is taken out
and put in again.
-/

namespace Vuma.Msg

open Lib Entity

inductive SCGNode where
  | alloc (nodeId : Nat) (regionId : RegionId) (base : Address) (size : Nat)
      (allocPoint : ProgramPoint)
  | dealloc (nodeId : Nat) (regionId : RegionId) (freePoint : ProgramPoint)
  | access (nodeId : Nat) (accessId : AccessId) (targetDerivation : DerivationId)
      (regionId : RegionId) (isWrite : Bool) (size : Nat) (programPoint : ProgramPoint)
  | arithmetic (nodeId : Nat) (derivationId sourceDerivation : DerivationId) (offset : Int)
      (provenRange : Address × Address)
  | cast (nodeId : Nat) (derivationId sourceDerivation : DerivationId)
      (provenRange : Address × Address)
  | sync (nodeId : Nat) (edgeId : SyncEdgeId) (access1 access2 : AccessId)
      (ordering : SyncOrdering)
  deriving DecidableEq, Repr

def SCGNode.nodeId : SCGNode → Nat
  | .alloc nodeId .. | .dealloc nodeId .. | .access nodeId .. | .arithmetic nodeId ..
  | .cast nodeId .. | .sync nodeId .. => nodeId

structure SCGSnapshot where
  nodes : HashMap Nat SCGNode
  keyed : ∀ k n, nodes.lookup k = some n → n.nodeId = k

/-- `SCGSnapshot::new`. -/
def SCGSnapshot.empty : SCGSnapshot := ⟨∅, fun _ _ h => by simp at h⟩

def SCGSnapshot.addNode (s : SCGSnapshot) (n : SCGNode) : SCGSnapshot where
  nodes := s.nodes.insert n.nodeId n
  keyed k m h := by
    rw [HashMap.lookup_insert_ite] at h
    split_ifs at h with hk
    · cases h
      exact hk.symm
    · exact s.keyed k m h

def SCGSnapshot.getNode (s : SCGSnapshot) (k : Nat) : Option SCGNode := s.nodes.lookup k

/-- The region that an allocation node describes. -/
def SCGNode.region? : SCGNode → Option Region
  | .alloc _ regionId base size allocPoint =>
    some ⟨regionId, base, size, .allocated, allocPoint, none, none⟩
  | _ => none

/-- The derivation that an arithmetic or cast node describes. -/
def SCGNode.derivation? : SCGNode → Option Derivation
  | .arithmetic _ derivationId sourceDerivation offset provenRange =>
    some ⟨derivationId, .anotherDerivation sourceDerivation, .offset offset, provenRange⟩
  | .cast _ derivationId sourceDerivation provenRange =>
    some ⟨derivationId, .anotherDerivation sourceDerivation, .cast ⟨"source", 0⟩ ⟨"target", 0⟩,
      provenRange⟩
  | _ => none

/-- The access that an access node describes. -/
def SCGNode.access? : SCGNode → Option Access
  | .access _ accessId targetDerivation _ isWrite size programPoint =>
    some ⟨accessId, targetDerivation, if isWrite then .write else .read, size, programPoint⟩
  | _ => none

/-- The edge that a synchronisation node describes. -/
def SCGNode.syncEdge? : SCGNode → Option SyncEdge
  | .sync _ edgeId access1 access2 ordering => some ⟨edgeId, access1, access2, ordering⟩
  | _ => none

section Delta

variable {V : Type}

def EntityDelta.add (δ : EntityDelta V) (v : V) : EntityDelta V :=
  { δ with added := δ.added ++ [v] }

def EntityDelta.remove (δ : EntityDelta V) (k : Nat) : EntityDelta V :=
  { δ with removed := δ.removed ++ [k] }

def EntityDelta.modify (δ : EntityDelta V) (v : V) : EntityDelta V :=
  { δ with modified := δ.modified ++ [v] }

instance : EmptyCollection (EntityDelta V) := ⟨⟨[], [], []⟩⟩

instance : EmptyCollection MSGDelta := ⟨⟨∅, ∅, ∅, ∅⟩⟩

end Delta

def addNodeToDelta (msg : MSG) (delta : MSGDelta) (node : SCGNode) :
    Except DeltaError MSGDelta :=
  match node with
  | .alloc _ regionId base size allocPoint =>
    .ok { delta with
      regions := delta.regions.add
        { id := regionId, base, size, status := .allocated, allocPoint, freePoint := none
          ownerContext := none } }
  | .dealloc _ regionId freePoint =>
    match msg.regions.get regionId with
    | none => .error (.allocationNotFound regionId)
    | some existing =>
      .ok { delta with
        regions := delta.regions.modify
          { existing with id := regionId, status := .freed, freePoint := some freePoint } }
  | .access _ accessId targetDerivation _ isWrite size programPoint =>
    .ok { delta with
      accesses := delta.accesses.add
        { id := accessId, target := targetDerivation, kind := if isWrite then .write else .read
          size, programPoint } }
  | .arithmetic _ derivationId sourceDerivation offset provenRange =>
    .ok { delta with
      derivations := delta.derivations.add
        { id := derivationId, source := .anotherDerivation sourceDerivation
          kind := .offset offset, provenRange } }
  | .cast _ derivationId sourceDerivation provenRange =>
    .ok { delta with
      derivations := delta.derivations.add
        { id := derivationId, source := .anotherDerivation sourceDerivation
          kind := .cast ⟨"source", 0⟩ ⟨"target", 0⟩, provenRange } }
  | .sync _ edgeId access1 access2 ordering =>
    .ok { delta with
      syncEdges := delta.syncEdges.add { id := edgeId, access1, access2, ordering } }

def removeNodeFromDelta (msg : MSG) (delta : MSGDelta) (node : SCGNode) :
    Except DeltaError MSGDelta :=
  match node with
  | .alloc _ regionId _ _ _ => .ok { delta with regions := delta.regions.remove regionId }
  | .dealloc _ regionId _ =>
    match msg.regions.get regionId with
    | none => .error (.allocationNotFound regionId)
    | some existing =>
      .ok { delta with
        regions := delta.regions.modify
          { existing with id := regionId, status := .allocated, freePoint := none } }
  | .access _ accessId .. => .ok { delta with accesses := delta.accesses.remove accessId }
  | .arithmetic _ derivationId .. | .cast _ derivationId .. =>
    .ok { delta with derivations := delta.derivations.remove derivationId }
  | .sync _ edgeId .. => .ok { delta with syncEdges := delta.syncEdges.remove edgeId }

def nodesDiffer (a b : SCGNode) : Bool :=
  match a, b with
  | .alloc _ r₁ b₁ s₁ _, .alloc _ r₂ b₂ s₂ _ => r₁ ≠ r₂ || b₁ ≠ b₂ || s₁ ≠ s₂
  | .dealloc _ r₁ fp₁, .dealloc _ r₂ fp₂ => r₁ ≠ r₂ || fp₁ ≠ fp₂
  | .access _ a₁ td₁ _ w₁ s₁ _, .access _ a₂ td₂ _ w₂ s₂ _ =>
    a₁ ≠ a₂ || td₁ ≠ td₂ || w₁ ≠ w₂ || s₁ ≠ s₂
  | .arithmetic _ d₁ sd₁ o₁ _, .arithmetic _ d₂ sd₂ o₂ _ => d₁ ≠ d₂ || sd₁ ≠ sd₂ || o₁ ≠ o₂
  | .cast _ d₁ sd₁ _, .cast _ d₂ sd₂ _ => d₁ ≠ d₂ || sd₁ ≠ sd₂
  | .sync _ e₁ a₁ a₂ _, .sync _ e₂ b₁ b₂ _ => e₁ ≠ e₂ || a₁ ≠ b₁ || a₂ ≠ b₂
  | _, _ => true

/-- The node identifiers of the second snapshot that the first does not have. -/
def newNodeIds (order : EntityOrder) (old new : SCGSnapshot) : List Nat :=
  order.added.order (new.nodes.keys.filter (· ∉ old.nodes.keys))

/-- The node identifiers of the first snapshot that the second does not have. -/
def goneNodeIds (order : EntityOrder) (old new : SCGSnapshot) : List Nat :=
  order.removed.order (old.nodes.keys.filter (· ∉ new.nodes.keys))

/-- The node identifiers of both snapshots. -/
def commonNodeIds (order : EntityOrder) (old new : SCGSnapshot) : List Nat :=
  order.common.order (old.nodes.keys.filter (· ∈ new.nodes.keys))

/-- The loop over the added nodes, at one of them. -/
def addNodeAt (msg : MSG) (new : SCGSnapshot) (delta : MSGDelta) (k : Nat) :
    Except DeltaError MSGDelta :=
  match new.getNode k with
  | some node => addNodeToDelta msg delta node
  | none => .ok delta

/-- The loop over the removed nodes, at one of them. -/
def removeNodeAt (msg : MSG) (old : SCGSnapshot) (delta : MSGDelta) (k : Nat) :
    Except DeltaError MSGDelta :=
  match old.getNode k with
  | some node => removeNodeFromDelta msg delta node
  | none => .ok delta

/-- The loop over the common nodes, at one of them. -/
def replaceNodeAt (msg : MSG) (old new : SCGSnapshot) (delta : MSGDelta) (k : Nat) :
    Except DeltaError MSGDelta :=
  match old.getNode k, new.getNode k with
  | some oldNode, some newNode =>
    if nodesDiffer oldNode newNode then do
      let delta ← removeNodeFromDelta msg delta oldNode
      addNodeToDelta msg delta newNode
    else .ok delta
  | _, _ => .ok delta

def computeScgDelta (order : EntityOrder) (old new : SCGSnapshot) (msg : MSG) :
    Except DeltaError MSGDelta := do
  let delta ← (newNodeIds order old new).foldlM (addNodeAt msg new) ∅
  let delta ← (goneNodeIds order old new).foldlM (removeNodeAt msg old) delta
  (commonNodeIds order old new).foldlM (replaceNodeAt msg old new) delta

end Vuma.Msg
