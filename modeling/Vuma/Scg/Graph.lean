import Vuma.Lib.HashMap
import Vuma.Scg.DiGraph
import Vuma.Scg.Node

/-!
# The semantic computation graph

`SCG` of `graph.rs` and the operations that change it. A graph keeps a `DiGraph` together with maps
between identifiers and slots, in both directions, and two counters for fresh identifiers.
-/

namespace Vuma.Scg

open Lib

/-- The errors of `SCGError` that the operations below return. -/
inductive SCGError where
  | nodeNotFound (id : NodeId)
  | edgeNotFound (id : EdgeId)
  | duplicateNode (id : NodeId)
  | duplicateEdge (id : EdgeId)
  | invalidEdgeEndpoints (source target : NodeId)
  deriving DecidableEq, Repr

/-- What a call ends with: a result, an error, or the panic of a failed `expect` or `unwrap`. -/
inductive Outcome (ε α : Type) where
  | ok (a : α)
  | err (e : ε)
  | panic
  deriving DecidableEq, Repr

namespace Outcome

variable {ε α β : Type}

def map (f : α → β) : Outcome ε α → Outcome ε β
  | ok a => ok (f a)
  | err e => err e
  | panic => panic

protected def bind (o : Outcome ε α) (f : α → Outcome ε β) : Outcome ε β :=
  match o with
  | ok a => f a
  | err e => err e
  | panic => panic

instance : Monad (Outcome ε) where
  pure := ok
  bind := Outcome.bind

instance : LawfulMonad (Outcome ε) :=
  LawfulMonad.mk' _ (fun o => by cases o <;> rfl) (fun _ _ => rfl) (fun o _ _ => by cases o <;> rfl)

@[simp] theorem pure_eq (a : α) : (pure a : Outcome ε α) = ok a := rfl

@[simp] theorem ok_bind (a : α) (f : α → Outcome ε β) : (ok a >>= f) = f a := rfl

@[simp] theorem err_bind (e : ε) (f : α → Outcome ε β) : (err e >>= f) = err e := rfl

def unwrap : Option α → Outcome ε α
  | some a => ok a
  | none => panic

end Outcome

structure SCG where
  graph : DiGraph NodeData EdgeData
  nodeIdToIndex : HashMap NodeId Nat
  nodeIndexToId : HashMap Nat NodeId
  edgeIdToIndex : HashMap EdgeId Nat
  edgeIndexToId : HashMap Nat EdgeId
  regions : HashMap RegionId SCGRegion
  nextNodeId : UInt64
  nextEdgeId : UInt64

/-- The maps between the identifiers and the slots of the elements in some slots: each element is
inserted into both. -/
def mapsOf (idAt : Nat → Option UInt64) (slots : List Nat) :
    HashMap UInt64 Nat × HashMap Nat UInt64 :=
  slots.foldl (fun m i =>
    match idAt i with
    | some id => (m.1.insert id i, m.2.insert i id)
    | none => m) (∅, ∅)

namespace SCG

def new : SCG := ⟨.new, ∅, ∅, ∅, ∅, ∅, 0, 0⟩

/-- The identifier of the node in a slot. -/
def nodeIdAt (g : SCG) (idx : Nat) : Option NodeId := (g.graph.nodeWeight idx).map NodeData.id

/-- The identifier of the edge in a slot. -/
def edgeIdAt (g : SCG) (eidx : Nat) : Option EdgeId := (g.graph.edgeWeight eidx).map EdgeData.id

def getNode (g : SCG) (id : NodeId) : Option NodeData :=
  (g.nodeIdToIndex.lookup id).bind g.graph.nodeWeight

def getEdge (g : SCG) (id : EdgeId) : Option EdgeData :=
  (g.edgeIdToIndex.lookup id).bind g.graph.edgeWeight

def getRegion (g : SCG) (id : RegionId) : Option SCGRegion := g.regions.lookup id

/-- `node_ids`, in the order of the map. -/
def nodeIds (g : SCG) : List NodeId := g.nodeIdToIndex.keys

/-- `nodes`, in the order of the slots. -/
def nodes (g : SCG) : List NodeData := g.graph.nodeIndices.filterMap g.graph.nodeWeight

/-- `edges`, in the order of the slots. -/
def edges (g : SCG) : List EdgeData := g.graph.edgeIndices.filterMap g.graph.edgeWeight

def rebuildEdgeMappings (g : SCG) : SCG :=
  let m := mapsOf g.edgeIdAt g.graph.edgeIndices
  { g with edgeIdToIndex := m.1, edgeIndexToId := m.2 }

def rebuildIndexMappings (g : SCG) : SCG :=
  let m := mapsOf g.nodeIdAt g.graph.nodeIndices
  { g with nodeIdToIndex := m.1, nodeIndexToId := m.2 }.rebuildEdgeMappings

/-- Put a node into a new slot and into the maps. -/
def pushNode (g : SCG) (data : NodeData) : SCG :=
  let (idx, graph) := g.graph.addNode data
  { g with
    graph
    nodeIdToIndex := g.nodeIdToIndex.insert data.id idx
    nodeIndexToId := g.nodeIndexToId.insert idx data.id }

/-- Put an edge between two slots into a new slot and into the maps. -/
def pushEdge (g : SCG) (sourceIdx targetIdx : Nat) (data : EdgeData) : SCG :=
  let (eidx, graph) := g.graph.addEdge sourceIdx targetIdx data
  { g with
    graph
    edgeIdToIndex := g.edgeIdToIndex.insert data.id eidx
    edgeIndexToId := g.edgeIndexToId.insert eidx data.id }

def addNode (g : SCG) (nodeType : NodeType) (payload : NodePayload) (programPoint : ProgramPoint) :
    NodeId × SCG :=
  let id := g.nextNodeId
  (id, { g with nextNodeId := g.nextNodeId + 1 }.pushNode ⟨id, nodeType, none, programPoint, payload⟩)

def addNodeWithId (g : SCG) (id : NodeId) (nodeType : NodeType) (payload : NodePayload)
    (programPoint : ProgramPoint) : Outcome SCGError NodeId × SCG :=
  if (g.nodeIdToIndex.lookup id).isSome then (.err (.duplicateNode id), g)
  else
    let g' := g.pushNode ⟨id, nodeType, none, programPoint, payload⟩
    (.ok id, if g'.nextNodeId ≤ id then { g' with nextNodeId := id + 1 } else g')

/-- The maps forget an edge, as `remove_node` does for the edges at the node. -/
def forgetEdge (g : SCG) (eidx : Nat) : SCG :=
  match g.edgeIndexToId.lookup eidx with
  | some eid =>
    { g with
      edgeIndexToId := g.edgeIndexToId.erase eidx
      edgeIdToIndex := g.edgeIdToIndex.erase eid }
  | none => { g with edgeIndexToId := g.edgeIndexToId.erase eidx }

def removeNode (g : SCG) (id : NodeId) : Outcome SCGError NodeData × SCG :=
  let g₁ := { g with nodeIdToIndex := g.nodeIdToIndex.erase id }
  match g.nodeIdToIndex.lookup id with
  | none => (.err (.nodeNotFound id), g₁)
  | some idx =>
    let edgesToRemove :=
      g₁.graph.edgesDirected idx .outgoing ++ g₁.graph.edgesDirected idx .incoming
    let g₂ := edgesToRemove.foldl forgetEdge g₁
    let g₃ := { g₂ with nodeIndexToId := g₂.nodeIndexToId.erase idx }
    match g₃.graph.removeNode idx with
    | (none, graph) => (.panic, { g₃ with graph })
    | (some data, graph) => (.ok data, { g₃ with graph }.rebuildIndexMappings)

/-- `get_node_mut`, for a change of the data. -/
def modifyNode (g : SCG) (id : NodeId) (f : NodeData → NodeData) : SCG :=
  match g.nodeIdToIndex.lookup id with
  | none => g
  | some idx => { g with graph := g.graph.modifyNodeWeight idx f }

/-- Set everything of a node but its identifier. -/
def updateNode (g : SCG) (id : NodeId) (nodeType : NodeType) (bd : Option BDReference)
    (programPoint : ProgramPoint) (payload : NodePayload) : SCG :=
  g.modifyNode id fun data => { data with nodeType, annotation := bd, programPoint, payload }

def addEdge (g : SCG) (source target : NodeId) (kind : EdgeKind) : Outcome SCGError EdgeId × SCG :=
  match g.nodeIdToIndex.lookup source, g.nodeIdToIndex.lookup target with
  | some sourceIdx, some targetIdx =>
    let id := g.nextEdgeId
    (.ok id, { g with nextEdgeId := g.nextEdgeId + 1 }.pushEdge sourceIdx targetIdx
      ⟨id, source, target, kind, none⟩)
  | _, _ => (.err (.invalidEdgeEndpoints source target), g)

def addEdgeWithId (g : SCG) (id : EdgeId) (source target : NodeId) (kind : EdgeKind) :
    Outcome SCGError EdgeId × SCG :=
  if (g.edgeIdToIndex.lookup id).isSome then (.err (.duplicateEdge id), g)
  else
    match g.nodeIdToIndex.lookup source, g.nodeIdToIndex.lookup target with
    | some sourceIdx, some targetIdx =>
      let g' := g.pushEdge sourceIdx targetIdx ⟨id, source, target, kind, none⟩
      (.ok id, if g'.nextEdgeId ≤ id then { g' with nextEdgeId := id + 1 } else g')
    | _, _ => (.err (.invalidEdgeEndpoints source target), g)

def removeEdge (g : SCG) (id : EdgeId) : Outcome SCGError EdgeData × SCG :=
  let g₁ := { g with edgeIdToIndex := g.edgeIdToIndex.erase id }
  match g.edgeIdToIndex.lookup id with
  | none => (.err (.edgeNotFound id), g₁)
  | some eidx =>
    let g₂ := { g₁ with edgeIndexToId := g₁.edgeIndexToId.erase eidx }
    match g₂.graph.removeEdge eidx with
    | (none, graph) => (.panic, { g₂ with graph })
    | (some data, graph) => (.ok data, { g₂ with graph }.rebuildEdgeMappings)

/-- `get_edge_mut`, for a change of the data. -/
def modifyEdge (g : SCG) (id : EdgeId) (f : EdgeData → EdgeData) : SCG :=
  match g.edgeIdToIndex.lookup id with
  | none => g
  | some eidx => { g with graph := g.graph.modifyEdgeWeight eidx f }

/-- Set the kind and the label of an edge. -/
def updateEdge (g : SCG) (id : EdgeId) (kind : EdgeKind) (label : Option String) : SCG :=
  g.modifyEdge id fun data => { data with kind, label }

def addRegion (g : SCG) (region : SCGRegion) : SCG :=
  { g with regions := g.regions.insert region.id region }

def removeRegion (g : SCG) (id : RegionId) : SCG := { g with regions := g.regions.erase id }

/-- `get_region_mut`, to set everything of a region but its identifier. -/
def updateRegion (g : SCG) (id : RegionId) (region : SCGRegion) : SCG :=
  match g.regions.lookup id with
  | none => g
  | some old => { g with regions := g.regions.insert id { region with id := old.id } }

end SCG

/-! ## Runs -/

/-- The public operations on a graph, and the rebuilding of its maps. -/
inductive Op where
  | addNode (nodeType : NodeType) (payload : NodePayload) (programPoint : ProgramPoint)
  | addNodeWithId (id : NodeId) (nodeType : NodeType) (payload : NodePayload)
      (programPoint : ProgramPoint)
  | removeNode (id : NodeId)
  | updateNode (id : NodeId) (nodeType : NodeType) (bd : Option BDReference)
      (programPoint : ProgramPoint) (payload : NodePayload)
  | addEdge (source target : NodeId) (kind : EdgeKind)
  | addEdgeWithId (id : EdgeId) (source target : NodeId) (kind : EdgeKind)
  | removeEdge (id : EdgeId)
  | updateEdge (id : EdgeId) (kind : EdgeKind) (label : Option String)
  | addRegion (region : SCGRegion)
  | removeRegion (id : RegionId)
  | updateRegion (id : RegionId) (region : SCGRegion)
  | rebuild

/-- The results of the operations. -/
inductive Answer where
  | nodeId (id : NodeId)
  | edgeId (id : EdgeId)
  | node (data : NodeData)
  | edge (data : EdgeData)
  | unit
  deriving DecidableEq, Repr

/-- Run an operation. -/
def Op.exec (g : SCG) : Op → Outcome SCGError Answer × SCG
  | addNode t p pp => let (id, g') := g.addNode t p pp; (.ok (.nodeId id), g')
  | addNodeWithId id t p pp => (g.addNodeWithId id t p pp).map (.map .nodeId) fun g => g
  | removeNode id => (g.removeNode id).map (.map .node) fun g => g
  | updateNode id t a pp p => (.ok .unit, g.updateNode id t a pp p)
  | addEdge s t k => (g.addEdge s t k).map (.map .edgeId) fun g => g
  | addEdgeWithId id s t k => (g.addEdgeWithId id s t k).map (.map .edgeId) fun g => g
  | removeEdge id => (g.removeEdge id).map (.map .edge) fun g => g
  | updateEdge id k l => (.ok .unit, g.updateEdge id k l)
  | addRegion r => (.ok .unit, g.addRegion r)
  | removeRegion id => (.ok .unit, g.removeRegion id)
  | updateRegion id r => (.ok .unit, g.updateRegion id r)
  | rebuild => (.ok .unit, g.rebuildIndexMappings)

/-- The graph after some operations. -/
def SCG.run (g : SCG) (ops : List Op) : SCG := ops.foldl (fun g op => (op.exec g).2) g

/-- The identifiers that the operations give to new elements are below `2 ^ 64 - 1`. -/
def SCG.Fits : SCG → List Op → Prop
  | _, [] => True
  | g, op :: ops =>
    (∀ id, (op.exec g).1 = .ok (.nodeId id) ∨ (op.exec g).1 = .ok (.edgeId id) →
      id.toNat < 2 ^ 64 - 1) ∧ Fits (op.exec g).2 ops

end Vuma.Scg
