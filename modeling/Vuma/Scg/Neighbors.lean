import Vuma.Scg.Invariant

/-!
# Going through a graph

The nodes and the edges of a graph in the order of the slots, and the neighbours of a node in the
order of the edges at it. In a graph that keeps the invariant the neighbours are the other ends of
the edges at the node.
-/

namespace Vuma.Scg

open Lib

/-- The endpoint that an edge in the direction leads to. -/
def EdgeEntry.far {E : Type} (d : Direction) (entry : EdgeEntry E) : Nat :=
  match d with
  | .outgoing => entry.target
  | .incoming => entry.source

def DiGraph.neighborsDirected {N E : Type} (g : DiGraph N E) (n : Nat) (d : Direction) : List Nat :=
  match g.node? n with
  | none => []
  | some entry => (entry.adj d).filterMap fun e => (g.edge? e).map (EdgeEntry.far d)

namespace EdgeData

/-- The node whose edges in the direction have the edge. -/
def near (d : Direction) (e : EdgeData) : NodeId :=
  match d with
  | .outgoing => e.source
  | .incoming => e.target

/-- The node that the edge leads to in the direction. -/
def far (d : Direction) (e : EdgeData) : NodeId :=
  match d with
  | .outgoing => e.target
  | .incoming => e.source

end EdgeData

namespace SCG

/-- The nodes at the other ends of the edges at a node. -/
def neighbors (g : SCG) (d : Direction) (id : NodeId) : Option (List NodeId) :=
  (g.nodeIdToIndex.lookup id).map fun idx =>
    (g.graph.neighborsDirected idx d).filterMap g.nodeIndexToId.lookup

def successors (g : SCG) (id : NodeId) : Option (List NodeId) := g.neighbors .outgoing id

/-- An edge leads from one node to the other. -/
def HasEdge (g : SCG) (a b : NodeId) : Prop := ∃ e ∈ g.edges, e.source = a ∧ e.target = b

variable {g : SCG} {a b : NodeId}

theorem mem_nodes (hg : g.Valid) {id : NodeId} {d : NodeData} :
    g.getNode id = some d ↔ d ∈ g.nodes ∧ d.id = id := by
  rw [hg.getNode_eq_some, nodes]
  simp only [List.mem_filterMap]
  constructor
  · rintro ⟨idx, hidx, hid⟩
    refine ⟨⟨idx, DiGraph.mem_nodeIndices.2 ?_, hidx⟩, hid⟩
    obtain ⟨entry, hentry, -⟩ := Option.map_eq_some_iff.1 hidx
    rw [hentry]
    rfl
  · rintro ⟨⟨idx, -, hidx⟩, hid⟩
    exact ⟨idx, hidx, hid⟩

theorem mem_edges_iff {d : EdgeData} :
    d ∈ g.edges ↔ ∃ e en, g.graph.edge? e = some en ∧ en.weight = d := by
  rw [edges, List.mem_filterMap]
  constructor
  · intro ⟨e, _, he⟩
    exact ⟨e, Option.map_eq_some_iff.1 he⟩
  · intro ⟨e, en, hen, hd⟩
    refine ⟨e, DiGraph.mem_edgeIndices.2 (Option.isSome_of_eq_some hen), ?_⟩
    rw [DiGraph.edgeWeight, hen, ← hd]
    rfl

theorem mem_edges (hg : g.Valid) {id : EdgeId} {d : EdgeData} :
    g.getEdge id = some d ↔ d ∈ g.edges ∧ d.id = id := by
  rw [hg.getEdge_eq_some, mem_edges_iff]
  simp only [DiGraph.edgeWeight, Option.map_eq_some_iff]
  constructor
  · rintro ⟨e, ⟨en, hen, hd⟩, hid⟩
    exact ⟨⟨e, en, hen, hd⟩, hid⟩
  · rintro ⟨⟨e, en, hen, hd⟩, hid⟩
    exact ⟨e, ⟨en, hen, hd⟩, hid⟩

theorem mem_nodeIds (hg : g.Valid) {id : NodeId} : id ∈ g.nodeIds ↔ (g.getNode id).isSome := by
  rw [nodeIds, HashMap.mem_keys_iff, hg.isSome_getNode]

/-- The slots of the ends of an edge hold the nodes that the edge names. -/
theorem Valid.nodeIdAt_near (hg : g.Valid) (d : Direction) {e : Nat} {en : EdgeEntry EdgeData}
    (h : g.graph.edge? e = some en) : g.nodeIdAt (en.near d) = some (en.weight.near d) := by
  cases d with
  | outgoing => exact hg.source e en h
  | incoming => exact hg.target e en h

theorem Valid.nodeIdAt_far (hg : g.Valid) (d : Direction) {e : Nat} {en : EdgeEntry EdgeData}
    (h : g.graph.edge? e = some en) : g.nodeIdAt (en.far d) = some (en.weight.far d) := by
  cases d with
  | outgoing => exact hg.target e en h
  | incoming => exact hg.source e en h

theorem Valid.isSome_getNode_near (hg : g.Valid) (d : Direction) {e : EdgeData} (h : e ∈ g.edges) :
    (g.getNode (e.near d)).isSome := by
  obtain ⟨i, en, hen, rfl⟩ := mem_edges_iff.1 h
  rw [hg.isSome_getNode, (hg.nodes.toIndex_iff _ _).2 (hg.nodeIdAt_near d hen)]
  rfl

theorem Valid.neighbors_eq (hg : g.Valid) (d : Direction) {idx : Nat} {entry : NodeEntry NodeData}
    (hidx : g.nodeIdToIndex.lookup a = some idx) (hentry : g.graph.node? idx = some entry) :
    g.neighbors d a =
      some ((entry.adj d).filterMap fun e => (g.graph.edgeWeight e).map (EdgeData.far d)) := by
  rw [neighbors, hidx, Option.map_some, DiGraph.neighborsDirected, hentry, Option.some_inj]
  show ((entry.adj d).filterMap _).filterMap _ = _
  rw [List.filterMap_filterMap]
  apply List.filterMap_congr
  intro e _
  cases hen : g.graph.edge? e with
  | none => simp [DiGraph.edgeWeight, hen]
  | some en =>
    have hid := (hg.nodes.toId_iff _ _).2 (hg.nodeIdAt_far d hen)
    simp [DiGraph.edgeWeight, hen, hid]

theorem Valid.mem_neighbors (hg : g.Valid) (d : Direction) :
    b ∈ (g.neighbors d a).getD [] ↔ ∃ e ∈ g.edges, e.near d = a ∧ e.far d = b := by
  cases hidx : g.nodeIdToIndex.lookup a with
  | none =>
    rw [neighbors, hidx]
    refine iff_of_false List.not_mem_nil ?_
    intro ⟨e, he, hnear, _⟩
    have hnode := hg.isSome_getNode_near d he
    rw [hnear, hg.isSome_getNode, hidx] at hnode
    cases hnode
  | some idx =>
    have hat : g.nodeIdAt idx = some a := (hg.nodes.toIndex_iff a idx).1 hidx
    obtain ⟨entry, hentry⟩ : ∃ entry, g.graph.node? idx = some entry := by
      rw [← Option.isSome_iff_exists, ← isSome_nodeIdAt, hat]
      rfl
    rw [hg.neighbors_eq d hidx hentry, Option.getD_some, List.mem_filterMap]
    constructor
    · intro ⟨e, he, hfar⟩
      obtain ⟨en, hen, hnear⟩ := (hg.graph.mem_iff d idx entry hentry e).1 he
      refine ⟨en.weight, mem_edges_iff.2 ⟨e, en, hen, rfl⟩, ?_, ?_⟩
      · have hid := hg.nodeIdAt_near d hen
        rw [hnear, hat] at hid
        exact (Option.some.inj hid).symm
      · rw [DiGraph.edgeWeight, hen] at hfar
        exact Option.some.inj hfar
    · intro ⟨w, hw, hnear, hfar⟩
      obtain ⟨e, en, hen, rfl⟩ := mem_edges_iff.1 hw
      refine ⟨e, (hg.graph.mem_iff d idx entry hentry e).2 ⟨en, hen, ?_⟩, ?_⟩
      · apply hg.nodes.slot_unique (hg.nodeIdAt_near d hen)
        rw [hat, hnear]
      · rw [DiGraph.edgeWeight, hen, ← hfar]
        rfl

theorem Valid.mem_successors (hg : g.Valid) : b ∈ (g.successors a).getD [] ↔ g.HasEdge a b :=
  hg.mem_neighbors .outgoing

end SCG

end Vuma.Scg
