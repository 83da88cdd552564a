import Vuma.Scg.Graph

/-!
# The representation invariant of the graph

`SCG.Valid` says that the maps of a graph are bijections between the identifiers of its live nodes
and edges and their slots, and that an edge names the nodes in the slots of its ends. Every
operation keeps it, as long as the counters do not overflow; an operation that fails changes
nothing.
-/

namespace Vuma.Scg

open Lib

/-! ## Maps between identifiers and slots -/

/-- The maps are inverse bijections between the identifiers in use and the live slots: an
identifier is mapped to a slot exactly if the slot holds the element with the identifier. -/
structure MapsAgree (idAt : Nat → Option UInt64) (toIndex : HashMap UInt64 Nat)
    (toId : HashMap Nat UInt64) : Prop where
  toIndex_iff : ∀ id i, toIndex.lookup id = some i ↔ idAt i = some id
  toId_iff : ∀ id i, toId.lookup i = some id ↔ idAt i = some id

namespace MapsAgree

variable {idAt : Nat → Option UInt64} {toIndex : HashMap UInt64 Nat} {toId : HashMap Nat UInt64}

theorem congr (h : MapsAgree idAt toIndex toId) {idAt' : Nat → Option UInt64}
    (heq : ∀ i, idAt' i = idAt i) : MapsAgree idAt' toIndex toId := by
  rwa [funext heq]

/-- No two slots hold the same identifier. -/
theorem slot_unique (h : MapsAgree idAt toIndex toId) {id : UInt64} {i j : Nat}
    (hi : idAt i = some id) (hj : idAt j = some id) : i = j := by
  have := (h.toIndex_iff id i).2 hi
  rw [(h.toIndex_iff id j).2 hj] at this
  exact (Option.some.inj this).symm

theorem lookup_eq_none (h : MapsAgree idAt toIndex toId) {id : UInt64} :
    toIndex.lookup id = none ↔ ∀ i, idAt i ≠ some id := by
  rw [Option.eq_none_iff_forall_ne_some]
  exact forall_congr' fun i => not_congr (h.toIndex_iff id i)

theorem insert (h : MapsAgree idAt toIndex toId) {id : UInt64} {i : Nat}
    (hid : toIndex.lookup id = none) (hi : idAt i = none) :
    MapsAgree (fun j => if j = i then some id else idAt j) (toIndex.insert id i)
      (toId.insert i id) where
  toIndex_iff := by
    intro id' j
    rw [HashMap.lookup_insert_ite]
    by_cases hj : j = i
    · subst hj
      by_cases hid' : id' = id
      · simp [hid']
      · rw [if_neg hid', h.toIndex_iff, hi]
        simp [Ne.symm hid']
    · by_cases hid' : id' = id
      · subst hid'
        have := h.lookup_eq_none.1 hid j
        simp [hj, Ne.symm hj, this]
      · rw [if_neg hid', if_neg hj, h.toIndex_iff]
  toId_iff := by
    intro id' j
    rw [HashMap.lookup_insert_ite]
    split_ifs with hj
    · rfl
    · exact h.toId_iff id' j

theorem empty : MapsAgree (fun _ => none) ∅ ∅ := ⟨by simp, by simp⟩

theorem mapsOf_concat (idAt : Nat → Option UInt64) (pre : List Nat) (i : Nat) :
    Scg.mapsOf idAt (pre ++ [i]) =
      match idAt i with
      | some id => ((Scg.mapsOf idAt pre).1.insert id i, (Scg.mapsOf idAt pre).2.insert i id)
      | none => Scg.mapsOf idAt pre := by
  rw [Scg.mapsOf, List.foldl_append]
  rfl

theorem mapsOf {slots : List Nat} (hnodup : slots.Nodup)
    (hslots : ∀ i, (idAt i).isSome → i ∈ slots)
    (huniq : ∀ i j id, idAt i = some id → idAt j = some id → i = j) :
    MapsAgree idAt (mapsOf idAt slots).1 (mapsOf idAt slots).2 := by
  -- after the first slots, the maps agree with what stands in these slots
  have hpre : ∀ pre, pre <+: slots →
      MapsAgree (fun i => if i ∈ pre then idAt i else none) (Scg.mapsOf idAt pre).1
        (Scg.mapsOf idAt pre).2 := by
    intro pre
    induction pre using List.reverseRecOn with
    | nil => exact fun _ => empty.congr fun i => by simp
    | append_singleton pre i ih =>
      intro hle
      have ih := ih ((List.prefix_append _ _).trans hle)
      have hi : i ∉ pre := by
        have := hnodup.sublist hle.sublist
        exact fun hmem => (List.nodup_append.1 this).2.2 i hmem i (by simp) rfl
      rw [mapsOf_concat]
      cases hid : idAt i with
      | none =>
        refine ih.congr fun j => ?_
        by_cases hj : j = i
        · simp [hj, hid]
        · simp [hj]
      | some id =>
        have hnew : (Scg.mapsOf idAt pre).1.lookup id = none := by
          refine ih.lookup_eq_none.2 fun j hj => ?_
          split_ifs at hj with hmem
          exact hi (huniq j i id hj hid ▸ hmem)
        refine (ih.insert hnew (if_neg hi)).congr fun j => ?_
        by_cases hj : j = i
        · simp [hj, hid]
        · simp [hj]
  refine (hpre slots List.prefix_rfl).congr fun i => ?_
  split_ifs with hi
  · rfl
  · exact Option.not_isSome_iff_eq_none.1 fun h => hi (hslots i h)

end MapsAgree

/-! ## The invariant -/

/-- The part of the invariant that does not speak of the maps: identifiers are not used twice and
are below the counters, and an edge names the nodes in the slots of its ends. -/
structure SCG.Stored (g : SCG) : Prop where
  graph : g.graph.Valid
  node_unique : ∀ i j id, g.nodeIdAt i = some id → g.nodeIdAt j = some id → i = j
  edge_unique : ∀ i j id, g.edgeIdAt i = some id → g.edgeIdAt j = some id → i = j
  source : ∀ e en, g.graph.edge? e = some en → g.nodeIdAt en.source = some en.weight.source
  target : ∀ e en, g.graph.edge? e = some en → g.nodeIdAt en.target = some en.weight.target
  node_lt : ∀ idx id, g.nodeIdAt idx = some id → id < g.nextNodeId
  edge_lt : ∀ eidx id, g.edgeIdAt eidx = some id → id < g.nextEdgeId
  regions : ∀ id region, g.getRegion id = some region → region.id = id

/-- The invariant of `SCG`. -/
structure SCG.Valid (g : SCG) : Prop extends SCG.Stored g where
  nodes : MapsAgree g.nodeIdAt g.nodeIdToIndex g.nodeIndexToId
  edges : MapsAgree g.edgeIdAt g.edgeIdToIndex g.edgeIndexToId

/-- The invariant without the counters: an edge names the nodes in the slots of its ends, and the
maps are bijections, so that no identifier is used twice. -/
structure SCG.Sound (g : SCG) : Prop where
  graph : g.graph.Valid
  source : ∀ e en, g.graph.edge? e = some en → g.nodeIdAt en.source = some en.weight.source
  target : ∀ e en, g.graph.edge? e = some en → g.nodeIdAt en.target = some en.weight.target
  regions : ∀ id region, g.getRegion id = some region → region.id = id
  nodes : MapsAgree g.nodeIdAt g.nodeIdToIndex g.nodeIndexToId
  edges : MapsAgree g.edgeIdAt g.edgeIdToIndex g.edgeIndexToId

namespace SCG

theorem Valid.sound {g : SCG} (hg : g.Valid) : g.Sound :=
  ⟨hg.graph, hg.source, hg.target, hg.regions, hg.nodes, hg.edges⟩

/-- The counters are above the identifiers in use. -/
theorem Sound.valid {g : SCG} (hg : g.Sound)
    (hnode : ∀ idx id, g.nodeIdAt idx = some id → id < g.nextNodeId)
    (hedge : ∀ eidx id, g.edgeIdAt eidx = some id → id < g.nextEdgeId) : g.Valid where
  graph := hg.graph
  node_unique _ _ _ := hg.nodes.slot_unique
  edge_unique _ _ _ := hg.edges.slot_unique
  source := hg.source
  target := hg.target
  node_lt := hnode
  edge_lt := hedge
  regions := hg.regions
  nodes := hg.nodes
  edges := hg.edges

theorem valid_new : new.Valid where
  graph := DiGraph.valid_new
  node_unique := nofun
  edge_unique := nofun
  nodes := MapsAgree.empty
  edges := MapsAgree.empty
  source := nofun
  target := nofun
  node_lt := nofun
  edge_lt := nofun
  regions := nofun

variable {g : SCG}

namespace Valid

theorem nodeIdToIndex_iff (hg : g.Valid) {id : NodeId} {idx : Nat} :
    g.nodeIdToIndex.lookup id = some idx ↔
      ∃ data, g.graph.nodeWeight idx = some data ∧ data.id = id := by
  rw [hg.nodes.toIndex_iff, nodeIdAt, Option.map_eq_some_iff]

theorem edgeIdToIndex_iff (hg : g.Valid) {id : EdgeId} {eidx : Nat} :
    g.edgeIdToIndex.lookup id = some eidx ↔
      ∃ data, g.graph.edgeWeight eidx = some data ∧ data.id = id := by
  rw [hg.edges.toIndex_iff, edgeIdAt, Option.map_eq_some_iff]

theorem getNode_eq_some (hg : g.Valid) {id : NodeId} {data : NodeData} :
    g.getNode id = some data ↔ ∃ idx, g.graph.nodeWeight idx = some data ∧ data.id = id := by
  rw [getNode, Option.bind_eq_some_iff]
  refine exists_congr fun idx => ?_
  rw [hg.nodeIdToIndex_iff]
  constructor
  · rintro ⟨⟨data', h, hid⟩, h'⟩
    rw [h] at h'
    cases h'
    exact ⟨h, hid⟩
  · rintro ⟨h, hid⟩
    exact ⟨⟨data, h, hid⟩, h⟩

theorem getEdge_eq_some (hg : g.Valid) {id : EdgeId} {data : EdgeData} :
    g.getEdge id = some data ↔ ∃ eidx, g.graph.edgeWeight eidx = some data ∧ data.id = id := by
  rw [getEdge, Option.bind_eq_some_iff]
  refine exists_congr fun eidx => ?_
  rw [hg.edgeIdToIndex_iff]
  constructor
  · rintro ⟨⟨data', h, hid⟩, h'⟩
    rw [h] at h'
    cases h'
    exact ⟨h, hid⟩
  · rintro ⟨h, hid⟩
    exact ⟨⟨data, h, hid⟩, h⟩

theorem isSome_getNode (hg : g.Valid) (id : NodeId) :
    (g.getNode id).isSome = (g.nodeIdToIndex.lookup id).isSome := by
  rw [Bool.eq_iff_iff, Option.isSome_iff_exists, Option.isSome_iff_exists]
  simp only [hg.getNode_eq_some, hg.nodeIdToIndex_iff]
  exact exists_comm

theorem isSome_getEdge (hg : g.Valid) (id : EdgeId) :
    (g.getEdge id).isSome = (g.edgeIdToIndex.lookup id).isSome := by
  rw [Bool.eq_iff_iff, Option.isSome_iff_exists, Option.isSome_iff_exists]
  simp only [hg.getEdge_eq_some, hg.edgeIdToIndex_iff]
  exact exists_comm

end Valid

/-! ## The operations keep it -/

theorem edgeIdAt_eq_some {e : Nat} {id : EdgeId} :
    g.edgeIdAt e = some id ↔ ∃ en, g.graph.edge? e = some en ∧ en.weight.id = id := by
  simp [edgeIdAt, DiGraph.edgeWeight]

theorem isSome_nodeIdAt (i : Nat) : (g.nodeIdAt i).isSome = (g.graph.node? i).isSome := by
  simp [nodeIdAt]

theorem isSome_edgeIdAt (e : Nat) : (g.edgeIdAt e).isSome = (g.graph.edge? e).isSome := by
  simp [edgeIdAt, DiGraph.edgeWeight]

/-- The maps of the edges can be built anew from their slots. -/
theorem Stored.mapsOf_edges (hg : g.Stored) :
    MapsAgree g.edgeIdAt g.rebuildEdgeMappings.edgeIdToIndex
      g.rebuildEdgeMappings.edgeIndexToId := by
  refine MapsAgree.mapsOf g.graph.nodup_edgeIndices (fun i h => ?_) hg.edge_unique
  rwa [DiGraph.mem_edgeIndices, ← isSome_edgeIdAt]

/-- All maps can be built anew. -/
theorem Stored.rebuildIndexMappings (hg : g.Stored) : g.rebuildIndexMappings.Valid where
  toStored := ⟨hg.graph, hg.node_unique, hg.edge_unique, hg.source, hg.target, hg.node_lt,
    hg.edge_lt, hg.regions⟩
  nodes := by
    refine MapsAgree.mapsOf g.graph.nodup_nodeIndices (fun i h => ?_) hg.node_unique
    rwa [DiGraph.mem_nodeIndices, ← isSome_nodeIdAt]
  edges := hg.mapsOf_edges

/-! ### Nodes -/

theorem nodeIdAt_pushNode (data : NodeData) (i : Nat) :
    (g.pushNode data).nodeIdAt i =
      if i = g.graph.nodes.length then some data.id else g.nodeIdAt i := by
  show ((g.graph.addNode data).2.nodeWeight i).map NodeData.id = _
  rw [DiGraph.nodeWeight_addNode]
  split_ifs <;> rfl

theorem nodeIdAt_length (g : SCG) : g.nodeIdAt g.graph.nodes.length = none := by
  rw [nodeIdAt, DiGraph.nodeWeight_length, Option.map_none]

theorem edgeIdAt_length (g : SCG) : g.edgeIdAt g.graph.edges.length = none := by
  rw [edgeIdAt, DiGraph.edgeWeight, DiGraph.edge?_length]
  rfl

/-- A node with a new identifier is added. -/
theorem Sound.pushNode (hg : g.Sound) {data : NodeData}
    (hid : g.nodeIdToIndex.lookup data.id = none) : (g.pushNode data).Sound := by
  have hnodes : MapsAgree (g.pushNode data).nodeIdAt (g.pushNode data).nodeIdToIndex
      (g.pushNode data).nodeIndexToId :=
    (hg.nodes.insert hid g.nodeIdAt_length).congr (nodeIdAt_pushNode data)
  have hold : ∀ i id, g.nodeIdAt i = some id → (g.pushNode data).nodeIdAt i = some id := by
    intro i id h
    rw [nodeIdAt_pushNode, if_neg, h]
    rintro rfl
    rw [nodeIdAt_length] at h
    cases h
  exact {
    graph := hg.graph.addNode data
    source := fun e en h => hold _ _ (hg.source e en h)
    target := fun e en h => hold _ _ (hg.target e en h)
    regions := hg.regions
    nodes := hnodes
    edges := hg.edges }

theorem Sound.setCounters (hg : g.Sound) (nextNodeId nextEdgeId : UInt64) :
    ({ g with nextNodeId, nextEdgeId } : SCG).Sound :=
  ⟨hg.graph, hg.source, hg.target, hg.regions, hg.nodes, hg.edges⟩

/-- A node with a new identifier is added, and the counter is raised above it. -/
theorem Valid.pushNode (hg : g.Valid) {data : NodeData} {next : UInt64}
    (hid : g.nodeIdToIndex.lookup data.id = none) (hlt : data.id < next)
    (hle : g.nextNodeId ≤ next) : { g.pushNode data with nextNodeId := next }.Valid := by
  refine ((hg.sound.pushNode hid).setCounters next g.nextEdgeId).valid ?_ hg.edge_lt
  intro i id h
  replace h := (nodeIdAt_pushNode data i).symm.trans h
  split_ifs at h
  · cases h
    exact hlt
  · exact UInt64.lt_of_lt_of_le (hg.node_lt i id h) hle

/-- The counter is above every identifier in use. -/
theorem Valid.lookup_nextNodeId (hg : g.Valid) : g.nodeIdToIndex.lookup g.nextNodeId = none :=
  hg.nodes.lookup_eq_none.2 fun i h => UInt64.lt_irrefl _ (hg.node_lt i _ h)

theorem Valid.lookup_nextEdgeId (hg : g.Valid) : g.edgeIdToIndex.lookup g.nextEdgeId = none :=
  hg.edges.lookup_eq_none.2 fun i h => UInt64.lt_irrefl _ (hg.edge_lt i _ h)

theorem lt_add_one_of_toNat_lt {n : UInt64} (h : n.toNat < 2 ^ 64 - 1) : n < n + 1 := by
  rw [UInt64.lt_iff_toNat_lt, UInt64.toNat_add, UInt64.toNat_one]
  omega

theorem Valid.addNode (hg : g.Valid) (t : NodeType) (p : NodePayload) (pp : ProgramPoint)
    (h : g.nextNodeId.toNat < 2 ^ 64 - 1) : (g.addNode t p pp).2.Valid :=
  hg.pushNode hg.lookup_nextNodeId (lt_add_one_of_toNat_lt h)
    (UInt64.le_of_lt (lt_add_one_of_toNat_lt h))

theorem addNodeWithId_of_isSome {id : NodeId} (h : (g.nodeIdToIndex.lookup id).isSome)
    (t : NodeType) (p : NodePayload) (pp : ProgramPoint) :
    g.addNodeWithId id t p pp = (.err (.duplicateNode id), g) := by
  rw [addNodeWithId, if_pos h]

/-- The counter after an identifier has been given away. -/
def raise (next id : UInt64) : UInt64 := if next ≤ id then id + 1 else next

theorem le_raise {next id : UInt64} (h : id.toNat < 2 ^ 64 - 1) :
    id < raise next id ∧ next ≤ raise next id := by
  rw [raise]
  split_ifs with hle
  · exact ⟨lt_add_one_of_toNat_lt h, UInt64.le_trans hle (UInt64.le_of_lt (lt_add_one_of_toNat_lt h))⟩
  · exact ⟨UInt64.not_le.1 hle, UInt64.le_refl _⟩

theorem addNodeWithId_of_none {id : NodeId} (h : g.nodeIdToIndex.lookup id = none)
    (t : NodeType) (p : NodePayload) (pp : ProgramPoint) :
    g.addNodeWithId id t p pp =
      (.ok id, { g.pushNode ⟨id, t, none, pp, p⟩ with nextNodeId := raise g.nextNodeId id }) := by
  rw [addNodeWithId, h, if_neg (by simp)]
  simp only [raise]
  split_ifs with h₁ h₂ h₂
  · rfl
  · exact absurd h₁ h₂
  · exact absurd h₂ h₁
  · rfl

theorem Valid.addNodeWithId (hg : g.Valid) {id : NodeId} (t : NodeType) (p : NodePayload)
    (pp : ProgramPoint)
    (h : (g.addNodeWithId id t p pp).1 = .ok id → id.toNat < 2 ^ 64 - 1) :
    (g.addNodeWithId id t p pp).2.Valid := by
  cases hid : g.nodeIdToIndex.lookup id with
  | none =>
    rw [addNodeWithId_of_none hid] at h ⊢
    have h := h rfl
    exact hg.pushNode hid (le_raise h).1 (le_raise h).2
  | some idx =>
    rw [addNodeWithId_of_isSome (by simp [hid])]
    exact hg

/-- Forgetting edges only touches the maps of the edges. -/
theorem foldl_forgetEdge (es : List Nat) (g : SCG) :
    ∃ toIndex toId, es.foldl forgetEdge g =
      { g with edgeIdToIndex := toIndex, edgeIndexToId := toId } := by
  induction es generalizing g with
  | nil => exact ⟨_, _, rfl⟩
  | cons e es ih =>
    obtain ⟨toIndex, toId, h⟩ := ih (g.forgetEdge e)
    refine ⟨toIndex, toId, h.trans ?_⟩
    rw [forgetEdge]
    split <;> rfl

theorem removeNode_of_none {id : NodeId} (h : g.nodeIdToIndex.lookup id = none) :
    g.removeNode id = (.err (.nodeNotFound id), g) := by
  rw [removeNode, h, HashMap.erase_of_lookup_eq_none h]

/-- The maps after `remove_node` are those built from the slots that are left. -/
theorem removeNode_of_some {id : NodeId} {idx : Nat} {data : NodeData}
    (h : g.nodeIdToIndex.lookup id = some idx) (hdata : g.graph.nodeWeight idx = some data) :
    g.removeNode id =
      (.ok data, { g with graph := (g.graph.removeNode idx).2 }.rebuildIndexMappings) := by
  have hfst := DiGraph.removeNode_fst (g := g.graph) idx
  rw [removeNode, h]
  dsimp only
  obtain ⟨toIndex, toId, hfold⟩ := foldl_forgetEdge
    (g.graph.edgesDirected idx .outgoing ++ g.graph.edgesDirected idx .incoming)
    { g with nodeIdToIndex := g.nodeIdToIndex.erase id }
  rw [hfold]
  dsimp only
  rw [hdata] at hfst
  generalize g.graph.removeNode idx = r at hfst ⊢
  obtain ⟨w, graph⟩ := r
  cases hfst
  rfl

theorem nodeIdAt_removeNode (idx i : Nat) :
    ({ g with graph := (g.graph.removeNode idx).2 } : SCG).nodeIdAt i =
      if i = idx then none else g.nodeIdAt i := by
  simp only [nodeIdAt, DiGraph.nodeWeight_removeNode]
  split_ifs <;> rfl

theorem Stored.removeNode (hg : g.Stored) {idx : Nat} {entry : NodeEntry NodeData}
    (h : g.graph.node? idx = some entry) :
    ({ g with graph := (g.graph.removeNode idx).2 } : SCG).Stored := by
  have hnode : ∀ i id, ({ g with graph := (g.graph.removeNode idx).2 } : SCG).nodeIdAt i = some id →
      g.nodeIdAt i = some id := by
    intro i id hi
    rw [nodeIdAt_removeNode] at hi
    split_ifs at hi
    exact hi
  have hedge : ∀ e en, (g.graph.removeNode idx).2.edge? e = some en →
      g.graph.edge? e = some en ∧ en.source ≠ idx ∧ en.target ≠ idx := by
    intro e en he
    rw [hg.graph.edge?_removeNode h, Option.filter_eq_some_iff] at he
    simpa using he
  have hedgeId : ∀ e id, ({ g with graph := (g.graph.removeNode idx).2 } : SCG).edgeIdAt e = some id →
      g.edgeIdAt e = some id := by
    intro e id he
    obtain ⟨en, hen, hid⟩ := edgeIdAt_eq_some.1 he
    exact edgeIdAt_eq_some.2 ⟨en, (hedge e en hen).1, hid⟩
  exact {
    graph := hg.graph.removeNode idx
    node_unique := fun i j id hi hj => hg.node_unique i j id (hnode i id hi) (hnode j id hj)
    edge_unique := fun i j id hi hj => hg.edge_unique i j id (hedgeId i id hi) (hedgeId j id hj)
    source := by
      intro e en he
      obtain ⟨he, hs, -⟩ := hedge e en he
      rw [nodeIdAt_removeNode, if_neg hs]
      exact hg.source e en he
    target := by
      intro e en he
      obtain ⟨he, -, ht⟩ := hedge e en he
      rw [nodeIdAt_removeNode, if_neg ht]
      exact hg.target e en he
    node_lt := fun i id hi => hg.node_lt i id (hnode i id hi)
    edge_lt := fun e id he => hg.edge_lt e id (hedgeId e id he)
    regions := hg.regions }

theorem Valid.removeNode (hg : g.Valid) (id : NodeId) : (g.removeNode id).2.Valid := by
  cases hid : g.nodeIdToIndex.lookup id with
  | none =>
    rw [removeNode_of_none hid]
    exact hg
  | some idx =>
    obtain ⟨data, hdata, -⟩ := hg.nodeIdToIndex_iff.1 hid
    obtain ⟨entry, hentry, -⟩ := Option.map_eq_some_iff.1 hdata
    rw [removeNode_of_some hid hdata]
    exact (hg.toStored.removeNode hentry).rebuildIndexMappings

theorem nodeIdAt_modifyNodeWeight (idx : Nat) {f : NodeData → NodeData} (hf : ∀ d, (f d).id = d.id)
    (i : Nat) :
    ({ g with graph := g.graph.modifyNodeWeight idx f } : SCG).nodeIdAt i = g.nodeIdAt i := by
  simp only [nodeIdAt, DiGraph.nodeWeight_modifyNodeWeight]
  split_ifs
  · cases g.graph.nodeWeight i <;> simp [hf]
  · rfl

/-- A change to a node that keeps its identifier. -/
theorem Sound.modifyNodeWeight (hg : g.Sound) (idx : Nat) {f : NodeData → NodeData}
    (hf : ∀ d, (f d).id = d.id) :
    ({ g with graph := g.graph.modifyNodeWeight idx f } : SCG).Sound := by
  have hnode := nodeIdAt_modifyNodeWeight (g := g) idx hf
  exact {
    graph := hg.graph.modifyNodeWeight idx f
    source := fun e en he => (hnode _).trans (hg.source e en he)
    target := fun e en he => (hnode _).trans (hg.target e en he)
    regions := hg.regions
    nodes := hg.nodes.congr hnode
    edges := hg.edges }

theorem Valid.modifyNodeWeight (hg : g.Valid) (idx : Nat) {f : NodeData → NodeData}
    (hf : ∀ d, (f d).id = d.id) :
    ({ g with graph := g.graph.modifyNodeWeight idx f } : SCG).Valid := by
  refine (hg.sound.modifyNodeWeight idx hf).valid ?_ hg.edge_lt
  simpa only [nodeIdAt_modifyNodeWeight (g := g) idx hf] using hg.node_lt

theorem Sound.modifyNode (hg : g.Sound) (id : NodeId) {f : NodeData → NodeData}
    (hf : ∀ d, (f d).id = d.id) : (g.modifyNode id f).Sound := by
  rw [SCG.modifyNode]
  cases g.nodeIdToIndex.lookup id with
  | none => exact hg
  | some idx => exact hg.modifyNodeWeight idx hf

theorem Valid.modifyNode (hg : g.Valid) (id : NodeId) {f : NodeData → NodeData}
    (hf : ∀ d, (f d).id = d.id) : (g.modifyNode id f).Valid := by
  rw [SCG.modifyNode]
  cases g.nodeIdToIndex.lookup id with
  | none => exact hg
  | some idx => exact hg.modifyNodeWeight idx hf

/-! ### Edges -/

theorem edgeIdAt_pushEdge (a b : Nat) (data : EdgeData) (e : Nat) :
    (g.pushEdge a b data).edgeIdAt e =
      if e = g.graph.edges.length then some data.id else g.edgeIdAt e := by
  show (((g.graph.addEdge a b data).2.edge? e).map EdgeEntry.weight).map EdgeData.id = _
  rw [DiGraph.edge?_addEdge]
  split_ifs <;> rfl

theorem nodeIdAt_pushEdge (a b : Nat) (data : EdgeData) (i : Nat) :
    (g.pushEdge a b data).nodeIdAt i = g.nodeIdAt i := by
  show ((g.graph.addEdge a b data).2.nodeWeight i).map NodeData.id = _
  rw [DiGraph.nodeWeight_addEdge]
  rfl

/-- An edge with a new identifier is added. -/
theorem Sound.pushEdge (hg : g.Sound) {a b : Nat} {data : EdgeData}
    (ha : g.nodeIdAt a = some data.source) (hb : g.nodeIdAt b = some data.target)
    (hid : g.edgeIdToIndex.lookup data.id = none) : (g.pushEdge a b data).Sound := by
  have hedges : MapsAgree (g.pushEdge a b data).edgeIdAt (g.pushEdge a b data).edgeIdToIndex
      (g.pushEdge a b data).edgeIndexToId :=
    (hg.edges.insert hid g.edgeIdAt_length).congr (edgeIdAt_pushEdge a b data)
  have hnode := nodeIdAt_pushEdge (g := g) a b data
  have hedge : ∀ e en, (g.pushEdge a b data).graph.edge? e = some en →
      en = ⟨data, a, b⟩ ∨ g.graph.edge? e = some en := by
    intro e en he
    replace he := (DiGraph.edge?_addEdge a b data e).symm.trans he
    split_ifs at he
    · exact .inl (Option.some.inj he).symm
    · exact .inr he
  exact {
    graph := by
      refine hg.graph.addEdge ?_ ?_ data
      · rw [← isSome_nodeIdAt, ha]
        rfl
      · rw [← isSome_nodeIdAt, hb]
        rfl
    source := by
      intro e en he
      obtain rfl | he := hedge e en he
      · exact (hnode _).trans ha
      · exact (hnode _).trans (hg.source e en he)
    target := by
      intro e en he
      obtain rfl | he := hedge e en he
      · exact (hnode _).trans hb
      · exact (hnode _).trans (hg.target e en he)
    regions := hg.regions
    nodes := hg.nodes.congr hnode
    edges := hedges }

/-- An edge with a new identifier is added, and the counter is raised above it. -/
theorem Valid.pushEdge (hg : g.Valid) {a b : Nat} {data : EdgeData} {next : UInt64}
    (ha : g.nodeIdAt a = some data.source) (hb : g.nodeIdAt b = some data.target)
    (hid : g.edgeIdToIndex.lookup data.id = none) (hlt : data.id < next)
    (hle : g.nextEdgeId ≤ next) : { g.pushEdge a b data with nextEdgeId := next }.Valid := by
  refine ((hg.sound.pushEdge ha hb hid).setCounters g.nextNodeId next).valid ?_ ?_
  · intro i id hi
    exact hg.node_lt i id ((nodeIdAt_pushEdge a b data i).symm.trans hi)
  · intro e id he
    replace he := (edgeIdAt_pushEdge a b data e).symm.trans he
    split_ifs at he
    · cases he
      exact hlt
    · exact UInt64.lt_of_lt_of_le (hg.edge_lt e id he) hle

theorem addEdge_of_some {source target : NodeId} {i j : Nat}
    (hs : g.nodeIdToIndex.lookup source = some i) (ht : g.nodeIdToIndex.lookup target = some j)
    (kind : EdgeKind) :
    g.addEdge source target kind =
      (.ok g.nextEdgeId, { g.pushEdge i j ⟨g.nextEdgeId, source, target, kind, none⟩ with
        nextEdgeId := g.nextEdgeId + 1 }) := by
  rw [addEdge, hs, ht]
  rfl

theorem addEdge_of_none {source target : NodeId}
    (h : g.nodeIdToIndex.lookup source = none ∨ g.nodeIdToIndex.lookup target = none)
    (kind : EdgeKind) :
    g.addEdge source target kind = (.err (.invalidEdgeEndpoints source target), g) := by
  rw [addEdge]
  split
  · simp_all
  · rfl

theorem addEdgeWithId_of_isSome {id : EdgeId} (h : (g.edgeIdToIndex.lookup id).isSome)
    (source target : NodeId) (kind : EdgeKind) :
    g.addEdgeWithId id source target kind = (.err (.duplicateEdge id), g) := by
  rw [addEdgeWithId, if_pos h]

theorem addEdgeWithId_of_none {id : EdgeId} {source target : NodeId}
    (hid : g.edgeIdToIndex.lookup id = none)
    (h : g.nodeIdToIndex.lookup source = none ∨ g.nodeIdToIndex.lookup target = none)
    (kind : EdgeKind) :
    g.addEdgeWithId id source target kind =
      (.err (.invalidEdgeEndpoints source target), g) := by
  rw [addEdgeWithId, hid, if_neg (by simp)]
  split
  · simp_all
  · rfl

theorem addEdgeWithId_of_some {id : EdgeId} {source target : NodeId} {i j : Nat}
    (hid : g.edgeIdToIndex.lookup id = none)
    (hs : g.nodeIdToIndex.lookup source = some i) (ht : g.nodeIdToIndex.lookup target = some j)
    (kind : EdgeKind) :
    g.addEdgeWithId id source target kind =
      (.ok id, { g.pushEdge i j ⟨id, source, target, kind, none⟩ with
        nextEdgeId := raise g.nextEdgeId id }) := by
  rw [addEdgeWithId, hid, hs, ht, if_neg (by simp)]
  simp only [raise]
  split_ifs with h₁ h₂ h₂
  · rfl
  · exact absurd h₁ h₂
  · exact absurd h₂ h₁
  · rfl

theorem Valid.addEdge (hg : g.Valid) (source target : NodeId) (kind : EdgeKind)
    (h : (g.addEdge source target kind).1 = .ok g.nextEdgeId → g.nextEdgeId.toNat < 2 ^ 64 - 1) :
    (g.addEdge source target kind).2.Valid := by
  cases hs : g.nodeIdToIndex.lookup source with
  | none =>
    rw [addEdge_of_none (.inl hs)]
    exact hg
  | some i =>
    cases ht : g.nodeIdToIndex.lookup target with
    | none =>
      rw [addEdge_of_none (.inr ht)]
      exact hg
    | some j =>
      rw [addEdge_of_some hs ht] at h ⊢
      have hlt := lt_add_one_of_toNat_lt (h rfl)
      exact hg.pushEdge ((hg.nodes.toIndex_iff _ _).1 hs) ((hg.nodes.toIndex_iff _ _).1 ht)
        hg.lookup_nextEdgeId hlt (UInt64.le_of_lt hlt)

theorem Valid.addEdgeWithId (hg : g.Valid) (id : EdgeId) (source target : NodeId) (kind : EdgeKind)
    (h : (g.addEdgeWithId id source target kind).1 = .ok id → id.toNat < 2 ^ 64 - 1) :
    (g.addEdgeWithId id source target kind).2.Valid := by
  cases hid : g.edgeIdToIndex.lookup id with
  | some eidx =>
    rw [addEdgeWithId_of_isSome (by simp [hid])]
    exact hg
  | none =>
    cases hs : g.nodeIdToIndex.lookup source with
    | none =>
      rw [addEdgeWithId_of_none hid (.inl hs)]
      exact hg
    | some i =>
      cases ht : g.nodeIdToIndex.lookup target with
      | none =>
        rw [addEdgeWithId_of_none hid (.inr ht)]
        exact hg
      | some j =>
        rw [addEdgeWithId_of_some hid hs ht] at h ⊢
        have hid' := h rfl
        exact hg.pushEdge ((hg.nodes.toIndex_iff _ _).1 hs) ((hg.nodes.toIndex_iff _ _).1 ht)
          hid (le_raise hid').1 (le_raise hid').2

theorem removeEdge_of_none {id : EdgeId} (h : g.edgeIdToIndex.lookup id = none) :
    g.removeEdge id = (.err (.edgeNotFound id), g) := by
  rw [removeEdge, h, HashMap.erase_of_lookup_eq_none h]

theorem removeEdge_of_some {id : EdgeId} {eidx : Nat} {data : EdgeData}
    (h : g.edgeIdToIndex.lookup id = some eidx) (hdata : g.graph.edgeWeight eidx = some data) :
    g.removeEdge id =
      (.ok data, { g with graph := (g.graph.removeEdge eidx).2 }.rebuildEdgeMappings) := by
  have hfst := DiGraph.removeEdge_fst (g := g.graph) eidx
  rw [removeEdge, h]
  dsimp only
  rw [hdata] at hfst
  generalize g.graph.removeEdge eidx = r at hfst ⊢
  obtain ⟨w, graph⟩ := r
  cases hfst
  rfl

theorem nodeIdAt_removeEdge (e i : Nat) :
    ({ g with graph := (g.graph.removeEdge e).2 } : SCG).nodeIdAt i = g.nodeIdAt i := by
  simp only [nodeIdAt, DiGraph.nodeWeight_removeEdge]

theorem Stored.removeEdge (hg : g.Stored) (eidx : Nat) :
    ({ g with graph := (g.graph.removeEdge eidx).2 } : SCG).Stored := by
  have hnode := nodeIdAt_removeEdge (g := g) eidx
  have hedge : ∀ e en, (g.graph.removeEdge eidx).2.edge? e = some en →
      g.graph.edge? e = some en := by
    intro e en he
    rw [DiGraph.edge?_removeEdge] at he
    split_ifs at he
    exact he
  have hedgeId : ∀ e id,
      ({ g with graph := (g.graph.removeEdge eidx).2 } : SCG).edgeIdAt e = some id →
      g.edgeIdAt e = some id := by
    intro e id he
    obtain ⟨en, hen, hid⟩ := edgeIdAt_eq_some.1 he
    exact edgeIdAt_eq_some.2 ⟨en, hedge e en hen, hid⟩
  exact {
    graph := hg.graph.removeEdge eidx
    node_unique := by simpa only [hnode] using hg.node_unique
    edge_unique := fun i j id hi hj => hg.edge_unique i j id (hedgeId i id hi) (hedgeId j id hj)
    source := fun e en he => (hnode _).trans (hg.source e en (hedge e en he))
    target := fun e en he => (hnode _).trans (hg.target e en (hedge e en he))
    node_lt := by simpa only [hnode] using hg.node_lt
    edge_lt := fun e id he => hg.edge_lt e id (hedgeId e id he)
    regions := hg.regions }

theorem Valid.removeEdge (hg : g.Valid) (id : EdgeId) : (g.removeEdge id).2.Valid := by
  cases hid : g.edgeIdToIndex.lookup id with
  | none =>
    rw [removeEdge_of_none hid]
    exact hg
  | some eidx =>
    obtain ⟨data, hdata, -⟩ := hg.edgeIdToIndex_iff.1 hid
    have hst := hg.toStored.removeEdge eidx
    rw [removeEdge_of_some hid hdata]
    exact {
      toStored := ⟨hst.graph, hst.node_unique, hst.edge_unique, hst.source, hst.target,
        hst.node_lt, hst.edge_lt, hst.regions⟩
      nodes := hg.nodes.congr (nodeIdAt_removeEdge eidx)
      edges := hst.mapsOf_edges }

theorem edgeIdAt_modifyEdgeWeight (eidx : Nat) {f : EdgeData → EdgeData}
    (hf : ∀ d, (f d).id = d.id) (e : Nat) :
    ({ g with graph := g.graph.modifyEdgeWeight eidx f } : SCG).edgeIdAt e = g.edgeIdAt e := by
  simp only [edgeIdAt, DiGraph.edgeWeight, DiGraph.edge?_modifyEdgeWeight]
  cases g.graph.edge? e with
  | none => rfl
  | some en =>
    simp only [Option.map_some]
    split_ifs <;> simp [hf]

/-- A change to an edge that keeps its identifier and its ends. -/
theorem Sound.modifyEdgeWeight (hg : g.Sound) (eidx : Nat) {f : EdgeData → EdgeData}
    (hf : ∀ d, (f d).id = d.id ∧ (f d).source = d.source ∧ (f d).target = d.target) :
    ({ g with graph := g.graph.modifyEdgeWeight eidx f } : SCG).Sound := by
  have hedge : ∀ e en, (g.graph.modifyEdgeWeight eidx f).edge? e = some en →
      ∃ en', g.graph.edge? e = some en' ∧ en.source = en'.source ∧ en.target = en'.target ∧
        en.weight.source = en'.weight.source ∧ en.weight.target = en'.weight.target := by
    intro e en he
    rw [DiGraph.edge?_modifyEdgeWeight] at he
    obtain ⟨en', hen', rfl⟩ := Option.map_eq_some_iff.1 he
    refine ⟨en', hen', ?_⟩
    split_ifs
    · exact ⟨rfl, rfl, (hf _).2⟩
    · exact ⟨rfl, rfl, rfl, rfl⟩
  exact {
    graph := hg.graph.modifyEdgeWeight eidx f
    source := by
      intro e en he
      obtain ⟨en', hen', h₁, -, h₂, -⟩ := hedge e en he
      rw [h₁, h₂]
      exact hg.source e en' hen'
    target := by
      intro e en he
      obtain ⟨en', hen', -, h₁, -, h₂⟩ := hedge e en he
      rw [h₁, h₂]
      exact hg.target e en' hen'
    regions := hg.regions
    nodes := hg.nodes
    edges := hg.edges.congr (edgeIdAt_modifyEdgeWeight eidx fun d => (hf d).1) }

theorem Valid.modifyEdgeWeight (hg : g.Valid) (eidx : Nat) {f : EdgeData → EdgeData}
    (hf : ∀ d, (f d).id = d.id ∧ (f d).source = d.source ∧ (f d).target = d.target) :
    ({ g with graph := g.graph.modifyEdgeWeight eidx f } : SCG).Valid := by
  refine (hg.sound.modifyEdgeWeight eidx hf).valid hg.node_lt ?_
  simpa only [edgeIdAt_modifyEdgeWeight (g := g) eidx fun d => (hf d).1] using hg.edge_lt

theorem Sound.modifyEdge (hg : g.Sound) (id : EdgeId) {f : EdgeData → EdgeData}
    (hf : ∀ d, (f d).id = d.id ∧ (f d).source = d.source ∧ (f d).target = d.target) :
    (g.modifyEdge id f).Sound := by
  rw [SCG.modifyEdge]
  cases g.edgeIdToIndex.lookup id with
  | none => exact hg
  | some eidx => exact hg.modifyEdgeWeight eidx hf

theorem Valid.modifyEdge (hg : g.Valid) (id : EdgeId) {f : EdgeData → EdgeData}
    (hf : ∀ d, (f d).id = d.id ∧ (f d).source = d.source ∧ (f d).target = d.target) :
    (g.modifyEdge id f).Valid := by
  rw [SCG.modifyEdge]
  cases g.edgeIdToIndex.lookup id with
  | none => exact hg
  | some eidx => exact hg.modifyEdgeWeight eidx hf

/-! ### Regions -/

theorem Valid.setRegions (hg : g.Valid) {regions : HashMap RegionId SCGRegion}
    (h : ∀ id region, regions.lookup id = some region → region.id = id) :
    ({ g with regions } : SCG).Valid where
  toStored := ⟨hg.graph, hg.node_unique, hg.edge_unique, hg.source, hg.target, hg.node_lt,
    hg.edge_lt, h⟩
  nodes := hg.nodes
  edges := hg.edges

theorem Sound.addRegion (hg : g.Sound) (region : SCGRegion) : (g.addRegion region).Sound := by
  refine ⟨hg.graph, hg.source, hg.target, ?_, hg.nodes, hg.edges⟩
  intro id r h
  replace h := (HashMap.lookup_insert_ite g.regions region.id id region).symm.trans h
  split_ifs at h with hid
  · cases h
    exact hid.symm
  · exact hg.regions id r h

theorem Valid.addRegion (hg : g.Valid) (region : SCGRegion) : (g.addRegion region).Valid := by
  refine hg.setRegions fun id r h => ?_
  rw [HashMap.lookup_insert_ite] at h
  split_ifs at h with hid
  · cases h
    exact hid.symm
  · exact hg.regions id r h

theorem Valid.removeRegion (hg : g.Valid) (id : RegionId) : (g.removeRegion id).Valid := by
  refine hg.setRegions fun id' r h => ?_
  rw [HashMap.lookup_erase_ite] at h
  split_ifs at h
  exact hg.regions id' r h

theorem Valid.updateRegion (hg : g.Valid) (id : RegionId) (region : SCGRegion) :
    (g.updateRegion id region).Valid := by
  rw [SCG.updateRegion]
  cases hid : g.regions.lookup id with
  | none => exact hg
  | some old =>
    refine hg.setRegions fun id' r h => ?_
    rw [HashMap.lookup_insert_ite] at h
    split_ifs at h with heq
    · cases h
      exact heq ▸ hg.regions id old hid
    · exact hg.regions id' r h

/-! ## Runs -/

/-- A step keeps the invariant. -/
theorem Valid.exec (hg : g.Valid) {op : Op}
    (h : ∀ id, (op.exec g).1 = .ok (.nodeId id) ∨ (op.exec g).1 = .ok (.edgeId id) →
      id.toNat < 2 ^ 64 - 1) : (op.exec g).2.Valid := by
  cases op with
  | addNode t p pp => exact hg.addNode t p pp (h _ (.inl rfl))
  | addNodeWithId id t p pp =>
    refine hg.addNodeWithId t p pp fun hok => h _ (.inl ?_)
    simp [Op.exec, hok, Outcome.map]
  | removeNode id => exact hg.removeNode id
  | updateNode id t a pp p => exact hg.modifyNode id fun _ => rfl
  | addEdge s t k =>
    refine hg.addEdge s t k fun hok => h _ (.inr ?_)
    simp [Op.exec, hok, Outcome.map]
  | addEdgeWithId id s t k =>
    refine hg.addEdgeWithId id s t k fun hok => h _ (.inr ?_)
    simp [Op.exec, hok, Outcome.map]
  | removeEdge id => exact hg.removeEdge id
  | updateEdge id k l => exact hg.modifyEdge id fun _ => ⟨rfl, rfl, rfl⟩
  | addRegion r => exact hg.addRegion r
  | removeRegion id => exact hg.removeRegion id
  | updateRegion id r => exact hg.updateRegion id r
  | rebuild => exact hg.toStored.rebuildIndexMappings

theorem Valid.run (hg : g.Valid) {ops : List Op} (h : g.Fits ops) : (g.run ops).Valid := by
  induction ops generalizing g with
  | nil => exact hg
  | cons op ops ih => exact ih (hg.exec h.1) h.2

/-- What a step does to the counters, and how it can end. A step that fails changes nothing. -/
structure StepSpec (g : SCG) (r : Outcome SCGError Answer × SCG) : Prop where
  nextNodeId_le : g.nextNodeId ≤ r.2.nextNodeId
  nextEdgeId_le : g.nextEdgeId ≤ r.2.nextEdgeId
  unchanged : ∀ e, r.1 = .err e → r.2 = g
  ne_panic : r.1 ≠ .panic

theorem StepSpec.same (o : Outcome SCGError Answer) (ho : o ≠ .panic) : StepSpec g (o, g) :=
  ⟨UInt64.le_refl _, UInt64.le_refl _, fun _ _ => rfl, ho⟩

/-- A step that succeeds and does not give away identifiers. -/
theorem StepSpec.ok {a : Answer} {g' : SCG} (hn : g'.nextNodeId = g.nextNodeId)
    (he : g'.nextEdgeId = g.nextEdgeId) : StepSpec g (.ok a, g') :=
  ⟨UInt64.le_of_eq hn.symm, UInt64.le_of_eq he.symm, nofun, nofun⟩

theorem Valid.stepSpec (hg : g.Valid) {op : Op}
    (h : ∀ id, (op.exec g).1 = .ok (.nodeId id) ∨ (op.exec g).1 = .ok (.edgeId id) →
      id.toNat < 2 ^ 64 - 1) : StepSpec g (op.exec g) := by
  cases op with
  | addNode t p pp =>
    have hlt := lt_add_one_of_toNat_lt (h _ (.inl rfl))
    exact ⟨UInt64.le_of_lt hlt, UInt64.le_refl _, nofun, nofun⟩
  | addNodeWithId id t p pp =>
    simp only [Op.exec] at h ⊢
    cases hid : g.nodeIdToIndex.lookup id with
    | none =>
      rw [addNodeWithId_of_none hid] at h ⊢
      exact ⟨(le_raise (h id (.inl rfl))).2, UInt64.le_refl _, nofun, nofun⟩
    | some idx =>
      rw [addNodeWithId_of_isSome (by simp [hid])]
      exact .same _ nofun
  | removeNode id =>
    simp only [Op.exec]
    cases hid : g.nodeIdToIndex.lookup id with
    | none =>
      rw [removeNode_of_none hid]
      exact .same _ nofun
    | some idx =>
      obtain ⟨data, hdata, -⟩ := hg.nodeIdToIndex_iff.1 hid
      rw [removeNode_of_some hid hdata]
      exact .ok rfl rfl
  | updateNode id t a pp p =>
    simp only [Op.exec, SCG.updateNode, SCG.modifyNode]
    split <;> exact .ok rfl rfl
  | addEdge s t k =>
    simp only [Op.exec] at h ⊢
    cases hs : g.nodeIdToIndex.lookup s with
    | none =>
      rw [addEdge_of_none (.inl hs)]
      exact .same _ nofun
    | some i =>
      cases ht : g.nodeIdToIndex.lookup t with
      | none =>
        rw [addEdge_of_none (.inr ht)]
        exact .same _ nofun
      | some j =>
        rw [addEdge_of_some hs ht] at h ⊢
        have hlt := lt_add_one_of_toNat_lt (h _ (.inr rfl))
        exact ⟨UInt64.le_refl _, UInt64.le_of_lt hlt, nofun, nofun⟩
  | addEdgeWithId id s t k =>
    simp only [Op.exec] at h ⊢
    cases hid : g.edgeIdToIndex.lookup id with
    | some eidx =>
      rw [addEdgeWithId_of_isSome (by simp [hid])]
      exact .same _ nofun
    | none =>
      cases hs : g.nodeIdToIndex.lookup s with
      | none =>
        rw [addEdgeWithId_of_none hid (.inl hs)]
        exact .same _ nofun
      | some i =>
        cases ht : g.nodeIdToIndex.lookup t with
        | none =>
          rw [addEdgeWithId_of_none hid (.inr ht)]
          exact .same _ nofun
        | some j =>
          rw [addEdgeWithId_of_some hid hs ht] at h ⊢
          exact ⟨UInt64.le_refl _, (le_raise (h id (.inr rfl))).2, nofun, nofun⟩
  | removeEdge id =>
    simp only [Op.exec]
    cases hid : g.edgeIdToIndex.lookup id with
    | none =>
      rw [removeEdge_of_none hid]
      exact .same _ nofun
    | some eidx =>
      obtain ⟨data, hdata, -⟩ := hg.edgeIdToIndex_iff.1 hid
      rw [removeEdge_of_some hid hdata]
      exact .ok rfl rfl
  | updateEdge id k l =>
    simp only [Op.exec, SCG.updateEdge, SCG.modifyEdge]
    split <;> exact .ok rfl rfl
  | addRegion r => exact .ok rfl rfl
  | removeRegion id => exact .ok rfl rfl
  | updateRegion id r =>
    simp only [Op.exec, SCG.updateRegion]
    split <;> exact .ok rfl rfl
  | rebuild => exact .ok rfl rfl

theorem Valid.run_next (hg : g.Valid) {ops : List Op} (h : g.Fits ops) :
    g.nextNodeId ≤ (g.run ops).nextNodeId ∧ g.nextEdgeId ≤ (g.run ops).nextEdgeId := by
  induction ops generalizing g with
  | nil => exact ⟨UInt64.le_refl _, UInt64.le_refl _⟩
  | cons op ops ih =>
    have hstep := hg.stepSpec h.1
    have hrun := ih (hg.exec h.1) h.2
    exact ⟨UInt64.le_trans hstep.nextNodeId_le hrun.1, UInt64.le_trans hstep.nextEdgeId_le hrun.2⟩

theorem fits_append {ops ops' : List Op} :
    g.Fits (ops ++ ops') ↔ g.Fits ops ∧ (g.run ops).Fits ops' := by
  induction ops generalizing g with
  | nil => simp [Fits, run]
  | cons op ops ih => rw [List.cons_append, Fits, Fits, ih, and_assoc]; rfl

theorem run_append (ops ops' : List Op) : g.run (ops ++ ops') = (g.run ops).run ops' :=
  List.foldl_append

/-- Every node that is in use at some point of a run is below the counter from then on. -/
theorem Valid.getNode_eq_none (hg : g.Valid) {id : NodeId} (h : g.nextNodeId ≤ id) :
    g.getNode id = none := by
  rw [Option.eq_none_iff_forall_ne_some]
  intro data hdata
  obtain ⟨idx, hidx, hid⟩ := hg.getNode_eq_some.1 hdata
  have := hg.node_lt idx id (by rw [nodeIdAt, hidx, Option.map_some, hid])
  exact UInt64.lt_irrefl _ (UInt64.lt_of_lt_of_le this h)

theorem Valid.getEdge_eq_none (hg : g.Valid) {id : EdgeId} (h : g.nextEdgeId ≤ id) :
    g.getEdge id = none := by
  rw [Option.eq_none_iff_forall_ne_some]
  intro data hdata
  obtain ⟨eidx, heidx, hid⟩ := hg.getEdge_eq_some.1 hdata
  have := hg.edge_lt eidx id (by rw [edgeIdAt, heidx, Option.map_some, hid])
  exact UInt64.lt_irrefl _ (UInt64.lt_of_lt_of_le this h)

/-- The invariant over whole runs. Every graph of a run is valid; no step panics, a step that fails
leaves the graph as it was, and an identifier that `add_node` or `add_edge` hands out was not in use
in any earlier graph of the run. -/
theorem run_valid (ops : List Op) (h : new.Fits ops) :
    (new.run ops).Valid ∧
      ∀ pre op post, ops = pre ++ op :: post →
        (op.exec (new.run pre)).1 ≠ .panic ∧
        (∀ e, (op.exec (new.run pre)).1 = .err e → (op.exec (new.run pre)).2 = new.run pre) ∧
        (∀ t p pp id, op = .addNode t p pp → (op.exec (new.run pre)).1 = .ok (.nodeId id) →
          ∀ earlier, earlier <+: pre → (new.run earlier).getNode id = none) ∧
        (∀ s t k id, op = .addEdge s t k → (op.exec (new.run pre)).1 = .ok (.edgeId id) →
          ∀ earlier, earlier <+: pre → (new.run earlier).getEdge id = none) := by
  refine ⟨valid_new.run h, ?_⟩
  rintro pre op post rfl
  obtain ⟨hpre, hop, -⟩ := fits_append.1 h
  have hstep := (valid_new.run hpre).stepSpec hop
  -- the counters of an earlier graph are not above those of the graph the step starts from
  have hearlier : ∀ earlier, earlier <+: pre → (new.run earlier).Valid ∧
      (new.run earlier).nextNodeId ≤ (new.run pre).nextNodeId ∧
      (new.run earlier).nextEdgeId ≤ (new.run pre).nextEdgeId := by
    rintro earlier ⟨rest, rfl⟩
    obtain ⟨hfits, hrest⟩ := fits_append.1 hpre
    have hvalid := valid_new.run hfits
    rw [run_append]
    exact ⟨hvalid, hvalid.run_next hrest⟩
  refine ⟨hstep.ne_panic, hstep.unchanged, ?_, ?_⟩
  · rintro t p pp id rfl hid earlier hle
    obtain ⟨hvalid, hnode, -⟩ := hearlier earlier hle
    cases hid
    exact hvalid.getNode_eq_none hnode
  · rintro s t k id rfl hid earlier hle
    obtain ⟨hvalid, -, hedge⟩ := hearlier earlier hle
    have hnext : id = (new.run pre).nextEdgeId := by
      simp only [Op.exec, SCG.addEdge] at hid
      split at hid
      · cases hid
        rfl
      · cases hid
    rw [hnext]
    exact hvalid.getEdge_eq_none hedge

/-- A graph that is built by the public operations. -/
def Built (g : SCG) : Prop := ∃ ops, new.Fits ops ∧ g = new.run ops

theorem Built.valid (h : g.Built) : g.Valid := by
  obtain ⟨ops, hops, rfl⟩ := h
  exact valid_new.run hops

/-- Two nodes, an edge between them and a loop; then the node at the loop is removed. -/
def removeLoop : List Op :=
  let point : ProgramPoint := ⟨none, none, none, none⟩
  [.addNode .phantom (.phantom ⟨"a"⟩) point, .addNode .phantom (.phantom ⟨"b"⟩) point,
    .addEdge 0 1 .dataFlow, .addEdge 0 0 .dataFlow, .removeNode 0]

theorem run_valid_removeLoop :
    new.Fits removeLoop ∧ (new.run removeLoop).Valid ∧ (new.run removeLoop).graph.numEdges = 0 := by
  have h : new.Fits removeLoop := by
    refine ⟨?_, ?_, ?_, ?_, ?_, trivial⟩ <;> rintro id (h | h) <;> cases h <;> decide
  exact ⟨h, (run_valid removeLoop h).1, by decide⟩

end SCG

end Vuma.Scg
