import Vuma.Scg.Invariant

/-!
# The content of a graph

What a graph says, without its slots: the data found under each identifier. The operations of a
valid graph act on its content, and every element of the content carries its own identifier.
-/

namespace Vuma.Scg

open Lib

/-- The data under each identifier. -/
@[ext]
structure Content where
  nodes : NodeId → Option NodeData
  edges : EdgeId → Option EdgeData
  regions : RegionId → Option SCGRegion

/-- What holds of the content of every valid graph: the elements carry their identifiers, and the
ends of the edges are there. -/
structure Content.Closed (c : Content) : Prop where
  node_id : ∀ id d, c.nodes id = some d → d.id = id
  edge_id : ∀ id d, c.edges id = some d → d.id = id
  region_id : ∀ id r, c.regions id = some r → r.id = id
  source : ∀ id d, c.edges id = some d → (c.nodes d.source).isSome
  target : ∀ id d, c.edges id = some d → (c.nodes d.target).isSome

namespace SCG

/-- The content of a graph. -/
def content (g : SCG) : Content := ⟨g.getNode, g.getEdge, g.getRegion⟩

variable {g : SCG}

namespace Valid

theorem getNode_nodeIdAt (hg : g.Valid) {idx : Nat} {id : NodeId} (h : g.nodeIdAt idx = some id) :
    g.getNode id = g.graph.nodeWeight idx := by
  rw [getNode, (hg.nodes.toIndex_iff id idx).2 h]
  rfl

theorem getNode_id (hg : g.Valid) {id : NodeId} {data : NodeData} (h : g.getNode id = some data) :
    data.id = id := by
  obtain ⟨idx, -, hid⟩ := hg.getNode_eq_some.1 h
  exact hid

theorem getEdge_id (hg : g.Valid) {id : EdgeId} {data : EdgeData} (h : g.getEdge id = some data) :
    data.id = id := by
  obtain ⟨eidx, -, hid⟩ := hg.getEdge_eq_some.1 h
  exact hid

/-- An edge found by its identifier stands in a slot, between the slots of its ends. -/
theorem getEdge_slot (hg : g.Valid) {id : EdgeId} {data : EdgeData} (h : g.getEdge id = some data) :
    ∃ eidx en, g.graph.edge? eidx = some en ∧ en.weight = data ∧
      g.nodeIdAt en.source = some data.source ∧ g.nodeIdAt en.target = some data.target := by
  obtain ⟨eidx, hw, -⟩ := hg.getEdge_eq_some.1 h
  obtain ⟨en, hen, rfl⟩ := Option.map_eq_some_iff.1 hw
  exact ⟨eidx, en, hen, rfl, hg.source eidx en hen, hg.target eidx en hen⟩

theorem isSome_getNode_of_nodeIdAt (hg : g.Valid) {idx : Nat} {id : NodeId}
    (h : g.nodeIdAt idx = some id) : (g.getNode id).isSome := by
  rw [hg.getNode_nodeIdAt h]
  obtain ⟨data, hdata, -⟩ := Option.map_eq_some_iff.1 h
  simp [hdata]

theorem closed (hg : g.Valid) : g.content.Closed where
  node_id := fun _ _ => hg.getNode_id
  edge_id := fun _ _ => hg.getEdge_id
  region_id := hg.regions
  source := by
    intro id d h
    obtain ⟨eidx, en, -, -, hs, -⟩ := hg.getEdge_slot h
    exact hg.isSome_getNode_of_nodeIdAt hs
  target := by
    intro id d h
    obtain ⟨eidx, en, -, -, -, ht⟩ := hg.getEdge_slot h
    exact hg.isSome_getNode_of_nodeIdAt ht

/-! ## The identifiers -/

theorem mem_nodeKeys (hg : g.Valid) {id : NodeId} :
    id ∈ g.nodeIdToIndex.keys ↔ (g.getNode id).isSome := by
  rw [HashMap.mem_keys_iff, hg.isSome_getNode]

theorem mem_edgeKeys (hg : g.Valid) {id : EdgeId} :
    id ∈ g.edgeIdToIndex.keys ↔ (g.getEdge id).isSome := by
  rw [HashMap.mem_keys_iff, hg.isSome_getEdge]

/-- The identifiers of a valid graph are below `2 ^ 64 - 1`. -/
theorem node_toNat_lt (hg : g.Valid) {id : NodeId} (h : (g.getNode id).isSome) :
    id.toNat < 2 ^ 64 - 1 := by
  obtain ⟨data, hdata⟩ := Option.isSome_iff_exists.1 h
  obtain ⟨idx, hidx, hid⟩ := hg.getNode_eq_some.1 hdata
  have hlt := hg.node_lt idx id (by rw [nodeIdAt, hidx, Option.map_some, hid])
  rw [UInt64.lt_iff_toNat_lt] at hlt
  have := g.nextNodeId.toNat_lt
  omega

theorem edge_toNat_lt (hg : g.Valid) {id : EdgeId} (h : (g.getEdge id).isSome) :
    id.toNat < 2 ^ 64 - 1 := by
  obtain ⟨data, hdata⟩ := Option.isSome_iff_exists.1 h
  obtain ⟨eidx, heidx, hid⟩ := hg.getEdge_eq_some.1 hdata
  have hlt := hg.edge_lt eidx id (by rw [edgeIdAt, heidx, Option.map_some, hid])
  rw [UInt64.lt_iff_toNat_lt] at hlt
  have := g.nextEdgeId.toNat_lt
  omega

end Valid

/-! ## The operations on the content -/

theorem getNode_congr {g' : SCG} (hg : g.Valid) (hg' : g'.Valid)
    (h : ∀ i, g'.graph.nodeWeight i = g.graph.nodeWeight i) : g'.getNode = g.getNode := by
  funext id
  refine Option.ext fun data => ?_
  rw [hg'.getNode_eq_some, hg.getNode_eq_some]
  simp only [h]

theorem getEdge_congr {g' : SCG} (hg : g.Valid) (hg' : g'.Valid)
    (h : ∀ e, g'.graph.edge? e = g.graph.edge? e) : g'.getEdge = g.getEdge := by
  funext id
  refine Option.ext fun data => ?_
  rw [hg'.getEdge_eq_some, hg.getEdge_eq_some]
  simp only [DiGraph.edgeWeight, h]

theorem content_removeNode (hg : g.Valid) {id : NodeId} (h : (g.getNode id).isSome) :
    (∃ data, (g.removeNode id).1 = .ok data) ∧ (g.removeNode id).2.content =
      { g.content with
        nodes := Function.update g.getNode id none
        edges := fun e => (g.getEdge e).filter fun d => d.source ≠ id ∧ d.target ≠ id } := by
  have hg' := hg.removeNode id
  rw [hg.isSome_getNode, Option.isSome_iff_exists] at h
  obtain ⟨idx, hidx⟩ := h
  obtain ⟨data, hdata, hid⟩ := hg.nodeIdToIndex_iff.1 hidx
  obtain ⟨entry, hentry, -⟩ := Option.map_eq_some_iff.1 hdata
  rw [removeNode_of_some hidx hdata] at hg' ⊢
  refine ⟨⟨data, rfl⟩, ?_⟩
  have hslot : ∀ i, g.nodeIdAt i = some id ↔ i = idx := by
    intro i
    rw [← hg.nodes.toIndex_iff, hidx, Option.some.injEq, eq_comm]
  refine Content.ext ?_ ?_ rfl
  · funext id'
    refine Option.ext fun d => ?_
    show getNode _ id' = some d ↔ _
    rw [hg'.getNode_eq_some]
    show (∃ i, (g.graph.removeNode idx).2.nodeWeight i = some d ∧ d.id = id') ↔ _
    simp only [DiGraph.nodeWeight_removeNode, Function.update_apply]
    by_cases hid' : id' = id
    · rw [if_pos hid']
      simp only [reduceCtorEq, iff_false, not_exists, not_and]
      intro i hi hd
      split_ifs at hi with hidx'
      exact hidx' ((hslot i).1 (by rw [nodeIdAt, hi, Option.map_some, hd, hid']))
    · rw [if_neg hid', hg.getNode_eq_some]
      refine exists_congr fun i => and_congr_left fun hd => ?_
      split_ifs with hidx'
      · rw [hidx', hdata, Option.some.injEq]
        simp only [false_iff]
        rintro rfl
        exact hid' (hd ▸ hid)
      · rfl
  · funext e
    refine Option.ext fun d => ?_
    show getEdge _ e = some d ↔ _
    rw [hg'.getEdge_eq_some, Option.filter_eq_some_iff, hg.getEdge_eq_some]
    show (∃ i, ((g.graph.removeNode idx).2.edge? i).map EdgeEntry.weight = some d ∧ d.id = e) ↔ _
    simp only [hg.graph.edge?_removeNode hentry, Option.map_eq_some_iff, Option.filter_eq_some_iff]
    constructor
    · rintro ⟨i, ⟨en, ⟨hen, hne⟩, rfl⟩, hd⟩
      refine ⟨⟨i, ?_, hd⟩, ?_⟩
      · rw [DiGraph.edgeWeight, hen, Option.map_some]
      · have hs := hg.source i en hen
        have ht := hg.target i en hen
        simp only [ne_eq, decide_eq_true_eq] at hne ⊢
        refine ⟨fun h => hne.1 ((hslot _).1 (h ▸ hs)), fun h => hne.2 ((hslot _).1 (h ▸ ht))⟩
    · rintro ⟨⟨i, hi, hd⟩, hne⟩
      obtain ⟨en, hen, rfl⟩ := Option.map_eq_some_iff.1 hi
      have hs := hg.source i en hen
      have ht := hg.target i en hen
      refine ⟨i, ⟨en, ⟨hen, ?_⟩, rfl⟩, hd⟩
      simp only [ne_eq, decide_eq_true_eq] at hne ⊢
      refine ⟨fun h => hne.1 ?_, fun h => hne.2 ?_⟩
      · exact Option.some.inj (hs.symm.trans ((hslot _).2 h))
      · exact Option.some.inj (ht.symm.trans ((hslot _).2 h))

theorem removeNode_eq_err (hg : g.Valid) {id : NodeId} (h : g.getNode id = none) :
    g.removeNode id = (.err (.nodeNotFound id), g) := by
  refine removeNode_of_none ?_
  rw [← Option.not_isSome_iff_eq_none, ← hg.isSome_getNode, h]
  simp

theorem getNode_pushNode {g' : SCG} (hg : g.Valid) (hg' : g'.Valid) {data : NodeData}
    (h : ∀ i, g'.graph.nodeWeight i =
      if i = g.graph.nodes.length then some data else g.graph.nodeWeight i)
    (hid : g.getNode data.id = none) :
    g'.getNode = Function.update g.getNode data.id (some data) := by
  have hnew := g.graph.nodeWeight_length
  funext id
  refine Option.ext fun d => ?_
  rw [hg'.getNode_eq_some, Function.update_apply]
  simp only [h]
  constructor
  · rintro ⟨i, hi, hd⟩
    split_ifs at hi
    · cases hi
      rw [if_pos hd.symm]
    · have hget := hg.getNode_eq_some.2 ⟨i, hi, hd⟩
      rw [if_neg, hget]
      rintro rfl
      rw [hid] at hget
      cases hget
  · intro hd
    split_ifs at hd with heq
    · cases hd
      exact ⟨g.graph.nodes.length, if_pos rfl, heq.symm⟩
    · obtain ⟨i, hi, hd⟩ := hg.getNode_eq_some.1 hd
      refine ⟨i, ?_, hd⟩
      rw [if_neg, hi]
      rintro rfl
      rw [hnew] at hi
      cases hi

theorem getEdge_pushEdge {g' : SCG} (hg : g.Valid) (hg' : g'.Valid) {data : EdgeData} {a b : Nat}
    (h : ∀ i, g'.graph.edge? i =
      if i = g.graph.edges.length then some ⟨data, a, b⟩ else g.graph.edge? i)
    (hid : g.getEdge data.id = none) :
    g'.getEdge = Function.update g.getEdge data.id (some data) := by
  have hnew := g.graph.edge?_length
  funext id
  refine Option.ext fun d => ?_
  rw [hg'.getEdge_eq_some, Function.update_apply]
  simp only [DiGraph.edgeWeight, h]
  constructor
  · rintro ⟨i, hi, hd⟩
    split_ifs at hi
    · cases hi
      rw [if_pos hd.symm]
    · have hget := hg.getEdge_eq_some.2 ⟨i, hi, hd⟩
      rw [if_neg, hget]
      rintro rfl
      rw [hid] at hget
      cases hget
  · intro hd
    split_ifs at hd with heq
    · cases hd
      exact ⟨g.graph.edges.length, by rw [if_pos rfl]; rfl, heq.symm⟩
    · obtain ⟨i, hi, hd⟩ := hg.getEdge_eq_some.1 hd
      refine ⟨i, ?_, hd⟩
      rw [if_neg]
      · exact hi
      · rintro rfl
        rw [DiGraph.edgeWeight, hnew] at hi
        cases hi

theorem content_addNodeWithId (hg : g.Valid) {id : NodeId} (h : g.getNode id = none)
    (t : NodeType) (p : NodePayload) (pp : ProgramPoint) (hlt : id.toNat < 2 ^ 64 - 1) :
    (g.addNodeWithId id t p pp).1 = .ok id ∧ (g.addNodeWithId id t p pp).2.content =
      { g.content with nodes := Function.update g.getNode id (some ⟨id, t, none, pp, p⟩) } := by
  have hg' := hg.addNodeWithId t p pp fun _ : (g.addNodeWithId id t p pp).1 = .ok id => hlt
  have hid : g.nodeIdToIndex.lookup id = none := by
    rw [← Option.not_isSome_iff_eq_none, ← hg.isSome_getNode, h]
    simp
  rw [addNodeWithId_of_none hid] at hg' ⊢
  refine ⟨rfl, Content.ext ?_ (getEdge_congr hg hg' fun _ => rfl) rfl⟩
  exact getNode_pushNode hg hg' (DiGraph.nodeWeight_addNode _) h

theorem content_modifyNode (hg : g.Valid) {id : NodeId} {data : NodeData}
    (h : g.getNode id = some data) {f : NodeData → NodeData} (hf : ∀ d, (f d).id = d.id) :
    (g.modifyNode id f).content =
      { g.content with nodes := Function.update g.getNode id (some (f data)) } := by
  have hg' := hg.modifyNode id hf
  obtain ⟨idx, hidx, hid⟩ := hg.getNode_eq_some.1 h
  have hlook : g.nodeIdToIndex.lookup id = some idx :=
    hg.nodeIdToIndex_iff.2 ⟨data, hidx, hid⟩
  rw [modifyNode, hlook] at hg' ⊢
  dsimp only at hg' ⊢
  refine Content.ext ?_ (getEdge_congr hg hg' fun _ => rfl) rfl
  funext id'
  show (g.nodeIdToIndex.lookup id').bind _ = Function.update g.getNode id _ id'
  by_cases heq : id' = id
  · subst heq
    rw [hlook, Option.bind_some, DiGraph.nodeWeight_modifyNodeWeight, if_pos rfl, hidx,
      Option.map_some, Function.update_self]
  · rw [Function.update_of_ne heq, getNode]
    cases hi : g.nodeIdToIndex.lookup id' with
    | none => rfl
    | some i =>
      rw [Option.bind_some, Option.bind_some, DiGraph.nodeWeight_modifyNodeWeight, if_neg]
      rintro rfl
      rw [hg.nodes.toIndex_iff] at hi hlook
      exact heq (Option.some.inj (hi.symm.trans hlook))

theorem modifyNode_of_none (hg : g.Valid) {id : NodeId} (h : g.getNode id = none)
    (f : NodeData → NodeData) : g.modifyNode id f = g := by
  have hid : g.nodeIdToIndex.lookup id = none := by
    rw [← Option.not_isSome_iff_eq_none, ← hg.isSome_getNode, h]
    simp
  rw [modifyNode, hid]

theorem content_addEdgeWithId (hg : g.Valid) {id : EdgeId} {source target : NodeId}
    (h : g.getEdge id = none) (hs : (g.getNode source).isSome) (ht : (g.getNode target).isSome)
    (kind : EdgeKind) (hlt : id.toNat < 2 ^ 64 - 1) :
    (g.addEdgeWithId id source target kind).1 = .ok id ∧
      (g.addEdgeWithId id source target kind).2.content =
        { g.content with
          edges := Function.update g.getEdge id (some ⟨id, source, target, kind, none⟩) } := by
  have hg' := hg.addEdgeWithId id source target kind fun _ => hlt
  have hid : g.edgeIdToIndex.lookup id = none := by
    rw [← Option.not_isSome_iff_eq_none, ← hg.isSome_getEdge, h]
    simp
  rw [hg.isSome_getNode, Option.isSome_iff_exists] at hs ht
  obtain ⟨i, hi⟩ := hs
  obtain ⟨j, hj⟩ := ht
  rw [addEdgeWithId_of_some hid hi hj] at hg' ⊢
  refine ⟨rfl, Content.ext (getNode_congr hg hg' (DiGraph.nodeWeight_addEdge i j _)) ?_ rfl⟩
  exact getEdge_pushEdge hg hg' (DiGraph.edge?_addEdge i j _) h

/-- An edge is not added when its identifier is taken or an end is missing. -/
theorem addEdgeWithId_eq_err (hg : g.Valid) {id : EdgeId} {source target : NodeId}
    (h : (g.getEdge id).isSome ∨ g.getNode source = none ∨ g.getNode target = none)
    (kind : EdgeKind) : ∃ e, g.addEdgeWithId id source target kind = (.err e, g) := by
  rw [hg.isSome_getEdge, ← Option.not_isSome_iff_eq_none, ← Option.not_isSome_iff_eq_none,
    hg.isSome_getNode, hg.isSome_getNode, Option.not_isSome_iff_eq_none,
    Option.not_isSome_iff_eq_none] at h
  cases hid : g.edgeIdToIndex.lookup id with
  | some eidx => exact ⟨_, addEdgeWithId_of_isSome (by simp [hid]) source target kind⟩
  | none => exact ⟨_, addEdgeWithId_of_none hid (h.resolve_left (by simp [hid])) kind⟩

theorem content_removeEdge (hg : g.Valid) {id : EdgeId} (h : (g.getEdge id).isSome) :
    (∃ data, (g.removeEdge id).1 = .ok data) ∧ (g.removeEdge id).2.content =
      { g.content with edges := Function.update g.getEdge id none } := by
  have hg' := hg.removeEdge id
  rw [hg.isSome_getEdge, Option.isSome_iff_exists] at h
  obtain ⟨eidx, heidx⟩ := h
  obtain ⟨data, hdata, hid⟩ := hg.edgeIdToIndex_iff.1 heidx
  rw [removeEdge_of_some heidx hdata] at hg' ⊢
  refine ⟨⟨data, rfl⟩, ?_⟩
  refine Content.ext (getNode_congr hg hg' (DiGraph.nodeWeight_removeEdge eidx)) ?_ rfl
  funext id'
  refine Option.ext fun d => ?_
  show getEdge _ id' = some d ↔ Function.update g.getEdge id none id' = some d
  rw [hg'.getEdge_eq_some]
  show (∃ i, ((g.graph.removeEdge eidx).2.edge? i).map EdgeEntry.weight = some d ∧ d.id = id') ↔ _
  simp only [DiGraph.edge?_removeEdge, Function.update_apply]
  by_cases hid' : id' = id
  · rw [if_pos hid']
    simp only [reduceCtorEq, iff_false, not_exists, not_and]
    intro i hi hd
    split_ifs at hi with hne
    · cases hi
    · have : g.edgeIdAt i = some id := by
        rw [edgeIdAt, DiGraph.edgeWeight, hi, Option.map_some, hd, hid']
      rw [← hg.edges.toIndex_iff, heidx] at this
      exact hne (Option.some.inj this).symm
  · rw [if_neg hid', hg.getEdge_eq_some]
    refine exists_congr fun i => and_congr_left fun hd => ?_
    split_ifs with heq
    · rw [heq, hdata, Option.some.injEq]
      simp only [Option.map_none, reduceCtorEq, false_iff]
      rintro rfl
      exact hid' (hd ▸ hid)
    · rfl

theorem removeEdge_eq_err (hg : g.Valid) {id : EdgeId} (h : g.getEdge id = none) :
    g.removeEdge id = (.err (.edgeNotFound id), g) := by
  refine removeEdge_of_none ?_
  rw [← Option.not_isSome_iff_eq_none, ← hg.isSome_getEdge, h]
  simp

theorem content_modifyEdge (hg : g.Valid) {id : EdgeId} {data : EdgeData}
    (h : g.getEdge id = some data) {f : EdgeData → EdgeData}
    (hf : ∀ d, (f d).id = d.id ∧ (f d).source = d.source ∧ (f d).target = d.target) :
    (g.modifyEdge id f).content =
      { g.content with edges := Function.update g.getEdge id (some (f data)) } := by
  have hg' := hg.modifyEdge id hf
  obtain ⟨eidx, heidx, hid⟩ := hg.getEdge_eq_some.1 h
  have hlook : g.edgeIdToIndex.lookup id = some eidx :=
    hg.edgeIdToIndex_iff.2 ⟨data, heidx, hid⟩
  rw [modifyEdge, hlook] at hg' ⊢
  dsimp only at hg' ⊢
  refine Content.ext (getNode_congr hg hg' fun _ => rfl) ?_ rfl
  funext id'
  show (g.edgeIdToIndex.lookup id').bind _ = Function.update g.getEdge id _ id'
  by_cases heq : id' = id
  · subst heq
    obtain ⟨en, hen, rfl⟩ := Option.map_eq_some_iff.1 heidx
    rw [hlook, Option.bind_some, DiGraph.edgeWeight, DiGraph.edge?_modifyEdgeWeight, hen,
      Function.update_self]
    simp
  · rw [Function.update_of_ne heq, getEdge]
    cases hi : g.edgeIdToIndex.lookup id' with
    | none => rfl
    | some i =>
      have hne : i ≠ eidx := by
        rintro rfl
        rw [hg.edges.toIndex_iff] at hi hlook
        exact heq (Option.some.inj (hi.symm.trans hlook))
      rw [Option.bind_some, Option.bind_some, DiGraph.edgeWeight,
        DiGraph.edge?_modifyEdgeWeight, DiGraph.edgeWeight]
      simp [hne]

theorem modifyEdge_of_none (hg : g.Valid) {id : EdgeId} (h : g.getEdge id = none)
    (f : EdgeData → EdgeData) : g.modifyEdge id f = g := by
  have hid : g.edgeIdToIndex.lookup id = none := by
    rw [← Option.not_isSome_iff_eq_none, ← hg.isSome_getEdge, h]
    simp
  rw [modifyEdge, hid]

theorem content_addRegion (region : SCGRegion) : (g.addRegion region).content =
    { g.content with regions := Function.update g.getRegion region.id (some region) } :=
  Content.ext rfl rfl (HashMap.lookup_insert_eq_update g.regions region.id region)

theorem content_removeRegion (id : RegionId) : (g.removeRegion id).content =
    { g.content with regions := Function.update g.getRegion id none } :=
  Content.ext rfl rfl (HashMap.lookup_erase_eq_update g.regions id)

theorem content_updateRegion (hg : g.Valid) {id : RegionId} {old : SCGRegion}
    (h : g.getRegion id = some old) (region : SCGRegion) : (g.updateRegion id region).content =
      { g.content with
        regions := Function.update g.getRegion id (some { region with id := id }) } := by
  have hold : old.id = id := hg.regions id old h
  rw [getRegion] at h
  rw [updateRegion, h]
  dsimp only
  rw [hold]
  exact Content.ext rfl rfl (HashMap.lookup_insert_eq_update g.regions id _)

theorem updateRegion_of_none {id : RegionId} (h : g.getRegion id = none) (region : SCGRegion) :
    g.updateRegion id region = g := by
  rw [getRegion] at h
  rw [updateRegion, h]

end SCG

end Vuma.Scg
