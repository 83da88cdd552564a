import Vuma.Scg.DiffCorrect
import Vuma.Scg.Neighbors

/-!
# Putting one graph into another

`merge` of `graph.rs`. The nodes, edges and regions of the second graph get new identifiers of the
first one, and the ends of its edges and the members of its regions follow. What its payloads and
edge kinds refer to is copied as it is.
-/

namespace Vuma.Scg

open Lib

namespace SCG

/-- The loop over the nodes of the other graph. -/
def mergeNode (s : HashMap NodeId NodeId × SCG) (nodeData : NodeData) :
    HashMap NodeId NodeId × SCG :=
  let (newId, g) := s.2.addNode nodeData.nodeType nodeData.payload nodeData.programPoint
  let g := match nodeData.annotation with
    | some ann => g.modifyNode newId fun newData => { newData with annotation := some ann }
    | none => g
  (s.1.insert nodeData.id newId, g)

/-- The loop over the edges of the other graph. -/
def mergeEdge (nodeMap : HashMap NodeId NodeId) (g : SCG) (edgeData : EdgeData) : SCG :=
  let newSource := (nodeMap.lookup edgeData.source).getD edgeData.source
  let newTarget := (nodeMap.lookup edgeData.target).getD edgeData.target
  match g.addEdge newSource newTarget edgeData.kind with
  | (.ok newEid, g) =>
    match edgeData.label with
    | some label => g.modifyEdge newEid fun newEdge => { newEdge with label := some label }
    | none => g
  | (_, g) => g

def nextRegionId (g : SCG) : RegionId := g.regions.keys.foldl max 0 + 1

/-- The loop over the regions of the other graph. -/
def mergeRegion (nodeMap : HashMap NodeId NodeId) (g : SCG) (region : SCGRegion) : SCG :=
  g.addRegion {
    id := g.nextRegionId
    nodes := (region.nodes.filter fun old => (nodeMap.lookup old).isSome).image fun old =>
      (nodeMap.lookup old).getD old
    scopeLevel := region.scopeLevel
    securityBoundary := region.securityBoundary
    deploymentTarget := region.deploymentTarget }

/-- The regions in the order in which the hash map is gone through. -/
def regionsIn (it : KeyOrder RegionId) (g : SCG) : List SCGRegion :=
  (it.order g.regions.keys).filterMap g.getRegion

def merge (it : KeyOrder RegionId) (g other : SCG) : HashMap NodeId NodeId × SCG :=
  let (nodeMap, g) := other.nodes.foldl mergeNode (∅, g)
  let g := other.edges.foldl (mergeEdge nodeMap) g
  let g := (other.regionsIn it).foldl (mergeRegion nodeMap) g
  (nodeMap, g)

end SCG

/-! ## Renaming -/

/-- New identifiers. -/
structure Renaming where
  node : NodeId → NodeId
  edge : EdgeId → EdgeId
  region : RegionId → RegionId

namespace NodePayload

/-- The nodes that a payload refers to. -/
def nodeRefs : NodePayload → List NodeId
  | .deallocation n => [n.allocationNode]
  | .vTable n => n.methodEntries
  | .closureEnv n => n.closureEntry.toList
  | _ => []

/-- The regions that a payload refers to. -/
def regionRefs : NodePayload → List RegionId
  | .allocation n => [n.regionId]
  | .deallocation n => [n.regionId]
  | .access n => [n.regionId]
  | _ => []

def rename (ρ : Renaming) : NodePayload → NodePayload
  | .allocation n => .allocation { n with regionId := ρ.region n.regionId }
  | .deallocation n => .deallocation ⟨ρ.node n.allocationNode, ρ.region n.regionId⟩
  | .access n => .access { n with regionId := ρ.region n.regionId }
  | .vTable n => .vTable { n with methodEntries := n.methodEntries.map ρ.node }
  | .closureEnv n => .closureEnv { n with closureEntry := n.closureEntry.map ρ.node }
  | p => p

end NodePayload

namespace EdgeKind

def nodeRefs : EdgeKind → List NodeId
  | .call fromNode toNode _ => [fromNode, toNode]
  | .ret fromNode toNode returnValues => fromNode :: toNode :: returnValues
  | _ => []

def regionRefs : EdgeKind → List RegionId
  | .call _ _ callerRegion => [callerRegion]
  | _ => []

def rename (ρ : Renaming) : EdgeKind → EdgeKind
  | .call fromNode toNode callerRegion =>
    .call (ρ.node fromNode) (ρ.node toNode) (ρ.region callerRegion)
  | .ret fromNode toNode returnValues =>
    .ret (ρ.node fromNode) (ρ.node toNode) (returnValues.map ρ.node)
  | k => k

end EdgeKind

def NodeData.rename (ρ : Renaming) (d : NodeData) : NodeData :=
  { d with id := ρ.node d.id, payload := d.payload.rename ρ }

def EdgeData.rename (ρ : Renaming) (d : EdgeData) : EdgeData :=
  { d with
    id := ρ.edge d.id
    source := ρ.node d.source
    target := ρ.node d.target
    kind := d.kind.rename ρ }

/-- A member of a region that is no node of the graph is left out. -/
def SCGRegion.rename (ρ : Renaming) (isNode : NodeId → Bool) (r : SCGRegion) : SCGRegion :=
  { r with id := ρ.region r.id, nodes := (r.nodes.filter fun n => isNode n).image ρ.node }

/-- The elements of one sort after the merge: the own ones are as they were, the other ones have new
identifiers, and there are no more. -/
structure Placed {α : Type} (own other merged : UInt64 → Option α) (ρ : UInt64 → UInt64)
    (rename : α → α) : Prop where
  kept : ∀ id d, own id = some d → merged id = some d
  fresh : ∀ id, (other id).isSome → own (ρ id) = none
  injective : ∀ id id', (other id).isSome → (other id').isSome → ρ id = ρ id' → id = id'
  renamed : ∀ id d, other id = some d → merged (ρ id) = some (rename d)
  only : ∀ id, (merged id).isSome → (own id).isSome ∨ ∃ id', (other id').isSome ∧ ρ id' = id
  elsewhere : ∀ id, other id = none → ρ id = id

/-- The second graph keeps its meaning under a renaming. -/
structure MergeKeeps (ρ : Renaming) (own other merged : Content) : Prop where
  nodes : Placed own.nodes other.nodes merged.nodes ρ.node (NodeData.rename ρ)
  edges : Placed own.edges other.edges merged.edges ρ.edge (EdgeData.rename ρ)
  regions : Placed own.regions other.regions merged.regions ρ.region
    (SCGRegion.rename ρ fun n => (other.nodes n).isSome)

/-- The identifier that the element at a place of a loop gets. -/
def newId (start : UInt64) (ids : List UInt64) (id : UInt64) : UInt64 :=
  if id ∈ ids then start + UInt64.ofNat (ids.idxOf id) else id

/-- The renaming of a merge, of which it returns the part for the nodes. -/
def mergeRenaming (it : KeyOrder RegionId) (g other : SCG) : Renaming where
  node := newId g.nextNodeId (other.nodes.map NodeData.id)
  edge := newId g.nextEdgeId (other.edges.map EdgeData.id)
  region := newId g.nextRegionId ((other.regionsIn it).map SCGRegion.id)

/-- What the second graph refers to in its payloads and edge kinds keeps its identifier. -/
structure RefsStay (ρ : Renaming) (other : Content) : Prop where
  nodes : ∀ id d, other.nodes id = some d →
    (∀ r ∈ d.payload.nodeRefs, ρ.node r = r) ∧ ∀ r ∈ d.payload.regionRefs, ρ.region r = r
  edges : ∀ id d, other.edges id = some d →
    (∀ r ∈ d.kind.nodeRefs, ρ.node r = r) ∧ ∀ r ∈ d.kind.regionRefs, ρ.region r = r

/-- The counters do not run over. -/
structure MergeFits (it : KeyOrder RegionId) (g other : SCG) : Prop where
  nodes : g.nextNodeId.toNat + other.nodes.length < 2 ^ 64
  edges : g.nextEdgeId.toNat + other.edges.length < 2 ^ 64
  regions : (g.regions.keys.foldl max 0).toNat + (other.regionsIn it).length < 2 ^ 64

/-! ## What a renaming leaves alone -/

theorem map_eq_self_iff {l : List UInt64} {f : UInt64 → UInt64} :
    l.map f = l ↔ ∀ r ∈ l, f r = r := by
  have h := @List.map_inj_left _ _ l f fun r => r
  rwa [List.map_id'] at h

theorem NodePayload.rename_eq_self_iff {ρ : Renaming} {p : NodePayload} :
    p.rename ρ = p ↔ (∀ r ∈ p.nodeRefs, ρ.node r = r) ∧ ∀ r ∈ p.regionRefs, ρ.region r = r := by
  cases p with
  | allocation n =>
    obtain ⟨size, align, regionId, typeName⟩ := n
    simp [rename, nodeRefs, regionRefs]
  | deallocation n => obtain ⟨a, r⟩ := n; simp [rename, nodeRefs, regionRefs]
  | access n => obtain ⟨mode, regionId, offset, size⟩ := n; simp [rename, nodeRefs, regionRefs]
  | vTable n =>
    obtain ⟨t, c, entries⟩ := n
    simp [rename, nodeRefs, regionRefs, map_eq_self_iff]
  | closureEnv n =>
    obtain ⟨vars, modes, entry⟩ := n
    cases entry <;> simp [rename, nodeRefs, regionRefs]
  | _ => simp [rename, nodeRefs, regionRefs]

theorem EdgeKind.rename_eq_self_iff {ρ : Renaming} {k : EdgeKind} :
    k.rename ρ = k ↔ (∀ r ∈ k.nodeRefs, ρ.node r = r) ∧ ∀ r ∈ k.regionRefs, ρ.region r = r := by
  cases k with
  | call f t r => simp [rename, nodeRefs, regionRefs, and_assoc]
  | ret f t vs => simp [rename, nodeRefs, regionRefs, map_eq_self_iff]
  | _ => simp [rename, nodeRefs, regionRefs]

/-! ## Placing elements one after the other -/

section Place

variable {α : Type}

/-- The elements of a list under the identifiers from `start` on, and the others as before. -/
def place (old : UInt64 → Option α) (start : Nat) (setId : UInt64 → α → α) (l : List α) :
    UInt64 → Option α :=
  fun id => if id.toNat < start then old id else l[id.toNat - start]?.map (setId id)

theorem place_nil {old : UInt64 → Option α} {start : Nat} (setId : UInt64 → α → α)
    (h : ∀ id, start ≤ id.toNat → old id = none) : place old start setId [] = old := by
  funext id
  rw [place]
  split_ifs with hlt
  · rfl
  · exact (h id (Nat.le_of_not_lt hlt)).symm

theorem place_cons (old : UInt64 → Option α) {start : Nat} (setId : UInt64 → α → α) (d : α)
    (l : List α) (h : start < 2 ^ 64) :
    place (Function.update old (.ofNat start) (some (setId (.ofNat start) d))) (start + 1) setId l =
      place old start setId (d :: l) := by
  funext id
  have hid : id = .ofNat start ↔ id.toNat = start := by
    constructor
    · rintro rfl
      exact UInt64.toNat_ofNat_of_lt' h
    · rintro rfl
      exact (UInt64.ofNat_toNat).symm
  rw [place, place]
  rcases Nat.lt_trichotomy id.toNat start with hlt | heq | hgt
  · rw [if_pos (by omega), if_pos hlt, Function.update_of_ne]
    rw [ne_eq, hid]
    omega
  · rw [if_pos (by omega), if_neg (by omega), hid.2 heq, Function.update_self,
      UInt64.toNat_ofNat_of_lt' h, Nat.sub_self]
    rfl
  · rw [if_neg (by omega), if_neg (by omega)]
    obtain ⟨k, hk⟩ : ∃ k, id.toNat - start = k + 1 := ⟨id.toNat - start - 1, by omega⟩
    rw [hk, List.getElem?_cons_succ]
    congr 2
    omega

/-! ### What is placed -/

theorem newId_cons {start i id : UInt64} {ids : List UInt64} :
    newId start (i :: ids) id = if id = i then start else
      if id ∈ ids then newId (start + 1) ids id else id := by
  rw [newId, newId]
  by_cases heq : id = i
  · subst heq
    simp
  · by_cases hmem : id ∈ ids
    · rw [if_pos (List.mem_cons_of_mem i hmem), if_neg heq, if_pos hmem, if_pos hmem,
        List.idxOf_cons_ne _ (Ne.symm heq), Nat.succ_eq_add_one, UInt64.ofNat_add, UInt64.add_assoc,
        UInt64.add_comm 1]
      rfl
    · rw [if_neg (by simp [heq, hmem]), if_neg heq, if_neg hmem]

theorem toNat_newId {start id : UInt64} {ids : List UInt64}
    (h : start.toNat + ids.length ≤ 2 ^ 64) (hid : id ∈ ids) :
    (newId start ids id).toNat = start.toNat + ids.idxOf id := by
  have hlt := List.idxOf_lt_length_of_mem hid
  rw [newId, if_pos hid, UInt64.toNat_add, UInt64.toNat_ofNat']
  omega

/-- The elements of a list are placed as a renaming asks for exactly when each of them is. -/
theorem placed_place_iff {own other : UInt64 → Option α} {start : UInt64} {idOf : α → UInt64}
    {setId : UInt64 → α → α} {rename : α → α} {l : List α}
    (hfree : ∀ id, start.toNat ≤ id.toNat → own id = none)
    (hfits : start.toNat + l.length ≤ 2 ^ 64) (hnodup : (l.map idOf).Nodup)
    (hother : ∀ id d, other id = some d ↔ d ∈ l ∧ idOf d = id) :
    Placed own other (place own start.toNat setId l) (newId start (l.map idOf)) rename ↔
      ∀ d ∈ l, setId (newId start (l.map idOf) (idOf d)) d = rename d := by
  have hfits' : start.toNat + (l.map idOf).length ≤ 2 ^ 64 := by simpa using hfits
  have hmem : ∀ id, (other id).isSome ↔ id ∈ l.map idOf := by
    intro id
    rw [Option.isSome_iff_exists, List.mem_map]
    exact exists_congr fun d => hother id d
  -- an element is found where it was put
  have hget : ∀ d ∈ l, l[(l.map idOf).idxOf (idOf d)]? = some d := by
    intro d hd
    have hin : idOf d ∈ l.map idOf := List.mem_map_of_mem hd
    have hlt := List.idxOf_lt_length_of_mem hin
    have hlt' : (l.map idOf).idxOf (idOf d) < l.length := by simpa using hlt
    have hid := List.getElem_idxOf hlt
    rw [List.getElem_map] at hid
    have hsame := (hother _ _).2 ⟨List.getElem_mem hlt', hid⟩
    rw [(hother _ _).2 ⟨hd, rfl⟩] at hsame
    rw [List.getElem?_eq_getElem hlt']
    exact hsame.symm
  have hplace : ∀ d ∈ l, place own start.toNat setId l (newId start (l.map idOf) (idOf d)) =
      some (setId (newId start (l.map idOf) (idOf d)) d) := by
    intro d hd
    have hto := toNat_newId hfits' (List.mem_map_of_mem hd)
    rw [place, if_neg (by omega), hto, Nat.add_sub_cancel_left, hget d hd, Option.map_some]
  constructor
  · intro h d hd
    have hrenamed := h.renamed (idOf d) d ((hother _ _).2 ⟨hd, rfl⟩)
    rw [hplace d hd] at hrenamed
    exact Option.some.inj hrenamed
  · intro h
    refine ⟨fun id d hd => ?_, fun id hid => ?_, fun id id' hid hid' heq => ?_, fun id d hd => ?_,
      fun id hid => ?_, fun id hid => ?_⟩
    · have hlt : id.toNat < start.toNat := by
        by_contra hge
        rw [hfree id (Nat.le_of_not_lt hge)] at hd
        cases hd
      rw [place, if_pos hlt, hd]
    · apply hfree
      rw [toNat_newId hfits' ((hmem id).1 hid)]
      exact Nat.le_add_right _ _
    · have hto := congrArg UInt64.toNat heq
      rw [toNat_newId hfits' ((hmem id).1 hid), toNat_newId hfits' ((hmem id').1 hid')] at hto
      exact (List.idxOf_inj ((hmem id).1 hid)).1 (Nat.add_left_cancel hto)
    · obtain ⟨hdl, rfl⟩ := (hother id d).1 hd
      rw [hplace d hdl, h d hdl]
    · rw [place] at hid
      split_ifs at hid with hlt
      · exact .inl hid
      · rw [Option.isSome_map] at hid
        obtain ⟨d, hd⟩ := Option.isSome_iff_exists.1 hid
        obtain ⟨hk, hd⟩ := List.getElem?_eq_some_iff.1 hd
        have hk' : id.toNat - start.toNat < (l.map idOf).length := by simpa using hk
        have hidx := hnodup.idxOf_getElem _ hk'
        rw [List.getElem_map, hd] at hidx
        have hdl : d ∈ l := hd ▸ List.getElem_mem hk
        refine .inr ⟨idOf d, (hmem _).2 (List.mem_map_of_mem hdl), ?_⟩
        rw [← UInt64.toNat_inj, toNat_newId hfits' (List.mem_map_of_mem hdl), hidx]
        omega
    · rw [newId, if_neg]
      rw [← hmem, hid]
      simp

end Place

/-! ## The loops -/

theorem Follows.valid {g : SCG} {c : Content} (h : Follows (.ok g) (some c)) :
    g.Valid ∧ g.content = c := by
  cases h with
  | ok hg => exact ⟨hg, rfl⟩

namespace SCG

variable {g other : SCG}

theorem toNat_add_one {n : UInt64} (h : n.toNat < 2 ^ 64 - 1) : (n + 1).toNat = n.toNat + 1 := by
  rw [UInt64.toNat_add, UInt64.toNat_one]
  omega

theorem addNode_eq (hg : g.Valid) (t : NodeType) (p : NodePayload) (pp : ProgramPoint) :
    g.addNodeWithId g.nextNodeId t p pp = (.ok g.nextNodeId, (g.addNode t p pp).2) := by
  rw [addNodeWithId_of_none hg.lookup_nextNodeId, raise, if_pos (UInt64.le_refl _)]
  rfl

/-- A node of the other graph is added as an entry would add it. -/
theorem mergeNode_spec (hg : g.Valid) (hlt : g.nextNodeId.toNat < 2 ^ 64 - 1)
    (nodeMap : HashMap NodeId NodeId) (data : NodeData) :
    ∃ g', mergeNode (nodeMap, g) data = (nodeMap.insert data.id g.nextNodeId, g') ∧ g'.Valid ∧
      g'.nextNodeId = g.nextNodeId + 1 ∧ g'.nextEdgeId = g.nextEdgeId ∧ g'.regions = g.regions ∧
      g'.content = { g.content with
        nodes := Function.update g.getNode g.nextNodeId
          (some { data with id := g.nextNodeId }) } := by
  obtain ⟨id, t, ann, pp, p⟩ := data
  have hnone : g.getNode g.nextNodeId = none := hg.getNode_eq_none (UInt64.le_refl _)
  have hfollows := @Valid.follows_nodeAdded g hg ⟨g.nextNodeId, t, ann, pp, p⟩ hlt
  have hcontent : g.content.applyEntry (.nodeAdded ⟨g.nextNodeId, t, ann, pp, p⟩) =
      some { g.content with
        nodes := Function.update g.getNode g.nextNodeId (some ⟨g.nextNodeId, t, ann, pp, p⟩) } := by
    simp [Content.applyEntry, content, hnone]
  have happly : applyEntry g (.nodeAdded ⟨g.nextNodeId, t, ann, pp, p⟩) =
      .ok (mergeNode (nodeMap, g) ⟨id, t, ann, pp, p⟩).2 := by
    simp only [applyEntry, hnone, addNode_eq hg, mapErr, Outcome.ok_bind]
    cases ann <;> rfl
  rw [hcontent, happly] at hfollows
  obtain ⟨hvalid, hc⟩ := hfollows.valid
  refine ⟨(mergeNode (nodeMap, g) ⟨id, t, ann, pp, p⟩).2, rfl, hvalid, ?_, ?_, ?_, hc⟩
  all_goals
    rw [mergeNode]
    cases ann with
    | none => rfl
    | some ann =>
      simp only [modifyNode]
      split <;> rfl

theorem isSome_lookup (hg : g.Valid) {id : NodeId} (h : (g.getNode id).isSome) :
    ∃ idx, g.nodeIdToIndex.lookup id = some idx :=
  Option.isSome_iff_exists.1 (hg.isSome_getNode id ▸ h)

theorem addEdge_eq (hg : g.Valid) {source target : NodeId} (hs : (g.getNode source).isSome)
    (ht : (g.getNode target).isSome) (kind : EdgeKind) :
    g.addEdge source target kind = g.addEdgeWithId g.nextEdgeId source target kind := by
  obtain ⟨i, hi⟩ := isSome_lookup hg hs
  obtain ⟨j, hj⟩ := isSome_lookup hg ht
  rw [addEdge_of_some hi hj, addEdgeWithId_of_some hg.lookup_nextEdgeId hi hj, raise,
    if_pos (UInt64.le_refl _)]

/-- An edge of the other graph is added as an entry would add it. -/
theorem mergeEdge_spec (hg : g.Valid) (hlt : g.nextEdgeId.toNat < 2 ^ 64 - 1)
    {nodeMap : HashMap NodeId NodeId} {data : EdgeData} {source target : NodeId}
    (hsource : nodeMap.lookup data.source = some source)
    (htarget : nodeMap.lookup data.target = some target) (hs : (g.getNode source).isSome)
    (ht : (g.getNode target).isSome) :
    (mergeEdge nodeMap g data).Valid ∧ (mergeEdge nodeMap g data).nextEdgeId = g.nextEdgeId + 1 ∧
      (mergeEdge nodeMap g data).regions = g.regions ∧
      (mergeEdge nodeMap g data).content = { g.content with
        edges := Function.update g.getEdge g.nextEdgeId
          (some { data with id := g.nextEdgeId, source, target }) } := by
  obtain ⟨id, source', target', kind, label⟩ := data
  dsimp only at hsource htarget
  have hnone : g.getEdge g.nextEdgeId = none := hg.getEdge_eq_none (UInt64.le_refl _)
  have hfollows := @Valid.follows_edgeAdded g hg ⟨g.nextEdgeId, source, target, kind, label⟩ hlt
  have hcontent : g.content.applyEntry (.edgeAdded ⟨g.nextEdgeId, source, target, kind, label⟩) =
      some { g.content with
        edges := Function.update g.getEdge g.nextEdgeId
          (some ⟨g.nextEdgeId, source, target, kind, label⟩) } := by
    simp [Content.applyEntry, content, hnone, hs, ht]
  obtain ⟨i, hi⟩ := isSome_lookup hg hs
  obtain ⟨j, hj⟩ := isSome_lookup hg ht
  have hadd := addEdge_of_some hi hj kind
  have happly : applyEntry g (.edgeAdded ⟨g.nextEdgeId, source, target, kind, label⟩) =
      .ok (mergeEdge nodeMap g ⟨id, source', target', kind, label⟩) := by
    have hs' : (g.getNode source).isNone = false := by simpa using hs
    have ht' : (g.getNode target).isNone = false := by simpa using ht
    simp only [applyEntry, hnone, hs', ht', mergeEdge, hsource, htarget, Option.getD_some, hadd,
      ← addEdge_eq hg hs ht kind, mapErr, Outcome.ok_bind]
    cases label <;> rfl
  rw [hcontent, happly] at hfollows
  obtain ⟨hvalid, hc⟩ := hfollows.valid
  refine ⟨hvalid, ?_, ?_, hc⟩
  all_goals
    simp only [mergeEdge, hsource, htarget, Option.getD_some, hadd]
    cases label with
    | none => rfl
    | some label =>
      simp only [modifyEdge]
      split <;> rfl

/-- The nodes of the other graph, from the first that is left on. -/
theorem foldl_mergeNode (hg : g.Valid) {l : List NodeData} (hnodup : (l.map NodeData.id).Nodup)
    (hfits : g.nextNodeId.toNat + l.length < 2 ^ 64) (nodeMap : HashMap NodeId NodeId) :
    ∃ nodeMap' g', l.foldl mergeNode (nodeMap, g) = (nodeMap', g') ∧ g'.Valid ∧
      g'.nextEdgeId = g.nextEdgeId ∧ g'.regions = g.regions ∧
      (∀ id, nodeMap'.lookup id = if id ∈ l.map NodeData.id then
        some (newId g.nextNodeId (l.map NodeData.id) id) else nodeMap.lookup id) ∧
      g'.content = { g.content with
        nodes := place g.getNode g.nextNodeId.toNat (fun id d => { d with id }) l } := by
  induction l generalizing g nodeMap with
  | nil =>
    refine ⟨nodeMap, g, rfl, hg, rfl, rfl, fun id => ?_, ?_⟩
    · simp
    · rw [place_nil]
      · rfl
      · exact fun id hid => hg.getNode_eq_none (UInt64.le_iff_toNat_le.2 hid)
  | cons d l ih =>
    rw [List.map_cons, List.nodup_cons] at hnodup
    rw [List.length_cons] at hfits
    have hlt : g.nextNodeId.toNat < 2 ^ 64 - 1 := by omega
    obtain ⟨g₁, hmerge, hg₁, hnext, hedge, hregions, hc⟩ := mergeNode_spec hg hlt nodeMap d
    have hnext' : g₁.nextNodeId.toNat = g.nextNodeId.toNat + 1 := by
      rw [hnext, toNat_add_one hlt]
    obtain ⟨nodeMap', g', hfold, hg', hedge', hregions', hmap, hc'⟩ :=
      ih hg₁ hnodup.2 (by omega) (nodeMap.insert d.id g.nextNodeId)
    refine ⟨nodeMap', g', ?_, hg', hedge'.trans hedge, hregions'.trans hregions, fun id => ?_, ?_⟩
    · rw [List.foldl_cons, hmerge, hfold]
    · rw [hmap, HashMap.lookup_insert_ite, List.map_cons, newId_cons, hnext]
      by_cases heq : id = d.id
      · subst heq
        simp [hnodup.1]
      · simp only [heq, if_false, List.mem_cons, false_or]
        split_ifs <;> rfl
    · have hnodes : g₁.getNode = _ := congrArg Content.nodes hc
      rw [hc', hc, hnodes, hnext']
      have hplace := place_cons g.getNode (fun id d => { d with id }) d l
        (Nat.lt_of_lt_of_le hlt (Nat.sub_le _ _))
      rw [UInt64.ofNat_toNat] at hplace
      rw [hplace]

/-- The edges, of which both ends are there. -/
theorem foldl_mergeEdge (hg : g.Valid) {l : List EdgeData} {ρ : NodeId → NodeId}
    {nodeMap : HashMap NodeId NodeId}
    (hends : ∀ d ∈ l, nodeMap.lookup d.source = some (ρ d.source) ∧
      nodeMap.lookup d.target = some (ρ d.target) ∧ (g.getNode (ρ d.source)).isSome ∧
      (g.getNode (ρ d.target)).isSome)
    (hfits : g.nextEdgeId.toNat + l.length < 2 ^ 64) :
    ∃ g', l.foldl (mergeEdge nodeMap) g = g' ∧ g'.Valid ∧ g'.regions = g.regions ∧
      g'.content = { g.content with
        edges := place g.getEdge g.nextEdgeId.toNat
          (fun id d => { d with id, source := ρ d.source, target := ρ d.target }) l } := by
  induction l generalizing g with
  | nil =>
    refine ⟨g, rfl, hg, rfl, ?_⟩
    rw [place_nil]
    · rfl
    · exact fun id hid => hg.getEdge_eq_none (UInt64.le_iff_toNat_le.2 hid)
  | cons d l ih =>
    rw [List.length_cons] at hfits
    rw [List.forall_mem_cons] at hends
    obtain ⟨⟨hsource, htarget, hs, ht⟩, hends⟩ := hends
    have hlt : g.nextEdgeId.toNat < 2 ^ 64 - 1 := by omega
    obtain ⟨hg₁, hnext, hregions, hc⟩ := mergeEdge_spec hg hlt hsource htarget hs ht
    have hnext' : (mergeEdge nodeMap g d).nextEdgeId.toNat = g.nextEdgeId.toNat + 1 := by
      rw [hnext, toNat_add_one hlt]
    have hnodes : (mergeEdge nodeMap g d).getNode = g.getNode := congrArg Content.nodes hc
    obtain ⟨g', hfold, hg', hregions', hc'⟩ := ih hg₁ (by rwa [hnodes]) (by omega)
    refine ⟨g', hfold, hg', hregions'.trans hregions, ?_⟩
    have hedges : (mergeEdge nodeMap g d).getEdge = _ := congrArg Content.edges hc
    have hplace := place_cons g.getEdge
      (fun id (d : EdgeData) => { d with id, source := ρ d.source, target := ρ d.target }) d l
      (Nat.lt_of_lt_of_le hlt (Nat.sub_le _ _))
    rw [UInt64.ofNat_toNat] at hplace
    rw [hc', hc, hedges, hnext', hplace]

/-! ### Regions -/

theorem max_eq_or (a b : UInt64) : a ≤ max a b ∧ b ≤ max a b ∧ (max a b = a ∨ max a b = b) := by
  change a ≤ (if a ≤ b then b else a) ∧ b ≤ (if a ≤ b then b else a) ∧ _
  split_ifs with h
  · exact ⟨h, UInt64.le_refl b, .inr (if_pos h)⟩
  · exact ⟨UInt64.le_refl a, UInt64.le_of_lt (UInt64.not_le.1 h), .inl (if_neg h)⟩

theorem foldl_max_spec (l : List UInt64) (a : UInt64) :
    a ≤ l.foldl max a ∧ (∀ k ∈ l, k ≤ l.foldl max a) ∧
      (l.foldl max a = a ∨ l.foldl max a ∈ l) := by
  induction l generalizing a with
  | nil => exact ⟨UInt64.le_refl a, nofun, .inl rfl⟩
  | cons k l ih =>
    obtain ⟨ha, hk, hmax⟩ := max_eq_or a k
    obtain ⟨hle, hall, heq⟩ := ih (max a k)
    rw [List.foldl_cons]
    refine ⟨UInt64.le_trans ha hle, ?_, ?_⟩
    · rw [List.forall_mem_cons]
      exact ⟨UInt64.le_trans hk hle, hall⟩
    · rcases heq with heq | heq
      · rw [heq]
        rcases hmax with hmax | hmax
        · exact .inl hmax
        · rw [hmax]
          exact .inr List.mem_cons_self
      · exact .inr (List.mem_cons_of_mem k heq)

/-- The greatest identifier of a region. -/
def maxRegionId (g : SCG) : RegionId := g.regions.keys.foldl max 0

theorem getRegion_eq_none {id : RegionId} (h : g.maxRegionId < id) : g.getRegion id = none := by
  rw [getRegion, ← Option.not_isSome_iff_eq_none, ← HashMap.mem_keys_iff]
  intro hid
  exact UInt64.lt_irrefl _ (UInt64.lt_of_lt_of_le h ((foldl_max_spec _ 0).2.1 id hid))

theorem toNat_nextRegionId (h : g.maxRegionId.toNat < 2 ^ 64 - 1) :
    g.nextRegionId.toNat = g.maxRegionId.toNat + 1 := toNat_add_one h

theorem maxRegionId_addRegion (h : g.maxRegionId.toNat < 2 ^ 64 - 1) {region : SCGRegion}
    (hid : region.id = g.nextRegionId) : (g.addRegion region).maxRegionId = g.nextRegionId := by
  have hnext := toNat_nextRegionId h
  have hkeys : (g.addRegion region).regions.keys =
      g.nextRegionId :: g.regions.keys.erase g.nextRegionId := by
    rw [← hid]
    exact AList.keys_insert _
  obtain ⟨-, hall, heq⟩ := foldl_max_spec (g.addRegion region).regions.keys 0
  have hle : g.nextRegionId ≤ (g.addRegion region).maxRegionId :=
    hall _ (hkeys ▸ List.mem_cons_self)
  apply UInt64.le_antisymm _ hle
  rcases heq with heq | heq
  · change (g.addRegion region).maxRegionId = 0 at heq
    rw [heq]
    exact UInt64.zero_le
  · change (g.addRegion region).maxRegionId ∈ _ at heq
    rw [hkeys] at heq
    rcases List.mem_cons.1 heq with heq | heq
    · rw [heq]
      exact UInt64.le_refl _
    · have hold := (foldl_max_spec g.regions.keys 0).2.1 _ (List.mem_of_mem_erase heq)
      change _ ≤ g.maxRegionId at hold
      rw [UInt64.le_iff_toNat_le] at hold ⊢
      omega

/-- A region of the other graph, with its members in the merged one. -/
def movedRegion (nodeMap : HashMap NodeId NodeId) (id : RegionId) (region : SCGRegion) :
    SCGRegion :=
  { region with
    id
    nodes := (region.nodes.filter fun old => (nodeMap.lookup old).isSome).image fun old =>
      (nodeMap.lookup old).getD old }

theorem foldl_mergeRegion (nodeMap : HashMap NodeId NodeId) {l : List SCGRegion}
    (hfits : g.maxRegionId.toNat + l.length < 2 ^ 64) :
    (l.foldl (mergeRegion nodeMap) g).content = { g.content with
      regions := place g.getRegion (g.maxRegionId.toNat + 1) (movedRegion nodeMap) l } := by
  induction l generalizing g with
  | nil =>
    rw [place_nil]
    · rfl
    · exact fun id hid => getRegion_eq_none (UInt64.lt_iff_toNat_lt.2 hid)
  | cons r l ih =>
    rw [List.length_cons] at hfits
    have hlt : g.maxRegionId.toNat < 2 ^ 64 - 1 := by omega
    have hnext := toNat_nextRegionId hlt
    have hmax : (mergeRegion nodeMap g r).maxRegionId = g.nextRegionId :=
      maxRegionId_addRegion hlt rfl
    have hc : (mergeRegion nodeMap g r).content = { g.content with
        regions := Function.update g.getRegion g.nextRegionId
          (some (movedRegion nodeMap g.nextRegionId r)) } := content_addRegion _
    have hregions : (mergeRegion nodeMap g r).getRegion = _ := congrArg Content.regions hc
    rw [List.foldl_cons, ih (by rw [hmax, hnext]; omega), hc, hregions, hmax, hnext]
    have hplace := place_cons g.getRegion (movedRegion nodeMap) r l
      (show g.maxRegionId.toNat + 1 < 2 ^ 64 by omega)
    rw [← hnext, UInt64.ofNat_toNat, hnext] at hplace
    rw [hplace]

/-! ### The elements of the other graph -/

/-- The identifiers found in different slots are different. -/
theorem nodup_filterMap_ids {ι α : Type} {slots : List ι} (hslots : slots.Nodup)
    {weight : ι → Option α} {idOf : α → UInt64}
    (h : ∀ i j d d', weight i = some d → weight j = some d' → idOf d = idOf d' → i = j) :
    ((slots.filterMap weight).map idOf).Nodup := by
  rw [List.map_filterMap]
  refine hslots.filterMap fun i j id hi hj => ?_
  obtain ⟨d, hd, hid⟩ := Option.map_eq_some_iff.1 hi
  obtain ⟨d', hd', hid'⟩ := Option.map_eq_some_iff.1 hj
  exact h i j d d' hd hd' (hid.trans hid'.symm)

theorem nodup_nodeIds (hg : g.Valid) : (g.nodes.map NodeData.id).Nodup := by
  apply nodup_filterMap_ids (DiGraph.nodup_nodeIndices _)
  intro i j d d' hi hj hid
  refine hg.node_unique i j d.id ?_ ?_
  · rw [nodeIdAt, hi, Option.map_some]
  · rw [nodeIdAt, hj, Option.map_some, hid]

theorem nodup_edgeIds (hg : g.Valid) : (g.edges.map EdgeData.id).Nodup := by
  apply nodup_filterMap_ids (DiGraph.nodup_edgeIndices _)
  intro i j d d' hi hj hid
  refine hg.edge_unique i j d.id ?_ ?_
  · rw [edgeIdAt, hi, Option.map_some]
  · rw [edgeIdAt, hj, Option.map_some, hid]

theorem mem_regionsIn (it : KeyOrder RegionId) (hg : g.Valid) {id : RegionId} {r : SCGRegion} :
    g.getRegion id = some r ↔ r ∈ g.regionsIn it ∧ r.id = id := by
  rw [regionsIn, List.mem_filterMap]
  constructor
  · intro h
    refine ⟨⟨id, ?_, h⟩, hg.regions id r h⟩
    rw [(it.perm _).mem_iff, HashMap.mem_keys_iff]
    exact Option.isSome_of_eq_some h
  · rintro ⟨⟨k, -, hk⟩, hid⟩
    rwa [← hid, hg.regions k r hk]

theorem nodup_regionIds (it : KeyOrder RegionId) (hg : g.Valid) :
    ((g.regionsIn it).map SCGRegion.id).Nodup := by
  apply nodup_filterMap_ids (((it.perm _).nodup_iff).2 (AList.keys_nodup _))
  intro i j d d' hi hj hid
  rw [← hg.regions i d hi, ← hg.regions j d' hj, hid]

end SCG

/-! ## When the merge keeps the meaning -/

section Final

open SCG

variable {it : KeyOrder RegionId} {g other : SCG}

theorem content_merge (hg : g.Valid) (hother : other.Valid) (hfits : MergeFits it g other) :
    (∀ id, (g.merge it other).1.lookup id = if (other.getNode id).isSome then
      some ((mergeRenaming it g other).node id) else none) ∧
    (g.merge it other).2.content =
      ⟨place g.getNode g.nextNodeId.toNat (fun id d => { d with id }) other.nodes,
        place g.getEdge g.nextEdgeId.toNat (fun id d => { d with
          id
          source := (mergeRenaming it g other).node d.source
          target := (mergeRenaming it g other).node d.target }) other.edges,
        place g.getRegion (g.maxRegionId.toNat + 1) (movedRegion (g.merge it other).1)
          (other.regionsIn it)⟩ := by
  obtain ⟨nodeMap, g₁, hfold, hg₁, hedge, hregions, hmap, hc₁⟩ :=
    foldl_mergeNode hg (nodup_nodeIds hother) hfits.nodes ∅
  have hmem : ∀ id, id ∈ other.nodes.map NodeData.id ↔ (other.getNode id).isSome := by
    intro id
    rw [Option.isSome_iff_exists, List.mem_map]
    exact exists_congr fun d => (mem_nodes hother).symm
  have hlookup : ∀ id, nodeMap.lookup id = if (other.getNode id).isSome then
      some ((mergeRenaming it g other).node id) else none := by
    intro id
    rw [hmap, AList.lookup_empty]
    simp only [hmem]
    rfl
  have hnodes₁ : g₁.getNode = _ := congrArg Content.nodes hc₁
  have hplaced : Placed g.getNode other.getNode
      (place g.getNode g.nextNodeId.toNat (fun id d => { d with id }) other.nodes)
      (mergeRenaming it g other).node
      fun d => { d with id := (mergeRenaming it g other).node d.id } :=
    (placed_place_iff (fun id hid => hg.getNode_eq_none (UInt64.le_iff_toNat_le.2 hid))
      (Nat.le_of_lt hfits.nodes) (nodup_nodeIds hother) fun id d => mem_nodes hother).2
      fun d _ => rfl
  have hends : ∀ id, (other.getNode id).isSome →
      nodeMap.lookup id = some ((mergeRenaming it g other).node id) ∧
        (g₁.getNode ((mergeRenaming it g other).node id)).isSome := by
    intro id hid
    refine ⟨by rw [hlookup, if_pos hid], ?_⟩
    obtain ⟨d, hd⟩ := Option.isSome_iff_exists.1 hid
    rw [hnodes₁]
    exact Option.isSome_of_eq_some (hplaced.renamed id d hd)
  obtain ⟨g₂, hfold₂, -, hregions₂, hc₂⟩ := @foldl_mergeEdge g₁ hg₁ other.edges
    (mergeRenaming it g other).node nodeMap (fun d hd => by
      have hget := (mem_edges hother).2 ⟨hd, rfl⟩
      have hs := hends _ (hother.closed.source _ d hget)
      have ht := hends _ (hother.closed.target _ d hget)
      exact ⟨hs.1, ht.1, hs.2, ht.2⟩) (by rw [hedge]; exact hfits.edges)
  have hmax : g₂.maxRegionId = g.maxRegionId := by
    rw [maxRegionId, hregions₂, hregions]
    rfl
  have hfits₂ : g₂.maxRegionId.toNat + (other.regionsIn it).length < 2 ^ 64 := by
    rw [hmax]
    exact hfits.regions
  have hmerge : g.merge it other =
      (nodeMap, (other.regionsIn it).foldl (mergeRegion nodeMap) g₂) := by
    rw [merge, hfold]
    dsimp only
    rw [hfold₂]
  have hedges₁ : g₁.getEdge = g.getEdge := congrArg Content.edges hc₁
  have hregions' : g₂.getRegion = g.getRegion := by
    funext id
    rw [getRegion, getRegion, hregions₂, hregions]
  rw [hmerge]
  refine ⟨hlookup, ?_⟩
  dsimp only
  rw [foldl_mergeRegion nodeMap hfits₂, hmax, hregions']
  refine Content.ext ?_ ?_ rfl
  · exact (congrArg Content.nodes hc₂).trans hnodes₁
  · refine (congrArg Content.edges hc₂).trans ?_
    dsimp only
    rw [hedges₁, hedge]

theorem placed_regions (hg : g.Valid) (hother : other.Valid) (hfits : MergeFits it g other) :
    Placed g.getRegion other.getRegion
      (place g.getRegion (g.maxRegionId.toNat + 1) (movedRegion (g.merge it other).1)
        (other.regionsIn it)) (mergeRenaming it g other).region
      (SCGRegion.rename (mergeRenaming it g other) fun n => (other.getNode n).isSome) := by
  have hmap := (content_merge hg hother hfits).1
  have hmem := fun id r => @mem_regionsIn other it hother id r
  have hfree : ∀ id, g.maxRegionId.toNat + 1 ≤ id.toNat → g.getRegion id = none := fun id hid =>
    getRegion_eq_none (UInt64.lt_iff_toNat_lt.2 hid)
  cases hl : other.regionsIn it with
  | nil =>
    have hnone : ∀ id, other.getRegion id = none := by
      intro id
      rw [Option.eq_none_iff_forall_ne_some]
      intro r hr
      rw [hmem, hl] at hr
      cases hr.1
    rw [place_nil _ hfree]
    have hρ : ∀ id, (mergeRenaming it g other).region id = id := by
      intro id
      simp [mergeRenaming, newId, hl]
    refine ⟨fun _ _ h => h, ?_, ?_, ?_, fun _ h => .inl h, fun id _ => hρ id⟩
    all_goals
      intro id
      simp [hnone]
  | cons r l =>
    have hlt : g.maxRegionId.toNat < 2 ^ 64 - 1 := by
      have hle := hfits.regions
      rw [hl, List.length_cons] at hle
      change g.maxRegionId.toNat + _ < _ at hle
      omega
    have hnext := toNat_nextRegionId hlt
    rw [← hnext] at hfree ⊢
    have hlength : g.nextRegionId.toNat + (other.regionsIn it).length ≤ 2 ^ 64 := by
      have hle := hfits.regions
      change g.maxRegionId.toNat + _ < _ at hle
      omega
    rw [← hl]
    refine (placed_place_iff hfree hlength (nodup_regionIds it hother) hmem).2 fun r _ => ?_
    have hnodes : ((r.nodes.filter fun old => ((g.merge it other).1.lookup old).isSome).image
        fun old => ((g.merge it other).1.lookup old).getD old) =
        (r.nodes.filter fun old => (other.getNode old).isSome).image
          (mergeRenaming it g other).node := by
      have hsome : ∀ old, ((g.merge it other).1.lookup old).isSome =
          (other.getNode old).isSome := by
        intro old
        rw [hmap]
        split_ifs with h
        · exact h.symm
        · exact (Bool.eq_false_iff.2 h).symm
      simp only [hsome]
      refine Finset.image_congr fun old hold => ?_
      have hin := (Finset.mem_filter.1 hold).2
      rw [hmap, if_pos hin, Option.getD_some]
    rw [movedRegion, SCGRegion.rename, hnodes]
    rfl

/-- The merged graph keeps the own elements, and the meaning of the other graph under the renaming
of the merge, exactly when no payload and no edge kind of the other graph refers to something that
is renamed. -/
theorem mergeKeeps_iff (it : KeyOrder RegionId) (g other : SCG) (hg : g.Built)
    (hother : other.Built) (hfits : MergeFits it g other) :
    MergeKeeps (mergeRenaming it g other) g.content other.content
        (g.merge it other).2.content ∧
      (∀ id, (g.merge it other).1.lookup id = if (other.getNode id).isSome then
        some ((mergeRenaming it g other).node id) else none) ↔
      RefsStay (mergeRenaming it g other) other.content := by
  have hg := hg.valid
  have hother := hother.valid
  obtain ⟨hmap, hcontent⟩ := content_merge hg hother hfits
  have hregions := placed_regions hg hother hfits
  have hnodes := @placed_place_iff _ g.getNode other.getNode g.nextNodeId NodeData.id
    (fun id d => { d with id }) (NodeData.rename (mergeRenaming it g other)) other.nodes
    (fun id hid => hg.getNode_eq_none (UInt64.le_iff_toNat_le.2 hid)) (Nat.le_of_lt hfits.nodes)
    (nodup_nodeIds hother) fun id d => mem_nodes hother
  have hedges := @placed_place_iff _ g.getEdge other.getEdge g.nextEdgeId EdgeData.id
    (fun id d => { d with
      id
      source := (mergeRenaming it g other).node d.source
      target := (mergeRenaming it g other).node d.target })
    (EdgeData.rename (mergeRenaming it g other)) other.edges
    (fun id hid => hg.getEdge_eq_none (UInt64.le_iff_toNat_le.2 hid)) (Nat.le_of_lt hfits.edges)
    (nodup_edgeIds hother) fun id d => mem_edges hother
  have hnode : ∀ d : NodeData, { d with id := (mergeRenaming it g other).node d.id } =
      d.rename (mergeRenaming it g other) ↔
        d.payload.rename (mergeRenaming it g other) = d.payload := by
    intro d
    rw [NodeData.rename, NodeData.mk.injEq]
    simp [eq_comm]
  have hedge : ∀ d : EdgeData, ({ d with
      id := (mergeRenaming it g other).edge d.id
      source := (mergeRenaming it g other).node d.source
      target := (mergeRenaming it g other).node d.target } : EdgeData) =
      d.rename (mergeRenaming it g other) ↔ d.kind.rename (mergeRenaming it g other) = d.kind := by
    intro d
    rw [EdgeData.rename, EdgeData.mk.injEq]
    simp [eq_comm]
  rw [and_iff_left hmap, hcontent]
  constructor
  · intro h
    refine ⟨fun id d hd => ?_, fun id d hd => ?_⟩
    · obtain ⟨hmem, -⟩ := (mem_nodes hother).1 hd
      exact NodePayload.rename_eq_self_iff.1 ((hnode d).1 (hnodes.1 h.nodes d hmem))
    · obtain ⟨hmem, -⟩ := (mem_edges hother).1 hd
      exact EdgeKind.rename_eq_self_iff.1 ((hedge d).1 (hedges.1 h.edges d hmem))
  · intro h
    refine ⟨hnodes.2 fun d hd => (hnode d).2 (NodePayload.rename_eq_self_iff.2 ?_),
      hedges.2 fun d hd => (hedge d).2 (EdgeKind.rename_eq_self_iff.2 ?_), hregions⟩
    · exact h.nodes d.id d ((mem_nodes hother).2 ⟨hd, rfl⟩)
    · exact h.edges d.id d ((mem_edges hother).2 ⟨hd, rfl⟩)

end Final

theorem mergeKeeps_oneEdge :
    MergeKeeps (mergeRenaming .id (SCG.new.run oneEdge) (SCG.new.run oneEdge))
        (SCG.new.run oneEdge).content (SCG.new.run oneEdge).content
        ((SCG.new.run oneEdge).merge .id (SCG.new.run oneEdge)).2.content ∧
      (∀ id, ((SCG.new.run oneEdge).merge .id (SCG.new.run oneEdge)).1.lookup id =
        if ((SCG.new.run oneEdge).getNode id).isSome then
          some ((mergeRenaming .id (SCG.new.run oneEdge) (SCG.new.run oneEdge)).node id)
        else none) := by
  apply (mergeKeeps_iff .id _ _ built_oneEdge built_oneEdge ⟨by decide, by decide, by decide⟩).2
  constructor
  · intro id d hd
    obtain ⟨hmem, -⟩ := (SCG.mem_nodes built_oneEdge.valid).1 hd
    have hnodes : ∀ d ∈ (SCG.new.run oneEdge).nodes,
        d.payload.nodeRefs = [] ∧ d.payload.regionRefs = [] := by decide
    rw [(hnodes d hmem).1, (hnodes d hmem).2]
    exact ⟨nofun, nofun⟩
  · intro id d hd
    obtain ⟨hmem, -⟩ := (SCG.mem_edges built_oneEdge.valid).1 hd
    have hedges : ∀ d ∈ (SCG.new.run oneEdge).edges,
        d.kind.nodeRefs = [] ∧ d.kind.regionRefs = [] := by decide
    rw [(hedges d hmem).1, (hedges d hmem).2]
    exact ⟨nofun, nofun⟩

/-- An allocation and its deallocation. -/
def allocated : List Op :=
  [.addNode .allocation (.allocation ⟨8, 8, 0, none⟩) ⟨none, none, none, none⟩,
    .addNode .deallocation (.deallocation ⟨0, 0⟩) ⟨none, none, none, none⟩]

theorem built_allocated : (SCG.new.run allocated).Built := by
  refine ⟨allocated, ⟨?_, ?_, trivial⟩, rfl⟩ <;> rintro id (h | h) <;> cases h <;> decide

/-- The deallocation of the other graph refers to the first node of the own graph. -/
theorem not_mergeKeeps :
    (SCG.new.run twoNodes).Built ∧ (SCG.new.run allocated).Built ∧
      MergeFits .id (SCG.new.run twoNodes) (SCG.new.run allocated) ∧
      ¬ ∃ ρ, MergeKeeps ρ (SCG.new.run twoNodes).content (SCG.new.run allocated).content
        ((SCG.new.run twoNodes).merge .id (SCG.new.run allocated)).2.content := by
  refine ⟨built_twoNodes, built_allocated, ⟨by decide, by decide, by decide⟩, ?_⟩
  rintro ⟨ρ, h⟩
  -- every deallocation of the merged graph is of the node 0
  have hpayloads : ∀ id d n, ((SCG.new.run twoNodes).merge .id (SCG.new.run allocated)).2.getNode
      id = some d → d.payload = .deallocation n → n.allocationNode = 0 := by
    intro id d n hd hn
    have hid : id ∈ ((SCG.new.run twoNodes).merge .id
        (SCG.new.run allocated)).2.nodeIdToIndex.keys := by
      obtain ⟨idx, hidx, -⟩ := Option.bind_eq_some_iff.1 hd
      exact HashMap.mem_keys_iff.2 (Option.isSome_of_eq_some hidx)
    have hkeys : ((SCG.new.run twoNodes).merge .id
        (SCG.new.run allocated)).2.nodeIdToIndex.keys = [3, 2, 1, 0] := rfl
    rw [hkeys] at hid
    simp only [List.mem_cons, List.not_mem_nil, or_false] at hid
    rcases hid with rfl | rfl | rfl | rfl <;> cases hd <;> cases hn
    rfl
  have hrenamed := h.nodes.renamed 1 ⟨1, .deallocation, none, ⟨none, none, none, none⟩,
    .deallocation ⟨0, 0⟩⟩ rfl
  have hzero : ρ.node 0 = 0 := hpayloads _ _ _ hrenamed rfl
  have hfresh := h.nodes.fresh 0 rfl
  rw [hzero] at hfresh
  cases hfresh

end Vuma.Scg
