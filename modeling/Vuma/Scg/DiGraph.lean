import Mathlib

/-!
# Directed graphs with stable indices

`DiGraph` of `digraph.rs`: a table of nodes and a table of edges, where a removed element leaves an
empty slot, and for each node the slots of its outgoing and incoming edges. `DiGraph.Valid` is what
the two tables promise each other; every operation keeps it, and is described by what it does to the
node weights and to the edges.
-/

namespace Vuma.Scg

inductive Direction where
  | outgoing | incoming
  deriving DecidableEq, Repr

/-- `NodeEntry`: the weight and the slots of the edges at the node. -/
structure NodeEntry (N : Type) where
  weight : N
  adjOut : List Nat
  adjIn : List Nat
  deriving Repr

/-- `EdgeEntry`: the weight and the slots of the endpoints. -/
structure EdgeEntry (E : Type) where
  weight : E
  source : Nat
  target : Nat
  deriving Repr

namespace NodeEntry

variable {N : Type}

/-- The edges at the node in a direction. -/
def adj (d : Direction) (entry : NodeEntry N) : List Nat :=
  match d with
  | .outgoing => entry.adjOut
  | .incoming => entry.adjIn

/-- Change the edges at the node in a direction. -/
def modifyAdj (d : Direction) (f : List Nat → List Nat) (entry : NodeEntry N) : NodeEntry N :=
  match d with
  | .outgoing => { entry with adjOut := f entry.adjOut }
  | .incoming => { entry with adjIn := f entry.adjIn }

@[simp] theorem modifyAdj_weight (d : Direction) (f : List Nat → List Nat) (entry : NodeEntry N) :
    (entry.modifyAdj d f).weight = entry.weight := by
  cases d <;> rfl

theorem modifyAdj_adj (d d' : Direction) (f : List Nat → List Nat) (entry : NodeEntry N) :
    (entry.modifyAdj d f).adj d' = if d' = d then f (entry.adj d') else entry.adj d' := by
  cases d <;> cases d' <;> rfl

end NodeEntry

/-- The endpoint whose list of edges in the direction has the edge. -/
def EdgeEntry.near {E : Type} (d : Direction) (entry : EdgeEntry E) : Nat :=
  match d with
  | .outgoing => entry.source
  | .incoming => entry.target

structure DiGraph (N E : Type) where
  nodes : List (Option (NodeEntry N))
  edges : List (Option (EdgeEntry E))
  numNodes : Nat
  numEdges : Nat
  deriving Repr

namespace DiGraph

variable {N E : Type}

def new : DiGraph N E := ⟨[], [], 0, 0⟩

/-- The node in a slot. -/
def node? (g : DiGraph N E) (n : Nat) : Option (NodeEntry N) := g.nodes[n]?.join

/-- The edge in a slot. -/
def edge? (g : DiGraph N E) (e : Nat) : Option (EdgeEntry E) := g.edges[e]?.join

def nodeWeight (g : DiGraph N E) (n : Nat) : Option N := (g.node? n).map NodeEntry.weight

def edgeWeight (g : DiGraph N E) (e : Nat) : Option E := (g.edge? e).map EdgeEntry.weight

def nodeIndices (g : DiGraph N E) : List Nat :=
  (List.range g.nodes.length).filter fun n => (g.node? n).isSome

def edgeIndices (g : DiGraph N E) : List Nat :=
  (List.range g.edges.length).filter fun e => (g.edge? e).isSome

/-- The indices of `edges_directed`. -/
def edgesDirected (g : DiGraph N E) (n : Nat) (d : Direction) : List Nat :=
  match g.node? n with
  | none => []
  | some entry => (entry.adj d).filter fun e => (g.edge? e).isSome

/-- Change the node in a slot, when there is one. -/
def modifyNode (g : DiGraph N E) (n : Nat) (f : NodeEntry N → NodeEntry N) : DiGraph N E :=
  { g with nodes := g.nodes.modify n (Option.map f) }

/-- `node_weight_mut`. -/
def modifyNodeWeight (g : DiGraph N E) (n : Nat) (f : N → N) : DiGraph N E :=
  g.modifyNode n fun entry => { entry with weight := f entry.weight }

/-- `edge_weight_mut`. -/
def modifyEdgeWeight (g : DiGraph N E) (e : Nat) (f : E → E) : DiGraph N E :=
  { g with edges := g.edges.modify e (Option.map fun en => { en with weight := f en.weight }) }

def addNode (g : DiGraph N E) (weight : N) : Nat × DiGraph N E :=
  (g.nodes.length,
    { g with nodes := g.nodes ++ [some ⟨weight, [], []⟩], numNodes := g.numNodes + 1 })

/-- Change the out-list of the source of an edge, then the in-list of its target. -/
def modifyEnds (g : DiGraph N E) (en : EdgeEntry E) (f : List Nat → List Nat) : DiGraph N E :=
  (g.modifyNode en.source (NodeEntry.modifyAdj .outgoing f)).modifyNode en.target
    (NodeEntry.modifyAdj .incoming f)

/-- `add_edge`; the callers make sure that the endpoints exist. -/
def addEdge (g : DiGraph N E) (a b : Nat) (weight : E) : Nat × DiGraph N E :=
  let eidx := g.edges.length
  let entry : EdgeEntry E := ⟨weight, a, b⟩
  (eidx, { g with edges := g.edges ++ [some entry], numEdges := g.numEdges + 1 }.modifyEnds entry
    (· ++ [eidx]))

/-- `remove_edge` and `remove_edge_inner`. -/
def removeEdge (g : DiGraph N E) (e : Nat) : Option E × DiGraph N E :=
  match g.edge? e with
  | none => (none, g)
  | some entry =>
    (some entry.weight,
      { g with edges := g.edges.set e none, numEdges := g.numEdges - 1 }.modifyEnds entry
        (·.filter (· ≠ e)))

/-- Removing some edges one after another. -/
def removeEdges (g : DiGraph N E) (es : List Nat) : DiGraph N E :=
  es.foldl (fun g e => (g.removeEdge e).2) g

/-- A node taken out of its slot, with its edges still there. -/
def vacate (g : DiGraph N E) (n : Nat) : DiGraph N E := { g with nodes := g.nodes.set n none }

/-- `remove_node`: the edges at the node go with it. -/
def removeNode (g : DiGraph N E) (n : Nat) : Option N × DiGraph N E :=
  match g.node? n with
  | none => (none, g)
  | some entry =>
    let g' := (g.vacate n).removeEdges (entry.adjOut ++ entry.adjIn)
    (some entry.weight, { g' with numNodes := g'.numNodes - 1 })

/-! ## The invariant -/

/-- The adjacency lists of the nodes hold exactly the live edges at them, each once, and the edges
are counted. -/
structure Adjacent (g : DiGraph N E) : Prop where
  nodup : ∀ d n entry, g.node? n = some entry → (entry.adj d).Nodup
  mem_iff : ∀ d n entry, g.node? n = some entry →
    ∀ e, e ∈ entry.adj d ↔ ∃ en, g.edge? e = some en ∧ en.near d = n
  numEdges_eq : g.numEdges = g.edges.countP Option.isSome

/-- Moreover the endpoints of live edges are live, and the nodes are counted. -/
structure Valid (g : DiGraph N E) : Prop extends Adjacent g where
  live : ∀ d e en, g.edge? e = some en → (g.node? (en.near d)).isSome
  numNodes_eq : g.numNodes = g.nodes.countP Option.isSome

theorem valid_new : (new : DiGraph N E).Valid where
  nodup := by simp [new, node?]
  mem_iff := by simp [new, node?]
  numEdges_eq := rfl
  live := by simp [new, edge?]
  numNodes_eq := rfl

section Slots

variable {g : DiGraph N E}

theorem lt_of_node?_eq_some {n : Nat} {entry : NodeEntry N} (h : g.node? n = some entry) :
    n < g.nodes.length := by
  by_contra hn
  simp [node?, List.getElem?_eq_none (Nat.le_of_not_lt hn)] at h

theorem lt_of_edge?_eq_some {e : Nat} {en : EdgeEntry E} (h : g.edge? e = some en) :
    e < g.edges.length := by
  by_contra he
  simp [edge?, List.getElem?_eq_none (Nat.le_of_not_lt he)] at h

theorem mem_nodeIndices {n : Nat} : n ∈ g.nodeIndices ↔ (g.node? n).isSome := by
  rw [nodeIndices, List.mem_filter, List.mem_range, and_iff_right_iff_imp, Option.isSome_iff_exists]
  rintro ⟨entry, h⟩
  exact lt_of_node?_eq_some h

theorem mem_edgeIndices {e : Nat} : e ∈ g.edgeIndices ↔ (g.edge? e).isSome := by
  rw [edgeIndices, List.mem_filter, List.mem_range, and_iff_right_iff_imp, Option.isSome_iff_exists]
  rintro ⟨en, h⟩
  exact lt_of_edge?_eq_some h

theorem nodup_nodeIndices (g : DiGraph N E) : g.nodeIndices.Nodup := List.nodup_range.filter _

theorem nodup_edgeIndices (g : DiGraph N E) : g.edgeIndices.Nodup := List.nodup_range.filter _

@[simp] theorem isSome_nodeWeight (n : Nat) : (g.nodeWeight n).isSome = (g.node? n).isSome :=
  Option.isSome_map

end Slots

/-! ## Changing a slot in place -/

/-- A change of the element in a slot leaves the number of taken slots. -/
theorem countP_isSome_modify {α : Type} (l : List (Option α)) (n : Nat) (f : α → α) :
    (l.modify n (Option.map f)).countP Option.isSome = l.countP Option.isSome := by
  have h : (l.modify n (Option.map f)).map Option.isSome = l.map Option.isSome := by
    refine List.ext_getElem? fun i => ?_
    rw [List.getElem?_map, List.getElem?_map, List.getElem?_modify]
    split_ifs <;> cases l[i]? <;> simp
  have := congrArg (List.countP id) h
  simpa [List.countP_map] using this

section ModifyNode

variable (g : DiGraph N E) (n : Nat) (f : NodeEntry N → NodeEntry N)

theorem node?_modifyNode (i : Nat) :
    (g.modifyNode n f).node? i = if i = n then (g.node? i).map f else g.node? i := by
  rw [node?, modifyNode, List.getElem?_modify]
  split_ifs with h h' h'
  · cases hi : g.nodes[i]? <;> simp [node?, hi]
  · exact absurd h.symm h'
  · exact absurd h'.symm h
  · simp [node?]

theorem isSome_node?_modifyNode (i : Nat) :
    ((g.modifyNode n f).node? i).isSome = (g.node? i).isSome := by
  rw [node?_modifyNode]
  split_ifs <;> simp

theorem countP_nodes_modifyNode :
    (g.modifyNode n f).nodes.countP Option.isSome = g.nodes.countP Option.isSome :=
  countP_isSome_modify _ _ _

theorem nodeWeight_modifyNode (hf : ∀ entry, (f entry).weight = entry.weight) (i : Nat) :
    (g.modifyNode n f).nodeWeight i = g.nodeWeight i := by
  rw [nodeWeight, node?_modifyNode]
  split_ifs
  · cases h : g.node? i <;> simp [nodeWeight, h, hf]
  · rfl

end ModifyNode

section ModifyEnds

variable (g : DiGraph N E) (en : EdgeEntry E) (f : List Nat → List Nat)

@[simp] theorem edge?_modifyEnds (e : Nat) : (g.modifyEnds en f).edge? e = g.edge? e := rfl

@[simp] theorem nodeWeight_modifyEnds (i : Nat) :
    (g.modifyEnds en f).nodeWeight i = g.nodeWeight i := by
  rw [modifyEnds, nodeWeight_modifyNode _ _ _ (NodeEntry.modifyAdj_weight _ _),
    nodeWeight_modifyNode _ _ _ (NodeEntry.modifyAdj_weight _ _)]

theorem countP_nodes_modifyEnds :
    (g.modifyEnds en f).nodes.countP Option.isSome = g.nodes.countP Option.isSome := by
  rw [modifyEnds, countP_nodes_modifyNode, countP_nodes_modifyNode]

/-- The adjacency lists of the two ends are changed, each in its direction, and no others. -/
theorem node?_modifyEnds {i : Nat} {entry' : NodeEntry N}
    (h : (g.modifyEnds en f).node? i = some entry') :
    ∃ entry, g.node? i = some entry ∧
      ∀ d, entry'.adj d = if i = en.near d then f (entry.adj d) else entry.adj d := by
  rw [modifyEnds, node?_modifyNode, node?_modifyNode] at h
  cases hi : g.node? i with
  | none => simp [hi] at h
  | some entry =>
    refine ⟨entry, rfl, fun d => ?_⟩
    rw [hi] at h
    have hsource := NodeEntry.modifyAdj_adj .outgoing d f entry
    have htarget := NodeEntry.modifyAdj_adj (N := N) .incoming d f
    split_ifs at h with ht hs hs <;> simp only [Option.map_some, Option.some.injEq] at h <;>
      subst h <;> cases d <;> simp_all [EdgeEntry.near]

end ModifyEnds

/-! ## The operations -/

section Operations

variable {g : DiGraph N E}

theorem nodeWeight_length (g : DiGraph N E) : g.nodeWeight g.nodes.length = none := by
  simp [nodeWeight, node?]

theorem edge?_length (g : DiGraph N E) : g.edge? g.edges.length = none := by
  simp [edge?]

theorem node?_addNode (w : N) (i : Nat) :
    (g.addNode w).2.node? i = if i = g.nodes.length then some ⟨w, [], []⟩ else g.node? i := by
  rw [node?, addNode, List.getElem?_append]
  split_ifs with h h' h'
  · omega
  · rfl
  · simp [h']
  · rw [List.getElem?_eq_none (by simp; omega), node?, List.getElem?_eq_none (by omega)]

@[simp] theorem edge?_addNode (w : N) (e : Nat) : (g.addNode w).2.edge? e = g.edge? e := rfl

theorem nodeWeight_addNode (w : N) (i : Nat) :
    (g.addNode w).2.nodeWeight i = if i = g.nodes.length then some w else g.nodeWeight i := by
  rw [nodeWeight, node?_addNode]
  split_ifs <;> rfl

theorem Valid.addNode (hg : g.Valid) (w : N) : (g.addNode w).2.Valid where
  nodup := by
    intro d n entry h
    rw [node?_addNode] at h
    split_ifs at h
    · cases h
      cases d <;> simp [NodeEntry.adj]
    · exact hg.nodup d n entry h
  mem_iff := by
    intro d n entry h e
    rw [node?_addNode] at h
    split_ifs at h with hn
    · cases h
      -- the ends of the edges are older than the new slot
      have : ¬ ∃ en, g.edge? e = some en ∧ en.near d = n := by
        rintro ⟨en, hen, rfl⟩
        obtain ⟨entry, hentry⟩ := Option.isSome_iff_exists.1 (hg.live d e en hen)
        exact absurd (lt_of_node?_eq_some hentry) (by omega)
      cases d <;> simpa [NodeEntry.adj] using this
    · exact hg.mem_iff d n entry h e
  numNodes_eq := by
    simp [DiGraph.addNode, hg.numNodes_eq]
  numEdges_eq := hg.numEdges_eq
  live := by
    intro d e en h
    rw [node?_addNode]
    split_ifs
    · rfl
    · exact hg.live d e en h

theorem edge?_addEdge (a b : Nat) (w : E) (e : Nat) :
    (g.addEdge a b w).2.edge? e = if e = g.edges.length then some ⟨w, a, b⟩ else g.edge? e := by
  rw [addEdge, edge?_modifyEnds, edge?, List.getElem?_append]
  split_ifs with h h' h'
  · omega
  · rfl
  · simp [h']
  · rw [List.getElem?_eq_none (by simp; omega), edge?, List.getElem?_eq_none (by omega)]

@[simp] theorem nodeWeight_addEdge (a b : Nat) (w : E) (i : Nat) :
    (g.addEdge a b w).2.nodeWeight i = g.nodeWeight i := by
  rw [addEdge, nodeWeight_modifyEnds]
  rfl

theorem Valid.addEdge (hg : g.Valid) {a b : Nat} (ha : (g.node? a).isSome)
    (hb : (g.node? b).isSome) (w : E) : (g.addEdge a b w).2.Valid where
  nodup := by
    intro d n entry' h
    obtain ⟨entry, hn, hadj⟩ := node?_modifyEnds _ _ _ h
    rw [hadj]
    split_ifs
    · rw [← List.concat_eq_append]
      refine (hg.nodup d n entry hn).concat fun hmem => ?_
      obtain ⟨en, hen, -⟩ := (hg.mem_iff d n entry hn _).1 hmem
      rw [edge?_length] at hen
      cases hen
    · exact hg.nodup d n entry hn
  mem_iff := by
    intro d n entry' h e
    obtain ⟨entry, hn, hadj⟩ := node?_modifyEnds _ _ _ h
    rw [hadj, edge?_addEdge]
    have hmem := hg.mem_iff d n entry hn e
    by_cases he : e = g.edges.length
    · have hold : e ∉ entry.adj d := by
        rw [hmem, he, edge?_length]
        rintro ⟨en, h, -⟩
        cases h
      rw [if_pos he]
      split_ifs with hend
      · simp [he, hend]
      · simp only [hold, Option.some.injEq, exists_eq_left', false_iff]
        exact fun h => hend h.symm
    · rw [if_neg he]
      split_ifs with hend
      · simpa [he] using hmem
      · exact hmem
  numNodes_eq := by
    rw [DiGraph.addEdge, countP_nodes_modifyEnds]
    exact hg.numNodes_eq
  numEdges_eq := by
    simp [DiGraph.addEdge, modifyEnds, modifyNode, hg.numEdges_eq]
  live := by
    intro d e en h
    rw [← isSome_nodeWeight, nodeWeight_addEdge, isSome_nodeWeight]
    rw [edge?_addEdge] at h
    split_ifs at h
    · cases h
      cases d
      · exact ha
      · exact hb
    · exact hg.live d e en h

theorem edge?_removeEdge (e e' : Nat) :
    (g.removeEdge e).2.edge? e' = if e' = e then none else g.edge? e' := by
  unfold removeEdge
  cases he : g.edge? e with
  | none => split_ifs with h <;> simp [h, he]
  | some en =>
    rw [edge?_modifyEnds]
    simp only [edge?, List.getElem?_set]
    by_cases h : e = e'
    · subst h
      rw [if_pos rfl, if_pos rfl]
      split_ifs <;> rfl
    · rw [if_neg h, if_neg (Ne.symm h)]

@[simp] theorem nodeWeight_removeEdge (e i : Nat) :
    (g.removeEdge e).2.nodeWeight i = g.nodeWeight i := by
  unfold removeEdge
  cases g.edge? e with
  | none => rfl
  | some en =>
    simp only [nodeWeight_modifyEnds]
    rfl

theorem removeEdge_fst (e : Nat) : (g.removeEdge e).1 = g.edgeWeight e := by
  unfold removeEdge edgeWeight
  cases g.edge? e <;> rfl

theorem Adjacent.removeEdge (hg : g.Adjacent) (e : Nat) : (g.removeEdge e).2.Adjacent := by
  have hedge := edge?_removeEdge (g := g) e
  revert hedge
  unfold DiGraph.removeEdge
  cases he : g.edge? e with
  | none => exact fun _ => hg
  | some en =>
    intro hedge
    refine ⟨?_, ?_, ?_⟩
    · intro d n entry' h
      obtain ⟨entry, hn, hadj⟩ := node?_modifyEnds _ _ _ h
      rw [hadj]
      split_ifs
      · exact (hg.nodup d n entry hn).filter _
      · exact hg.nodup d n entry hn
    · intro d n entry' h e'
      obtain ⟨entry, hn, hadj⟩ := node?_modifyEnds _ _ _ h
      have hmem := hg.mem_iff d n entry hn e'
      rw [hadj, hedge]
      by_cases hee : e' = e
      · rw [if_pos hee]
        split_ifs with hend
        · simp [hee]
        · rw [hmem, hee, he]
          simp only [Option.some.injEq, exists_eq_left', false_and, exists_false, iff_false]
          exact fun h => hend h.symm
      · rw [if_neg hee]
        split_ifs with hend
        · simpa [hee] using hmem
        · exact hmem
    · have hlt := lt_of_edge?_eq_some he
      have hslot : g.edges[e] = some en := by
        simpa [edge?, List.getElem?_eq_getElem hlt, Option.join] using he
      simp only [modifyEnds, modifyNode, List.countP_set hlt, hslot]
      simp [hg.numEdges_eq]

@[simp] theorem numNodes_removeEdge (e : Nat) : (g.removeEdge e).2.numNodes = g.numNodes := by
  unfold removeEdge
  cases g.edge? e <;> rfl

@[simp] theorem countP_nodes_removeEdge (e : Nat) :
    (g.removeEdge e).2.nodes.countP Option.isSome = g.nodes.countP Option.isSome := by
  unfold removeEdge
  cases g.edge? e with
  | none => rfl
  | some en => rw [countP_nodes_modifyEnds]

theorem Valid.removeEdge (hg : g.Valid) (e : Nat) : (g.removeEdge e).2.Valid where
  toAdjacent := hg.toAdjacent.removeEdge e
  live := by
    intro d e' en h
    rw [edge?_removeEdge] at h
    split_ifs at h
    rw [← isSome_nodeWeight, nodeWeight_removeEdge, isSome_nodeWeight]
    exact hg.live d e' en h
  numNodes_eq := by
    rw [numNodes_removeEdge, countP_nodes_removeEdge, hg.numNodes_eq]

theorem Adjacent.removeEdges (hg : g.Adjacent) (es : List Nat) : (g.removeEdges es).Adjacent :=
  List.foldlRecOn es _ hg fun _ h e _ => h.removeEdge e

theorem nodeWeight_removeEdges (es : List Nat) (i : Nat) :
    (g.removeEdges es).nodeWeight i = g.nodeWeight i :=
  List.foldlRecOn es (motive := fun g' : DiGraph N E => g'.nodeWeight i = g.nodeWeight i) _ rfl
    fun _ h e _ => by
    rw [nodeWeight_removeEdge, h]

theorem numNodes_removeEdges (es : List Nat) : (g.removeEdges es).numNodes = g.numNodes :=
  List.foldlRecOn es (motive := fun g' : DiGraph N E => g'.numNodes = g.numNodes) _ rfl
    fun _ h e _ => by
    rw [numNodes_removeEdge, h]

theorem countP_nodes_removeEdges (es : List Nat) :
    (g.removeEdges es).nodes.countP Option.isSome = g.nodes.countP Option.isSome :=
  List.foldlRecOn es
    (motive := fun g' : DiGraph N E =>
      g'.nodes.countP Option.isSome = g.nodes.countP Option.isSome) _ rfl
    fun _ h e _ => by rw [countP_nodes_removeEdge, h]

theorem edge?_removeEdges (es : List Nat) (e : Nat) :
    (g.removeEdges es).edge? e = if e ∈ es then none else g.edge? e := by
  induction es generalizing g with
  | nil => rfl
  | cons e' es ih =>
    rw [removeEdges, List.foldl_cons, ← removeEdges, ih, edge?_removeEdge]
    by_cases h : e = e' <;> simp [h]

theorem node?_vacate (n i : Nat) : (g.vacate n).node? i = if i = n then none else g.node? i := by
  simp only [vacate, node?, List.getElem?_set]
  by_cases h : n = i
  · subst h
    rw [if_pos rfl, if_pos rfl]
    split_ifs <;> rfl
  · rw [if_neg h, if_neg (Ne.symm h)]

theorem nodeWeight_vacate (n i : Nat) :
    (g.vacate n).nodeWeight i = if i = n then none else g.nodeWeight i := by
  rw [nodeWeight, node?_vacate]
  split_ifs <;> rfl

theorem Adjacent.vacate (hg : g.Adjacent) (n : Nat) : (g.vacate n).Adjacent where
  nodup := by
    intro d i entry h
    rw [node?_vacate] at h
    split_ifs at h
    exact hg.nodup d i entry h
  mem_iff := by
    intro d i entry h
    rw [node?_vacate] at h
    split_ifs at h
    exact hg.mem_iff d i entry h
  numEdges_eq := hg.numEdges_eq

theorem removeNode_eq {n : Nat} {entry : NodeEntry N} (h : g.node? n = some entry) :
    (g.removeNode n).2 =
      { (g.vacate n).removeEdges (entry.adjOut ++ entry.adjIn) with numNodes := g.numNodes - 1 } := by
  rw [removeNode, h]
  simp only [numNodes_removeEdges, vacate]

theorem removeNode_fst (n : Nat) : (g.removeNode n).1 = g.nodeWeight n := by
  unfold removeNode nodeWeight
  cases g.node? n <;> rfl

theorem removeNode_of_none {n : Nat} (h : g.node? n = none) : (g.removeNode n).2 = g := by
  rw [removeNode, h]

theorem nodeWeight_removeNode (n i : Nat) :
    (g.removeNode n).2.nodeWeight i = if i = n then none else g.nodeWeight i := by
  cases h : g.node? n with
  | none =>
    rw [removeNode_of_none h]
    split_ifs with hi <;> simp [hi, nodeWeight, h]
  | some entry =>
    rw [removeNode_eq h, ← nodeWeight_vacate]
    exact nodeWeight_removeEdges _ i

theorem Adjacent.edge?_removeNode (hg : g.Adjacent) {n : Nat} {entry : NodeEntry N}
    (h : g.node? n = some entry) (e : Nat) :
    (g.removeNode n).2.edge? e =
      (g.edge? e).filter fun en => en.source ≠ n ∧ en.target ≠ n := by
  have hout := hg.mem_iff .outgoing n entry h e
  have hin := hg.mem_iff .incoming n entry h e
  rw [removeNode_eq h]
  show ((g.vacate n).removeEdges _).edge? e = _
  rw [edge?_removeEdges]
  show (if e ∈ entry.adjOut ++ entry.adjIn then none else g.edge? e) = _
  cases he : g.edge? e with
  | none => simp
  | some en =>
    simp only [NodeEntry.adj, EdgeEntry.near, he, Option.some.injEq, exists_eq_left'] at hout hin
    simp only [List.mem_append, hout, hin]
    by_cases hs : en.source = n <;> by_cases ht : en.target = n <;> simp [Option.filter, hs, ht]

theorem Valid.removeNode (hg : g.Valid) (n : Nat) : (g.removeNode n).2.Valid := by
  cases h : g.node? n with
  | none =>
    rw [removeNode_of_none h]
    exact hg
  | some entry =>
    have hadj : (g.removeNode n).2.Adjacent := by
      rw [removeNode_eq h]
      obtain ⟨h₁, h₂, h₃⟩ := (hg.toAdjacent.vacate n).removeEdges (entry.adjOut ++ entry.adjIn)
      exact ⟨h₁, h₂, h₃⟩
    refine ⟨hadj, ?_, ?_⟩
    · intro d e en he
      rw [hg.edge?_removeNode h, Option.filter_eq_some_iff] at he
      rw [← isSome_nodeWeight, nodeWeight_removeNode, if_neg, isSome_nodeWeight]
      · exact hg.live d e en he.1
      · have := he.2
        cases d <;> simp_all [EdgeEntry.near]
    · have hlt := lt_of_node?_eq_some h
      have hslot : g.nodes[n] = some entry := by
        simpa [node?, List.getElem?_eq_getElem hlt, Option.join] using h
      rw [removeNode_eq h]
      show _ = ((g.vacate n).removeEdges _).nodes.countP _
      rw [countP_nodes_removeEdges, vacate, List.countP_set hlt, hslot, hg.numNodes_eq]
      rfl

theorem nodeWeight_modifyNodeWeight (n : Nat) (f : N → N) (i : Nat) :
    (g.modifyNodeWeight n f).nodeWeight i =
      if i = n then (g.nodeWeight i).map f else g.nodeWeight i := by
  rw [nodeWeight, modifyNodeWeight, node?_modifyNode]
  split_ifs
  · cases h : g.node? i <;> simp [nodeWeight, h]
  · rfl

theorem node?_modifyNodeWeight {n : Nat} {f : N → N} {i : Nat} {entry' : NodeEntry N}
    (h : (g.modifyNodeWeight n f).node? i = some entry') :
    ∃ entry, g.node? i = some entry ∧ ∀ d, entry'.adj d = entry.adj d := by
  rw [modifyNodeWeight, node?_modifyNode] at h
  split_ifs at h
  · obtain ⟨entry, hentry, rfl⟩ := Option.map_eq_some_iff.1 h
    exact ⟨entry, hentry, fun d => by cases d <;> rfl⟩
  · exact ⟨entry', h, fun _ => rfl⟩

theorem Valid.modifyNodeWeight (hg : g.Valid) (n : Nat) (f : N → N) :
    (g.modifyNodeWeight n f).Valid where
  nodup := by
    intro d i entry' h
    obtain ⟨entry, hentry, hadj⟩ := node?_modifyNodeWeight h
    rw [hadj]
    exact hg.nodup d i entry hentry
  mem_iff := by
    intro d i entry' h e
    obtain ⟨entry, hentry, hadj⟩ := node?_modifyNodeWeight h
    rw [hadj]
    exact hg.mem_iff d i entry hentry e
  numEdges_eq := hg.numEdges_eq
  live := by
    intro d e en h
    rw [DiGraph.modifyNodeWeight, isSome_node?_modifyNode]
    exact hg.live d e en h
  numNodes_eq := by
    rw [DiGraph.modifyNodeWeight, countP_nodes_modifyNode]
    exact hg.numNodes_eq

theorem edge?_modifyEdgeWeight (e : Nat) (f : E → E) (e' : Nat) :
    (g.modifyEdgeWeight e f).edge? e' =
      (g.edge? e').map fun en => if e' = e then { en with weight := f en.weight } else en := by
  rw [edge?, modifyEdgeWeight, List.getElem?_modify]
  by_cases h : e = e'
  · cases hi : g.edges[e']? <;> simp [edge?, hi, h]
  · simp [edge?, h, Ne.symm h]

theorem Valid.modifyEdgeWeight (hg : g.Valid) (e : Nat) (f : E → E) :
    (g.modifyEdgeWeight e f).Valid where
  nodup := hg.nodup
  mem_iff := by
    intro d n entry h e'
    rw [hg.mem_iff d n entry h e', edge?_modifyEdgeWeight]
    cases g.edge? e' with
    | none => simp
    | some en =>
      simp only [Option.some.injEq, exists_eq_left', Option.map_some]
      split_ifs <;> cases d <;> rfl
  numEdges_eq := hg.numEdges_eq.trans (countP_isSome_modify _ _ _).symm
  live := by
    intro d e' en h
    rw [edge?_modifyEdgeWeight] at h
    obtain ⟨en', hen', rfl⟩ := Option.map_eq_some_iff.1 h
    have := hg.live d e' en' hen'
    split_ifs <;> cases d <;> exact this
  numNodes_eq := hg.numNodes_eq

end Operations

end DiGraph

end Vuma.Scg
