import Vuma.Codegen.ScgAdapter
import Vuma.Lib.PrefixCode

/-!
# Fingerprints of subgraphs and the verification cache

`compute_fingerprint` of `cache.rs` feeds a hasher with the sorted nodes of a subgraph and their
types, and then with the edges that touch the nodes, as they are stored. The hasher is taken to keep
apart what is fed to it. Results of the verifier are stored under fingerprints.
-/

namespace Vuma.Ive

open Codegen.Adapter Lib Scg

/-- A value that is fed to the hasher. -/
inductive Fed where
  | u64 (n : UInt64)
  | str (s : String)
  deriving DecidableEq, Repr

/-- `{:?}` of a node identifier. -/
def debugNodeId (id : NodeId) : String := "NodeId(" ++ toString id.toNat ++ ")"

/-- The text of a list of identifiers after its first element. -/
def debugRest : List NodeId → String
  | [] => "]"
  | id :: ids => ", " ++ debugNodeId id ++ debugRest ids

/-- `{:?}` of a list of identifiers. -/
def debugNodeIds : List NodeId → String
  | [] => "[]"
  | id :: ids => "[" ++ debugNodeId id ++ debugRest ids

/-- `{:?}` of a call edge's kind. -/
def debugCall (fromNode toNode : NodeId) (callerRegion : RegionId) : String :=
  "Call \x7b from_node: " ++ debugNodeId fromNode ++ ", to_node: " ++ debugNodeId toNode ++
    ", caller_region: RegionId(" ++ toString callerRegion.toNat ++ ") \x7d"

/-- `{:?}` of a return edge's kind. -/
def debugReturn (fromNode toNode : NodeId) (returnValues : List NodeId) : String :=
  "Return \x7b from_node: " ++ debugNodeId fromNode ++ ", to_node: " ++ debugNodeId toNode ++
    ", return_values: " ++ debugNodeIds returnValues ++ " \x7d"

/-- `{:?}` of an edge kind. -/
def debugEdgeKind : EdgeKind → String
  | .dataFlow => "DataFlow" | .controlFlow => "ControlFlow" | .derivation => "Derivation"
  | EdgeKind.annotation => "Annotation" | .dispatch => "Dispatch" | .syscallArg => "SyscallArg"
  | .call fromNode toNode callerRegion => debugCall fromNode toNode callerRegion
  | .ret fromNode toNode returnValues => debugReturn fromNode toNode returnValues

/-- What is fed for a node: its identifier, and its type if it has one. -/
def nodeFed (g : Codegen.Adapter.Scg) (id : NodeId) : List Fed :=
  .u64 id :: match g.nodeType id with
    | some nt => [.str (debugNodeType nt)]
    | none => []

/-- What is fed for an edge. -/
def edgeFed (e : CodegenEdge) : List Fed :=
  [.u64 e.source, .u64 e.target, .str (debugEdgeKind e.kind)]

def sortedNodes (nodes : List NodeId) : List NodeId := nodes.insertionSort (· ≤ ·)

/-- The edges between the nodes and from them to others, as they are stored. -/
def incidentEdges (g : Codegen.Adapter.Scg) (nodes : List NodeId) : List CodegenEdge :=
  g.edges.filter fun e => nodes.contains e.source || nodes.contains e.target

/-- All that is fed to the hasher. -/
def fed (g : Codegen.Adapter.Scg) (nodes : List NodeId) : List Fed :=
  (sortedNodes nodes).flatMap (nodeFed g) ++ (incidentEdges g nodes).flatMap edgeFed

/-! ## The texts are told apart -/

/-- All node types. -/
def nodeTypes : List NodeType :=
  [.computation, .allocation, .deallocation, .access, .cast, .effect, .control, .phantom, .vTable,
    .closureEnv, .structDef, .enumDef, .matchDispatch, .constantTime, .syscall, .stateInit,
    .stateRead, .stateWrite, .stateTransform, .foreignConsume, .arenaNew, .arenaAlloc, .arenaGrow,
    .arenaFree, .channelOpen, .channelSend, .channelRecv, .channelClose]

theorem mem_nodeTypes (nt : NodeType) : nt ∈ nodeTypes := by
  cases nt <;> decide

theorem debugNodeType_injective : Function.Injective debugNodeType := by
  intro a b h
  have hnodup : (nodeTypes.map debugNodeType).Nodup := by decide
  exact List.inj_on_of_nodup_map hnodup (mem_nodeTypes a) (mem_nodeTypes b) h

theorem debugNodeId_append_inj {a b : NodeId} {x y : List Char}
    (h : (debugNodeId a).toList ++ x = (debugNodeId b).toList ++ y) : a = b ∧ x = y := by
  have hword : ∀ (id : NodeId) (z : List Char), (debugNodeId id).toList ++ z =
      "NodeId(".toList ++ ((toString id.toNat).toList ++ ')' :: z) := by
    intro id z
    simp only [debugNodeId, String.toList_append, List.append_assoc]
    rfl
  rw [hword, hword] at h
  obtain ⟨hid, hrest⟩ := digits_append_inj (by decide) (List.append_cancel_left h)
  exact ⟨UInt64.toNat_inj.1 hid, hrest⟩

theorem debugRest_append_inj {as bs : List NodeId} {x y : List Char}
    (h : (debugRest as).toList ++ x = (debugRest bs).toList ++ y) : as = bs ∧ x = y := by
  have hcons : ∀ (id : NodeId) (ids : List NodeId) (z : List Char),
      (debugRest (id :: ids)).toList ++ z =
        ',' :: ' ' :: ((debugNodeId id).toList ++ ((debugRest ids).toList ++ z)) := by
    intro id ids z
    simp only [debugRest, String.toList_append, List.append_assoc]
    rfl
  induction as generalizing bs with
  | nil =>
    cases bs with
    | nil => exact ⟨rfl, (List.cons.inj h).2⟩
    | cons b bs =>
      rw [hcons] at h
      exact absurd (List.cons.inj h).1 (by decide)
  | cons a as ih =>
    cases bs with
    | nil =>
      rw [hcons] at h
      exact absurd (List.cons.inj h).1 (by decide)
    | cons b bs =>
      rw [hcons, hcons] at h
      obtain ⟨rfl, htail⟩ := debugNodeId_append_inj (List.cons.inj (List.cons.inj h).2).2
      obtain ⟨rfl, hrest⟩ := ih htail
      exact ⟨rfl, hrest⟩

theorem debugNodeIds_append_inj {as bs : List NodeId} {x y : List Char}
    (h : (debugNodeIds as).toList ++ x = (debugNodeIds bs).toList ++ y) : as = bs ∧ x = y := by
  have hcons : ∀ (id : NodeId) (ids : List NodeId) (z : List Char),
      (debugNodeIds (id :: ids)).toList ++ z =
        '[' :: ((debugNodeId id).toList ++ ((debugRest ids).toList ++ z)) := by
    intro id ids z
    simp only [debugNodeIds, String.toList_append, List.append_assoc]
    rfl
  have hhead : ∀ (id : NodeId) (z : List Char), ∃ z', (debugNodeId id).toList ++ z = 'N' :: z' := by
    intro id z
    simp only [debugNodeId, String.toList_append, List.append_assoc]
    exact ⟨_, rfl⟩
  cases as with
  | nil =>
    cases bs with
    | nil => exact ⟨rfl, (List.cons.inj (List.cons.inj h).2).2⟩
    | cons b bs =>
      rw [hcons] at h
      obtain ⟨z, hz⟩ := hhead b ((debugRest bs).toList ++ y)
      rw [hz] at h
      exact absurd (List.cons.inj (List.cons.inj h).2).1 (by decide)
  | cons a as =>
    cases bs with
    | nil =>
      rw [hcons] at h
      obtain ⟨z, hz⟩ := hhead a ((debugRest as).toList ++ x)
      rw [hz] at h
      exact absurd (List.cons.inj (List.cons.inj h).2).1 (by decide)
    | cons b bs =>
      rw [hcons, hcons] at h
      obtain ⟨rfl, htail⟩ := debugNodeId_append_inj (List.cons.inj h).2
      obtain ⟨rfl, hrest⟩ := debugRest_append_inj htail
      exact ⟨rfl, hrest⟩

/-- The first two characters of the text of a kind. -/
def kindHead : EdgeKind → List Char
  | .dataFlow => ['D', 'a'] | .controlFlow => ['C', 'o'] | .derivation => ['D', 'e']
  | EdgeKind.annotation => ['A', 'n'] | .dispatch => ['D', 'i'] | .syscallArg => ['S', 'y']
  | .call .. => ['C', 'a'] | .ret .. => ['R', 'e']

theorem toList_debugCall (f t : NodeId) (r : RegionId) : (debugCall f t r).toList =
    'C' :: 'a' :: ("ll \x7b from_node: ".toList ++ ((debugNodeId f).toList ++
      (", to_node: ".toList ++ ((debugNodeId t).toList ++ (", caller_region: RegionId(".toList ++
        ((toString r.toNat).toList ++ ')' :: " \x7d".toList)))))) := by
  unfold debugCall
  simp only [String.toList_append, List.append_assoc]
  rfl

theorem toList_debugReturn (f t : NodeId) (vs : List NodeId) : (debugReturn f t vs).toList =
    'R' :: 'e' :: ("turn \x7b from_node: ".toList ++ ((debugNodeId f).toList ++
      (", to_node: ".toList ++ ((debugNodeId t).toList ++ (", return_values: ".toList ++
        ((debugNodeIds vs).toList ++ " \x7d".toList)))))) := by
  unfold debugReturn
  simp only [String.toList_append, List.append_assoc]
  rfl

theorem take_debugEdgeKind (k : EdgeKind) : (debugEdgeKind k).toList.take 2 = kindHead k := by
  cases k with
  | call f t r =>
    show (debugCall f t r).toList.take 2 = ['C', 'a']
    rw [toList_debugCall]
    rfl
  | ret f t vs =>
    show (debugReturn f t vs).toList.take 2 = ['R', 'e']
    rw [toList_debugReturn]
    rfl
  | _ => decide

theorem debugCall_inj {f t f' t' : NodeId} {r r' : RegionId}
    (h : debugCall f t r = debugCall f' t' r') : f = f' ∧ t = t' ∧ r = r' := by
  have hlist := congrArg String.toList h
  rw [toList_debugCall, toList_debugCall] at hlist
  have hfrom := List.append_cancel_left (List.cons.inj (List.cons.inj hlist).2).2
  obtain ⟨hf, hto⟩ := debugNodeId_append_inj hfrom
  obtain ⟨ht, hregion⟩ := debugNodeId_append_inj (List.append_cancel_left hto)
  obtain ⟨hr, -⟩ := digits_append_inj (by decide) (List.append_cancel_left hregion)
  exact ⟨hf, ht, UInt64.toNat_inj.1 hr⟩

theorem debugReturn_inj {f t f' t' : NodeId} {vs vs' : List NodeId}
    (h : debugReturn f t vs = debugReturn f' t' vs') : f = f' ∧ t = t' ∧ vs = vs' := by
  have hlist := congrArg String.toList h
  rw [toList_debugReturn, toList_debugReturn] at hlist
  have hfrom := List.append_cancel_left (List.cons.inj (List.cons.inj hlist).2).2
  obtain ⟨hf, hto⟩ := debugNodeId_append_inj hfrom
  obtain ⟨ht, hvalues⟩ := debugNodeId_append_inj (List.append_cancel_left hto)
  obtain ⟨hvs, -⟩ := debugNodeIds_append_inj (List.append_cancel_left hvalues)
  exact ⟨hf, ht, hvs⟩

/-- The first two characters tell the constructors apart. -/
theorem debugEdgeKind_injective : Function.Injective debugEdgeKind := by
  intro a b h
  have hhead : kindHead a = kindHead b := by
    rw [← take_debugEdgeKind, ← take_debugEdgeKind, h]
  cases a <;> cases b
  case call.call =>
    obtain ⟨rfl, rfl, rfl⟩ := debugCall_inj h
    rfl
  case ret.ret =>
    obtain ⟨rfl, rfl, rfl⟩ := debugReturn_inj h
    rfl
  all_goals first | rfl | exact absurd hhead (by simp [kindHead])

theorem debugNodeType_ne_debugEdgeKind (nt : NodeType) (k : EdgeKind) :
    debugNodeType nt ≠ debugEdgeKind k := by
  intro h
  have hmem : debugEdgeKind k ∈ nodeTypes.map debugNodeType :=
    h ▸ List.mem_map_of_mem (mem_nodeTypes nt)
  -- only the texts of calls and returns have a blank in them
  have hblank : ∀ s ∈ nodeTypes.map debugNodeType, ' ' ∉ s.toList := by decide
  cases k with
  | call f t r =>
    apply hblank (debugCall f t r) hmem
    rw [toList_debugCall]
    simp
  | ret f t vs =>
    apply hblank (debugReturn f t vs) hmem
    rw [toList_debugReturn]
    simp
  | _ => exact absurd hmem (by decide)

/-! ## What is fed can be taken apart -/

/-- A node with its type, or an edge with its kind. -/
abbrev Item := (NodeId × Option NodeType) ⊕ (NodeId × NodeId × EdgeKind)

/-- What is fed for an item, from its end. -/
def itemWord : Item → List Fed
  | .inl (id, none) => [.u64 id]
  | .inl (id, some nt) => [.str (debugNodeType nt), .u64 id]
  | .inr (source, target, kind) => [.str (debugEdgeKind kind), .u64 target, .u64 source]

/-- The last value fed for an item tells what it is. -/
theorem prefixFree_itemWord : PrefixFree itemWord := by
  constructor
  · intro a
    rcases a with ⟨id, _ | nt⟩ | ⟨source, target, kind⟩ <;> simp [itemWord]
  · intro a b r s h
    rcases a with ⟨id, _ | nt⟩ | ⟨source, target, kind⟩ <;>
      rcases b with ⟨id', _ | nt'⟩ | ⟨source', target', kind'⟩ <;>
      simp only [itemWord, List.cons_append, List.nil_append, List.cons.injEq, Fed.u64.injEq,
        Fed.str.injEq, reduceCtorEq, false_and] at h
    · rw [h.1]
    · rw [h.2.1, debugNodeType_injective h.1]
    · exact absurd h.1 (debugNodeType_ne_debugEdgeKind nt kind')
    · exact absurd h.1.symm (debugNodeType_ne_debugEdgeKind nt' kind)
    · rw [h.2.1, h.2.2.1, debugEdgeKind_injective h.1]

/-- What an edge is fed as. -/
def CodegenEdge.key (e : CodegenEdge) : NodeId × NodeId × EdgeKind := (e.source, e.target, e.kind)

/-- The nodes and then the edges that are fed. -/
def items (g : Codegen.Adapter.Scg) (nodes : List NodeId) : List Item :=
  (sortedNodes nodes).map (fun id => .inl (id, g.nodeType id)) ++
    (incidentEdges g nodes).map fun e => .inr (CodegenEdge.key e)

theorem reverse_fed (g : Codegen.Adapter.Scg) (nodes : List NodeId) :
    (fed g nodes).reverse = (items g nodes).reverse.flatMap itemWord := by
  have hnode : ∀ id, (nodeFed g id).reverse = itemWord (.inl (id, g.nodeType id)) := by
    intro id
    cases h : g.nodeType id <;> simp [nodeFed, itemWord, h]
  have hedge : ∀ e, (edgeFed e).reverse = itemWord (.inr (CodegenEdge.key e)) := fun e => rfl
  simp only [fed, items, List.reverse_append, List.reverse_flatMap, List.flatMap_append,
    ← List.map_reverse, List.flatMap_map, Function.comp_def, hnode, hedge]

theorem items_eq_iff {g h : Codegen.Adapter.Scg} {ns ms : List NodeId} : items g ns = items h ms ↔
    (sortedNodes ns).map (fun id => (id, g.nodeType id)) =
      (sortedNodes ms).map (fun id => (id, h.nodeType id)) ∧
    (incidentEdges g ns).map CodegenEdge.key = (incidentEdges h ms).map CodegenEdge.key := by
  have hleft : ∀ (g : Codegen.Adapter.Scg) ns, (items g ns).filterMap Sum.getLeft? =
      (sortedNodes ns).map fun id => (id, g.nodeType id) := by
    intro g ns
    simp [items, List.filterMap_append, List.filterMap_map, Function.comp_def]
  have hright : ∀ (g : Codegen.Adapter.Scg) ns, (items g ns).filterMap Sum.getRight? =
      (incidentEdges g ns).map CodegenEdge.key := by
    intro g ns
    simp [items, List.filterMap_append, List.filterMap_map, Function.comp_def]
  constructor
  · intro heq
    exact ⟨by rw [← hleft, ← hleft, heq], by rw [← hright, ← hright, heq]⟩
  · rintro ⟨hnodes, hedges⟩
    have hcongr := congrArg₂ (fun a b => a.map Sum.inl ++ b.map Sum.inr) hnodes hedges
    simpa only [items, List.map_map, Function.comp_def] using hcongr

theorem sortedNodes_perm (nodes : List NodeId) : (sortedNodes nodes).Perm nodes :=
  List.perm_insertionSort _ _

theorem sortedNodes_eq_iff {ns ms : List NodeId} :
    sortedNodes ns = sortedNodes ms ↔ ns.Perm ms := by
  constructor
  · intro h
    exact (sortedNodes_perm ns).symm.trans (h ▸ sortedNodes_perm ms)
  · intro h
    have hperm := (sortedNodes_perm ns).trans (h.trans (sortedNodes_perm ms).symm)
    exact hperm.eq_of_pairwise' (List.pairwise_insertionSort _ _) (List.pairwise_insertionSort _ _)

/-- The same is fed for two subgraphs exactly when they have the same nodes, with the same types,
and their edges have the same ends and kinds in the same order. -/
theorem fed_eq_iff {g h : Codegen.Adapter.Scg} {ns ms : List NodeId} : fed g ns = fed h ms ↔
    ns.Perm ms ∧ (∀ id ∈ ns, g.nodeType id = h.nodeType id) ∧
    (incidentEdges g ns).map CodegenEdge.key = (incidentEdges h ms).map CodegenEdge.key := by
  have hitems : fed g ns = fed h ms ↔ items g ns = items h ms := by
    rw [← List.reverse_inj, reverse_fed, reverse_fed,
      prefixFree_itemWord.flatMap_injective.eq_iff, List.reverse_inj]
  rw [hitems, items_eq_iff]
  constructor
  · rintro ⟨hnodes, hedges⟩
    have hids := congrArg (List.map Prod.fst) hnodes
    simp only [List.map_map, Function.comp_def, List.map_id'] at hids
    rw [hids, List.map_inj_left] at hnodes
    refine ⟨sortedNodes_eq_iff.1 hids, ?_, hedges⟩
    intro id hid
    have hmem : id ∈ sortedNodes ms := hids ▸ (sortedNodes_perm ns).mem_iff.2 hid
    exact congrArg Prod.snd (hnodes id hmem)
  · rintro ⟨hperm, htypes, hedges⟩
    rw [sortedNodes_eq_iff.2 hperm.symm]
    refine ⟨List.map_congr_left ?_, hedges⟩
    intro id hid
    rw [htypes id ((sortedNodes_perm ns).mem_iff.1 hid)]

end Vuma.Ive
