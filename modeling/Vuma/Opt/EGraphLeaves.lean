import Vuma.Opt.EGraphSaturate
import Vuma.Lib.FoldOrder

/-!
# Graphs that differ in their leaves

Two graphs that were built from the registers of a block in different orders differ in the numbers
of the leaves (`LeafEq`). A leaf is alone in its class. Adding the same nodes and merging the same
classes keeps the graphs alike, so does rebuilding, and the same nodes are extracted from them.
-/

namespace Vuma.Opt

open IR

/-! ## Graphs that differ in their leaves -/

/-- The nodes whose number depends on the order of the registers: the leaves, and the operands that
name one of the first `n` classes. -/
def ENode.Leaf (n : Nat) (node : ENode) : Prop := ∃ m, node = .vreg m ∧ (m < n ∨ 1000000 ≤ m)

theorem ENode.not_leaf_lit {n : Nat} {c : Word} : ¬ (ENode.lit c).Leaf n := nofun

theorem ENode.not_leaf_binOp {n : Nat} {op : BinOpKind} {a b : EClassId} :
    ¬ (ENode.binOp op a b).Leaf n := nofun

theorem ENode.not_leaf_vreg {n m : Nat} (hn : n ≤ m) (hm : m < 1000000) :
    ¬ (ENode.vreg m).Leaf n := by
  rintro ⟨_, ⟨⟩, h⟩
  exact h.elim hn.not_gt hm.not_ge

/-- The operands of the node are between two bounds. -/
def ENode.OperandsIn (lo hi : Nat) : ENode → Prop
  | .binOp _ a b => (lo ≤ a ∧ a < hi) ∧ lo ≤ b ∧ b < hi
  | _ => True

theorem ENode.OperandsIn.mono {lo hi hi' : Nat} {node : ENode} (h : node.OperandsIn lo hi)
    (hle : hi ≤ hi') : node.OperandsIn lo hi' := by
  cases node with
  | lit c => trivial
  | vreg i => trivial
  | binOp op a b =>
    obtain ⟨⟨ha, ha'⟩, hb, hb'⟩ := h
    exact ⟨⟨ha, ha'.trans_le hle⟩, hb, hb'.trans_le hle⟩

namespace EGraph

/-- The class has a node that is not a leaf. -/
def Own (n : Nat) (g : EGraph) (id : EClassId) : Prop :=
  ∃ node, g.Mem node (g.find id) ∧ ¬ node.Leaf n

/-- A leaf is alone in both classes, and the cheap and the dear leaves correspond. -/
def LeafClasses (n : Nat) (g g' : EGraph) (id : EClassId) : Prop :=
  ∃ m m', g.classes id = some [.vreg m] ∧ g'.classes id = some [.vreg m'] ∧
    (id < n ∧ 1000000 ≤ m ∧ 1000000 ≤ m' ∨ n ≤ id ∧ m < n ∧ m' < n)

/-- Up to the numbers of the leaves, the graphs are the same. The first `n` classes are the
leaves. -/
structure LeafEq (n : Nat) (g g' : EGraph) : Prop where
  inv : g.Inv
  inv' : g'.Inv
  nextId : g'.nextId = g.nextId
  parents : g'.parents = g.parents
  hashcons : ∀ node : ENode, ¬ node.Leaf n → g'.hashcons node = g.hashcons node
  classes : ∀ id, LeafClasses n g g' id ∨
    n ≤ id ∧ g'.classes id = g.classes id ∧ ∀ node, g.Mem node id → ¬ node.Leaf n
  operands : ∀ node id, g.Mem node id → node.OperandsIn n g.nextId
  once : ∀ node id id', node.Leaf n → g.Mem node id → g.Mem node id' → id = id'
  once' : ∀ node id id', node.Leaf n → g'.Mem node id → g'.Mem node id' → id = id'
  le_nextId : n ≤ g.nextId
  le_parents : ∀ id, n ≤ id → n ≤ g.parents id

theorem LeafClasses.leaf_of_mem {n : Nat} {g g' : EGraph} {id : EClassId}
    (h : LeafClasses n g g' id) {node : ENode} (hmem : g.Mem node id) : node.Leaf n := by
  obtain ⟨m, m', hm, -, hrange⟩ := h
  obtain ⟨nodes, hnodes, hnode⟩ := hmem
  rw [hm] at hnodes
  cases hnodes
  exact ⟨m, List.mem_singleton.1 hnode, hrange.symm.imp (·.2.1) (·.2.1)⟩

/-- A new node belongs to one class. -/
theorem once_addNew {n : Nat} {g : EGraph} (hg : g.Inv)
    (honce : ∀ node id id', node.Leaf n → g.Mem node id → g.Mem node id' → id = id') {node : ENode}
    (hnode : ∀ id, node.Leaf n → ¬ g.Mem node id) :
    ∀ m id id', m.Leaf n → (g.addNew node).Mem m id → (g.addNew node).Mem m id' → id = id' := by
  intro m id id' hm hid hid'
  rcases (hg.mem_addNew node).1 hid with hmem | ⟨rfl, rfl⟩
  · rcases (hg.mem_addNew node).1 hid' with hmem' | ⟨rfl, -⟩
    · exact honce m id id' hm hmem hmem'
    · exact absurd hmem (hnode id hm)
  · rcases (hg.mem_addNew m).1 hid' with hmem' | ⟨-, rfl⟩
    · exact absurd hmem' (hnode id' hm)
    · rfl

theorem mergeNoRebuild_eq {g : EGraph} {a b : EClassId} {nodes : List ENode}
    (hab : g.find a ≠ g.find b) (hnodes : g.classes (g.find b) = some nodes) :
    g.mergeNoRebuild a b =
      { g with
        parents := Function.update g.parents (g.find b) (g.find a)
        classes := Function.update (Function.update g.classes (g.find b) none) (g.find a)
          (some (nodes.foldl (fun s n => if n ∈ s then s else s ++ [n]) (g.nodesOf (g.find a))))
        hashcons := fun n => if n ∈ nodes then some (g.find a) else g.hashcons n } := by
  simp [mergeNoRebuild, hab, hnodes]

theorem once_mergeNoRebuild {n : Nat} {g : EGraph} (hg : g.Inv)
    (honce : ∀ node id id', node.Leaf n → g.Mem node id → g.Mem node id' → id = id')
    {a b : EClassId} (hb : b < g.nextId) :
    ∀ node id id', node.Leaf n → (g.mergeNoRebuild a b).Mem node id →
      (g.mergeNoRebuild a b).Mem node id' → id = id' := by
  intro node id id' hleaf hid hid'
  obtain ⟨id₀, hmem, rfl⟩ := (hg.mem_mergeNoRebuild hb).1 hid
  obtain ⟨id₁, hmem', rfl⟩ := (hg.mem_mergeNoRebuild hb).1 hid'
  rw [honce node id₀ id₁ hleaf hmem hmem']

theorem Own.addNew {n : Nat} {g : EGraph} (hg : g.Inv) {id : EClassId} (hown : Own n g id)
    (node : ENode) : Own n (g.addNew node) id := by
  obtain ⟨m, hmem, hm⟩ := hown
  refine ⟨m, ?_, hm⟩
  rw [hg.find_addNew]
  exact (hg.mem_addNew node).2 (.inl hmem)

theorem Own.mergeNoRebuild {n : Nat} {g : EGraph} (hg : g.Inv) {a b id : EClassId}
    (hb : b < g.nextId) (hown : Own n g id) : Own n (g.mergeNoRebuild a b) id := by
  obtain ⟨m, hmem, hm⟩ := hown
  refine ⟨m, (hg.mem_mergeNoRebuild hb).2 ⟨_, hmem, ?_⟩, hm⟩
  exact hg.find_mergeNoRebuild_congr hb (hg.find_find id).symm

section

variable {n : Nat} {g g' : EGraph} (h : LeafEq n g g')
include h

theorem LeafEq.find_eq (id : EClassId) : g'.find id = g.find id := by
  rw [find, find, h.parents, h.nextId]

theorem LeafEq.classes_of_own {id : EClassId} (hown : Own n g id) :
    n ≤ g.find id ∧ g'.classes (g.find id) = g.classes (g.find id) ∧
      ∀ node, g.Mem node (g.find id) → ¬ node.Leaf n := by
  obtain ⟨node, hmem, hleaf⟩ := hown
  rcases h.classes (g.find id) with hclass | hclass
  · exact absurd (hclass.leaf_of_mem hmem) hleaf
  · exact hclass

theorem LeafEq.isSome_classes (id : EClassId) :
    (g'.classes id).isSome = (g.classes id).isSome := by
  rcases h.classes id with ⟨m, m', hm, hm', -⟩ | ⟨-, heq, -⟩
  · rw [hm, hm']
    rfl
  · rw [heq]

theorem LeafEq.classIds_eq : g'.classIds = g.classIds := by
  rw [classIds, classIds, h.nextId, funext fun id => h.isSome_classes id]

theorem LeafEq.canonicalIds_eq : g'.canonicalIds = g.canonicalIds := by
  rw [canonicalIds, canonicalIds, h.classIds_eq]
  exact List.filter_congr fun id _ => by rw [h.find_eq]

theorem LeafEq.nodesOf_cases (id : EClassId) :
    (∃ m m', g.nodesOf id = [.vreg m] ∧ g'.nodesOf id = [.vreg m'] ∧ (ENode.vreg m).Leaf n ∧
        (ENode.vreg m').Leaf n) ∨
      g'.nodesOf id = g.nodesOf id ∧ ∀ node ∈ g.nodesOf id, ¬ node.Leaf n := by
  rcases h.classes id with ⟨m, m', hm, hm', hrange⟩ | ⟨-, heq, hnone⟩
  · refine .inl ⟨m, m', by rw [nodesOf, hm]; rfl, by rw [nodesOf, hm']; rfl, ?_, ?_⟩
    · exact ⟨m, rfl, hrange.symm.imp (·.2.1) (·.2.1)⟩
    · exact ⟨m', rfl, hrange.symm.imp (·.2.2) (·.2.2)⟩
  · exact .inr ⟨by rw [nodesOf, nodesOf, heq], fun node hnode => hnone node (mem_nodesOf.1 hnode)⟩

theorem LeafEq.totalNodes_eq : g'.totalNodes = g.totalNodes := by
  have hlen : ∀ id, (g'.nodesOf id).length = (g.nodesOf id).length := by
    intro id
    rcases h.nodesOf_cases id with ⟨m, m', hm, hm', -⟩ | ⟨heq, -⟩
    · rw [hm, hm']
      rfl
    · rw [heq]
  rw [totalNodes, totalNodes, h.classIds_eq, funext hlen]

/-- Looking for a literal does not see the leaves. -/
theorem LeafEq.any_nodesOf (p : ENode → Bool) (hp : ∀ m, p (.vreg m) = false) (id : EClassId) :
    (g'.nodesOf (g'.find id)).any p = (g.nodesOf (g.find id)).any p := by
  rw [h.find_eq]
  rcases h.nodesOf_cases (g.find id) with ⟨m, m', hm, hm', -⟩ | ⟨heq, -⟩
  · rw [hm, hm']
    simp [hp]
  · rw [heq]

theorem LeafEq.classContainsLit_eq (id : EClassId) (value : Word) :
    g'.classContainsLit id value = g.classContainsLit id value :=
  h.any_nodesOf _ (fun _ => rfl) id

theorem LeafEq.classContainsAnyLit_eq (id : EClassId) :
    g'.classContainsAnyLit id = g.classContainsAnyLit id :=
  h.any_nodesOf _ (fun _ => rfl) id

/-! ## Adding and merging -/

/-- What adding nodes to `g` does to two graphs that differ in their leaves. -/
structure AddEq (n : Nat) (g : EGraph) (r r' : EClassId × EGraph) : Prop where
  id_eq : r'.1 = r.1
  graph : LeafEq n r.2 r'.2
  own : Own n r.2 r.1
  bounds : n ≤ r.1 ∧ r.1 < r.2.nextId
  le : g.nextId ≤ r.2.nextId
  keeps : ∀ id, Own n g id → Own n r.2 id

/-- A class for the same node, or for two operands that name leaves. -/
theorem LeafEq.addNew {node node' : ENode}
    (hnodes : node' = node ∧ ¬ node.Leaf n ∨
      ∃ m m', node = .vreg m ∧ node' = .vreg m' ∧ m < n ∧ m' < n)
    (hfresh : ∀ id, node.Leaf n → ¬ g.Mem node id)
    (hfresh' : ∀ id, node'.Leaf n → ¬ g'.Mem node' id)
    (hops : node.OperandsIn n g.nextId) : LeafEq n (g.addNew node) (g'.addNew node') := by
  refine ⟨h.inv.addNew node, h.inv'.addNew node', ?_, ?_, fun m hm => ?_, fun id => ?_,
    fun m id hmem => ?_, once_addNew h.inv h.once hfresh, once_addNew h.inv' h.once' hfresh',
    h.le_nextId.trans (Nat.le_succ _), fun id hid => ?_⟩
  · simp only [EGraph.addNew, h.nextId]
  · rw [h.inv.parents_addNew, h.inv'.parents_addNew, h.parents]
  · rcases hnodes with ⟨rfl, -⟩ | ⟨k, k', rfl, rfl, hk, hk'⟩
    · simp only [EGraph.addNew, h.nextId, Function.update_apply, h.hashcons m hm]
    · have hne : ∀ i < n, m ≠ .vreg i := by
        rintro i hi rfl
        exact hm ⟨i, rfl, .inl hi⟩
      simp only [EGraph.addNew, Function.update_of_ne (hne k hk),
        Function.update_of_ne (hne k' hk'), h.hashcons m hm]
  · by_cases hid : id = g.nextId
    · have hclass : (g.addNew node).classes id = some [node] := by
        simp only [EGraph.addNew, hid, Function.update_self]
      have hclass' : (g'.addNew node').classes id = some [node'] := by
        simp only [EGraph.addNew, h.nextId, hid, Function.update_self]
      have hge : n ≤ id := hid ▸ h.le_nextId
      rcases hnodes with ⟨rfl, hleaf⟩ | ⟨k, k', rfl, rfl, hk, hk'⟩
      · refine .inr ⟨hge, by rw [hclass, hclass'], ?_⟩
        rintro m ⟨nodes, hin, hm⟩
        rw [hclass] at hin
        cases hin
        rw [List.mem_singleton.1 hm]
        exact hleaf
      · exact .inl ⟨k, k', hclass, hclass', .inr ⟨hge, hk, hk'⟩⟩
    · have hsame : (g.addNew node).classes id = g.classes id :=
        Function.update_of_ne hid _ _
      have hsame' : (g'.addNew node').classes id = g'.classes id :=
        Function.update_of_ne (h.nextId ▸ hid) _ _
      simp only [LeafClasses, Mem, hsame, hsame']
      exact h.classes id
  · rcases (h.inv.mem_addNew node).1 hmem with hmem | ⟨rfl, -⟩
    · exact (h.operands m id hmem).mono (Nat.le_succ _)
    · exact hops.mono (Nat.le_succ _)
  · rw [h.inv.parents_addNew]
    exact h.le_parents id hid

theorem LeafEq.add {node : ENode} (hnode : ¬ node.Leaf n) (hops : node.OperandsIn n g.nextId) :
    AddEq n g (g.add node) (g'.add node) := by
  have hcons := h.hashcons node hnode
  rcases g.add_cases node with ⟨id, hid, hadd⟩ | ⟨hnone, hadd⟩
  · obtain ⟨hlt, hmem⟩ := h.inv.hashcons node id hid
    have hadd' : g'.add node = (g.find id, g') := by
      rw [EGraph.add, hcons, hid]
      simp only [h.find_eq]
    have hown : Own n g (g.find id) := ⟨node, by rwa [h.inv.find_find], hnode⟩
    have hge := (h.classes_of_own hown).1
    rw [h.inv.find_find] at hge
    rw [hadd, hadd']
    exact ⟨rfl, h, hown, ⟨hge, h.inv.find_lt hlt⟩, le_rfl, fun _ hid => hid⟩
  · have hadd' : g'.add node = (g'.nextId, g'.addNew node) := by
      rw [EGraph.add, hcons, hnone]
      rfl
    rw [hadd, hadd']
    have hnew : LeafEq n (g.addNew node) (g'.addNew node) :=
      h.addNew (.inl ⟨rfl, hnode⟩) (fun _ hleaf => absurd hleaf hnode)
        (fun _ hleaf => absurd hleaf hnode) hops
    refine ⟨h.nextId, hnew, ⟨node, ?_, hnode⟩, ⟨h.le_nextId, Nat.lt_succ_self _⟩,
      Nat.le_succ _, fun id hid => hid.addNew h.inv node⟩
    rw [h.inv.find_addNew, h.inv.find_ge le_rfl]
    exact (h.inv.mem_addNew node).2 (.inr ⟨rfl, rfl⟩)

omit h in
theorem AddEq.add {r r' : EClassId × EGraph} (hr : AddEq n g r r') {node : ENode}
    (hnode : ¬ node.Leaf n) (hops : node.OperandsIn n r.2.nextId) :
    AddEq n g (r.2.add node) (r'.2.add node) := by
  have hadd := hr.graph.add hnode hops
  exact ⟨hadd.id_eq, hadd.graph, hadd.own, hadd.bounds, hr.le.trans hadd.le,
    fun id hid => hadd.keeps id (hr.keeps id hid)⟩

theorem LeafEq.mergeNoRebuild {a b : EClassId} (ha : a < g.nextId) (hb : b < g.nextId)
    (howna : Own n g a) (hownb : Own n g b) :
    LeafEq n (g.mergeNoRebuild a b) (g'.mergeNoRebuild a b) := by
  by_cases hab : g.find a = g.find b
  · rw [mergeNoRebuild_of_eq hab, mergeNoRebuild_of_eq (by rw [h.find_eq, h.find_eq, hab])]
    exact h
  have hab' : g'.find a ≠ g'.find b := by rwa [h.find_eq, h.find_eq]
  have hb' : b < g'.nextId := h.nextId ▸ hb
  obtain ⟨hgea, hsamea, hleafa⟩ := h.classes_of_own howna
  obtain ⟨hgeb, hsameb, hleafb⟩ := h.classes_of_own hownb
  obtain ⟨nodes, hnodes⟩ := h.inv.exists_nodes hb
  have hnodes' : g'.classes (g'.find b) = some nodes := by rw [h.find_eq, hsameb, hnodes]
  have hnodesa : g'.nodesOf (g.find a) = g.nodesOf (g.find a) := by rw [nodesOf, nodesOf, hsamea]
  refine ⟨h.inv.mergeNoRebuild ha hb, h.inv'.mergeNoRebuild (h.nextId ▸ ha) hb', ?_, ?_,
    fun node hnode => ?_, fun id => ?_, fun node id hmem => ?_,
    once_mergeNoRebuild h.inv h.once hb, once_mergeNoRebuild h.inv' h.once' hb', ?_,
    fun id hid => ?_⟩
  · rw [nextId_mergeNoRebuild, nextId_mergeNoRebuild, h.nextId]
  · rw [parents_mergeNoRebuild hab, parents_mergeNoRebuild hab', h.parents, h.find_eq, h.find_eq]
  · rw [mergeNoRebuild_eq hab hnodes, mergeNoRebuild_eq hab' hnodes', h.find_eq]
    simp only [h.hashcons node hnode]
  · simp only [LeafClasses, Mem, mergeNoRebuild_eq hab hnodes, mergeNoRebuild_eq hab' hnodes',
      h.find_eq, hnodesa]
    by_cases hida : id = g.find a
    · subst hida
      refine .inr ⟨hgea, by simp only [Function.update_self], ?_⟩
      rintro node ⟨ns, hns, hnode⟩
      rw [Function.update_self] at hns
      cases hns
      rcases (mem_foldl_insert _ _).1 hnode with hin | hin
      · exact hleafa node (mem_nodesOf.1 hin)
      · exact hleafb node ⟨nodes, hnodes, hin⟩
    · simp only [Function.update_of_ne hida]
      by_cases hidb : id = g.find b
      · subst hidb
        refine .inr ⟨hgeb, by simp only [Function.update_self], ?_⟩
        rintro node ⟨ns, hns, -⟩
        rw [Function.update_self] at hns
        cases hns
      · simp only [Function.update_of_ne hidb]
        exact h.classes id
  · obtain ⟨id₀, hmem, -⟩ := (h.inv.mem_mergeNoRebuild hb).1 hmem
    rw [nextId_mergeNoRebuild]
    exact h.operands node id₀ hmem
  · rw [nextId_mergeNoRebuild]
    exact h.le_nextId
  · rw [parents_mergeNoRebuild hab, Function.update_apply]
    split
    · exact hgea
    · exact h.le_parents id hid

end

/-! ## Rebuilding -/

/-- Two graphs that began as `g` and one like it, with the flags of their rebuilding. -/
structure MergeEq (n : Nat) (g : EGraph) (s s' : EGraph × Bool) : Prop where
  graph : LeafEq n s.1 s'.1
  merged : s'.2 = s.2
  nextId : s.1.nextId = g.nextId
  keeps : ∀ id, Own n g id → Own n s.1 id

theorem mergeGroup_of_eq {group : List EClassId} (h : ∀ x ∈ group, ∀ y ∈ group, x = y)
    (s : EGraph × Bool) : mergeGroup s group = s := by
  cases group with
  | nil => rfl
  | cons first others =>
    refine List.foldlRecOn (motive := fun t : EGraph × Bool => t = s) others _ rfl
      fun t ht other hother => ?_
    rw [h first List.mem_cons_self other (List.mem_cons_of_mem _ hother),
      if_neg (not_not.2 rfl)]
    exact ht

theorem MergeEq.mergeGroup {n : Nat} {g : EGraph} {s s' : EGraph × Bool} (hs : MergeEq n g s s')
    {group : List EClassId} (hgroup : ∀ id ∈ group, id < g.nextId ∧ Own n g id) :
    MergeEq n g (EGraph.mergeGroup s group) (EGraph.mergeGroup s' group) := by
  cases group with
  | nil => exact hs
  | cons first others =>
    obtain ⟨hfirst, hownf⟩ := hgroup first List.mem_cons_self
    refine List.foldl_rel hs fun other hother s s' hs => ?_
    obtain ⟨hother, howno⟩ := hgroup other (List.mem_cons_of_mem _ hother)
    have hinv := hs.graph.inv
    rw [hs.graph.find_eq, hs.graph.find_eq]
    split
    · have ha : s.1.find first < s.1.nextId := hinv.find_lt (hs.nextId ▸ hfirst)
      have hb : s.1.find other < s.1.nextId := hinv.find_lt (hs.nextId ▸ hother)
      have howna : Own n s.1 (s.1.find first) := by
        rw [Own, hinv.find_find]
        exact hs.keeps _ hownf
      have hownb : Own n s.1 (s.1.find other) := by
        rw [Own, hinv.find_find]
        exact hs.keeps _ howno
      refine ⟨hs.graph.mergeNoRebuild ha hb howna hownb, rfl, ?_, fun id hid => ?_⟩
      · rw [nextId_mergeNoRebuild]
        exact hs.nextId
      · exact (hs.keeps id hid).mergeNoRebuild hinv hb
    · exact hs

theorem eq_of_canonicalize_leaf {n : Nat} {g : EGraph} {node : ENode}
    (h : (g.canonicalize node).Leaf n) : g.canonicalize node = node := by
  cases node with
  | lit c => rfl
  | vreg i => rfl
  | binOp op a b => exact absurd h ENode.not_leaf_binOp

theorem leaf_of_canonicalize {n : Nat} {g : EGraph} {node : ENode} (h : node.Leaf n) :
    (g.canonicalize node).Leaf n := by
  obtain ⟨m, rfl, hm⟩ := h
  exact ⟨m, rfl, hm⟩

/-- The classes that have a node of this canonical form. -/
def groupOf (g : EGraph) (node : ENode) : List EClassId :=
  (g.canonicalNodes.filter fun p => p.1 = node).map (·.2)

theorem mem_groupOf {g : EGraph} {node : ENode} {id : EClassId} (h : id ∈ g.groupOf node) :
    (node, id) ∈ g.canonicalNodes := by
  obtain ⟨⟨node', id'⟩, hp, rfl⟩ := List.mem_map.1 h
  obtain ⟨hmem, hnode⟩ := List.mem_filter.1 hp
  obtain rfl : node' = node := of_decide_eq_true hnode
  exact hmem

section

variable {n : Nat} {g g' : EGraph} (h : LeafEq n g g')

/-- The nodes whose groups are merged. -/
def ownCanonical (n : Nat) [DecidablePred (ENode.Leaf n)] (g : EGraph) : List (ENode × EClassId) :=
  g.canonicalNodes.filter fun p => ¬ p.1.Leaf n

/-- A group of leaves has one class, so only the other groups matter. -/
theorem rebuildOnce_eq [DecidablePred (ENode.Leaf n)]
    (honce : ∀ node id id', node.Leaf n → g.Mem node id → g.Mem node id' → id = id') :
    g.rebuildOnce = (sortByDebug ((ownCanonical n g).map (·.1)).dedup).foldl
      (fun s node => mergeGroup s (g.groupOf node)) (g, false) := by
  have hskip : ∀ s, ∀ node ∈ sortByDebug (g.canonicalNodes.map (·.1)).dedup,
      mergeGroup s (g.groupOf node) =
        if decide (¬ node.Leaf n) then mergeGroup s (g.groupOf node) else s := by
    intro s node _
    split
    · rfl
    · next hleaf =>
      have hleaf : node.Leaf n := by simpa using hleaf
      refine mergeGroup_of_eq (fun x hx y hy => ?_) s
      obtain ⟨-, m, hm, hcanon⟩ := mem_canonicalNodes (mem_groupOf hx)
      obtain ⟨-, m', hm', hcanon'⟩ := mem_canonicalNodes (mem_groupOf hy)
      rw [hcanon] at hleaf
      rw [eq_of_canonicalize_leaf hleaf] at hcanon hleaf
      rw [hcanon] at hcanon'
      rw [eq_of_canonicalize_leaf (hcanon' ▸ hleaf)] at hcanon'
      exact honce m x y hleaf hm (hcanon' ▸ hm')
  have htotal : Std.Total fun a b : ENode => a.debug ≤ b.debug := ⟨fun _ _ => String.le_total _ _⟩
  have htrans : IsTrans ENode fun a b => a.debug ≤ b.debug := ⟨fun _ _ _ => String.le_trans⟩
  rw [rebuildOnce, List.foldl_map]
  calc (sortByDebug (g.canonicalNodes.map (·.1)).dedup).foldl
        (fun s node => mergeGroup s (g.groupOf node)) (g, false)
      = ((sortByDebug (g.canonicalNodes.map (·.1)).dedup).filter fun node => ¬ node.Leaf n).foldl
          (fun s node => mergeGroup s (g.groupOf node)) (g, false) := by
        rw [List.foldl_filter]
        exact List.foldl_ext _ _ _ hskip
    _ = _ := by
        rw [sortByDebug, Lib.filter_insertionSort, Lib.filter_dedup, List.filter_map]
        rfl

include h

theorem LeafEq.canonicalize_eq (node : ENode) : g'.canonicalize node = g.canonicalize node := by
  cases node with
  | lit c => rfl
  | vreg i => rfl
  | binOp op a b => rw [canonicalize, canonicalize, h.find_eq, h.find_eq]

theorem LeafEq.ownCanonical_eq [DecidablePred (ENode.Leaf n)] :
    ownCanonical n g' = ownCanonical n g := by
  have hclass : ∀ id,
      ((g'.nodesOf id).map fun m => (g'.canonicalize m, id)).filter (fun p => ¬ p.1.Leaf n) =
        ((g.nodesOf id).map fun m => (g.canonicalize m, id)).filter fun p => ¬ p.1.Leaf n := by
    intro id
    simp only [h.canonicalize_eq]
    rcases h.nodesOf_cases id with ⟨m, m', hm, hm', hleaf, hleaf'⟩ | ⟨heq, -⟩
    · simp [hm, hm', leaf_of_canonicalize hleaf, leaf_of_canonicalize hleaf']
    · rw [heq]
  rw [ownCanonical, ownCanonical, canonicalNodes, canonicalNodes, List.filter_flatMap,
    List.filter_flatMap, h.canonicalIds_eq, funext hclass]

theorem LeafEq.groupOf_eq {node : ENode} (hnode : ¬ node.Leaf n) :
    g'.groupOf node = g.groupOf node := by
  classical
  have hsame : ∀ i : EGraph, i.groupOf node =
      ((ownCanonical n i).filter fun p => p.1 = node).map (·.2) := by
    intro i
    rw [groupOf, ownCanonical, List.filter_filter]
    congr 1
    refine List.filter_congr fun p _ => ?_
    by_cases hp : p.1 = node
    · simp [hp, hnode]
    · simp [hp]
  rw [hsame, hsame, h.ownCanonical_eq]

theorem LeafEq.rebuildOnce :
    MergeEq n g g.rebuildOnce g'.rebuildOnce := by
  classical
  rw [rebuildOnce_eq h.once, rebuildOnce_eq h.once',
    h.ownCanonical_eq]
  refine List.foldl_rel ⟨h, rfl, rfl, fun _ hid => hid⟩ fun node hnode s s' hs => ?_
  have hown : ¬ node.Leaf n := by
    obtain ⟨p, hp, rfl⟩ := List.mem_map.1 (List.mem_dedup.1 ((List.mem_insertionSort _).1 hnode))
    simpa using (List.mem_filter.1 hp).2
  rw [h.groupOf_eq hown]
  refine hs.mergeGroup fun id hid => ?_
  obtain ⟨hlt, m, hm, hcanon⟩ := mem_canonicalNodes (mem_groupOf hid)
  refine ⟨hlt, m, ?_, fun hleaf => hown (hcanon ▸ leaf_of_canonicalize hleaf)⟩
  rwa [h.inv.find_of_mem hm]

theorem LeafEq.rebuildLoop (k : Nat) : LeafEq n (rebuildLoop k g) (rebuildLoop k g') := by
  induction k generalizing g g' with
  | zero => exact h
  | succ k ih =>
    have honce := h.rebuildOnce
    simp only [EGraph.rebuildLoop, honce.merged]
    split
    · exact ih honce.graph
    · exact honce.graph

theorem LeafEq.rebuild : LeafEq n g.rebuild g'.rebuild := h.rebuildLoop 16

end

/-! ## Extracting -/

section

variable {n : Nat} {g g' : EGraph} (h : LeafEq n g g')
include h

theorem LeafEq.le_find {id : EClassId} (hid : n ≤ id) : n ≤ g.find id := by
  have hiter : ∀ k, n ≤ g.parents^[k] id := by
    intro k
    induction k with
    | zero => exact hid
    | succ k ih =>
      rw [Function.iterate_succ_apply']
      exact h.le_parents _ ih
  rw [find, findFrom_eq_iterate]
  exact hiter _

end

/-- The costs are the same, but for the leaves themselves, and so are the nodes of the classes
without leaves. -/
structure BestEq (n : Nat) (g g' : EGraph) (costFn : ENode → Nat) (best best' : Best) : Prop where
  cost : ∀ id, n ≤ id → best'.cost id = best.cost id
  leaf : ∀ id m m', id < n → g.classes id = some [.vreg m] → g'.classes id = some [.vreg m'] →
    best.cost id = none ∧ best'.cost id = none ∨
      best.cost id = some (satAddUsize (costFn (.vreg m)) 0) ∧
        best'.cost id = some (satAddUsize (costFn (.vreg m')) 0)
  node : ∀ id, (∀ node, g.Mem node id → ¬ node.Leaf n) → (g.classes id).isSome →
    best'.node id = best.node id

section

variable {n : Nat} {g g' : EGraph} (h : LeafEq n g g') {costFn : ENode → Nat}
  (hcost : ∀ a b, a < n → b < n → costFn (.vreg a) = costFn (.vreg b))

theorem BestEq.update {best best' : Best} (hb : BestEq n g g' costFn best best') {id : EClassId}
    {c c' : Nat} {node node' : ENode} (hge : n ≤ id → c' = c)
    (hlow : ∀ m m', id < n → g.classes id = some [.vreg m] → g'.classes id = some [.vreg m'] →
      c = satAddUsize (costFn (.vreg m)) 0 ∧ c' = satAddUsize (costFn (.vreg m')) 0)
    (hnode : (∀ node, g.Mem node id → ¬ node.Leaf n) → (g.classes id).isSome → node' = node) :
    BestEq n g g' costFn
      ⟨Function.update best.cost id (some c), Function.update best.node id (some node)⟩
      ⟨Function.update best'.cost id (some c'), Function.update best'.node id (some node')⟩ := by
  refine ⟨fun i hi => ?_, fun i m m' hi hm hm' => ?_, fun i hi hsome => ?_⟩
  · by_cases hid : i = id
    · subst hid
      simp only [Function.update_self, hge hi]
    · simp only [Function.update_of_ne hid]
      exact hb.cost i hi
  · by_cases hid : i = id
    · subst hid
      obtain ⟨hc, hc'⟩ := hlow m m' hi hm hm'
      refine .inr ⟨?_, ?_⟩
      · simp only [Function.update_self, hc]
      · simp only [Function.update_self, hc']
    · simp only [Function.update_of_ne hid]
      exact hb.leaf i m m' hi hm hm'
  · by_cases hid : i = id
    · subst hid
      simp only [Function.update_self, hnode hi hsome]
    · simp only [Function.update_of_ne hid]
      exact hb.node i hi hsome

theorem localBest_vreg (g : EGraph) (best : Best) (m : Nat) :
    g.localBest costFn best (sortByCost costFn [.vreg m]) =
      some (satAddUsize (costFn (.vreg m)) 0, .vreg m) := rfl

include h

theorem BestEq.totalCost_eq {best best' : Best} (hb : BestEq n g g' costFn best best')
    {node : ENode} (hops : node.OperandsIn n g.nextId) :
    g'.totalCost costFn best' node = g.totalCost costFn best node := by
  cases node with
  | lit c => rfl
  | vreg i => rfl
  | binOp op x y =>
    obtain ⟨⟨hx, -⟩, hy, -⟩ := hops
    simp only [totalCost, Best.costOf, h.find_eq, hb.cost _ (h.le_find hx),
      hb.cost _ (h.le_find hy)]

theorem BestEq.localBest_eq {best best' : Best} (hb : BestEq n g g' costFn best best')
    {nodes : List ENode} (hops : ∀ node ∈ nodes, node.OperandsIn n g.nextId) :
    g'.localBest costFn best' nodes = g.localBest costFn best nodes := by
  refine List.foldl_ext _ _ _ fun acc node hnode => ?_
  rw [hb.totalCost_eq h (hops node hnode)]

include hcost

theorem BestEq.extractClass {s s' : Best × Bool}
    (hs : BestEq n g g' costFn s.1 s'.1 ∧ s'.2 = s.2) (id : EClassId) :
    BestEq n g g' costFn (EGraph.extractClass g costFn s id).1
        (EGraph.extractClass g' costFn s' id).1 ∧
      (EGraph.extractClass g' costFn s' id).2 = (EGraph.extractClass g costFn s id).2 := by
  obtain ⟨hb, hflag⟩ := hs
  unfold EGraph.extractClass
  rcases h.classes id with ⟨m, m', hm, hm', hrange⟩ | ⟨hge, heq, hown⟩
  · have hnodes : g.nodesOf id = [.vreg m] := by rw [nodesOf, hm]; rfl
    have hnodes' : g'.nodesOf id = [.vreg m'] := by rw [nodesOf, hm']; rfl
    have hleaf : ¬ ∀ node, g.Mem node id → ¬ node.Leaf n := fun hown =>
      hown (.vreg m) ⟨_, hm, List.mem_singleton_self _⟩
        ⟨m, rfl, hrange.symm.imp (·.2.1) (·.2.1)⟩
    have hset : BestEq n g g' costFn
        ⟨Function.update s.1.cost id (some (satAddUsize (costFn (.vreg m)) 0)),
          Function.update s.1.node id (some (.vreg m))⟩
        ⟨Function.update s'.1.cost id (some (satAddUsize (costFn (.vreg m')) 0)),
          Function.update s'.1.node id (some (.vreg m'))⟩ := by
      refine hb.update (fun hge => ?_) (fun k k' _ hk hk' => ?_) fun hown => absurd hown hleaf
      · obtain ⟨hlt, -⟩ | ⟨-, hmn, hmn'⟩ := hrange
        · exact absurd hge hlt.not_ge
        · rw [hcost m m' hmn hmn']
      · rw [hm] at hk
        rw [hm'] at hk'
        cases hk
        cases hk'
        exact ⟨rfl, rfl⟩
    rw [hnodes, hnodes', localBest_vreg, localBest_vreg]
    simp only
    rcases hrange with ⟨hlt, -⟩ | ⟨hge, hmn, hmn'⟩
    · -- The cost of a leaf is found in the first round and does not change.
      rcases hb.leaf id m m' hlt hm hm' with ⟨hnone, hnone'⟩ | ⟨hsome, hsome'⟩
      · rw [hnone, hnone', if_pos (by simp), if_pos (by simp)]
        exact ⟨hset, rfl⟩
      · rw [hsome, hsome', if_neg (not_not.2 rfl), if_neg (not_not.2 rfl)]
        exact ⟨hb, hflag⟩
    · rw [hb.cost id hge, hcost m' m hmn' hmn]
      rw [hcost m' m hmn' hmn] at hset
      split
      · exact ⟨hset, rfl⟩
      · exact ⟨hb, hflag⟩
  · have hops : ∀ node ∈ sortByCost costFn (g.nodesOf id), node.OperandsIn n g.nextId :=
      fun node hnode =>
        h.operands node id (mem_nodesOf.1 ((List.mem_insertionSort _).1 hnode))
    have hnodes : g'.nodesOf id = g.nodesOf id := by rw [nodesOf, nodesOf, heq]
    rw [hnodes, hb.localBest_eq h hops, hb.cost id hge]
    split
    · split
      · exact ⟨hb.update (fun _ => rfl) (fun _ _ hlt => absurd hge hlt.not_ge) fun _ _ => rfl, rfl⟩
      · exact ⟨hb, hflag⟩
    · exact ⟨hb, hflag⟩

theorem BestEq.extractLoop {best best' : Best} (hb : BestEq n g g' costFn best best') (k : Nat) :
    BestEq n g g' costFn (EGraph.extractLoop g costFn k best)
      (EGraph.extractLoop g' costFn k best') := by
  induction k generalizing best best' with
  | zero => exact hb
  | succ k ih =>
    have hround : BestEq n g g' costFn
        (g.canonicalIds.foldl (EGraph.extractClass g costFn) (best, false)).1
          (g'.canonicalIds.foldl (EGraph.extractClass g' costFn) (best', false)).1 ∧
        (g'.canonicalIds.foldl (EGraph.extractClass g' costFn) (best', false)).2 =
          (g.canonicalIds.foldl (EGraph.extractClass g costFn) (best, false)).2 := by
      rw [h.canonicalIds_eq]
      exact List.foldl_rel (r := fun s s' : Best × Bool =>
        BestEq n g g' costFn s.1 s'.1 ∧ s'.2 = s.2) ⟨hb, rfl⟩
        fun id _ _ _ hs => BestEq.extractClass h hcost hs id
    simp only [EGraph.extractLoop, hround.2]
    split
    · exact ih hround.1
    · exact hround.1

/-- The same node is extracted for a class that has a node that is not a leaf. -/
theorem LeafEq.extract_eq {id : EClassId} (hown : Own n g id) :
    g'.extract id costFn = g.extract id costFn := by
  have hempty : BestEq n g g' costFn {} {} :=
    ⟨fun _ _ => rfl, fun _ _ _ _ _ _ => .inl ⟨rfl, rfl⟩, fun _ _ _ => rfl⟩
  have hbest := hempty.extractLoop h hcost 64
  have hsome : (g.classes (g.find id)).isSome := by
    obtain ⟨node, ⟨nodes, hnodes, -⟩, -⟩ := hown
    rw [hnodes]
    rfl
  rw [extract, extract, h.find_eq, hbest.node _ (h.classes_of_own hown).2.2 hsome]

end

end EGraph

end Vuma.Opt
