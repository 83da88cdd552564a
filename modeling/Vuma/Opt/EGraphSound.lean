import Vuma.Opt.EGraph

/-!
# Models of e-graphs

A valuation gives a word to every number, be it a class or a register. It is a model of an e-graph
when all nodes of a class have the value of the class. Merging classes that are equal in all models
changes none of them, and adding a node extends a model to the new class, unless some node already
uses the number of the new class for a register. Everything that saturation does is made of these
two steps.
-/

namespace Vuma.Opt

open IR

/-- The value of a binary operation on 64-bit words; a division by zero is given the value zero. -/
def evalOp (op : BinOpKind) (a b : Word) : Word := (intBinOp op none a b).getD 0

/-- The operations that can trap. -/
def isDivision (op : BinOpKind) : Bool := op == .sdiv || op == .udiv || op == .srem || op == .urem

/-- What the binary operations compute. -/
abbrev OpValue := BinOpKind → Word → Word → Word

/-- Apart from divisions, the operations are those of 64-bit words. -/
def OpValue.Standard (ev : OpValue) : Prop := ∀ op, isDivision op = false → ev op = evalOp op

variable {ev : OpValue}

namespace ENode

def value (ev : OpValue) (v : Nat → Word) : ENode → Word
  | .lit c => c
  | .vreg id => v id
  | .binOp op lhs rhs => ev op (v lhs) (v rhs)

def divides : ENode → Bool
  | .binOp op .. => isDivision op
  | _ => false

/-- The numbers that a node refers to. -/
def refs : ENode → List Nat
  | .lit _ => []
  | .vreg id => [id]
  | .binOp _ lhs rhs => [lhs, rhs]

@[simp] theorem forall_refs_binOp {p : Nat → Prop} {op : BinOpKind} {lhs rhs : EClassId} :
    (∀ k ∈ (binOp op lhs rhs).refs, p k) ↔ p lhs ∧ p rhs := by
  simp [refs]

theorem value_congr {v v' : Nat → Word} {n : ENode} (h : ∀ k ∈ n.refs, v k = v' k) :
    n.value ev v = n.value ev v' := by
  cases n with
  | lit c => rfl
  | vreg id => exact h id (by simp [refs])
  | binOp op lhs rhs =>
    rw [value, value, h lhs (by simp [refs]), h rhs (by simp [refs])]

end ENode

namespace EGraph

/-- The node belongs to the class. -/
def Mem (g : EGraph) (n : ENode) (id : EClassId) : Prop := ∃ ns, g.classes id = some ns ∧ n ∈ ns

/-- All nodes of a class have its value, and an id has the value of the class it was merged into. -/
structure Models (ev : OpValue) (v : Nat → Word) (g : EGraph) : Prop where
  nodes : ∀ n id, g.Mem n id → n.value ev v = v id
  ids : ∀ id, v (g.find id) = v id

/-- The ids that were merged into others. -/
def nonRoots (g : EGraph) : Finset EClassId :=
  (Finset.range g.nextId).filter fun id => g.parents id ≠ id

/-- What holds of every e-graph that is built by adding and merging. -/
structure Inv (g : EGraph) : Prop where
  depth : ∃ d ≤ g.nonRoots.card, Lib.DepthAtMost g.parents d
  parents_lt : ∀ id < g.nextId, g.parents id < g.nextId
  parents_ge : ∀ id, g.nextId ≤ id → g.parents id = id
  nonempty : ∀ id < g.nextId, g.parents id = id → ∃ n, g.Mem n id
  root_of_mem : ∀ n id, g.Mem n id → id < g.nextId ∧ g.parents id = id
  hashcons : ∀ n id, g.hashcons n = some id → id < g.nextId ∧ g.Mem n (g.find id)

/-! ## Canonical ids -/

theorem findFrom_eq_iterate (parents : EClassId → EClassId) (fuel : Nat) (id : EClassId) :
    findFrom parents fuel id = parents^[fuel] id := by
  induction fuel generalizing id with
  | zero => rfl
  | succ fuel ih =>
    rw [findFrom, Function.iterate_succ_apply]
    split
    · next h => rw [h, Lib.iterate_of_root h]
    · exact ih _

theorem card_nonRoots_le (g : EGraph) : g.nonRoots.card ≤ g.nextId :=
  (Finset.card_filter_le _ _).trans (Finset.card_range _).le

theorem find_of_root {g : EGraph} {id : EClassId} (h : g.parents id = id) : g.find id = id := by
  rw [find, findFrom_eq_iterate, Lib.iterate_of_root h]

section

variable {g : EGraph} (h : g.Inv)
include h

/-- Any number of steps that is enough finds the root. -/
theorem Inv.exists_depth : ∃ d ≤ g.nonRoots.card, Lib.DepthAtMost g.parents d ∧
    ∀ id, g.find id = g.parents^[d] id := by
  obtain ⟨d, hd, hdepth⟩ := h.depth
  refine ⟨d, hd, hdepth, fun id => ?_⟩
  rw [find, findFrom_eq_iterate]
  exact hdepth.iterate_eq (hd.trans g.card_nonRoots_le) id

theorem Inv.parents_find (id : EClassId) : g.parents (g.find id) = g.find id := by
  obtain ⟨d, -, hdepth, hfind⟩ := h.exists_depth
  rw [hfind]
  exact hdepth id

theorem Inv.find_find (id : EClassId) : g.find (g.find id) = g.find id :=
  find_of_root (h.parents_find id)

theorem Inv.find_lt {id : EClassId} (hid : id < g.nextId) : g.find id < g.nextId := by
  have hiter : ∀ n, g.parents^[n] id < g.nextId := by
    intro n
    induction n with
    | zero => exact hid
    | succ n ih =>
      rw [Function.iterate_succ_apply']
      exact h.parents_lt _ ih
  rw [find, findFrom_eq_iterate]
  exact hiter _

theorem Inv.find_ge {id : EClassId} (hid : g.nextId ≤ id) : g.find id = id :=
  find_of_root (h.parents_ge id hid)

theorem Inv.exists_mem_find {id : EClassId} (hid : id < g.nextId) : ∃ n, g.Mem n (g.find id) :=
  h.nonempty _ (h.find_lt hid) (h.parents_find id)

theorem Inv.find_of_mem {n : ENode} {id : EClassId} (hmem : g.Mem n id) : g.find id = id :=
  find_of_root (h.root_of_mem n id hmem).2

end

/-! ## Adding a node -/

/-- The graph with a node in a class of its own. -/
def addNew (g : EGraph) (node : ENode) : EGraph where
  hashcons := Function.update g.hashcons node (some g.nextId)
  classes := Function.update g.classes g.nextId (some [node])
  parents := Function.update g.parents g.nextId g.nextId
  nextId := g.nextId + 1

theorem add_cases (g : EGraph) (node : ENode) :
    (∃ id, g.hashcons node = some id ∧ g.add node = (g.find id, g)) ∨
      g.hashcons node = none ∧ g.add node = (g.nextId, g.addNew node) := by
  unfold add
  cases hg : g.hashcons node with
  | some id => exact .inl ⟨id, rfl, rfl⟩
  | none => exact .inr ⟨rfl, rfl⟩

section

variable {g : EGraph} (h : g.Inv) (node : ENode)
include h

theorem Inv.parents_addNew : (g.addNew node).parents = g.parents :=
  Function.update_eq_self_iff.2 (h.parents_ge _ le_rfl).symm

theorem Inv.find_addNew (id : EClassId) : (g.addNew node).find id = g.find id := by
  obtain ⟨d, hd, hdepth, hfind⟩ := h.exists_depth
  have hle : d ≤ (g.addNew node).nextId := (hd.trans g.card_nonRoots_le).trans (Nat.le_succ _)
  rw [hfind, find, findFrom_eq_iterate, h.parents_addNew, hdepth.iterate_eq hle]

theorem Inv.mem_addNew {n : ENode} {id : EClassId} :
    (g.addNew node).Mem n id ↔ g.Mem n id ∨ n = node ∧ id = g.nextId := by
  by_cases hid : id = g.nextId
  · subst hid
    have hno : ¬ g.Mem n g.nextId := fun hmem => (h.root_of_mem _ _ hmem).1.false
    rw [or_iff_right hno]
    simp [Mem, addNew]
  · simp [Mem, addNew, hid]

theorem Inv.addNew : (g.addNew node).Inv := by
  have hpar := h.parents_addNew node
  refine ⟨?_, fun id hid => ?_, fun id hid => ?_, fun id hid hroot => ?_, fun n id hmem => ?_,
    fun n id hcons => ?_⟩
  · obtain ⟨d, hd, hdepth⟩ := h.depth
    refine ⟨d, hd.trans (Finset.card_le_card fun id hid => ?_), by rwa [hpar]⟩
    rw [nonRoots, Finset.mem_filter, Finset.mem_range] at hid ⊢
    rw [hpar]
    exact ⟨hid.1.trans (Nat.lt_succ_self _), hid.2⟩
  · rw [hpar]
    rcases Nat.lt_succ_iff_lt_or_eq.1 hid with hlt | rfl
    · exact (h.parents_lt id hlt).trans (Nat.lt_succ_self _)
    · rw [h.parents_ge _ le_rfl]
      exact hid
  · rw [hpar]
    exact h.parents_ge id ((Nat.le_succ _).trans hid)
  · rcases Nat.lt_succ_iff_lt_or_eq.1 hid with hlt | rfl
    · rw [hpar] at hroot
      obtain ⟨n, hn⟩ := h.nonempty id hlt hroot
      exact ⟨n, (h.mem_addNew node).2 (.inl hn)⟩
    · exact ⟨node, (h.mem_addNew node).2 (.inr ⟨rfl, rfl⟩)⟩
  · rw [hpar]
    rcases (h.mem_addNew node).1 hmem with hmem | ⟨-, rfl⟩
    · exact ⟨(h.root_of_mem n id hmem).1.trans (Nat.lt_succ_self _), (h.root_of_mem n id hmem).2⟩
    · exact ⟨Nat.lt_succ_self _, h.parents_ge _ le_rfl⟩
  · rw [h.find_addNew, h.mem_addNew]
    by_cases hn : n = node
    · have hid : g.nextId = id := by
        simpa [EGraph.addNew, hn] using hcons
      subst hid
      exact ⟨Nat.lt_succ_self _, .inr ⟨hn, h.find_ge le_rfl⟩⟩
    · have hcons' : g.hashcons n = some id := by
        simpa [EGraph.addNew, hn] using hcons
      obtain ⟨hlt, hmem⟩ := h.hashcons n id hcons'
      exact ⟨hlt.trans (Nat.lt_succ_self _), .inl hmem⟩

end

/-! ## Merging two classes -/

theorem mem_foldl_insert {n : ENode} (nodes s : List ENode) :
    n ∈ nodes.foldl (fun s n => if n ∈ s then s else s ++ [n]) s ↔ n ∈ s ∨ n ∈ nodes := by
  induction nodes generalizing s with
  | nil => simp
  | cons m nodes ih =>
    rw [List.foldl_cons, ih, List.mem_cons]
    by_cases hm : m ∈ s
    · rw [if_pos hm]
      constructor
      · tauto
      · rintro (hn | rfl | hn)
        · exact .inl hn
        · exact .inl hm
        · exact .inr hn
    · rw [if_neg hm, List.mem_append, List.mem_singleton, or_assoc]

section

variable {g : EGraph} (h : g.Inv) {a b : EClassId}

theorem mergeNoRebuild_of_eq (hab : g.find a = g.find b) : g.mergeNoRebuild a b = g :=
  if_pos hab

theorem nextId_mergeNoRebuild (g : EGraph) (a b : EClassId) :
    (g.mergeNoRebuild a b).nextId = g.nextId := by
  unfold mergeNoRebuild
  simp only
  split
  · rfl
  · split <;> rfl

theorem parents_mergeNoRebuild (hab : g.find a ≠ g.find b) :
    (g.mergeNoRebuild a b).parents = Function.update g.parents (g.find b) (g.find a) := by
  unfold mergeNoRebuild
  simp only [if_neg hab]
  split <;> rfl

include h

/-- Linking the root of `b` to that of `a` adds one to the length of a path. -/
theorem Inv.depth_mergeNoRebuild (hb : b < g.nextId) (hab : g.find a ≠ g.find b) :
    ∃ d, d + 1 ≤ (g.mergeNoRebuild a b).nonRoots.card ∧ Lib.DepthAtMost g.parents d ∧
      ∀ id, g.find id = g.parents^[d] id := by
  obtain ⟨d, hd, hdepth, hfind⟩ := h.exists_depth
  have hnew : g.find b ∉ g.nonRoots := by
    simp [nonRoots, h.parents_find]
  have hsub : insert (g.find b) g.nonRoots ⊆ (g.mergeNoRebuild a b).nonRoots := by
    intro id hid
    rw [nonRoots, Finset.mem_filter, Finset.mem_range, parents_mergeNoRebuild hab,
      nextId_mergeNoRebuild]
    by_cases hroot : id = g.find b
    · subst hroot
      rw [Function.update_self]
      exact ⟨h.find_lt hb, hab⟩
    · rw [Function.update_of_ne hroot]
      have hmem := (Finset.mem_insert.1 hid).resolve_left hroot
      rwa [nonRoots, Finset.mem_filter, Finset.mem_range] at hmem
  refine ⟨d, ?_, hdepth, hfind⟩
  calc d + 1 ≤ g.nonRoots.card + 1 := Nat.succ_le_succ hd
    _ = (insert (g.find b) g.nonRoots).card := (Finset.card_insert_of_notMem hnew).symm
    _ ≤ _ := Finset.card_le_card hsub

theorem Inv.find_mergeNoRebuild (hb : b < g.nextId) (id : EClassId) :
    (g.mergeNoRebuild a b).find id = if g.find id = g.find b then g.find a else g.find id := by
  by_cases hab : g.find a = g.find b
  · rw [mergeNoRebuild_of_eq hab]
    split
    · next heq => rw [heq, hab]
    · rfl
  · obtain ⟨d, hd, hdepth, hfind⟩ := h.depth_mergeNoRebuild hb hab
    have hlink := hdepth.link (h.parents_find a) (h.parents_find b) hab
    have hle := hd.trans (card_nonRoots_le _)
    rw [find, findFrom_eq_iterate, parents_mergeNoRebuild hab, hlink.iterate_eq hle,
      Lib.iterate_link (h.parents_find a) (h.parents_find b) hab (hdepth id), hfind id]

theorem Inv.find_mergeNoRebuild_congr (hb : b < g.nextId) {id id' : EClassId}
    (heq : g.find id = g.find id') :
    (g.mergeNoRebuild a b).find id = (g.mergeNoRebuild a b).find id' := by
  rw [h.find_mergeNoRebuild hb, h.find_mergeNoRebuild hb, heq]

theorem Inv.exists_nodes (hb : b < g.nextId) : ∃ nodes, g.classes (g.find b) = some nodes := by
  obtain ⟨n, nodes, hnodes, -⟩ := h.exists_mem_find hb
  exact ⟨nodes, hnodes⟩

theorem Inv.mem_mergeNoRebuild (hb : b < g.nextId) {n : ENode} {id : EClassId} :
    (g.mergeNoRebuild a b).Mem n id ↔
      ∃ id₀, g.Mem n id₀ ∧ id = (g.mergeNoRebuild a b).find id₀ := by
  by_cases hab : g.find a = g.find b
  · rw [mergeNoRebuild_of_eq hab]
    constructor
    · exact fun hmem => ⟨id, hmem, (h.find_of_mem hmem).symm⟩
    · rintro ⟨id₀, hmem, rfl⟩
      rwa [h.find_of_mem hmem]
  obtain ⟨nodes, hnodes⟩ := h.exists_nodes hb
  have hclasses : (g.mergeNoRebuild a b).classes =
      Function.update (Function.update g.classes (g.find b) none) (g.find a)
        (some (nodes.foldl (fun s n => if n ∈ s then s else s ++ [n])
          (g.nodesOf (g.find a)))) := by
    simp [mergeNoRebuild, hab, hnodes]
  have hfind := fun id => h.find_mergeNoRebuild (a := a) hb id
  have hmemB : g.Mem n (g.find b) ↔ n ∈ nodes := by
    simp [Mem, hnodes]
  have hmemA : g.Mem n (g.find a) ↔ n ∈ g.nodesOf (g.find a) := by
    rw [Mem, nodesOf]
    cases g.classes (g.find a) <;> simp
  have hmem : (g.mergeNoRebuild a b).Mem n id ↔
      (id = g.find a ∧ (g.Mem n (g.find a) ∨ g.Mem n (g.find b))) ∨
        (id ≠ g.find a ∧ id ≠ g.find b ∧ g.Mem n id) := by
    rw [hmemA, hmemB, Mem, hclasses]
    by_cases ha : id = g.find a
    · subst ha
      simp only [Function.update_self, Option.some.injEq, exists_eq_left', mem_foldl_insert]
      simp
    · rw [Function.update_of_ne ha]
      by_cases hid : id = g.find b
      · subst hid
        simp [ha]
      · rw [Function.update_of_ne hid]
        simp [ha, hid, Mem]
  rw [hmem]
  constructor
  · rintro (⟨rfl, hn | hn⟩ | ⟨-, hid, hn⟩)
    · refine ⟨_, hn, ?_⟩
      rw [hfind, h.find_find, if_neg hab]
    · refine ⟨_, hn, ?_⟩
      rw [hfind, h.find_find, if_pos rfl]
    · refine ⟨_, hn, ?_⟩
      rw [hfind, h.find_of_mem hn, if_neg hid]
  · rintro ⟨id₀, hn, rfl⟩
    rw [hfind, h.find_of_mem hn]
    by_cases hid : id₀ = g.find b
    · rw [if_pos hid]
      exact .inl ⟨rfl, .inr (hid ▸ hn)⟩
    · rw [if_neg hid]
      by_cases hid' : id₀ = g.find a
      · exact .inl ⟨hid', .inl (hid' ▸ hn)⟩
      · exact .inr ⟨hid', hid, hn⟩

theorem Inv.mergeNoRebuild (ha : a < g.nextId) (hb : b < g.nextId) :
    (g.mergeNoRebuild a b).Inv := by
  by_cases hab : g.find a = g.find b
  · rwa [mergeNoRebuild_of_eq hab]
  have hpar := parents_mergeNoRebuild hab
  have hnext := nextId_mergeNoRebuild g a b
  have hroots : ∀ id, (g.mergeNoRebuild a b).parents ((g.mergeNoRebuild a b).find id) =
      (g.mergeNoRebuild a b).find id := by
    intro id
    rw [h.find_mergeNoRebuild hb, hpar]
    split
    · rw [Function.update_of_ne hab, h.parents_find]
    · next hid => rw [Function.update_of_ne hid, h.parents_find]
  have hfindlt : ∀ id < g.nextId, (g.mergeNoRebuild a b).find id < g.nextId := by
    intro id hid
    rw [h.find_mergeNoRebuild hb]
    split
    · exact h.find_lt ha
    · exact h.find_lt hid
  refine ⟨?_, fun id hid => ?_, fun id hid => ?_, fun id hid hroot => ?_, fun n id hmem => ?_,
    fun n id hcons => ?_⟩
  · obtain ⟨d, hd, hdepth, -⟩ := h.depth_mergeNoRebuild hb hab
    refine ⟨d + 1, hd, ?_⟩
    rw [hpar]
    exact hdepth.link (h.parents_find a) (h.parents_find b) hab
  · rw [hnext] at hid ⊢
    rw [hpar, Function.update_apply]
    split
    · exact h.find_lt ha
    · exact h.parents_lt id hid
  · rw [hnext] at hid
    rw [hpar, Function.update_of_ne (fun heq => ?_)]
    · exact h.parents_ge id hid
    · exact (heq ▸ h.find_lt hb).not_ge hid
  · rw [hnext] at hid
    rw [hpar] at hroot
    have hne : id ≠ g.find b := by
      rintro rfl
      rw [Function.update_self] at hroot
      exact hab hroot
    rw [Function.update_of_ne hne] at hroot
    obtain ⟨n, hn⟩ := h.nonempty id hid hroot
    refine ⟨n, (h.mem_mergeNoRebuild hb).2 ⟨id, hn, ?_⟩⟩
    rw [h.find_mergeNoRebuild hb, find_of_root hroot, if_neg hne]
  · obtain ⟨id₀, hn, rfl⟩ := (h.mem_mergeNoRebuild hb).1 hmem
    rw [hnext]
    exact ⟨hfindlt _ (h.root_of_mem n id₀ hn).1, hroots id₀⟩
  · obtain ⟨nodes, hnodes⟩ := h.exists_nodes hb
    have hcons' : (if n ∈ nodes then some (g.find a) else g.hashcons n) = some id := by
      simpa [EGraph.mergeNoRebuild, hab, hnodes] using hcons
    rw [hnext, h.mem_mergeNoRebuild hb]
    split at hcons'
    · next hn =>
      cases hcons'
      refine ⟨h.find_lt ha, g.find b, ⟨nodes, hnodes, hn⟩, ?_⟩
      rw [h.find_mergeNoRebuild hb, h.find_mergeNoRebuild hb, h.find_find, h.find_find,
        if_pos rfl, if_neg hab]
    · obtain ⟨hlt, hn⟩ := h.hashcons n id hcons'
      exact ⟨hlt, g.find id, hn, h.find_mergeNoRebuild_congr hb (h.find_find id).symm⟩

end

/-! ## Models -/

section

variable {g : EGraph} (h : g.Inv) {v : Nat → Word}
include h

theorem Models.of_addNew {node : ENode} (hv : Models ev v (g.addNew node)) : Models ev v g := by
  refine ⟨fun n id hmem => ?_, fun id => ?_⟩
  · exact hv.nodes n id ((h.mem_addNew node).2 (.inl hmem))
  · rw [← h.find_addNew node]
    exact hv.ids id

theorem Models.addNew {node : ENode} (hv : Models ev v g) (hnode : g.nextId ∉ node.refs)
    (hrefs : ∀ n id, g.Mem n id → g.nextId ∉ n.refs) :
    Models ev (Function.update v g.nextId (node.value ev v)) (g.addNew node) := by
  have hvalue : ∀ n : ENode, g.nextId ∉ n.refs →
      n.value ev (Function.update v g.nextId (node.value ev v)) = n.value ev v := by
    intro n hn
    refine ENode.value_congr fun k hk => Function.update_of_ne ?_ _ _
    rintro rfl
    exact hn hk
  refine ⟨fun n id hmem => ?_, fun id => ?_⟩
  · rcases (h.mem_addNew node).1 hmem with hmem | ⟨rfl, rfl⟩
    · rw [hvalue n (hrefs n id hmem), Function.update_of_ne (h.root_of_mem n id hmem).1.ne]
      exact hv.nodes n id hmem
    · rw [hvalue n hnode, Function.update_self]
  · rw [h.find_addNew]
    rcases lt_or_ge id g.nextId with hid | hid
    · rw [Function.update_of_ne hid.ne, Function.update_of_ne (h.find_lt hid).ne]
      exact hv.ids id
    · rw [h.find_ge hid]

variable {a b : EClassId} (hb : b < g.nextId)
include hb

theorem Models.of_mergeNoRebuild (hv : Models ev v (g.mergeNoRebuild a b)) : Models ev v g := by
  refine ⟨fun n id hmem => ?_, fun id => ?_⟩
  · rw [hv.nodes n _ ((h.mem_mergeNoRebuild hb).2 ⟨id, hmem, rfl⟩)]
    exact hv.ids id
  · rw [← hv.ids (g.find id), h.find_mergeNoRebuild_congr hb (h.find_find id)]
    exact hv.ids id

theorem Models.mergeNoRebuild (hv : Models ev v g) (hab : v a = v b) :
    Models ev v (g.mergeNoRebuild a b) := by
  have hids : ∀ id, v ((g.mergeNoRebuild a b).find id) = v id := by
    intro id
    rw [h.find_mergeNoRebuild hb]
    split
    · next heq => rw [hv.ids, hab, ← hv.ids b, ← heq, hv.ids]
    · exact hv.ids id
  refine ⟨fun n id hmem => ?_, hids⟩
  obtain ⟨id₀, hmem₀, rfl⟩ := (h.mem_mergeNoRebuild hb).1 hmem
  rw [hids, hv.nodes n id₀ hmem₀]

end

/-! ## Divisions

No rule is about divisions. So a class that has one has no other nodes than divisions of the same
kind, with operands that are equal in every model.
-/

/-- Two nodes of which neither is a division, or two divisions of equal operands. -/
inductive Alike (ev : OpValue) (g : EGraph) : ENode → ENode → Prop
  | plain {n m : ENode} : n.divides = false → m.divides = false → Alike ev g n m
  | binOp {op : BinOpKind} {a b a' b' : EClassId} :
      (∀ v, Models ev v g → v a = v a' ∧ v b = v b') → Alike ev g (.binOp op a b) (.binOp op a' b')

namespace Alike

variable {g h : EGraph} {l m n : ENode}

theorem refl (g : EGraph) (n : ENode) : Alike ev g n n := by
  cases n with
  | lit c => exact .plain rfl rfl
  | vreg i => exact .plain rfl rfl
  | binOp op a b => exact .binOp fun _ _ => ⟨rfl, rfl⟩

theorem symm (hnm : Alike ev g n m) : Alike ev g m n := by
  cases hnm with
  | plain hn hm => exact .plain hm hn
  | binOp h => exact .binOp fun v hv => ⟨(h v hv).1.symm, (h v hv).2.symm⟩

theorem divides_eq (hnm : Alike ev g n m) : n.divides = m.divides := by
  cases hnm with
  | plain hn hm => rw [hn, hm]
  | binOp h => rfl

theorem trans (hlm : Alike ev g l m) (hmn : Alike ev g m n) : Alike ev g l n := by
  cases hlm with
  | plain hl hm => exact .plain hl (hmn.divides_eq ▸ hm)
  | binOp h =>
    cases hmn with
    | plain hm hn => exact .plain hm hn
    | binOp h' =>
      exact .binOp fun v hv => ⟨(h v hv).1.trans (h' v hv).1, (h v hv).2.trans (h' v hv).2⟩

theorem mono (hgh : ∀ v, Models ev v h → Models ev v g) (hnm : Alike ev g n m) :
    Alike ev h n m := by
  cases hnm with
  | plain hn hm => exact .plain hn hm
  | binOp heq => exact .binOp fun v hv => heq v (hgh v hv)

end Alike

/-- All nodes of a class are alike. -/
def Uniform (ev : OpValue) (g : EGraph) : Prop :=
  ∀ id n m, g.Mem n id → g.Mem m id → Alike ev g n m

section

variable {g : EGraph} (h : g.Inv)
include h

theorem Uniform.addNew (hu : g.Uniform ev) (node : ENode) : (g.addNew node).Uniform ev := by
  intro id n m hn hm
  rcases (h.mem_addNew node).1 hn with hn | ⟨rfl, hid⟩
  · rcases (h.mem_addNew node).1 hm with hm | ⟨-, hid⟩
    · exact (hu id n m hn hm).mono fun v hv => hv.of_addNew h
    · exact absurd hid (h.root_of_mem n id hn).1.ne
  · rcases (h.mem_addNew n).1 hm with hm | ⟨rfl, -⟩
    · exact absurd hid (h.root_of_mem m id hm).1.ne
    · exact .refl _ _

theorem Uniform.mergeNoRebuild (hu : g.Uniform ev) {a b : EClassId} (hb : b < g.nextId)
    {n m : ENode} (hn : g.Mem n (g.find a)) (hm : g.Mem m (g.find b)) (hnm : Alike ev g n m) :
    (g.mergeNoRebuild a b).Uniform ev := by
  have hmono := fun v (hv : Models ev v (g.mergeNoRebuild a b)) => hv.of_mergeNoRebuild h hb
  -- Every node of the new class is alike to `n`.
  have hall : ∀ id k, g.Mem k id → (g.mergeNoRebuild a b).find id = g.find a → Alike ev g n k := by
    intro id k hk hid
    rw [h.find_mergeNoRebuild hb, h.find_of_mem hk] at hid
    split at hid
    · next heq => exact hnm.trans (hu _ m k hm (heq ▸ hk))
    · exact hu _ n k hn (hid ▸ hk)
  intro id k k' hmem hmem'
  obtain ⟨id₀, hk, rfl⟩ := (h.mem_mergeNoRebuild hb).1 hmem
  obtain ⟨id₁, hk', heq⟩ := (h.mem_mergeNoRebuild hb).1 hmem'
  refine Alike.mono hmono ?_
  by_cases hid : (g.mergeNoRebuild a b).find id₀ = g.find a
  · exact (hall id₀ k hk hid).symm.trans (hall id₁ k' hk' (heq ▸ hid))
  · have hsame : id₀ = id₁ := by
      have hid' := heq ▸ hid
      rw [h.find_mergeNoRebuild hb, h.find_of_mem hk] at heq hid
      rw [h.find_mergeNoRebuild hb, h.find_of_mem hk'] at heq hid'
      split at hid
      · exact absurd rfl hid
      · next h₀ =>
        split at hid'
        · exact absurd rfl hid'
        · next h₁ => rwa [if_neg h₀, if_neg h₁] at heq
    exact hu id₀ k k' hk (hsame ▸ hk')

end

/-! ## Steps -/

/-- A number that is a class or that occurs in a node. -/
def Known (g : EGraph) (k : Nat) : Prop := k < g.nextId ∨ ∃ n id, g.Mem n id ∧ k ∈ n.refs

/-- What is made of `g` by adding nodes over numbers that are known or in `ext`, and by merging
classes that are equal in every model and have nodes that are alike. -/
inductive Reach (ev : OpValue) (ext : Nat → Prop) (g : EGraph) : EGraph → Prop
  | refl : Reach ev ext g g
  | addNew {h : EGraph} (node : ENode) : Reach ev ext g h →
      (∀ k ∈ node.refs, h.Known k ∨ ext k) → Reach ev ext g (h.addNew node)
  | merge {h : EGraph} {a b : EClassId} {n m : ENode} : Reach ev ext g h →
      a < h.nextId → b < h.nextId → h.Mem n (h.find a) → h.Mem m (h.find b) → Alike ev h n m →
      (∀ v, Models ev v h → v a = v b) → Reach ev ext g (h.mergeNoRebuild a b)

namespace Reach

variable {ext : Nat → Prop} {g h : EGraph}

theorem trans {i : EGraph} (hgh : Reach ev ext g h) (hhi : Reach ev ext h i) : Reach ev ext g i := by
  induction hhi with
  | refl => exact hgh
  | addNew node _ hk ih => exact .addNew node ih hk
  | merge _ ha hb hn hm hnm hab ih => exact .merge ih ha hb hn hm hnm hab

theorem next_le (hgh : Reach ev ext g h) : g.nextId ≤ h.nextId := by
  induction hgh with
  | refl => exact le_rfl
  | addNew node _ _ ih => exact ih.trans (Nat.le_succ _)
  | merge _ _ _ _ _ _ _ ih => exact ih.trans (nextId_mergeNoRebuild _ _ _).ge

variable (hg : g.Inv)
include hg

theorem inv (hgh : Reach ev ext g h) : h.Inv := by
  induction hgh with
  | refl => exact hg
  | addNew node _ _ ih => exact ih.addNew node
  | merge _ ha hb _ _ _ _ ih => exact ih.mergeNoRebuild ha hb

theorem models {v : Nat → Word} (hgh : Reach ev ext g h) (hv : Models ev v h) : Models ev v g := by
  induction hgh with
  | refl => exact hv
  | addNew node hreach _ ih => exact ih (hv.of_addNew (hreach.inv hg))
  | merge hreach _ hb _ _ _ _ ih => exact ih (hv.of_mergeNoRebuild (hreach.inv hg) hb)

/-- A node stays in its class. -/
theorem mem {n : ENode} {id : EClassId} (hgh : Reach ev ext g h) (hmem : g.Mem n id) :
    h.Mem n (h.find id) := by
  induction hgh with
  | refl => rwa [hg.find_of_mem hmem]
  | addNew node hreach _ ih =>
    rw [(hreach.inv hg).find_addNew]
    exact ((hreach.inv hg).mem_addNew node).2 (.inl ih)
  | merge hreach _ hb _ _ _ _ ih =>
    refine ((hreach.inv hg).mem_mergeNoRebuild hb).2 ⟨_, ih, ?_⟩
    exact (hreach.inv hg).find_mergeNoRebuild_congr hb ((hreach.inv hg).find_find id).symm

theorem find_congr {id id' : EClassId} (hgh : Reach ev ext g h) (heq : g.find id = g.find id') :
    h.find id = h.find id' := by
  induction hgh with
  | refl => exact heq
  | addNew node hreach _ ih =>
    rw [(hreach.inv hg).find_addNew, (hreach.inv hg).find_addNew, ih]
  | merge hreach _ hb _ _ _ _ ih => exact (hreach.inv hg).find_mergeNoRebuild_congr hb ih

theorem uniform (hu : g.Uniform ev) (hgh : Reach ev ext g h) : h.Uniform ev := by
  induction hgh with
  | refl => exact hu
  | addNew node hreach _ ih => exact ih.addNew (hreach.inv hg) node
  | merge hreach _ hb hn hm hnm _ ih => exact ih.mergeNoRebuild (hreach.inv hg) hb hn hm hnm

theorem known {k : Nat} (hgh : Reach ev ext g h) (hk : g.Known k) : h.Known k := by
  rcases hk with hk | ⟨n, id, hmem, hk⟩
  · exact .inl (hk.trans_le hgh.next_le)
  · exact .inr ⟨n, _, hgh.mem hg hmem, hk⟩

/-- No step invents a number that is not a class. -/
theorem known_of_known {k : Nat} (hgh : Reach ev ext g h) (hk : h.Known k) :
    k < h.nextId ∨ g.Known k ∨ ext k := by
  induction hgh with
  | refl => exact .inr (.inl hk)
  | @addNew h node hreach hnode ih =>
    have hk' : k = h.nextId ∨ h.Known k ∨ ext k := by
      rcases hk with hk | ⟨n, id, hmem, hk⟩
      · exact (Nat.lt_succ_iff_lt_or_eq.1 hk).symm.imp_right fun hk => .inl (.inl hk)
      · rcases ((hreach.inv hg).mem_addNew node).1 hmem with hmem | ⟨rfl, rfl⟩
        · exact .inr (.inl (.inr ⟨n, id, hmem, hk⟩))
        · exact .inr (hnode k hk)
    rcases hk' with rfl | hk' | hk'
    · exact .inl (Nat.lt_succ_self _)
    · exact (ih hk').imp_left fun hlt => hlt.trans (Nat.lt_succ_self _)
    · exact .inr (.inr hk')
  | merge hreach _ hb _ _ _ _ ih =>
    rw [nextId_mergeNoRebuild]
    refine ih ?_
    rcases hk with hk | ⟨n, id, hmem, hk⟩
    · exact .inl (by rwa [nextId_mergeNoRebuild] at hk)
    · obtain ⟨id₀, hmem, -⟩ := ((hreach.inv hg).mem_mergeNoRebuild hb).1 hmem
      exact .inr ⟨n, id₀, hmem, hk⟩

theorem extend {v : Nat → Word} (hv : Models ev v g) {top : Nat} (hgh : Reach ev ext g h)
    (htop : h.nextId ≤ top) (hrefs : ∀ k, g.Known k ∨ ext k → k < g.nextId ∨ top ≤ k) :
    ∃ v', (∀ k, k < g.nextId ∨ h.nextId ≤ k → v' k = v k) ∧ Models ev v' h := by
  induction hgh with
  | refl => exact ⟨v, fun _ _ => rfl, hv⟩
  | @addNew h node hreach hnode ih =>
    have hinv := hreach.inv hg
    have hlt : h.nextId < top := htop
    obtain ⟨v', hagree, hv'⟩ := ih hlt.le
    have hfresh : ¬ (h.Known h.nextId ∨ ext h.nextId) := by
      intro hk
      have hk' : h.nextId < h.nextId ∨ g.Known h.nextId ∨ ext h.nextId :=
        hk.elim (hreach.known_of_known hg) fun hk => .inr (.inr hk)
      rcases hk' with hlt' | hk'
      · exact hlt'.false
      · rcases hrefs _ hk' with hk' | hk'
        · exact hk'.not_ge hreach.next_le
        · exact hlt.not_ge hk'
    refine ⟨_, fun k hk => ?_, hv'.addNew hinv (fun hk => hfresh (hnode _ hk))
      fun n id hmem hk => hfresh (.inl (.inr ⟨n, id, hmem, hk⟩))⟩
    have hne : k ≠ h.nextId := by
      rintro rfl
      exact hk.elim (fun hk => hk.not_ge hreach.next_le) fun hk => (Nat.lt_of_succ_le hk).false
    rw [Function.update_of_ne hne]
    exact hagree k (hk.imp_right fun hk => (Nat.le_succ _).trans hk)
  | merge hreach _ hb _ _ _ hab ih =>
    rw [nextId_mergeNoRebuild] at htop ⊢
    obtain ⟨v', hagree, hv'⟩ := ih htop
    exact ⟨v', hagree, hv'.mergeNoRebuild (hreach.inv hg) hb (hab v' hv')⟩

end Reach

end EGraph

end Vuma.Opt
