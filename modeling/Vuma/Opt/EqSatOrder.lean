import Vuma.Opt.EqSatCorrect
import Vuma.Opt.SaturateOrder

/-!
# Equality saturation in different orders

The pass numbers the registers of a block in the order of a hash set, and some rules take the first
node of a hash set that fits, so its result can depend on the orders. It does not when no rule has a
choice, the cost function treats the operands alike that name a register, and the numbers of the
leaves do not meet those of the classes (`equalitySaturationWithCost_order`).
-/

namespace Vuma.Opt

open IR

/-- No rule has a choice while a block is saturated, and nothing sees the numbers of its leaves. -/
def OrderFree (env : SatEnv) (costFn : ENode → Nat) (b : IRBlock) : Prop :=
  let n := (allRegs b.instructions).length
  let t := SatTables.build env b.instructions
  (∀ r ∈ allRegs b.instructions, 1000000 + r < 2 ^ 32) ∧ t.graph.nextId ≤ 1000000 ∧
    EGraph.saturateOk env.nodes orderedRules env.gate 10 t.graph ∧
    ∀ x y, x < n → y < n → costFn (.vreg x) = costFn (.vreg y)

namespace SatTables

open EGraph

/-! ## The leaves of a block -/

/-- The tables with a leaf for each of the registers, in their order. -/
structure LeavesOf (rs : List VReg) (t : SatTables) : Prop where
  inv : t.graph.Inv
  nextId : t.graph.nextId = rs.length
  parents : ∀ c, t.graph.parents c = c
  classes : ∀ c, t.graph.classes c = rs[c]?.map fun r => [.vreg (1000000 + r)]
  hashcons : ∀ r ∈ rs, t.graph.hashcons (.vreg (1000000 + r)) = some (rs.idxOf r)
  hashcons_none : ∀ node, (∀ r ∈ rs, node ≠ .vreg (1000000 + r)) → t.graph.hashcons node = none
  vregs : ∀ r, t.vregToEclass r = if r ∈ rs then some (rs.idxOf r) else none
  values : ∀ c, rs.length ≤ c → t.eclassToValue c = none

theorem LeavesOf.register {rs : List VReg} {t : SatTables} (h : LeavesOf rs t) {r : VReg}
    (hr : r ∉ rs) (hlt : 1000000 + r < 2 ^ 32) : LeavesOf (rs ++ [r]) (t.register r) := by
  have hnone : t.vregToEclass r = none := by rw [h.vregs, if_neg hr]
  have hfresh : t.graph.hashcons (.vreg (1000000 + r)) = none := by
    refine h.hashcons_none _ fun q hq heq => hr ?_
    rw [ENode.vreg.injEq, Nat.add_left_cancel_iff] at heq
    exact heq ▸ hq
  have hadd : t.graph.add (.vreg (1000000 + r)) =
      (t.graph.nextId, t.graph.addNew (.vreg (1000000 + r))) := by
    rw [EGraph.add, hfresh]
    rfl
  have hidx : (rs ++ [r]).idxOf r = rs.length := by
    rw [List.idxOf_append_of_notMem hr]
    simp
  have heq : t.register r =
      { graph := t.graph.addNew (.vreg (1000000 + r))
        vregToEclass := Function.update t.vregToEclass r (some rs.length)
        eclassToValue := Function.update t.eclassToValue rs.length (some (.register r)) } := by
    rw [SatTables.register, hnone, Nat.mod_eq_of_lt hlt, hadd, h.nextId]
  rw [heq]
  refine ⟨h.inv.addNew _, ?_, fun c => ?_, fun c => ?_, fun q hq => ?_, fun node hnode => ?_,
    fun q => ?_, fun c hc => ?_⟩
  · simp [EGraph.addNew, h.nextId]
  · rw [h.inv.parents_addNew]
    exact h.parents c
  · simp only [EGraph.addNew, h.nextId]
    by_cases hc : c = rs.length
    · simp [hc]
    · rw [Function.update_of_ne hc, h.classes]
      rcases Nat.lt_or_gt_of_ne hc with hc | hc
      · rw [List.getElem?_append_left hc]
      · have hlen : (rs ++ [r]).length ≤ c := by simpa using Nat.succ_le_of_lt hc
        rw [List.getElem?_eq_none hc.le, List.getElem?_eq_none hlen]
  · simp only [EGraph.addNew, h.nextId]
    by_cases hqr : q = r
    · rw [hqr, Function.update_self, hidx]
    · have hq : q ∈ rs := by simpa [hqr] using hq
      rw [Function.update_of_ne (by simpa using hqr), h.hashcons q hq,
        List.idxOf_append_of_mem hq]
  · simp only [EGraph.addNew]
    rw [Function.update_of_ne (hnode r (by simp))]
    exact h.hashcons_none node fun q hq => hnode q (by simp [hq])
  · simp only [Function.update_apply]
    by_cases hqr : q = r
    · rw [if_pos hqr, hqr, if_pos (by simp), hidx]
    · rw [if_neg hqr, h.vregs]
      by_cases hq : q ∈ rs
      · rw [if_pos hq, if_pos (by simp [hq]), List.idxOf_append_of_mem hq]
      · rw [if_neg hq, if_neg (by simp [hq, hqr])]
  · rw [List.length_append, List.length_singleton] at hc
    simp only [Function.update_of_ne (Nat.lt_of_succ_le hc).ne']
    exact h.values c (Nat.le_of_succ_le hc)

theorem leavesOf_foldl {rs : List VReg} (hnodup : rs.Nodup) (hlt : ∀ r ∈ rs, 1000000 + r < 2 ^ 32) :
    LeavesOf rs (rs.foldl register {}) := by
  induction rs using List.reverseRecOn with
  | nil =>
    exact ⟨.empty, rfl, fun _ => rfl, fun _ => rfl, nofun, fun _ _ => rfl, fun _ => rfl,
      fun _ _ => rfl⟩
  | append_singleton rs r ih =>
    rw [List.foldl_append]
    obtain ⟨hrs, -, hr⟩ := List.nodup_append.1 hnodup
    refine (ih hrs fun q hq => hlt q (List.mem_append_left _ hq)).register (fun hmem => ?_)
      (hlt r (by simp))
    exact hr r hmem r (List.mem_singleton_self _) rfl

/-! ## Building from two orders -/

/-- The graphs of a block whose registers are numbered in two orders, before anything is merged. -/
structure BuildEq (rs rs' : List VReg) (g g' : EGraph) : Prop where
  perm : rs'.Perm rs
  small : rs.length ≤ 1000000
  leafEq : LeafEq rs.length g g'
  plain : ∀ node id, g.Mem node id → g.hashcons node = some id
  plain' : ∀ node id, g'.Mem node id → g'.hashcons node = some id
  operands : ∀ r ∈ rs,
    g'.hashcons (.vreg (rs'.idxOf r)) = g.hashcons (.vreg (rs.idxOf r))

theorem plain_addNew {g : EGraph} (hg : g.Inv)
    (hplain : ∀ node id, g.Mem node id → g.hashcons node = some id) {node : ENode}
    (hnode : g.hashcons node = none) :
    ∀ m id, (g.addNew node).Mem m id → (g.addNew node).hashcons m = some id := by
  intro m id hmem
  rcases (hg.mem_addNew node).1 hmem with hmem | ⟨rfl, rfl⟩
  · have hcons := hplain m id hmem
    have hne : m ≠ node := by
      rintro rfl
      rw [hnode] at hcons
      cases hcons
    simp only [EGraph.addNew, Function.update_of_ne hne, hcons]
  · simp only [EGraph.addNew, Function.update_self]

section

variable {rs rs' : List VReg}

theorem LeavesOf.mem {t : SatTables} (h : LeavesOf rs t) {node : ENode} {c : EClassId}
    (hmem : t.graph.Mem node c) : ∃ r, rs[c]? = some r ∧ node = .vreg (1000000 + r) := by
  obtain ⟨nodes, hnodes, hnode⟩ := hmem
  rw [h.classes] at hnodes
  obtain ⟨r, hr, rfl⟩ := Option.map_eq_some_iff.1 hnodes
  exact ⟨r, hr, List.mem_singleton.1 hnode⟩

theorem LeavesOf.plain {t : SatTables} (h : LeavesOf rs t) (hnodup : rs.Nodup) {node : ENode}
    {c : EClassId} (hmem : t.graph.Mem node c) : t.graph.hashcons node = some c := by
  obtain ⟨r, hr, rfl⟩ := h.mem hmem
  obtain ⟨hlt, rfl⟩ := List.getElem?_eq_some_iff.1 hr
  rw [h.hashcons _ (List.getElem_mem hlt), hnodup.idxOf_getElem]

/-- With the registers in two orders, the leaves are alike. -/
theorem LeavesOf.buildEq {t t' : SatTables} (h : LeavesOf rs t) (h' : LeavesOf rs' t')
    (hperm : rs'.Perm rs) (hnodup : rs.Nodup) (hsmall : rs.length ≤ 1000000) :
    BuildEq rs rs' t.graph t'.graph := by
  have hlen := hperm.length_eq
  have hnodup' := hperm.nodup_iff.2 hnodup
  have hnone : ∀ k < rs.length, t.graph.hashcons (.vreg k) = none ∧
      t'.graph.hashcons (.vreg k) = none := by
    intro k hk
    have hne : ∀ r : VReg, (ENode.vreg k) ≠ .vreg (1000000 + r) := by
      intro r heq
      rw [ENode.vreg.injEq] at heq
      omega
    exact ⟨h.hashcons_none _ fun r _ => hne r, h'.hashcons_none _ fun r _ => hne r⟩
  refine ⟨hperm, hsmall, ⟨h.inv, h'.inv, ?_, ?_, fun node hnode => ?_, fun id => ?_,
    fun node id hmem => ?_, fun node id id' _ hid hid' => ?_, fun node id id' _ hid hid' => ?_,
    h.nextId.ge, fun id hid => ?_⟩,
    fun node id hmem => h.plain hnodup hmem, fun node id hmem => h'.plain hnodup' hmem,
    fun r hr => ?_⟩
  · rw [h.nextId, h'.nextId, hlen]
  · exact funext fun c => by rw [h.parents, h'.parents]
  · have hne : ∀ r : VReg, node ≠ .vreg (1000000 + r) := by
      rintro r rfl
      exact hnode ⟨_, rfl, .inr (Nat.le_add_right _ _)⟩
    rw [h.hashcons_none _ fun r _ => hne r, h'.hashcons_none _ fun r _ => hne r]
  · by_cases hid : id < rs.length
    · have hid' : id < rs'.length := hlen ▸ hid
      refine .inl ⟨1000000 + rs[id], 1000000 + rs'[id], ?_, ?_,
        .inl ⟨hid, Nat.le_add_right _ _, Nat.le_add_right _ _⟩⟩
      · rw [h.classes, List.getElem?_eq_getElem hid]
        rfl
      · rw [h'.classes, List.getElem?_eq_getElem hid']
        rfl
    · have hid := Nat.le_of_not_lt hid
      refine .inr ⟨hid, ?_, fun node hmem => ?_⟩
      · rw [h.classes, h'.classes, List.getElem?_eq_none hid,
          List.getElem?_eq_none (hlen ▸ hid)]
      · obtain ⟨r, hr, -⟩ := h.mem hmem
        rw [List.getElem?_eq_none hid] at hr
        cases hr
  · obtain ⟨r, -, rfl⟩ := h.mem hmem
    trivial
  · have hid := h.plain hnodup hid
    rw [h.plain hnodup hid'] at hid
    exact (Option.some.inj hid).symm
  · have hid := h'.plain hnodup' hid
    rw [h'.plain hnodup' hid'] at hid
    exact (Option.some.inj hid).symm
  · rw [h.parents]
    exact hid
  · rw [(hnone _ (List.idxOf_lt_length_iff.2 hr)).1,
      (hnone _ (hlen ▸ List.idxOf_lt_length_iff.2 (hperm.mem_iff.2 hr))).2]

/-- Two nodes are added to two graphs as the same class. -/
structure OperandEq (rs rs' : List VReg) (g : EGraph) (r r' : EClassId × EGraph) : Prop where
  id_eq : r'.1 = r.1
  graph : BuildEq rs rs' r.2 r'.2
  bounds : rs.length ≤ r.1 ∧ r.1 < r.2.nextId
  le : g.nextId ≤ r.2.nextId
  keeps : ∀ id, Own rs.length g id → Own rs.length r.2 id

variable {g g' : EGraph} (h : BuildEq rs rs' g g')
include h

theorem BuildEq.idxOf_lt {r : VReg} (hr : r ∈ rs) :
    rs.idxOf r < rs.length ∧ rs'.idxOf r < rs.length :=
  ⟨List.idxOf_lt_length_iff.2 hr,
    h.perm.length_eq ▸ List.idxOf_lt_length_iff.2 (h.perm.mem_iff.2 hr)⟩

theorem BuildEq.add {node : ENode} (hnode : ¬ node.Leaf rs.length)
    (hops : node.OperandsIn rs.length g.nextId) :
    OperandEq rs rs' g (g.add node) (g'.add node) := by
  have hadd := h.leafEq.add hnode hops
  have hcons := h.leafEq.hashcons node hnode
  refine ⟨hadd.id_eq, ?_, hadd.bounds, hadd.le, hadd.keeps⟩
  rcases g.add_cases node with ⟨id, hid, heq⟩ | ⟨hnone, heq⟩
  · have heq' : (g'.add node).2 = g' := by rw [EGraph.add, hcons, hid]
    rw [heq, heq']
    exact h
  · have heq' : (g'.add node).2 = g'.addNew node := by
      rw [EGraph.add, hcons, hnone]
      rfl
    have hne : ∀ k < rs.length, ENode.vreg k ≠ node := by
      rintro k hk rfl
      exact hnode ⟨k, rfl, .inl hk⟩
    refine ⟨h.perm, h.small, hadd.graph, ?_, ?_, fun r hr => ?_⟩
    · rw [heq]
      exact plain_addNew h.leafEq.inv h.plain hnone
    · rw [heq']
      exact plain_addNew h.leafEq.inv' h.plain' (hcons.trans hnone)
    · obtain ⟨hlt, hlt'⟩ := h.idxOf_lt hr
      rw [heq, heq']
      simp only [EGraph.addNew, Function.update_of_ne (hne _ hlt),
        Function.update_of_ne (hne _ hlt'), h.operands r hr]

/-- The operands that name the leaf of a register. -/
theorem BuildEq.add_operand {r : VReg} (hr : r ∈ rs) :
    OperandEq rs rs' g (g.add (.vreg (rs.idxOf r))) (g'.add (.vreg (rs'.idxOf r))) := by
  obtain ⟨hlt, hlt'⟩ := h.idxOf_lt hr
  have hcons := h.operands r hr
  have hinv := h.leafEq.inv
  rcases g.add_cases (.vreg (rs.idxOf r)) with ⟨id, hid, heq⟩ | ⟨hnone, heq⟩
  · have heq' : g'.add (.vreg (rs'.idxOf r)) = (g.find id, g') := by
      rw [EGraph.add, hcons, hid]
      simp only [h.leafEq.find_eq]
    obtain ⟨hidlt, hmem⟩ := hinv.hashcons _ id hid
    have hge : rs.length ≤ g.find id := by
      rcases h.leafEq.classes (g.find id) with ⟨m, m', hm, -, hrange⟩ | ⟨hge, -⟩
      · obtain ⟨nodes, hnodes, hnode⟩ := hmem
        rw [hm] at hnodes
        cases hnodes
        cases List.mem_singleton.1 hnode
        rcases hrange with ⟨-, hdear, -⟩ | ⟨hge, -⟩
        · exact absurd (hlt.trans_le h.small) hdear.not_gt
        · exact hge
      · exact hge
    rw [heq, heq']
    exact ⟨rfl, h, ⟨hge, hinv.find_lt hidlt⟩, le_rfl, fun _ hid => hid⟩
  · have hnone' := hcons.trans hnone
    have heq' : g'.add (.vreg (rs'.idxOf r)) = (g'.nextId, g'.addNew (.vreg (rs'.idxOf r))) := by
      rw [EGraph.add, hnone']
      rfl
    have hfresh : ∀ id, ¬ g.Mem (.vreg (rs.idxOf r)) id := by
      intro id hmem
      rw [h.plain _ id hmem] at hnone
      cases hnone
    have hfresh' : ∀ id, ¬ g'.Mem (.vreg (rs'.idxOf r)) id := by
      intro id hmem
      rw [h.plain' _ id hmem] at hnone'
      cases hnone'
    have hgraph : LeafEq rs.length (g.addNew (.vreg (rs.idxOf r)))
        (g'.addNew (.vreg (rs'.idxOf r))) :=
      h.leafEq.addNew (.inr ⟨_, _, rfl, rfl, hlt, hlt'⟩) (fun id _ => hfresh id)
        (fun id _ => hfresh' id) trivial
    rw [heq, heq']
    refine ⟨h.leafEq.nextId, ⟨h.perm, h.small, hgraph, plain_addNew hinv h.plain hnone,
      plain_addNew h.leafEq.inv' h.plain' hnone', fun q hq => ?_⟩,
      ⟨h.leafEq.le_nextId, Nat.lt_succ_self _⟩, Nat.le_succ _, fun id hid => hid.addNew hinv _⟩
    by_cases hqr : q = r
    · simp only [hqr, EGraph.addNew, Function.update_self, h.leafEq.nextId]
    · have hne : rs.idxOf q ≠ rs.idxOf r := fun heq => hqr ((List.idxOf_inj hq).1 heq)
      have hne' : rs'.idxOf q ≠ rs'.idxOf r :=
        fun heq => hqr ((List.idxOf_inj (h.perm.mem_iff.2 hq)).1 heq)
      have hnode : ENode.vreg (rs.idxOf q) ≠ .vreg (rs.idxOf r) := by simpa using hne
      have hnode' : ENode.vreg (rs'.idxOf q) ≠ .vreg (rs'.idxOf r) := by simpa using hne'
      simp only [EGraph.addNew, Function.update_of_ne hnode, Function.update_of_ne hnode',
        h.operands q hq]

end

/-! ## The first pass -/

/-- The instructions assign the register in the e-graph. -/
def Assigns (is : List IRInstr) (r : VReg) : Prop :=
  ∃ i ∈ is, ∃ a, arithmetic i = some a ∧ a.2.1.asRegister = some r

/-- The register has the same class in both tables, or that of its leaf. -/
def ClassEq (rs rs' : List VReg) (done : List IRInstr) (t t' : SatTables) (g : EGraph)
    (r : VReg) : Prop :=
  t'.vregToEclass r = t.vregToEclass r ∧
      (∀ c, t.vregToEclass r = some c → rs.length ≤ c ∧ c < g.nextId ∧ Own rs.length g c) ∨
    (r ∈ rs ∧ ¬ Assigns done r) ∧ t.vregToEclass r = some (rs.idxOf r) ∧
      t'.vregToEclass r = some (rs'.idxOf r)

/-- The tables of a block whose registers are numbered in two orders, after some instructions. -/
structure TablesEq (rs rs' : List VReg) (done : List IRInstr) (t t' : SatTables) : Prop where
  graph : BuildEq rs rs' t.graph t'.graph
  vregs : ∀ r, ClassEq rs rs' done t t' t.graph r
  values : ∀ c, rs.length ≤ c → t'.eclassToValue c = t.eclassToValue c

theorem nextId_le_add (g : EGraph) (node : ENode) : g.nextId ≤ (g.add node).2.nextId := by
  rcases g.add_cases node with ⟨id, -, hadd⟩ | ⟨-, hadd⟩
  · rw [hadd]
  · rw [hadd]
    exact Nat.le_succ _

theorem nextId_le_addInstr (t : SatTables) (i : IRInstr) :
    t.graph.nextId ≤ (t.addInstr i).graph.nextId := by
  unfold addInstr
  split
  · exact le_rfl
  · simp only
    split
    · exact ((nextId_le_add _ _).trans (nextId_le_add _ _)).trans (nextId_le_add _ _)
    · exact ((nextId_le_add _ _).trans (nextId_le_add _ _)).trans (nextId_le_add _ _)

theorem nextId_le_foldl (t : SatTables) (is : List IRInstr) :
    t.graph.nextId ≤ (is.foldl addInstr t).graph.nextId := by
  induction is generalizing t with
  | nil => exact le_rfl
  | cons i is ih => exact (nextId_le_addInstr t i).trans (ih _)

section

variable {rs rs' : List VReg} {done : List IRInstr} {t t' : SatTables}

theorem LeavesOf.tablesEq (h : LeavesOf rs t) (h' : LeavesOf rs' t') (hperm : rs'.Perm rs)
    (hnodup : rs.Nodup) (hsmall : rs.length ≤ 1000000) : TablesEq rs rs' [] t t' := by
  refine ⟨h.buildEq h' hperm hnodup hsmall, fun r => ?_, fun c hc => ?_⟩
  · rw [ClassEq, h.vregs, h'.vregs]
    by_cases hr : r ∈ rs
    · rw [if_pos hr, if_pos (hperm.mem_iff.2 hr)]
      exact .inr ⟨⟨hr, fun ⟨_, hi, _⟩ => List.not_mem_nil hi⟩, rfl, rfl⟩
    · rw [if_neg hr, if_neg (mt hperm.mem_iff.1 hr)]
      exact .inl ⟨rfl, nofun⟩
  · rw [h.values c hc, h'.values c (hperm.length_eq ▸ hc)]

/-- An operand gets the same class in both graphs. The tables may be older than the graphs. -/
theorem TablesEq.add_value (h : TablesEq rs rs' done t t') {g g' : EGraph}
    (hg : BuildEq rs rs' g g') (hle : t.graph.nextId ≤ g.nextId) (hsmall : g.nextId ≤ 1000000)
    (x : IRValue) :
    OperandEq rs rs' g (g.add (valueToENode t.vregToEclass x))
      (g'.add (valueToENode t'.vregToEclass x)) := by
  cases x with
  | register r =>
    rcases h.vregs r with ⟨heq, hclass⟩ | ⟨⟨hr, -⟩, hleaf, hleaf'⟩
    · simp only [valueToENode, heq]
      cases hc : t.vregToEclass r with
      | none => exact hg.add ENode.not_leaf_lit trivial
      | some c =>
        obtain ⟨hge, hlt, -⟩ := hclass c hc
        exact hg.add (ENode.not_leaf_vreg hge ((hlt.trans_le hle).trans_le hsmall)) trivial
    · simp only [valueToENode, hleaf, hleaf']
      exact hg.add_operand hr
  | immediate v => exact hg.add ENode.not_leaf_lit trivial
  | _ => exact hg.add ENode.not_leaf_lit trivial

theorem ClassEq.grow {g g' : EGraph} {r : VReg} (h : ClassEq rs rs' done t t' g r)
    (hle : g.nextId ≤ g'.nextId) (hkeeps : ∀ id, Own rs.length g id → Own rs.length g' id) :
    ClassEq rs rs' done t t' g' r := by
  refine h.imp_left fun ⟨heq, hclass⟩ => ⟨heq, fun c hc => ?_⟩
  obtain ⟨hge, hlt, hown⟩ := hclass c hc
  exact ⟨hge, hlt.trans_le hle, hkeeps c hown⟩

theorem assigns_append {i : IRInstr} {r : VReg} :
    Assigns (done ++ [i]) r ↔
      Assigns done r ∨ ∃ a, arithmetic i = some a ∧ a.2.1.asRegister = some r := by
  constructor
  · rintro ⟨j, hj, ha⟩
    rcases List.mem_append.1 hj with hj | hj
    · exact .inl ⟨j, hj, ha⟩
    · exact .inr (List.mem_singleton.1 hj ▸ ha)
  · rintro (⟨j, hj, ha⟩ | ha)
    · exact ⟨j, List.mem_append_left _ hj, ha⟩
    · exact ⟨i, List.mem_append_right _ (List.mem_singleton_self i), ha⟩

theorem ClassEq.skip {g : EGraph} {r : VReg} (h : ClassEq rs rs' done t t' g r) {i : IRInstr}
    (hi : ∀ a, arithmetic i = some a → a.2.1.asRegister ≠ some r) :
    ClassEq rs rs' (done ++ [i]) t t' g r := by
  refine h.imp_right fun ⟨⟨hr, hdone⟩, hleaf⟩ => ⟨⟨hr, fun hassigns => ?_⟩, hleaf⟩
  rcases assigns_append.1 hassigns with hassigns | ⟨a, ha, hd⟩
  · exact hdone hassigns
  · exact hi a ha hd

theorem orInsert_congr {values values' : EClassId → Option IRValue} {n : Nat}
    (h : ∀ c, n ≤ c → values' c = values c) (k : EClassId) (x : IRValue) :
    ∀ c, n ≤ c → orInsert values' k x c = orInsert values k x c := by
  intro c hc
  by_cases hck : c = k
  · subst hck
    simp only [orInsert, Function.update_self, h c hc]
  · simp only [orInsert, Function.update_of_ne hck, h c hc]

theorem TablesEq.addInstr (h : TablesEq rs rs' done t t') (i : IRInstr)
    (hsmall : (t.addInstr i).graph.nextId ≤ 1000000) :
    TablesEq rs rs' (done ++ [i]) (t.addInstr i) (t'.addInstr i) := by
  cases ha : arithmetic i with
  | none =>
    simp only [SatTables.addInstr, ha]
    refine ⟨h.graph, fun r => (h.vregs r).skip fun a hi => ?_, h.values⟩
    rw [ha] at hi
    cases hi
  | some a =>
    obtain ⟨op, dst, lhs, rhs⟩ := a
    -- The three nodes are added one after the other.
    have hbound : (((t.graph.add (valueToENode t.vregToEclass lhs)).2.add
        (valueToENode t.vregToEclass rhs)).2.add
          (.binOp op (t.graph.add (valueToENode t.vregToEclass lhs)).1
            ((t.graph.add (valueToENode t.vregToEclass lhs)).2.add
              (valueToENode t.vregToEclass rhs)).1)).2.nextId ≤ 1000000 := by
      rw [SatTables.addInstr, ha] at hsmall
      simp only at hsmall
      split at hsmall <;> exact hsmall
    have h₁ := h.add_value h.graph le_rfl ((nextId_le_add _ _).trans
      ((nextId_le_add _ _).trans ((nextId_le_add _ _).trans hbound))) lhs
    have h₂ := h.add_value h₁.graph h₁.le
      ((nextId_le_add _ _).trans ((nextId_le_add _ _).trans hbound)) rhs
    simp only [SatTables.addInstr, ha]
    generalize t.graph.add (valueToENode t.vregToEclass lhs) = l at h₁ h₂
    generalize t'.graph.add (valueToENode t'.vregToEclass lhs) = l' at h₁ h₂
    generalize l.2.add (valueToENode t.vregToEclass rhs) = r at h₂
    generalize l'.2.add (valueToENode t'.vregToEclass rhs) = r' at h₂
    have h₃ : OperandEq rs rs' r.2 (r.2.add (.binOp op l.1 r.1)) (r'.2.add (.binOp op l.1 r.1)) :=
      h₂.graph.add ENode.not_leaf_binOp
        ⟨⟨h₁.bounds.1, h₁.bounds.2.trans_le h₂.le⟩, h₂.bounds⟩
    have hadd : AddEq rs.length r.2 (r.2.add (.binOp op l.1 r.1)) (r'.2.add (.binOp op l.1 r.1)) :=
      h₂.graph.leafEq.add ENode.not_leaf_binOp
        ⟨⟨h₁.bounds.1, h₁.bounds.2.trans_le h₂.le⟩, h₂.bounds⟩
    have hown := hadd.own
    rw [h₁.id_eq, h₂.id_eq]
    generalize r.2.add (.binOp op l.1 r.1) = b at h₃ hown
    generalize r'.2.add (.binOp op l.1 r.1) = b' at h₃
    have hvregs : ∀ q, ClassEq rs rs' done t t' b.2 q := fun q =>
      (h.vregs q).grow (h₁.le.trans (h₂.le.trans h₃.le))
        fun id hid => h₃.keeps id (h₂.keeps id (h₁.keeps id hid))
    have hother : ∀ q, dst.asRegister ≠ some q → ClassEq rs rs' (done ++ [i]) t t' b.2 q := by
      refine fun q hq => (hvregs q).skip fun a hi => ?_
      rw [ha] at hi
      cases hi
      exact hq
    have hvalues := orInsert_congr (orInsert_congr h.values l.1 lhs) r.1 rhs
    cases hd : dst.asRegister with
    | none => exact ⟨h₃.graph, fun q => hother q (by simp [hd]), hvalues⟩
    | some d =>
      refine ⟨h₃.graph, fun q => ?_, fun c hc => ?_⟩
      · by_cases hq : q = d
        · simp only [ClassEq, hq, Function.update_self, h₃.id_eq]
          refine .inl ⟨trivial, ?_⟩
          rintro _ ⟨⟩
          exact ⟨h₃.bounds.1, h₃.bounds.2, hown⟩
        · simp only [ClassEq, Function.update_of_ne hq]
          exact hother q (by rw [hd]; exact fun heq => hq (Option.some.inj heq).symm)
      · rw [h₃.id_eq]
        by_cases hcb : c = b.1
        · simp only [hcb, Function.update_self]
        · simp only [Function.update_of_ne hcb]
          exact hvalues c hc

theorem TablesEq.foldl (h : TablesEq rs rs' done t t') (is : List IRInstr)
    (hsmall : (is.foldl SatTables.addInstr t).graph.nextId ≤ 1000000) :
    TablesEq rs rs' (done ++ is) (is.foldl SatTables.addInstr t)
      (is.foldl SatTables.addInstr t') := by
  induction is generalizing done t t' with
  | nil => rwa [List.append_nil]
  | cons i is ih =>
    have hrest := ih (h.addInstr i ((nextId_le_foldl _ is).trans hsmall)) hsmall
    rwa [List.append_assoc] at hrest

end

/-! ## The second pass -/

section

variable {rs rs' : List VReg} {is : List IRInstr} {t t' : SatTables}
  (h : TablesEq rs rs' is t t') {g g' : EGraph} (hg : LeafEq rs.length g g')
  (hle : t.graph.nextId ≤ g.nextId) (hkeeps : ∀ id, Own rs.length t.graph id → Own rs.length g id)
  {costFn : ENode → Nat}
  (hcost : ∀ x y, x < rs.length → y < rs.length → costFn (.vreg x) = costFn (.vreg y))
include h hg hle hkeeps hcost

theorem TablesEq.best_eq {i : IRInstr} (hi : i ∈ is) {op : BinOpKind} {dst lhs rhs : IRValue}
    (ha : arithmetic i = some (op, dst, lhs, rhs)) :
    t'.best g' costFn dst = t.best g costFn dst ∧
      ∀ node, t.best g costFn dst = some node → ∀ k ∈ node.refs, rs.length ≤ k := by
  unfold best
  cases hd : dst.asRegister with
  | none => exact ⟨rfl, nofun⟩
  | some d =>
    rcases h.vregs d with ⟨heq, hclass⟩ | ⟨⟨-, hdone⟩, -⟩
    · simp only [Option.bind_some, heq]
      cases hc : t.vregToEclass d with
      | none => exact ⟨rfl, nofun⟩
      | some c =>
        obtain ⟨-, hlt, hown⟩ := hclass c hc
        have hown := hkeeps c hown
        have hmem := extract_mem costFn hg.inv (hlt.trans_le hle)
        refine ⟨by rw [Option.map_some, Option.map_some, hg.extract_eq hcost hown], ?_⟩
        rintro node hnode k hk
        have hnode : g.extract c costFn = node := Option.some.inj hnode
        rw [hnode] at hmem
        have hleaf := (hg.classes_of_own hown).2.2 _ hmem
        have hops := hg.operands _ _ hmem
        cases node with
        | lit v => cases hk
        | vreg m =>
          obtain rfl := List.mem_singleton.1 hk
          exact Nat.le_of_not_lt fun hlt => hleaf ⟨k, rfl, .inl hlt⟩
        | binOp op x y =>
          exact ENode.forall_refs_binOp.2 ⟨hops.1.1, hops.2.1⟩ k hk
    · exact absurd ⟨i, hi, _, ha, hd⟩ hdone

theorem TablesEq.rewriteInstr_eq {i : IRInstr} (hi : i ∈ is) :
    t'.rewriteInstr g' costFn i = t.rewriteInstr g costFn i := by
  have hbest := fun op dst lhs rhs (ha : arithmetic i = some (op, dst, lhs, rhs)) =>
    h.best_eq hg hle hkeeps hcost hi ha
  have hsum : ∀ (node : Option ENode) lhs rhs,
      (∀ n, node = some n → ∀ k ∈ n.refs, rs.length ≤ k) →
        t'.sumOperands node lhs rhs = t.sumOperands node lhs rhs := by
    intro node lhs rhs hrefs
    unfold sumOperands
    split
    · rfl
    · rw [h.values _ (hrefs _ rfl _ (List.mem_singleton_self _))]
    · rfl
  have hbin : ∀ (node : Option ENode) op lhs rhs,
      (∀ n, node = some n → ∀ k ∈ n.refs, rs.length ≤ k) →
        t'.binOpOperands node op lhs rhs = t.binOpOperands node op lhs rhs := by
    intro node op lhs rhs hrefs
    unfold binOpOperands
    split
    · rfl
    · rw [h.values _ (hrefs _ rfl _ (List.mem_singleton_self _))]
    · obtain ⟨hl, hr⟩ := ENode.forall_refs_binOp.1 (hrefs _ rfl)
      rw [h.values _ hl, h.values _ hr]
    · rfl
  cases i with
  | binOp op dst lhs rhs ty =>
    obtain ⟨heq, hrefs⟩ := hbest _ _ _ _ rfl
    simp only [rewriteInstr, heq, hbin _ _ _ _ hrefs]
  | add dst lhs rhs ty | sub dst lhs rhs ty =>
    obtain ⟨heq, hrefs⟩ := hbest _ _ _ _ rfl
    simp only [rewriteInstr, heq, hsum _ _ _ hrefs]
  | mul dst lhs rhs ty | div dst lhs rhs ty => simp only [rewriteInstr, (hbest _ _ _ _ rfl).1]
  | _ => rfl

end

end SatTables

open EGraph in
theorem eqSatBlock_order {env env' : SatEnv} {costFn : ENode → Nat} {b : IRBlock}
    (hgate : env'.gate (standardRules env'.nodes) = env.gate (standardRules env.nodes))
    (h : OrderFree env costFn b) : eqSatBlock env' costFn b = eqSatBlock env costFn b := by
  obtain ⟨hregs, hsmall, hsat, hcost⟩ := h
  have hperm := env.regs.perm (allRegs b.instructions)
  have hperm' := env'.regs.perm (allRegs b.instructions)
  generalize hrs : env.regs.order (allRegs b.instructions) = rs at hperm
  generalize hrs' : env'.regs.order (allRegs b.instructions) = rs' at hperm'
  have hnodup : rs.Nodup := hperm.nodup_iff.2 (List.nodup_dedup _)
  have hnodup' : rs'.Nodup := hperm'.nodup_iff.2 (List.nodup_dedup _)
  have hleaves := SatTables.leavesOf_foldl hnodup fun r hr => hregs r (hperm.mem_iff.1 hr)
  have hleaves' := SatTables.leavesOf_foldl hnodup' fun r hr => hregs r (hperm'.mem_iff.1 hr)
  have hlen : rs.length ≤ 1000000 := by
    rw [← hleaves.nextId, ← hrs]
    exact (SatTables.nextId_le_foldl _ _).trans hsmall
  have htables : SatTables.TablesEq rs rs' b.instructions (SatTables.build env b.instructions)
      (SatTables.build env' b.instructions) := by
    have hstart := hleaves.tablesEq hleaves' (hperm'.trans hperm.symm) hnodup hlen
    rw [← hrs, ← hrs'] at hstart ⊢
    exact hstart.foldl b.instructions hsmall
  have hgraph := htables.graph.leafEq
  have hsaturated := hgraph.saturate (fun _ => agrees_of_mem_orderedRules) hgate hsat
  have hreach : Reach evalOp (fun _ => False) (SatTables.build env b.instructions).graph
      ((SatTables.build env b.instructions).saturated env) :=
    reach_saturate hgraph.inv (fun _ => sound_of_mem_standardRules (fun _ _ => rfl) _ env.nodes)
      env.gate 10
  have hkeeps : ∀ id, Own rs.length (SatTables.build env b.instructions).graph id →
      Own rs.length ((SatTables.build env b.instructions).saturated env) id := by
    rintro id ⟨node, hmem, hnode⟩
    refine ⟨node, ?_, hnode⟩
    rw [hreach.find_congr hgraph.inv (hgraph.inv.find_find id).symm]
    exact hreach.mem hgraph.inv hmem
  unfold eqSatBlock
  refine congrArg (fun is => { b with instructions := is }) (List.map_congr_left fun i hi => ?_)
  exact htables.rewriteInstr_eq hsaturated hreach.next_le hkeeps
    (by rwa [hperm.length_eq]) hi

/-- Where no rule has a choice, `equality_saturation_with_cost` returns the same function whatever
the orders of the hash sets. -/
theorem equalitySaturationWithCost_order {env env' : SatEnv} {f : IRFunction}
    {costFn : ENode → Nat}
    (hgate : env'.gate (standardRules env'.nodes) = env.gate (standardRules env.nodes))
    (h : ∀ b ∈ f.blocks, OrderFree env costFn b) :
    equalitySaturationWithCost env' f costFn = equalitySaturationWithCost env f costFn :=
  congrArg (fun bs => { f with blocks := bs })
    (List.map_congr_left fun b hb => eqSatBlock_order hgate (h b hb))

/-- The hash sets in the reverse order of insertion, with all rules accepted. -/
def reversedEnv : SatEnv where
  nodes := ⟨fun _ _ nodes => nodes.reverse, fun _ _ nodes => nodes.reverse_perm⟩
  regs := ⟨List.reverse, List.reverse_perm⟩
  gate _ := true

/-- `r2 = r0 * 2; r3 = r1 - r2` becomes `r2 = r0 + r0; r3 = r1 - r2` in both orders. -/
theorem equalitySaturationWithCost_order_double :
    let f : IRFunction :=
      { name := "f"
        params := [.register 0, .register 1]
        blocks := [{ label := "entry"
                     instructions := [.binOp .mul (.register 2) (.register 0) (.immediate 2) none,
                       .sub (.register 3) (.register 1) (.register 2) none]
                     terminator := .ret [.register 3] }] }
    (equalitySaturationWithCost insertionEnv f defaultCost).blocks.map (·.instructions) =
        [[.binOp .add (.register 2) (.register 0) (.register 0) none,
          .sub (.register 3) (.register 1) (.register 2) none]] ∧
      equalitySaturationWithCost reversedEnv f defaultCost =
        equalitySaturationWithCost insertionEnv f defaultCost := by
  intro f
  refine ⟨by decide +kernel, equalitySaturationWithCost_order rfl fun b hb => ?_⟩
  cases List.mem_singleton.1 hb
  exact ⟨by decide, by decide +kernel, by decide +kernel, fun _ _ _ _ => rfl⟩

/-- In `r1 = r0 ^ r0; r3 = 0 ^ r2` the second instruction becomes `r3 = r1 ^ r2` in one order and
`r3 = r2 + 0` in another. -/
theorem not_equalitySaturationWithCost_order :
    ¬ ∀ (env env' : SatEnv) (f : IRFunction) (costFn : ENode → Nat),
      env'.gate (standardRules env'.nodes) = env.gate (standardRules env.nodes) →
        equalitySaturationWithCost env' f costFn = equalitySaturationWithCost env f costFn := by
  intro h
  have hsame := h insertionEnv reversedEnv
    { name := "f"
      params := [.register 0, .register 2]
      blocks := [{ label := "entry"
                   instructions := [.binOp .xor (.register 1) (.register 0) (.register 0) none,
                     .binOp .xor (.register 3) (.immediate 0) (.register 2) none]
                   terminator := .ret [.register 1, .register 3] }] } defaultCost rfl
  have hinstrs := congrArg (fun f => f.blocks.map (·.instructions)) hsame
  exact absurd hinstrs (by decide +kernel)

end Vuma.Opt
