import Vuma.Scg.LivenessCorrect

/-!
# Which nodes are dead

The marks spread from the nodes with side effects, against the edges of uses, until no edge adds
one. What has no mark then is what no path of such edges leads to a side effect.
-/

namespace Vuma.Scg

open Lib

variable {g : SCG} {n : NodeId} {s : Finset NodeId}

/-- The value of the first node is used by the second one. -/
def SCG.Feeds (g : SCG) (n m : NodeId) : Prop := g.Uses m n

/-- The node is of a type that is classified as pure. -/
def SCG.Pure (g : SCG) (n : NodeId) : Prop := ∃ d, g.getNode n = some d ∧ isPureNode d.nodeType

/-- The node is in the graph, and is not pure. -/
def SCG.Essential (g : SCG) (n : NodeId) : Prop :=
  ∃ d, g.getNode n = some d ∧ ¬ isPureNode d.nodeType

/-- The value of the node gets to an essential node. -/
def SCG.Needed (g : SCG) (n : NodeId) : Prop :=
  ∃ m, Relation.ReflTransGen g.Feeds n m ∧ g.Essential m

/-! ## One pass -/

/-- The step of the pass at one edge. -/
def markEdge (needed : Finset NodeId) (edge : EdgeData) : Finset NodeId :=
  if edge.kind.isUse ∧ edge.target ∈ needed then insert edge.source needed else needed

theorem subset_markEdge (needed : Finset NodeId) (edge : EdgeData) :
    needed ⊆ markEdge needed edge := by
  rw [markEdge]
  split_ifs
  · exact Finset.subset_insert _ _
  · exact subset_rfl

theorem subset_foldl_markEdge (l : List EdgeData) (s : Finset NodeId) : s ⊆ l.foldl markEdge s := by
  induction l generalizing s with
  | nil => exact subset_rfl
  | cons e l ih => exact (subset_markEdge s e).trans (ih _)

/-- After the pass, the source of a use is marked if its target was marked before. -/
theorem source_mem_foldl_markEdge {l : List EdgeData} {e : EdgeData} (he : e ∈ l)
    (hkind : e.kind.isUse) (ht : e.target ∈ s) : e.source ∈ l.foldl markEdge s := by
  induction l generalizing s with
  | nil => cases he
  | cons e' l ih =>
    rw [List.foldl_cons]
    rcases List.mem_cons.mp he with rfl | he
    · apply subset_foldl_markEdge l
      rw [markEdge, if_pos ⟨hkind, ht⟩]
      exact Finset.mem_insert_self _ _
    · exact ih he (subset_markEdge s e' ht)

theorem forall_foldl_markEdge {P : NodeId → Prop} {l : List EdgeData}
    (hl : ∀ e ∈ l, e.kind.isUse → P e.target → P e.source) (hs : ∀ n ∈ s, P n) :
    ∀ n ∈ l.foldl markEdge s, P n := by
  induction l generalizing s with
  | nil => exact hs
  | cons e l ih =>
    refine ih (fun e' he' => hl e' (List.mem_cons_of_mem _ he')) (fun n hn => ?_)
    rw [markEdge] at hn
    split_ifs at hn with hmark
    · rcases Finset.mem_insert.mp hn with rfl | hn
      · exact hl e List.mem_cons_self hmark.1 (hs _ hmark.2)
      · exact hs n hn
    · exact hs n hn

/-! ## All passes -/

/-- The nodes that the marks start from. -/
def SCG.essentialIds (g : SCG) : Finset NodeId :=
  ((g.nodes.filter fun nodeData => ¬ isPureNode nodeData.nodeType).map NodeData.id).toFinset

theorem mem_essentialIds (hg : g.Valid) : n ∈ g.essentialIds ↔ g.Essential n := by
  simp only [SCG.essentialIds, List.mem_toFinset, List.mem_map, List.mem_filter,
    decide_eq_true_eq, SCG.Essential]
  constructor
  · intro ⟨d, ⟨hd, hpure⟩, hid⟩
    exact ⟨d, (SCG.mem_nodes hg).mpr ⟨hd, hid⟩, hpure⟩
  · intro ⟨d, hd, hpure⟩
    obtain ⟨hmem, hid⟩ := (SCG.mem_nodes hg).mp hd
    exact ⟨d, ⟨hmem, hpure⟩, hid⟩

/-- The passes have come to an end. -/
theorem neededPass_needed (g : SCG) : g.neededPass g.needed = g.needed := by
  set U := g.essentialIds ∪ (g.edges.map EdgeData.source).toFinset
  have hcard : U.card ≤ g.essentialIds.card + g.edges.length := by
    have hsources := List.toFinset_card_le (g.edges.map EdgeData.source)
    rw [List.length_map] at hsources
    exact (Finset.card_union_le _ _).trans (Nat.add_le_add_left hsources _)
  refine @untilStable_stable _ _ g.neededPass U (subset_foldl_markEdge g.edges) (fun s hs => ?_) _ _
    Finset.subset_union_left ?_
  · refine forall_foldl_markEdge (fun e he _ _ => ?_) hs
    exact Finset.mem_union_right _ (List.mem_toFinset.mpr (List.mem_map_of_mem he))
  · show U.card < g.edges.length + 1 + g.essentialIds.card
    omega

theorem mem_needed_iff (hg : g.Valid) : n ∈ g.needed ↔ g.Needed n := by
  constructor
  · apply untilStable_induction (P := fun s => ∀ n ∈ s, g.Needed n)
    · intro s hs
      refine forall_foldl_markEdge (fun e he hkind ⟨m, hpath, hm⟩ => ?_) hs
      exact ⟨m, .head ⟨e, he, rfl, rfl, hkind⟩ hpath, hm⟩
    · intro n hn
      exact ⟨n, .refl, (mem_essentialIds hg).mp hn⟩
  · intro ⟨m, hpath, hm⟩
    induction hpath using Relation.ReflTransGen.head_induction_on with
    | refl =>
      apply subset_untilStable (subset_foldl_markEdge g.edges)
      exact (mem_essentialIds hg).mpr hm
    | head h _ ih =>
      obtain ⟨e, he, rfl, rfl, hkind⟩ := h
      rw [← neededPass_needed]
      exact source_mem_foldl_markEdge he hkind ih

/-- A node is returned just if it is pure and no path of uses leads from it to a node that is
not. -/
theorem mem_findDeadCode_iff (hg : g.Built) (n : NodeId) : n ∈ g.findDeadCode ↔
    g.Pure n ∧ ¬ ∃ m, Relation.ReflTransGen g.Feeds n m ∧ g.Essential m := by
  have hv := hg.valid
  have hneeded := mem_needed_iff (n := n) hv
  rw [SCG.findDeadCode, List.mem_mergeSort, List.mem_map]
  simp only [List.mem_filter, decide_eq_true_eq]
  constructor
  · intro ⟨d, ⟨hd, hpure, hnot⟩, hid⟩
    subst hid
    exact ⟨⟨d, (SCG.mem_nodes hv).mpr ⟨hd, rfl⟩, hpure⟩, fun h => hnot (hneeded.mpr h)⟩
  · intro ⟨⟨d, hd, hpure⟩, hnot⟩
    obtain ⟨hmem, rfl⟩ := (SCG.mem_nodes hv).mp hd
    exact ⟨d, ⟨hmem, hpure, fun h => hnot (hneeded.mp h)⟩, rfl⟩

/-- In a cycle that feeds an effect no node is dead. -/
theorem notMem_findDeadCode_feedingCycle :
    (SCG.new.run feedingCycle).Built ∧ 0 ∉ (SCG.new.run feedingCycle).findDeadCode := by
  refine ⟨built_feedingCycle, fun hdead => ?_⟩
  obtain ⟨-, hnot⟩ := (mem_findDeadCode_iff built_feedingCycle 0).mp hdead
  have hfeeds : ∀ i e, (SCG.new.run feedingCycle).graph.edge? i = some e → e.weight.kind.isUse →
      (SCG.new.run feedingCycle).Feeds e.weight.source e.weight.target := by
    intro i e he hkind
    exact ⟨e.weight, SCG.mem_edges_iff.mpr ⟨i, e, he, rfl⟩, rfl, rfl, hkind⟩
  exact hnot ⟨2, .head (hfeeds 0 _ rfl rfl) (.single (hfeeds 2 _ rfl rfl)), _, rfl, by decide⟩

end Vuma.Scg
