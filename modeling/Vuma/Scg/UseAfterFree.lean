import Vuma.Scg.LivenessCorrect

/-!
# Uses after a deallocation

What is collected after a deallocation are the nodes at whose entry the allocation is live, whether
they use it or not. They are the uses that can be reached exactly where every node on the way is
one, and where nothing on the way allocates again.
-/

namespace Vuma.Scg

open Lib

variable {g : SCG} {a d n : NodeId}

/-! ## Reports -/

/-- The nodes other than the deallocation that use the allocation and can be reached from the
deallocation. -/
def SCG.UseAfter (g : SCG) (a d n : NodeId) : Prop :=
  n ≠ d ∧ g.Uses n a ∧ Relation.TransGen g.Flows d n

/-- A node of the graph is a deallocation of the allocation. -/
def SCG.Deallocates (g : SCG) (d a : NodeId) : Prop :=
  ∃ data ∈ g.nodes, data.id = d ∧ ∃ dealloc, data.payload = .deallocation dealloc ∧
    dealloc.allocationNode = a

/-- Exactly the deallocations after which there is a use are reported, with exactly these uses. -/
structure ReportsUses (g : SCG) (violations : List UseAfterFree) : Prop where
  reported : ∀ a d, (∃ v ∈ violations, v.allocation = a ∧ v.deallocation = d) ↔
    g.Deallocates d a ∧ ∃ n, g.UseAfter a d n
  uses : ∀ v ∈ violations, ∀ n,
    n ∈ v.violatingUses ↔ g.UseAfter v.allocation v.deallocation n

/-- A path of edges of any kind leads from one node to the other, and the allocation is live at
every node that it comes to. -/
def SCG.LivePath (g : SCG) (a : NodeId) : NodeId → NodeId → Prop :=
  Relation.TransGen fun n m => g.HasEdge n m ∧ LiveAt g a m

/-- Liveness flows from the deallocation to a use with no allocation before it. -/
def SCG.LiveAfter (g : SCG) (a d : NodeId) : Prop := ∃ m, g.Flows d m ∧ LiveAt g a m

/-- Every use that liveness flows to is on a path on which the allocation stays live, and there is
nothing else on such paths. -/
structure SCG.OnlyUsesLive (g : SCG) (a d : NodeId) : Prop where
  reached : ∀ n, g.UseAfter a d n → g.LiveAfter a d ∧ g.LivePath a d n
  uses : g.LiveAfter a d → ∀ n, g.LivePath a d n → g.UseAfter a d n

/-! ## What is collected -/

section Collected

variable {liveness : HashMap NodeId LivenessInfo} (hg : g.Valid)
  (hkeys : HasKeys g.nodeIds liveness) (hview : view liveness = leastSolution g)

include hkeys hview

theorem lookup_liveness (hn : n ∈ g.nodeIds) :
    liveness.lookup n = some (leastSolution g n) := by
  rw [hkeys.lookup_eq hn, hview]

include hg

theorem mem_liveSuccessors {m : NodeId} :
    m ∈ g.liveSuccessors liveness a n ↔ g.HasEdge n m ∧ LiveAt g a m := by
  rw [SCG.liveSuccessors, List.mem_filter, hg.mem_successors]
  apply and_congr_right
  intro hedge
  rw [lookup_liveness hkeys hview (hg.mem_nodeIds_of_hasEdge hedge).2]
  show decide _ = true ↔ _
  rw [decide_eq_true_iff, mem_liveIn_leastSolution]

theorem mem_collectViolatingUses :
    n ∈ g.collectViolatingUses liveness a d ↔ g.LivePath a d n := by
  have hnext : (fun n m => m ∈ g.liveSuccessors liveness a n) =
      fun n m => g.HasEdge n m ∧ LiveAt g a m := by
    funext n m
    exact propext (mem_liveSuccessors hg hkeys hview)
  have hnodes : ∀ n, ∀ m ∈ g.liveSuccessors liveness a n, m ∈ g.nodeIds.toFinset := by
    intro n m hm
    have hedge := ((mem_liveSuccessors hg hkeys hview).mp hm).1
    exact List.mem_toFinset.mpr (hg.mem_nodeIds_of_hasEdge hedge).2
  rw [SCG.collectViolatingUses, mem_collect hnodes (Nat.lt_succ_of_le (List.toFinset_card_le _)),
    hnext]
  rfl

/-- The violations, one for every deallocation after which the allocation is live. -/
theorem mem_findUseAfterFree {v : UseAfterFree} :
    v ∈ g.findUseAfterFree liveness ↔ g.Deallocates v.deallocation v.allocation ∧
      g.LiveAfter v.allocation v.deallocation ∧
      v.violatingUses = g.collectViolatingUses liveness v.allocation v.deallocation := by
  rw [SCG.findUseAfterFree, List.mem_mergeSort, List.mem_filterMap]
  have hat : ∀ data ∈ g.nodes, liveness.lookup data.id = some (leastSolution g data.id) := by
    intro data hdata
    apply lookup_liveness hkeys hview
    rw [SCG.mem_nodeIds hg, (SCG.mem_nodes hg).mpr ⟨hdata, rfl⟩]
    rfl
  constructor
  · intro ⟨data, hdata, hv⟩
    rw [SCG.useAfterFreeAt] at hv
    split at hv
    · next dealloc hpayload =>
      rw [hat data hdata] at hv
      simp only [Option.ite_none_right_eq_some, mem_liveOut_leastSolution,
        Option.some.injEq] at hv
      obtain ⟨hlive, rfl⟩ := hv
      exact ⟨⟨data, hdata, rfl, dealloc, hpayload, rfl⟩, hlive, rfl⟩
    · cases hv
  · intro ⟨⟨data, hdata, hid, dealloc, hpayload, halloc⟩, hlive, huses⟩
    refine ⟨data, hdata, ?_⟩
    obtain ⟨allocation, deallocation, violatingUses⟩ := v
    dsimp only at hid halloc hlive huses
    subst hid halloc huses
    rw [SCG.useAfterFreeAt, hpayload]
    simp only [hat data hdata]
    exact if_pos (mem_liveOut_leastSolution.mpr hlive)

end Collected

/-! ## When the report is right -/

theorem SCG.LiveAfter.livePath (h : g.LiveAfter a d) : ∃ n, g.LivePath a d n := by
  obtain ⟨m, hflow, hlive⟩ := h
  exact ⟨m, .single ⟨hflow.hasEdge, hlive⟩⟩

theorem reportsUses_of_forall_not (h : ∀ a d, ¬ g.Deallocates d a)
    (liveness : HashMap NodeId LivenessInfo) : ReportsUses g (g.findUseAfterFree liveness) := by
  have hnil : g.findUseAfterFree liveness = [] := by
    rw [SCG.findUseAfterFree, List.filterMap_eq_nil_iff.mpr, List.mergeSort_nil]
    intro data hdata
    rw [SCG.useAfterFreeAt]
    split
    · next dealloc hpayload => exact absurd ⟨data, hdata, rfl, dealloc, hpayload, rfl⟩ (h _ _)
    · rfl
  rw [hnil]
  exact ⟨fun a d => iff_of_false nofun fun hd => h a d hd.1, nofun⟩

/-- If the liveness is complete, or no node deallocates, the report is right just if after every
deallocation only uses are live. -/
theorem reportsUses_iff (hg : g.Built) (it : KeyOrder NodeId)
    (hconv : ∀ a d, g.Deallocates d a → (g.computeLivenessInner it).converged = true) :
    ReportsUses g (g.findUseAfterFree (g.computeLiveness it)) ↔
      ∀ a d, g.Deallocates d a → g.OnlyUsesLive a d := by
  by_cases hnone : ∀ a d, ¬ g.Deallocates d a
  · exact iff_of_true (reportsUses_of_forall_not hnone _) fun a d hd => absurd hd (hnone a d)
  simp only [not_forall, not_not] at hnone
  obtain ⟨a, d, hd⟩ := hnone
  obtain ⟨hkeys, hview⟩ := computeLiveness_of_converged hg.valid it (hconv a d hd)
  have hmem : ∀ v, v ∈ g.findUseAfterFree (g.computeLiveness it) ↔ _ := fun v =>
    mem_findUseAfterFree hg.valid hkeys hview
  have hcollect : ∀ a d n, n ∈ g.collectViolatingUses (g.computeLiveness it) a d ↔ _ :=
    fun a d n => mem_collectViolatingUses hg.valid hkeys hview
  constructor
  · intro h a d hdealloc
    have hlisted : g.LiveAfter a d → (⟨a, d, g.collectViolatingUses (g.computeLiveness it) a d⟩ :
        UseAfterFree) ∈ g.findUseAfterFree (g.computeLiveness it) := fun hlive =>
      (hmem _).mpr ⟨hdealloc, hlive, rfl⟩
    have hreported : ∀ n, g.UseAfter a d n → g.LiveAfter a d := by
      intro n hn
      obtain ⟨v, hv, rfl, rfl⟩ := (h.reported a d).mpr ⟨hdealloc, n, hn⟩
      exact ((hmem v).mp hv).2.1
    constructor
    · intro n hn
      have hlive := hreported n hn
      exact ⟨hlive, (hcollect a d n).mp ((h.uses _ (hlisted hlive) n).mpr hn)⟩
    · intro hlive n hn
      exact (h.uses _ (hlisted hlive) n).mp ((hcollect a d n).mpr hn)
  · intro h
    constructor
    · intro a d
      constructor
      · intro ⟨v, hv, halloc, hd⟩
        subst halloc hd
        obtain ⟨hdealloc, hlive, -⟩ := (hmem v).mp hv
        obtain ⟨n, hn⟩ := hlive.livePath
        exact ⟨hdealloc, n, (h _ _ hdealloc).uses hlive n hn⟩
      · intro ⟨hdealloc, n, hn⟩
        have hlive := ((h a d hdealloc).reached n hn).1
        exact ⟨⟨a, d, g.collectViolatingUses (g.computeLiveness it) a d⟩,
          (hmem _).mpr ⟨hdealloc, hlive, rfl⟩, rfl, rfl⟩
    · intro v hv n
      obtain ⟨hdealloc, hlive, huses⟩ := (hmem v).mp hv
      rw [huses, hcollect]
      constructor
      · exact (h _ _ hdealloc).uses hlive n
      · intro hn
        exact ((h _ _ hdealloc).reached n hn).2

/-! ## Graphs -/

/-- An allocation, its deallocation, and a use right after it. -/
def useAfterNode : List Op :=
  [.addNode .allocation (.allocation ⟨8, 8, 0, none⟩) ⟨none, none, none, none⟩,
    .addNode .deallocation (.deallocation ⟨0, 0⟩) ⟨none, none, none, none⟩,
    .addNode .phantom (.phantom ⟨"a"⟩) ⟨none, none, none, none⟩,
    .addEdge 0 1 .derivation, .addEdge 1 2 .controlFlow, .addEdge 0 2 .dataFlow]

theorem built_useAfterNode : (SCG.new.run useAfterNode).Built := by
  refine ⟨useAfterNode, ⟨?_, ?_, ?_, ?_, ?_, ?_, trivial⟩, rfl⟩ <;>
    rintro id (h | h) <;> cases h <;> decide

theorem edges_useAfterNode : (SCG.new.run useAfterNode).edges =
    [⟨0, 0, 1, .derivation, none⟩, ⟨1, 1, 2, .controlFlow, none⟩, ⟨2, 0, 2, .dataFlow, none⟩] := rfl

theorem nodes_useAfterNode : (SCG.new.run useAfterNode).nodes =
    [⟨0, .allocation, none, ⟨none, none, none, none⟩, .allocation ⟨8, 8, 0, none⟩⟩,
      ⟨1, .deallocation, none, ⟨none, none, none, none⟩, .deallocation ⟨0, 0⟩⟩,
      ⟨2, .phantom, none, ⟨none, none, none, none⟩, .phantom ⟨"a"⟩⟩] := rfl

/-- After the deallocation only the use is live. -/
theorem onlyUsesLive_useAfterNode {a d : NodeId}
    (h : (SCG.new.run useAfterNode).Deallocates d a) :
    (SCG.new.run useAfterNode).OnlyUsesLive a d := by
  have hedges := edges_useAfterNode
  have hnodes := nodes_useAfterNode
  generalize SCG.new.run useAfterNode = g at *
  obtain ⟨data, hdata, rfl, dealloc, hpayload, rfl⟩ := h
  simp only [hnodes, List.mem_cons, List.not_mem_nil, or_false] at hdata
  rcases hdata with rfl | rfl | rfl <;> cases hpayload
  show g.OnlyUsesLive 0 1
  have huse : g.Uses 2 0 := ⟨⟨2, 0, 2, .dataFlow, none⟩, by simp [hedges], rfl, rfl, rfl⟩
  have hflow : g.Flows 1 2 := ⟨⟨1, 1, 2, .controlFlow, none⟩, by simp [hedges], rfl, rfl, rfl⟩
  have hafter : g.LiveAfter 0 1 := ⟨2, hflow, .use huse⟩
  constructor
  · rintro n ⟨hne, ⟨e, he, htarget, -, hkind⟩, -⟩
    simp only [hedges, List.mem_cons, List.not_mem_nil, or_false] at he
    rcases he with rfl | rfl | rfl
    · exact absurd htarget.symm hne
    · cases hkind
    · subst htarget
      exact ⟨hafter, .single ⟨hflow.hasEdge, .use huse⟩⟩
  · intro _ n hpath
    have honly : ∀ {n}, g.LivePath 0 1 n → n = 2 := by
      intro n hpath
      induction hpath with
      | single h =>
        obtain ⟨⟨e, he, hsource, htarget⟩, -⟩ := h
        simp only [hedges, List.mem_cons, List.not_mem_nil, or_false] at he
        rcases he with rfl | rfl | rfl
        · exact absurd (show (0 : NodeId) = 1 from hsource) (by decide)
        · exact htarget.symm
        · exact absurd (show (0 : NodeId) = 1 from hsource) (by decide)
      | tail _ h ih =>
        obtain ⟨⟨e, he, hsource, htarget⟩, -⟩ := h
        rw [ih] at hsource
        simp only [hedges, List.mem_cons, List.not_mem_nil, or_false] at he
        rcases he with rfl | rfl | rfl
        · exact absurd (show (0 : NodeId) = 2 from hsource) (by decide)
        · exact absurd (show (1 : NodeId) = 2 from hsource) (by decide)
        · exact absurd (show (0 : NodeId) = 2 from hsource) (by decide)
    rw [honly hpath]
    exact ⟨by decide, huse, .single hflow⟩

theorem reportsUses_useAfterNode :
    let g := SCG.new.run useAfterNode
    ReportsUses g (g.findUseAfterFree (g.computeLiveness .id)) :=
  (reportsUses_iff built_useAfterNode .id fun _ _ _ =>
    (computeLivenessInner_converges built_useAfterNode.valid (by decide) .id).1).mpr
      fun _ _ => onlyUsesLive_useAfterNode

/-- An allocation, its deallocation, and a use after it, behind another node. -/
def useBehindNode : List Op :=
  [.addNode .allocation (.allocation ⟨8, 8, 0, none⟩) ⟨none, none, none, none⟩,
    .addNode .deallocation (.deallocation ⟨0, 0⟩) ⟨none, none, none, none⟩,
    .addNode .phantom (.phantom ⟨"a"⟩) ⟨none, none, none, none⟩,
    .addNode .phantom (.phantom ⟨"b"⟩) ⟨none, none, none, none⟩,
    .addEdge 0 1 .derivation, .addEdge 1 2 .controlFlow, .addEdge 2 3 .controlFlow,
    .addEdge 0 3 .dataFlow]

theorem built_useBehindNode : (SCG.new.run useBehindNode).Built := by
  refine ⟨useBehindNode, ⟨?_, ?_, ?_, ?_, ?_, ?_, ?_, ?_, trivial⟩, rfl⟩ <;>
    rintro id (h | h) <;> cases h <;> decide

theorem edges_useBehindNode : (SCG.new.run useBehindNode).edges =
    [⟨0, 0, 1, .derivation, none⟩, ⟨1, 1, 2, .controlFlow, none⟩, ⟨2, 2, 3, .controlFlow, none⟩,
      ⟨3, 0, 3, .dataFlow, none⟩] := rfl

theorem deallocates_useBehindNode : (SCG.new.run useBehindNode).Deallocates 1 0 :=
  ⟨⟨1, .deallocation, none, ⟨none, none, none, none⟩, .deallocation ⟨0, 0⟩⟩,
    List.mem_cons_of_mem _ List.mem_cons_self, rfl, ⟨0, 0⟩, rfl, rfl⟩

/-- The node between the deallocation and the use is recorded as a use. -/
theorem not_reportsUses :
    ¬ ∀ (g : SCG) (it : KeyOrder NodeId), g.Built →
      ReportsUses g (g.findUseAfterFree (g.computeLiveness it)) := by
  intro h
  have hreports := h _ .id built_useBehindNode
  have hdealloc := deallocates_useBehindNode
  have hedges := edges_useBehindNode
  have hv := built_useBehindNode.valid
  obtain ⟨hkeys, hview⟩ := computeLiveness_of_converged hv .id
    (computeLivenessInner_converges hv (by decide) .id).1
  generalize SCG.new.run useBehindNode = g at *
  have hlive : LiveAt g 0 2 := by
    apply LiveAt.flow (m := 3) (by decide)
    · exact ⟨⟨2, 2, 3, .controlFlow, none⟩, by simp [hedges], rfl, rfl, rfl⟩
    · exact .use ⟨⟨3, 0, 3, .dataFlow, none⟩, by simp [hedges], rfl, rfl, rfl⟩
  have hflow : g.Flows 1 2 := ⟨⟨1, 1, 2, .controlFlow, none⟩, by simp [hedges], rfl, rfl, rfl⟩
  have hlisted : ⟨0, 1, g.collectViolatingUses (g.computeLiveness .id) 0 1⟩ ∈
      g.findUseAfterFree (g.computeLiveness .id) :=
    (mem_findUseAfterFree hv hkeys hview).mpr ⟨hdealloc, ⟨2, hflow, hlive⟩, rfl⟩
  obtain ⟨-, ⟨e, he, htarget, hsource, -⟩, -⟩ := (hreports.uses _ hlisted 2).mp
    ((mem_collectViolatingUses hv hkeys hview).mpr (.single ⟨hflow.hasEdge, hlive⟩))
  simp only [hedges, List.mem_cons, List.not_mem_nil, or_false] at he
  rcases he with rfl | rfl | rfl | rfl
  · exact absurd htarget (by decide)
  · exact absurd (show (1 : NodeId) = 0 from hsource) (by decide)
  · exact absurd htarget (by decide)
  · exact absurd htarget (by decide)

end Vuma.Scg
