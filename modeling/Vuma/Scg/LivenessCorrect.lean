import Vuma.Lib.RoundRobin
import Vuma.Scg.DiffCorrect
import Vuma.Scg.Liveness

/-!
# What liveness computes

A value is live at a node from which a path leads to a use of it, with no definition before. The
sweeps come to exactly these sets: they never leave the least solution of the equations, and reach
it in a few sweeps more than there are nodes.
-/

namespace Vuma.Scg

open Lib

/-! ## Paths to uses -/

/-- The node uses the value. -/
def SCG.Uses (g : SCG) (n v : NodeId) : Prop :=
  ∃ e ∈ g.edges, e.target = n ∧ e.source = v ∧ e.kind.isUse

/-- Liveness goes from one node to the other. -/
def SCG.Flows (g : SCG) (n m : NodeId) : Prop :=
  ∃ e ∈ g.edges, e.source = n ∧ e.target = m ∧ e.kind.isFlow

/-- A path leads from the node to a use of the value, and no node before the use defines it. -/
inductive LiveAt (g : SCG) (v : NodeId) : NodeId → Prop
  | use {n} (h : g.Uses n v) : LiveAt g v n
  | flow {n m} (hne : n ≠ v) (h : g.Flows n m) (hm : LiveAt g v m) : LiveAt g v n

variable {g : SCG} {n m v : NodeId}

namespace SCG

theorem mem_computeUseSet : v ∈ g.computeUseSet n ↔ g.Uses n v := by
  simp only [computeUseSet, List.mem_toFinset, List.mem_map, List.mem_filter, decide_eq_true_eq,
    Bool.decide_and, Bool.and_eq_true, Uses]
  constructor
  · intro ⟨e, ⟨he, htarget, hkind⟩, hsource⟩
    exact ⟨e, he, htarget, hsource, by simpa using hkind⟩
  · intro ⟨e, he, htarget, hsource, hkind⟩
    exact ⟨e, ⟨he, htarget, by simpa using hkind⟩, hsource⟩

theorem Valid.mem_computeSuccessorSet (hg : g.Valid) :
    m ∈ g.computeSuccessorSet n ↔ g.Flows n m := by
  rw [computeSuccessorSet, List.mem_filter, List.mem_eraseDups, hg.mem_successors, List.any_eq_true]
  simp only [decide_eq_true_eq]
  constructor
  · intro ⟨_, h⟩
    exact h
  · intro ⟨e, he, hsource, htarget, hkind⟩
    exact ⟨⟨e, he, hsource, htarget⟩, e, he, hsource, htarget, hkind⟩

theorem Flows.hasEdge (h : g.Flows n m) : g.HasEdge n m := by
  obtain ⟨e, he, hsource, htarget, -⟩ := h
  exact ⟨e, he, hsource, htarget⟩

theorem Valid.mem_nodeIds_of_uses (hg : g.Valid) (h : g.Uses n v) : n ∈ g.nodeIds := by
  obtain ⟨e, he, rfl, -, -⟩ := h
  exact (mem_nodeIds hg).mpr (hg.isSome_getNode_near .incoming he)

theorem Valid.mem_nodeIds_of_hasEdge (hg : g.Valid) (h : g.HasEdge n m) :
    n ∈ g.nodeIds ∧ m ∈ g.nodeIds := by
  obtain ⟨e, he, rfl, rfl⟩ := h
  exact ⟨(mem_nodeIds hg).mpr (hg.isSome_getNode_near .outgoing he),
    (mem_nodeIds hg).mpr (hg.isSome_getNode_near .incoming he)⟩

end SCG

/-! ## The equations -/

instance : PartialOrder LivenessInfo :=
  PartialOrder.lift (fun info => (info.liveIn, info.liveOut)) fun ⟨_, _⟩ ⟨_, _⟩ h => by
    cases h
    rfl

theorem LivenessInfo.le_iff {info info' : LivenessInfo} :
    info ≤ info' ↔ info.liveIn ⊆ info'.liveIn ∧ info.liveOut ⊆ info'.liveOut := Iff.rfl

theorem LivenessInfo.ext_mem {info info' : LivenessInfo}
    (hin : ∀ v, v ∈ info.liveIn ↔ v ∈ info'.liveIn)
    (hout : ∀ v, v ∈ info.liveOut ↔ v ∈ info'.liveOut) : info = info' := by
  obtain ⟨i, o⟩ := info
  obtain ⟨i', o'⟩ := info'
  rw [show i = i' from Finset.ext hin, show o = o' from Finset.ext hout]

/-- The equations: what the sets at a node are by the sets at all nodes. -/
def transfer (g : SCG) (s : NodeId → LivenessInfo) (n : NodeId) : LivenessInfo :=
  let liveOut := (g.computeSuccessorSet n).foldl (fun out m => out ∪ (s m).liveIn) ∅
  ⟨g.computeUseSet n ∪ liveOut.erase n, liveOut⟩

theorem mem_foldl_union {f : NodeId → Finset NodeId} {l : List NodeId} {out : Finset NodeId} :
    v ∈ l.foldl (fun out m => out ∪ f m) out ↔ v ∈ out ∨ ∃ m ∈ l, v ∈ f m := by
  induction l generalizing out with
  | nil => simp
  | cons m l ih =>
    rw [List.foldl_cons, ih, Finset.mem_union, or_assoc]
    simp

section Transfer

variable {s : NodeId → LivenessInfo} (hg : g.Valid)

include hg

theorem mem_liveOut_transfer :
    v ∈ (transfer g s n).liveOut ↔ ∃ m, g.Flows n m ∧ v ∈ (s m).liveIn := by
  rw [transfer, mem_foldl_union]
  simp only [Finset.notMem_empty, false_or, hg.mem_computeSuccessorSet]

theorem mem_liveIn_transfer : v ∈ (transfer g s n).liveIn ↔
    g.Uses n v ∨ n ≠ v ∧ ∃ m, g.Flows n m ∧ v ∈ (s m).liveIn := by
  rw [← mem_liveOut_transfer hg]
  show v ∈ g.computeUseSet n ∪ (transfer g s n).liveOut.erase n ↔ _
  rw [Finset.mem_union, Finset.mem_erase, SCG.mem_computeUseSet, ne_comm]

theorem monotone_transfer : Monotone (transfer g) := by
  intro s t hst n
  have hout : ∀ v, (∃ m, g.Flows n m ∧ v ∈ (s m).liveIn) → ∃ m, g.Flows n m ∧ v ∈ (t m).liveIn := by
    intro v ⟨m, hm, hv⟩
    exact ⟨m, hm, (LivenessInfo.le_iff.mp (hst m)).1 hv⟩
  rw [LivenessInfo.le_iff]
  constructor
  · intro v hv
    rw [mem_liveIn_transfer hg] at hv ⊢
    exact hv.imp_right fun h => ⟨h.1, hout v h.2⟩
  · intro v hv
    rw [mem_liveOut_transfer hg] at hv ⊢
    exact hout v hv

/-- At what is no node there is nothing. -/
theorem transfer_of_notMem (h : n ∉ g.nodeIds) : transfer g s n = .empty := by
  apply LivenessInfo.ext_mem
  · intro v
    rw [mem_liveIn_transfer hg]
    refine iff_of_false ?_ (Finset.notMem_empty v)
    rintro (huse | ⟨-, m, hm, -⟩)
    · exact h (hg.mem_nodeIds_of_uses huse)
    · exact h (hg.mem_nodeIds_of_hasEdge hm.hasEdge).1
  · intro v
    rw [mem_liveOut_transfer hg]
    refine iff_of_false ?_ (Finset.notMem_empty v)
    intro ⟨m, hm, _⟩
    exact h (hg.mem_nodeIds_of_hasEdge hm.hasEdge).1

end Transfer

/-! ## The least solution -/

open scoped Classical in
/-- The sets of the values that are live. -/
noncomputable def leastSolution (g : SCG) (n : NodeId) : LivenessInfo :=
  let sources := (g.edges.map EdgeData.source).toFinset
  ⟨sources.filter fun v => LiveAt g v n, sources.filter fun v => ∃ m, g.Flows n m ∧ LiveAt g v m⟩

theorem LiveAt.mem_sources (h : LiveAt g v n) : v ∈ (g.edges.map EdgeData.source).toFinset := by
  induction h with
  | use h =>
    obtain ⟨e, he, -, rfl, -⟩ := h
    exact List.mem_toFinset.mpr (List.mem_map_of_mem he)
  | flow _ _ _ ih => exact ih

theorem mem_liveIn_leastSolution : v ∈ (leastSolution g n).liveIn ↔ LiveAt g v n := by
  classical
  show v ∈ Finset.filter _ _ ↔ _
  rw [Finset.mem_filter]
  exact and_iff_right_of_imp LiveAt.mem_sources

theorem mem_liveOut_leastSolution :
    v ∈ (leastSolution g n).liveOut ↔ ∃ m, g.Flows n m ∧ LiveAt g v m := by
  classical
  show v ∈ Finset.filter _ _ ↔ _
  rw [Finset.mem_filter]
  exact and_iff_right_of_imp fun ⟨_, _, h⟩ => h.mem_sources

/-- A path to a use starts with the use, or leads on from a node that is not the definition. -/
theorem liveAt_iff : LiveAt g v n ↔ g.Uses n v ∨ n ≠ v ∧ ∃ m, g.Flows n m ∧ LiveAt g v m := by
  constructor
  · intro h
    cases h with
    | use h => exact .inl h
    | flow hne h hm => exact .inr ⟨hne, _, h, hm⟩
  · rintro (h | ⟨hne, m, h, hm⟩)
    · exact .use h
    · exact .flow hne h hm

theorem transfer_leastSolution (hg : g.Valid) : transfer g (leastSolution g) = leastSolution g := by
  funext n
  apply LivenessInfo.ext_mem
  · intro v
    rw [mem_liveIn_transfer hg, mem_liveIn_leastSolution, liveAt_iff]
    simp only [mem_liveIn_leastSolution]
  · intro v
    rw [mem_liveOut_transfer hg, mem_liveOut_leastSolution]
    simp only [mem_liveIn_leastSolution]

/-- What the equations do not add to holds everything that is live. -/
theorem leastSolution_le (hg : g.Valid) {s : NodeId → LivenessInfo} (hs : transfer g s ≤ s) :
    leastSolution g ≤ s := by
  have hin : ∀ v n, LiveAt g v n → v ∈ (s n).liveIn := by
    intro v n h
    induction h with
    | use h =>
      apply (LivenessInfo.le_iff.mp (hs _)).1
      exact (mem_liveIn_transfer hg).mpr (.inl h)
    | flow hne h _ ih =>
      apply (LivenessInfo.le_iff.mp (hs _)).1
      exact (mem_liveIn_transfer hg).mpr (.inr ⟨hne, _, h, ih⟩)
  intro n
  rw [LivenessInfo.le_iff]
  constructor
  · intro v hv
    exact hin v n (mem_liveIn_leastSolution.mp hv)
  · intro v hv
    obtain ⟨m, hm, hlive⟩ := mem_liveOut_leastSolution.mp hv
    apply (LivenessInfo.le_iff.mp (hs n)).2
    exact (mem_liveOut_transfer hg).mpr ⟨m, hm, hin v m hlive⟩

/-- Nothing is live initially. -/
def nothingLive : NodeId → LivenessInfo := fun _ => .empty

theorem nothingLive_le (s : NodeId → LivenessInfo) : nothingLive ≤ s := fun _ =>
  LivenessInfo.le_iff.mpr ⟨Finset.empty_subset _, Finset.empty_subset _⟩

/-- What is live at a node is found in as many rounds as the path to the use has nodes. The nodes
from which a use of `v` is reached are collected one edge of the path at a time. -/
theorem mem_liveIn_iterate (hg : g.Valid) (h : LiveAt g v n) :
    v ∈ ((transfer g)^[g.nodeIds.length + 2] nothingLive n).liveIn := by
  classical
  have hmono : Monotone fun k => (transfer g)^[k] nothingLive :=
    (monotone_transfer hg).monotone_iterate_of_le_map (nothingLive_le _)
  set U := g.nodeIds.toFinset with hU
  set pass : Finset NodeId → Finset NodeId := fun s =>
    s ∪ U.filter fun n => n ≠ v ∧ ∃ m ∈ s, g.Flows n m with hpass
  set start := U.filter fun n => g.Uses n v with hstart
  have hfound : ∀ rounds k s, (∀ n ∈ s, v ∈ ((transfer g)^[k] nothingLive n).liveIn) →
      ∀ n ∈ untilStable pass rounds s, v ∈ ((transfer g)^[k + rounds] nothingLive n).liveIn := by
    intro rounds
    induction rounds with
    | zero => exact fun k s hs => hs
    | succ rounds ih =>
      intro k s hs n hn
      rw [untilStable] at hn
      split at hn
      · have hle := hmono (Nat.le_add_right k (rounds + 1)) n
        exact (LivenessInfo.le_iff.mp hle).1 (hs n hn)
      · rw [← Nat.add_assoc, Nat.add_right_comm]
        refine ih (k + 1) (pass s) (fun n hn => ?_) n hn
        rcases Finset.mem_union.mp hn with hn | hn
        · exact (LivenessInfo.le_iff.mp (hmono (Nat.le_succ k) n)).1 (hs n hn)
        · obtain ⟨-, hne, m, hm, hflow⟩ := Finset.mem_filter.mp hn
          rw [Function.iterate_succ_apply', mem_liveIn_transfer hg]
          exact .inr ⟨hne, m, hflow, hs m hm⟩
  have hstable : pass (untilStable pass (g.nodeIds.length + 1) start) =
      untilStable pass (g.nodeIds.length + 1) start := by
    refine @untilStable_stable _ _ pass U (fun s => Finset.subset_union_left) ?_ _ _ ?_ ?_
    · intro s hs
      exact Finset.union_subset hs (Finset.filter_subset _ _)
    · exact Finset.filter_subset _ _
    · have hcard : U.card ≤ g.nodeIds.length := List.toFinset_card_le g.nodeIds
      omega
  have hmem : n ∈ untilStable pass (g.nodeIds.length + 1) start := by
    induction h with
    | use h =>
      apply subset_untilStable (fun s => Finset.subset_union_left)
      exact Finset.mem_filter.mpr ⟨List.mem_toFinset.mpr (hg.mem_nodeIds_of_uses h), h⟩
    | flow hne h _ ih =>
      rw [← hstable]
      have hnode := (hg.mem_nodeIds_of_hasEdge h.hasEdge).1
      exact Finset.mem_union_right _
        (Finset.mem_filter.mpr ⟨List.mem_toFinset.mpr hnode, hne, _, ih, h⟩)
  have hone : ∀ n ∈ start, v ∈ ((transfer g)^[1] nothingLive n).liveIn := by
    intro n hn
    rw [Function.iterate_one, mem_liveIn_transfer hg]
    exact .inl (Finset.mem_filter.mp hn).2
  have := hfound (g.nodeIds.length + 1) 1 start hone n hmem
  rwa [Nat.add_comm 1] at this

theorem leastSolution_le_iterate (hg : g.Valid) :
    leastSolution g ≤ (transfer g)^[g.nodeIds.length + 3] nothingLive := by
  intro n
  rw [Function.iterate_succ_apply', LivenessInfo.le_iff]
  constructor
  · intro v hv
    rw [mem_liveIn_leastSolution, liveAt_iff] at hv
    rw [mem_liveIn_transfer hg]
    exact hv.imp_right fun ⟨hne, m, hm, hlive⟩ => ⟨hne, m, hm, mem_liveIn_iterate hg hlive⟩
  · intro v hv
    rw [mem_liveOut_leastSolution] at hv
    obtain ⟨m, hm, hlive⟩ := hv
    rw [mem_liveOut_transfer hg]
    exact ⟨m, hm, mem_liveIn_iterate hg hlive⟩

/-! ## The sweeps -/

/-- The sets at a node, or nothing. -/
def view (liveness : HashMap NodeId LivenessInfo) (n : NodeId) : LivenessInfo :=
  (liveness.lookup n).getD .empty

/-- The map has sets for all nodes in the list. -/
def HasKeys (ids : List NodeId) (liveness : HashMap NodeId LivenessInfo) : Prop :=
  ∀ n, (liveness.lookup n).isSome ↔ n ∈ ids

section Sweeps

variable {ids : List NodeId} {liveness : HashMap NodeId LivenessInfo}

theorem newInfo_eq (g : SCG) (liveness : HashMap NodeId LivenessInfo) (n : NodeId) :
    g.newInfo liveness n = transfer g (view liveness) n := by
  refine congrArg (fun out => (⟨g.computeUseSet n ∪ out.erase n, out⟩ : LivenessInfo))
    (List.foldl_ext _ _ _ fun out m _ => ?_)
  rw [view]
  cases liveness.lookup m with
  | none => exact (Finset.union_empty out).symm
  | some info => rfl

theorem HasKeys.lookup_eq (h : HasKeys ids liveness) (hn : n ∈ ids) :
    liveness.lookup n = some (view liveness n) := by
  obtain ⟨info, hinfo⟩ := Option.isSome_iff_exists.mp ((h n).mpr hn)
  rw [view, hinfo]
  rfl

theorem HasKeys.lookup_eq_none (h : HasKeys ids liveness) (hn : n ∉ ids) :
    liveness.lookup n = none := by
  rw [← Option.not_isSome_iff_eq_none, h n]
  exact hn

theorem view_insert (liveness : HashMap NodeId LivenessInfo) (n : NodeId) (info : LivenessInfo) :
    view (liveness.insert n info) = Function.update (view liveness) n info := by
  funext m
  rw [view, HashMap.lookup_insert_ite, Function.update_apply]
  split_ifs <;> rfl

theorem HasKeys.insert (h : HasKeys ids liveness) (hn : n ∈ ids) (info : LivenessInfo) :
    HasKeys ids (liveness.insert n info) := by
  intro m
  rw [HashMap.lookup_insert_ite]
  split_ifs with hm
  · rw [hm]
    exact iff_of_true rfl hn
  · exact h m

/-- One visit, and whether it changes anything. -/
theorem livenessStep_spec (h : HasKeys ids liveness) (hn : n ∈ ids) (c : Bool) :
    HasKeys ids (g.livenessStep (liveness, c) n).1 ∧
      view (g.livenessStep (liveness, c) n).1 = visit (transfer g) (view liveness) n ∧
      ((g.livenessStep (liveness, c) n).2 = true ↔
        c = true ∧ transfer g (view liveness) n = view liveness n) := by
  rw [SCG.livenessStep, newInfo_eq, h.lookup_eq hn]
  by_cases heq : view liveness n = transfer g (view liveness) n
  · rw [if_pos (congrArg some heq)]
    exact ⟨h, (visit_of_eq heq.symm).symm, (and_iff_left heq.symm).symm⟩
  · rw [if_neg fun h => heq (Option.some.inj h)]
    refine ⟨h.insert hn _, view_insert _ _ _, ?_⟩
    exact iff_of_false Bool.false_ne_true fun h => heq h.2.symm

/-- A sweep, and whether it changes anything. -/
theorem foldl_livenessStep {l : List NodeId} (h : HasKeys ids liveness) (hl : ∀ n ∈ l, n ∈ ids)
    (c : Bool) : HasKeys ids (l.foldl g.livenessStep (liveness, c)).1 ∧
      view (l.foldl g.livenessStep (liveness, c)).1 = sweep (transfer g) l (view liveness) ∧
      ((l.foldl g.livenessStep (liveness, c)).2 = true ↔
        c = true ∧ ∀ n ∈ l, transfer g (view liveness) n = view liveness n) := by
  induction l generalizing liveness c with
  | nil => exact ⟨h, rfl, by simp⟩
  | cons n l ih =>
    obtain ⟨hkeys, hview, hflag⟩ := livenessStep_spec (g := g) h (hl n List.mem_cons_self) c
    rw [List.foldl_cons]
    obtain ⟨hkeys', hview', hflag'⟩ :=
      ih hkeys (fun m hm => hl m (List.mem_cons_of_mem _ hm)) (g.livenessStep (liveness, c) n).2
    refine ⟨hkeys', ?_, ?_⟩
    · rw [hview', hview]
      rfl
    · rw [hflag', hflag, List.forall_mem_cons, and_assoc]
      apply and_congr_right'
      apply and_congr_right
      intro heq
      rw [hview, visit_of_eq heq]

theorem livenessLoop_succ (g : SCG) (ids : List NodeId) (left : Nat)
    (liveness : HashMap NodeId LivenessInfo) : g.livenessLoop ids (left + 1) liveness =
      if (ids.foldl g.livenessStep (liveness, true)).2 then
        ⟨(ids.foldl g.livenessStep (liveness, true)).1, maxIterations - left, true⟩
      else g.livenessLoop ids left (ids.foldl g.livenessStep (liveness, true)).1 := rfl

theorem livenessLoop_spec (h : HasKeys ids liveness) (left : Nat) :
    HasKeys ids (g.livenessLoop ids left liveness).liveness ∧
      (∃ j, view (g.livenessLoop ids left liveness).liveness =
        (sweep (transfer g) ids)^[j] (view liveness)) ∧
      ((g.livenessLoop ids left liveness).converged = true →
        ∀ n ∈ ids, transfer g (view (g.livenessLoop ids left liveness).liveness) n =
          view (g.livenessLoop ids left liveness).liveness n) := by
  induction left generalizing liveness with
  | zero => exact ⟨h, ⟨0, rfl⟩, nofun⟩
  | succ left ih =>
    obtain ⟨hkeys, hview, hflag⟩ := foldl_livenessStep (g := g) h (fun n hn => hn) true
    rw [livenessLoop_succ]
    by_cases hdone : (ids.foldl g.livenessStep (liveness, true)).2 = true
    · have hfix := (hflag.mp hdone).2
      have hsame : view (ids.foldl g.livenessStep (liveness, true)).1 = view liveness :=
        hview.trans (sweep_of_eq hfix)
      rw [if_pos hdone]
      refine ⟨hkeys, ⟨0, hsame⟩, fun _ => ?_⟩
      rw [hsame]
      exact hfix
    · rw [if_neg hdone]
      obtain ⟨hkeys', ⟨j, hj⟩, hfix⟩ := ih hkeys
      refine ⟨hkeys', ⟨j + 1, ?_⟩, hfix⟩
      rw [hj, hview]
      rfl

theorem livenessLoop_converges {left k : Nat} (h : HasKeys ids liveness)
    (hleft : left ≤ maxIterations) (hk : k < left)
    (hstable : ∀ n ∈ ids, transfer g ((sweep (transfer g) ids)^[k] (view liveness)) n =
      (sweep (transfer g) ids)^[k] (view liveness) n) :
    (g.livenessLoop ids left liveness).converged = true ∧
      (g.livenessLoop ids left liveness).iterations ≤ maxIterations - left + k + 1 := by
  induction k generalizing left liveness with
  | zero =>
    obtain ⟨left, rfl⟩ := Nat.exists_eq_succ_of_ne_zero (Nat.ne_of_gt hk)
    obtain ⟨-, -, hflag⟩ := foldl_livenessStep (g := g) h (fun n hn => hn) true
    rw [Nat.succ_eq_add_one, livenessLoop_succ, if_pos (hflag.mpr ⟨rfl, hstable⟩)]
    refine ⟨rfl, ?_⟩
    show maxIterations - left ≤ _
    omega
  | succ k ih =>
    obtain ⟨left, rfl⟩ := Nat.exists_eq_succ_of_ne_zero (show left ≠ 0 by omega)
    obtain ⟨hkeys, hview, -⟩ := foldl_livenessStep (g := g) h (fun n hn => hn) true
    rw [Nat.succ_eq_add_one, livenessLoop_succ]
    split_ifs
    · refine ⟨rfl, ?_⟩
      show maxIterations - left ≤ _
      omega
    · obtain ⟨hconv, hiter⟩ := @ih _ left hkeys (by omega) (by omega) (by
        rw [hview]
        exact hstable)
      exact ⟨hconv, by omega⟩

end Sweeps

theorem hasKeys_initial (ids : List NodeId) :
    HasKeys ids (ids.foldl (fun liveness n => liveness.insert n .empty) ∅) ∧
      view (ids.foldl (fun liveness n => liveness.insert n .empty) ∅) = nothingLive := by
  have hstep : ∀ (l : List NodeId) (liveness : HashMap NodeId LivenessInfo), view liveness =
      nothingLive → view (l.foldl (fun liveness n => liveness.insert n .empty) liveness) =
        nothingLive ∧ ∀ n, ((l.foldl (fun liveness n => liveness.insert n .empty) liveness).lookup
          n).isSome ↔ (liveness.lookup n).isSome ∨ n ∈ l := by
    intro l
    induction l with
    | nil => exact fun liveness h => ⟨h, fun n => by simp⟩
    | cons m l ih =>
      intro liveness h
      have hview : view (liveness.insert m .empty) = nothingLive := by
        rw [view_insert, h]
        exact Function.update_eq_self m nothingLive
      obtain ⟨hnext, hkeys⟩ := ih _ hview
      refine ⟨hnext, fun n => ?_⟩
      rw [List.foldl_cons, hkeys, HashMap.lookup_insert_ite, List.mem_cons]
      by_cases hn : n = m
      · simp [hn]
      · rw [if_neg hn]
        exact or_congr_right (or_iff_right hn).symm
  obtain ⟨hview, hkeys⟩ := hstep ids ∅ rfl
  refine ⟨fun n => ?_, hview⟩
  rw [hkeys]
  exact or_iff_right (by simp)

theorem iterate_sweep_le (hg : g.Valid) (ids : List NodeId) (k : Nat) :
    (sweep (transfer g) ids)^[k] nothingLive ≤ leastSolution g := by
  induction k with
  | zero => exact nothingLive_le _
  | succ k ih =>
    rw [Function.iterate_succ_apply']
    exact sweep_le (monotone_transfer hg) (transfer_leastSolution hg).le ih

theorem iterate_sweep_eq (hg : g.Valid) {ids : List NodeId} (hids : ids.Perm g.nodeIds) :
    (sweep (transfer g) ids)^[g.nodeIds.length + 3] nothingLive = leastSolution g := by
  apply le_antisymm (iterate_sweep_le hg ids _)
  refine (leastSolution_le_iterate hg).trans
    (iterate_le_sweep (monotone_transfer hg) (nothingLive_le _) (fun t n hn => ?_) _)
  rw [transfer_of_notMem hg fun h => hn (hids.mem_iff.mpr h)]
  exact le_refl _

theorem computeLiveness_of_converged (hg : g.Valid) (it : KeyOrder NodeId)
    (hconv : (g.computeLivenessInner it).converged = true) :
    HasKeys g.nodeIds (g.computeLiveness it) ∧ view (g.computeLiveness it) = leastSolution g := by
  have hperm := it.perm g.nodeIds
  rw [SCG.computeLiveness]
  rw [SCG.computeLivenessInner] at hconv ⊢
  by_cases hnil : it.order g.nodeIds = []
  · have hempty : g.nodeIds = [] := (hnil ▸ hperm).nil_eq.symm
    rw [if_pos hnil]
    refine ⟨fun n => by simp [hempty], ?_⟩
    funext n
    rw [← transfer_leastSolution hg, transfer_of_notMem hg (by simp [hempty])]
    rfl
  · rw [if_neg hnil] at hconv ⊢
    obtain ⟨hkeys, hview⟩ := hasKeys_initial (it.order g.nodeIds)
    obtain ⟨hkeys', ⟨j, hj⟩, hfix⟩ := livenessLoop_spec (g := g) hkeys maxIterations
    refine ⟨fun n => (hkeys' n).trans hperm.mem_iff, le_antisymm ?_ ?_⟩
    · rw [hj, hview]
      exact iterate_sweep_le hg _ j
    · -- a state that no sweep changes is above the least solution
      apply leastSolution_le hg
      intro n
      by_cases hn : n ∈ it.order g.nodeIds
      · exact (hfix hconv n hn).le
      · rw [transfer_of_notMem hg fun h => hn (hperm.mem_iff.mpr h)]
        exact nothingLive_le _ n

theorem computeLivenessInner_converges (hg : g.Valid) (hlt : g.nodeIds.length < 9000)
    (it : KeyOrder NodeId) : (g.computeLivenessInner it).converged = true ∧
      (g.computeLivenessInner it).iterations < maxIterations := by
  rw [SCG.computeLivenessInner]
  split_ifs
  · exact ⟨rfl, by decide⟩
  · obtain ⟨hkeys, hview⟩ := hasKeys_initial (it.order g.nodeIds)
    have hreach := iterate_sweep_eq hg (it.perm g.nodeIds)
    rw [← hview] at hreach
    have hbound : g.nodeIds.length + 3 < maxIterations := by
      rw [maxIterations]
      omega
    obtain ⟨hconv, hiter⟩ := livenessLoop_converges (g := g) hkeys le_rfl hbound (by
      intro n _
      rw [hreach, transfer_leastSolution hg])
    refine ⟨hconv, ?_⟩
    rw [maxIterations] at hiter ⊢
    omega

/-- With fewer than 9000 nodes the sweeps converge before the cap, and the sets are those of the
values for which a path leads to a use, for every order of the nodes. -/
theorem computeLivenessInner_least (hg : g.Built) (hlt : g.nodeIds.length < 9000)
    (it : KeyOrder NodeId) :
    (g.computeLivenessInner it).converged = true ∧
      (g.computeLivenessInner it).iterations < maxIterations ∧
      (∀ n, ((g.computeLiveness it).lookup n).isSome ↔ (g.getNode n).isSome) ∧
      (∀ n info, (g.computeLiveness it).lookup n = some info → ∀ v,
        (v ∈ info.liveIn ↔ LiveAt g v n) ∧
          (v ∈ info.liveOut ↔ ∃ m, g.Flows n m ∧ LiveAt g v m)) ∧
      ∀ it' n, (g.computeLiveness it').lookup n = (g.computeLiveness it).lookup n := by
  have hv := hg.valid
  obtain ⟨hconv, hiter⟩ := computeLivenessInner_converges hv hlt it
  obtain ⟨hkeys, hview⟩ := computeLiveness_of_converged hv it hconv
  refine ⟨hconv, hiter, fun n => (hkeys n).trans (SCG.mem_nodeIds hv), ?_, ?_⟩
  · intro n info hinfo v
    have hat : info = leastSolution g n := by
      rw [← hview, view, hinfo]
      rfl
    rw [hat]
    exact ⟨mem_liveIn_leastSolution, mem_liveOut_leastSolution⟩
  · intro it' n
    obtain ⟨hkeys', hview'⟩ :=
      computeLiveness_of_converged hv it' (computeLivenessInner_converges hv hlt it').1
    by_cases hn : n ∈ g.nodeIds
    · rw [hkeys'.lookup_eq hn, hkeys.lookup_eq hn, hview', hview]
    · rw [hkeys'.lookup_eq_none hn, hkeys.lookup_eq_none hn]

/-- Two nodes that feed each other, and a third that the second one feeds. -/
def feedingCycle : List Op :=
  [.addNode .phantom (.phantom ⟨"a"⟩) ⟨none, none, none, none⟩,
    .addNode .phantom (.phantom ⟨"b"⟩) ⟨none, none, none, none⟩,
    .addNode .effect (.effect ⟨"c", true⟩) ⟨none, none, none, none⟩,
    .addEdge 0 1 .dataFlow, .addEdge 1 0 .dataFlow, .addEdge 1 2 .dataFlow]

theorem built_feedingCycle : (SCG.new.run feedingCycle).Built := by
  refine ⟨feedingCycle, ⟨?_, ?_, ?_, ?_, ?_, ?_, trivial⟩, rfl⟩ <;> rintro id (h | h) <;>
    cases h <;> decide

theorem computeLivenessInner_feedingCycle :
    ((SCG.new.run feedingCycle).computeLivenessInner .id).converged = true ∧
      ∀ n info, ((SCG.new.run feedingCycle).computeLiveness .id).lookup n = some info → ∀ v,
        v ∈ info.liveIn ↔ LiveAt (SCG.new.run feedingCycle) v n := by
  obtain ⟨hconv, -, -, hinfo, -⟩ :=
    computeLivenessInner_least built_feedingCycle (by decide) .id
  exact ⟨hconv, fun n info h v => (hinfo n info h v).1⟩

end Vuma.Scg
