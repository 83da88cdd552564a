import Vuma.Opt.EGraphRules

/-!
# Saturation and extraction

Rebuilding and saturating a graph are made of steps that keep its models, and the node that is
extracted for a class is one of its nodes. So a model of the graph before saturation extends to the
classes that saturation adds, and the extracted node has the value of the class.
-/

namespace Vuma.Opt

open IR

namespace EGraph

/-! ## Rebuilding -/

section

variable {ev : OpValue} {ext : Nat → Prop} {g : EGraph} (hg : g.Inv)

theorem mem_canonicalNodes {n : ENode} {id : EClassId} (h : (n, id) ∈ g.canonicalNodes) :
    id < g.nextId ∧ ∃ m, g.Mem m id ∧ n = g.canonicalize m := by
  simp only [canonicalNodes, canonicalIds, classIds, List.mem_flatMap, List.mem_filter,
    List.mem_range, List.mem_map, Prod.mk.injEq] at h
  obtain ⟨id', ⟨⟨hlt, -⟩, -⟩, m, hm, rfl, rfl⟩ := h
  exact ⟨hlt, m, mem_nodesOf.1 hm, rfl⟩

theorem Models.value_canonicalize {v : Nat → Word} (hv : Models ev v g) (n : ENode) :
    (g.canonicalize n).value ev v = n.value ev v := by
  cases n with
  | lit c => rfl
  | vreg i => rfl
  | binOp op a b => rw [canonicalize, ENode.value, ENode.value, hv.ids, hv.ids]

theorem alike_of_canonicalize {n m : ENode} (h : g.canonicalize n = g.canonicalize m) :
    Alike ev g n m := by
  cases n with
  | lit c | vreg i => cases m <;> first | exact .plain rfl rfl | cases h
  | binOp op a b =>
    cases m with
    | lit c => cases h
    | vreg i => cases h
    | binOp op' a' b' =>
      simp only [canonicalize, ENode.binOp.injEq] at h
      obtain ⟨rfl, ha, hb⟩ := h
      refine .binOp fun v hv => ⟨?_, ?_⟩
      · rw [← hv.ids a, ha, hv.ids]
      · rw [← hv.ids b, hb, hv.ids]

include hg

theorem reach_mergeGroup {n : ENode} {group : List EClassId}
    (hgroup : ∀ id ∈ group, (n, id) ∈ g.canonicalNodes) {s : EGraph × Bool}
    (hs : Reach ev ext g s.1) : Reach ev ext g (mergeGroup s group).1 := by
  cases group with
  | nil => exact hs
  | cons first others =>
    obtain ⟨hlt, m, hm, hcanon⟩ := mem_canonicalNodes (hgroup first List.mem_cons_self)
    refine List.foldlRecOn (motive := fun s : EGraph × Bool => Reach ev ext g s.1) others _ hs
      fun s hs other hother => ?_
    obtain ⟨hlt', m', hm', hcanon'⟩ :=
      mem_canonicalNodes (hgroup other (List.mem_cons_of_mem _ hother))
    have hinv := hs.inv hg
    split
    · have hmem := hs.mem hg hm
      have hmem' := hs.mem hg hm'
      rw [← hinv.find_find] at hmem hmem'
      refine .merge hs (hinv.find_lt (hlt.trans_le hs.next_le))
        (hinv.find_lt (hlt'.trans_le hs.next_le)) hmem hmem' ?_ fun v hv => ?_
      · exact (alike_of_canonicalize (hcanon.symm.trans hcanon')).mono fun v hv => hs.models hg hv
      · have hvg := hs.models hg hv
        rw [hv.ids, hv.ids, ← hvg.nodes m _ hm, ← hvg.nodes m' _ hm', ← hvg.value_canonicalize m,
          ← hvg.value_canonicalize m', ← hcanon, hcanon']
    · exact hs

theorem reach_rebuildOnce : Reach ev ext g g.rebuildOnce.1 := by
  refine List.foldlRecOn (motive := fun s : EGraph × Bool => Reach ev ext g s.1) _ _ .refl
    fun s hs group hgroup => ?_
  obtain ⟨n, -, rfl⟩ := List.mem_map.1 hgroup
  refine reach_mergeGroup (n := n) hg (fun id hid => ?_) hs
  obtain ⟨⟨n', id'⟩, hp, rfl⟩ := List.mem_map.1 hid
  obtain ⟨hmem, hn⟩ := List.mem_filter.1 hp
  obtain rfl : n' = n := of_decide_eq_true hn
  exact hmem

theorem reach_rebuildLoop (n : Nat) : Reach ev ext g (rebuildLoop n g) := by
  induction n generalizing g with
  | zero => exact .refl
  | succ n ih =>
    have hstep : Reach ev ext g g.rebuildOnce.1 := reach_rebuildOnce hg
    simp only [rebuildLoop]
    split
    · exact hstep.trans (ih (hstep.inv hg))
    · exact hstep

theorem reach_rebuild : Reach ev ext g g.rebuild :=
  reach_rebuildLoop hg 16

end

/-! ## Saturation -/

section

variable {ev : OpValue} {ext : Nat → Prop} {g h : EGraph} (hg : g.Inv)
include hg

theorem reach_applyRule {rule : RewriteRule} (hrule : rule.Sound ev ext) {id : EClassId} {n : ENode}
    (hid : id < g.nextId) (hn : g.Mem n (g.find id)) {s : Saturation}
    (hs : Reach ev ext g s.graph) : Reach ev ext g (applyRule id n s rule).graph := by
  unfold applyRule
  split
  · exact hs
  split
  · exact hs
  · next replId m g' happ =>
    have hinv := hs.inv hg
    have hmem : s.graph.Mem n (s.graph.find id) := by
      rw [hs.find_congr hg (hg.find_find id).symm]
      exact hs.mem hg hn
    obtain ⟨hdiv, hyields⟩ := hrule hinv (fun k hk => .inr ⟨n, _, hmem, hk⟩) happ
    have hinv' := hyields.reach.inv hinv
    have hreach := hs.trans hyields.reach
    simp only
    split
    · obtain ⟨m', hm', hdiv'⟩ := hyields.plain
      have hmem' : g'.Mem n (g'.find id) := by
        rw [hreach.find_congr hg (hg.find_find id).symm]
        exact hreach.mem hg hn
      rw [← hinv'.find_find] at hm' hmem'
      refine .merge hreach (hinv'.find_lt (hid.trans_le hreach.next_le))
        (hinv'.find_lt hyields.lt) hmem' hm' (.plain hdiv hdiv') fun v hv => ?_
      rw [hinv'.find_find] at hmem'
      rw [hv.ids replId, hyields.value v hv, hv.nodes n _ hmem']
    · exact hreach

theorem reach_visitClass {rules : List RewriteRule} (hrules : ∀ rule ∈ rules, rule.Sound ev ext)
    {id : EClassId} (hid : id < g.nextId) {s : Saturation} (hs : Reach ev ext g s.graph) :
    Reach ev ext g (visitClass rules s id).graph := by
  unfold visitClass
  split
  · exact hs
  have hinv := hs.inv hg
  have hvisit : Reach ev ext s.graph ((sortByDebug (s.graph.nodesOf (s.graph.find id))).foldl
      (fun s node => rules.foldl (applyRule id node) s) s).graph := by
    refine List.foldlRecOn (motive := fun t : Saturation => Reach ev ext s.graph t.graph) _ _ .refl
      fun t ht n hn => ?_
    have hmem : n ∈ s.graph.nodesOf (s.graph.find id) := (List.mem_insertionSort _).1 hn
    exact List.foldlRecOn (motive := fun t : Saturation => Reach ev ext s.graph t.graph) _ _ ht
      fun t ht rule hrule => reach_applyRule hinv (hrules rule hrule) (hid.trans_le hs.next_le)
        (mem_nodesOf.1 hmem) ht
  exact hs.trans hvisit

theorem reach_saturateRound {rules : List RewriteRule} (hrules : ∀ rule ∈ rules, rule.Sound ev ext) :
    Reach ev ext g (saturateRound rules g).graph := by
  refine List.foldlRecOn (motive := fun s : Saturation => Reach ev ext g s.graph) _ _ .refl
    fun s hs id hid => ?_
  exact reach_visitClass hg hrules (List.mem_range.1 (List.mem_of_mem_filter hid)) hs

theorem reach_saturateLoop {rules : List RewriteRule} (hrules : ∀ rule ∈ rules, rule.Sound ev ext)
    (budget : Nat) : Reach ev ext g (saturateLoop rules budget g) := by
  induction budget generalizing g with
  | zero => exact .refl
  | succ budget ih =>
    unfold saturateLoop
    split
    · exact .refl
    have hround := reach_saturateRound hg hrules
    have hinv := hround.inv hg
    have hstep : Reach ev ext g (if (saturateRound rules g).changed then
        (saturateRound rules g).graph.rebuild else (saturateRound rules g).graph) := by
      split
      · exact hround.trans (reach_rebuild hinv)
      · exact hround
    simp only
    split
    · exact hstep
    · exact hstep.trans (ih (hstep.inv hg))

theorem reach_saturate {rules : List RewriteRule} (hrules : ∀ rule ∈ rules, rule.Sound ev ext)
    (gate : List RewriteRule → Bool) (budget : Nat) :
    Reach ev ext g (g.saturate gate rules budget) := by
  unfold saturate
  split
  · exact reach_saturateLoop hg hrules budget
  · exact .refl

end

/-! ## Extraction -/

section

variable {g : EGraph} (costFn : ENode → Nat)

theorem localBest_mem {best : Best} {nodes : List ENode} {c : Nat} {n : ENode}
    (h : g.localBest costFn best nodes = some (c, n)) : n ∈ nodes := by
  refine List.foldlRecOn (motive := fun acc => ∀ c n, acc = some (c, n) → n ∈ nodes) nodes _ ?_
    (fun acc hacc m hm c n heq => ?_) c n h
  · intro c n heq
    cases heq
  · simp only at heq
    split at heq
    · cases heq
      exact hm
    · split at heq
      · cases heq
        exact hm
      · exact hacc c n heq

theorem localBest_isSome (best : Best) {nodes : List ENode} (hne : nodes ≠ []) :
    (g.localBest costFn best nodes).isSome := by
  obtain ⟨n, nodes, rfl⟩ := List.exists_cons_of_ne_nil hne
  refine List.foldlRecOn (motive := fun acc => Option.isSome acc) nodes _ rfl fun acc hacc m _ => ?_
  simp only
  split
  · rfl
  · split
    · rfl
    · exact hacc

/-- What the rounds of `extract` keep: a node that is chosen belongs to its class, and where a cost
is known there is a node. -/
structure Best.Ok (g : EGraph) (best : Best) : Prop where
  mem : ∀ id n, best.node id = some n → g.Mem n id
  node : ∀ id, (best.cost id).isSome → (best.node id).isSome

theorem Best.Ok.empty : Best.Ok g {} := by
  refine ⟨fun id n h => ?_, fun id h => ?_⟩
  · cases h
  · cases h

theorem Best.Ok.extractClass {s : Best × Bool} (h : s.1.Ok g) (id : EClassId) :
    (g.extractClass costFn s id).1.Ok g := by
  unfold EGraph.extractClass
  split
  · next c n hbest =>
    split
    · refine ⟨fun id' n' hn' => ?_, fun id' hid' => ?_⟩
      · simp only at hn'
        by_cases hid : id' = id
        · subst hid
          rw [Function.update_self] at hn'
          cases hn'
          exact mem_nodesOf.1 ((List.mem_insertionSort _).1 (localBest_mem costFn hbest))
        · rw [Function.update_of_ne hid] at hn'
          exact h.mem id' n' hn'
      · simp only at hid' ⊢
        by_cases hid : id' = id
        · subst hid
          rw [Function.update_self]
          rfl
        · rw [Function.update_of_ne hid] at hid' ⊢
          exact h.node id' hid'
    · exact h
  · exact h

/-- A class that has a node keeps one. -/
theorem isSome_extractClass {s : Best × Bool} {id id' : EClassId} (h : (s.1.node id').isSome) :
    ((g.extractClass costFn s id).1.node id').isSome := by
  unfold extractClass
  split
  · split
    · simp only [Function.update_apply]
      split
      · rfl
      · exact h
    · exact h
  · exact h

theorem isSome_extractClass_self {s : Best × Bool} (h : s.1.Ok g) {id : EClassId} {n : ENode}
    (hn : g.Mem n id) : ((g.extractClass costFn s id).1.node id).isSome := by
  have hne : sortByCost costFn (g.nodesOf id) ≠ [] :=
    List.ne_nil_of_mem ((List.mem_insertionSort _).2 (mem_nodesOf.2 hn))
  obtain ⟨⟨c, m⟩, hbest⟩ := Option.isSome_iff_exists.1
    (localBest_isSome costFn (g := g) s.1 hne)
  simp only [extractClass, hbest]
  split
  · simp only [Function.update_self]
    rfl
  · next hcost =>
    refine h.node id ?_
    rw [not_not.1 hcost]
    rfl

theorem Best.Ok.foldl {ids : List EClassId} {s : Best × Bool} (h : s.1.Ok g) :
    (ids.foldl (g.extractClass costFn) s).1.Ok g :=
  List.foldlRecOn (motive := fun s : Best × Bool => s.1.Ok g) ids _ h
    fun _ hs id _ => hs.extractClass costFn id

theorem isSome_foldl (ids : List EClassId) {s : Best × Bool} (h : s.1.Ok g) {id : EClassId}
    {n : ENode} (hn : g.Mem n id) (hid : id ∈ ids ∨ (s.1.node id).isSome) :
    ((ids.foldl (g.extractClass costFn) s).1.node id).isSome := by
  induction ids generalizing s with
  | nil => exact hid.resolve_left List.not_mem_nil
  | cons first ids ih =>
    refine ih (h.extractClass costFn first) ?_
    rcases hid with hid | hid
    · rcases List.mem_cons.1 hid with rfl | hid
      · exact .inr (isSome_extractClass_self costFn h hn)
      · exact .inl hid
    · exact .inr (isSome_extractClass costFn hid)

theorem Best.Ok.extractLoop {best : Best} (h : best.Ok g) (n : Nat) :
    (g.extractLoop costFn n best).Ok g := by
  induction n generalizing best with
  | zero => exact h
  | succ n ih =>
    simp only [EGraph.extractLoop]
    split
    · exact ih (Best.Ok.foldl costFn (s := (best, false)) h)
    · exact Best.Ok.foldl costFn (s := (best, false)) h

theorem isSome_extractLoop {best : Best} (h : best.Ok g) {id : EClassId} {m : ENode}
    (hm : g.Mem m id) (hid : (best.node id).isSome) (n : Nat) :
    ((g.extractLoop costFn n best).node id).isSome := by
  induction n generalizing best with
  | zero => exact hid
  | succ n ih =>
    have hround := isSome_foldl costFn g.canonicalIds (s := (best, false)) h hm (.inr hid)
    simp only [extractLoop]
    split
    · exact ih (Best.Ok.foldl costFn (s := (best, false)) h) hround
    · exact hround

theorem isSome_extractLoop_succ {id : EClassId} (hid : id ∈ g.canonicalIds) {m : ENode}
    (hm : g.Mem m id) (n : Nat) : ((g.extractLoop costFn (n + 1) {}).node id).isSome := by
  have hround := isSome_foldl costFn g.canonicalIds (s := ({}, false)) .empty hm (.inl hid)
  simp only [extractLoop]
  split
  · exact isSome_extractLoop costFn (Best.Ok.foldl costFn (s := ({}, false)) .empty) hm hround n
  · exact hround

theorem extract_mem (hg : g.Inv) {id : EClassId} (hid : id < g.nextId) :
    g.Mem (g.extract id costFn) (g.find id) := by
  obtain ⟨m, hm⟩ := hg.exists_mem_find hid
  have hcanonical : g.find id ∈ g.canonicalIds := by
    obtain ⟨nodes, hnodes, -⟩ := hm
    simp [canonicalIds, classIds, hg.find_lt hid, hg.find_find, hnodes]
  obtain ⟨n, hn⟩ := Option.isSome_iff_exists.1
    (isSome_extractLoop_succ costFn hcanonical hm 63)
  have hok : (g.extractLoop costFn 64 {}).Ok g :=
    Best.Ok.extractLoop costFn .empty 64
  rw [extract, hn]
  exact hok.mem _ n hn

end

/-! ## Soundness -/

/-- The graphs that are built by adding nodes and merging classes. -/
inductive Built : EGraph → Prop
  | empty : Built {}
  | add {g : EGraph} (node : ENode) : Built g → Built (g.add node).2
  | merge {g : EGraph} {a b : EClassId} : Built g → a < g.nextId → b < g.nextId →
      Built (g.merge a b)

theorem Inv.empty : Inv {} := by
  refine ⟨⟨0, Nat.zero_le _, fun _ => rfl⟩, fun id hid => ?_, fun _ _ => rfl, fun id hid => ?_,
    fun n id hmem => ?_, fun n id hid => ?_⟩
  · exact absurd hid (Nat.not_lt_zero _)
  · exact absurd hid (Nat.not_lt_zero _)
  · obtain ⟨ns, hns, -⟩ := hmem
    cases hns
  · cases hid

theorem Built.inv {g : EGraph} (h : Built g) : g.Inv := by
  induction h with
  | empty => exact .empty
  | @add g node _ ih =>
    rcases g.add_cases node with ⟨id, -, hadd⟩ | ⟨-, hadd⟩
    · rwa [hadd]
    · rw [hadd]
      exact ih.addNew node
  | merge _ ha hb ih =>
    have hmerge := ih.mergeNoRebuild ha hb
    exact (reach_rebuild hmerge : Reach evalOp (fun _ => False) _ _).inv hmerge

/-- When no number in the graph that is not a class becomes one during saturation, every model
extends to the new classes, and what is extracted from a class has its value. -/
theorem saturate_sound (it : IterOrder) (gate : List RewriteRule → Bool) (budget : Nat)
    {g g' : EGraph} (hg : Built g) (hg' : g' = g.saturate gate (standardRules it) budget)
    (hfresh : ∀ k, g.Known k → k < g.nextId ∨ g'.nextId ≤ k)
    {v : Nat → Word} (hv : Models evalOp v g) :
    ∃ v', (∀ k, k < g.nextId ∨ g'.nextId ≤ k → v' k = v k) ∧ Models evalOp v' g' ∧
      ∀ id < g'.nextId, ∀ costFn, (g'.extract id costFn).value evalOp v' = v' id := by
  have hreach : Reach evalOp (fun _ => False) g g' := by
    rw [hg']
    exact reach_saturate hg.inv
      (fun _ => sound_of_mem_standardRules (fun _ _ => rfl) _ it) gate budget
  obtain ⟨v', hagree, hv'⟩ := hreach.extend hg.inv hv le_rfl
    fun k hk => hfresh k (hk.resolve_right not_false)
  refine ⟨v', hagree, hv', fun id hid costFn => ?_⟩
  rw [hv'.nodes _ _ (extract_mem costFn (hreach.inv hg.inv) hid), hv'.ids]

/-- The order in which the nodes were added. -/
def insertionOrder : IterOrder where
  order _ _ nodes := nodes
  perm _ _ _ := .refl _

/-- Two registers and their sum. -/
def sumGraph (x y : Nat) : EGraph :=
  (((({} : EGraph).add (.vreg x)).2.add (.vreg y)).2.add (.binOp .add 0 1)).2

theorem built_sumGraph (x y : Nat) : Built (sumGraph x y) :=
  .add _ (.add _ (.add _ .empty))

/-- A model of the two registers and their sum. -/
def sumValues (x y : Nat) (a b : Word) : Nat → Word := fun k =>
  if k = 0 ∨ k = x then a else if k = 1 ∨ k = y then b else if k = 2 then a + b else 0

section

variable {x y : Nat} (hxy : x ≠ y)
include hxy

theorem sumGraph_eq :
    sumGraph x y = ((({} : EGraph).addNew (.vreg x)).addNew (.vreg y)).addNew (.binOp .add 0 1) := by
  simp [sumGraph, add, EGraph.addNew, hxy.symm]

theorem mem_sumGraph {n : ENode} {id : EClassId} :
    (sumGraph x y).Mem n id ↔
      n = .vreg x ∧ id = 0 ∨ n = .vreg y ∧ id = 1 ∨ n = .binOp .add 0 1 ∧ id = 2 := by
  have hempty : ¬ ({} : EGraph).Mem n id := by
    rintro ⟨ns, hns, -⟩
    cases hns
  rw [sumGraph_eq hxy, ((Inv.empty.addNew _).addNew _).mem_addNew, (Inv.empty.addNew _).mem_addNew,
    Inv.empty.mem_addNew, or_iff_right hempty, or_assoc]
  rfl

theorem models_sumGraph (hx : 2 < x) (hy : 2 < y) (a b : Word) :
    Models evalOp (sumValues x y a b) (sumGraph x y) := by
  have hvalues : ∀ k, sumValues x y a b k =
      if k = 0 ∨ k = x then a else if k = 1 ∨ k = y then b else if k = 2 then a + b else 0 :=
    fun _ => rfl
  refine ⟨fun n id hmem => ?_, fun id => ?_⟩
  · rcases (mem_sumGraph hxy).1 hmem with ⟨rfl, rfl⟩ | ⟨rfl, rfl⟩ | ⟨rfl, rfl⟩
    · simp [ENode.value, hvalues]
    · have hne : (1 : Nat) ≠ x := by omega
      have hne' : y ≠ 0 := by omega
      simp [ENode.value, hvalues, hne, hne', hxy.symm]
    · have hne : (1 : Nat) ≠ x ∧ (2 : Nat) ≠ x ∧ (2 : Nat) ≠ y := by omega
      simp [ENode.value, hvalues, hne]
  · rw [sumGraph_eq hxy, ((Inv.empty.addNew _).addNew _).find_addNew,
      (Inv.empty.addNew _).find_addNew, Inv.empty.find_addNew]
    rfl

end

/-- With register numbers above all classes, as the optimizer gives them, a sum is saturated. -/
theorem saturate_sumGraph :
    ∃ v', (∀ k, k < 3 ∨ 4 ≤ k → v' k = sumValues 1000009 1000003 1 5 k) ∧
      Models evalOp v' ((sumGraph 1000009 1000003).saturate (fun _ => true)
        (standardRules insertionOrder)
        1) := by
  have hne : (1000009 : Nat) ≠ 1000003 := by decide
  have hnext : ((sumGraph 1000009 1000003).saturate (fun _ => true) (standardRules insertionOrder)
      1).nextId = 4 := by
    decide +kernel
  obtain ⟨v', hagree, hv', -⟩ := saturate_sound insertionOrder (fun _ => true) 1
    (built_sumGraph 1000009 1000003) rfl (fun k hk => by
      rw [hnext]
      rcases hk with hk | ⟨n, id, hmem, hk⟩
      · exact .inl hk
      · change k < 3 ∨ 4 ≤ k
        rcases (mem_sumGraph hne).1 hmem with ⟨rfl, -⟩ | ⟨rfl, -⟩ | ⟨rfl, -⟩ <;>
          simp only [ENode.refs, List.mem_cons, List.not_mem_nil, or_false] at hk <;> omega)
    (models_sumGraph hne (by decide) (by decide) 1 5)
  rw [hnext] at hagree
  exact ⟨v', hagree, hv'⟩

/-- The register 3 is in class 1, and saturation makes a class 3 for the swapped sum. -/
theorem saturate_unsound :
    Built (sumGraph 9 3) ∧ Models evalOp (sumValues 9 3 1 5) (sumGraph 9 3) ∧
      ¬ ∃ v', (∀ k < (sumGraph 9 3).nextId, v' k = sumValues 9 3 1 5 k) ∧
        Models evalOp v'
          ((sumGraph 9 3).saturate (fun _ => true) (standardRules insertionOrder) 1) := by
  refine ⟨built_sumGraph 9 3, models_sumGraph (by decide) (by decide) (by decide) 1 5, ?_⟩
  rintro ⟨v', hagree, hv'⟩
  have hfind : ((sumGraph 9 3).saturate (fun _ => true) (standardRules insertionOrder) 1).find 3 =
      2 := by
    decide +kernel
  have hmem : (.vreg 3 : ENode) ∈ ((sumGraph 9 3).saturate (fun _ => true)
      (standardRules insertionOrder) 1).nodesOf 1 := by
    decide +kernel
  have hreg : v' 3 = v' 1 := hv'.nodes _ _ (mem_nodesOf.1 hmem)
  have hclass : v' 2 = v' 3 := by
    rw [← hfind]
    exact hv'.ids 3
  have h₁ : v' 1 = 5 := hagree 1 (by decide)
  have h₂ : v' 2 = 6 := hagree 2 (by decide)
  rw [h₂, hreg, h₁] at hclass
  exact absurd hclass (by decide)

end EGraph

end Vuma.Opt
