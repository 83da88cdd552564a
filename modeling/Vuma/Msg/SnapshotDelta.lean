import Vuma.Msg.Snapshot

/-!
# The delta of two snapshots

Each node taken out or put in contributes to the delta on its own, and the delta is what the nodes
contribute, one after another. It is computed without an error if every deallocation that is taken
out or put in names a region of the graph.
-/

namespace Vuma.Msg

open Lib Entity

section Merge

variable {V : Type}

/-- The entity part of `MSGDelta::merge`. -/
def EntityDelta.merge (a b : EntityDelta V) : EntityDelta V :=
  ⟨a.added ++ b.added, a.removed ++ b.removed, a.modified ++ b.modified⟩

def MSGDelta.merge (a b : MSGDelta) : MSGDelta :=
  ⟨a.regions.merge b.regions, a.derivations.merge b.derivations, a.accesses.merge b.accesses,
    a.syncEdges.merge b.syncEdges⟩

/-- The contributions of a list. -/
def EntityDelta.concat (l : List Nat) (c : Nat → EntityDelta V) : EntityDelta V :=
  ⟨l.flatMap fun k => (c k).added, l.flatMap fun k => (c k).removed,
    l.flatMap fun k => (c k).modified⟩

/-- The contributions of a list, of all kinds. -/
def MSGDelta.concat (l : List Nat) (c : Nat → MSGDelta) : MSGDelta :=
  ⟨.concat l fun k => (c k).regions, .concat l fun k => (c k).derivations,
    .concat l fun k => (c k).accesses, .concat l fun k => (c k).syncEdges⟩

theorem EntityDelta.merge_concat_nil (δ : EntityDelta V) (c : Nat → EntityDelta V) :
    δ.merge (.concat [] c) = δ := by
  simp [merge, concat]

theorem EntityDelta.merge_concat_cons (δ : EntityDelta V) (k : Nat) (l : List Nat)
    (c : Nat → EntityDelta V) :
    δ.merge (.concat (k :: l) c) = (δ.merge (c k)).merge (.concat l c) := by
  simp [merge, concat]

theorem MSGDelta.merge_concat_nil (δ : MSGDelta) (c : Nat → MSGDelta) :
    δ.merge (.concat [] c) = δ := by
  simp [merge, concat, EntityDelta.merge_concat_nil]

theorem MSGDelta.merge_concat_cons (δ : MSGDelta) (k : Nat) (l : List Nat) (c : Nat → MSGDelta) :
    δ.merge (.concat (k :: l) c) = (δ.merge (c k)).merge (.concat l c) := by
  simp [merge, concat, EntityDelta.merge_concat_cons]

theorem MSGDelta.merge_empty (δ : MSGDelta) : δ.merge ∅ = δ :=
  δ.merge_concat_nil fun _ => ∅

theorem except_bind_eq_ok {ε α β : Type} {x : Except ε α} {f : α → Except ε β} {b : β}
    (h : (x >>= f) = .ok b) : ∃ a, x = .ok a ∧ f a = .ok b := by
  cases x with
  | error e => cases h
  | ok a => exact ⟨a, rfl, h⟩

/-- A loop in which each element merges its contribution into the delta. -/
theorem foldlM_merge {f : MSGDelta → Nat → Except DeltaError MSGDelta} {c : Nat → MSGDelta}
    {l : List Nat} (h : ∀ k ∈ l, ∀ δ, f δ k = .ok (δ.merge (c k))) (δ : MSGDelta) :
    l.foldlM f δ = .ok (δ.merge (.concat l c)) := by
  induction l generalizing δ with
  | nil =>
    rw [δ.merge_concat_nil]
    rfl
  | cons k l ih =>
    rw [List.foldlM_cons, h k List.mem_cons_self, δ.merge_concat_cons]
    exact ih (fun j hj => h j (List.mem_cons_of_mem k hj)) _

/-- A loop that ends without an error has no element that always gives one. -/
theorem of_foldlM_eq_ok {f : MSGDelta → Nat → Except DeltaError MSGDelta} {P : Nat → Prop}
    (h : ∀ δ k δ', f δ k = .ok δ' → P k) {l : List Nat} {δ δ' : MSGDelta}
    (hl : l.foldlM f δ = .ok δ') : ∀ k ∈ l, P k := by
  induction l generalizing δ with
  | nil =>
    intro k hk
    cases hk
  | cons j l ih =>
    rw [List.foldlM_cons] at hl
    cases hj : f δ j with
    | error e =>
      rw [hj] at hl
      cases hl
    | ok δ₁ =>
      rw [hj] at hl
      intro k hk
      rcases List.mem_cons.1 hk with rfl | hk
      · exact h δ k δ₁ hj
      · exact ih hl k hk

end Merge

section Contribution

variable (msg : MSG)

/-- What a node contributes when it is put in. -/
def additionOf (n : SCGNode) : MSGDelta where
  regions := ⟨n.region?.toList, [],
    match n with
    | .dealloc _ r fp => ((msg.regions.get r).map fun e =>
      { e with id := r, status := .freed, freePoint := some fp }).toList
    | _ => []⟩
  derivations := ⟨n.derivation?.toList, [], []⟩
  accesses := ⟨n.access?.toList, [], []⟩
  syncEdges := ⟨n.syncEdge?.toList, [], []⟩

/-- What a node contributes when it is taken out. -/
def removalOf (n : SCGNode) : MSGDelta where
  regions := ⟨[], n.region?.toList.map ident,
    match n with
    | .dealloc _ r _ => ((msg.regions.get r).map fun e =>
      { e with id := r, status := .allocated, freePoint := none }).toList
    | _ => []⟩
  derivations := ⟨[], n.derivation?.toList.map ident, []⟩
  accesses := ⟨[], n.access?.toList.map ident, []⟩
  syncEdges := ⟨[], n.syncEdge?.toList.map ident, []⟩

/-- The region a deallocation names is there. -/
def FreesKnown (n : SCGNode) : Prop :=
  ∀ i r fp, n = .dealloc i r fp → (msg.regions.get r).isSome

variable {msg} {n : SCGNode} {δ : MSGDelta}

theorem addNodeToDelta_eq_ok (h : FreesKnown msg n) :
    addNodeToDelta msg δ n = .ok (δ.merge (additionOf msg n)) := by
  cases n with
  | dealloc i r fp =>
    obtain ⟨e, he⟩ := Option.isSome_iff_exists.1 (h i r fp rfl)
    simp [addNodeToDelta, additionOf, MSGDelta.merge, EntityDelta.merge, EntityDelta.modify, he,
      SCGNode.region?, SCGNode.derivation?, SCGNode.access?, SCGNode.syncEdge?]
  | _ =>
    simp [addNodeToDelta, additionOf, MSGDelta.merge, EntityDelta.merge, EntityDelta.add,
      SCGNode.region?, SCGNode.derivation?, SCGNode.access?, SCGNode.syncEdge?]

theorem removeNodeFromDelta_eq_ok (h : FreesKnown msg n) :
    removeNodeFromDelta msg δ n = .ok (δ.merge (removalOf msg n)) := by
  cases n with
  | dealloc i r fp =>
    obtain ⟨e, he⟩ := Option.isSome_iff_exists.1 (h i r fp rfl)
    simp [removeNodeFromDelta, removalOf, MSGDelta.merge, EntityDelta.merge, EntityDelta.modify,
      he, SCGNode.region?, SCGNode.derivation?, SCGNode.access?, SCGNode.syncEdge?]
  | _ =>
    simp [removeNodeFromDelta, removalOf, MSGDelta.merge, EntityDelta.merge, EntityDelta.remove,
      SCGNode.region?, SCGNode.derivation?, SCGNode.access?, SCGNode.syncEdge?, ident]

theorem freesKnown_of_addNodeToDelta {δ' : MSGDelta} (h : addNodeToDelta msg δ n = .ok δ') :
    FreesKnown msg n := by
  rintro i r fp rfl
  cases hr : msg.regions.get r with
  | none => simp [addNodeToDelta, hr] at h
  | some e => rfl

theorem freesKnown_of_removeNodeFromDelta {δ' : MSGDelta}
    (h : removeNodeFromDelta msg δ n = .ok δ') : FreesKnown msg n := by
  rintro i r fp rfl
  cases hr : msg.regions.get r with
  | none => simp [removeNodeFromDelta, hr] at h
  | some e => rfl

end Contribution

section Ids

variable {order : EntityOrder} {old new : SCGSnapshot} {k : Nat}

/-- Both snapshots have the node, and it is not taken for changed. -/
def Kept (old new : SCGSnapshot) (k : Nat) : Prop :=
  ∃ m n, old.getNode k = some m ∧ new.getNode k = some n ∧ nodesDiffer m n = false

/-- The node has changed from the first snapshot to the second. -/
def changed (old new : SCGSnapshot) (k : Nat) : Bool :=
  match old.getNode k, new.getNode k with
  | some m, some n => nodesDiffer m n
  | _, _ => false

/-- The nodes that are put in. -/
def addedNodeIds (order : EntityOrder) (old new : SCGSnapshot) : List Nat :=
  newNodeIds order old new ++ (commonNodeIds order old new).filter (changed old new)

/-- The nodes that are taken out. -/
def removedNodeIds (order : EntityOrder) (old new : SCGSnapshot) : List Nat :=
  goneNodeIds order old new ++ (commonNodeIds order old new).filter (changed old new)

theorem SCGSnapshot.mem_keys {s : SCGSnapshot} : k ∈ s.nodes.keys ↔ (s.getNode k).isSome :=
  HashMap.mem_keys_iff

theorem mem_newNodeIds : k ∈ newNodeIds order old new ↔
    old.getNode k = none ∧ (new.getNode k).isSome := by
  rw [newNodeIds, (order.added.perm _).mem_iff, List.mem_filter, decide_eq_true_eq,
    SCGSnapshot.mem_keys, SCGSnapshot.mem_keys, Option.not_isSome_iff_eq_none]
  exact and_comm

theorem mem_goneNodeIds : k ∈ goneNodeIds order old new ↔
    (old.getNode k).isSome ∧ new.getNode k = none := by
  rw [goneNodeIds, (order.removed.perm _).mem_iff, List.mem_filter, decide_eq_true_eq,
    SCGSnapshot.mem_keys, SCGSnapshot.mem_keys, Option.not_isSome_iff_eq_none]

theorem mem_commonNodeIds : k ∈ commonNodeIds order old new ↔
    (old.getNode k).isSome ∧ (new.getNode k).isSome := by
  rw [commonNodeIds, (order.common.perm _).mem_iff, List.mem_filter, decide_eq_true_eq,
    SCGSnapshot.mem_keys, SCGSnapshot.mem_keys]

theorem mem_changed : k ∈ (commonNodeIds order old new).filter (changed old new) ↔
    (old.getNode k).isSome ∧ (new.getNode k).isSome ∧ ¬ Kept old new k := by
  rw [List.mem_filter, mem_commonNodeIds, and_assoc]
  refine and_congr_right fun hold => and_congr_right fun hnew => ?_
  obtain ⟨m, hm⟩ := Option.isSome_iff_exists.1 hold
  obtain ⟨n, hn⟩ := Option.isSome_iff_exists.1 hnew
  simp [changed, Kept, hm, hn]

theorem mem_addedNodeIds : k ∈ addedNodeIds order old new ↔
    (new.getNode k).isSome ∧ ¬ Kept old new k := by
  rw [addedNodeIds, List.mem_append, mem_newNodeIds, mem_changed]
  constructor
  · rintro (⟨hold, hnew⟩ | ⟨-, hnew, hkept⟩)
    · refine ⟨hnew, ?_⟩
      rintro ⟨m, n, hm, -⟩
      rw [hold] at hm
      cases hm
    · exact ⟨hnew, hkept⟩
  · rintro ⟨hnew, hkept⟩
    cases hold : old.getNode k with
    | none => exact .inl ⟨rfl, hnew⟩
    | some m => exact .inr ⟨rfl, hnew, hkept⟩

theorem mem_removedNodeIds : k ∈ removedNodeIds order old new ↔
    (old.getNode k).isSome ∧ ¬ Kept old new k := by
  rw [removedNodeIds, List.mem_append, mem_goneNodeIds, mem_changed]
  constructor
  · rintro (⟨hold, hnew⟩ | ⟨hold, -, hkept⟩)
    · refine ⟨hold, ?_⟩
      rintro ⟨m, n, -, hn, -⟩
      rw [hnew] at hn
      cases hn
    · exact ⟨hold, hkept⟩
  · rintro ⟨hold, hkept⟩
    cases hnew : new.getNode k with
    | none => exact .inl ⟨hold, rfl⟩
    | some n => exact .inr ⟨hold, rfl, hkept⟩

theorem nodup_commonNodeIds : (commonNodeIds order old new).Nodup :=
  (order.common.perm _).nodup_iff.2 (old.nodes.keys_nodup.filter _)

theorem nodup_addedNodeIds : (addedNodeIds order old new).Nodup := by
  refine List.Nodup.append ((order.added.perm _).nodup_iff.2 (new.nodes.keys_nodup.filter _))
    (nodup_commonNodeIds.filter _) ?_
  intro k hk hk'
  have hnone := (mem_newNodeIds.1 hk).1
  have hsome := (mem_changed.1 hk').1
  rw [hnone] at hsome
  cases hsome

end Ids

section Delta

variable {order : EntityOrder} {old new : SCGSnapshot} {msg : MSG}

/-- What the node of a snapshot contributes when it is put in. -/
def addition (msg : MSG) (s : SCGSnapshot) (k : Nat) : MSGDelta :=
  ((s.getNode k).map (additionOf msg)).getD ∅

/-- What the node of a snapshot contributes when it is taken out. -/
def removal (msg : MSG) (s : SCGSnapshot) (k : Nat) : MSGDelta :=
  ((s.getNode k).map (removalOf msg)).getD ∅

/-- What the node of both snapshots contributes. -/
def replacement (msg : MSG) (old new : SCGSnapshot) (k : Nat) : MSGDelta :=
  if changed old new k then (removal msg old k).merge (addition msg new k) else ∅

/-- The contributions of all nodes. -/
def scgDelta (order : EntityOrder) (old new : SCGSnapshot) (msg : MSG) : MSGDelta :=
  ((MSGDelta.concat (newNodeIds order old new) (addition msg new)).merge
    (.concat (goneNodeIds order old new) (removal msg old))).merge
      (.concat (commonNodeIds order old new) (replacement msg old new))

/-- The regions that the nodes put in or taken out free are there. -/
structure FreesKnownAll (old new : SCGSnapshot) (msg : MSG) : Prop where
  added : ∀ k n, new.getNode k = some n → ¬ Kept old new k → FreesKnown msg n
  removed : ∀ k n, old.getNode k = some n → ¬ Kept old new k → FreesKnown msg n

theorem MSGDelta.merge_assoc (a b c : MSGDelta) : (a.merge b).merge c = a.merge (b.merge c) := by
  simp [merge, EntityDelta.merge]

theorem MSGDelta.empty_merge (δ : MSGDelta) : MSGDelta.merge ∅ δ = δ := by
  cases δ
  rfl

theorem not_kept_of_changed {k : Nat} {m n : SCGNode} (hm : old.getNode k = some m)
    (hn : new.getNode k = some n) (h : nodesDiffer m n = true) : ¬ Kept old new k := by
  rintro ⟨m', n', hm', hn', h'⟩
  rw [hm] at hm'
  rw [hn] at hn'
  cases hm'
  cases hn'
  rw [h] at h'
  cases h'

theorem not_kept_of_old {k : Nat} (h : old.getNode k = none) : ¬ Kept old new k := by
  rintro ⟨m, n, hm, -⟩
  rw [h] at hm
  cases hm

theorem not_kept_of_new {k : Nat} (h : new.getNode k = none) : ¬ Kept old new k := by
  rintro ⟨m, n, -, hn, -⟩
  rw [h] at hn
  cases hn

theorem computeScgDelta_eq_ok (order : EntityOrder) (h : FreesKnownAll old new msg) :
    computeScgDelta order old new msg = .ok (scgDelta order old new msg) := by
  have hnew : ∀ k ∈ newNodeIds order old new, ∀ δ,
      addNodeAt msg new δ k = .ok (δ.merge (addition msg new k)) := by
    intro k hk δ
    obtain ⟨hold, hsome⟩ := mem_newNodeIds.1 hk
    obtain ⟨n, hn⟩ := Option.isSome_iff_exists.1 hsome
    simp only [addNodeAt, hn, addition, Option.map_some, Option.getD_some]
    exact addNodeToDelta_eq_ok (h.added k n hn (not_kept_of_old hold))
  have hgone : ∀ k ∈ goneNodeIds order old new, ∀ δ,
      removeNodeAt msg old δ k = .ok (δ.merge (removal msg old k)) := by
    intro k hk δ
    obtain ⟨hsome, hnone⟩ := mem_goneNodeIds.1 hk
    obtain ⟨n, hn⟩ := Option.isSome_iff_exists.1 hsome
    simp only [removeNodeAt, hn, removal, Option.map_some, Option.getD_some]
    exact removeNodeFromDelta_eq_ok (h.removed k n hn (not_kept_of_new hnone))
  have hcommon : ∀ k ∈ commonNodeIds order old new, ∀ δ,
      replaceNodeAt msg old new δ k = .ok (δ.merge (replacement msg old new k)) := by
    intro k hk δ
    obtain ⟨hold, hnew⟩ := mem_commonNodeIds.1 hk
    obtain ⟨m, hm⟩ := Option.isSome_iff_exists.1 hold
    obtain ⟨n, hn⟩ := Option.isSome_iff_exists.1 hnew
    simp only [replaceNodeAt, hm, hn, replacement, changed, removal, addition, Option.map_some,
      Option.getD_some]
    split_ifs with hdiff
    · have hkept := not_kept_of_changed hm hn hdiff
      rw [removeNodeFromDelta_eq_ok (h.removed k m hm hkept), ← MSGDelta.merge_assoc]
      exact addNodeToDelta_eq_ok (h.added k n hn hkept)
    · rw [δ.merge_empty]
  simp only [computeScgDelta, foldlM_merge hnew, MSGDelta.empty_merge, bind, Except.bind,
    foldlM_merge hgone, foldlM_merge hcommon]
  rfl

/-- A delta that is computed without an error names only regions that are there. -/
theorem freesKnownAll_of_computeScgDelta {δ : MSGDelta}
    (h : computeScgDelta order old new msg = .ok δ) : FreesKnownAll old new msg := by
  rw [computeScgDelta] at h
  obtain ⟨δ₁, hnew, h⟩ := except_bind_eq_ok h
  obtain ⟨δ₂, hgone, hcommon⟩ := except_bind_eq_ok h
  have hadd := of_foldlM_eq_ok (P := fun k => ∀ n, new.getNode k = some n → FreesKnown msg n)
    (fun δ k δ' hk n hn => freesKnown_of_addNodeToDelta
      (by simpa only [addNodeAt, hn] using hk)) hnew
  have hrem := of_foldlM_eq_ok (P := fun k => ∀ n, old.getNode k = some n → FreesKnown msg n)
    (fun δ k δ' hk n hn => freesKnown_of_removeNodeFromDelta
      (by simpa only [removeNodeAt, hn] using hk)) hgone
  have hboth := of_foldlM_eq_ok
    (P := fun k => ∀ m n, old.getNode k = some m → new.getNode k = some n →
      nodesDiffer m n = true → FreesKnown msg m ∧ FreesKnown msg n)
    (fun δ k δ' hk m n hm hn hdiff => by
      simp only [replaceNodeAt, hm, hn, hdiff, if_true] at hk
      obtain ⟨δ₃, hm', hn'⟩ := except_bind_eq_ok hk
      exact ⟨freesKnown_of_removeNodeFromDelta hm', freesKnown_of_addNodeToDelta hn'⟩) hcommon
  have hdiffer : ∀ k m n, old.getNode k = some m → new.getNode k = some n →
      ¬ Kept old new k → FreesKnown msg m ∧ FreesKnown msg n := by
    intro k m n hm hn hkept
    refine hboth k (mem_commonNodeIds.2 ⟨Option.isSome_of_eq_some hm,
      Option.isSome_of_eq_some hn⟩) m n hm hn ?_
    rw [← Bool.not_eq_false]
    exact fun hdiff => hkept ⟨m, n, hm, hn, hdiff⟩
  constructor
  · intro k n hn hkept
    cases hm : old.getNode k with
    | none => exact hadd k (mem_newNodeIds.2 ⟨hm, Option.isSome_of_eq_some hn⟩) n hn
    | some m => exact (hdiffer k m n hm hn hkept).2
  · intro k m hm hkept
    cases hn : new.getNode k with
    | none => exact hrem k (mem_goneNodeIds.2 ⟨Option.isSome_of_eq_some hm, hn⟩) m hm
    | some n => exact (hdiffer k m n hm hn hkept).1

end Delta

end Vuma.Msg
