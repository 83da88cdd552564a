import Vuma.Msg.SnapshotCorrect

/-!
# Rebuilding by updates

The regions of the updated graph, and the condition on two snapshots under which the update agrees
with the graph of the second in every order.
-/

namespace Vuma.Msg

open Lib Entity

section Writes

variable {order : EntityOrder} {old new : SCGSnapshot} {msg : MSG} {r : RegionId}
  {fp : ProgramPoint} {e : Region} {a b : Nat}

/-- The nodes that free a region are unique. -/
def SCGSnapshot.FreesOnce (s : SCGSnapshot) (r : RegionId) : Prop :=
  ∀ i j fp fp', s.Frees i r fp → s.Frees j r fp' → i = j

theorem mem_changed_of_isSome (order : EntityOrder) {k : Nat} (hold : (old.getNode k).isSome)
    (hnew : (new.getNode k).isSome) (hkept : ¬ Kept old new k) :
    k ∈ (commonNodeIds order old new).filter (changed old new) :=
  mem_changed.2 ⟨hold, hnew, hkept⟩

theorem freesOf_eq_nil_of_ne (hnew : new.FreesOnce r) (hb : new.Frees b r fp) {k : Nat}
    (hk : k ≠ b) : freesOf msg new r k = [] :=
  freesOf_eq_nil fun _ hfree => hk (hnew k b _ _ hfree hb)

theorem restoresOf_eq_nil_of_ne (hold : old.FreesOnce r) (ha : old.Frees a r fp) {k : Nat}
    (hk : k ≠ a) : restoresOf msg old r k = [] :=
  restoresOf_eq_nil fun _ hfree => hk (hold k a _ _ hfree ha)

/-- Nothing is written over a region whose deallocations are kept. -/
theorem writesOf_eq_nil (hold : ∀ k fp, old.Frees k r fp → Kept old new k)
    (hnew : ∀ k fp, new.Frees k r fp → Kept old new k) : writesOf order old new msg r = [] := by
  have hfirst : (newNodeIds order old new).flatMap (freesOf msg new r) = [] := by
    refine List.flatMap_eq_nil_iff.2 fun k hk => freesOf_eq_nil fun fp hfree => ?_
    exact not_kept_of_old (mem_newNodeIds.1 hk).1 (hnew k fp hfree)
  have hsecond : (goneNodeIds order old new).flatMap (restoresOf msg old r) = [] := by
    refine List.flatMap_eq_nil_iff.2 fun k hk => restoresOf_eq_nil fun fp hfree => ?_
    exact not_kept_of_new (mem_goneNodeIds.1 hk).2 (hold k fp hfree)
  have hthird : (((commonNodeIds order old new).filter (changed old new)).flatMap fun k =>
      restoresOf msg old r k ++ freesOf msg new r k) = [] := by
    refine List.flatMap_eq_nil_iff.2 fun k hk => ?_
    have hkept := (mem_changed.1 hk).2.2
    rw [restoresOf_eq_nil fun fp hfree => hkept (hold k fp hfree),
      freesOf_eq_nil fun fp hfree => hkept (hnew k fp hfree), List.append_nil]
  rw [writesOf, hfirst, hsecond, hthird]
  rfl

theorem eq_of_mem_writesOf (he : msg.regions.get r = some e) {R : Region}
    (hR : R ∈ writesOf order old new msg r) :
    R.base = e.base ∧ R.size = e.size ∧ R.allocPoint = e.allocPoint := by
  have hfrees : ∀ k, R ∈ freesOf msg new r k →
      R.base = e.base ∧ R.size = e.size ∧ R.allocPoint = e.allocPoint := by
    intro k hk
    by_cases hfree : ∃ fp, new.Frees k r fp
    · obtain ⟨fp, hfree⟩ := hfree
      rw [freesOf_of_frees hfree he, List.mem_singleton] at hk
      subst hk
      exact ⟨rfl, rfl, rfl⟩
    · rw [freesOf_eq_nil fun fp h => hfree ⟨fp, h⟩] at hk
      cases hk
  have hrestores : ∀ k, R ∈ restoresOf msg old r k →
      R.base = e.base ∧ R.size = e.size ∧ R.allocPoint = e.allocPoint := by
    intro k hk
    by_cases hfree : ∃ fp, old.Frees k r fp
    · obtain ⟨fp, hfree⟩ := hfree
      rw [restoresOf_of_frees hfree he, List.mem_singleton] at hk
      subst hk
      exact ⟨rfl, rfl, rfl⟩
    · rw [restoresOf_eq_nil fun fp h => hfree ⟨fp, h⟩] at hk
      cases hk
  rw [writesOf, List.mem_append, List.mem_append, List.mem_flatMap, List.mem_flatMap,
    List.mem_flatMap] at hR
  rcases hR with (⟨k, -, hk⟩ | ⟨k, -, hk⟩) | ⟨k, -, hk⟩
  · exact hfrees k hk
  · exact hrestores k hk
  · rcases List.mem_append.1 hk with hk | hk
    · exact hrestores k hk
    · exact hfrees k hk

theorem mem_writesOf_of_added {k : Nat} {R : Region} (hk : (new.getNode k).isSome)
    (hkept : ¬ Kept old new k) (hR : R ∈ freesOf msg new r k) :
    R ∈ writesOf order old new msg r := by
  rw [writesOf, List.mem_append, List.mem_append]
  cases hold : old.getNode k with
  | none => exact .inl (.inl (List.mem_flatMap.2 ⟨k, mem_newNodeIds.2 ⟨hold, hk⟩, hR⟩))
  | some m =>
    exact .inr (List.mem_flatMap.2 ⟨k, mem_changed_of_isSome _ (Option.isSome_of_eq_some hold) hk
      hkept, List.mem_append_right _ hR⟩)

theorem mem_writesOf_of_removed {k : Nat} {R : Region} (hk : (old.getNode k).isSome)
    (hkept : ¬ Kept old new k) (hR : R ∈ restoresOf msg old r k) :
    R ∈ writesOf order old new msg r := by
  rw [writesOf, List.mem_append, List.mem_append]
  cases hnew : new.getNode k with
  | none => exact .inl (.inr (List.mem_flatMap.2 ⟨k, mem_goneNodeIds.2 ⟨hk, hnew⟩, hR⟩))
  | some n =>
    exact .inr (List.mem_flatMap.2 ⟨k, mem_changed_of_isSome _ hk (Option.isSome_of_eq_some hnew)
      hkept, List.mem_append_left _ hR⟩)

theorem writesOf_ne_nil (he : msg.regions.get r = some e)
    (h : ∃ k fp, (old.Frees k r fp ∨ new.Frees k r fp) ∧ ¬ Kept old new k) :
    writesOf order old new msg r ≠ [] := by
  obtain ⟨k, fp, hfree | hfree, hkept⟩ := h
  · have hmem : e.markAllocated r ∈ restoresOf msg old r k := by
      rw [restoresOf_of_frees hfree he]
      exact List.mem_singleton_self _
    exact List.ne_nil_of_mem (mem_writesOf_of_removed hfree.isSome hkept hmem)
  · have hmem : e.markFreed r fp ∈ freesOf msg new r k := by
      rw [freesOf_of_frees hfree he]
      exact List.mem_singleton_self _
    exact List.ne_nil_of_mem (mem_writesOf_of_added hfree.isSome hkept hmem)

theorem nodup_changed (order : EntityOrder) (old new : SCGSnapshot) :
    ((commonNodeIds order old new).filter (changed old new)).Nodup :=
  nodup_commonNodeIds.filter _

theorem nodup_newNodeIds (order : EntityOrder) (old new : SCGSnapshot) :
    (newNodeIds order old new).Nodup :=
  (order.added.perm _).nodup_iff.2 (new.nodes.keys_nodup.filter _)

theorem nodup_goneNodeIds (order : EntityOrder) (old new : SCGSnapshot) :
    (goneNodeIds order old new).Nodup :=
  (order.removed.perm _).nodup_iff.2 (old.nodes.keys_nodup.filter _)

theorem getLast?_writesOf_of_frees (hnew : new.FreesOnce r) (he : msg.regions.get r = some e)
    (hb : new.Frees b r fp) (hkept : ¬ Kept old new b)
    (hother : ∀ a fp', old.Frees a r fp' → a ≠ b →
      (old.getNode b).isSome ∧ new.getNode a = none) :
    (writesOf order old new msg r).getLast? = some (e.markFreed r fp) := by
  have hfirst : (newNodeIds order old new).flatMap (freesOf msg new r) =
      if b ∈ newNodeIds order old new then freesOf msg new r b else [] :=
    flatMap_eq_of_unique (nodup_newNodeIds _ _ _) fun k _ => freesOf_eq_nil_of_ne hnew hb
  have hthird : (((commonNodeIds order old new).filter (changed old new)).flatMap fun k =>
      restoresOf msg old r k ++ freesOf msg new r k) =
        if b ∈ (commonNodeIds order old new).filter (changed old new) then
          restoresOf msg old r b ++ freesOf msg new r b else [] := by
    refine flatMap_eq_of_unique (nodup_changed _ _ _) fun k hk hkb => ?_
    rw [freesOf_eq_nil_of_ne hnew hb hkb, List.append_nil]
    refine restoresOf_eq_nil fun fp' hfree => ?_
    have hgone := (hother k fp' hfree hkb).2
    have hsome := (mem_changed.1 hk).2.1
    rw [hgone] at hsome
    cases hsome
  cases hold : old.getNode b with
  | none =>
    have hnone : ∀ k fp', ¬ old.Frees k r fp' := by
      intro k fp' hfree
      by_cases hkb : k = b
      · have hsome := hfree.isSome
        rw [hkb, hold] at hsome
        cases hsome
      · have hsome := (hother k fp' hfree hkb).1
        rw [hold] at hsome
        cases hsome
    have hsecond : (goneNodeIds order old new).flatMap (restoresOf msg old r) = [] :=
      List.flatMap_eq_nil_iff.2 fun k _ => restoresOf_eq_nil fun fp' => hnone k fp'
    have hnot : b ∉ (commonNodeIds order old new).filter (changed old new) := by
      intro hmem
      have hsome := (mem_changed.1 hmem).1
      rw [hold] at hsome
      cases hsome
    rw [writesOf, hfirst, hsecond, hthird, if_pos (mem_newNodeIds.2 ⟨hold, hb.isSome⟩), if_neg hnot,
      freesOf_of_frees hb he]
    rfl
  | some m =>
    have hmem : b ∈ (commonNodeIds order old new).filter (changed old new) :=
      mem_changed_of_isSome _ (Option.isSome_of_eq_some hold) hb.isSome hkept
    rw [writesOf, hthird, if_pos hmem, freesOf_of_frees hb he, ← List.append_assoc,
      List.getLast?_append]
    rfl

/-- Without a deallocation in the second snapshot the region is allocated again at the end. -/
theorem getLast?_writesOf_of_restores (hold : old.FreesOnce r) (he : msg.regions.get r = some e)
    (ha : old.Frees a r fp) (hnone : ∀ k fp', ¬ new.Frees k r fp') :
    (writesOf order old new msg r).getLast? = some (e.markAllocated r) := by
  have hkept : ¬ Kept old new a := fun hkept => hnone a fp (hkept.frees_iff.1 ha)
  have hfirst : (newNodeIds order old new).flatMap (freesOf msg new r) = [] :=
    List.flatMap_eq_nil_iff.2 fun k _ => freesOf_eq_nil fun fp' => hnone k fp'
  have hsecond : (goneNodeIds order old new).flatMap (restoresOf msg old r) =
      if a ∈ goneNodeIds order old new then restoresOf msg old r a else [] :=
    flatMap_eq_of_unique (nodup_goneNodeIds _ _ _) fun k _ => restoresOf_eq_nil_of_ne hold ha
  have hthird : (((commonNodeIds order old new).filter (changed old new)).flatMap fun k =>
      restoresOf msg old r k ++ freesOf msg new r k) =
        if a ∈ (commonNodeIds order old new).filter (changed old new) then
          restoresOf msg old r a ++ freesOf msg new r a else [] := by
    refine flatMap_eq_of_unique (nodup_changed _ _ _) fun k _ hka => ?_
    rw [restoresOf_eq_nil_of_ne hold ha hka, freesOf_eq_nil fun fp' => hnone k fp']
    rfl
  rw [freesOf_eq_nil fun fp' => hnone a fp', List.append_nil] at hthird
  rw [writesOf, hfirst, hsecond, hthird, restoresOf_of_frees ha he]
  cases hnew : new.getNode a with
  | none => rw [if_pos (mem_goneNodeIds.2 ⟨ha.isSome, hnew⟩)]; split_ifs <;> rfl
  | some n =>
    rw [if_pos (mem_changed_of_isSome _ ha.isSome (Option.isSome_of_eq_some hnew) hkept)]
    split_ifs <;> rfl

theorem getLast?_writesOf_of_moved (order : EntityOrder) (hold : old.FreesOnce r)
    (hnew : new.FreesOnce r) (he : msg.regions.get r = some e) {fp' : ProgramPoint}
    (ha : old.Frees a r fp) (hb : new.Frees b r fp') (hab : a ≠ b)
    (h : old.getNode b = none ∨ (new.getNode a).isSome) :
    (writesOf { order with common := order.common.first b } old new msg r).getLast? =
      some (e.markAllocated r) := by
  have hkept : ¬ Kept old new a := fun hkept => hab (hnew a b _ _ (hkept.frees_iff.1 ha) hb)
  have hwrite : ∀ k, k ≠ a → k ≠ b → restoresOf msg old r k ++ freesOf msg new r k = [] := by
    intro k hka hkb
    rw [restoresOf_eq_nil_of_ne hold ha hka, freesOf_eq_nil_of_ne hnew hb hkb]
    rfl
  have hwritea : restoresOf msg old r a ++ freesOf msg new r a = [e.markAllocated r] := by
    rw [restoresOf_of_frees ha he, freesOf_eq_nil_of_ne hnew hb hab]
    rfl
  cases hna : new.getNode a with
  | none =>
    have hob : old.getNode b = none := by
      rcases h with h | h
      · exact h
      · rw [hna] at h
        cases h
    have hsecond : ∀ o : EntityOrder,
        (goneNodeIds o old new).flatMap (restoresOf msg old r) = [e.markAllocated r] := by
      intro o
      rw [flatMap_eq_of_unique (nodup_goneNodeIds _ _ _) fun k _ => restoresOf_eq_nil_of_ne hold ha,
        if_pos (mem_goneNodeIds.2 ⟨ha.isSome, hna⟩), restoresOf_of_frees ha he]
    have hthird : ∀ o : EntityOrder,
        (((commonNodeIds o old new).filter (changed old new)).flatMap fun k =>
          restoresOf msg old r k ++ freesOf msg new r k) = [] := by
      refine fun o => List.flatMap_eq_nil_iff.2 fun k hk => hwrite k ?_ ?_
      · rintro rfl
        have hsome := (mem_changed.1 hk).2.1
        rw [hna] at hsome
        cases hsome
      · rintro rfl
        have hsome := (mem_changed.1 hk).1
        rw [hob] at hsome
        cases hsome
    rw [writesOf, hsecond, hthird, List.append_nil, List.getLast?_append]
    rfl
  | some n =>
    have hmem : ∀ o : EntityOrder, a ∈ (commonNodeIds o old new).filter (changed old new) :=
      fun o => mem_changed_of_isSome _ ha.isSome (Option.isSome_of_eq_some hna) hkept
    cases hob : old.getNode b with
    | none =>
      have hthird : ∀ o : EntityOrder,
          (((commonNodeIds o old new).filter (changed old new)).flatMap fun k =>
            restoresOf msg old r k ++ freesOf msg new r k) = [e.markAllocated r] := by
        intro o
        rw [← hwritea, flatMap_eq_of_unique (nodup_changed _ _ _) fun k hk hka => hwrite k hka ?_,
          if_pos (hmem o)]
        rintro rfl
        have hsome := (mem_changed.1 hk).1
        rw [hob] at hsome
        cases hsome
      rw [writesOf, hthird, List.getLast?_append]
      rfl
    | some m =>
      -- the node of the new deallocation comes first, the node of the old one later
      have hcommon : b ∈ old.nodes.keys.filter (· ∈ new.nodes.keys) := by
        rw [List.mem_filter, decide_eq_true_eq, SCGSnapshot.mem_keys, SCGSnapshot.mem_keys]
        exact ⟨Option.isSome_of_eq_some hob, hb.isSome⟩
      obtain ⟨rest, hrest⟩ : ∃ rest, (commonNodeIds { order with common := order.common.first b }
          old new).filter (changed old new) = b :: rest := by
        have hchanged : changed old new b = true :=
          (List.mem_filter.1 (mem_changed_of_isSome order
            (Option.isSome_of_eq_some hob) hb.isSome fun hkept =>
              hab (hold a b _ _ ha (hkept.frees_iff.2 hb)))).2
        rw [commonNodeIds, KeyOrder.first_order hcommon, List.filter_cons_of_pos hchanged]
        exact ⟨_, rfl⟩
      have hnodup := nodup_changed { order with common := order.common.first b } old new
      have hmem' := hmem { order with common := order.common.first b }
      rw [hrest] at hnodup hmem'
      obtain ⟨hb', hnodup⟩ := List.nodup_cons.1 hnodup
      have ha' : a ∈ rest := (List.mem_cons.1 hmem').resolve_left hab
      have hlast : (rest.flatMap fun k => restoresOf msg old r k ++ freesOf msg new r k) =
          [e.markAllocated r] := by
        rw [← hwritea, flatMap_eq_of_unique hnodup fun k hk hka => hwrite k hka ?_, if_pos ha']
        rintro rfl
        exact hb' hk
      rw [writesOf, hrest, List.flatMap_cons, hlast, ← List.append_assoc, List.getLast?_append]
      rfl

end Writes

/-- The update of one snapshot to another agrees with rebuilding. -/
structure Rebuildable (old new : SCGSnapshot) : Prop where
  seenRegions : ∀ k, Kept old new k → old.entity SCGNode.region? k = new.entity SCGNode.region? k
  seenDerivations : ∀ k, Kept old new k →
    old.entity SCGNode.derivation? k = new.entity SCGNode.derivation? k
  seenAccesses : ∀ k, Kept old new k →
    old.entity SCGNode.access? k = new.entity SCGNode.access? k
  seenSyncEdges : ∀ k, Kept old new k →
    old.entity SCGNode.syncEdge? k = new.entity SCGNode.syncEdge? k
  allocated : ∀ k r fp, new.Frees k r fp →
    ∃ i R, old.entity SCGNode.region? i = some R ∧ R.id = r
  stays : ∀ k r fp i R, new.Frees k r fp → Kept old new k →
    new.entity SCGNode.region? i = some R → R.id = r → Kept old new i
  unmoved : ∀ k r fp, old.Frees k r fp ∨ new.Frees k r fp → ¬ Kept old new k → ∀ i j R R',
    old.entity SCGNode.region? i = some R → new.entity SCGNode.region? j = some R' → R.id = r →
      R'.id = r → R = R'
  ordered : ∀ a b r fp fp', old.Frees a r fp → new.Frees b r fp' → a ≠ b →
    (old.getNode b).isSome ∧ new.getNode a = none

section Exchange

variable {order : EntityOrder} {old new : SCGSnapshot} {msg msg' : MSG}

theorem exchanged_regions (r : RegionId) :
    (scgDelta order old new msg).regions.exchanged msg.regions.get r =
      if ((scgDelta order old new msg).regions.extended msg.regions.get r).isSome then
        ((writesOf order old new msg r).getLast?).or
          ((scgDelta order old new msg).regions.extended msg.regions.get r)
      else none := by
  rw [EntityDelta.exchanged, overlay_reverse, filter_modified]

theorem follows_regions : (scgDelta order old new msg).regions.Follows SCGNode.region? order old
    new :=
  (kindOf_regions msg).follows

theorem not_frees_of_not_mem {s : SCGSnapshot} {t : Table Region} (h : s.ListsRegions t)
    {i : Nat} {R : Region} (hR : s.entity SCGNode.region? i = some R)
    (hnone : ∀ k fp, ¬ s.Frees k R.id fp) : t.get R.id = some R :=
  (h _ _).2 ⟨i, R, hR, rfl, .inr ⟨hnone, rfl⟩⟩

theorem get_of_frees {s : SCGSnapshot} {t : Table Region} (h : s.ListsRegions t) {i k : Nat}
    {R : Region} {fp : ProgramPoint} (hR : s.entity SCGNode.region? i = some R)
    (hfree : s.Frees k R.id fp) : t.get R.id = some (R.markFreed R.id fp) :=
  (h _ _).2 ⟨i, R, hR, rfl, .inl ⟨k, fp, hfree, rfl⟩⟩

/-- The entry of an allocated region is the region but for its status. -/
theorem exists_get {s : SCGSnapshot} {t : Table Region} (h : s.ListsRegions t) {i : Nat}
    {R : Region} (hR : s.entity SCGNode.region? i = some R) :
    ∃ e, t.get R.id = some e ∧ (e = R ∨ ∃ fp, e = R.markFreed R.id fp) := by
  by_cases hfree : ∃ k fp, s.Frees k R.id fp
  · obtain ⟨k, fp, hk⟩ := hfree
    exact ⟨_, get_of_frees h hR hk, .inr ⟨fp, rfl⟩⟩
  · exact ⟨R, not_frees_of_not_mem h hR fun k fp hk => hfree ⟨k, fp, hk⟩, .inl rfl⟩

theorem SCGSnapshot.Wf.freesOnce {s : SCGSnapshot} (h : s.Wf) (r : RegionId) : s.FreesOnce r :=
  fun i j fp fp' => h.frees i j r fp fp'

theorem region?_fields {s : SCGSnapshot} {i : Nat} {R : Region}
    (h : s.entity SCGNode.region? i = some R) :
    R.status = .allocated ∧ R.freePoint = none ∧ R.ownerContext = none := by
  obtain ⟨n, -, hn⟩ := Option.bind_eq_some_iff.1 h
  cases n <;> simp only [SCGNode.region?, Option.some.injEq, reduceCtorEq] at hn
  subst hn
  exact ⟨rfl, rfl, rfl⟩

theorem markAllocated_eq {s : SCGSnapshot} {i : Nat} {R : Region}
    (h : s.entity SCGNode.region? i = some R) : R.markAllocated R.id = R := by
  obtain ⟨hs, hf, -⟩ := region?_fields h
  cases R
  simp_all [Region.markAllocated]

theorem region?_ext {s s' : SCGSnapshot} {i j : Nat} {R R' : Region}
    (h : s.entity SCGNode.region? i = some R) (h' : s'.entity SCGNode.region? j = some R')
    (hid : R.id = R'.id) (hbase : R.base = R'.base) (hsize : R.size = R'.size)
    (hpoint : R.allocPoint = R'.allocPoint) : R = R' := by
  obtain ⟨hs, hf, ho⟩ := region?_fields h
  obtain ⟨hs', hf', ho'⟩ := region?_fields h'
  cases R
  cases R'
  simp_all

section Extended

variable {i : Nat} {R : Region} (hR : new.entity SCGNode.region? i = some R)
include hR

theorem regions_extended_of_kept (hold : old.Wf) (hnew : new.Wf) (hkept : Kept old new i) :
    (scgDelta order old new msg).regions.extended msg.regions.get R.id = msg.regions.get R.id :=
  follows_regions.extended_of_kept sees_region hold.regions hnew.regions hR hkept

theorem regions_extended_of_not_kept (hnew : new.Wf) (hkept : ¬ Kept old new i) :
    (scgDelta order old new msg).regions.extended msg.regions.get R.id = some R :=
  follows_regions.extended_of_not_kept hnew.regions hR hkept

end Extended

theorem exchanged_of_writesOf_eq_nil (hnew : new.Wf) (order : EntityOrder) {i : Nat} {R : Region}
    (hR : new.entity SCGNode.region? i = some R) (hkept : ¬ Kept old new i)
    (hnil : writesOf order old new msg R.id = []) :
    (scgDelta order old new msg).regions.exchanged msg.regions.get R.id = some R := by
  rw [Msg.exchanged_regions, regions_extended_of_not_kept hR hnew hkept, hnil]
  rfl

theorem exchanged_of_copied (hold : old.Wf) (hnew : new.Wf) (order : EntityOrder) {i : Nat}
    {R e : Region}
    (hR : new.entity SCGNode.region? i = some R) (he : msg.regions.get R.id = some e)
    (h : writesOf order old new msg R.id ≠ [] ∨ Kept old new i) :
    ∃ R', (scgDelta order old new msg).regions.exchanged msg.regions.get R.id = some R' ∧
      R'.base = e.base ∧ R'.size = e.size ∧ R'.allocPoint = e.allocPoint := by
  rw [Msg.exchanged_regions]
  by_cases hnil : writesOf order old new msg R.id = []
  · have hkept := h.resolve_left (not_not_intro hnil)
    rw [regions_extended_of_kept hR hold hnew hkept, he, hnil]
    exact ⟨e, rfl, rfl, rfl, rfl⟩
  · have hext : ((scgDelta order old new msg).regions.extended msg.regions.get R.id).isSome := by
      by_cases hkept : Kept old new i
      · rw [regions_extended_of_kept hR hold hnew hkept, he]
        rfl
      · rw [regions_extended_of_not_kept hR hnew hkept]
        rfl
    rw [if_pos hext, List.getLast?_eq_some_getLast hnil, Option.some_or]
    exact ⟨_, rfl, eq_of_mem_writesOf he (List.getLast_mem hnil)⟩

section

variable (hold : old.Wf) (hnew : new.Wf) (ht : old.ListsRegions msg.regions)
  (ht' : new.ListsRegions msg'.regions)

include hold hnew ht ht'

/-- The regions come out right under the condition. -/
theorem Rebuildable.exchanged_regions (h : Rebuildable old new) (order : EntityOrder) :
    (scgDelta order old new msg).regions.exchanged msg.regions.get = msg'.regions.get := by
  funext r
  rw [Msg.exchanged_regions]
  by_cases hr : ∃ i R, new.entity SCGNode.region? i = some R ∧ R.id = r
  · obtain ⟨i, R, hR, rfl⟩ := hr
    have hext : ((scgDelta order old new msg).regions.extended msg.regions.get R.id).isSome := by
      by_cases hkept : Kept old new i
      · rw [regions_extended_of_kept hR hold hnew hkept]
        exact (ht.identifies _).2 ⟨i, R, (h.seenRegions i hkept).trans hR, rfl⟩
      · rw [regions_extended_of_not_kept hR hnew hkept]
        rfl
    rw [if_pos hext]
    by_cases htouched : ∃ k fp, (old.Frees k R.id fp ∨ new.Frees k R.id fp) ∧ ¬ Kept old new k
    · obtain ⟨k, fp, hfree, hkept⟩ := htouched
      obtain ⟨j, R₁, hR₁, hid⟩ : ∃ j R₁, old.entity SCGNode.region? j = some R₁ ∧ R₁.id = R.id := by
        rcases hfree with hfree | hfree
        · exact hold.allocated k R.id fp hfree
        · exact h.allocated k R.id fp hfree
      obtain rfl := h.unmoved k R.id fp hfree hkept j i R₁ R hR₁ hR hid rfl
      obtain ⟨e, he, hform⟩ := exists_get ht hR₁
      by_cases hnewfree : ∃ b fp', new.Frees b R₁.id fp'
      · obtain ⟨b, fp', hb⟩ := hnewfree
        have hbkept : ¬ Kept old new b := by
          intro hb'
          rcases hfree with hfree | hfree
          · exact hkept (hold.frees k b _ _ _ hfree (hb'.frees_iff.2 hb) ▸ hb')
          · exact hkept (hnew.frees k b _ _ _ hfree hb ▸ hb')
        rw [getLast?_writesOf_of_frees (hnew.freesOnce _) he hb hbkept fun a fp'' ha hab =>
          h.ordered a b _ _ _ ha hb hab, get_of_frees ht' hR hb, Option.some_or]
        rcases hform with rfl | ⟨fp'', rfl⟩ <;> rfl
      · have hnone : ∀ b fp', ¬ new.Frees b R₁.id fp' := fun b fp' hb => hnewfree ⟨b, fp', hb⟩
        rw [getLast?_writesOf_of_restores (hold.freesOnce _) he
          (hfree.resolve_right (hnone k fp)) hnone, not_frees_of_not_mem ht' hR hnone,
          Option.some_or]
        rcases hform with rfl | ⟨fp'', rfl⟩
        · rw [markAllocated_eq hR]
        · rw [Region.markAllocated_markFreed, markAllocated_eq hR]
    · have hkeptOld : ∀ k fp, old.Frees k R.id fp → Kept old new k := fun k fp hfree =>
        by_contra fun hkept => htouched ⟨k, fp, .inl hfree, hkept⟩
      have hkeptNew : ∀ k fp, new.Frees k R.id fp → Kept old new k := fun k fp hfree =>
        by_contra fun hkept => htouched ⟨k, fp, .inr hfree, hkept⟩
      rw [writesOf_eq_nil hkeptOld hkeptNew, List.getLast?_nil, Option.none_or]
      by_cases hkept : Kept old new i
      · have hR' : old.entity SCGNode.region? i = some R := (h.seenRegions i hkept).trans hR
        rw [regions_extended_of_kept hR hold hnew hkept]
        by_cases hfree : ∃ k fp, new.Frees k R.id fp
        · obtain ⟨k, fp, hk⟩ := hfree
          rw [get_of_frees ht' hR hk,
            get_of_frees ht hR' ((hkeptNew k fp hk).frees_iff.2 hk)]
        · rw [not_frees_of_not_mem ht' hR fun k fp hk => hfree ⟨k, fp, hk⟩,
            not_frees_of_not_mem ht hR' fun k fp hk =>
              hfree ⟨k, fp, (hkeptOld k fp hk).frees_iff.1 hk⟩]
      · rw [regions_extended_of_not_kept hR hnew hkept, not_frees_of_not_mem ht' hR fun k fp hk =>
          hkept (h.stays k R.id fp i R hk (hkeptNew k fp hk) hR rfl)]
  · have hext : (scgDelta order old new msg).regions.extended msg.regions.get r = none :=
      follows_regions.extended_eq_none sees_region ht.identifies fun i R hR hid =>
        hr ⟨i, R, hR, hid⟩
    have hnone : msg'.regions.get r = none :=
      Option.not_isSome_iff_eq_none.1 fun hsome => hr ((ht'.identifies r).1 hsome)
    rw [hext, hnone]
    rfl

/-- If the regions come out right in every order, the condition on them holds. -/
theorem rebuildable_regions (hknown : FreesKnownAll old new msg)
    (h : ∀ order : EntityOrder,
      (scgDelta order old new msg).regions.exchanged msg.regions.get = msg'.regions.get) :
    (∀ k, Kept old new k → old.entity SCGNode.region? k = new.entity SCGNode.region? k) ∧
      (∀ k r fp, new.Frees k r fp → ∃ i R, old.entity SCGNode.region? i = some R ∧ R.id = r) ∧
      (∀ k r fp i R, new.Frees k r fp → Kept old new k → new.entity SCGNode.region? i = some R →
        R.id = r → Kept old new i) ∧
      (∀ k r fp, old.Frees k r fp ∨ new.Frees k r fp → ¬ Kept old new k → ∀ i j R R',
        old.entity SCGNode.region? i = some R → new.entity SCGNode.region? j = some R' →
          R.id = r → R'.id = r → R = R') ∧
      ∀ a b r fp fp', old.Frees a r fp → new.Frees b r fp' → a ≠ b →
        (old.getNode b).isSome ∧ new.getNode a = none := by
  let anyOrder : EntityOrder := ⟨.id, .id, .id⟩
  -- a copy of the old region is the new region
  have hcopy : ∀ i j R R', old.entity SCGNode.region? i = some R →
      new.entity SCGNode.region? j = some R' → R.id = R'.id →
      (writesOf anyOrder old new msg R'.id ≠ [] ∨ Kept old new j) → R = R' := by
    intro i j R R' hR hR' hid hcopied
    obtain ⟨e, he, hform⟩ := exists_get ht hR
    rw [hid] at he
    obtain ⟨R'', hR'', hbase, hsize, hpoint⟩ :=
      exchanged_of_copied hold hnew anyOrder hR' he hcopied
    obtain ⟨e', he', hform'⟩ := exists_get ht' hR'
    rw [h anyOrder, he'] at hR''
    cases hR''
    refine region?_ext hR hR' hid ?_ ?_ ?_
    · rcases hform with rfl | ⟨_, rfl⟩ <;> rcases hform' with rfl | ⟨_, rfl⟩ <;> exact hbase.symm
    · rcases hform with rfl | ⟨_, rfl⟩ <;> rcases hform' with rfl | ⟨_, rfl⟩ <;> exact hsize.symm
    · rcases hform with rfl | ⟨_, rfl⟩ <;> rcases hform' with rfl | ⟨_, rfl⟩ <;> exact hpoint.symm
  refine ⟨fun k hkept => ?_, fun k r fp hfree => ?_, ?_, ?_, ?_⟩
  · cases hR' : new.entity SCGNode.region? k with
    | none =>
      have hident := hkept.entity sees_region
      rw [hR', Option.map_none, Option.map_eq_none_iff] at hident
      exact hident
    | some R' =>
      obtain ⟨R, hR, hid⟩ := hkept.exists_old sees_region hR'
      rw [hR, hcopy k k R R' hR hR' hid (.inr hkept)]
  · by_cases hkept : Kept old new k
    · exact hold.allocated k r fp (hkept.frees_iff.2 hfree)
    · obtain ⟨i, hi⟩ := hfree
      exact (ht.identifies r).1 (hknown.added k _ hi hkept i r fp rfl)
  · rintro k r fp i R hfree hkept hR rfl
    by_contra hnot
    have hnil : writesOf anyOrder old new msg R.id = [] := by
      refine writesOf_eq_nil (fun j fp' hj => ?_) fun j fp' hj => ?_
      · exact hold.frees k j _ _ _ (hkept.frees_iff.2 hfree) hj ▸ hkept
      · exact hnew.frees k j _ _ _ hfree hj ▸ hkept
    have hget := exchanged_of_writesOf_eq_nil hnew anyOrder hR hnot hnil
    rw [h anyOrder, get_of_frees ht' hR hfree] at hget
    have hstatus := congrArg Region.status (Option.some.inj hget)
    rw [(region?_fields hR).1] at hstatus
    cases hstatus
  · rintro k r fp hfree hkept i j R R' hR hR' rfl hid
    obtain ⟨e, he, -⟩ := exists_get ht hR
    refine hcopy i j R R' hR hR' hid.symm (.inl ?_)
    rw [hid]
    exact writesOf_ne_nil he ⟨k, fp, hfree, hkept⟩
  · intro a b r fp fp' ha hb hab
    by_contra hnot
    have hmoved : old.getNode b = none ∨ (new.getNode a).isSome := by
      rw [not_and_or, Option.not_isSome_iff_eq_none] at hnot
      exact hnot.imp_right Option.isSome_iff_ne_none.2
    obtain ⟨i, R, hR, rfl⟩ := hnew.allocated b r fp' hb
    obtain ⟨j, R₁, hR₁, hid⟩ := hold.allocated a _ fp ha
    obtain ⟨e, he, -⟩ := exists_get ht hR₁
    rw [hid] at he
    have hlast := getLast?_writesOf_of_moved anyOrder (hold.freesOnce _) (hnew.freesOnce _) he ha hb
      hab hmoved
    have hget := congrFun (h { anyOrder with common := anyOrder.common.first b }) R.id
    rw [Msg.exchanged_regions, hlast, get_of_frees ht' hR hb] at hget
    split_ifs at hget
    have hstatus := congrArg Region.status (Option.some.inj hget)
    cases hstatus

end

end Exchange

/-- The update from one snapshot to another turns the graph of the first into the second's. -/
def Rebuilds (order : EntityOrder) (applyOrder : ApplyOrder) (old new : SCGSnapshot)
    (msg msg' : MSG) : Prop :=
  ∃ δ msg'' result, computeScgDelta order old new msg = .ok δ ∧
    applyDelta applyOrder msg δ = some (msg'', result) ∧ msg''.SameGraph msg'

/-- The regions that an update touches: those of allocations that are taken out, and those of which
a deallocation is put in or taken out. -/
def Touched (old new : SCGSnapshot) (r : RegionId) : Prop :=
  (∃ i R, old.entity SCGNode.region? i = some R ∧ R.id = r ∧ ¬ Kept old new i) ∨
    (∃ i R, new.entity SCGNode.region? i = some R ∧ R.id = r) ∧
      ∃ k fp, (old.Frees k r fp ∨ new.Frees k r fp) ∧ ¬ Kept old new k

/-- The derivations that an update takes out. -/
def TakenOut (old new : SCGSnapshot) (did : DerivationId) : Prop :=
  ∃ i d, old.entity SCGNode.derivation? i = some d ∧ d.id = did ∧ ¬ Kept old new i

section Update

variable {old new : SCGSnapshot} {msg msg' : MSG}

theorem fresh_scgDelta (hnew : new.Wf) (ht : old.Describes msg) (ht' : new.Describes msg')
    (order : EntityOrder) : (scgDelta order old new msg).Fresh msg where
  regions := (kindOf_regions msg).follows.fresh sees_region hnew.regions ht.regions.identifies
    ht'.regions.bounded
  derivations := (kindOf_derivations msg).follows.fresh sees_derivation hnew.derivations
    ht.derivations.identifies ht'.derivations.bounded
  accesses := (kindOf_accesses msg).follows.fresh sees_access hnew.accesses
    ht.accesses.identifies ht'.accesses.bounded
  syncEdges := (kindOf_syncEdges msg).follows.fresh sees_syncEdge hnew.syncEdges
    ht.syncEdges.identifies ht'.syncEdges.bounded

theorem exchanged_derivations_iff (hold : old.Wf) (hnew : new.Wf) (ht : old.Describes msg)
    (ht' : new.Describes msg') (order : EntityOrder) :
    (scgDelta order old new msg).derivations.exchanged msg.derivations.get =
        msg'.derivations.get ↔
      ∀ k, Kept old new k →
        old.entity SCGNode.derivation? k = new.entity SCGNode.derivation? k :=
  exchanged_eq_iff (kindOf_derivations msg).follows
    ((kindOf_derivations msg).modified_eq_nil (fun _ => rfl) fun _ => rfl) sees_derivation
    hold.derivations hnew.derivations ht.derivations ht'.derivations

theorem exchanged_accesses_iff (hold : old.Wf) (hnew : new.Wf) (ht : old.Describes msg)
    (ht' : new.Describes msg') (order : EntityOrder) :
    (scgDelta order old new msg).accesses.exchanged msg.accesses.get = msg'.accesses.get ↔
      ∀ k, Kept old new k → old.entity SCGNode.access? k = new.entity SCGNode.access? k :=
  exchanged_eq_iff (kindOf_accesses msg).follows
    ((kindOf_accesses msg).modified_eq_nil (fun _ => rfl) fun _ => rfl) sees_access
    hold.accesses hnew.accesses ht.accesses ht'.accesses

theorem exchanged_syncEdges_iff (hold : old.Wf) (hnew : new.Wf) (ht : old.Describes msg)
    (ht' : new.Describes msg') (order : EntityOrder) :
    (scgDelta order old new msg).syncEdges.exchanged msg.syncEdges.get = msg'.syncEdges.get ↔
      ∀ k, Kept old new k → old.entity SCGNode.syncEdge? k = new.entity SCGNode.syncEdge? k :=
  exchanged_eq_iff (kindOf_syncEdges msg).follows
    ((kindOf_syncEdges msg).modified_eq_nil (fun _ => rfl) fun _ => rfl) sees_syncEdge
    hold.syncEdges hnew.syncEdges ht.syncEdges ht'.syncEdges

theorem touched_scgDelta_iff (hold : old.Wf) (hnew : new.Wf) (ht : old.Describes msg)
    (hknown : FreesKnownAll old new msg) (order : EntityOrder) (r : RegionId) :
    (r ∈ present msg.regions (scgDelta order old new msg).regions.removed ∨
      r ∈ ((scgDelta order old new msg).regions.modified.map ident).filter fun r =>
        ((scgDelta order old new msg).regions.extended msg.regions.get r).isSome) ↔
      Touched old new r := by
  have hfollows : (scgDelta order old new msg).regions.Follows SCGNode.region? order old new :=
    follows_regions
  have hgone : r ∈ present msg.regions (scgDelta order old new msg).regions.removed ↔
      ∃ i R, old.entity SCGNode.region? i = some R ∧ R.id = r ∧ ¬ Kept old new i := by
    rw [mem_present, hfollows.mem_removed]
    refine and_iff_left_of_imp ?_
    rintro ⟨i, R, hR, hid, -⟩
    exact (ht.regions.identifies r).2 ⟨i, R, hR, hid⟩
  have hext : ((scgDelta order old new msg).regions.extended msg.regions.get r).isSome ↔
      ∃ i R, new.entity SCGNode.region? i = some R ∧ R.id = r := by
    constructor
    · intro hsome
      by_contra hnone
      rw [hfollows.extended_eq_none sees_region ht.regions.identifies fun i R hR hid =>
        hnone ⟨i, R, hR, hid⟩] at hsome
      cases hsome
    · rintro ⟨i, R, hR, rfl⟩
      by_cases hkept : Kept old new i
      · obtain ⟨R', hR', hid⟩ := hkept.exists_old sees_region hR
        rw [regions_extended_of_kept hR hold hnew hkept]
        exact (ht.regions.identifies _).2 ⟨i, R', hR', hid⟩
      · rw [regions_extended_of_not_kept hR hnew hkept]
        rfl
  have hwritten : r ∈ (scgDelta order old new msg).regions.modified.map ident ↔
      ∃ k fp, (old.Frees k r fp ∨ new.Frees k r fp) ∧ ¬ Kept old new k := by
    have hmem : r ∈ (scgDelta order old new msg).regions.modified.map ident ↔
        writesOf order old new msg r ≠ [] := by
      rw [← filter_modified, List.mem_map, ne_eq, List.filter_eq_nil_iff]
      push Not
      simp only [decide_eq_true_eq]
    rw [hmem]
    constructor
    · intro hne
      by_contra hnone
      exact hne (writesOf_eq_nil
        (fun k fp hk => by_contra fun hkept => hnone ⟨k, fp, .inl hk, hkept⟩)
        fun k fp hk => by_contra fun hkept => hnone ⟨k, fp, .inr hk, hkept⟩)
    · rintro ⟨k, fp, hfree, hkept⟩
      have hsome : (msg.regions.get r).isSome := by
        rcases hfree with hfree | ⟨i, hi⟩
        · exact (ht.regions.identifies r).2 (hold.allocated k r fp hfree)
        · exact hknown.added k _ hi hkept i r fp rfl
      obtain ⟨e, he⟩ := Option.isSome_iff_exists.1 hsome
      exact writesOf_ne_nil he ⟨k, fp, hfree, hkept⟩
  rw [hgone, List.mem_filter, hwritten, hext, and_comm (b := ∃ i R, _)]
  rfl

theorem takenOut_scgDelta_iff (new : SCGSnapshot) (ht : old.Describes msg) (order : EntityOrder)
    (did : DerivationId) :
    did ∈ present msg.derivations (scgDelta order old new msg).derivations.removed ↔
      TakenOut old new did := by
  rw [mem_present, (kindOf_derivations msg).follows.mem_removed]
  refine and_iff_left_of_imp ?_
  rintro ⟨i, d, hd, hid, -⟩
  exact (ht.derivations.identifies did).2 ⟨i, d, hd, hid⟩

/-- The run of an update up to the propagation. -/
theorem applyDelta_scgDelta (hold : old.Wf) (hnew : new.Wf) (ht : old.Describes msg)
    (ht' : new.Describes msg') (hknown : FreesKnownAll old new msg) (order : EntityOrder)
    (applyOrder : ApplyOrder) :
    ∃ msg'' removedRegions removedDerivations pre,
      (scgDelta order old new msg).LeadsTo msg msg'' ∧
      (∀ o, applyDelta { applyOrder with derivations := o } msg (scgDelta order old new msg) =
        (propagate { applyOrder with derivations := o } msg'' removedRegions removedDerivations
          pre).map fun r => (msg'', r)) ∧
      (msg''.SameGraph msg' →
        (PropagationEnds msg'' (fun k => k ∈ removedRegions ∨ k ∈ pre.invalidatedRegions)
          (· ∈ removedDerivations) (· ∈ pre.recomputedDerivations) ↔
            PropagationEnds msg' (Touched old new) (TakenOut old new) fun _ => False)) := by
  obtain ⟨msg'', pre, hleads, hrun, hinv, hrec, -⟩ :=
    applyDelta_of_fresh (fresh_scgDelta hnew ht ht' order) applyOrder
  refine ⟨msg'', _, _, pre, hleads, hrun, fun hsame => ?_⟩
  have htouched := touched_scgDelta_iff hold hnew ht hknown order
  have htaken := takenOut_scgDelta_iff new ht order
  have hnil : (scgDelta order old new msg).derivations.modified = [] :=
    (kindOf_derivations msg).modified_eq_nil (fun _ => rfl) fun _ => rfl
  have hchanged : ∀ k, k ∈ pre.recomputedDerivations ↔ False := by
    intro k
    rw [hrec, hnil]
    simp
  rw [hinv]
  exact ⟨PropagationEnds.congr hsame htouched htaken hchanged,
    PropagationEnds.congr hsame.symm (fun k => (htouched k).symm) (fun k => (htaken k).symm)
      fun k => (hchanged k).symm⟩

theorem rebuildable_of_rebuilds (hold : old.Wf) (hnew : new.Wf) (ht : old.Describes msg)
    (ht' : new.Describes msg')
    (h : ∀ order applyOrder, Rebuilds order applyOrder old new msg msg') :
    Rebuildable old new ∧
      PropagationEnds msg' (Touched old new) (TakenOut old new) fun _ => False := by
  let anyOrder : EntityOrder := ⟨.id, .id, .id⟩
  let applyOrder : ApplyOrder := ⟨.id, .id, .id, .id, .id, .id⟩
  have hknown : FreesKnownAll old new msg := by
    obtain ⟨δ, -, -, hδ, -⟩ := h anyOrder applyOrder
    exact freesKnownAll_of_computeScgDelta hδ
  have hrun : ∀ order o, ∃ msg'' result,
      applyDelta { applyOrder with derivations := o } msg (scgDelta order old new msg) =
        some (msg'', result) ∧ msg''.SameGraph msg' := by
    intro order o
    obtain ⟨δ, msg'', result, hδ, happly, hsame⟩ := h order { applyOrder with derivations := o }
    rw [computeScgDelta_eq_ok order hknown] at hδ
    cases hδ
    exact ⟨msg'', result, happly, hsame⟩
  have hexchanged : ∀ order,
      (scgDelta order old new msg).regions.exchanged msg.regions.get = msg'.regions.get ∧
      (scgDelta order old new msg).derivations.exchanged msg.derivations.get =
        msg'.derivations.get ∧
      (scgDelta order old new msg).accesses.exchanged msg.accesses.get = msg'.accesses.get ∧
      (scgDelta order old new msg).syncEdges.exchanged msg.syncEdges.get =
        msg'.syncEdges.get := by
    intro order
    obtain ⟨msg'', removedRegions, removedDerivations, pre, hleads, hprop, -⟩ :=
      applyDelta_scgDelta hold hnew ht ht' hknown order applyOrder
    obtain ⟨msg₁, result, happly, hsame⟩ := hrun order .id
    rw [hprop, Option.map_eq_some_iff] at happly
    obtain ⟨_, -, heq⟩ := happly
    cases heq
    exact ⟨hleads.regions ▸ hsame.regions, hleads.derivations ▸ hsame.derivations,
      hleads.accesses ▸ hsame.accesses, hleads.syncEdges ▸ hsame.syncEdges⟩
  obtain ⟨-, hder, hacc, hsync⟩ := hexchanged anyOrder
  obtain ⟨hseen, hallocated, hstays, hunmoved, hordered⟩ :=
    rebuildable_regions hold hnew ht.regions ht'.regions hknown fun order => (hexchanged order).1
  refine ⟨⟨hseen, (exchanged_derivations_iff hold hnew ht ht' anyOrder).1 hder,
    (exchanged_accesses_iff hold hnew ht ht' anyOrder).1 hacc,
    (exchanged_syncEdges_iff hold hnew ht ht' anyOrder).1 hsync, hallocated, hstays, hunmoved,
    hordered⟩, ?_⟩
  obtain ⟨msg'', removedRegions, removedDerivations, pre, -, hprop, hends⟩ :=
    applyDelta_scgDelta hold hnew ht ht' hknown anyOrder applyOrder
  have hsame : msg''.SameGraph msg' := by
    obtain ⟨msg₁, result, happly, hsame⟩ := hrun anyOrder .id
    rw [hprop, Option.map_eq_some_iff] at happly
    obtain ⟨_, -, heq⟩ := happly
    cases heq
    exact hsame
  refine (hends hsame).1 (propagationEnds_of_isSome applyOrder fun o => ?_)
  obtain ⟨msg₁, result, happly, -⟩ := hrun anyOrder o
  rw [hprop, Option.map_eq_some_iff] at happly
  obtain ⟨_, hsome, -⟩ := happly
  exact Option.isSome_of_eq_some hsome

theorem Rebuildable.rebuilds (h : Rebuildable old new) (hold : old.Wf) (hnew : new.Wf)
    (ht : old.Describes msg) (ht' : new.Describes msg')
    (hends : PropagationEnds msg' (Touched old new) (TakenOut old new) fun _ => False)
    (order : EntityOrder) (applyOrder : ApplyOrder) :
    Rebuilds order applyOrder old new msg msg' := by
  have hknown : FreesKnownAll old new msg := by
    constructor
    · rintro k n hn - i r fp rfl
      exact (ht.regions.identifies r).2 (h.allocated k r fp ⟨i, hn⟩)
    · rintro k n hn - i r fp rfl
      exact (ht.regions.identifies r).2 (hold.allocated k r fp ⟨i, hn⟩)
  obtain ⟨msg'', removedRegions, removedDerivations, pre, hleads, hrun, hends'⟩ :=
    applyDelta_scgDelta hold hnew ht ht' hknown order applyOrder
  have hsame : msg''.SameGraph msg' :=
    ⟨hleads.regions.trans (h.exchanged_regions hold hnew ht.regions ht'.regions order),
      hleads.derivations.trans
        ((exchanged_derivations_iff hold hnew ht ht' order).2 h.seenDerivations),
      hleads.accesses.trans ((exchanged_accesses_iff hold hnew ht ht' order).2 h.seenAccesses),
      hleads.syncEdges.trans ((exchanged_syncEdges_iff hold hnew ht ht' order).2 h.seenSyncEdges)⟩
  obtain ⟨result, hresult⟩ :=
    Option.isSome_iff_exists.1 (((hends' hsame).2 hends).propagate_isSome applyOrder)
  refine ⟨_, msg'', result, computeScgDelta_eq_ok order hknown, ?_, hsame⟩
  have happly := hrun applyOrder.derivations
  rw [hresult] at happly
  exact happly

/-- Updating from one snapshot to another agrees with rebuilding, in every order of the hash maps,
exactly if the two are rebuildable and the propagation comes to an end. -/
theorem rebuilds_iff (hold : old.Wf) (hnew : new.Wf) (ht : old.Describes msg)
    (ht' : new.Describes msg') :
    (∀ order applyOrder, Rebuilds order applyOrder old new msg msg') ↔
      Rebuildable old new ∧
        PropagationEnds msg' (Touched old new) (TakenOut old new) fun _ => False := by
  constructor
  · exact rebuildable_of_rebuilds hold hnew ht ht'
  · rintro ⟨h, hends⟩ order applyOrder
    exact h.rebuilds hold hnew ht ht' hends order applyOrder

end Update

section Examples

@[simp] theorem SCGSnapshot.getNode_empty (k : Nat) : SCGSnapshot.empty.getNode k = none := rfl

@[simp] theorem SCGSnapshot.getNode_addNode (s : SCGSnapshot) (n : SCGNode) (k : Nat) :
    (s.addNode n).getNode k = if k = n.nodeId then some n else s.getNode k :=
  HashMap.lookup_insert_ite _ _ _ _

theorem get_ofList_singleton {V : Type} [Entity V] {v : V} (h : ident v + 1 < 2 ^ 64) (k : Nat) :
    (Table.ofList [v]).get k = if k = ident v then some v else none := by
  obtain ⟨t, ht, hget⟩ := Table.insert_eq_some (t := (∅ : Table V)) h
  have hlist : Table.ofList [v] = t := by
    rw [Table.ofList, List.foldl_cons, List.foldl_nil, ht]
    rfl
  rw [hlist, hget]
  rfl

/-- A program that allocates a region. -/
def allocSnapshot : SCGSnapshot :=
  SCGSnapshot.empty.addNode (.alloc 1 1 4096 512 ⟨"main.vu", 1, 1, none⟩)

/-- A program that allocates a region and frees it. -/
def freedSnapshot : SCGSnapshot := allocSnapshot.addNode (.dealloc 2 1 ⟨"main.vu", 2, 1, none⟩)

/-- The graph with nothing in it. -/
def emptyGraph : MSG := ⟨∅, ∅, ∅, ∅⟩

/-- The graph of the region once it is freed. -/
def freedGraph : MSG :=
  ⟨.ofList [heapRegion.markFreed 1 ⟨"main.vu", 2, 1, none⟩], ∅, ∅, ∅⟩

theorem getNode_freedSnapshot (k : Nat) : freedSnapshot.getNode k =
    if k = 2 then some (.dealloc 2 1 ⟨"main.vu", 2, 1, none⟩)
    else if k = 1 then some (.alloc 1 1 4096 512 ⟨"main.vu", 1, 1, none⟩) else none := by
  rw [freedSnapshot, allocSnapshot, SCGSnapshot.getNode_addNode, SCGSnapshot.getNode_addNode,
    SCGSnapshot.getNode_empty]
  rfl

theorem getNode_allocSnapshot (k : Nat) : allocSnapshot.getNode k =
    if k = 1 then some (.alloc 1 1 4096 512 ⟨"main.vu", 1, 1, none⟩) else none := by
  rw [allocSnapshot, SCGSnapshot.getNode_addNode, SCGSnapshot.getNode_empty]
  rfl

theorem frees_freedSnapshot {k r : Nat} {fp : ProgramPoint} :
    freedSnapshot.Frees k r fp ↔ k = 2 ∧ r = 1 ∧ fp = ⟨"main.vu", 2, 1, none⟩ := by
  rw [SCGSnapshot.Frees, getNode_freedSnapshot]
  split_ifs with h h' <;> simp_all [eq_comm]

theorem not_frees_allocSnapshot {k r : Nat} {fp : ProgramPoint} :
    ¬ allocSnapshot.Frees k r fp := by
  rw [SCGSnapshot.Frees, getNode_allocSnapshot]
  split_ifs with h <;> simp

theorem region?_freedSnapshot {k : Nat} {R : Region} :
    freedSnapshot.entity SCGNode.region? k = some R ↔ k = 1 ∧ R = heapRegion := by
  rw [SCGSnapshot.entity, getNode_freedSnapshot]
  split_ifs with h h' <;> simp_all [SCGNode.region?, heapRegion, eq_comm]

theorem region?_allocSnapshot {k : Nat} {R : Region} :
    allocSnapshot.entity SCGNode.region? k = some R ↔ k = 1 ∧ R = heapRegion := by
  rw [SCGSnapshot.entity, getNode_allocSnapshot]
  split_ifs with h <;> simp_all [SCGNode.region?, heapRegion, eq_comm]

theorem others_freedSnapshot (k : Nat) : freedSnapshot.entity SCGNode.derivation? k = none ∧
    freedSnapshot.entity SCGNode.access? k = none ∧
      freedSnapshot.entity SCGNode.syncEdge? k = none := by
  simp only [SCGSnapshot.entity, getNode_freedSnapshot]
  split_ifs <;> exact ⟨rfl, rfl, rfl⟩

theorem others_allocSnapshot (k : Nat) : allocSnapshot.entity SCGNode.derivation? k = none ∧
    allocSnapshot.entity SCGNode.access? k = none ∧
      allocSnapshot.entity SCGNode.syncEdge? k = none := by
  simp only [SCGSnapshot.entity, getNode_allocSnapshot]
  split_ifs <;> exact ⟨rfl, rfl, rfl⟩

/-- A snapshot without entities of a kind is listed by the empty table. -/
theorem lists_empty {V : Type} [Entity V] {s : SCGSnapshot} {f : SCGNode → Option V}
    (h : ∀ k, s.entity f k = none) : s.Lists f ∅ := by
  intro k v
  constructor
  · intro hv
    cases hv
  · rintro ⟨-, i, hi⟩
    rw [h i] at hi
    cases hi

theorem unique_empty {V : Type} [Entity V] {s : SCGSnapshot} {f : SCGNode → Option V}
    (h : ∀ k, s.entity f k = none) : s.Unique f := by
  intro i j v w hi
  rw [h i] at hi
  cases hi

theorem wf_freedSnapshot : freedSnapshot.Wf where
  regions i j v w hi hj _ := by
    rw [(region?_freedSnapshot.1 hi).1, (region?_freedSnapshot.1 hj).1]
  derivations := unique_empty fun k => (others_freedSnapshot k).1
  accesses := unique_empty fun k => (others_freedSnapshot k).2.1
  syncEdges := unique_empty fun k => (others_freedSnapshot k).2.2
  frees i j r fp fp' hi hj := by rw [(frees_freedSnapshot.1 hi).1, (frees_freedSnapshot.1 hj).1]
  allocated k r fp h := by
    obtain ⟨-, rfl, -⟩ := frees_freedSnapshot.1 h
    exact ⟨1, heapRegion, region?_freedSnapshot.2 ⟨rfl, rfl⟩, rfl⟩

theorem wf_allocSnapshot : allocSnapshot.Wf where
  regions i j v w hi hj _ := by
    rw [(region?_allocSnapshot.1 hi).1, (region?_allocSnapshot.1 hj).1]
  derivations := unique_empty fun k => (others_allocSnapshot k).1
  accesses := unique_empty fun k => (others_allocSnapshot k).2.1
  syncEdges := unique_empty fun k => (others_allocSnapshot k).2.2
  frees i j r fp fp' hi _ := absurd hi not_frees_allocSnapshot
  allocated k r fp h := absurd h not_frees_allocSnapshot

theorem wf_empty : SCGSnapshot.empty.Wf where
  regions := unique_empty fun _ => rfl
  derivations := unique_empty fun _ => rfl
  accesses := unique_empty fun _ => rfl
  syncEdges := unique_empty fun _ => rfl
  frees i j r fp fp' hi _ := by
    obtain ⟨_, hi⟩ := hi
    cases hi
  allocated k r fp h := by
    obtain ⟨_, h⟩ := h
    cases h

theorem describes_empty : SCGSnapshot.empty.Describes emptyGraph where
  regions r R := by
    constructor
    · intro h
      cases h
    · rintro ⟨i, R₀, hi, -⟩
      cases hi
  derivations := lists_empty fun _ => rfl
  accesses := lists_empty fun _ => rfl
  syncEdges := lists_empty fun _ => rfl

theorem describes_freedGraph : freedSnapshot.Describes freedGraph where
  regions r R := by
    rw [freedGraph, get_ofList_singleton (by decide)]
    constructor
    · intro h
      split_ifs at h with hr
      cases h
      subst hr
      exact ⟨1, heapRegion, region?_freedSnapshot.2 ⟨rfl, rfl⟩, rfl,
        .inl ⟨2, _, frees_freedSnapshot.2 ⟨rfl, rfl, rfl⟩, rfl⟩⟩
    · rintro ⟨i, R₀, hR₀, rfl, ⟨k, fp, hfree, rfl⟩ | ⟨hnone, -⟩⟩
      · obtain ⟨-, rfl⟩ := region?_freedSnapshot.1 hR₀
        obtain ⟨-, -, rfl⟩ := frees_freedSnapshot.1 hfree
        rfl
      · obtain ⟨-, rfl⟩ := region?_freedSnapshot.1 hR₀
        exact absurd (frees_freedSnapshot.2 ⟨rfl, rfl, rfl⟩) (hnone 2 _)
  derivations := lists_empty fun k => (others_freedSnapshot k).1
  accesses := lists_empty fun k => (others_freedSnapshot k).2.1
  syncEdges := lists_empty fun k => (others_freedSnapshot k).2.2

theorem describes_bareGraph : allocSnapshot.Describes bareGraph where
  regions r R := by
    rw [bareGraph, get_ofList_singleton (by decide)]
    constructor
    · intro h
      split_ifs at h with hr
      cases h
      subst hr
      exact ⟨1, heapRegion, region?_allocSnapshot.2 ⟨rfl, rfl⟩, rfl,
        .inr ⟨fun _ _ => not_frees_allocSnapshot, rfl⟩⟩
    · rintro ⟨i, R₀, hR₀, rfl, ⟨k, fp, hfree, -⟩ | ⟨-, rfl⟩⟩
      · exact absurd hfree not_frees_allocSnapshot
      · obtain ⟨-, rfl⟩ := region?_allocSnapshot.1 hR₀
        rfl
  derivations := lists_empty fun k => (others_allocSnapshot k).1
  accesses := lists_empty fun k => (others_allocSnapshot k).2.1
  syncEdges := lists_empty fun k => (others_allocSnapshot k).2.2

/-- Freeing an allocated region. -/
theorem rebuilds_iff_freedSnapshot :
    (∀ order applyOrder, Rebuilds order applyOrder allocSnapshot freedSnapshot bareGraph
      freedGraph) ↔
      Rebuildable allocSnapshot freedSnapshot ∧ PropagationEnds freedGraph
        (Touched allocSnapshot freedSnapshot) (TakenOut allocSnapshot freedSnapshot)
          fun _ => False :=
  rebuilds_iff wf_allocSnapshot wf_freedSnapshot describes_bareGraph describes_freedGraph

/-- A region that is allocated and freed at once cannot be looked up in the old graph. -/
theorem not_rebuilds_freedSnapshot :
    ¬ ∀ old new msg msg', SCGSnapshot.Wf old → SCGSnapshot.Wf new → old.Describes msg →
      new.Describes msg' → ∀ order applyOrder, Rebuilds order applyOrder old new msg msg' := by
  intro h
  obtain ⟨δ, -, -, hδ, -⟩ := h .empty freedSnapshot emptyGraph freedGraph wf_empty
    wf_freedSnapshot describes_empty describes_freedGraph ⟨.id, .id, .id⟩
    ⟨.id, .id, .id, .id, .id, .id⟩
  have hnew : freedSnapshot.getNode 2 = some (.dealloc 2 1 ⟨"main.vu", 2, 1, none⟩) := rfl
  have hknown := (freesKnownAll_of_computeScgDelta hδ).added 2 _ hnew
    (not_kept_of_old rfl) 2 1 _ rfl
  cases hknown

end Examples

end Vuma.Msg
