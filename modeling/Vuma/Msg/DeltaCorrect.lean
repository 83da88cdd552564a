import Vuma.Msg.Delta

/-!
# Diffing and patching memory state graphs

The delta of two graphs, applied to the first, leads to the entities of the second whenever it is
applied to the end. It is applied to the end if the propagation comes to an end, and without
warnings if no added derivation is the parent of another: the added derivations come in the order
of a hash set.
-/

namespace Vuma.Msg

open Lib Entity

theorem map_ident_filterMap {V : Type} [Entity V] {f : Nat → Option V}
    (hf : ∀ k v, f k = some v → ident v = k) (l : List Nat) :
    (l.filterMap f).map ident = l.filter fun k => (f k).isSome := by
  induction l with
  | nil => rfl
  | cons k l ih =>
    cases hk : f k with
    | none => simp [hk, ih]
    | some v => simp [hk, ih, hf k v hk]

section Table

variable {V : Type} [Entity V] [DecidableEq V] {old new : Table V} {order : EntityOrder}

theorem mem_added {v : V} : v ∈ (computeEntityDelta order old new).added ↔
    old.get (ident v) = none ∧ new.get (ident v) = some v := by
  simp only [computeEntityDelta, List.mem_filterMap, (order.added.perm _).mem_iff, List.mem_filter,
    Table.mem_ids, decide_eq_true_eq, Bool.not_eq_true, Option.isSome_eq_false_iff,
    Option.isNone_iff_eq_none]
  constructor
  · rintro ⟨k, ⟨-, hold⟩, hnew⟩
    obtain rfl := Table.ident_of_get hnew
    exact ⟨hold, hnew⟩
  · rintro ⟨hold, hnew⟩
    exact ⟨ident v, ⟨Option.isSome_of_eq_some hnew, hold⟩, hnew⟩

theorem mem_removed {k : Nat} : k ∈ (computeEntityDelta order old new).removed ↔
    (old.get k).isSome ∧ new.get k = none := by
  simp only [computeEntityDelta, (order.removed.perm _).mem_iff, List.mem_filter, Table.mem_ids,
    decide_eq_true_eq, Bool.not_eq_true, Option.isSome_eq_false_iff, Option.isNone_iff_eq_none]

theorem mem_modified {v : V} : v ∈ (computeEntityDelta order old new).modified ↔
    ∃ u, old.get (ident v) = some u ∧ new.get (ident v) = some v ∧ u ≠ v := by
  simp only [computeEntityDelta, List.mem_filterMap, (order.common.perm _).mem_iff,
    List.mem_filter, Table.mem_ids]
  constructor
  · rintro ⟨k, -, hk⟩
    cases hold : old.get k with
    | none => simp [hold] at hk
    | some u =>
      cases hnew : new.get k with
      | none => simp [hold, hnew] at hk
      | some w =>
        simp only [hold, hnew, Option.ite_none_right_eq_some] at hk
        obtain ⟨hne, hw⟩ := hk
        cases hw
        obtain rfl := Table.ident_of_get hnew
        exact ⟨u, hold, hnew, hne⟩
  · rintro ⟨u, hold, hnew, hne⟩
    exact ⟨ident v, by simp [hold, hnew], by simp [hold, hnew, hne]⟩

theorem nodup_added : ((computeEntityDelta order old new).added.map ident).Nodup := by
  rw [computeEntityDelta, map_ident_filterMap fun k v => Table.ident_of_get]
  exact ((order.added.perm _).nodup_iff.2 (new.nodup_ids.filter _)).filter _

theorem nodup_modified : ((computeEntityDelta order old new).modified.map ident).Nodup := by
  rw [computeEntityDelta, map_ident_filterMap]
  · exact ((order.common.perm _).nodup_iff.2 (old.nodup_ids.filter _)).filter _
  · intro k v hk
    cases hold : old.get k with
    | none => simp [hold] at hk
    | some u =>
      cases hnew : new.get k with
      | none => simp [hold, hnew] at hk
      | some w =>
        simp only [hold, hnew, Option.ite_none_right_eq_some] at hk
        obtain ⟨-, hw⟩ := hk
        cases hw
        exact Table.ident_of_get hnew

theorem kept_computeEntityDelta (k : Nat) :
    (computeEntityDelta order old new).kept old.get k =
      if (new.get k).isSome then old.get k else none := by
  rw [EntityDelta.kept]
  cases hold : old.get k with
  | none => simp
  | some u => cases hnew : new.get k <;> simp [mem_removed, hold, hnew]

theorem extended_computeEntityDelta (k : Nat) :
    (computeEntityDelta order old new).extended old.get k =
      (new.get k).map fun v => (old.get k).getD v := by
  by_cases hmem : k ∈ (computeEntityDelta order old new).added.map ident
  · obtain ⟨v, hv, rfl⟩ := List.mem_map.1 hmem
    obtain ⟨hold, hnew⟩ := mem_added.1 hv
    rw [EntityDelta.extended, Table.overlay_of_mem nodup_added hv, hold, hnew]
    rfl
  · rw [EntityDelta.extended, Table.overlay_of_notMem hmem, kept_computeEntityDelta]
    cases hnew : new.get k with
    | none => rfl
    | some v =>
      cases hold : old.get k with
      | some u => rfl
      | none =>
        obtain rfl := Table.ident_of_get hnew
        exact absurd (List.mem_map_of_mem (mem_added.2 ⟨hold, hnew⟩)) hmem

theorem isSome_extended (k : Nat) :
    ((computeEntityDelta order old new).extended old.get k).isSome ↔ (new.get k).isSome := by
  rw [extended_computeEntityDelta, Option.isSome_map]

theorem exchanged_computeEntityDelta :
    (computeEntityDelta order old new).exchanged old.get = new.get := by
  funext k
  rw [EntityDelta.exchanged, extended_computeEntityDelta, Option.isSome_map]
  cases hnew : new.get k with
  | none => rfl
  | some v =>
    obtain rfl := Table.ident_of_get hnew
    have hnodup : ((computeEntityDelta order old new).modified.reverse.map ident).Nodup := by
      rw [List.map_reverse, List.nodup_reverse]
      exact nodup_modified
    rw [Option.isSome_some, if_pos rfl]
    by_cases hmem : v ∈ (computeEntityDelta order old new).modified
    · exact Table.overlay_of_mem hnodup (List.mem_reverse.2 hmem)
    · have hnot : ident v ∉ (computeEntityDelta order old new).modified.reverse.map ident := by
        intro h
        obtain ⟨w, hw, hident⟩ := List.mem_map.1 h
        obtain ⟨u, hold, hnew', hne⟩ := mem_modified.1 (List.mem_reverse.1 hw)
        rw [hident, hnew] at hnew'
        cases hnew'
        exact hmem (List.mem_reverse.1 hw)
      rw [Table.overlay_of_notMem hnot, extended_computeEntityDelta, hnew]
      cases hold : old.get (ident v) with
      | none => rfl
      | some u =>
        by_contra hne
        refine hmem (mem_modified.2 ⟨u, hold, hnew, fun heq => hne ?_⟩)
        rw [heq]
        rfl

theorem fresh_computeEntityDelta : (computeEntityDelta order old new).Fresh old where
  nodup := nodup_added
  fresh v hv hsome := by
    rw [(mem_added.1 hv).1] at hsome
    cases hsome
  bounded v hv := Table.bound_of_get (mem_added.1 hv).2

end Table

/-- Every reference inside a graph resolves. -/
structure MSG.Resolves (msg : MSG) : Prop where
  region : ∀ k d rid, msg.derivations.get k = some d → d.source = .region rid →
    (msg.regions.get rid).isSome
  parent : ∀ k d p, msg.derivations.get k = some d → d.source = .anotherDerivation p →
    (msg.derivations.get p).isSome
  target : ∀ k a, msg.accesses.get k = some a → (msg.derivations.get a.target).isSome
  endpoints : ∀ k e, msg.syncEdges.get k = some e →
    (msg.accesses.get e.access1).isSome ∧ (msg.accesses.get e.access2).isSome

/-- Patching the first graph with the delta of the two gives the entities of the second, and no
warning if all references of the second resolve. -/
def PatchRestores (diffOrder : DeltaOrder) (order : ApplyOrder) (old new : MSG) : Prop :=
  ∃ msg' result, applyDelta order old (computeDelta diffOrder old new) = some (msg', result) ∧
    msg'.SameGraph new ∧ (new.Resolves → result.warnings = [])

/-- No added derivation has an added parent, if that is a question of warnings at all, and the
propagation comes to an end. -/
structure Patchable (old new : MSG) : Prop where
  parents : new.Resolves → ∀ k d p, old.derivations.get k = none →
    new.derivations.get k = some d → d.source = .anotherDerivation p →
    (old.derivations.get p).isSome
  ends : PropagationEnds new
    (fun k => (old.regions.get k).isSome ∧ old.regions.get k ≠ new.regions.get k)
    (fun k => (old.derivations.get k).isSome ∧ new.derivations.get k = none)
    (fun k => ∃ d e, old.derivations.get k = some d ∧ new.derivations.get k = some e ∧ d ≠ e)

section Patch

variable {old new : MSG} {diffOrder : DeltaOrder}

theorem fresh_computeDelta (diffOrder : DeltaOrder) (old new : MSG) :
    (computeDelta diffOrder old new).Fresh old :=
  ⟨fresh_computeEntityDelta, fresh_computeEntityDelta, fresh_computeEntityDelta,
    fresh_computeEntityDelta⟩

theorem sameGraph_of_leadsTo {msg' : MSG} (h : (computeDelta diffOrder old new).LeadsTo old msg') :
    msg'.SameGraph new :=
  ⟨h.regions.trans exchanged_computeEntityDelta, h.derivations.trans exchanged_computeEntityDelta,
    h.accesses.trans exchanged_computeEntityDelta, h.syncEdges.trans exchanged_computeEntityDelta⟩

theorem isSome_extended_of_mem_modified {V : Type} [Entity V] [DecidableEq V] {t t' : Table V}
    {order : EntityOrder} {v : V} (h : v ∈ (computeEntityDelta order t t').modified) :
    ((computeEntityDelta order t t').extended t.get (ident v)).isSome := by
  obtain ⟨u, -, hnew, -⟩ := mem_modified.1 h
  exact (isSome_extended _).2 (Option.isSome_of_eq_some hnew)

theorem hits_computeDelta : (computeDelta diffOrder old new).Hits old where
  removedRegions _ hk := (mem_removed.1 hk).1
  removedDerivations _ hk := (mem_removed.1 hk).1
  removedAccesses _ hk := (mem_removed.1 hk).1
  removedSyncEdges _ hk := (mem_removed.1 hk).1
  modifiedRegions _ hv := isSome_extended_of_mem_modified hv
  modifiedDerivations _ hv := isSome_extended_of_mem_modified hv
  modifiedAccesses _ hv := isSome_extended_of_mem_modified hv
  modifiedSyncEdges _ hv := isSome_extended_of_mem_modified hv

theorem resolves_computeDelta (hnew : new.Resolves)
    (h : ∀ k d p, old.derivations.get k = none → new.derivations.get k = some d →
      d.source = .anotherDerivation p → (old.derivations.get p).isSome) :
    (computeDelta diffOrder old new).Resolves old where
  region d hd rid hs :=
    (isSome_extended rid).2 (hnew.region _ d rid (mem_added.1 hd).2 hs)
  parent := by
    intro l₁ d l₂ hadded p hs
    have hd : d ∈ (computeDelta diffOrder old new).derivations.added := by
      rw [hadded]
      simp
    obtain ⟨hold, hget⟩ := mem_added.1 hd
    have hp := hnew.parent _ d p hget hs
    have hkept :
        ((computeDelta diffOrder old new).derivations.kept old.derivations.get p).isSome := by
      rw [computeDelta, kept_computeEntityDelta, if_pos hp]
      exact h _ d p hold hget hs
    rw [Table.overlay, Option.isSome_or, hkept, Bool.or_true]
  target a ha := (isSome_extended _).2 (hnew.target _ a (mem_added.1 ha).2)
  endpoints e he :=
    ⟨(isSome_extended _).2 (hnew.endpoints _ e (mem_added.1 he).2).1,
      (isSome_extended _).2 (hnew.endpoints _ e (mem_added.1 he).2).2⟩

/-- A derivation that is added first finds only parents of the first graph. -/
theorem isSome_of_resolves_first {k p : Nat} {d : Derivation} (hold : old.derivations.get k = none)
    (hnew : new.derivations.get k = some d) (hs : d.source = .anotherDerivation p)
    {o o' : KeyOrder Nat} {r a e : EntityOrder}
    (h : (computeDelta ⟨r, ⟨KeyOrder.id.first k, o, o'⟩, a, e⟩ old new).Resolves old) :
    (old.derivations.get p).isSome := by
  have hmem : k ∈ new.derivations.ids.filter (· ∉ old.derivations.ids) := by
    rw [List.mem_filter, Table.mem_ids, hnew]
    exact ⟨rfl, by simp [Table.mem_ids, hold]⟩
  obtain ⟨l, hl⟩ : ∃ l, (computeEntityDelta ⟨KeyOrder.id.first k, o, o'⟩ old.derivations
      new.derivations).added = [] ++ d :: l := by
    rw [computeEntityDelta, KeyOrder.first_order hmem, List.filterMap_cons, hnew]
    exact ⟨_, rfl⟩
  have hkept := h.parent [] d l hl p hs
  rw [Table.overlay_of_notMem (by simp), computeDelta, kept_computeEntityDelta] at hkept
  split_ifs at hkept
  · exact hkept
  · cases hkept

theorem touched_iff {k : RegionId} :
    (k ∈ present old.regions (computeDelta diffOrder old new).regions.removed ∨
      k ∈ ((computeDelta diffOrder old new).regions.modified.map ident).filter fun k =>
        ((computeDelta diffOrder old new).regions.extended old.regions.get k).isSome) ↔
      (old.regions.get k).isSome ∧ old.regions.get k ≠ new.regions.get k := by
  rw [mem_present, List.mem_filter, List.mem_map]
  constructor
  · rintro (⟨hk, -⟩ | ⟨⟨v, hv, rfl⟩, -⟩)
    · obtain ⟨hsome, hnone⟩ := mem_removed.1 hk
      refine ⟨hsome, fun heq => ?_⟩
      rw [heq, hnone] at hsome
      cases hsome
    · obtain ⟨u, hold, hnew, hne⟩ := mem_modified.1 hv
      refine ⟨Option.isSome_of_eq_some hold, fun heq => hne ?_⟩
      rw [hold, hnew] at heq
      exact Option.some.inj heq
  · rintro ⟨hsome, hne⟩
    cases hnew : new.regions.get k with
    | none => exact .inl ⟨mem_removed.2 ⟨hsome, hnew⟩, hsome⟩
    | some v =>
      obtain ⟨u, hold⟩ := Option.isSome_iff_exists.1 hsome
      obtain rfl := Table.ident_of_get hnew
      have hv : v ∈ (computeDelta diffOrder old new).regions.modified := by
        refine mem_modified.2 ⟨u, hold, hnew, fun heq => hne ?_⟩
        rw [hold, hnew, heq]
      exact .inr ⟨⟨v, hv, rfl⟩, isSome_extended_of_mem_modified hv⟩

theorem changed_iff {k : DerivationId} :
    k ∈ ((computeDelta diffOrder old new).derivations.modified.map ident).filter (fun k =>
        ((computeDelta diffOrder old new).derivations.extended old.derivations.get k).isSome) ↔
      ∃ d e, old.derivations.get k = some d ∧ new.derivations.get k = some e ∧ d ≠ e := by
  rw [List.mem_filter, List.mem_map]
  constructor
  · rintro ⟨⟨e, he, rfl⟩, -⟩
    obtain ⟨d, hold, hnew, hne⟩ := mem_modified.1 he
    exact ⟨d, e, hold, hnew, hne⟩
  · rintro ⟨d, e, hold, hnew, hne⟩
    obtain rfl := Table.ident_of_get hnew
    have he : e ∈ (computeDelta diffOrder old new).derivations.modified :=
      mem_modified.2 ⟨d, hold, hnew, hne⟩
    exact ⟨⟨e, he, rfl⟩, isSome_extended_of_mem_modified he⟩

theorem removed_iff {k : DerivationId} :
    k ∈ present old.derivations (computeDelta diffOrder old new).derivations.removed ↔
      (old.derivations.get k).isSome ∧ new.derivations.get k = none := by
  rw [mem_present, computeDelta, mem_removed]
  exact and_iff_left_of_imp fun h => h.1

end Patch

/-- The run of the patch up to the propagation. -/
theorem applyDelta_computeDelta (diffOrder : DeltaOrder) (order : ApplyOrder) (old new : MSG) :
    ∃ msg' removedRegions removedDerivations pre, msg'.SameGraph new ∧
      (∀ o, applyDelta { order with derivations := o } old (computeDelta diffOrder old new) =
        (propagate { order with derivations := o } msg' removedRegions removedDerivations pre).map
          fun r => (msg', r)) ∧
      (PropagationEnds msg' (fun k => k ∈ removedRegions ∨ k ∈ pre.invalidatedRegions)
        (· ∈ removedDerivations) (· ∈ pre.recomputedDerivations) ↔
          PropagationEnds new
            (fun k => (old.regions.get k).isSome ∧ old.regions.get k ≠ new.regions.get k)
            (fun k => (old.derivations.get k).isSome ∧ new.derivations.get k = none)
            (fun k => ∃ d e, old.derivations.get k = some d ∧ new.derivations.get k = some e ∧
              d ≠ e)) ∧
      (pre.warnings = [] ↔ (computeDelta diffOrder old new).Resolves old) := by
  obtain ⟨msg', pre, hleads, hrun, hinv, hrec, hwarn⟩ :=
    applyDelta_of_fresh (fresh_computeDelta diffOrder old new) order
  have hsame := sameGraph_of_leadsTo hleads
  refine ⟨msg', _, _, pre, hsame, hrun, ?_, hwarn hits_computeDelta⟩
  rw [hinv, hrec]
  exact ⟨PropagationEnds.congr hsame (fun _ => touched_iff) (fun _ => removed_iff)
      (fun _ => changed_iff),
    PropagationEnds.congr hsame.symm (fun _ => touched_iff.symm) (fun _ => removed_iff.symm)
      (fun _ => changed_iff.symm)⟩

section Restores

variable {old new : MSG}

theorem isSome_parent_of_patchRestores
    (h : ∀ diffOrder order, PatchRestores diffOrder order old new) (hres : new.Resolves)
    {k p : Nat} {d : Derivation} (hold : old.derivations.get k = none)
    (hnew : new.derivations.get k = some d) (hs : d.source = .anotherDerivation p) :
    (old.derivations.get p).isSome := by
  -- the derivation comes first among the added ones
  let anyOrder : EntityOrder := ⟨.id, .id, .id⟩
  let diffOrder : DeltaOrder := ⟨anyOrder, ⟨KeyOrder.id.first k, .id, .id⟩, anyOrder, anyOrder⟩
  let order : ApplyOrder := ⟨.id, .id, .id, .id, .id, .id⟩
  obtain ⟨msg', removedRegions, removedDerivations, pre, -, hrun, -, hpre⟩ :=
    applyDelta_computeDelta diffOrder order old new
  obtain ⟨msg'', result, happly, -, hwarn⟩ := h diffOrder order
  rw [hrun .id, Option.map_eq_some_iff] at happly
  obtain ⟨result', hprop, heq⟩ := happly
  cases heq
  refine isSome_of_resolves_first hold hnew hs (hpre.1 ?_)
  rw [← propagate_warnings hprop]
  exact hwarn hres

theorem propagationEnds_of_patchRestores
    (h : ∀ diffOrder order, PatchRestores diffOrder order old new) :
    PropagationEnds new
      (fun k => (old.regions.get k).isSome ∧ old.regions.get k ≠ new.regions.get k)
      (fun k => (old.derivations.get k).isSome ∧ new.derivations.get k = none)
      (fun k => ∃ d e, old.derivations.get k = some d ∧ new.derivations.get k = some e ∧
        d ≠ e) := by
  let anyOrder : EntityOrder := ⟨.id, .id, .id⟩
  let diffOrder : DeltaOrder := ⟨anyOrder, anyOrder, anyOrder, anyOrder⟩
  let order : ApplyOrder := ⟨.id, .id, .id, .id, .id, .id⟩
  obtain ⟨msg', removedRegions, removedDerivations, pre, -, hrun, hends, -⟩ :=
    applyDelta_computeDelta diffOrder order old new
  refine hends.1 (propagationEnds_of_isSome order fun o => ?_)
  obtain ⟨msg'', result, happly, -, -⟩ := h diffOrder { order with derivations := o }
  rw [hrun o, Option.map_eq_some_iff] at happly
  obtain ⟨result', hprop, -⟩ := happly
  exact Option.isSome_of_eq_some hprop

theorem Patchable.patchRestores (h : Patchable old new) (diffOrder : DeltaOrder)
    (order : ApplyOrder) : PatchRestores diffOrder order old new := by
  obtain ⟨msg', removedRegions, removedDerivations, pre, hsame, hrun, hends, hpre⟩ :=
    applyDelta_computeDelta diffOrder order old new
  obtain ⟨result, hprop⟩ := Option.isSome_iff_exists.1 ((hends.2 h.ends).propagate_isSome order)
  refine ⟨msg', result, ?_, hsame, fun hres => ?_⟩
  · have happly := hrun order.derivations
    rw [hprop] at happly
    exact happly
  · rw [propagate_warnings hprop]
    exact hpre.2 (resolves_computeDelta hres (h.parents hres))

end Restores

/-- Patching with the delta of two graphs restores the second, for every order of the hash maps,
exactly if the two are patchable. -/
theorem patchRestores_iff (old new : MSG) :
    (∀ diffOrder order, PatchRestores diffOrder order old new) ↔ Patchable old new := by
  constructor
  · intro h
    refine ⟨fun hres k d p hold hnew hs => ?_, propagationEnds_of_patchRestores h⟩
    exact isSome_parent_of_patchRestores h hres hold hnew hs
  · intro h diffOrder order
    exact h.patchRestores diffOrder order

/-- The start of the heap. -/
def heapRegion : Region :=
  ⟨1, 4096, 512, .allocated, ⟨"main.vu", 1, 1, none⟩, none, none⟩

/-- A pointer to it. -/
def heapPointer : Derivation := ⟨10, .region 1, .direct, (4096, 4608)⟩

/-- A pointer at an offset from the first. -/
def offsetPointer : Derivation := ⟨20, .anotherDerivation 10, .offset 64, (4160, 4352)⟩

/-- A graph with one region and no pointers. -/
def bareGraph : MSG := ⟨.ofList [heapRegion], ∅, ∅, ∅⟩

/-- The same region with both pointers. -/
def offsetGraph : MSG := { bareGraph with derivations := .ofList [heapPointer, offsetPointer] }

theorem eq_of_offsetGraph {k : Nat} {d : Derivation} (h : offsetGraph.derivations.get k = some d) :
    d = offsetPointer ∨ d = heapPointer := by
  have hvalues : offsetGraph.derivations.values = [offsetPointer, heapPointer] := by decide
  have hmem := Table.mem_values h
  rw [hvalues] at hmem
  simpa only [List.mem_cons, List.not_mem_nil, or_false] using hmem

theorem resolves_offsetGraph : offsetGraph.Resolves where
  region k d rid h hs := by
    rcases eq_of_offsetGraph h with rfl | rfl
    · cases hs
    · cases hs
      rfl
  parent k d p h hs := by
    rcases eq_of_offsetGraph h with rfl | rfl
    · cases hs
      rfl
    · cases hs
  target k a h := by cases h
  endpoints k e h := by cases h

/-- When the pointer at an offset is added before the one it comes from, there is a warning. -/
theorem not_patchRestores_offsetGraph :
    ¬ ∀ diffOrder order, PatchRestores diffOrder order bareGraph offsetGraph := by
  intro h
  have hsome := isSome_parent_of_patchRestores (d := offsetPointer) (k := 20) (p := 10) h
    resolves_offsetGraph rfl rfl rfl
  cases hsome

end Vuma.Msg
