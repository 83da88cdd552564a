import Vuma.Lib.KeyedFold
import Vuma.Scg.Content
import Vuma.Scg.Diff

/-!
# Applying a difference

Applied to the old graph, the difference of two graphs gives the new one exactly if no node with an
edge is removed, no edge is added at a new node, and no edge gets other ends. Entries are applied to
contents; a valid graph follows its content.
-/

namespace Vuma.Scg

open Lib

/-! ## Entries on contents -/

/-- What an entry does to a content; `none` when it cannot be applied. -/
def Content.applyEntry (c : Content) : DiffEntry → Option Content
  | .nodeRemoved id =>
    if (c.nodes id).isSome then
      some { c with
        nodes := Function.update c.nodes id none
        edges := fun e => (c.edges e).filter fun d => d.source ≠ id ∧ d.target ≠ id }
    else none
  | .nodeAdded data =>
    if (c.nodes data.id).isNone then
      some { c with nodes := Function.update c.nodes data.id (some data) }
    else none
  | .nodeModified id _ new =>
    if (c.nodes id).isSome then
      some { c with nodes := Function.update c.nodes id (some { new with id }) }
    else none
  | .edgeRemoved id =>
    if (c.edges id).isSome then some { c with edges := Function.update c.edges id none } else none
  | .edgeAdded data =>
    if (c.edges data.id).isNone ∧ (c.nodes data.source).isSome ∧ (c.nodes data.target).isSome then
      some { c with edges := Function.update c.edges data.id (some data) }
    else none
  | .edgeModified id _ new =>
    if (c.edges id).isSome then
      some { c with
        edges := Function.update c.edges id
          ((c.edges id).map fun d => { d with kind := new.kind, label := new.label }) }
    else none
  | .regionRemoved id => some { c with regions := Function.update c.regions id none }
  | .regionAdded data =>
    if (c.regions data.id).isNone then
      some { c with regions := Function.update c.regions data.id (some data) }
    else none
  | .regionModified id _ new =>
    if (c.regions id).isSome then
      some { c with regions := Function.update c.regions id (some { new with id }) }
    else none

/-- The identifier of an added element is not the last `u64`. -/
def DiffEntry.Fits : DiffEntry → Prop
  | .nodeAdded data => data.id.toNat < 2 ^ 64 - 1
  | .edgeAdded data => data.id.toNat < 2 ^ 64 - 1
  | _ => True

/-- A result for a graph that agrees with the one for its content. -/
inductive Follows : Outcome DiffError SCG → Option Content → Prop
  | ok {g : SCG} (hg : g.Valid) : Follows (.ok g) (some g.content)
  | err (e : DiffError) : Follows (.err e) none

theorem Follows.of_ok {g : SCG} {c : Option Content} (h : Follows (.ok g) c) :
    c = some g.content := by
  cases h
  rfl

theorem Follows.of_some {o : Outcome DiffError SCG} {c : Content} (h : Follows o (some c)) :
    ∃ g, o = .ok g ∧ g.content = c := by
  cases h with
  | ok hg => exact ⟨_, rfl, rfl⟩

namespace SCG

variable {g : SCG}

theorem follows_ok {g' : SCG} {c : Content} (hg : g'.Valid) (h : g'.content = c) :
    Follows (.ok g') (some c) := h ▸ .ok hg

theorem Valid.follows_nodeAdded (hg : g.Valid) {data : NodeData}
    (h : data.id.toNat < 2 ^ 64 - 1) :
    Follows (applyEntry g (.nodeAdded data)) (g.content.applyEntry (.nodeAdded data)) := by
  cases hid : g.getNode data.id with
  | some old =>
    simp only [applyEntry, Content.applyEntry, content, hid]
    exact .err _
  | none =>
    have hg' := hg.addNodeWithId data.nodeType data.payload data.programPoint fun
      _ : (g.addNodeWithId data.id data.nodeType data.payload data.programPoint).1 = .ok data.id => h
    obtain ⟨hok, hcontent⟩ := content_addNodeWithId hg hid data.nodeType data.payload
      data.programPoint h
    simp only [applyEntry, Content.applyEntry, content, hid, mapErr, hok, Outcome.ok_bind]
    generalize (g.addNodeWithId data.id data.nodeType data.payload data.programPoint).2 = g' at *
    obtain ⟨id, t, ann, pp, p⟩ := data
    cases ann with
    | none => exact follows_ok hg' hcontent
    | some ann =>
      have hget : g'.getNode id = some ⟨id, t, none, pp, p⟩ := by
        have := congrArg (fun c => c.nodes id) hcontent
        simpa [content] using this
      refine follows_ok (hg'.modifyNode id ?_) ?_
      · exact fun _ => rfl
      · have hnodes : g'.getNode = _ := congrArg Content.nodes hcontent
        refine (content_modifyNode hg' hget ?_).trans ?_
        · exact fun _ => rfl
        · rw [hcontent, hnodes]
          simp [content]

theorem Valid.follows_edgeAdded (hg : g.Valid) {data : EdgeData}
    (h : data.id.toNat < 2 ^ 64 - 1) :
    Follows (applyEntry g (.edgeAdded data)) (g.content.applyEntry (.edgeAdded data)) := by
  cases hid : g.getEdge data.id with
  | some old =>
    simp only [applyEntry, Content.applyEntry, content, hid]
    exact .err _
  | none =>
    cases hs : g.getNode data.source with
    | none =>
      simp only [applyEntry, Content.applyEntry, content, hid, hs]
      exact .err _
    | some s =>
      cases ht : g.getNode data.target with
      | none =>
        simp only [applyEntry, Content.applyEntry, content, hid, hs, ht]
        exact .err _
      | some t =>
        have hg' := hg.addEdgeWithId data.id data.source data.target data.kind fun _ => h
        obtain ⟨hok, hcontent⟩ := content_addEdgeWithId hg hid
          (Option.isSome_of_eq_some hs) (Option.isSome_of_eq_some ht) data.kind h
        simp only [applyEntry, Content.applyEntry, content, hid, hs, ht, mapErr, hok,
          Outcome.ok_bind]
        generalize (g.addEdgeWithId data.id data.source data.target data.kind).2 = g' at *
        obtain ⟨id, source, target, kind, label⟩ := data
        cases label with
        | none => exact follows_ok hg' hcontent
        | some label =>
          have hget : g'.getEdge id = some ⟨id, source, target, kind, none⟩ := by
            have := congrArg (fun c => c.edges id) hcontent
            simpa [content] using this
          refine follows_ok (hg'.modifyEdge id ?_) ?_
          · exact fun _ => ⟨rfl, rfl, rfl⟩
          · have hedges : g'.getEdge = _ := congrArg Content.edges hcontent
            refine (content_modifyEdge hg' hget ?_).trans ?_
            · exact fun _ => ⟨rfl, rfl, rfl⟩
            · rw [hcontent, hedges]
              simp [content]

/-- A valid graph follows its content through an entry. -/
theorem Valid.follows (hg : g.Valid) {entry : DiffEntry} (h : entry.Fits) :
    Follows (Scg.applyEntry g entry) (g.content.applyEntry entry) := by
  cases entry with
  | nodeAdded data => exact hg.follows_nodeAdded h
  | edgeAdded data => exact hg.follows_edgeAdded h
  | nodeRemoved id =>
    cases hid : g.getNode id with
    | none =>
      simp only [applyEntry, removeNode_eq_err hg hid, Content.applyEntry, content, hid, mapErr]
      exact .err _
    | some data =>
      obtain ⟨⟨d, hok⟩, hcontent⟩ := content_removeNode hg (Option.isSome_of_eq_some hid)
      simp only [applyEntry, Content.applyEntry, mapErr, hok, content, hid]
      exact follows_ok (hg.removeNode id) hcontent
  | nodeModified id old new =>
    cases hid : g.getNode id with
    | none =>
      simp only [applyEntry, Content.applyEntry, content, hid]
      exact .err _
    | some data =>
      have hdata := hg.getNode_id hid
      simp only [applyEntry, Content.applyEntry, content, hid]
      refine follows_ok (hg.modifyNode id ?_) ?_
      · exact fun _ => rfl
      · refine (content_modifyNode hg hid ?_).trans ?_
        · exact fun _ => rfl
        · rw [hdata]
          rfl
  | edgeRemoved id =>
    cases hid : g.getEdge id with
    | none =>
      simp only [applyEntry, removeEdge_eq_err hg hid, Content.applyEntry, content, hid, mapErr]
      exact .err _
    | some data =>
      obtain ⟨⟨d, hok⟩, hcontent⟩ := content_removeEdge hg (Option.isSome_of_eq_some hid)
      simp only [applyEntry, Content.applyEntry, mapErr, hok, content, hid]
      exact follows_ok (hg.removeEdge id) hcontent
  | edgeModified id old new =>
    cases hid : g.getEdge id with
    | none =>
      simp only [applyEntry, Content.applyEntry, content, hid]
      exact .err _
    | some data =>
      simp only [applyEntry, Content.applyEntry, content, hid]
      refine follows_ok (hg.modifyEdge id ?_) ?_
      · exact fun _ => ⟨rfl, rfl, rfl⟩
      · exact content_modifyEdge hg hid fun _ => ⟨rfl, rfl, rfl⟩
  | regionRemoved id => exact follows_ok (hg.removeRegion id) (content_removeRegion id)
  | regionAdded data =>
    cases hid : g.getRegion data.id with
    | some old =>
      simp only [applyEntry, Content.applyEntry, content, hid]
      exact .err _
    | none =>
      simp only [applyEntry, Content.applyEntry, content, hid]
      exact follows_ok (hg.addRegion data) (content_addRegion data)
  | regionModified id old new =>
    cases hid : g.getRegion id with
    | none =>
      simp only [applyEntry, Content.applyEntry, content, hid]
      exact .err _
    | some region =>
      simp only [applyEntry, Content.applyEntry, content, hid]
      exact follows_ok (hg.updateRegion id new) (content_updateRegion hg hid new)

theorem Valid.follows_foldlM (hg : g.Valid) {entries : List DiffEntry}
    (h : ∀ entry ∈ entries, entry.Fits) :
    Follows (applyDiff g entries) (entries.foldlM Content.applyEntry g.content) := by
  induction entries generalizing g with
  | nil => exact .ok hg
  | cons entry entries ih =>
    rw [applyDiff, List.foldlM_cons, List.foldlM_cons]
    have hfirst := hg.follows (h entry List.mem_cons_self)
    generalize Scg.applyEntry g entry = o at hfirst
    generalize g.content.applyEntry entry = c at hfirst
    cases hfirst with
    | err e => exact .err e
    | ok hg' => exact ih hg' fun entry' h' => h entry' (List.mem_cons_of_mem _ h')

end SCG

/-! ## The entries of a difference -/

/-- The entries for the elements of one sort. -/
structure FamilyDiff (α : Type) where
  removed : List UInt64
  modified : List (UInt64 × α × α)
  added : List α

/-- The entries lead from one family of elements to another: every element that is only in the
first is removed once, and so on. -/
structure FamilyDiff.Spec {α : Type} (f : FamilyDiff α) (idOf : α → UInt64)
    (old new : UInt64 → Option α) : Prop where
  removed_nodup : f.removed.Nodup
  modified_nodup : (f.modified.map Prod.fst).Nodup
  added_nodup : (f.added.map idOf).Nodup
  mem_removed : ∀ id, id ∈ f.removed ↔ (old id).isSome ∧ new id = none
  mem_modified : ∀ id o n, (id, o, n) ∈ f.modified ↔ old id = some o ∧ new id = some n ∧ o ≠ n
  mem_added : ∀ d, d ∈ f.added ↔ new (idOf d) = some d ∧ old (idOf d) = none

section Entries

variable {ε α : Type} {old new : UInt64 → Option α} {ids : List UInt64}

theorem modifiedEntries_cons [DecidableEq α] (entry : UInt64 → α → α → DiffEntry) (id : UInt64) :
    modifiedEntries (ε := ε) entry old new (id :: ids) =
      (do
        let o ← Outcome.unwrap (old id)
        let n ← Outcome.unwrap (new id)
        let rest ← modifiedEntries entry old new ids
        pure ((if o ≠ n then [entry id o n] else []) ++ rest)) := by
  simp only [modifiedEntries, List.mapM_cons, bind_assoc, pure_bind, List.flatten_cons]

theorem modifiedEntries_eq [DecidableEq α] (entry : UInt64 → α → α → DiffEntry)
    (hids : ∀ id ∈ ids, (old id).isSome ∧ (new id).isSome) (hnodup : ids.Nodup) :
    ∃ T : List (UInt64 × α × α),
      modifiedEntries (ε := ε) entry old new ids = .ok (T.map fun t => entry t.1 t.2.1 t.2.2) ∧
      (T.map Prod.fst).Sublist ids ∧
      ∀ id o n, (id, o, n) ∈ T ↔ id ∈ ids ∧ old id = some o ∧ new id = some n ∧ o ≠ n := by
  induction ids with
  | nil => exact ⟨[], rfl, .slnil, by simp⟩
  | cons id ids ih =>
    obtain ⟨hid, hnodup⟩ := List.nodup_cons.1 hnodup
    obtain ⟨T, hT, hsub, hmem⟩ := ih (fun i hi => hids i (List.mem_cons_of_mem _ hi)) hnodup
    obtain ⟨ho, hn⟩ := hids id List.mem_cons_self
    obtain ⟨o, ho⟩ := Option.isSome_iff_exists.1 ho
    obtain ⟨n, hn⟩ := Option.isSome_iff_exists.1 hn
    refine ⟨(if o ≠ n then [(id, o, n)] else []) ++ T, ?_, ?_, ?_⟩
    · rw [modifiedEntries_cons, ho, hn, hT]
      show Outcome.ok _ = _
      rw [List.map_append]
      split_ifs <;> rfl
    · split_ifs
      · exact hsub.cons_cons id
      · exact hsub.cons id
    · intro id' o' n'
      rw [List.mem_append, hmem, List.mem_cons]
      by_cases heq : id' = id
      · subst heq
        rw [ho, hn]
        constructor
        · rintro (hin | ⟨hin, -⟩)
          · split_ifs at hin with hne
            · obtain ⟨-, rfl, rfl⟩ : id' = id' ∧ o' = o ∧ n' = n := by simpa using hin
              exact ⟨.inl rfl, rfl, rfl, hne⟩
            · cases hin
          · exact absurd hin hid
        · rintro ⟨-, ho', hn', hne⟩
          cases ho'
          cases hn'
          rw [if_pos hne]
          exact .inl List.mem_cons_self
      · split_ifs <;> simp [heq]

theorem addedEntries_eq (entry : α → DiffEntry) {idOf : α → UInt64}
    (hidOf : ∀ id d, new id = some d → idOf d = id) (hids : ∀ id ∈ ids, (new id).isSome) :
    ∃ A : List α, addedEntries (ε := ε) entry new ids = .ok (A.map entry) ∧
      A.map idOf = ids ∧ ∀ d ∈ A, new (idOf d) = some d := by
  induction ids with
  | nil => exact ⟨[], rfl, rfl, by simp⟩
  | cons id ids ih =>
    obtain ⟨A, hA, hmap, hmem⟩ := ih fun i hi => hids i (List.mem_cons_of_mem _ hi)
    obtain ⟨d, hd⟩ := Option.isSome_iff_exists.1 (hids id List.mem_cons_self)
    have hid := hidOf id d hd
    refine ⟨d :: A, ?_, by rw [List.map_cons, hmap, hid], ?_⟩
    · rw [addedEntries] at hA ⊢
      rw [List.mapM_cons, hA, hd]
      rfl
    · intro d' hd'
      obtain rfl | hd' := List.mem_cons.1 hd'
      · rw [hid, hd]
      · exact hmem d' hd'

end Entries

/-- The identifiers of the regions are the keys they stand under. -/
theorem SCG.Valid.mem_regionIds {g : SCG} (hg : g.Valid) {id : RegionId} :
    id ∈ g.regionIds ↔ (g.getRegion id).isSome := by
  rw [SCG.regionIds, List.mem_dedup, List.mem_map, Option.isSome_iff_exists]
  constructor
  · rintro ⟨⟨k, r⟩, hr, rfl⟩
    have hr : g.getRegion k = some r := AList.mem_lookup_iff.2 hr
    have hk : r.id = k := hg.regions k r hr
    exact ⟨r, hk ▸ hr⟩
  · rintro ⟨r, hr⟩
    exact ⟨⟨id, r⟩, AList.mem_lookup_iff.1 hr, hg.regions id r hr⟩

/-- The elements of one sort in the order in which the loops find them. -/
theorem familyDiff_exists {ε α : Type} [DecidableEq α] (it : Iteration) (i j k : Nat)
    (entry : UInt64 → α → α → DiffEntry) (entry' : α → DiffEntry) {idOf : α → UInt64}
    {old new : UInt64 → Option α} (hidOf : ∀ id d, new id = some d → idOf d = id)
    {oldIds newIds : List UInt64} (hold : oldIds.Nodup) (hnew : newIds.Nodup)
    (hmem : ∀ id, id ∈ oldIds ↔ (old id).isSome) (hmem' : ∀ id, id ∈ newIds ↔ (new id).isSome) :
    ∃ f : FamilyDiff α, f.Spec idOf old new ∧ it.order i (onlyIn oldIds newIds) = f.removed ∧
      modifiedEntries (ε := ε) entry old new (it.order j (inBoth oldIds newIds)) =
        .ok (f.modified.map fun t => entry t.1 t.2.1 t.2.2) ∧
      addedEntries (ε := ε) entry' new (it.order k (onlyIn newIds oldIds)) =
        .ok (f.added.map entry') := by
  have hboth : ∀ id, id ∈ it.order j (inBoth oldIds newIds) ↔
      (old id).isSome ∧ (new id).isSome := by
    intro id
    rw [(it.perm _ _).mem_iff, inBoth, List.mem_filter, decide_eq_true_eq, hmem, hmem']
  have honly : ∀ id, id ∈ it.order k (onlyIn newIds oldIds) ↔ (new id).isSome ∧ old id = none := by
    intro id
    rw [(it.perm _ _).mem_iff, onlyIn, List.mem_filter, decide_eq_true_eq, hmem', hmem,
      Option.not_isSome_iff_eq_none]
  obtain ⟨T, hT, hsub, hmemT⟩ := modifiedEntries_eq (ε := ε) entry (fun id h => (hboth id).1 h)
    ((it.perm j _).nodup_iff.2 (hold.filter _))
  obtain ⟨A, hA, hmap, hmemA⟩ := addedEntries_eq (ε := ε) entry' hidOf
    fun id h => ((honly id).1 h).1
  refine ⟨⟨it.order i (onlyIn oldIds newIds), T, A⟩, ⟨?_, ?_, ?_, ?_, ?_, ?_⟩, rfl, hT, hA⟩
  · exact (it.perm i _).nodup_iff.2 (hold.filter _)
  · exact ((it.perm j _).nodup_iff.2 (hold.filter _)).sublist hsub
  · rw [hmap]
    exact (it.perm k _).nodup_iff.2 (hnew.filter _)
  · intro id
    rw [(it.perm _ _).mem_iff, onlyIn, List.mem_filter, decide_eq_true_eq, hmem, hmem',
      Option.not_isSome_iff_eq_none]
  · intro id o n
    rw [hmemT, hboth]
    constructor
    · exact fun h => h.2
    · rintro ⟨ho, hn, hne⟩
      exact ⟨⟨by simp [ho], by simp [hn]⟩, ho, hn, hne⟩
  · intro d
    constructor
    · intro hd
      have hid : idOf d ∈ it.order k (onlyIn newIds oldIds) := hmap ▸ List.mem_map_of_mem hd
      exact ⟨hmemA d hd, ((honly _).1 hid).2⟩
    · rintro ⟨hn, ho⟩
      have hid := (honly (idOf d)).2 ⟨by simp [hn], ho⟩
      obtain ⟨d', hd', hid'⟩ := List.mem_map.1 (hmap.symm ▸ hid)
      have := hmemA d' hd'
      rw [hid', hn] at this
      cases this
      exact hd'

/-- The entries in the order of `diff_scg`. -/
def diffEntries (nodes : FamilyDiff NodeData) (edges : FamilyDiff EdgeData)
    (regions : FamilyDiff SCGRegion) : List DiffEntry :=
  nodes.removed.map .nodeRemoved ++ nodes.modified.map (fun t => .nodeModified t.1 t.2.1 t.2.2) ++
    edges.removed.map .edgeRemoved ++ edges.modified.map (fun t => .edgeModified t.1 t.2.1 t.2.2) ++
    regions.removed.map .regionRemoved ++
    regions.modified.map (fun t => .regionModified t.1 t.2.1 t.2.2) ++
    regions.added.map .regionAdded ++ edges.added.map .edgeAdded ++ nodes.added.map .nodeAdded

theorem diffScg_eq {ε : Type} (it : Iteration) {old new : SCG} (hold : old.Valid)
    (hnew : new.Valid) :
    ∃ nodes edges regions, diffScg (ε := ε) it old new = .ok (diffEntries nodes edges regions) ∧
      nodes.Spec NodeData.id old.getNode new.getNode ∧
      edges.Spec EdgeData.id old.getEdge new.getEdge ∧
      regions.Spec SCGRegion.id old.getRegion new.getRegion := by
  obtain ⟨nodes, hnodes, hnr, hnm, hna⟩ := familyDiff_exists (ε := ε) it 0 1 8 .nodeModified
    .nodeAdded (fun _ _ => hnew.getNode_id) (AList.keys_nodup _) (AList.keys_nodup _)
    (fun _ => hold.mem_nodeKeys)
    (fun _ => hnew.mem_nodeKeys)
  obtain ⟨edges, hedges, her, hem, hea⟩ := familyDiff_exists (ε := ε) it 2 3 7 .edgeModified
    .edgeAdded (fun _ _ => hnew.getEdge_id) (AList.keys_nodup _) (AList.keys_nodup _)
    (fun _ => hold.mem_edgeKeys)
    (fun _ => hnew.mem_edgeKeys)
  obtain ⟨regions, hregions, hrr, hrm, hra⟩ := familyDiff_exists (ε := ε) it 4 5 6 .regionModified
    .regionAdded hnew.regions (List.nodup_dedup _) (List.nodup_dedup _) (fun _ => hold.mem_regionIds)
    (fun _ => hnew.mem_regionIds)
  refine ⟨nodes, edges, regions, ?_, hnodes, hedges, hregions⟩
  simp only [diffScg, SCG.nodeIds, SCG.edgeIds, SCG.regionIds]
  rw [hnr, hnm, hna, her, hem, hea, hrr, hrm, hra]
  rfl

/-! ## The entries of one kind, one after another -/

namespace Content

def nodesField : MapField Content NodeId NodeData :=
  ⟨nodes, fun c nodes => { c with nodes }, fun _ _ => rfl, fun _ _ _ => rfl, fun _ => rfl⟩

def edgesField : MapField Content EdgeId EdgeData :=
  ⟨edges, fun c edges => { c with edges }, fun _ _ => rfl, fun _ _ _ => rfl, fun _ => rfl⟩

def regionsField : MapField Content RegionId SCGRegion :=
  ⟨regions, fun c regions => { c with regions }, fun _ _ => rfl, fun _ _ _ => rfl, fun _ => rfl⟩

variable {c c' : Content}

/-- Removing nodes takes away the edges at all of them. -/
theorem foldlM_nodeRemoved {l : List NodeId} (hl : l.Nodup) :
    (l.map DiffEntry.nodeRemoved).foldlM applyEntry c = some c' ↔
      (∀ id ∈ l, (c.nodes id).isSome) ∧ c' = { c with
        nodes := fun k => if k ∈ l then none else c.nodes k
        edges := fun e => (c.edges e).filter fun d => d.source ∉ l ∧ d.target ∉ l } := by
  induction l generalizing c with
  | nil =>
    have hfilter : ∀ o : Option EdgeData, (o.filter fun _ => true) = o := by
      intro o
      cases o <;> rfl
    simp only [List.map_nil, List.foldlM_nil, List.not_mem_nil, not_false_eq_true, and_self,
      decide_true, hfilter, false_implies, implies_true, true_and, if_false]
    exact ⟨fun h => (Option.some.inj h).symm, fun h => congrArg some h.symm⟩
  | cons id l ih =>
    obtain ⟨hid, hl⟩ := List.nodup_cons.1 hl
    rw [List.map_cons, List.foldlM_cons, applyEntry]
    by_cases hc : (c.nodes id).isSome
    · rw [if_pos hc, Option.bind_eq_bind, Option.bind_some, ih hl]
      have hnodes : (fun k => if k ∈ l then none else Function.update c.nodes id none k) =
          fun k => if k ∈ id :: l then none else c.nodes k := by
        funext k
        by_cases hk : k = id <;> simp [hk]
      have hedges : (fun e => ((c.edges e).filter fun d => d.source ≠ id ∧ d.target ≠ id).filter
          fun d => d.source ∉ l ∧ d.target ∉ l) =
          fun e => (c.edges e).filter fun d => d.source ∉ id :: l ∧ d.target ∉ id :: l := by
        funext e
        rw [Option.filter_filter]
        refine congrArg (fun p => (c.edges e).filter p) (funext fun d => ?_)
        simp only [List.mem_cons, not_or, ← Bool.decide_and]
        exact decide_eq_decide.2 (by tauto)
      simp only [hnodes, hedges]
      refine and_congr_left fun _ => ?_
      constructor
      · intro h k hk
        obtain rfl | hk := List.mem_cons.1 hk
        · exact hc
        · have hne : k ≠ id := fun heq => hid (heq ▸ hk)
          simpa [hne] using h k hk
      · intro h k hk
        have hne : k ≠ id := fun heq => hid (heq ▸ hk)
        simpa [hne] using h k (List.mem_cons_of_mem id hk)
    · rw [if_neg hc]
      simp only [Option.bind_eq_bind, Option.bind_none, reduceCtorEq, false_iff]
      exact fun h => hc (h.1 id List.mem_cons_self)

theorem foldlM_nodeModified {l : List (NodeId × NodeData × NodeData)}
    (hl : (l.map Prod.fst).Nodup) :
    (l.map fun t => DiffEntry.nodeModified t.1 t.2.1 t.2.2).foldlM applyEntry c = some c' ↔
      (∀ t ∈ l, (c.nodes t.1).isSome) ∧ ∃ nodes, c' = { c with nodes } ∧
        (∀ t ∈ l, nodes t.1 = some { t.2.2 with id := t.1 }) ∧
        ∀ k, k ∉ l.map Prod.fst → nodes k = c.nodes k := by
  rw [List.foldlM_map]
  exact foldlM_keyed_iff nodesField (fun _ => True) Prod.fst (fun _ o => o.isSome)
    (fun t _ => some { t.2.2 with id := t.1 }) (fun _ _ h => h)
    (fun _ _ _ h => if_neg h) (fun _ _ _ h => if_pos h) hl trivial

theorem foldlM_nodeAdded {l : List NodeData} (hl : (l.map NodeData.id).Nodup) :
    (l.map DiffEntry.nodeAdded).foldlM applyEntry c = some c' ↔
      (∀ d ∈ l, (c.nodes d.id).isNone) ∧ ∃ nodes, c' = { c with nodes } ∧
        (∀ d ∈ l, nodes d.id = some d) ∧ ∀ k, k ∉ l.map NodeData.id → nodes k = c.nodes k := by
  rw [List.foldlM_map]
  exact foldlM_keyed_iff nodesField (fun _ => True) NodeData.id (fun _ o => o.isNone)
    (fun d _ => some d)
    (fun _ _ h => h) (fun _ _ _ h => if_neg h) (fun _ _ _ h => if_pos h) hl trivial

theorem foldlM_edgeRemoved {l : List EdgeId} (hl : l.Nodup) :
    (l.map DiffEntry.edgeRemoved).foldlM applyEntry c = some c' ↔
      (∀ id ∈ l, (c.edges id).isSome) ∧ ∃ edges, c' = { c with edges } ∧
        (∀ id ∈ l, edges id = none) ∧ ∀ k, k ∉ l → edges k = c.edges k := by
  rw [List.foldlM_map]
  refine (foldlM_keyed_iff edgesField (fun _ => True) (fun id => id) (fun _ o => o.isSome)
    (fun _ _ => none) (fun _ _ h => h) (fun _ _ _ h => if_neg h) (fun _ _ _ h => if_pos h)
    (by rwa [List.map_id']) trivial).trans ?_
  rw [List.map_id']
  rfl

theorem foldlM_edgeModified {l : List (EdgeId × EdgeData × EdgeData)}
    (hl : (l.map Prod.fst).Nodup) :
    (l.map fun t => DiffEntry.edgeModified t.1 t.2.1 t.2.2).foldlM applyEntry c = some c' ↔
      (∀ t ∈ l, (c.edges t.1).isSome) ∧ ∃ edges, c' = { c with edges } ∧
        (∀ t ∈ l, edges t.1 =
          (c.edges t.1).map fun d => { d with kind := t.2.2.kind, label := t.2.2.label }) ∧
        ∀ k, k ∉ l.map Prod.fst → edges k = c.edges k := by
  rw [List.foldlM_map]
  exact foldlM_keyed_iff edgesField (fun _ => True) Prod.fst (fun _ o => o.isSome)
    (fun t o => o.map fun d => { d with kind := t.2.2.kind, label := t.2.2.label })
    (fun _ _ h => h) (fun _ _ _ h => if_neg h) (fun _ _ _ h => if_pos h) hl trivial

theorem foldlM_edgeAdded {l : List EdgeData} (hl : (l.map EdgeData.id).Nodup) :
    (l.map DiffEntry.edgeAdded).foldlM applyEntry c = some c' ↔
      (∀ d ∈ l, (c.edges d.id).isNone ∧ (c.nodes d.source).isSome ∧ (c.nodes d.target).isSome) ∧
        ∃ edges, c' = { c with edges } ∧ (∀ d ∈ l, edges d.id = some d) ∧
          ∀ k, k ∉ l.map EdgeData.id → edges k = c.edges k := by
  rw [List.foldlM_map]
  exact foldlM_keyed_iff edgesField (fun c' => c'.nodes = c.nodes) EdgeData.id
    (fun d o => o.isNone ∧ (c.nodes d.source).isSome ∧ (c.nodes d.target).isSome)
    (fun d _ => some d) (fun _ _ h => h) (fun _ _ h hne => if_neg (by rw [h]; exact hne))
    (fun _ _ h hok => if_pos (by rw [h]; exact hok)) hl rfl

theorem foldlM_regionRemoved {l : List RegionId} (hl : l.Nodup) :
    (l.map DiffEntry.regionRemoved).foldlM applyEntry c = some c' ↔
      ∃ regions, c' = { c with regions } ∧
        (∀ id ∈ l, regions id = none) ∧ ∀ k, k ∉ l → regions k = c.regions k := by
  rw [List.foldlM_map]
  refine (foldlM_keyed_iff regionsField (fun _ => True) (fun id => id) (fun _ _ => True)
    (fun _ _ => none) (fun _ _ h => h) (fun _ _ _ h => absurd trivial h) (fun _ _ _ _ => rfl)
    (by rwa [List.map_id']) trivial).trans ?_
  rw [List.map_id']
  exact and_iff_right fun _ _ => trivial

theorem foldlM_regionModified {l : List (RegionId × SCGRegion × SCGRegion)}
    (hl : (l.map Prod.fst).Nodup) :
    (l.map fun t => DiffEntry.regionModified t.1 t.2.1 t.2.2).foldlM applyEntry c = some c' ↔
      (∀ t ∈ l, (c.regions t.1).isSome) ∧ ∃ regions, c' = { c with regions } ∧
        (∀ t ∈ l, regions t.1 = some { t.2.2 with id := t.1 }) ∧
        ∀ k, k ∉ l.map Prod.fst → regions k = c.regions k := by
  rw [List.foldlM_map]
  exact foldlM_keyed_iff regionsField (fun _ => True) Prod.fst (fun _ o => o.isSome)
    (fun t _ => some { t.2.2 with id := t.1 }) (fun _ _ h => h)
    (fun _ _ _ h => if_neg h) (fun _ _ _ h => if_pos h) hl trivial

theorem foldlM_regionAdded {l : List SCGRegion} (hl : (l.map SCGRegion.id).Nodup) :
    (l.map DiffEntry.regionAdded).foldlM applyEntry c = some c' ↔
      (∀ d ∈ l, (c.regions d.id).isNone) ∧ ∃ regions, c' = { c with regions } ∧
        (∀ d ∈ l, regions d.id = some d) ∧
        ∀ k, k ∉ l.map SCGRegion.id → regions k = c.regions k := by
  rw [List.foldlM_map]
  exact foldlM_keyed_iff regionsField (fun _ => True) SCGRegion.id (fun _ o => o.isNone)
    (fun d _ => some d)
    (fun _ _ h => h) (fun _ _ _ h => if_neg h) (fun _ _ _ h => if_pos h) hl trivial

/-- When the difference of two contents can be applied: no node with an edge is removed, no edge is
added at an added node, and no edge gets other ends. -/
structure Applicable (old new : Content) : Prop where
  kept : ∀ id d, old.edges id = some d → (new.nodes d.source).isSome ∧ (new.nodes d.target).isSome
  placed : ∀ id d, new.edges id = some d → old.edges id = none →
    (old.nodes d.source).isSome ∧ (old.nodes d.target).isSome
  ends : ∀ id d d', old.edges id = some d → new.edges id = some d' →
    d'.source = d.source ∧ d'.target = d.target

theorem foldlM_append_eq_some {l l' : List DiffEntry} {c c'' : Content} :
    (l ++ l').foldlM applyEntry c = some c'' ↔
      ∃ c', l.foldlM applyEntry c = some c' ∧ l'.foldlM applyEntry c' = some c'' := by
  rw [List.foldlM_append, Option.bind_eq_bind, Option.bind_eq_some_iff]

end Content

/-! ## The stages of a family of elements -/

namespace FamilyDiff.Spec

variable {α : Type} {f : FamilyDiff α} {idOf : α → UInt64} {old new : UInt64 → Option α}

/-- The old elements that are not removed. -/
def kept (old new : UInt64 → Option α) : UInt64 → Option α :=
  fun k => if (new k).isSome then old k else none

/-- The new elements that are not added. -/
def shared (old new : UInt64 → Option α) : UInt64 → Option α :=
  fun k => if (old k).isSome then new k else none

theorem kept_of_mem (h : f.Spec idOf old new) {k : UInt64} (hk : k ∈ f.removed) :
    kept old new k = none := by
  simp [kept, ((h.mem_removed k).1 hk).2]

theorem kept_of_notMem (h : f.Spec idOf old new) {k : UInt64} (hk : k ∉ f.removed) :
    kept old new k = old k := by
  rw [h.mem_removed, not_and, ← ne_eq, ← Option.isSome_iff_ne_none] at hk
  rw [kept]
  split_ifs with hn
  · rfl
  · exact (Option.not_isSome_iff_eq_none.1 fun ho => hn (hk ho)).symm

theorem kept_eq_ite (h : f.Spec idOf old new) :
    kept old new = fun k => if k ∈ f.removed then none else old k := by
  funext k
  split_ifs with hk
  · exact h.kept_of_mem hk
  · exact h.kept_of_notMem hk

theorem mem_map_modified (h : f.Spec idOf old new) {id : UInt64} :
    id ∈ f.modified.map Prod.fst ↔ (old id).isSome ∧ (new id).isSome ∧ old id ≠ new id := by
  rw [List.mem_map]
  constructor
  · rintro ⟨⟨id', o, n⟩, hmem, rfl⟩
    obtain ⟨ho, hn, hne⟩ := (h.mem_modified _ _ _).1 hmem
    simp [ho, hn, hne]
  · rintro ⟨ho, hn, hne⟩
    obtain ⟨o, ho⟩ := Option.isSome_iff_exists.1 ho
    obtain ⟨n, hn⟩ := Option.isSome_iff_exists.1 hn
    refine ⟨(id, o, n), (h.mem_modified _ _ _).2 ⟨ho, hn, ?_⟩, rfl⟩
    rintro rfl
    exact hne (ho.trans hn.symm)

theorem kept_of_mem_modified (h : f.Spec idOf old new) {t : UInt64 × α × α}
    (ht : t ∈ f.modified) : kept old new t.1 = some t.2.1 := by
  obtain ⟨ho, hn, -⟩ := (h.mem_modified _ _ _).1 ht
  simp [kept, ho, hn]

theorem shared_of_mem_modified (h : f.Spec idOf old new) {t : UInt64 × α × α}
    (ht : t ∈ f.modified) : shared old new t.1 = some t.2.2 := by
  obtain ⟨ho, hn, -⟩ := (h.mem_modified _ _ _).1 ht
  simp [shared, ho, hn]

theorem shared_of_notMem (h : f.Spec idOf old new) {k : UInt64}
    (hk : k ∉ f.modified.map Prod.fst) : shared old new k = kept old new k := by
  rw [h.mem_map_modified] at hk
  rw [shared, kept]
  cases ho : old k <;> cases hn : new k <;> simp_all

theorem mem_map_added (h : f.Spec idOf old new) (hidOf : ∀ id d, new id = some d → idOf d = id)
    {id : UInt64} : id ∈ f.added.map idOf ↔ (new id).isSome ∧ old id = none := by
  rw [List.mem_map]
  constructor
  · rintro ⟨d, hd, rfl⟩
    obtain ⟨hn, ho⟩ := (h.mem_added d).1 hd
    exact ⟨by simp [hn], ho⟩
  · rintro ⟨hn, ho⟩
    obtain ⟨d, hd⟩ := Option.isSome_iff_exists.1 hn
    obtain rfl := hidOf id d hd
    exact ⟨d, (h.mem_added d).2 ⟨hd, ho⟩, rfl⟩

theorem shared_of_mem_added (h : f.Spec idOf old new) {d : α} (hd : d ∈ f.added) :
    shared old new (idOf d) = none := by
  simp [shared, ((h.mem_added d).1 hd).2]

theorem eq_shared_of_notMem_added (h : f.Spec idOf old new)
    (hidOf : ∀ id d, new id = some d → idOf d = id) {k : UInt64}
    (hk : k ∉ f.added.map idOf) : new k = shared old new k := by
  rw [h.mem_map_added hidOf] at hk
  rw [shared]
  cases ho : old k <;> cases hn : new k <;> simp_all

end FamilyDiff.Spec

section Final

open FamilyDiff.Spec

variable {old new : Content} {nodes : FamilyDiff NodeData} {edges : FamilyDiff EdgeData}
  {regions : FamilyDiff SCGRegion}

/-! ### What the entries of one kind lead to -/

theorem foldlM_modifyNodes (hn : nodes.Spec NodeData.id old.nodes new.nodes) (hnew : new.Closed)
    (c : Content) (hc : c.nodes = kept old.nodes new.nodes) :
    (nodes.modified.map fun t => DiffEntry.nodeModified t.1 t.2.1 t.2.2).foldlM
      Content.applyEntry c = some { c with nodes := shared old.nodes new.nodes } := by
  refine (Content.foldlM_nodeModified hn.modified_nodup).2
    ⟨fun t ht => ?_, _, rfl, fun t ht => ?_, fun k hk => ?_⟩
  · simp [hc, hn.kept_of_mem_modified ht]
  · obtain ⟨id, o, n⟩ := t
    obtain rfl := hnew.node_id id n ((hn.mem_modified _ _ _).1 ht).2.1
    exact hn.shared_of_mem_modified ht
  · rw [hc]
    exact hn.shared_of_notMem hk

theorem foldlM_addNodes (hn : nodes.Spec NodeData.id old.nodes new.nodes) (hnew : new.Closed)
    (c : Content) (hc : c.nodes = shared old.nodes new.nodes) :
    (nodes.added.map DiffEntry.nodeAdded).foldlM Content.applyEntry c =
      some { c with nodes := new.nodes } := by
  refine (Content.foldlM_nodeAdded hn.added_nodup).2
    ⟨fun d hd => by simp [hc, hn.shared_of_mem_added hd], _, rfl,
      fun d hd => ((hn.mem_added d).1 hd).1, fun k hk => ?_⟩
  rw [hc]
  exact hn.eq_shared_of_notMem_added hnew.node_id hk

theorem foldlM_removeEdges (he : edges.Spec EdgeData.id old.edges new.edges) (c : Content)
    (hc : c.edges = old.edges) :
    (edges.removed.map DiffEntry.edgeRemoved).foldlM Content.applyEntry c =
      some { c with edges := kept old.edges new.edges } := by
  refine (Content.foldlM_edgeRemoved he.removed_nodup).2
    ⟨fun id hid => ?_, _, rfl, fun id hid => he.kept_of_mem hid, fun k hk => ?_⟩
  · rw [hc]
    exact ((he.mem_removed id).1 hid).1
  · rw [hc]
    exact he.kept_of_notMem hk

/-- The edges that are in both graphs are the new ones when none gets other ends. -/
theorem foldlM_modifyEdges (he : edges.Spec EdgeData.id old.edges new.edges) (hold : old.Closed)
    (hnew : new.Closed)
    (hends : ∀ id d d', old.edges id = some d → new.edges id = some d' →
      d'.source = d.source ∧ d'.target = d.target)
    (c : Content) (hc : c.edges = kept old.edges new.edges) :
    (edges.modified.map fun t => DiffEntry.edgeModified t.1 t.2.1 t.2.2).foldlM
      Content.applyEntry c = some { c with edges := shared old.edges new.edges } := by
  refine (Content.foldlM_edgeModified he.modified_nodup).2
    ⟨fun t ht => ?_, _, rfl, fun t ht => ?_, fun k hk => ?_⟩
  · simp [hc, he.kept_of_mem_modified ht]
  · obtain ⟨id, o, n⟩ := t
    obtain ⟨ho, hn', -⟩ := (he.mem_modified _ _ _).1 ht
    obtain ⟨hs, ht'⟩ := hends id o n ho hn'
    have hid : o.id = n.id := (hold.edge_id id o ho).trans (hnew.edge_id id n hn').symm
    have hk : kept old.edges new.edges id = some o := he.kept_of_mem_modified ht
    dsimp only
    rw [hc, hk, Option.map_some, hid, ← hs, ← ht']
    exact he.shared_of_mem_modified ht
  · rw [hc]
    exact he.shared_of_notMem hk

theorem foldlM_addEdges (he : edges.Spec EdgeData.id old.edges new.edges) (hnew : new.Closed)
    (c : Content) (hc : c.edges = shared old.edges new.edges)
    (hends : ∀ id d, new.edges id = some d → old.edges id = none →
      (c.nodes d.source).isSome ∧ (c.nodes d.target).isSome) :
    (edges.added.map DiffEntry.edgeAdded).foldlM Content.applyEntry c =
      some { c with edges := new.edges } := by
  refine (Content.foldlM_edgeAdded he.added_nodup).2
    ⟨fun d hd => ?_, _, rfl, fun d hd => ((he.mem_added d).1 hd).1, fun k hk => ?_⟩
  · obtain ⟨hdn, hdo⟩ := (he.mem_added d).1 hd
    exact ⟨by simp [hc, he.shared_of_mem_added hd], hends _ d hdn hdo⟩
  · rw [hc]
    exact he.eq_shared_of_notMem_added hnew.edge_id hk

theorem foldlM_modifyRegions (hr : regions.Spec SCGRegion.id old.regions new.regions)
    (hnew : new.Closed) (c : Content) (hc : c.regions = kept old.regions new.regions) :
    (regions.modified.map fun t => DiffEntry.regionModified t.1 t.2.1 t.2.2).foldlM
      Content.applyEntry c = some { c with regions := shared old.regions new.regions } := by
  refine (Content.foldlM_regionModified hr.modified_nodup).2
    ⟨fun t ht => ?_, _, rfl, fun t ht => ?_, fun k hk => ?_⟩
  · simp [hc, hr.kept_of_mem_modified ht]
  · obtain ⟨id, o, n⟩ := t
    obtain rfl := hnew.region_id id n ((hr.mem_modified _ _ _).1 ht).2.1
    exact hr.shared_of_mem_modified ht
  · rw [hc]
    exact hr.shared_of_notMem hk

theorem foldlM_addRegions (hr : regions.Spec SCGRegion.id old.regions new.regions)
    (hnew : new.Closed) (c : Content) (hc : c.regions = shared old.regions new.regions) :
    (regions.added.map DiffEntry.regionAdded).foldlM Content.applyEntry c =
      some { c with regions := new.regions } := by
  refine (Content.foldlM_regionAdded hr.added_nodup).2
    ⟨fun d hd => by simp [hc, hr.shared_of_mem_added hd], _, rfl,
      fun d hd => ((hr.mem_added d).1 hd).1, fun k hk => ?_⟩
  rw [hc]
  exact hr.eq_shared_of_notMem_added hnew.region_id hk

theorem foldlM_diffEntries_of_applicable (hold : old.Closed) (hnew : new.Closed)
    (hn : nodes.Spec NodeData.id old.nodes new.nodes)
    (he : edges.Spec EdgeData.id old.edges new.edges)
    (hr : regions.Spec SCGRegion.id old.regions new.regions) (h : Content.Applicable old new) :
    (diffEntries nodes edges regions).foldlM Content.applyEntry old = some new := by
  -- the nodes and edges before the additions, which come last
  let nodes' := shared old.nodes new.nodes
  let edges' := shared old.edges new.edges
  simp only [diffEntries, Content.foldlM_append_eq_some]
  refine ⟨⟨nodes', new.edges, new.regions⟩, ⟨⟨nodes', edges', new.regions⟩,
    ⟨⟨nodes', edges', shared old.regions new.regions⟩,
      ⟨⟨nodes', edges', kept old.regions new.regions⟩,
    ⟨⟨nodes', edges', old.regions⟩, ⟨⟨nodes', kept old.edges new.edges, old.regions⟩,
    ⟨⟨nodes', old.edges, old.regions⟩, ⟨⟨kept old.nodes new.nodes, old.edges, old.regions⟩,
    ?_, ?_⟩, ?_⟩, ?_⟩, ?_⟩, ?_⟩, ?_⟩, ?_⟩, ?_⟩
  · refine (Content.foldlM_nodeRemoved hn.removed_nodup).2
      ⟨fun id hid => ((hn.mem_removed id).1 hid).1, Content.ext ?_ ?_ rfl⟩
    · exact hn.kept_eq_ite
    · funext e
      dsimp only
      cases hd : old.edges e with
      | none => rfl
      | some d =>
        obtain ⟨hs, ht⟩ := h.kept e d hd
        rw [Option.isSome_iff_ne_none] at hs ht
        simp [Option.filter, hn.mem_removed, hs, ht]
  · exact foldlM_modifyNodes hn hnew _ rfl
  · exact foldlM_removeEdges he _ rfl
  · exact foldlM_modifyEdges he hold hnew h.ends _ rfl
  · exact (Content.foldlM_regionRemoved hr.removed_nodup).2
      ⟨_, rfl, fun id hid => hr.kept_of_mem hid, fun k hk => hr.kept_of_notMem hk⟩
  · exact foldlM_modifyRegions hr hnew _ rfl
  · exact foldlM_addRegions hr hnew _ rfl
  · refine foldlM_addEdges he hnew _ rfl fun id d hd hdo => ?_
    obtain ⟨hs, ht⟩ := h.placed id d hd hdo
    exact ⟨by simpa [nodes', shared, hs] using hnew.source _ d hd,
      by simpa [nodes', shared, ht] using hnew.target _ d hd⟩
  · exact foldlM_addNodes hn hnew _ rfl

theorem applicable_of_foldlM_diffEntries (hold : old.Closed) (hnew : new.Closed)
    (hn : nodes.Spec NodeData.id old.nodes new.nodes)
    (he : edges.Spec EdgeData.id old.edges new.edges)
    (hr : regions.Spec SCGRegion.id old.regions new.regions)
    (h : (diffEntries nodes edges regions).foldlM Content.applyEntry old = some new) :
    Content.Applicable old new := by
  simp only [diffEntries, Content.foldlM_append_eq_some] at h
  obtain ⟨c₈, ⟨c₇, ⟨c₆, ⟨c₅, ⟨c₄, ⟨c₃, ⟨c₂, ⟨c₁, h₁, h₂⟩, h₃⟩, h₄⟩, h₅⟩, h₆⟩, h₇⟩, h₈⟩, h₉⟩ := h
  obtain ⟨-, rfl⟩ := (Content.foldlM_nodeRemoved hn.removed_nodup).1 h₁
  obtain ⟨-, nodes₂, rfl, hnodes₂, hnodes₂'⟩ := (Content.foldlM_nodeModified hn.modified_nodup).1 h₂
  obtain ⟨hok₃, edges₃, rfl, hedges₃, hedges₃'⟩ :=
    (Content.foldlM_edgeRemoved he.removed_nodup).1 h₃
  obtain ⟨hok₄, edges₄, rfl, hedges₄, hedges₄'⟩ :=
    (Content.foldlM_edgeModified he.modified_nodup).1 h₄
  obtain ⟨regions₅, rfl, -, -⟩ := (Content.foldlM_regionRemoved hr.removed_nodup).1 h₅
  obtain ⟨-, regions₆, rfl, -, -⟩ := (Content.foldlM_regionModified hr.modified_nodup).1 h₆
  obtain ⟨-, regions₇, rfl, -, -⟩ := (Content.foldlM_regionAdded hr.added_nodup).1 h₇
  obtain ⟨hok₈, edges₈, rfl, hedges₈, hedges₈'⟩ := (Content.foldlM_edgeAdded he.added_nodup).1 h₈
  obtain ⟨-, nodes₉, hc₉, -, -⟩ := (Content.foldlM_nodeAdded hn.added_nodup).1 h₉
  dsimp only at *
  have hedges : new.edges = edges₈ := congrArg Content.edges hc₉
  have hleft : ∀ id d d', old.edges id = some d → new.edges id = some d' → d ≠ d' →
      ∃ x, edges₃ id = some x ∧ (old.edges id).filter
        (fun d => d.source ∉ nodes.removed ∧ d.target ∉ nodes.removed) = some x := by
    intro id d d' hd hd' hne
    have hmem := (he.mem_modified id d d').2 ⟨hd, hd', hne⟩
    obtain ⟨x, hx⟩ := Option.isSome_iff_exists.1 (hok₄ _ hmem)
    refine ⟨x, hx, ?_⟩
    rw [← hedges₃' id, hx]
    simp [he.mem_removed, hd']
  -- an old edge whose end is removed would be missed
  have hends : ∀ d : EdgeData, (old.nodes d.source).isSome → (old.nodes d.target).isSome →
      d.source ∉ nodes.removed ∧ d.target ∉ nodes.removed →
      (new.nodes d.source).isSome ∧ (new.nodes d.target).isSome := by
    intro d hs ht hrem
    rw [hn.mem_removed, hn.mem_removed] at hrem
    simpa [hs, ht, Option.isSome_iff_ne_none] using hrem
  refine ⟨?_, ?_, ?_⟩
  · intro id d hd
    have hs := hold.source id d hd
    have ht := hold.target id d hd
    cases hd' : new.edges id with
    | none =>
      have hsome := hok₃ id ((he.mem_removed id).2 ⟨by simp [hd], hd'⟩)
      obtain ⟨x, hx⟩ := Option.isSome_iff_exists.1 hsome
      rw [Option.filter_eq_some_iff, hd, Option.some.injEq] at hx
      obtain ⟨rfl, hrem⟩ := hx
      exact hends d hs ht (of_decide_eq_true hrem)
    | some d' =>
      by_cases hne : d = d'
      · subst hne
        exact ⟨hnew.source id d hd', hnew.target id d hd'⟩
      · obtain ⟨x, -, hx⟩ := hleft id d d' hd hd' hne
        rw [Option.filter_eq_some_iff, hd, Option.some.injEq] at hx
        obtain ⟨rfl, hrem⟩ := hx
        exact hends d hs ht (of_decide_eq_true hrem)
  · intro id d hd ho
    obtain rfl := hnew.edge_id id d hd
    obtain ⟨-, hs, ht⟩ := hok₈ d ((he.mem_added d).2 ⟨hd, ho⟩)
    have hnode : ∀ k, (nodes₂ k).isSome → (old.nodes k).isSome := by
      intro k hk
      by_cases hmem : k ∈ nodes.modified.map Prod.fst
      · exact (hn.mem_map_modified.1 hmem).1
      · rw [hnodes₂' k hmem] at hk
        split_ifs at hk with hrem
        · cases hk
        · exact hk
    exact ⟨hnode _ hs, hnode _ ht⟩
  · intro id d d' hd hd'
    by_cases hne : d = d'
    · subst hne
      exact ⟨rfl, rfl⟩
    · obtain ⟨x, hx, hfilter⟩ := hleft id d d' hd hd' hne
      rw [Option.filter_eq_some_iff, hd, Option.some.injEq] at hfilter
      obtain ⟨rfl, -⟩ := hfilter
      have hmem := (he.mem_modified id d d').2 ⟨hd, hd', hne⟩
      have hnot : id ∉ edges.added.map EdgeData.id := by
        rw [he.mem_map_added hnew.edge_id, hd]
        simp
      have h₄ := hedges₄ _ hmem
      dsimp only at h₄
      rw [hx, Option.map_some, ← hedges₈' id hnot, ← hedges, hd', Option.some.injEq] at h₄
      rw [h₄]
      exact ⟨rfl, rfl⟩

end Final

/-- `apply_diff(old, diff_scg(old, new))`. -/
def applyDiffScg (it : Iteration) (old new : SCG) : Outcome DiffError SCG := do
  let entries ← diffScg it old new
  applyDiff old entries

/-- Applying the difference of two graphs to the old one gives a graph with the content of the new
one exactly if no node with an edge is removed, no edge is added at an added node, and no edge gets
other ends; whatever the order of the hash sets is. -/
theorem applyDiffScg_iff (it : Iteration) (old new : SCG) (hold : old.Built) (hnew : new.Built) :
    (∃ g, applyDiffScg it old new = .ok g ∧ g.content = new.content) ↔
      Content.Applicable old.content new.content := by
  have hold := hold.valid
  have hnew := hnew.valid
  obtain ⟨nodes, edges, regions, hdiff, hn, he, hr⟩ := diffScg_eq (ε := DiffError) it hold hnew
  have hfits : ∀ entry ∈ diffEntries nodes edges regions, entry.Fits := by
    intro entry hentry
    cases entry with
    | nodeAdded data =>
      have hdata : data ∈ nodes.added := by simpa [diffEntries] using hentry
      exact hnew.node_toNat_lt (Option.isSome_of_eq_some ((hn.mem_added data).1 hdata).1)
    | edgeAdded data =>
      have hdata : data ∈ edges.added := by simpa [diffEntries] using hentry
      exact hnew.edge_toNat_lt (Option.isSome_of_eq_some ((he.mem_added data).1 hdata).1)
    | _ => trivial
  have hfollows := hold.follows_foldlM hfits
  rw [applyDiffScg, hdiff, Outcome.ok_bind]
  constructor
  · rintro ⟨g, happly, hcontent⟩
    rw [happly] at hfollows
    refine applicable_of_foldlM_diffEntries hold.closed hnew.closed hn he hr ?_
    rw [← hcontent, hfollows.of_ok]
  · intro h
    rw [foldlM_diffEntries_of_applicable hold.closed hnew.closed hn he hr h] at hfollows
    exact hfollows.of_some

/-! ### Graphs -/

/-- The hash sets keep their order. -/
def Iteration.id : Iteration := ⟨fun _ l => l, fun _ _ => .rfl⟩

/-- Two nodes. -/
def twoNodes : List Op :=
  [.addNode .phantom (.phantom ⟨"a"⟩) ⟨none, none, none, none⟩,
    .addNode .phantom (.phantom ⟨"b"⟩) ⟨none, none, none, none⟩]

/-- Two nodes and an edge. -/
def oneEdge : List Op := twoNodes ++ [.addEdge 0 1 .dataFlow]

theorem built_twoNodes : (SCG.new.run twoNodes).Built := by
  refine ⟨twoNodes, ⟨?_, ?_, trivial⟩, rfl⟩ <;> rintro id (h | h) <;> cases h <;> decide

theorem built_oneEdge : (SCG.new.run oneEdge).Built := by
  refine ⟨oneEdge, ⟨?_, ?_, ?_, trivial⟩, rfl⟩ <;> rintro id (h | h) <;> cases h <;> decide

theorem applyDiffScg_oneEdge :
    ∃ g, applyDiffScg .id (SCG.new.run twoNodes) (SCG.new.run oneEdge) = .ok g ∧
      g.content = (SCG.new.run oneEdge).content := by
  refine (applyDiffScg_iff .id _ _ built_twoNodes built_oneEdge).2 ⟨nofun, ?_, nofun⟩
  intro id d hd _
  obtain ⟨eidx, hid, -⟩ := Option.bind_eq_some_iff.1 hd
  have hmem := HashMap.mem_keys_iff.2 (Option.isSome_of_eq_some hid)
  have hkeys : (SCG.new.run oneEdge).edgeIdToIndex.keys = [0] := rfl
  rw [hkeys, List.mem_singleton] at hmem
  subst hmem
  cases hd
  exact ⟨rfl, rfl⟩

/-- The node at one end of the edge is removed, and with it the edge. -/
def nodeRemoved : List Op := oneEdge ++ [.removeNode 0]

/-- The edge is turned around and keeps its identifier. -/
def edgeTurned : List Op := oneEdge ++ [.removeEdge 0, .addEdgeWithId 0 1 0 .dataFlow]

theorem built_nodeRemoved : (SCG.new.run nodeRemoved).Built := by
  refine ⟨nodeRemoved, ⟨?_, ?_, ?_, ?_, trivial⟩, rfl⟩ <;> rintro id (h | h) <;> cases h <;> decide

theorem built_edgeTurned : (SCG.new.run edgeTurned).Built := by
  refine ⟨edgeTurned, ⟨?_, ?_, ?_, ?_, ?_, trivial⟩, rfl⟩ <;> rintro id (h | h) <;> cases h <;>
    decide

/-- The edge that went with its node cannot be removed, the edge cannot be added before its ends,
and the edge is not turned around. -/
theorem applyDiffScg_fails :
    (SCG.new.run nodeRemoved).Built ∧ (SCG.new.run edgeTurned).Built ∧
    applyDiffScg .id (SCG.new.run oneEdge) (SCG.new.run nodeRemoved) = .err (.edgeNotFound 0) ∧
    applyDiffScg .id SCG.new (SCG.new.run oneEdge) = .err (.invalidEdgeEndpoints 0 1) ∧
    ∃ g, applyDiffScg .id (SCG.new.run oneEdge) (SCG.new.run edgeTurned) = .ok g ∧
      g.getEdge 0 = some ⟨0, 0, 1, .dataFlow, none⟩ ∧
      (SCG.new.run edgeTurned).getEdge 0 = some ⟨0, 1, 0, .dataFlow, none⟩ :=
  ⟨built_nodeRemoved, built_edgeTurned, rfl, rfl, _, rfl, rfl, rfl⟩

end Vuma.Scg
