import Vuma.Scg.DiffCorrect
import Vuma.Scg.Merge

/-!
# What a three-way merge gives

A merge reports the elements that both sides changed differently, and no others. Without such an
element, its result has every element as the side that changed it has it, except that an edge keeps
the ends it has in the base, and that an edge is dropped when one side adds it at a node which the
other side removes.
-/

namespace Vuma.Scg

open Lib

/-! ## Changes -/

section Changes

variable {α : Type} [DecidableEq α]

/-- The change from one state of an element to another. -/
def changeOf : Option α → Option α → Option (ElementChange α)
  | some _, none => some .removed
  | some old, some new => if old ≠ new then some (.modified new) else none
  | none, some new => some (.added new)
  | none, none => none

theorem changeOf_eq_none {old new : Option α} : changeOf old new = none ↔ new = old := by
  cases old <;> cases new <;> simp [changeOf, eq_comm]

theorem changeOf_eq_added {old new : Option α} {d : α} (h : changeOf old new = some (.added d)) :
    old = none ∧ new = some d := by
  cases old <;> cases new <;> simp_all [changeOf]

theorem changeOf_eq_removed {old new : Option α} :
    changeOf old new = some .removed ↔ old.isSome ∧ new = none := by
  cases old <;> cases new <;> simp [changeOf]

theorem changeOf_eq_modified {old new : Option α} {d : α}
    (h : changeOf old new = some (.modified d)) : old.isSome ∧ new = some d ∧ old ≠ new := by
  cases old with
  | none => cases new <;> cases h
  | some o =>
    cases new with
    | none => cases h
    | some n =>
      rw [changeOf] at h
      split_ifs at h with hne
      cases h
      exact ⟨rfl, rfl, fun heq => hne (Option.some.inj heq)⟩

theorem changeOf_data {old new : Option α} {c : ElementChange α} (h : changeOf old new = some c) :
    c.data = new := by
  cases old <;> cases new <;> simp_all [changeOf] <;> aesop

/-- Changes of the same element are the same if they lead to the same state. -/
theorem changeOf_inj {old new new' : Option α} (h : changeOf old new = changeOf old new') :
    new = new' := by
  cases hc : changeOf old new with
  | none =>
    rw [hc] at h
    exact (changeOf_eq_none.1 hc).trans (changeOf_eq_none.1 h.symm).symm
  | some c =>
    rw [hc] at h
    exact (changeOf_data hc).symm.trans (changeOf_data h.symm)

/-- The change that the loop applies to an element. -/
def resolve (ours theirs : Option (ElementChange α)) : Option (ElementChange α) :=
  match ours, theirs with
  | none, none => none
  | some oc, none => some oc
  | none, some tc => some tc
  | some oc, some tc => if oc = tc then some oc else none

/-- The conflict that the loop finds at an element. -/
def clash (id : UInt64) (base : Option α) (ours theirs : Option (ElementChange α)) :
    Option (ElementConflict α) :=
  match ours, theirs with
  | some oc, some tc => if oc = tc then none else some ⟨id, base, oc.data, tc.data⟩
  | _, _ => none

/-- The changes of some elements, applied one after the other. -/
def applyChanges {β : Type} (apply : β → UInt64 → ElementChange α → β)
    (res : UInt64 → Option (ElementChange α)) (ids : List UInt64) (b : β) : β :=
  ids.foldl (fun b id =>
    match res id with
    | some c => apply b id c
    | none => b) b

theorem mergeChanges_eq (apply : SCG → UInt64 → ElementChange α → SCG) (base : UInt64 → Option α)
    (ours theirs : HashMap UInt64 (ElementChange α)) (ids : List UInt64) (g : SCG) :
    mergeChanges apply base ours theirs ids g =
      (applyChanges apply (fun id => resolve (ours.lookup id) (theirs.lookup id)) ids g,
      ids.filterMap fun id => clash id (base id) (ours.lookup id) (theirs.lookup id)) := by
  induction ids using List.reverseRecOn with
  | nil => rfl
  | append_singleton ids id ih =>
    rw [mergeChanges, applyChanges] at ih ⊢
    rw [List.foldl_append, ih, List.foldl_append, List.filterMap_append]
    simp only [List.foldl_cons, List.foldl_nil, List.filterMap_cons, List.filterMap_nil]
    cases ours.lookup id <;> cases theirs.lookup id <;> simp only [resolve, clash]
    · simp
    · simp
    · simp
    · split_ifs <;> simp

/-- The value that a merge should give an element: that of the side that changed it. -/
def expected (base ours theirs : Option α) : Option α := if ours ≠ base then ours else theirs

/-- Both sides changed the element, and differently. -/
def Differ (base ours theirs : Option α) : Prop := ours ≠ base ∧ theirs ≠ base ∧ ours ≠ theirs

theorem resolve_changeOf {base ours theirs : Option α} (h : ¬ Differ base ours theirs) :
    resolve (changeOf base ours) (changeOf base theirs) =
      changeOf base (expected base ours theirs) := by
  by_cases ho : ours = base
  · subst ho
    rw [expected, if_neg (not_not_intro rfl), changeOf_eq_none.2 rfl]
    cases changeOf ours theirs <;> rfl
  · rw [expected, if_pos ho]
    obtain ⟨oc, hoc⟩ := Option.ne_none_iff_exists'.1 (mt changeOf_eq_none.1 ho)
    by_cases ht : theirs = base
    · rw [hoc, changeOf_eq_none.2 ht]
      rfl
    · have heq : ours = theirs := by_contra fun hne => h ⟨ho, ht, hne⟩
      rw [← heq, hoc]
      exact if_pos rfl

theorem clash_changeOf {id : UInt64} {base ours theirs : Option α} {x : ElementConflict α} :
    clash id base (changeOf base ours) (changeOf base theirs) = some x ↔
      Differ base ours theirs ∧ x = ⟨id, base, ours, theirs⟩ := by
  by_cases ho : ours = base
  · rw [changeOf_eq_none.2 ho]
    simp [clash, Differ, ho]
  · obtain ⟨oc, hoc⟩ := Option.ne_none_iff_exists'.1 (mt changeOf_eq_none.1 ho)
    by_cases ht : theirs = base
    · rw [hoc, changeOf_eq_none.2 ht]
      simp [clash, Differ, ht]
    · obtain ⟨tc, htc⟩ := Option.ne_none_iff_exists'.1 (mt changeOf_eq_none.1 ht)
      have hiff : oc = tc ↔ ours = theirs := by
        constructor
        · rintro rfl
          exact changeOf_inj (hoc.trans htc.symm)
        · rintro rfl
          exact Option.some.inj (hoc.symm.trans htc)
      rw [hoc, htc, clash, changeOf_data hoc, changeOf_data htc]
      split_ifs with heq
      · simp [Differ, hiff.1 heq]
      · have hne := mt hiff.2 heq
        simp [Differ, ho, ht, hne, eq_comm]

end Changes

/-! ## Collected changes -/

theorem lookup_foldl_insert {V : Type} {l : List (UInt64 × V)}
    (hl : ∀ k v v', (k, v) ∈ l → (k, v') ∈ l → v = v') {k : UInt64} {v : V} :
    (l.foldl (fun (m : HashMap UInt64 V) p => m.insert p.1 p.2) ∅).lookup k = some v ↔
      (k, v) ∈ l := by
  induction l using List.reverseRecOn with
  | nil => simp
  | append_singleton l p ih =>
    have ih := ih fun k v v' h h' => hl k v v' (List.mem_append_left _ h) (List.mem_append_left _ h')
    rw [List.foldl_append, List.foldl_cons, List.foldl_nil, HashMap.lookup_insert_ite,
      List.mem_append, List.mem_singleton]
    split_ifs with hk
    · subst hk
      rw [Option.some.injEq]
      constructor
      · rintro rfl
        exact .inr rfl
      · rintro (h | h)
        · exact hl p.1 _ _ (List.mem_append_right _ List.mem_cons_self) (List.mem_append_left _ h)
        · rw [← h]
    · rw [ih]
      refine (or_iff_left ?_).symm
      rintro rfl
      exact hk rfl

/-- The changes collected from a difference are those from the old elements to the new ones. -/
theorem lookup_collectChanges {α : Type} [DecidableEq α]
    {change? : DiffEntry → Option (UInt64 × ElementChange α)} {entries : List DiffEntry}
    {f : FamilyDiff α} {idOf : α → UInt64} {old new : UInt64 → Option α} (hf : f.Spec idOf old new)
    (hidOf : ∀ id d, new id = some d → idOf d = id)
    (h : entries.filterMap change? = f.removed.map (fun id => (id, .removed)) ++
      f.modified.map (fun t => (t.1, .modified t.2.2)) ++ f.added.map fun d => (idOf d, .added d))
    (id : UInt64) : (collectChanges change? entries).lookup id = changeOf (old id) (new id) := by
  have hmem : ∀ k c, (k, c) ∈ entries.filterMap change? ↔ changeOf (old k) (new k) = some c := by
    intro k c
    rw [h]
    simp only [List.mem_append, List.mem_map, Prod.mk.injEq]
    constructor
    · rintro ((⟨id, hid, rfl, rfl⟩ | ⟨t, ht, rfl, rfl⟩) | ⟨d, hd, rfl, rfl⟩)
      · obtain ⟨ho, hn⟩ := (hf.mem_removed id).1 hid
        obtain ⟨o, ho⟩ := Option.isSome_iff_exists.1 ho
        rw [ho, hn]
        rfl
      · obtain ⟨ho, hn, hne⟩ := (hf.mem_modified _ _ _).1 ht
        rw [ho, hn]
        exact if_pos hne
      · obtain ⟨hn, ho⟩ := (hf.mem_added d).1 hd
        rw [ho, hn]
        rfl
    · intro hc
      cases ho : old k with
      | none =>
        cases hn : new k with
        | none =>
          rw [ho, hn] at hc
          cases hc
        | some n =>
          rw [ho, hn] at hc
          cases hc
          obtain rfl := hidOf k n hn
          exact .inr ⟨n, (hf.mem_added n).2 ⟨hn, ho⟩, rfl, rfl⟩
      | some o =>
        cases hn : new k with
        | none =>
          rw [ho, hn] at hc
          cases hc
          exact .inl (.inl ⟨k, (hf.mem_removed k).2 ⟨by simp [ho], hn⟩, rfl, rfl⟩)
        | some n =>
          rw [ho, hn, changeOf] at hc
          split_ifs at hc with hne
          cases hc
          exact .inl (.inr ⟨(k, o, n), (hf.mem_modified k o n).2 ⟨ho, hn, hne⟩, rfl, rfl⟩)
  refine Option.ext fun c => ?_
  rw [collectChanges, lookup_foldl_insert, hmem]
  intro k v v' hv hv'
  rw [hmem] at hv hv'
  exact Option.some.inj (hv.symm.trans hv')

theorem diffScg_changes {ε : Type} (it : Iteration) {old new : SCG} (hold : old.Valid)
    (hnew : new.Valid) :
    ∃ entries, diffScg (ε := ε) it old new = .ok entries ∧
      (∀ id, (collectNodeChanges entries).lookup id = changeOf (old.getNode id) (new.getNode id)) ∧
      (∀ id, (collectEdgeChanges entries).lookup id = changeOf (old.getEdge id) (new.getEdge id)) ∧
      ∀ id, (collectRegionChanges entries).lookup id =
        changeOf (old.getRegion id) (new.getRegion id) := by
  obtain ⟨nodes, edges, regions, hdiff, hn, he, hr⟩ := diffScg_eq (ε := ε) it hold hnew
  refine ⟨_, hdiff, ?_, ?_, ?_⟩
  · refine lookup_collectChanges hn hnew.closed.node_id ?_
    simp [diffEntries, List.filterMap_append, List.filterMap_map, DiffEntry.nodeChange?,
      Function.comp_def]
  · refine lookup_collectChanges he hnew.closed.edge_id ?_
    simp [diffEntries, List.filterMap_append, List.filterMap_map, DiffEntry.edgeChange?,
      Function.comp_def]
  · refine lookup_collectChanges hr hnew.closed.region_id ?_
    simp [diffEntries, List.filterMap_append, List.filterMap_map, DiffEntry.regionChange?,
      Function.comp_def]

/-! ## Changes on contents -/

/-- An entry that does nothing when it cannot be applied. -/
def Content.tryEntry (c : Content) (entry : DiffEntry) : Content := (c.applyEntry entry).getD c

/-- The entry for a change of a node. -/
def nodeEntry (id : NodeId) : ElementChange NodeData → DiffEntry
  | .added d => .nodeAdded d
  | .removed => .nodeRemoved id
  | .modified d => .nodeModified id d d

/-- The entry for a change of an edge. -/
def edgeEntry (id : EdgeId) : ElementChange EdgeData → DiffEntry
  | .added d => .edgeAdded d
  | .removed => .edgeRemoved id
  | .modified d => .edgeModified id d d

/-- The entry for a change of a region. -/
def regionEntry (id : RegionId) : ElementChange SCGRegion → DiffEntry
  | .added d => .regionAdded d
  | .removed => .regionRemoved id
  | .modified d => .regionModified id d d

/-- The graph after a call, or the one before when the call fails. -/
def orElse (o : Outcome DiffError SCG) (g : SCG) : SCG :=
  match o with
  | .ok g' => g'
  | _ => g

namespace SCG

variable {g : SCG}

theorem Valid.orElse (hg : g.Valid) {entry : DiffEntry} (h : entry.Fits) :
    (Scg.orElse (applyEntry g entry) g).Valid ∧
      (Scg.orElse (applyEntry g entry) g).content = g.content.tryEntry entry := by
  have hf := hg.follows h
  rw [Content.tryEntry]
  generalize applyEntry g entry = o at hf
  generalize g.content.applyEntry entry = c at hf
  cases hf with
  | ok hg' => exact ⟨hg', rfl⟩
  | err e => exact ⟨hg, rfl⟩

theorem Valid.applyNodeChange_eq (hg : g.Valid) {id : NodeId} {change : ElementChange NodeData}
    (hid : ∀ d, change = .added d → d.id = id) (hlt : (nodeEntry id change).Fits) :
    applyNodeChange g id change = Scg.orElse (applyEntry g (nodeEntry id change)) g := by
  cases change with
  | added d =>
    obtain rfl := hid d rfl
    simp only [applyNodeChange, nodeEntry, applyEntry]
    cases h : g.getNode d.id with
    | some old => rfl
    | none =>
      have hok := (content_addNodeWithId hg h d.nodeType d.payload d.programPoint hlt).1
      simp only [mapErr, hok]
      cases d.annotation <;> rfl
  | removed =>
    simp only [applyNodeChange, nodeEntry, applyEntry]
    cases h : g.getNode id with
    | some old =>
      obtain ⟨⟨d, hok⟩, -⟩ := content_removeNode hg (Option.isSome_of_eq_some h)
      simp [mapErr, hok, Scg.orElse]
    | none =>
      rw [removeNode_eq_err hg h]
      rfl
  | modified d =>
    simp only [applyNodeChange, nodeEntry, applyEntry]
    cases h : g.getNode id with
    | some old => rfl
    | none => exact modifyNode_of_none hg h _

theorem Valid.applyEdgeChange_eq (hg : g.Valid) {id : EdgeId} {change : ElementChange EdgeData}
    (hid : ∀ d, change = .added d → d.id = id) (hlt : (edgeEntry id change).Fits) :
    applyEdgeChange g id change = Scg.orElse (applyEntry g (edgeEntry id change)) g := by
  cases change with
  | added d =>
    obtain rfl := hid d rfl
    simp only [applyEdgeChange, edgeEntry, applyEntry]
    cases h : g.getEdge d.id with
    | some old => rfl
    | none =>
      -- an edge that is not added is not there to be labelled
      have hskip : ∀ e, g.addEdgeWithId d.id d.source d.target d.kind = (.err e, g) →
          (d.label.elim (g.addEdgeWithId d.id d.source d.target d.kind).2 fun label =>
            (g.addEdgeWithId d.id d.source d.target d.kind).2.modifyEdge d.id
              fun edge => { edge with label := some label }) = g := by
        intro e herr
        rw [herr]
        cases d.label with
        | none => rfl
        | some label => exact modifyEdge_of_none hg h _
      cases hs : g.getNode d.source with
      | none =>
        obtain ⟨e, herr⟩ := addEdgeWithId_eq_err hg (.inr (.inl hs)) d.kind
        have hsame := hskip e herr
        revert hsame
        cases d.label <;> exact id
      | some source =>
        cases ht : g.getNode d.target with
        | none =>
          obtain ⟨e, herr⟩ := addEdgeWithId_eq_err hg (.inr (.inr ht)) d.kind
          have hsame := hskip e herr
          revert hsame
          cases d.label <;> exact id
        | some target =>
          have hok := (content_addEdgeWithId hg h (Option.isSome_of_eq_some hs)
            (Option.isSome_of_eq_some ht) d.kind hlt).1
          simp only [mapErr, hok]
          cases d.label <;> rfl
  | removed =>
    simp only [applyEdgeChange, edgeEntry, applyEntry]
    cases h : g.getEdge id with
    | some old =>
      obtain ⟨⟨d, hok⟩, -⟩ := content_removeEdge hg (Option.isSome_of_eq_some h)
      simp [mapErr, hok, Scg.orElse]
    | none =>
      rw [removeEdge_eq_err hg h]
      rfl
  | modified d =>
    simp only [applyEdgeChange, edgeEntry, applyEntry]
    cases h : g.getEdge id with
    | some old => rfl
    | none => exact modifyEdge_of_none hg h _

theorem Valid.applyRegionChange_eq {id : RegionId} {change : ElementChange SCGRegion}
    (hid : ∀ d, change = .added d → d.id = id) :
    applyRegionChange g id change = Scg.orElse (applyEntry g (regionEntry id change)) g := by
  cases change with
  | added d =>
    obtain rfl := hid d rfl
    simp only [applyRegionChange, regionEntry, applyEntry]
    cases g.getRegion d.id <;> rfl
  | removed => rfl
  | modified d =>
    simp only [applyRegionChange, regionEntry, applyEntry]
    cases h : g.getRegion id with
    | some old => rfl
    | none => exact updateRegion_of_none h d

end SCG

/-! ## The loops -/

/-- The change fits the state of an element that it is applied to. -/
def ElementChange.FitsAt {α : Type} (idOf : α → UInt64) (id : UInt64) (o : Option α) :
    ElementChange α → Prop
  | added d => o = none ∧ idOf d = id ∧ id.toNat < 2 ^ 64 - 1
  | removed => o.isSome
  | modified d => o.isSome ∧ idOf d = id

theorem tryEntry_nodeEntry {c : Content} {id : NodeId} {ch : ElementChange NodeData}
    (h : ch.FitsAt NodeData.id id (c.nodes id)) : c.tryEntry (nodeEntry id ch) =
      { c with
        nodes := Function.update c.nodes id ch.data
        edges := fun e => (c.edges e).filter fun d =>
          ch = .removed → d.source ≠ id ∧ d.target ≠ id } := by
  have hfilter : ∀ o : Option EdgeData, (o.filter fun _ => true) = o := by
    intro o
    cases o <;> rfl
  cases ch with
  | added d =>
    obtain ⟨hnone, rfl, -⟩ := h
    simp [Content.tryEntry, nodeEntry, Content.applyEntry, hnone, ElementChange.data, hfilter]
  | removed =>
    have h : (c.nodes id).isSome := h
    simp [Content.tryEntry, nodeEntry, Content.applyEntry, h, ElementChange.data]
  | modified d =>
    obtain ⟨hsome, rfl⟩ := h
    simp [Content.tryEntry, nodeEntry, Content.applyEntry, hsome, ElementChange.data, hfilter]

/-- Changes of nodes set the nodes, and take away the edges at removed nodes. -/
theorem foldl_nodeChanges {res : NodeId → Option (ElementChange NodeData)} {l : List NodeId}
    (hl : l.Nodup) {c : Content}
    (hfits : ∀ id ∈ l, ∀ ch, res id = some ch → ch.FitsAt NodeData.id id (c.nodes id)) :
    applyChanges (fun c id ch => c.tryEntry (nodeEntry id ch)) res l c =
    { c with
      nodes := fun k => if k ∈ l then (match res k with
        | some ch => ch.data
        | none => c.nodes k) else c.nodes k
      edges := fun e => (c.edges e).filter fun d =>
        ¬ (d.source ∈ l ∧ res d.source = some .removed) ∧
          ¬ (d.target ∈ l ∧ res d.target = some .removed) } := by
  induction l generalizing c with
  | nil =>
    have hfilter : ∀ o : Option EdgeData, (o.filter fun _ => true) = o := by
      intro o
      cases o <;> rfl
    simp [applyChanges, hfilter]
  | cons id l ih =>
    obtain ⟨hid, hl⟩ := List.nodup_cons.1 hl
    have hfits' := hfits id List.mem_cons_self
    rw [applyChanges, List.foldl_cons]
    cases hres : res id with
    | none =>
      dsimp only
      rw [← applyChanges, ih hl fun k hk => hfits k (List.mem_cons_of_mem _ hk)]
      refine Content.ext (funext fun k => ?_) (funext fun e => ?_) rfl
      · by_cases hk : k = id
        · simp [hk, hid, hres]
        · simp [hk]
      · refine congrArg (fun p => (c.edges e).filter p) (funext fun d => decide_eq_decide.2 ?_)
        by_cases hs : d.source = id <;> by_cases ht : d.target = id <;> simp [hs, ht, hid, hres]
    | some ch =>
      dsimp only
      rw [← applyChanges, tryEntry_nodeEntry (hfits' ch hres), ih hl]
      · refine Content.ext (funext fun k => ?_) (funext fun e => ?_) rfl
        · by_cases hk : k = id
          · simp [hk, hid, hres]
          · simp [hk]
        · dsimp only
          rw [Option.filter_filter]
          refine congrArg (fun p => (c.edges e).filter p) (funext fun d => ?_)
          rw [← Bool.decide_and]
          refine decide_eq_decide.2 ?_
          by_cases hs : d.source = id <;> by_cases ht : d.target = id <;>
            simp [hs, ht, hid, hres]
          tauto
      · intro k hk ch' hch'
        have hne : k ≠ id := fun h => hid (h ▸ hk)
        dsimp only
        rw [Function.update_of_ne hne]
        exact hfits k (List.mem_cons_of_mem _ hk) ch' hch'

/-- The value of an edge after a change: an added edge needs its ends, and a modified one keeps
those it has. -/
def edgeValue (nodes : NodeId → Option NodeData) (o : Option EdgeData) :
    Option (ElementChange EdgeData) → Option EdgeData
  | none => o
  | some .removed => none
  | some (.added d) =>
    if o.isNone ∧ (nodes d.source).isSome ∧ (nodes d.target).isSome then some d else o
  | some (.modified d) => o.map fun old => { old with kind := d.kind, label := d.label }

theorem foldl_edgeChanges {res : EdgeId → Option (ElementChange EdgeData)} {l : List EdgeId}
    (hl : l.Nodup) {c : Content} (hres : ∀ id d, res id = some (.added d) → d.id = id) :
    applyChanges (fun c id ch => c.tryEntry (edgeEntry id ch)) res l c =
    { c with
      edges := fun k => if k ∈ l then edgeValue c.nodes (c.edges k) (res k) else c.edges k } := by
  refine foldl_keyed_eq Content.edgesField (fun c' => c'.nodes = c.nodes)
    (fun k o => edgeValue c.nodes o (res k)) (fun _ _ h => h) ?_ hl rfl
  intro c' k hc'
  show _ = ({ c' with
    edges := Function.update c'.edges k (edgeValue c.nodes (c'.edges k) (res k)) } : Content)
  cases hk : res k with
  | none => simp [edgeValue]
  | some ch =>
    cases ch with
    | added d =>
      obtain rfl := hres k d hk
      simp only [edgeEntry, Content.tryEntry, Content.applyEntry, edgeValue, hc']
      by_cases hok : (c'.edges d.id).isNone ∧ (c.nodes d.source).isSome ∧ (c.nodes d.target).isSome
      · rw [if_pos hok, if_pos hok]
        rfl
      · rw [if_neg hok, if_neg hok, Function.update_eq_self, ← hc']
        rfl
    | removed =>
      simp only [edgeEntry, Content.tryEntry, Content.applyEntry, edgeValue]
      split_ifs with hsome
      · rfl
      · rw [Option.not_isSome_iff_eq_none] at hsome
        rw [Function.update_eq_self_iff.2 hsome.symm]
        rfl
    | modified d =>
      simp only [edgeEntry, Content.tryEntry, Content.applyEntry, edgeValue]
      split_ifs with hsome
      · rfl
      · rw [Option.not_isSome_iff_eq_none] at hsome
        rw [hsome, Option.map_none, Function.update_eq_self_iff.2 hsome.symm]
        rfl

/-- The value of a region after a change. -/
def regionValue (k : RegionId) (o : Option SCGRegion) :
    Option (ElementChange SCGRegion) → Option SCGRegion
  | none => o
  | some .removed => none
  | some (.added d) => if o.isNone then some d else o
  | some (.modified d) => o.map fun _ => { d with id := k }

theorem foldl_regionChanges {res : RegionId → Option (ElementChange SCGRegion)} {l : List RegionId}
    (hl : l.Nodup) {c : Content} (hres : ∀ id d, res id = some (.added d) → d.id = id) :
    applyChanges (fun c id ch => c.tryEntry (regionEntry id ch)) res l c =
    { c with
      regions := fun k => if k ∈ l then regionValue k (c.regions k) (res k) else c.regions k } := by
  refine foldl_keyed_eq Content.regionsField (fun _ => True)
    (fun k o => regionValue k o (res k)) (fun _ _ h => h) ?_ hl trivial
  intro c' k _
  show _ = ({ c' with
    regions := Function.update c'.regions k (regionValue k (c'.regions k) (res k)) } : Content)
  cases hk : res k with
  | none => simp [regionValue]
  | some ch =>
    cases ch with
    | added d =>
      obtain rfl := hres k d hk
      simp only [regionEntry, Content.tryEntry, Content.applyEntry, regionValue]
      by_cases hok : (c'.regions d.id).isNone
      · rw [if_pos hok, if_pos hok]
        rfl
      · rw [if_neg hok, if_neg hok, Function.update_eq_self]
        rfl
    | removed => rfl
    | modified d =>
      simp only [regionEntry, Content.tryEntry, Content.applyEntry, regionValue]
      split_ifs with hsome
      · obtain ⟨r, hr⟩ := Option.isSome_iff_exists.1 hsome
        rw [hr]
        rfl
      · rw [Option.not_isSome_iff_eq_none] at hsome
        rw [hsome, Option.map_none, Function.update_eq_self_iff.2 hsome.symm]
        rfl

/-- A valid graph follows its content through a loop. -/
theorem SCG.Valid.applyChanges {α : Type} (apply : SCG → UInt64 → ElementChange α → SCG)
    (entry : UInt64 → ElementChange α → DiffEntry) (res : UInt64 → Option (ElementChange α))
    (hstep : ∀ (g : SCG) id ch, g.Valid → res id = some ch → (apply g id ch).Valid ∧
      (apply g id ch).content = g.content.tryEntry (entry id ch)) {g : SCG} (hg : g.Valid)
    (ids : List UInt64) :
    (Scg.applyChanges apply res ids g).Valid ∧
      (Scg.applyChanges apply res ids g).content =
        Scg.applyChanges (fun c id ch => c.tryEntry (entry id ch)) res ids g.content := by
  induction ids generalizing g with
  | nil => exact ⟨hg, rfl⟩
  | cons id ids ih =>
    rw [Scg.applyChanges, Scg.applyChanges, List.foldl_cons, List.foldl_cons, ← Scg.applyChanges,
      ← Scg.applyChanges]
    cases hres : res id with
    | none => exact ih hg
    | some ch =>
      obtain ⟨hvalid, hcontent⟩ := hstep g id ch hg hres
      dsimp only
      rw [← hcontent]
      exact ih hvalid

/-! ## The merge -/

/-- The conflicts of one sort. -/
def Conflicts {α : Type} (base ours theirs : UInt64 → Option α)
    (l : List (ElementConflict α)) : Prop :=
  ∀ x, x ∈ l ↔ ∃ id, Differ (base id) (ours id) (theirs id) ∧ x = ⟨id, base id, ours id, theirs id⟩

theorem Conflicts.isEmpty_iff {α : Type} {base ours theirs : UInt64 → Option α}
    {l : List (ElementConflict α)} (h : Conflicts base ours theirs l) :
    l.isEmpty ↔ ¬ ∃ id, Differ (base id) (ours id) (theirs id) := by
  rw [List.isEmpty_iff, List.eq_nil_iff_forall_not_mem, not_exists]
  constructor
  · intro hl id hid
    exact hl _ ((h _).2 ⟨id, hid, rfl⟩)
  · intro hno x hx
    obtain ⟨id, hid, -⟩ := (h x).1 hx
    exact hno id hid

section Ids

variable {α : Type} [DecidableEq α] {ours theirs : HashMap UInt64 (ElementChange α)}
  {base o t : UInt64 → Option α}

theorem mem_order_changedIds (it : Iteration) (n : Nat)
    (ho : ∀ id, ours.lookup id = changeOf (base id) (o id))
    (ht : ∀ id, theirs.lookup id = changeOf (base id) (t id)) {id : UInt64} :
    id ∈ it.order n (changedIds ours theirs) ↔ o id ≠ base id ∨ t id ≠ base id := by
  rw [(it.perm _ _).mem_iff, changedIds, List.mem_dedup, List.mem_append, HashMap.mem_keys_iff,
    HashMap.mem_keys_iff, ho, ht, Option.isSome_iff_ne_none, Option.isSome_iff_ne_none, ne_eq,
    ne_eq, changeOf_eq_none, changeOf_eq_none]

omit [DecidableEq α] in
theorem nodup_order_changedIds (it : Iteration) (n : Nat) :
    (it.order n (changedIds ours theirs)).Nodup :=
  (it.perm _ _).nodup_iff.2 (List.nodup_dedup _)

/-- The conflicts of one sort are the elements that both sides changed differently. -/
theorem conflicts_mergeChanges (apply : SCG → UInt64 → ElementChange α → SCG) (it : Iteration)
    (n : Nat) (ho : ∀ id, ours.lookup id = changeOf (base id) (o id))
    (ht : ∀ id, theirs.lookup id = changeOf (base id) (t id)) (g : SCG) :
    Conflicts base o t
      (mergeChanges apply base ours theirs (it.order n (changedIds ours theirs)) g).2 := by
  intro x
  rw [mergeChanges_eq, List.mem_filterMap]
  refine exists_congr fun id => ?_
  rw [ho, ht, clash_changeOf, mem_order_changedIds it n ho ht]
  exact and_iff_right_of_imp fun h => .inl h.1.1

/-- The changes that the loop applies, if there is no conflict. -/
theorem resolve_lookup (ho : ∀ id, ours.lookup id = changeOf (base id) (o id))
    (ht : ∀ id, theirs.lookup id = changeOf (base id) (t id))
    (h : ∀ id, ¬ Differ (base id) (o id) (t id)) (id : UInt64) :
    resolve (ours.lookup id) (theirs.lookup id) =
      changeOf (base id) (expected (base id) (o id) (t id)) := by
  rw [ho, ht, resolve_changeOf (h id)]

theorem expected_of_notMem (it : Iteration) (n : Nat)
    (ho : ∀ id, ours.lookup id = changeOf (base id) (o id))
    (ht : ∀ id, theirs.lookup id = changeOf (base id) (t id)) {id : UInt64}
    (h : id ∉ it.order n (changedIds ours theirs)) :
    expected (base id) (o id) (t id) = base id := by
  rw [mem_order_changedIds it n ho ht, not_or, not_ne_iff, not_ne_iff] at h
  rw [expected, if_neg (not_ne_iff.2 h.1), h.2]

end Ids

namespace Content

/-- Some element was changed differently by the two sides. -/
def Clash (base ours theirs : Content) : Prop :=
  (∃ id, Differ (base.nodes id) (ours.nodes id) (theirs.nodes id)) ∨
    (∃ id, Differ (base.edges id) (ours.edges id) (theirs.edges id)) ∨
    ∃ id, Differ (base.regions id) (ours.regions id) (theirs.regions id)

/-- Every element as the side that changed it has it. -/
def expected (base ours theirs : Content) : Content where
  nodes id := Scg.expected (base.nodes id) (ours.nodes id) (theirs.nodes id)
  edges id := Scg.expected (base.edges id) (ours.edges id) (theirs.edges id)
  regions id := Scg.expected (base.regions id) (ours.regions id) (theirs.regions id)

/-- What the merge gives: the edges of the base that have not lost an end, changed. -/
def merged (base want : Content) : Content where
  nodes := want.nodes
  edges id := edgeValue want.nodes
    ((base.edges id).filter fun d => (want.nodes d.source).isSome ∧ (want.nodes d.target).isSome)
    (changeOf (base.edges id) (want.edges id))
  regions := want.regions

end Content

theorem expected_eq_or {α : Type} [DecidableEq α] (b o t : Option α) :
    expected b o t = o ∨ expected b o t = t := by
  rw [expected]
  split_ifs
  · exact .inl rfl
  · exact .inr rfl

/-- Without a conflict, a loop on a valid graph follows the content. -/
theorem SCG.Valid.mergeChanges {α : Type} [DecidableEq α]
    (apply : SCG → UInt64 → ElementChange α → SCG) (entry : UInt64 → ElementChange α → DiffEntry)
    {b o t : UInt64 → Option α} {om tm : HashMap UInt64 (ElementChange α)}
    (hom : ∀ id, om.lookup id = changeOf (b id) (o id))
    (htm : ∀ id, tm.lookup id = changeOf (b id) (t id))
    (hno : ∀ id, ¬ Differ (b id) (o id) (t id))
    (hstep : ∀ (g : SCG) id ch, g.Valid →
      changeOf (b id) (expected (b id) (o id) (t id)) = some ch → (apply g id ch).Valid ∧
        (apply g id ch).content = g.content.tryEntry (entry id ch))
    {g : SCG} (hg : g.Valid) (ids : List UInt64) :
    (mergeChanges apply b om tm ids g).1.Valid ∧
      (mergeChanges apply b om tm ids g).1.content =
        Scg.applyChanges (fun c id ch => c.tryEntry (entry id ch))
          (fun id => changeOf (b id) (expected (b id) (o id) (t id))) ids g.content := by
  rw [mergeChanges_eq]
  simp only [resolve_lookup hom htm hno]
  exact hg.applyChanges apply entry _ hstep ids

section Loops

variable {base ours theirs : SCG} (hb : base.Valid) (ho : ours.Valid) (ht : theirs.Valid)
  (it : Iteration) (n : Nat)

include ho ht

theorem expected_getNode {id : NodeId} {d : NodeData}
    (hd : expected (base.getNode id) (ours.getNode id) (theirs.getNode id) = some d) :
    d.id = id ∧ id.toNat < 2 ^ 64 - 1 := by
  rcases expected_eq_or (base.getNode id) (ours.getNode id) (theirs.getNode id) with h | h <;>
    rw [h] at hd
  · exact ⟨ho.getNode_id hd, ho.node_toNat_lt (Option.isSome_of_eq_some hd)⟩
  · exact ⟨ht.getNode_id hd, ht.node_toNat_lt (Option.isSome_of_eq_some hd)⟩

theorem expected_getEdge {id : EdgeId} {d : EdgeData}
    (hd : expected (base.getEdge id) (ours.getEdge id) (theirs.getEdge id) = some d) :
    d.id = id ∧ id.toNat < 2 ^ 64 - 1 := by
  rcases expected_eq_or (base.getEdge id) (ours.getEdge id) (theirs.getEdge id) with h | h <;>
    rw [h] at hd
  · exact ⟨ho.getEdge_id hd, ho.edge_toNat_lt (Option.isSome_of_eq_some hd)⟩
  · exact ⟨ht.getEdge_id hd, ht.edge_toNat_lt (Option.isSome_of_eq_some hd)⟩

theorem expected_getRegion {id : RegionId} {d : SCGRegion}
    (hd : expected (base.getRegion id) (ours.getRegion id) (theirs.getRegion id) = some d) :
    d.id = id := by
  rcases expected_eq_or (base.getRegion id) (ours.getRegion id) (theirs.getRegion id) with h | h <;>
    rw [h] at hd
  · exact ho.closed.region_id id d hd
  · exact ht.closed.region_id id d hd

include hb in
theorem mergeNodes {om tm : HashMap NodeId (ElementChange NodeData)}
    (hom : ∀ id, om.lookup id = changeOf (base.getNode id) (ours.getNode id))
    (htm : ∀ id, tm.lookup id = changeOf (base.getNode id) (theirs.getNode id))
    (hno : ∀ id, ¬ Differ (base.getNode id) (ours.getNode id) (theirs.getNode id)) :
    let g := (mergeChanges applyNodeChange base.getNode om tm
      (it.order n (changedIds om tm)) base).1
    let want := (base.content.expected ours.content theirs.content).nodes
    g.Valid ∧ g.content = { base.content with
      nodes := want
      edges := fun e => (base.getEdge e).filter fun d =>
        (want d.source).isSome ∧ (want d.target).isSome } := by
  intro g want
  have hfits : ∀ id ch, changeOf (base.getNode id) (want id) = some ch →
      ch.FitsAt NodeData.id id (base.getNode id) := by
    intro id ch hch
    cases ch with
    | added d =>
      obtain ⟨hnone, hsome⟩ := changeOf_eq_added hch
      exact ⟨hnone, expected_getNode ho ht hsome⟩
    | removed => exact (changeOf_eq_removed.1 hch).1
    | modified d =>
      obtain ⟨hsome, hd, -⟩ := changeOf_eq_modified hch
      exact ⟨hsome, (expected_getNode ho ht hd).1⟩
  have hstep : ∀ (g : SCG) id ch, g.Valid → changeOf (base.getNode id) (want id) = some ch →
      (applyNodeChange g id ch).Valid ∧
        (applyNodeChange g id ch).content = g.content.tryEntry (nodeEntry id ch) := by
    intro g id ch hg hch
    have hfit : (nodeEntry id ch).Fits := by
      cases ch with
      | added d =>
        obtain ⟨-, rfl, hlt⟩ := hfits id _ hch
        exact hlt
      | removed => trivial
      | modified d => trivial
    rw [hg.applyNodeChange_eq ?_ hfit]
    · exact hg.orElse hfit
    · rintro d rfl
      exact (hfits id _ hch).2.1
  obtain ⟨hvalid, hcontent⟩ := hb.mergeChanges applyNodeChange nodeEntry hom htm hno hstep
    (it.order n (changedIds om tm))
  refine ⟨hvalid, hcontent.trans ((foldl_nodeChanges (nodup_order_changedIds it n)
    fun id _ ch hch => hfits id ch hch).trans ?_)⟩
  have hkeep : ∀ k, k ∉ it.order n (changedIds om tm) → want k = base.getNode k :=
    fun k hk => expected_of_notMem it n hom htm hk
  have hgone : ∀ k, (base.getNode k).isSome →
      (¬ (k ∈ it.order n (changedIds om tm) ∧
        changeOf (base.getNode k) (want k) = some .removed) ↔ (want k).isSome) := by
    intro k hk
    rw [changeOf_eq_removed, ← not_iff_not, not_not, Option.not_isSome_iff_eq_none]
    refine ⟨fun h => h.2.2, fun h => ⟨?_, hk, h⟩⟩
    refine by_contra fun hmem => ?_
    rw [← hkeep k hmem, h] at hk
    cases hk
  refine Content.ext (funext fun k => ?_) (funext fun e => ?_) rfl
  · show (if _ then _ else _) = want k
    split_ifs with hmem
    · split
      · exact changeOf_data ‹_›
      · exact (changeOf_eq_none.1 ‹_›).symm
    · exact (hkeep k hmem).symm
  · show (base.getEdge e).filter _ = (base.getEdge e).filter _
    cases he : base.getEdge e with
    | none => rfl
    | some d =>
      have hs := hgone d.source (hb.closed.source e d he)
      have ht := hgone d.target (hb.closed.target e d he)
      rw [Option.filter_some, Option.filter_some]
      exact if_congr (by rw [decide_eq_true_iff, decide_eq_true_iff, hs, ht]) rfl rfl

theorem mergeEdges {g : SCG} (hg : g.Valid) {om tm : HashMap EdgeId (ElementChange EdgeData)}
    (hom : ∀ id, om.lookup id = changeOf (base.getEdge id) (ours.getEdge id))
    (htm : ∀ id, tm.lookup id = changeOf (base.getEdge id) (theirs.getEdge id))
    (hno : ∀ id, ¬ Differ (base.getEdge id) (ours.getEdge id) (theirs.getEdge id)) :
    let g' := (mergeChanges applyEdgeChange base.getEdge om tm (it.order n (changedIds om tm)) g).1
    let want := (base.content.expected ours.content theirs.content).edges
    g'.Valid ∧ g'.content = { g.content with
      edges := fun k => edgeValue g.getNode (g.getEdge k)
        (changeOf (base.getEdge k) (want k)) } := by
  intro g' want
  have hadded : ∀ id d, changeOf (base.getEdge id) (want id) = some (.added d) →
      d.id = id ∧ id.toNat < 2 ^ 64 - 1 :=
    fun id d hd => expected_getEdge ho ht (changeOf_eq_added hd).2
  have hstep : ∀ (g : SCG) id ch, g.Valid → changeOf (base.getEdge id) (want id) = some ch →
      (applyEdgeChange g id ch).Valid ∧
        (applyEdgeChange g id ch).content = g.content.tryEntry (edgeEntry id ch) := by
    intro g id ch hg hch
    have hfit : (edgeEntry id ch).Fits := by
      cases ch with
      | added d =>
        obtain ⟨rfl, hlt⟩ := hadded id d hch
        exact hlt
      | removed => trivial
      | modified d => trivial
    rw [hg.applyEdgeChange_eq ?_ hfit]
    · exact hg.orElse hfit
    · rintro d rfl
      exact (hadded id d hch).1
  obtain ⟨hvalid, hcontent⟩ := hg.mergeChanges applyEdgeChange edgeEntry hom htm hno hstep
    (it.order n (changedIds om tm))
  refine ⟨hvalid, hcontent.trans ((foldl_edgeChanges (nodup_order_changedIds it n)
    fun id d hd => (hadded id d hd).1).trans ?_)⟩
  refine Content.ext rfl (funext fun k => ?_) rfl
  show (if _ then _ else _) =
    edgeValue g.getNode (g.getEdge k) (changeOf (base.getEdge k) (want k))
  split_ifs with hmem
  · rfl
  · have hkeep : want k = base.getEdge k := expected_of_notMem it n hom htm hmem
    rw [changeOf_eq_none.2 hkeep]
    rfl

theorem mergeRegions {g : SCG} (hg : g.Valid)
    (hregions : g.getRegion = base.getRegion)
    {om tm : HashMap RegionId (ElementChange SCGRegion)}
    (hom : ∀ id, om.lookup id = changeOf (base.getRegion id) (ours.getRegion id))
    (htm : ∀ id, tm.lookup id = changeOf (base.getRegion id) (theirs.getRegion id))
    (hno : ∀ id, ¬ Differ (base.getRegion id) (ours.getRegion id) (theirs.getRegion id)) :
    let g' := (mergeChanges applyRegionChange base.getRegion om tm
      (it.order n (changedIds om tm)) g).1
    g'.Valid ∧ g'.content = { g.content with
      regions := (base.content.expected ours.content theirs.content).regions } := by
  intro g'
  have hadded : ∀ id d, changeOf (base.getRegion id)
      ((base.content.expected ours.content theirs.content).regions id) = some (.added d) →
      d.id = id := fun id d hd => expected_getRegion ho ht (changeOf_eq_added hd).2
  obtain ⟨hvalid, hcontent⟩ := hg.mergeChanges applyRegionChange regionEntry hom htm hno
    (fun g id ch hg hch => by
      have hfit : (regionEntry id ch).Fits := by cases ch <;> trivial
      rw [SCG.Valid.applyRegionChange_eq]
      · exact hg.orElse hfit
      · rintro d rfl
        exact hadded id d hch) (it.order n (changedIds om tm))
  refine ⟨hvalid, hcontent.trans ((foldl_regionChanges (nodup_order_changedIds it n)
    fun id d hd => hadded id d hd).trans ?_)⟩
  refine Content.ext rfl rfl (funext fun k => ?_)
  show (if _ then regionValue k (g.getRegion k) _ else g.getRegion k) = _
  rw [hregions]
  split_ifs with hmem
  · generalize hwant : (base.content.expected ours.content theirs.content).regions k = w
    cases hch : changeOf (base.getRegion k) w with
    | none => exact (changeOf_eq_none.1 hch).symm
    | some ch =>
      cases ch with
      | added d =>
        obtain ⟨hnone, hd⟩ := changeOf_eq_added hch
        rw [hnone, hd]
        rfl
      | removed => exact (changeOf_eq_removed.1 hch).2.symm
      | modified d =>
        obtain ⟨hsome, rfl, -⟩ := changeOf_eq_modified hch
        obtain ⟨old, hold⟩ := Option.isSome_iff_exists.1 hsome
        obtain rfl := expected_getRegion ho ht hwant
        rw [hold]
        rfl
  · exact (expected_of_notMem it n hom htm hmem).symm

end Loops

/-- The conflicts of a merge. -/
structure MergeConflict.Of (c : MergeConflict) (base ours theirs : Content) : Prop where
  nodes : Conflicts base.nodes ours.nodes theirs.nodes c.nodeConflicts
  edges : Conflicts base.edges ours.edges theirs.edges c.edgeConflicts
  regions : Conflicts base.regions ours.regions theirs.regions c.regionConflicts

theorem MergeConflict.Of.isEmpty_iff {c : MergeConflict} {base ours theirs : Content}
    (h : c.Of base ours theirs) : c.isEmpty ↔ ¬ Content.Clash base ours theirs := by
  rw [isEmpty, Bool.and_eq_true, Bool.and_eq_true, h.nodes.isEmpty_iff, h.edges.isEmpty_iff,
    h.regions.isEmpty_iff, Content.Clash, not_or, not_or, and_assoc]

/-- What a merge returns. -/
theorem threeWayMerge_spec (it : MergeIteration) {base ours theirs : SCG} (hb : base.Valid)
    (ho : ours.Valid) (ht : theirs.Valid) :
    (Content.Clash base.content ours.content theirs.content ∧ ∃ c,
      threeWayMerge it base ours theirs = .err c ∧
        c.Of base.content ours.content theirs.content) ∨
    (¬ Content.Clash base.content ours.content theirs.content ∧ ∃ m,
      threeWayMerge it base ours theirs = .ok m ∧ m.Valid ∧
        m.content = base.content.merged (base.content.expected ours.content theirs.content)) := by
  obtain ⟨diffOurs, hdo, hon, hoe, hor⟩ := diffScg_changes (ε := MergeConflict) it.ours hb ho
  obtain ⟨diffTheirs, hdt, htn, hte, htr⟩ := diffScg_changes (ε := MergeConflict) it.theirs hb ht
  rw [threeWayMerge, hdo, Outcome.ok_bind, hdt, Outcome.ok_bind]
  dsimp only
  have hcn := conflicts_mergeChanges applyNodeChange it.merge 0 hon htn base
  have hmn := mergeNodes hb ho ht it.merge 0 hon htn
  dsimp only at hmn
  generalize mergeChanges applyNodeChange _ _ _ _ _ = p at *
  obtain ⟨g, nodeConflicts⟩ := p
  have hce := conflicts_mergeChanges applyEdgeChange it.merge 1 hoe hte g
  have hme := fun hg => mergeEdges ho ht it.merge 1 (g := g) hg hoe hte
  dsimp only at hme
  generalize mergeChanges applyEdgeChange _ _ _ _ _ = p at *
  obtain ⟨g', edgeConflicts⟩ := p
  have hcr := conflicts_mergeChanges applyRegionChange it.merge 2 hor htr g'
  have hmr := fun hg hregions => mergeRegions ho ht it.merge 2 (g := g') hg hregions hor htr
  dsimp only at hmr
  generalize mergeChanges applyRegionChange _ _ _ _ _ = p at *
  obtain ⟨g'', regionConflicts⟩ := p
  have hof : MergeConflict.Of ⟨nodeConflicts, edgeConflicts, regionConflicts⟩ base.content
    ours.content theirs.content := ⟨hcn, hce, hcr⟩
  by_cases hclash : Content.Clash base.content ours.content theirs.content
  · refine .inl ⟨hclash, _, if_neg fun hempty => ?_, hof⟩
    exact hof.isEmpty_iff.1 hempty hclash
  · refine .inr ⟨hclash, _, if_pos (hof.isEmpty_iff.2 hclash), ?_⟩
    rw [Content.Clash, not_or, not_or, not_exists, not_exists, not_exists] at hclash
    obtain ⟨hn, he, hr⟩ := hclash
    obtain ⟨hg, hgc⟩ := hmn hn
    obtain ⟨hg', hgc'⟩ := hme hg he
    have hregions : g'.getRegion = base.getRegion :=
      (congrArg Content.regions hgc').trans (congrArg Content.regions hgc)
    obtain ⟨hg'', hgc''⟩ := hmr hg' hregions hr
    refine ⟨hg'', hgc''.trans (Content.ext ?_ ?_ rfl)⟩
    · have hnodes : g'.getNode = g.getNode := congrArg Content.nodes hgc'
      exact hnodes.trans (congrArg Content.nodes hgc)
    · refine (congrArg Content.edges hgc').trans (funext fun k => ?_)
      have hnodes : g.getNode = _ := congrArg Content.nodes hgc
      have hedges : g.getEdge = _ := congrArg Content.edges hgc
      show edgeValue g.getNode (g.getEdge k) _ = _
      rw [hnodes, hedges]
      rfl

/-! ## Merges that lose nothing -/

namespace Content

variable {base ours theirs : Content}

/-- One side removes a node at which the other has a new or modified edge. -/
def Cross (base remover editor : Content) : Prop :=
  ∃ n, (base.nodes n).isSome ∧ remover.nodes n = none ∧ ∃ id d, editor.edges id = some d ∧
    editor.edges id ≠ base.edges id ∧ (d.source = n ∨ d.target = n)

/-- A side adds no edge at a node that the other side removes, and no edge gets other ends. -/
structure Apart (base remover editor : Content) : Prop where
  added : ∀ id d, base.edges id = none → editor.edges id = some d → ∀ n, (base.nodes n).isSome →
    remover.nodes n = none → d.source ≠ n ∧ d.target ≠ n
  ends : ∀ id d d', base.edges id = some d → editor.edges id = some d' →
    d'.source = d.source ∧ d'.target = d.target

theorem expected_comm {α : Type} [DecidableEq α] {b o t : Option α} (h : ¬ Differ b o t) :
    Scg.expected b o t = Scg.expected b t o := by
  rw [Scg.expected, Scg.expected]
  split_ifs with ho ht ht
  · exact by_contra fun hne => h ⟨ho, ht, hne⟩
  · rfl
  · rfl
  · rw [not_not.1 ho, not_not.1 ht]

theorem Clash.comm (h : Clash base ours theirs) : Clash base theirs ours := by
  have hd : ∀ {α : Type} {b o t : Option α}, Differ b o t → Differ b t o :=
    fun hd => ⟨hd.2.1, hd.1, hd.2.2.symm⟩
  rcases h with ⟨id, h⟩ | ⟨id, h⟩ | ⟨id, h⟩
  · exact .inl ⟨id, hd h⟩
  · exact .inr (.inl ⟨id, hd h⟩)
  · exact .inr (.inr ⟨id, hd h⟩)

theorem expected_swap (h : ¬ Clash base ours theirs) :
    base.expected ours theirs = base.expected theirs ours := by
  rw [Clash, not_or, not_or, not_exists, not_exists, not_exists] at h
  exact Content.ext (funext fun id => expected_comm (h.1 id))
    (funext fun id => expected_comm (h.2.1 id)) (funext fun id => expected_comm (h.2.2 id))

/-- A side that has removed an end of an edge has changed the edge. -/
theorem Closed.edge_ne (ho : ours.Closed) {id : EdgeId} {d : EdgeData}
    (hd : base.edges id = some d) (h : ours.nodes d.source = none ∨ ours.nodes d.target = none) :
    ours.edges id ≠ base.edges id := by
  intro heq
  rw [hd] at heq
  have hs := ho.source id d heq
  have ht := ho.target id d heq
  rcases h with h | h
  · rw [h] at hs
    cases hs
  · rw [h] at ht
    cases ht

theorem expected_ne {α : Type} [DecidableEq α] {b o t : Option α} (h : ¬ Differ b o t)
    (hne : o ≠ b ∨ t ≠ b) : Scg.expected b o t ≠ b := by
  rcases hne with hne | hne
  · rwa [Scg.expected, if_pos hne]
  · rwa [expected_comm h, Scg.expected, if_pos hne]

theorem isSome_expected {α : Type} [DecidableEq α] {b o t : Option α} (ho : o.isSome)
    (ht : b.isSome → t.isSome) : (Scg.expected b o t).isSome := by
  rw [Scg.expected]
  split_ifs with hne
  · exact ho
  · exact ht (not_not.1 hne ▸ ho)

theorem merged_edge (hb : base.Closed) (ho : ours.Closed) (ht : theirs.Closed)
    (hno : ¬ Clash base ours theirs) (h : Apart base theirs ours) {id : EdgeId}
    (hwant : (base.expected ours theirs).edges id = ours.edges id) :
    (base.merged (base.expected ours theirs)).edges id = (base.expected ours theirs).edges id := by
  have hnode : ∀ n, (ours.nodes n).isSome → ((base.nodes n).isSome → (theirs.nodes n).isSome) →
      ((base.expected ours theirs).nodes n).isSome := fun n => isSome_expected
  have hnone : ∀ n, (base.expected ours theirs).nodes n = none →
      ours.nodes n = none ∨ theirs.nodes n = none := by
    intro n hn
    rcases expected_eq_or (base.nodes n) (ours.nodes n) (theirs.nodes n) with heq | heq
    · exact .inl (heq.symm.trans hn)
    · exact .inr (heq.symm.trans hn)
  rw [Clash, not_or, not_or, not_exists, not_exists, not_exists] at hno
  have hne : (ours.edges id ≠ base.edges id ∨ theirs.edges id ≠ base.edges id) →
      (base.expected ours theirs).edges id ≠ base.edges id := expected_ne (hno.2.1 id)
  generalize hw : base.expected ours theirs = want at *
  show edgeValue want.nodes ((base.edges id).filter _) (changeOf _ _) = _
  cases hch : changeOf (base.edges id) (want.edges id) with
  | none =>
    rw [changeOf_eq_none.1 hch]
    cases hd : base.edges id with
    | none => rfl
    | some d =>
      have hkept : ∀ n, (ours.nodes n = none ∨ theirs.nodes n = none →
          ours.edges id ≠ base.edges id ∨ theirs.edges id ≠ base.edges id) →
          (want.nodes n).isSome := by
        intro n hn
        refine Option.isSome_iff_ne_none.2 fun hnone' => ?_
        exact hne (hn (hnone n hnone')) (changeOf_eq_none.1 hch)
      have hs := hkept d.source (Or.imp (fun h => ho.edge_ne hd (.inl h))
        fun h => ht.edge_ne hd (.inl h))
      have ht := hkept d.target (Or.imp (fun h => ho.edge_ne hd (.inr h))
        fun h => ht.edge_ne hd (.inr h))
      simp [edgeValue, Option.filter_some, hs, ht]
  | some ch =>
    cases ch with
    | added d =>
      obtain ⟨hnone, hd⟩ := changeOf_eq_added hch
      have hour : ours.edges id = some d := hwant.symm.trans hd
      have hs : (want.nodes d.source).isSome := by
        refine hnode _ (ho.source id d hour) fun hbase => ?_
        refine Option.isSome_iff_ne_none.2 fun hrem => ?_
        exact (h.added id d hnone hour _ hbase hrem).1 rfl
      have ht : (want.nodes d.target).isSome := by
        refine hnode _ (ho.target id d hour) fun hbase => ?_
        refine Option.isSome_iff_ne_none.2 fun hrem => ?_
        exact (h.added id d hnone hour _ hbase hrem).2 rfl
      simp [edgeValue, hnone, hd, hs, ht]
    | removed =>
      exact (changeOf_eq_removed.1 hch).2.symm
    | modified d =>
      obtain ⟨hsome, hd, hdiff⟩ := changeOf_eq_modified hch
      obtain ⟨old, hold⟩ := Option.isSome_iff_exists.1 hsome
      have hour : ours.edges id = some d := hwant.symm.trans hd
      obtain ⟨hsrc, htgt⟩ := h.ends id old d hold hour
      -- the other side has the same edge, if it has changed it at all
      have hother : ∀ n, (n = d.source ∨ n = d.target) → (theirs.nodes n).isSome := by
        intro n hn
        by_cases hkeep : theirs.edges id = base.edges id
        · rw [hold] at hkeep
          rcases hn with rfl | rfl
          · exact hsrc ▸ ht.source id old hkeep
          · exact htgt ▸ ht.target id old hkeep
        · have heq : ours.edges id = theirs.edges id := by
            refine by_contra fun hne' => hno.2.1 id ⟨?_, hkeep, hne'⟩
            rw [← hwant]
            exact hdiff.symm
          rw [hour] at heq
          rcases hn with rfl | rfl
          · exact ht.source id d heq.symm
          · exact ht.target id d heq.symm
      have hs := hnode _ (ho.source id d hour) fun _ => hother _ (.inl rfl)
      have ht := hnode _ (ho.target id d hour) fun _ => hother _ (.inr rfl)
      have hid : old.id = d.id := (hb.edge_id id old hold).trans (ho.edge_id id d hour).symm
      rw [hsrc] at hs
      rw [htgt] at ht
      rw [hold, Option.filter_some, if_pos (by simp [hs, ht]), hd]
      cases d
      cases old
      simp_all [edgeValue]

theorem merged_eq (hb : base.Closed) (ho : ours.Closed) (ht : theirs.Closed)
    (hno : ¬ Clash base ours theirs) (h : Apart base theirs ours) (h' : Apart base ours theirs) :
    base.merged (base.expected ours theirs) = base.expected ours theirs := by
  refine Content.ext rfl (funext fun id => ?_) rfl
  rcases expected_eq_or (base.edges id) (ours.edges id) (theirs.edges id) with hw | hw
  · exact merged_edge hb ho ht hno h hw
  · have hswap := expected_swap hno
    rw [hswap]
    refine merged_edge hb ht ho (mt Clash.comm hno) h' ?_
    rw [← hswap]
    exact hw

theorem Apart.not_cross (ht : theirs.Closed) (hno : ¬ Clash base ours theirs)
    (h : Apart base theirs ours) : ¬ Cross base theirs ours := by
  rintro ⟨n, hbase, hrem, id, d, hd, hne, hends⟩
  cases hold : base.edges id with
  | none =>
    obtain ⟨hs, ht⟩ := h.added id d hold hd n hbase hrem
    exact hends.elim hs ht
  | some old =>
    obtain ⟨hs, htgt⟩ := h.ends id old d hold hd
    refine hno (.inr (.inl ⟨id, hne, ?_, ?_⟩))
    · refine ht.edge_ne hold ?_
      rcases hends with rfl | rfl
      · exact .inl (hs ▸ hrem)
      · exact .inr (htgt ▸ hrem)
    · intro heq
      rw [hd] at heq
      have hs := ht.source id d heq.symm
      have ht := ht.target id d heq.symm
      rcases hends with rfl | rfl
      · rw [hrem] at hs
        cases hs
      · rw [hrem] at ht
        cases ht

theorem ends_of_merged_eq
    (h : base.merged (base.expected ours theirs) = base.expected ours theirs) {id : EdgeId}
    {d d' : EdgeData} (hd : base.edges id = some d) (hd' : ours.edges id = some d') :
    d'.source = d.source ∧ d'.target = d.target := by
  by_cases hne : d = d'
  · rw [hne]
    exact ⟨rfl, rfl⟩
  · have hwant : (base.expected ours theirs).edges id = some d' := by
      show Scg.expected _ _ _ = _
      rw [Scg.expected, hd, hd', if_pos (by simpa using Ne.symm hne)]
    have hedge := congrArg (fun c => c.edges id) h
    dsimp only [merged] at hedge
    rw [hwant, hd, changeOf, if_pos hne, edgeValue, Option.map_eq_some_iff] at hedge
    obtain ⟨x, hx, hd'⟩ := hedge
    rw [Option.filter_eq_some_iff, Option.some.injEq] at hx
    obtain ⟨rfl, -⟩ := hx
    rw [← hd']
    exact ⟨rfl, rfl⟩

end Content

/-- The conflict that is found when the sides change places. -/
def ElementConflict.swap {α : Type} (c : ElementConflict α) : ElementConflict α :=
  ⟨c.id, c.base, c.theirs, c.ours⟩

/-- Two merges give the same graph, or find the same conflicts with the sides swapped. -/
inductive SameMerge : Outcome MergeConflict SCG → Outcome MergeConflict SCG → Prop
  | ok {m m' : SCG} (h : m.content = m'.content) : SameMerge (.ok m) (.ok m')
  | err {c c' : MergeConflict} (hn : ∀ x, x ∈ c.nodeConflicts ↔ x.swap ∈ c'.nodeConflicts)
    (he : ∀ x, x ∈ c.edgeConflicts ↔ x.swap ∈ c'.edgeConflicts)
    (hr : ∀ x, x ∈ c.regionConflicts ↔ x.swap ∈ c'.regionConflicts) :
    SameMerge (.err c) (.err c')

/-- A merge loses no change: it reports a conflict exactly if the sides changed something
differently, its result has every element as the side that changed it, and the order of the sides
does not matter. -/
structure MergeLossless (it it' : MergeIteration) (base ours theirs : SCG) : Prop where
  conflict : (∃ c, threeWayMerge it base ours theirs = .err c) ↔
    Content.Clash base.content ours.content theirs.content ∨
      Content.Cross base.content ours.content theirs.content ∨
      Content.Cross base.content theirs.content ours.content
  merged : ∀ m, threeWayMerge it base ours theirs = .ok m →
    m.content = base.content.expected ours.content theirs.content ∧
      ∀ id d, m.getEdge id = some d → (m.getNode d.source).isSome ∧ (m.getNode d.target).isSome
  swap : SameMerge (threeWayMerge it base ours theirs) (threeWayMerge it' base theirs ours)

theorem Conflicts.swap {α : Type} {base ours theirs : UInt64 → Option α}
    {l l' : List (ElementConflict α)} (h : Conflicts base ours theirs l)
    (h' : Conflicts base theirs ours l') (x : ElementConflict α) : x ∈ l ↔ x.swap ∈ l' := by
  rw [h, h']
  refine exists_congr fun id => and_congr ?_ ?_
  · exact ⟨fun hd => ⟨hd.2.1, hd.1, hd.2.2.symm⟩, fun hd => ⟨hd.2.1, hd.1, hd.2.2.symm⟩⟩
  · constructor
    · rintro rfl
      rfl
    · intro hx
      rw [ElementConflict.swap, ElementConflict.mk.injEq] at hx
      obtain ⟨hid, hb, ht, ho⟩ := hx
      cases x
      simp_all

/-- The order of the sides does not matter. -/
theorem threeWayMerge_swap (it it' : MergeIteration) {base ours theirs : SCG} (hb : base.Valid)
    (ho : ours.Valid) (ht : theirs.Valid) :
    SameMerge (threeWayMerge it base ours theirs) (threeWayMerge it' base theirs ours) := by
  rcases threeWayMerge_spec it hb ho ht with ⟨hc, c, heq, hof⟩ | ⟨hno, m, heq, -, hm⟩ <;>
    rcases threeWayMerge_spec it' hb ht ho with ⟨hc', c', heq', hof'⟩ | ⟨hno', m', heq', -, hm'⟩ <;>
    rw [heq, heq']
  · exact .err (hof.nodes.swap hof'.nodes) (hof.edges.swap hof'.edges)
      (hof.regions.swap hof'.regions)
  · exact absurd hc.comm hno'
  · exact absurd hc'.comm hno
  · exact .ok (hm.trans ((congrArg _ (Content.expected_swap hno)).trans hm'.symm))

/-- A merge loses no change exactly if it finds a conflict, or no side gives an edge other ends or
adds an edge at a node that the other side removes; whatever the order of the hash sets is. -/
theorem threeWayMerge_iff (it it' : MergeIteration) (base ours theirs : SCG) (hb : base.Built)
    (ho : ours.Built) (ht : theirs.Built) :
    MergeLossless it it' base ours theirs ↔
      Content.Clash base.content ours.content theirs.content ∨
        Content.Apart base.content theirs.content ours.content ∧
          Content.Apart base.content ours.content theirs.content := by
  have hb := hb.valid
  have ho := ho.valid
  have ht := ht.valid
  have hswap := threeWayMerge_swap it it' hb ho ht
  rcases threeWayMerge_spec it hb ho ht with ⟨hc, c, heq, hof⟩ | ⟨hno, m, heq, hvalid, hm⟩
  · refine iff_of_true ⟨iff_of_true ⟨c, heq⟩ (.inl hc), ?_, hswap⟩ (.inl hc)
    intro m hm
    rw [heq] at hm
    cases hm
  · rw [or_iff_right hno]
    constructor
    · intro h
      have hcross := mt h.conflict.2 (by simp [heq])
      rw [or_iff_right hno, not_or] at hcross
      have hmerged := hm.symm.trans (h.merged m heq).1
      have hmerged' := hmerged
      rw [Content.expected_swap hno] at hmerged'
      refine ⟨⟨?_, fun id d d' => Content.ends_of_merged_eq hmerged⟩,
        ⟨?_, fun id d d' => Content.ends_of_merged_eq hmerged'⟩⟩
      · intro id d hnone hd n hbase hrem
        refine not_or.1 fun hends => hcross.2 ⟨n, hbase, hrem, id, d, hd, ?_, hends⟩
        rw [hd, hnone]
        exact nofun
      · intro id d hnone hd n hbase hrem
        refine not_or.1 fun hends => hcross.1 ⟨n, hbase, hrem, id, d, hd, ?_, hends⟩
        rw [hd, hnone]
        exact nofun
    · rintro ⟨h, h'⟩
      refine ⟨iff_of_false (by simp [heq]) ?_, ?_, hswap⟩
      · rw [or_iff_right hno, not_or]
        exact ⟨h'.not_cross ho.closed (mt Content.Clash.comm hno), h.not_cross ht.closed hno⟩
      · intro m' hm'
        rw [heq] at hm'
        cases hm'
        refine ⟨hm.trans (Content.merged_eq hb.closed ho.closed ht.closed hno h h'), ?_⟩
        intro id d hd
        exact ⟨hvalid.closed.source id d hd, hvalid.closed.target id d hd⟩

/-- The hash sets keep their order. -/
def MergeIteration.id : MergeIteration := ⟨.id, .id, .id⟩

/-- One of the two nodes is removed. -/
def oneNode : List Op := twoNodes ++ [.removeNode 0]

/-- A third node is added. -/
def threeNodes : List Op :=
  twoNodes ++ [.addNode .phantom (.phantom ⟨"c"⟩) ⟨none, none, none, none⟩]

theorem built_oneNode : (SCG.new.run oneNode).Built := by
  refine ⟨oneNode, ⟨?_, ?_, ?_, trivial⟩, rfl⟩ <;> rintro id (h | h) <;> cases h <;> decide

theorem built_threeNodes : (SCG.new.run threeNodes).Built := by
  refine ⟨threeNodes, ⟨?_, ?_, ?_, trivial⟩, rfl⟩ <;> rintro id (h | h) <;> cases h <;> decide

theorem threeWayMerge_oneEdge_threeNodes :
    MergeLossless .id .id (SCG.new.run twoNodes) (SCG.new.run oneEdge)
      (SCG.new.run threeNodes) := by
  have hkept : ∀ g : SCG, (g.getNode 0).isSome → (g.getNode 1).isSome →
      ∀ n, ((SCG.new.run twoNodes).getNode n).isSome → g.getNode n ≠ none := by
    intro g h0 h1 n hn
    obtain ⟨d, hd⟩ := Option.isSome_iff_exists.1 hn
    obtain ⟨idx, hidx, -⟩ := Option.bind_eq_some_iff.1 hd
    have hmem := HashMap.mem_keys_iff.2 (Option.isSome_of_eq_some hidx)
    have hkeys : (SCG.new.run twoNodes).nodeIdToIndex.keys = [1, 0] := rfl
    rw [hkeys, List.mem_cons, List.mem_singleton] at hmem
    rcases hmem with rfl | rfl
    · exact Option.isSome_iff_ne_none.1 h1
    · exact Option.isSome_iff_ne_none.1 h0
  refine (threeWayMerge_iff .id .id _ _ _ built_twoNodes built_oneEdge built_threeNodes).2
    (.inr ⟨⟨?_, nofun⟩, ⟨?_, nofun⟩⟩)
  · intro id d _ _ n hbase hrem
    exact absurd hrem (hkept (SCG.new.run threeNodes) rfl rfl n hbase)
  · intro id d _ _ n hbase hrem
    exact absurd hrem (hkept (SCG.new.run oneEdge) rfl rfl n hbase)

/-- An edge that one side adds at a node which the other removes is missing from the result, and an
edge that one side turns around is not turned around there. -/
theorem threeWayMerge_loses :
    (SCG.new.run oneNode).Built ∧ (SCG.new.run edgeTurned).Built ∧
    (∃ m, threeWayMerge .id (SCG.new.run twoNodes) (SCG.new.run oneNode) (SCG.new.run oneEdge) =
        .ok m ∧ m.getEdge 0 = none ∧
      (SCG.new.run oneEdge).getEdge 0 = some ⟨0, 0, 1, .dataFlow, none⟩) ∧
    (∃ m, threeWayMerge .id (SCG.new.run oneEdge) (SCG.new.run oneEdge) (SCG.new.run edgeTurned) =
        .ok m ∧ m.getEdge 0 = some ⟨0, 0, 1, .dataFlow, none⟩ ∧
      (SCG.new.run edgeTurned).getEdge 0 = some ⟨0, 1, 0, .dataFlow, none⟩) ∧
    ¬ MergeLossless .id .id (SCG.new.run twoNodes) (SCG.new.run oneNode) (SCG.new.run oneEdge) := by
  refine ⟨built_oneNode, built_edgeTurned, ⟨_, rfl, rfl, rfl⟩, ⟨_, rfl, rfl, rfl⟩, fun h => ?_⟩
  have hedge := congrArg (fun c => c.edges 0) (h.merged _ rfl).1
  cases hedge

end Vuma.Scg
