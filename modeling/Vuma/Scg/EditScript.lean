import Vuma.Scg.DiffCorrect

/-!
# Edit scripts

`compute_edit_script` of `diff.rs`: the entries of a difference, in an order in which they can be
executed. Executing them gives the new graph exactly when no edge that is in both graphs gets other
ends.
-/

namespace Vuma.Scg

open Lib

/-- The kinds of `DiffEntry`. -/
inductive EntryKind where
  | nodeAdded
  | nodeRemoved
  | nodeModified
  | edgeAdded
  | edgeRemoved
  | edgeModified
  | regionAdded
  | regionRemoved
  | regionModified
  deriving DecidableEq, Repr

def DiffEntry.kind : DiffEntry → EntryKind
  | .nodeAdded _ => .nodeAdded
  | .nodeRemoved _ => .nodeRemoved
  | .nodeModified _ _ _ => .nodeModified
  | .edgeAdded _ => .edgeAdded
  | .edgeRemoved _ => .edgeRemoved
  | .edgeModified _ _ _ => .edgeModified
  | .regionAdded _ => .regionAdded
  | .regionRemoved _ => .regionRemoved
  | .regionModified _ _ _ => .regionModified

/-- The loops of `compute_edit_script`, each of which pushes the entries of one kind. -/
def phases : List EntryKind :=
  [.edgeRemoved, .nodeRemoved, .regionRemoved, .nodeModified, .edgeModified, .regionModified,
    .regionAdded, .nodeAdded, .edgeAdded]

def computeEditScript {ε : Type} (it : Iteration) (old new : SCG) :
    Outcome ε (List DiffEntry) := do
  let rawDiff ← diffScg it old new
  pure (phases.flatMap fun kind => rawDiff.filter fun entry => entry.kind = kind)

/-! ## Executing a script -/

/-- What an entry needs of the graph that it is executed on. -/
def DiffEntry.Ready (c : Content) : DiffEntry → Prop
  | .nodeAdded data => c.nodes data.id = none
  | .nodeRemoved id => (c.nodes id).isSome
  | .nodeModified id _ _ => (c.nodes id).isSome
  | .edgeAdded data =>
    c.edges data.id = none ∧ (c.nodes data.source).isSome ∧ (c.nodes data.target).isSome
  | .edgeRemoved id => (c.edges id).isSome
  | .edgeModified id _ _ => (c.edges id).isSome
  | .regionAdded data => c.regions data.id = none
  | .regionRemoved id => (c.regions id).isSome
  | .regionModified id _ _ => (c.regions id).isSome

/-- Every entry finds what it needs when it is executed. -/
inductive Executes : SCG → List DiffEntry → SCG → Prop
  | nil (g : SCG) : Executes g [] g
  | cons {g g' g'' : SCG} {entry : DiffEntry} {script : List DiffEntry}
      (ready : entry.Ready g.content) (step : applyEntry g entry = .ok g')
      (rest : Executes g' script g'') : Executes g (entry :: script) g''

/-- The edit script of two graphs turns the old one into one with the content of the new one. -/
def EditScriptWorks (it : Iteration) (old new : SCG) : Prop :=
  ∃ script g, computeEditScript (ε := DiffError) it old new = .ok script ∧ Executes old script g ∧
    g.content = new.content

/-! ## The entries in the order of the script -/

def scriptEntries (nodes : FamilyDiff NodeData) (edges : FamilyDiff EdgeData)
    (regions : FamilyDiff SCGRegion) : List DiffEntry :=
  edges.removed.map .edgeRemoved ++ nodes.removed.map .nodeRemoved ++
    regions.removed.map .regionRemoved ++
    nodes.modified.map (fun t => .nodeModified t.1 t.2.1 t.2.2) ++
    edges.modified.map (fun t => .edgeModified t.1 t.2.1 t.2.2) ++
    regions.modified.map (fun t => .regionModified t.1 t.2.1 t.2.2) ++
    regions.added.map .regionAdded ++ nodes.added.map .nodeAdded ++ edges.added.map .edgeAdded

theorem filter_kind {β : Type} (l : List β) (entry : β → DiffEntry) (kind kind' : EntryKind)
    (h : ∀ b, (entry b).kind = kind) :
    ((l.map entry).filter fun e => e.kind = kind') = if kind = kind' then l.map entry else [] := by
  have hkind : ∀ e ∈ l.map entry, e.kind = kind := by
    intro e he
    obtain ⟨b, -, rfl⟩ := List.mem_map.1 he
    exact h b
  split_ifs with heq
  · subst heq
    exact List.filter_eq_self.2 fun e he => decide_eq_true (hkind e he)
  · refine List.filter_eq_nil_iff.2 fun e he => ?_
    rw [hkind e he, decide_eq_true_eq]
    exact heq

theorem flatMap_phases (nodes : FamilyDiff NodeData) (edges : FamilyDiff EdgeData)
    (regions : FamilyDiff SCGRegion) :
    (phases.flatMap fun kind => (diffEntries nodes edges regions).filter fun e => e.kind = kind) =
      scriptEntries nodes edges regions := by
  have hall : ∀ kind, ((diffEntries nodes edges regions).filter fun e => e.kind = kind) =
      (if .nodeRemoved = kind then nodes.removed.map .nodeRemoved else []) ++
      (if .nodeModified = kind then
        nodes.modified.map (fun t => .nodeModified t.1 t.2.1 t.2.2) else []) ++
      (if .edgeRemoved = kind then edges.removed.map .edgeRemoved else []) ++
      (if .edgeModified = kind then
        edges.modified.map (fun t => .edgeModified t.1 t.2.1 t.2.2) else []) ++
      (if .regionRemoved = kind then regions.removed.map .regionRemoved else []) ++
      (if .regionModified = kind then
        regions.modified.map (fun t => .regionModified t.1 t.2.1 t.2.2) else []) ++
      (if .regionAdded = kind then regions.added.map .regionAdded else []) ++
      (if .edgeAdded = kind then edges.added.map .edgeAdded else []) ++
      (if .nodeAdded = kind then nodes.added.map .nodeAdded else []) := by
    intro kind
    rw [diffEntries]
    simp only [List.filter_append]
    rw [filter_kind _ _ .nodeRemoved kind fun _ => rfl,
      filter_kind _ _ .nodeModified kind fun _ => rfl,
      filter_kind _ _ .edgeRemoved kind fun _ => rfl,
      filter_kind _ _ .edgeModified kind fun _ => rfl,
      filter_kind _ _ .regionRemoved kind fun _ => rfl,
      filter_kind _ _ .regionModified kind fun _ => rfl,
      filter_kind _ _ .regionAdded kind fun _ => rfl,
      filter_kind _ _ .edgeAdded kind fun _ => rfl,
      filter_kind _ _ .nodeAdded kind fun _ => rfl]
  simp [phases, hall, scriptEntries]

/-! ## Executing on contents -/

/-- `Executes`, for what the graphs say. -/
inductive Content.Executes : Content → List DiffEntry → Content → Prop
  | nil (c : Content) : Executes c [] c
  | cons {c c' c'' : Content} {entry : DiffEntry} {script : List DiffEntry}
      (ready : entry.Ready c) (step : c.applyEntry entry = some c')
      (rest : Executes c' script c'') : Executes c (entry :: script) c''

namespace Content

variable {c c' c'' : Content} {script script' : List DiffEntry}

theorem Executes.append (h : Executes c script c') (h' : Executes c' script' c'') :
    Executes c (script ++ script') c'' := by
  induction h with
  | nil c => exact h'
  | cons ready step _ ih => exact .cons ready step (ih h')

/-- An entry that can be applied finds what it needs; only the removal of a region does not look. -/
theorem ready_of_applyEntry {entry : DiffEntry} (h : c.applyEntry entry = some c')
    (hkind : entry.kind ≠ .regionRemoved) : entry.Ready c := by
  cases entry with
  | regionRemoved id => exact absurd rfl hkind
  | nodeAdded data | regionAdded data =>
    rw [applyEntry] at h
    split_ifs at h with hnone
    exact Option.isNone_iff_eq_none.1 hnone
  | edgeAdded data =>
    rw [applyEntry] at h
    split_ifs at h with hends
    exact ⟨Option.isNone_iff_eq_none.1 hends.1, hends.2⟩
  | nodeRemoved id | nodeModified id old new | edgeRemoved id | edgeModified id old new
  | regionModified id old new =>
    rw [applyEntry] at h
    split_ifs at h with hsome
    exact hsome

theorem executes_of_foldlM (h : script.foldlM applyEntry c = some c')
    (hkind : ∀ entry ∈ script, entry.kind ≠ .regionRemoved) : Executes c script c' := by
  induction script generalizing c with
  | nil =>
    cases h
    exact .nil _
  | cons entry script ih =>
    rw [List.forall_mem_cons] at hkind
    obtain ⟨c₁, hstep, hrest⟩ := Option.bind_eq_some_iff.1 h
    exact .cons (ready_of_applyEntry hstep hkind.1) hstep (ih hrest hkind.2)

theorem executes_map {β : Type} {l : List β} {entry : β → DiffEntry} {kind : EntryKind}
    (h : (l.map entry).foldlM applyEntry c = some c') (hentry : ∀ b, (entry b).kind = kind)
    (hkind : kind ≠ .regionRemoved) : Executes c (l.map entry) c' := by
  refine executes_of_foldlM h fun e he => ?_
  obtain ⟨b, -, rfl⟩ := List.mem_map.1 he
  rw [hentry]
  exact hkind

theorem executes_regionRemoved {l : List RegionId} (hl : l.Nodup)
    (hsome : ∀ id ∈ l, (c.regions id).isSome) :
    Executes c (l.map .regionRemoved)
      { c with regions := fun k => if k ∈ l then none else c.regions k } := by
  induction l generalizing c with
  | nil => simpa using Executes.nil c
  | cons id l ih =>
    obtain ⟨hid, hl⟩ := List.nodup_cons.1 hl
    rw [List.forall_mem_cons] at hsome
    have hrest : ∀ k ∈ l, (Function.update c.regions id none k).isSome := by
      intro k hk
      have hne : k ≠ id := fun heq => hid (heq ▸ hk)
      rw [Function.update_of_ne hne]
      exact hsome.2 k hk
    have hregions : (fun k => if k ∈ l then none else Function.update c.regions id none k) =
        fun k => if k ∈ id :: l then none else c.regions k := by
      funext k
      by_cases hk : k = id <;> simp [hk]
    have hih := @ih { c with regions := Function.update c.regions id none } hl hrest
    dsimp only at hih
    rw [hregions] at hih
    exact .cons hsome.1 rfl hih

end Content

theorem Executes.follows {g g' : SCG} {script : List DiffEntry} (hg : g.Valid)
    (hfits : ∀ entry ∈ script, entry.Fits) (h : Executes g script g') :
    script.foldlM Content.applyEntry g.content = some g'.content := by
  induction h with
  | nil g => rfl
  | cons _ step _ ih =>
    rw [List.forall_mem_cons] at hfits
    have hfollows := hg.follows hfits.1
    rw [step] at hfollows
    rw [List.foldlM_cons]
    generalize Content.applyEntry _ _ = c at hfollows
    cases hfollows with
    | ok hg' => exact ih hg' hfits.2

theorem SCG.Valid.executes {g : SCG} {c' : Content} {script : List DiffEntry} (hg : g.Valid)
    (hfits : ∀ entry ∈ script, entry.Fits) (h : g.content.Executes script c') :
    ∃ g', Executes g script g' ∧ g'.content = c' := by
  induction script generalizing g with
  | nil =>
    cases h
    exact ⟨g, .nil g, rfl⟩
  | cons entry script ih =>
    rw [List.forall_mem_cons] at hfits
    cases h with
    | cons ready step rest =>
      have hfollows := hg.follows hfits.1
      rw [step] at hfollows
      generalize hstep : applyEntry g entry = o at hfollows
      cases hfollows with
      | ok hg₁ =>
        obtain ⟨g', hg', hcontent⟩ := ih hg₁ hfits.2 rest
        exact ⟨g', .cons ready hstep hg', hcontent⟩

/-! ## When the script works -/

/-- No edge that is in both graphs has other ends in the new one. -/
def Content.KeepsEnds (old new : Content) : Prop :=
  ∀ id d d', old.edges id = some d → new.edges id = some d' →
    d'.source = d.source ∧ d'.target = d.target

section Final

open FamilyDiff.Spec

variable {old new : Content} {nodes : FamilyDiff NodeData} {edges : FamilyDiff EdgeData}
  {regions : FamilyDiff SCGRegion}

theorem executes_scriptEntries (hold : old.Closed) (hnew : new.Closed)
    (hn : nodes.Spec NodeData.id old.nodes new.nodes)
    (he : edges.Spec EdgeData.id old.edges new.edges)
    (hr : regions.Spec SCGRegion.id old.regions new.regions) (h : Content.KeepsEnds old new) :
    old.Executes (scriptEntries nodes edges regions) new := by
  let nodes' := shared old.nodes new.nodes
  let edges' := kept old.edges new.edges
  have hnodeRemoved : (nodes.removed.map DiffEntry.nodeRemoved).foldlM Content.applyEntry
      ⟨old.nodes, edges', old.regions⟩ = some ⟨kept old.nodes new.nodes, edges', old.regions⟩ := by
    refine (Content.foldlM_nodeRemoved hn.removed_nodup).2
      ⟨fun id hid => ((hn.mem_removed id).1 hid).1, Content.ext hn.kept_eq_ite ?_ rfl⟩
    -- an edge that is left is in the new graph, with its ends
    funext e
    dsimp only [edges', kept]
    split_ifs with hsome
    · cases hd : old.edges e with
      | none => rfl
      | some d =>
        obtain ⟨d', hd'⟩ := Option.isSome_iff_exists.1 hsome
        obtain ⟨hs, ht⟩ := h e d d' hd hd'
        have hs' := hnew.source e d' hd'
        have ht' := hnew.target e d' hd'
        rw [hs, Option.isSome_iff_ne_none] at hs'
        rw [ht, Option.isSome_iff_ne_none] at ht'
        simp [Option.filter, hn.mem_removed, hs', ht']
    · rfl
  have hregionRemoved : Content.Executes ⟨kept old.nodes new.nodes, edges', old.regions⟩
      (regions.removed.map .regionRemoved)
      ⟨kept old.nodes new.nodes, edges', kept old.regions new.regions⟩ := by
    rw [hr.kept_eq_ite]
    exact Content.executes_regionRemoved hr.removed_nodup fun id hid =>
      ((hr.mem_removed id).1 hid).1
  rw [scriptEntries]
  refine ((((((((Content.executes_map (foldlM_removeEdges he old rfl) (fun _ => rfl) ?_).append
    (Content.executes_map hnodeRemoved (fun _ => rfl) ?_)).append hregionRemoved).append
    (Content.executes_map (foldlM_modifyNodes hn hnew _ rfl) (fun _ => rfl) ?_)).append
    (Content.executes_map (foldlM_modifyEdges he hold hnew h _ rfl) (fun _ => rfl) ?_)).append
    (Content.executes_map (foldlM_modifyRegions hr hnew _ rfl) (fun _ => rfl) ?_)).append
    (Content.executes_map (foldlM_addRegions hr hnew _ rfl) (fun _ => rfl) ?_)).append
    (Content.executes_map (foldlM_addNodes hn hnew _ rfl) (fun _ => rfl) ?_)).append
    (Content.executes_map (foldlM_addEdges he hnew _ rfl ?_) (fun _ => rfl) ?_)
  any_goals decide
  exact fun id d hd _ => ⟨hnew.source id d hd, hnew.target id d hd⟩

/-- An edge that is in both graphs keeps its old ends, when it is still there to be modified. -/
theorem keepsEnds_of_foldlM (hnew : new.Closed)
    (hn : nodes.Spec NodeData.id old.nodes new.nodes)
    (he : edges.Spec EdgeData.id old.edges new.edges)
    (hr : regions.Spec SCGRegion.id old.regions new.regions)
    (h : (scriptEntries nodes edges regions).foldlM Content.applyEntry old = some new) :
    Content.KeepsEnds old new := by
  simp only [scriptEntries, Content.foldlM_append_eq_some] at h
  obtain ⟨c₈, ⟨c₇, ⟨c₆, ⟨c₅, ⟨c₄, ⟨c₃, ⟨c₂, ⟨c₁, h₁, h₂⟩, h₃⟩, h₄⟩, h₅⟩, h₆⟩, h₇⟩, h₈⟩, h₉⟩ := h
  obtain ⟨-, edges₁, rfl, hedges₁, hedges₁'⟩ :=
    (Content.foldlM_edgeRemoved he.removed_nodup).1 h₁
  obtain ⟨-, rfl⟩ := (Content.foldlM_nodeRemoved hn.removed_nodup).1 h₂
  obtain ⟨regions₃, rfl, -, -⟩ := (Content.foldlM_regionRemoved hr.removed_nodup).1 h₃
  obtain ⟨-, nodes₄, rfl, -, -⟩ := (Content.foldlM_nodeModified hn.modified_nodup).1 h₄
  obtain ⟨hok₅, edges₅, rfl, hedges₅, -⟩ := (Content.foldlM_edgeModified he.modified_nodup).1 h₅
  obtain ⟨-, regions₆, rfl, -, -⟩ := (Content.foldlM_regionModified hr.modified_nodup).1 h₆
  obtain ⟨-, regions₇, rfl, -, -⟩ := (Content.foldlM_regionAdded hr.added_nodup).1 h₇
  obtain ⟨-, nodes₈, rfl, -, -⟩ := (Content.foldlM_nodeAdded hn.added_nodup).1 h₈
  obtain ⟨-, edges₉, hc₉, -, hedges₉⟩ := (Content.foldlM_edgeAdded he.added_nodup).1 h₉
  dsimp only at *
  have hedges : new.edges = edges₉ := congrArg Content.edges hc₉
  intro id d d' hd hd'
  by_cases hne : d = d'
  · subst hne
    exact ⟨rfl, rfl⟩
  have hmem := (he.mem_modified id d d').2 ⟨hd, hd', hne⟩
  have hremoved : id ∉ edges.removed := by
    rw [he.mem_removed, hd']
    simp
  have hadded : id ∉ edges.added.map EdgeData.id := by
    rw [he.mem_map_added hnew.edge_id, hd]
    simp
  obtain ⟨x, hx⟩ := Option.isSome_iff_exists.1 (hok₅ _ hmem)
  have h₅ := hedges₅ _ hmem
  dsimp only at hx h₅
  rw [hx, Option.map_some, ← hedges₉ id hadded, ← hedges, hd', Option.some.injEq] at h₅
  rw [Option.filter_eq_some_iff, hedges₁' id hremoved, hd, Option.some.injEq] at hx
  obtain ⟨rfl, -⟩ := hx
  rw [h₅]
  exact ⟨rfl, rfl⟩

end Final

/-- The edit script of two graphs works, whatever the order of the hash sets is, exactly when no
edge that is in both has other ends in the new one. -/
theorem editScriptWorks_iff (it : Iteration) (old new : SCG) (hold : old.Built)
    (hnew : new.Built) :
    EditScriptWorks it old new ↔ Content.KeepsEnds old.content new.content := by
  have hold := hold.valid
  have hnew := hnew.valid
  obtain ⟨nodes, edges, regions, hdiff, hn, he, hr⟩ := diffScg_eq (ε := DiffError) it hold hnew
  have hscript : computeEditScript (ε := DiffError) it old new =
      .ok (scriptEntries nodes edges regions) := by
    rw [computeEditScript, hdiff, Outcome.ok_bind, flatMap_phases]
    rfl
  have hfits : ∀ entry ∈ scriptEntries nodes edges regions, entry.Fits := by
    intro entry hentry
    cases entry with
    | nodeAdded data =>
      have hdata : data ∈ nodes.added := by simpa [scriptEntries] using hentry
      exact hnew.node_toNat_lt (Option.isSome_of_eq_some ((hn.mem_added data).1 hdata).1)
    | edgeAdded data =>
      have hdata : data ∈ edges.added := by simpa [scriptEntries] using hentry
      exact hnew.edge_toNat_lt (Option.isSome_of_eq_some ((he.mem_added data).1 hdata).1)
    | _ => trivial
  constructor
  · rintro ⟨script, g, hscript', hexec, hcontent⟩
    rw [hscript] at hscript'
    cases hscript'
    apply keepsEnds_of_foldlM hnew.closed hn he hr
    rw [hexec.follows hold hfits, hcontent]
  · intro h
    obtain ⟨g, hexec, hcontent⟩ := hold.executes hfits
      (executes_scriptEntries hold.closed hnew.closed hn he hr h)
    exact ⟨_, g, hscript, hexec, hcontent⟩

theorem editScriptWorks_oneEdge : EditScriptWorks .id SCG.new (SCG.new.run oneEdge) :=
  (editScriptWorks_iff .id _ _ ⟨[], trivial, rfl⟩ built_oneEdge).2 nofun

/-- The edge is not turned around: every entry is executed, and it keeps its old ends. -/
theorem not_editScriptWorks :
    (SCG.new.run oneEdge).Built ∧ (SCG.new.run edgeTurned).Built ∧
      ¬ EditScriptWorks .id (SCG.new.run oneEdge) (SCG.new.run edgeTurned) := by
  refine ⟨built_oneEdge, built_edgeTurned, ?_⟩
  rintro ⟨script, g, hscript, hexec, hcontent⟩
  have hentries : computeEditScript (ε := DiffError) .id (SCG.new.run oneEdge)
      (SCG.new.run edgeTurned) =
      .ok [.edgeModified 0 ⟨0, 0, 1, .dataFlow, none⟩ ⟨0, 1, 0, .dataFlow, none⟩] := rfl
  rw [hentries] at hscript
  cases hscript
  cases hexec with
  | cons ready step rest =>
    cases rest
    cases step
    have hedge := congrArg (fun c => (c.edges 0).map EdgeData.source) hcontent
    exact absurd hedge (by decide)

end Vuma.Scg
