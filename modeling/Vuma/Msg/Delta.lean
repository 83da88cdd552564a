import Vuma.Msg.Propagate

/-!
# Deltas of memory state graphs

`apply_delta` and `compute_delta`. A delta removes, adds and replaces entities of each kind; it is
applied in phases, with warnings for what does not fit, and the touched accesses are verified again
at the end.
-/

namespace Vuma.Msg

open Lib Entity

structure EntityDelta (V : Type) where
  added : List V
  removed : List Nat
  modified : List V
  deriving DecidableEq, Repr

/-- `MSGDelta`, without the verification updates, which nothing reads. -/
structure MSGDelta where
  regions : EntityDelta Region
  derivations : EntityDelta Derivation
  accesses : EntityDelta Access
  syncEdges : EntityDelta SyncEdge
  deriving DecidableEq, Repr

/-- `DeltaError`, without the variant `AccessToDeadRegion`, which nothing builds. -/
inductive DeltaError where
  | regionNotFound (id : RegionId)
  | derivationNotFound (id : DerivationId)
  | accessNotFound (id : AccessId)
  | syncEdgeNotFound (id : SyncEdgeId)
  | duplicateRegion (id : RegionId)
  | duplicateDerivation (id : DerivationId)
  | duplicateAccess (id : AccessId)
  | duplicateSyncEdge (id : SyncEdgeId)
  | brokenDerivationChain (id : DerivationId)
  | danglingAccessTarget (id : AccessId) (target : DerivationId)
  | danglingSyncEdgeAccess (id : SyncEdgeId) (access : AccessId)
  | allocationNotFound (id : RegionId)
  deriving DecidableEq, Repr

section Apply

variable {V : Type} [Entity V]

/-- The identifiers to be removed that are there. -/
def present (t : Table V) (ks : List Nat) : List Nat :=
  (ks.filter fun k => (t.get k).isSome).dedup

/-- The identifiers to be removed that are not there. -/
def missing (t : Table V) (ks : List Nat) : List Nat := ks.filter fun k => (t.get k).isNone

/-- The check of an added derivation, against the derivations that are there when it is added. -/
def checkDerivation (regions : Table Region) (derivations : Nat → Option Derivation)
    (d : Derivation) : List DeltaError :=
  match d.source with
  | .region rid => if (regions.get rid).isNone then [.brokenDerivationChain d.id] else []
  | .anotherDerivation p => if (derivations p).isNone then [.brokenDerivationChain d.id] else []

/-- The check of an added access. -/
def checkAccess (derivations : Table Derivation) (a : Access) : List DeltaError :=
  if (derivations.get a.target).isNone then [.danglingAccessTarget a.id a.target] else []

/-- The check of an added synchronisation edge. -/
def checkSyncEdge (accesses : Table Access) (e : SyncEdge) : List DeltaError :=
  (if (accesses.get e.access1).isNone then [.danglingSyncEdgeAccess e.id e.access1] else []) ++
    if (accesses.get e.access2).isNone then [.danglingSyncEdgeAccess e.id e.access2] else []

/-- The warnings for the removals. -/
def removalWarnings (order : ApplyOrder) (msg : MSG) (delta : MSGDelta) : List DeltaError :=
  (missing msg.regions delta.regions.removed).map .regionNotFound ++
    (missing msg.derivations delta.derivations.removed).map .derivationNotFound ++
    (missing msg.accesses delta.accesses.removed).map .accessNotFound ++
    (missing msg.syncEdges
      (order.removedSyncEdges.order delta.syncEdges.removed.dedup)).map .syncEdgeNotFound

def applyDelta (order : ApplyOrder) (msg : MSG) (delta : MSGDelta) :
    Option (MSG × DeltaResult DeltaError) := do
  -- phase 1
  let removedRegions := present msg.regions delta.regions.removed
  let removedDerivations := present msg.derivations delta.derivations.removed
  let removedAccesses := present msg.accesses delta.accesses.removed
  let regions := msg.regions.eraseAll (order.removedRegions.order removedRegions)
  let derivations :=
    msg.derivations.eraseAll (order.removedDerivations.order removedDerivations)
  let accesses := msg.accesses.eraseAll (order.removedAccesses.order removedAccesses)
  let syncEdges :=
    msg.syncEdges.eraseAll (order.removedSyncEdges.order delta.syncEdges.removed.dedup)
  -- phase 2
  let (regions, w₁) ← regions.addAll .duplicateRegion (fun _ _ => []) delta.regions.added
  let (derivations, w₂) ←
    derivations.addAll .duplicateDerivation (checkDerivation regions) delta.derivations.added
  let (accesses, w₃) ←
    accesses.addAll .duplicateAccess (fun _ => checkAccess derivations) delta.accesses.added
  let (syncEdges, w₄) ←
    syncEdges.addAll .duplicateSyncEdge (fun _ => checkSyncEdge accesses) delta.syncEdges.added
  -- phase 3
  let (regions, w₅, invalidated) ← regions.modifyAll .regionNotFound delta.regions.modified
  let (derivations, w₆, recomputed) ←
    derivations.modifyAll .derivationNotFound delta.derivations.modified
  let (accesses, w₇, _) ← accesses.modifyAll .accessNotFound delta.accesses.modified
  let (syncEdges, w₈, _) ← syncEdges.modifyAll .syncEdgeNotFound delta.syncEdges.modified
  let msg' : MSG := ⟨regions, derivations, accesses, syncEdges⟩
  -- phases 4 and 5
  let result ← propagate order msg' removedRegions removedDerivations
    { success := true
      warnings := removalWarnings order msg delta ++ w₁ ++ w₂ ++ w₃ ++ w₄ ++ w₅ ++ w₆ ++ w₇ ++ w₈
      reverified := []
      recomputedDerivations := recomputed
      invalidatedRegions := invalidated }
  return (msg', result)

/-- The orders of the hash sets of `compute_entity_delta`. -/
structure EntityOrder where
  added : KeyOrder Nat
  removed : KeyOrder Nat
  common : KeyOrder Nat

/-- The orders of the hash sets of `compute_delta`. -/
structure DeltaOrder where
  regions : EntityOrder
  derivations : EntityOrder
  accesses : EntityOrder
  syncEdges : EntityOrder

def computeEntityDelta [DecidableEq V] (order : EntityOrder) (old new : Table V) :
    EntityDelta V where
  added := (order.added.order (new.ids.filter (· ∉ old.ids))).filterMap new.get
  removed := order.removed.order (old.ids.filter (· ∉ new.ids))
  modified := (order.common.order (old.ids.filter (· ∈ new.ids))).filterMap fun k =>
    match old.get k, new.get k with
    | some v, some w => if v ≠ w then some w else none
    | _, _ => none

def computeDelta (order : DeltaOrder) (old new : MSG) : MSGDelta where
  regions := computeEntityDelta order.regions old.regions new.regions
  derivations := computeEntityDelta order.derivations old.derivations new.derivations
  accesses := computeEntityDelta order.accesses old.accesses new.accesses
  syncEdges := computeEntityDelta order.syncEdges old.syncEdges new.syncEdges

end Apply

section Spec

variable {V : Type} [Entity V]

/-- What is left of the entities when the removed ones are gone. -/
def EntityDelta.kept (δ : EntityDelta V) (g : Nat → Option V) (k : Nat) : Option V :=
  if k ∈ δ.removed then none else g k

/-- The entities after the removals and the additions of a delta. -/
def EntityDelta.extended (δ : EntityDelta V) (g : Nat → Option V) : Nat → Option V :=
  Table.overlay (δ.kept g) δ.added

/-- The entities after a delta. -/
def EntityDelta.exchanged (δ : EntityDelta V) (g : Nat → Option V) (k : Nat) : Option V :=
  if (δ.extended g k).isSome then Table.overlay (δ.extended g) δ.modified.reverse k else none

/-- The added entities are new once the removed ones are gone. -/
structure EntityDelta.Fresh (δ : EntityDelta V) (t : Table V) : Prop where
  nodup : (δ.added.map ident).Nodup
  fresh : ∀ v ∈ δ.added, (t.get (ident v)).isSome → ident v ∈ δ.removed
  bounded : ∀ v ∈ δ.added, ident v + 1 < 2 ^ 64

variable {W : Type} {δ : EntityDelta V} {t : Table V}

theorem EntityDelta.Fresh.addAll (hδ : δ.Fresh t) {ks : List Nat}
    (hks : ∀ k, (t.get k).isSome → (k ∈ ks ↔ k ∈ δ.removed)) (duplicate : Nat → W)
    (check : (Nat → Option V) → V → List W) :
    ∃ t' ws, (t.eraseAll ks).addAll duplicate check δ.added = some (t', ws) ∧
      t'.get = δ.extended t.get ∧
      (ws = [] ↔ ∀ l₁ v l₂, δ.added = l₁ ++ v :: l₂ →
        check (Table.overlay (δ.kept t.get) l₁) v = []) := by
  have hget : (t.eraseAll ks).get = δ.kept t.get := by
    funext k
    rw [Table.get_eraseAll, kept]
    cases hk : t.get k with
    | none => simp
    | some v => simp only [hks k (Option.isSome_of_eq_some hk)]
  have hfresh : ∀ v ∈ δ.added, (t.eraseAll ks).get (ident v) = none := by
    intro v hv
    rw [hget, kept]
    split_ifs with hmem
    · rfl
    · exact Option.not_isSome_iff_eq_none.1 fun hsome => hmem (hδ.fresh v hv hsome)
  obtain ⟨t', ws, hrun, ht', hws⟩ :=
    Table.addAll_eq_some duplicate check hδ.nodup hfresh hδ.bounded
  rw [hget] at ht' hws
  exact ⟨t', ws, hrun, ht', hws⟩

theorem EntityDelta.modifyAll {t' : Table V} (ht' : t'.get = δ.extended t.get)
    (notFound : Nat → W) :
    ∃ t'' ws, t'.modifyAll notFound δ.modified = some (t'', ws,
        (δ.modified.map ident).filter fun k => (δ.extended t.get k).isSome) ∧
      t''.get = δ.exchanged t.get ∧
      (ws = [] ↔ ∀ v ∈ δ.modified, (δ.extended t.get (ident v)).isSome) := by
  obtain ⟨t'', ws, hrun, hget, hws⟩ := Table.modifyAll_eq_some notFound δ.modified t'
  rw [ht'] at hrun hget hws
  exact ⟨t'', ws, hrun, funext hget, hws⟩

theorem mem_present {ks : List Nat} {k : Nat} :
    k ∈ present t ks ↔ k ∈ ks ∧ (t.get k).isSome := by
  rw [present, List.mem_dedup, List.mem_filter]

theorem missing_eq_nil {ks : List Nat} : missing t ks = [] ↔ ∀ k ∈ ks, (t.get k).isSome := by
  rw [missing, List.filter_eq_nil_iff]
  refine forall₂_congr fun k _ => ?_
  cases t.get k <;> simp

end Spec

/-- The added entities of a delta are new in a graph. -/
structure MSGDelta.Fresh (δ : MSGDelta) (msg : MSG) : Prop where
  regions : δ.regions.Fresh msg.regions
  derivations : δ.derivations.Fresh msg.derivations
  accesses : δ.accesses.Fresh msg.accesses
  syncEdges : δ.syncEdges.Fresh msg.syncEdges

/-- A graph has the entities that a delta leads to. -/
structure MSGDelta.LeadsTo (δ : MSGDelta) (msg msg' : MSG) : Prop where
  regions : msg'.regions.get = δ.regions.exchanged msg.regions.get
  derivations : msg'.derivations.get = δ.derivations.exchanged msg.derivations.get
  accesses : msg'.accesses.get = δ.accesses.exchanged msg.accesses.get
  syncEdges : msg'.syncEdges.get = δ.syncEdges.exchanged msg.syncEdges.get

/-- What a delta removes or replaces is there. -/
structure MSGDelta.Hits (δ : MSGDelta) (msg : MSG) : Prop where
  removedRegions : ∀ k ∈ δ.regions.removed, (msg.regions.get k).isSome
  removedDerivations : ∀ k ∈ δ.derivations.removed, (msg.derivations.get k).isSome
  removedAccesses : ∀ k ∈ δ.accesses.removed, (msg.accesses.get k).isSome
  removedSyncEdges : ∀ k ∈ δ.syncEdges.removed, (msg.syncEdges.get k).isSome
  modifiedRegions : ∀ v ∈ δ.regions.modified,
    (δ.regions.extended msg.regions.get (ident v)).isSome
  modifiedDerivations : ∀ v ∈ δ.derivations.modified,
    (δ.derivations.extended msg.derivations.get (ident v)).isSome
  modifiedAccesses : ∀ v ∈ δ.accesses.modified,
    (δ.accesses.extended msg.accesses.get (ident v)).isSome
  modifiedSyncEdges : ∀ v ∈ δ.syncEdges.modified,
    (δ.syncEdges.extended msg.syncEdges.get (ident v)).isSome

/-- The references of the added entities resolve when their turn comes. -/
structure MSGDelta.Resolves (δ : MSGDelta) (msg : MSG) : Prop where
  region : ∀ d ∈ δ.derivations.added, ∀ rid, d.source = .region rid →
    (δ.regions.extended msg.regions.get rid).isSome
  parent : ∀ l₁ d l₂, δ.derivations.added = l₁ ++ d :: l₂ → ∀ p, d.source = .anotherDerivation p →
    (Table.overlay (δ.derivations.kept msg.derivations.get) l₁ p).isSome
  target : ∀ a ∈ δ.accesses.added,
    (δ.derivations.extended msg.derivations.get a.target).isSome
  endpoints : ∀ e ∈ δ.syncEdges.added, (δ.accesses.extended msg.accesses.get e.access1).isSome ∧
    (δ.accesses.extended msg.accesses.get e.access2).isSome

section Run

variable {msg : MSG} {δ : MSGDelta}

theorem checkDerivation_eq_nil {regions : Table Region} {g : Nat → Option Derivation}
    {d : Derivation} : checkDerivation regions g d = [] ↔
      (∀ rid, d.source = .region rid → (regions.get rid).isSome) ∧
        ∀ p, d.source = .anotherDerivation p → (g p).isSome := by
  rw [checkDerivation]
  cases d.source with
  | region rid => cases h : regions.get rid <;> simp [h]
  | anotherDerivation p => cases h : g p <;> simp [h]

theorem checkAccess_eq_nil {derivations : Table Derivation} {a : Access} :
    checkAccess derivations a = [] ↔ (derivations.get a.target).isSome := by
  rw [checkAccess]
  cases derivations.get a.target <;> simp

theorem checkSyncEdge_eq_nil {accesses : Table Access} {e : SyncEdge} :
    checkSyncEdge accesses e = [] ↔
      (accesses.get e.access1).isSome ∧ (accesses.get e.access2).isSome := by
  rw [checkSyncEdge]
  cases accesses.get e.access1 <;> cases accesses.get e.access2 <;> simp

theorem removalWarnings_eq_nil (hδ : δ.Hits msg) (order : ApplyOrder) :
    removalWarnings order msg δ = [] := by
  have hsync : ∀ k ∈ order.removedSyncEdges.order δ.syncEdges.removed.dedup,
      (msg.syncEdges.get k).isSome := by
    intro k hk
    rw [(order.removedSyncEdges.perm _).mem_iff, List.mem_dedup] at hk
    exact hδ.removedSyncEdges k hk
  rw [removalWarnings, missing_eq_nil.2 hδ.removedRegions, missing_eq_nil.2 hδ.removedDerivations,
    missing_eq_nil.2 hδ.removedAccesses, missing_eq_nil.2 hsync]
  rfl

/-- The reports of checks that do not depend on the turn. -/
theorem forall_split_iff {α : Type} {l : List α} {P : α → Prop} :
    (∀ l₁ x l₂, l = l₁ ++ x :: l₂ → P x) ↔ ∀ x ∈ l, P x := by
  constructor
  · intro h x hx
    obtain ⟨l₁, l₂, rfl⟩ := List.append_of_mem hx
    exact h l₁ x l₂ rfl
  · rintro h l₁ x l₂ rfl
    exact h x (by simp)

theorem applyDelta_of_fresh (hδ : δ.Fresh msg) (order : ApplyOrder) :
    ∃ msg' pre, δ.LeadsTo msg msg' ∧
      (∀ o, applyDelta { order with derivations := o } msg δ =
        (propagate { order with derivations := o } msg' (present msg.regions δ.regions.removed)
          (present msg.derivations δ.derivations.removed) pre).map fun r => (msg', r)) ∧
      pre.invalidatedRegions = ((δ.regions.modified.map ident).filter fun k =>
        (δ.regions.extended msg.regions.get k).isSome) ∧
      pre.recomputedDerivations = ((δ.derivations.modified.map ident).filter fun k =>
        (δ.derivations.extended msg.derivations.get k).isSome) ∧
      (δ.Hits msg → (pre.warnings = [] ↔ δ.Resolves msg)) := by
  have hpresent : ∀ {V : Type} [Entity V] (t : Table V) (o : KeyOrder Nat) (ks : List Nat) k,
      (t.get k).isSome → (k ∈ o.order (present t ks) ↔ k ∈ ks) := by
    intro V _ t o ks k hk
    rw [(o.perm _).mem_iff, mem_present]
    exact and_iff_left hk
  have hdedup : ∀ k, (msg.syncEdges.get k).isSome →
      (k ∈ order.removedSyncEdges.order δ.syncEdges.removed.dedup ↔
        k ∈ δ.syncEdges.removed) := by
    intro k _
    rw [(order.removedSyncEdges.perm _).mem_iff, List.mem_dedup]
  obtain ⟨regions, w₁, hr, hregions, hw₁⟩ :=
    hδ.regions.addAll (hpresent msg.regions order.removedRegions _) DeltaError.duplicateRegion
      fun _ _ => []
  obtain ⟨derivations, w₂, hd, hderivations, hw₂⟩ :=
    hδ.derivations.addAll (hpresent msg.derivations order.removedDerivations _)
      DeltaError.duplicateDerivation (checkDerivation regions)
  obtain ⟨accesses, w₃, ha, haccesses, hw₃⟩ :=
    hδ.accesses.addAll (hpresent msg.accesses order.removedAccesses _) DeltaError.duplicateAccess
      fun _ => checkAccess derivations
  obtain ⟨syncEdges, w₄, hs, hsyncEdges, hw₄⟩ :=
    hδ.syncEdges.addAll hdedup DeltaError.duplicateSyncEdge fun _ => checkSyncEdge accesses
  obtain ⟨regions', w₅, hr', hregions', hw₅⟩ :=
    EntityDelta.modifyAll hregions DeltaError.regionNotFound
  obtain ⟨derivations', w₆, hd', hderivations', hw₆⟩ :=
    EntityDelta.modifyAll hderivations DeltaError.derivationNotFound
  obtain ⟨accesses', w₇, ha', haccesses', hw₇⟩ :=
    EntityDelta.modifyAll haccesses DeltaError.accessNotFound
  obtain ⟨syncEdges', w₈, hs', hsyncEdges', hw₈⟩ :=
    EntityDelta.modifyAll hsyncEdges DeltaError.syncEdgeNotFound
  refine ⟨⟨regions', derivations', accesses', syncEdges'⟩,
    ⟨true, removalWarnings order msg δ ++ w₁ ++ w₂ ++ w₃ ++ w₄ ++ w₅ ++ w₆ ++ w₇ ++ w₈, [], _, _⟩,
    ⟨hregions', hderivations', haccesses', hsyncEdges'⟩, fun o => ?_, rfl, rfl, fun hhits => ?_⟩
  · simp only [applyDelta, hr, hd, ha, hs, hr', hd', ha', hs', Option.bind_eq_bind,
      Option.bind_some, Option.pure_def]
    exact Option.map_eq_bind.symm
  · rw [removalWarnings_eq_nil hhits order]
    have h₁ : w₁ = [] := hw₁.2 fun _ _ _ _ => rfl
    have h₅ : w₅ = [] := hw₅.2 hhits.modifiedRegions
    have h₆ : w₆ = [] := hw₆.2 hhits.modifiedDerivations
    have h₇ : w₇ = [] := hw₇.2 hhits.modifiedAccesses
    have h₈ : w₈ = [] := hw₈.2 hhits.modifiedSyncEdges
    simp only [h₁, h₅, h₆, h₇, h₈, List.nil_append, List.append_nil, List.append_eq_nil_iff, hw₂,
      hw₃, hw₄, checkDerivation_eq_nil, checkAccess_eq_nil, checkSyncEdge_eq_nil, forall_split_iff,
      hregions, hderivations, haccesses]
    constructor
    · rintro ⟨⟨hder, hacc⟩, hsync⟩
      refine ⟨forall_split_iff.1 fun l₁ d l₂ h => (hder l₁ d l₂ h).1,
        fun l₁ d l₂ h => (hder l₁ d l₂ h).2, hacc, hsync⟩
    · rintro ⟨hregion, hparent, hacc, hsync⟩
      exact ⟨⟨fun l₁ d l₂ h => ⟨forall_split_iff.2 hregion l₁ d l₂ h, hparent l₁ d l₂ h⟩, hacc⟩,
        hsync⟩

end Run

end Vuma.Msg
