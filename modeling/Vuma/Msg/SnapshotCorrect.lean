import Vuma.Msg.SnapshotDelta
import Vuma.Msg.DeltaCorrect

/-!
# Updating a memory state graph from a snapshot

The graph of a snapshot, and when the delta of two snapshots leads from the graph of the first to
the graph of the second. Entities that are only put in and taken out come out right as far as a
changed node is seen to have changed. A region has a status besides: its deallocation is written
over a copy of the old region, and what is written last stays.
-/

namespace Vuma.Msg

open Lib Entity

theorem flatMap_filter {α β : Type} (p : α → Bool) (f : α → List β) (l : List α) :
    (l.filter p).flatMap f = l.flatMap fun x => if p x then f x else [] := by
  induction l with
  | nil => rfl
  | cons x l ih =>
    by_cases h : p x <;> simp [h, ih]

theorem flatMap_nil_fun {α β : Type} (l : List α) : (l.flatMap fun _ => ([] : List β)) = [] := by
  simp

/-- The entity that the node of a snapshot describes. -/
def SCGSnapshot.entity {V : Type} (s : SCGSnapshot) (f : SCGNode → Option V) (k : Nat) :
    Option V :=
  (s.getNode k).bind f

section Kind

variable {V : Type} [Entity V]

/-- The entities of the nodes put in are added, those of the nodes taken out are removed. -/
structure EntityDelta.Follows (δ : EntityDelta V) (f : SCGNode → Option V) (order : EntityOrder)
    (old new : SCGSnapshot) : Prop where
  added : δ.added = (addedNodeIds order old new).flatMap fun k => (new.entity f k).toList
  removed : δ.removed =
    (removedNodeIds order old new).flatMap fun k => (old.entity f k).toList.map ident

/-- The node of each entity of a snapshot is known by the identifier of the entity. -/
def SCGSnapshot.Unique (s : SCGSnapshot) (f : SCGNode → Option V) : Prop :=
  ∀ i j v w, s.entity f i = some v → s.entity f j = some w → ident v = ident w → i = j

/-- A table has the identifiers of the entities of a snapshot. -/
def SCGSnapshot.Identifies (s : SCGSnapshot) (f : SCGNode → Option V) (t : Table V) : Prop :=
  ∀ k, (t.get k).isSome ↔ ∃ i v, s.entity f i = some v ∧ ident v = k

/-- Nodes that do not differ describe entities with one identifier. -/
def SeesIdent (f : SCGNode → Option V) : Prop :=
  ∀ m n, nodesDiffer m n = false → (f m).map ident = (f n).map ident

variable {f : SCGNode → Option V} {order : EntityOrder} {old new : SCGSnapshot} {t : Table V}
  {δ : EntityDelta V}

theorem Kept.entity {i : Nat} (hkept : Kept old new i) (hf : SeesIdent f) :
    (old.entity f i).map ident = (new.entity f i).map ident := by
  obtain ⟨m, n, hm, hn, hdiff⟩ := hkept
  simpa only [SCGSnapshot.entity, hm, hn, Option.bind_some] using hf m n hdiff

theorem Kept.exists_new {i : Nat} {v : V} (hkept : Kept old new i) (hf : SeesIdent f)
    (hv : old.entity f i = some v) : ∃ w, new.entity f i = some w ∧ ident w = ident v := by
  have h := hkept.entity hf
  rw [hv, Option.map_some] at h
  exact Option.map_eq_some_iff.1 h.symm

theorem Kept.exists_old {i : Nat} {w : V} (hkept : Kept old new i) (hf : SeesIdent f)
    (hw : new.entity f i = some w) : ∃ v, old.entity f i = some v ∧ ident v = ident w := by
  have h := hkept.entity hf
  rw [hw, Option.map_some] at h
  exact Option.map_eq_some_iff.1 h

namespace EntityDelta.Follows

theorem mem_added (hδ : δ.Follows f order old new) {v : V} :
    v ∈ δ.added ↔ ∃ i, new.entity f i = some v ∧ ¬ Kept old new i := by
  simp only [hδ.added, List.mem_flatMap, mem_addedNodeIds, Option.mem_toList]
  constructor
  · rintro ⟨i, ⟨-, hkept⟩, hv⟩
    exact ⟨i, hv, hkept⟩
  · rintro ⟨i, hv, hkept⟩
    refine ⟨i, ⟨?_, hkept⟩, hv⟩
    obtain ⟨n, hn, -⟩ := Option.bind_eq_some_iff.1 hv
    exact Option.isSome_of_eq_some hn

theorem mem_removed (hδ : δ.Follows f order old new) {k : Nat} :
    k ∈ δ.removed ↔ ∃ i v, old.entity f i = some v ∧ ident v = k ∧ ¬ Kept old new i := by
  simp only [hδ.removed, List.mem_flatMap, mem_removedNodeIds, List.mem_map,
    Option.mem_toList]
  constructor
  · rintro ⟨i, ⟨-, hkept⟩, v, hv, hk⟩
    exact ⟨i, v, hv, hk, hkept⟩
  · rintro ⟨i, v, hv, hk, hkept⟩
    refine ⟨i, ⟨?_, hkept⟩, v, hv, hk⟩
    obtain ⟨n, hn, -⟩ := Option.bind_eq_some_iff.1 hv
    exact Option.isSome_of_eq_some hn

theorem nodup (hδ : δ.Follows f order old new) (hnew : new.Unique f) :
    (δ.added.map ident).Nodup := by
  rw [hδ.added, List.map_flatMap, List.nodup_flatMap]
  constructor
  · intro k _
    cases new.entity f k <;> simp
  · refine nodup_addedNodeIds.imp_of_mem fun {i j} _ _ hij k hi hj => hij ?_
    obtain ⟨v, hv, rfl⟩ := List.mem_map.1 hi
    obtain ⟨w, hw, hident⟩ := List.mem_map.1 hj
    exact hnew i j v w (Option.mem_toList.1 hv) (Option.mem_toList.1 hw) hident.symm

theorem fresh (hδ : δ.Follows f order old new) (hf : SeesIdent f) (hnew : new.Unique f)
    (ht : old.Identifies f t) (hbound : ∀ i v, new.entity f i = some v → ident v + 1 < 2 ^ 64) :
    δ.Fresh t where
  nodup := hδ.nodup hnew
  fresh := by
    intro v hv hsome
    obtain ⟨i, hi, hkept⟩ := hδ.mem_added.1 hv
    obtain ⟨j, u, hu, hident⟩ := (ht _).1 hsome
    refine hδ.mem_removed.2 ⟨j, u, hu, hident, fun hj => hkept ?_⟩
    obtain ⟨w, hw, hident'⟩ := hj.exists_new hf hu
    obtain rfl := hnew i j v w hi hw (hident'.trans hident).symm
    exact hj
  bounded := by
    intro v hv
    obtain ⟨i, hi, -⟩ := hδ.mem_added.1 hv
    exact hbound i v hi

/-- The entity of a node that is put in is the new one. -/
theorem extended_of_not_kept (hδ : δ.Follows f order old new) (hnew : new.Unique f) {i : Nat}
    {v : V} (hv : new.entity f i = some v) (hkept : ¬ Kept old new i) :
    δ.extended t.get (ident v) = some v :=
  Table.overlay_of_mem (hδ.nodup hnew) (hδ.mem_added.2 ⟨i, hv, hkept⟩)

theorem extended_of_kept (hδ : δ.Follows f order old new) (hf : SeesIdent f)
    (hold : old.Unique f) (hnew : new.Unique f) {i : Nat} {v : V} (hv : new.entity f i = some v)
    (hkept : Kept old new i) : δ.extended t.get (ident v) = t.get (ident v) := by
  have hadded : ident v ∉ δ.added.map ident := by
    intro hmem
    obtain ⟨w, hw, hident⟩ := List.mem_map.1 hmem
    obtain ⟨j, hj, hkept'⟩ := hδ.mem_added.1 hw
    obtain rfl := hnew i j v w hv hj hident.symm
    exact hkept' hkept
  have hremoved : ident v ∉ δ.removed := by
    intro hmem
    obtain ⟨j, u, hu, hident, hkept'⟩ := hδ.mem_removed.1 hmem
    obtain ⟨w, hw, hident'⟩ := hkept.exists_old hf hv
    obtain rfl := hold i j w u hw hu (hident'.trans hident.symm)
    exact hkept' hkept
  rw [extended, Table.overlay_of_notMem hadded, EntityDelta.kept, if_neg hremoved]

theorem extended_eq_none (hδ : δ.Follows f order old new) (hf : SeesIdent f)
    (ht : old.Identifies f t) {k : Nat} (hk : ∀ i v, new.entity f i = some v → ident v ≠ k) :
    δ.extended t.get k = none := by
  have hadded : k ∉ δ.added.map ident := by
    intro hmem
    obtain ⟨w, hw, hident⟩ := List.mem_map.1 hmem
    obtain ⟨j, hj, -⟩ := hδ.mem_added.1 hw
    exact hk j w hj hident
  rw [extended, Table.overlay_of_notMem hadded, EntityDelta.kept]
  split_ifs with hmem
  · rfl
  · refine Option.not_isSome_iff_eq_none.1 fun hsome => ?_
    obtain ⟨i, v, hv, hident⟩ := (ht k).1 hsome
    refine hmem (hδ.mem_removed.2 ⟨i, v, hv, hident, fun hkept => ?_⟩)
    obtain ⟨w, hw, hident'⟩ := hkept.exists_new hf hv
    exact hk i w hw (hident'.trans hident)

end EntityDelta.Follows

/-- A table has the entities of a snapshot. -/
def SCGSnapshot.Lists (s : SCGSnapshot) (f : SCGNode → Option V) (t : Table V) : Prop :=
  ∀ k v, t.get k = some v ↔ ident v = k ∧ ∃ i, s.entity f i = some v

theorem SCGSnapshot.Lists.identifies {s : SCGSnapshot} (h : s.Lists f t) : s.Identifies f t := by
  intro k
  rw [Option.isSome_iff_exists]
  constructor
  · rintro ⟨v, hv⟩
    obtain ⟨hident, i, hi⟩ := (h k v).1 hv
    exact ⟨i, v, hi, hident⟩
  · rintro ⟨i, v, hi, hident⟩
    exact ⟨v, (h k v).2 ⟨hident, i, hi⟩⟩

theorem SCGSnapshot.Lists.bounded {s : SCGSnapshot} (h : s.Lists f t) (i : Nat) (v : V)
    (hv : s.entity f i = some v) : ident v + 1 < 2 ^ 64 :=
  Table.bound_of_get ((h (ident v) v).2 ⟨rfl, i, hv⟩)

/-- Entities that are only put in and taken out come out right exactly if the nodes that are kept
describe what they described. -/
theorem exchanged_eq_iff (hδ : δ.Follows f order old new) (hmodified : δ.modified = [])
    (hf : SeesIdent f) (hold : old.Unique f) (hnew : new.Unique f) {t' : Table V}
    (ht : old.Lists f t) (ht' : new.Lists f t') :
    δ.exchanged t.get = t'.get ↔
      ∀ k, Kept old new k → old.entity f k = new.entity f k := by
  have hext : ∀ k, δ.exchanged t.get k = δ.extended t.get k := by
    intro k
    rw [EntityDelta.exchanged, hmodified, List.reverse_nil, Table.overlay_of_notMem (by simp)]
    split_ifs with h
    · rfl
    · exact (Option.not_isSome_iff_eq_none.1 h).symm
  constructor
  · intro h k hkept
    cases hv : new.entity f k with
    | none =>
      have hident := hkept.entity hf
      rw [hv, Option.map_none, Option.map_eq_none_iff] at hident
      exact hident
    | some v =>
      obtain ⟨u, hu, hident⟩ := hkept.exists_old hf hv
      have hget : t'.get (ident v) = t.get (ident v) := by
        rw [← h, hext, hδ.extended_of_kept hf hold hnew hv hkept]
      rw [(ht' _ v).2 ⟨rfl, k, hv⟩, (ht _ u).2 ⟨hident, k, hu⟩] at hget
      rw [hu, hget]
  · intro h
    funext k
    rw [hext]
    by_cases hk : ∃ i v, new.entity f i = some v ∧ ident v = k
    · obtain ⟨i, v, hv, rfl⟩ := hk
      rw [(ht' _ v).2 ⟨rfl, i, hv⟩]
      by_cases hkept : Kept old new i
      · rw [hδ.extended_of_kept hf hold hnew hv hkept]
        exact (ht _ v).2 ⟨rfl, i, (h i hkept).trans hv⟩
      · exact hδ.extended_of_not_kept hnew hv hkept
    · have hnone : t'.get k = none := by
        refine Option.not_isSome_iff_eq_none.1 fun hsome => hk ?_
        exact (ht'.identifies k).1 hsome
      rw [hnone]
      exact hδ.extended_eq_none hf ht.identifies fun i v hv hident => hk ⟨i, v, hv, hident⟩

end Kind

section Follows

variable {order : EntityOrder} {old new : SCGSnapshot} {msg : MSG}

theorem sees_region : SeesIdent SCGNode.region? := by
  intro m n h
  cases m <;> cases n <;> simp_all [nodesDiffer, SCGNode.region?, ident]

theorem sees_derivation : SeesIdent SCGNode.derivation? := by
  intro m n h
  cases m <;> cases n <;> simp_all [nodesDiffer, SCGNode.derivation?, ident]

theorem sees_access : SeesIdent SCGNode.access? := by
  intro m n h
  cases m <;> cases n <;> simp_all [nodesDiffer, SCGNode.access?, ident]

theorem sees_syncEdge : SeesIdent SCGNode.syncEdge? := by
  intro m n h
  cases m <;> cases n <;> simp_all [nodesDiffer, SCGNode.syncEdge?, ident]

/-- The part of a delta that belongs to one kind of entities. -/
structure KindOf {V : Type} [Entity V] (π : MSGDelta → EntityDelta V)
    (f : SCGNode → Option V) (msg : MSG) : Prop where
  empty : π ∅ = ∅
  merge : ∀ a b, π (a.merge b) = (π a).merge (π b)
  concat : ∀ l c, π (.concat l c) = .concat l fun k => π (c k)
  addition_added : ∀ n, (π (additionOf msg n)).added = (f n).toList
  addition_removed : ∀ n, (π (additionOf msg n)).removed = []
  removal_added : ∀ n, (π (removalOf msg n)).added = []
  removal_removed : ∀ n, (π (removalOf msg n)).removed = (f n).toList.map ident

theorem KindOf.follows {V : Type} [Entity V] {π : MSGDelta → EntityDelta V}
    {f : SCGNode → Option V} (h : KindOf π f msg) :
    (π (scgDelta order old new msg)).Follows f order old new := by
  have hadd : ∀ k, (π (addition msg new k)).added = (new.entity f k).toList := by
    intro k
    rw [addition, SCGSnapshot.entity]
    cases new.getNode k with
    | none => rw [Option.map_none, Option.getD_none, h.empty]; rfl
    | some n => exact h.addition_added n
  have hadd' : ∀ k, (π (addition msg new k)).removed = [] := by
    intro k
    rw [addition]
    cases new.getNode k with
    | none => rw [Option.map_none, Option.getD_none, h.empty]; rfl
    | some n => exact h.addition_removed n
  have hrem : ∀ k, (π (removal msg old k)).added = [] := by
    intro k
    rw [removal]
    cases old.getNode k with
    | none => rw [Option.map_none, Option.getD_none, h.empty]; rfl
    | some n => exact h.removal_added n
  have hrem' : ∀ k, (π (removal msg old k)).removed = (old.entity f k).toList.map ident := by
    intro k
    rw [removal, SCGSnapshot.entity]
    cases old.getNode k with
    | none => rw [Option.map_none, Option.getD_none, h.empty]; rfl
    | some n => exact h.removal_removed n
  have hrep : ∀ k, (π (replacement msg old new k)).added =
      if changed old new k then (new.entity f k).toList else [] := by
    intro k
    rw [replacement]
    split_ifs
    · rw [h.merge, EntityDelta.merge, hadd, hrem, List.nil_append]
    · rw [h.empty]
      rfl
  have hrep' : ∀ k, (π (replacement msg old new k)).removed =
      if changed old new k then (old.entity f k).toList.map ident else [] := by
    intro k
    rw [replacement]
    split_ifs
    · rw [h.merge, EntityDelta.merge, hadd', hrem', List.append_nil]
    · rw [h.empty]
      rfl
  constructor
  · rw [scgDelta, h.merge, h.merge, h.concat, h.concat, h.concat, addedNodeIds, List.flatMap_append,
      flatMap_filter]
    simp only [EntityDelta.merge, EntityDelta.concat, hadd, hrem, hrep, flatMap_nil_fun,
      List.append_nil]
  · rw [scgDelta, h.merge, h.merge, h.concat, h.concat, h.concat, removedNodeIds,
      List.flatMap_append, flatMap_filter]
    simp only [EntityDelta.merge, EntityDelta.concat, hadd', hrem', hrep', flatMap_nil_fun,
      List.nil_append]

theorem kindOf_regions (msg : MSG) : KindOf MSGDelta.regions SCGNode.region? msg :=
  ⟨rfl, fun _ _ => rfl, fun _ _ => rfl, fun _ => rfl, fun _ => rfl, fun _ => rfl, fun _ => rfl⟩

theorem kindOf_derivations (msg : MSG) : KindOf MSGDelta.derivations SCGNode.derivation? msg :=
  ⟨rfl, fun _ _ => rfl, fun _ _ => rfl, fun _ => rfl, fun _ => rfl, fun _ => rfl, fun _ => rfl⟩

theorem kindOf_accesses (msg : MSG) : KindOf MSGDelta.accesses SCGNode.access? msg :=
  ⟨rfl, fun _ _ => rfl, fun _ _ => rfl, fun _ => rfl, fun _ => rfl, fun _ => rfl, fun _ => rfl⟩

theorem kindOf_syncEdges (msg : MSG) : KindOf MSGDelta.syncEdges SCGNode.syncEdge? msg :=
  ⟨rfl, fun _ _ => rfl, fun _ _ => rfl, fun _ => rfl, fun _ => rfl, fun _ => rfl, fun _ => rfl⟩

/-- A node only modifies the region that it frees. -/
theorem KindOf.modified_eq_nil {V : Type} [Entity V] {π : MSGDelta → EntityDelta V}
    {f : SCGNode → Option V} (h : KindOf π f msg)
    (hadd : ∀ n, (π (additionOf msg n)).modified = [])
    (hrem : ∀ n, (π (removalOf msg n)).modified = []) :
    (π (scgDelta order old new msg)).modified = [] := by
  have hadd' : ∀ k, (π (addition msg new k)).modified = [] := by
    intro k
    rw [addition]
    cases new.getNode k with
    | none => rw [Option.map_none, Option.getD_none, h.empty]; rfl
    | some n => exact hadd n
  have hrem' : ∀ k, (π (removal msg old k)).modified = [] := by
    intro k
    rw [removal]
    cases old.getNode k with
    | none => rw [Option.map_none, Option.getD_none, h.empty]; rfl
    | some n => exact hrem n
  have hrep : ∀ k, (π (replacement msg old new k)).modified = [] := by
    intro k
    rw [replacement]
    split_ifs
    · rw [h.merge, EntityDelta.merge, hadd', hrem', List.append_nil]
    · rw [h.empty]
      rfl
  rw [scgDelta, h.merge, h.merge, h.concat, h.concat, h.concat]
  simp only [EntityDelta.merge, EntityDelta.concat, hadd', hrem', hrep, flatMap_nil_fun,
    List.append_nil]

end Follows

/-- A node of the snapshot frees the region. -/
def SCGSnapshot.Frees (s : SCGSnapshot) (k : Nat) (r : RegionId) (fp : ProgramPoint) : Prop :=
  ∃ i, s.getNode k = some (.dealloc i r fp)

/-- A region that has been freed. -/
def Region.markFreed (e : Region) (r : RegionId) (fp : ProgramPoint) : Region :=
  { e with id := r, status := .freed, freePoint := some fp }

/-- A region that is allocated again. -/
def Region.markAllocated (e : Region) (r : RegionId) : Region :=
  { e with id := r, status := .allocated, freePoint := none }

theorem Region.markAllocated_markFreed (e : Region) (r r' : RegionId) (fp : ProgramPoint) :
    (e.markFreed r fp).markAllocated r' = e.markAllocated r' := rfl

/-- A table has the regions of a snapshot: those that a node frees are freed. -/
def SCGSnapshot.ListsRegions (s : SCGSnapshot) (t : Table Region) : Prop :=
  ∀ r R, t.get r = some R ↔ ∃ i R₀, s.entity SCGNode.region? i = some R₀ ∧ R₀.id = r ∧
    ((∃ k fp, s.Frees k r fp ∧ R = R₀.markFreed r fp) ∨ ((∀ k fp, ¬ s.Frees k r fp) ∧ R = R₀))

/-- The identifiers of each kind are unique, and deallocations name an allocation. -/
structure SCGSnapshot.Wf (s : SCGSnapshot) : Prop where
  regions : s.Unique SCGNode.region?
  derivations : s.Unique SCGNode.derivation?
  accesses : s.Unique SCGNode.access?
  syncEdges : s.Unique SCGNode.syncEdge?
  frees : ∀ i j r fp fp', s.Frees i r fp → s.Frees j r fp' → i = j
  allocated : ∀ k r fp, s.Frees k r fp → ∃ i R, s.entity SCGNode.region? i = some R ∧ R.id = r

/-- The graph that a snapshot describes. -/
structure SCGSnapshot.Describes (s : SCGSnapshot) (msg : MSG) : Prop where
  regions : s.ListsRegions msg.regions
  derivations : s.Lists SCGNode.derivation? msg.derivations
  accesses : s.Lists SCGNode.access? msg.accesses
  syncEdges : s.Lists SCGNode.syncEdge? msg.syncEdges

section Regions

variable {order : EntityOrder} {old new : SCGSnapshot} {msg : MSG} {r : RegionId} {k : Nat}
  {fp : ProgramPoint} {e : Region}

theorem SCGSnapshot.ListsRegions.identifies {s : SCGSnapshot} {t : Table Region}
    (h : s.ListsRegions t) : s.Identifies SCGNode.region? t := by
  intro r
  rw [Option.isSome_iff_exists]
  constructor
  · rintro ⟨R, hR⟩
    obtain ⟨i, R₀, hi, hid, -⟩ := (h r R).1 hR
    exact ⟨i, R₀, hi, hid⟩
  · rintro ⟨i, R₀, hi, hid⟩
    by_cases hfree : ∃ k fp, s.Frees k r fp
    · obtain ⟨k, fp, hk⟩ := hfree
      exact ⟨_, (h r _).2 ⟨i, R₀, hi, hid, .inl ⟨k, fp, hk, rfl⟩⟩⟩
    · exact ⟨R₀, (h r R₀).2 ⟨i, R₀, hi, hid, .inr ⟨fun k fp hk => hfree ⟨k, fp, hk⟩, rfl⟩⟩⟩

theorem SCGSnapshot.ListsRegions.bounded {s : SCGSnapshot} {t : Table Region}
    (h : s.ListsRegions t) (i : Nat) (R : Region) (hR : s.entity SCGNode.region? i = some R) :
    ident R + 1 < 2 ^ 64 := by
  obtain ⟨R', hR'⟩ := Option.isSome_iff_exists.1 ((h.identifies (ident R)).2 ⟨i, R, hR, rfl⟩)
  exact Table.bound_of_get hR'

/-- A node that is kept frees what it freed. -/
theorem Kept.frees_iff (hkept : Kept old new k) : old.Frees k r fp ↔ new.Frees k r fp := by
  obtain ⟨m, n, hm, hn, hdiff⟩ := hkept
  simp only [SCGSnapshot.Frees, hm, hn]
  cases m <;> cases n <;> simp_all [nodesDiffer]

theorem SCGSnapshot.Frees.isSome {s : SCGSnapshot} (h : s.Frees k r fp) : (s.getNode k).isSome := by
  obtain ⟨i, hi⟩ := h
  exact Option.isSome_of_eq_some hi

/-- What a node that is put in writes over the region. -/
def freesOf (msg : MSG) (s : SCGSnapshot) (r : RegionId) (k : Nat) : List Region :=
  (addition msg s k).regions.modified.filter (ident · = r)

/-- What a node that is taken out writes over the region. -/
def restoresOf (msg : MSG) (s : SCGSnapshot) (r : RegionId) (k : Nat) : List Region :=
  (removal msg s k).regions.modified.filter (ident · = r)

theorem freesOf_of_frees {s : SCGSnapshot} (h : s.Frees k r fp)
    (he : msg.regions.get r = some e) : freesOf msg s r k = [e.markFreed r fp] := by
  obtain ⟨i, hi⟩ := h
  simp [freesOf, addition, hi, additionOf, he, ident, Region.markFreed]

theorem restoresOf_of_frees {s : SCGSnapshot} (h : s.Frees k r fp)
    (he : msg.regions.get r = some e) : restoresOf msg s r k = [e.markAllocated r] := by
  obtain ⟨i, hi⟩ := h
  simp [restoresOf, removal, hi, removalOf, he, ident, Region.markAllocated]

theorem freesOf_eq_nil {s : SCGSnapshot} (h : ∀ fp, ¬ s.Frees k r fp) :
    freesOf msg s r k = [] := by
  rw [freesOf, addition]
  cases hk : s.getNode k with
  | none => rfl
  | some n =>
    cases n with
    | dealloc i r' fp =>
      have hne : r' ≠ r := by
        rintro rfl
        exact h fp ⟨i, hk⟩
      cases he : msg.regions.get r' <;> simp [additionOf, he, ident, hne]
    | _ => rfl

theorem restoresOf_eq_nil {s : SCGSnapshot} (h : ∀ fp, ¬ s.Frees k r fp) :
    restoresOf msg s r k = [] := by
  rw [restoresOf, removal]
  cases hk : s.getNode k with
  | none => rfl
  | some n =>
    cases n with
    | dealloc i r' fp =>
      have hne : r' ≠ r := by
        rintro rfl
        exact h fp ⟨i, hk⟩
      cases he : msg.regions.get r' <;> simp [removalOf, he, ident, hne]
    | _ => rfl

/-- What the delta writes over a region, in order. -/
def writesOf (order : EntityOrder) (old new : SCGSnapshot) (msg : MSG) (r : RegionId) :
    List Region :=
  (newNodeIds order old new).flatMap (freesOf msg new r) ++
    (goneNodeIds order old new).flatMap (restoresOf msg old r) ++
      ((commonNodeIds order old new).filter (changed old new)).flatMap fun k =>
        restoresOf msg old r k ++ freesOf msg new r k

theorem filter_modified : (scgDelta order old new msg).regions.modified.filter (ident · = r) =
    writesOf order old new msg r := by
  have hrep : ∀ k, (replacement msg old new k).regions.modified.filter (ident · = r) =
      if changed old new k then restoresOf msg old r k ++ freesOf msg new r k else [] := by
    intro k
    rw [replacement]
    split_ifs
    · simp only [MSGDelta.merge, EntityDelta.merge, List.filter_append, restoresOf, freesOf]
    · rfl
  simp only [scgDelta, MSGDelta.merge, EntityDelta.merge, MSGDelta.concat, EntityDelta.concat,
    List.filter_append, List.filter_flatMap, hrep, writesOf, flatMap_filter]
  rfl

/-- The last region written stays. -/
theorem overlay_reverse {V : Type} [Entity V] (g : Nat → Option V) (l : List V) (k : Nat) :
    Table.overlay g l.reverse k = ((l.filter (ident · = k)).getLast?).or (g k) := by
  rw [List.getLast?_filter, Table.overlay]

theorem flatMap_eq_of_unique {α : Type} {f : Nat → List α} {l : List Nat} (hl : l.Nodup) {b : Nat}
    (h : ∀ k ∈ l, k ≠ b → f k = []) : l.flatMap f = if b ∈ l then f b else [] := by
  induction l with
  | nil => rfl
  | cons j l ih =>
    obtain ⟨hj, hl⟩ := List.nodup_cons.1 hl
    rw [List.flatMap_cons, ih hl fun k hk => h k (List.mem_cons_of_mem j hk)]
    by_cases hjb : j = b
    · subst hjb
      simp [hj]
    · rw [h j List.mem_cons_self hjb, List.nil_append]
      simp [Ne.symm hjb]

end Regions

end Vuma.Msg
