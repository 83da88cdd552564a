import Vuma.Lib.HashMap

/-!
# Tables of entities

A table holds entities by the identifier each of them carries. Identifiers are machine words, and
putting an entity in moves a counter past its identifier, so the last word cannot be one. A list of
entities is put into a table one by one, either as new entities or in the place of old ones, and
what goes wrong on the way is reported.
-/

namespace Vuma.Lib

/-- Values that carry an identifier. -/
class Entity (V : Type) where
  ident : V → Nat

open Entity

/-- Entities by their identifiers. -/
structure Table (V : Type) [Entity V] where
  entries : HashMap Nat V
  keyed : ∀ k v, entries.lookup k = some v → ident v = k
  bounded : ∀ k v, entries.lookup k = some v → k + 1 < 2 ^ 64

namespace Table

variable {V W : Type} [Entity V] {t t' : Table V} {k : Nat} {v : V} {l : List V}

def get (t : Table V) (k : Nat) : Option V := t.entries.lookup k

def ids (t : Table V) : List Nat := t.entries.keys

instance : EmptyCollection (Table V) :=
  ⟨⟨∅, fun _ _ h => by simp at h, fun _ _ h => by simp at h⟩⟩

theorem mem_ids : k ∈ t.ids ↔ (t.get k).isSome := HashMap.mem_keys_iff

theorem nodup_ids (t : Table V) : t.ids.Nodup := t.entries.keys_nodup

theorem ident_of_get (h : t.get k = some v) : ident v = k := t.keyed k v h

theorem bound_of_get (h : t.get k = some v) : k + 1 < 2 ^ 64 := t.bounded k v h

/-- Take an entity out. -/
def erase (t : Table V) (k : Nat) : Table V where
  entries := t.entries.erase k
  keyed k' v h := by
    rw [HashMap.lookup_erase_ite] at h
    split_ifs at h
    exact t.keyed k' v h
  bounded k' v h := by
    rw [HashMap.lookup_erase_ite] at h
    split_ifs at h
    exact t.bounded k' v h

theorem get_erase (t : Table V) (k k' : Nat) :
    (t.erase k).get k' = if k' = k then none else t.get k' :=
  HashMap.lookup_erase_ite _ _ _

/-- Take some entities out. -/
def eraseAll (t : Table V) (ks : List Nat) : Table V := ks.foldl erase t

theorem get_eraseAll (ks : List Nat) (t : Table V) (k : Nat) :
    (t.eraseAll ks).get k = if k ∈ ks then none else t.get k := by
  induction ks generalizing t with
  | nil => simp [eraseAll]
  | cons k' ks ih =>
    have hstep : t.eraseAll (k' :: ks) = (t.erase k').eraseAll ks := rfl
    rw [hstep, ih, get_erase]
    by_cases h : k = k' <;> by_cases h' : k ∈ ks <;> simp [h, h']

/-- Put an entity in, in the place of the one with its identifier. The counter that is moved past
the identifier panics at the last word. -/
def insert (t : Table V) (v : V) : Option (Table V) :=
  if h : ident v + 1 < 2 ^ 64 then
    some
      { entries := t.entries.insert (ident v) v
        keyed := fun k' v' h' => by
          rw [HashMap.lookup_insert_ite] at h'
          split_ifs at h' with hk
          · cases h'
            exact hk.symm
          · exact t.keyed k' v' h'
        bounded := fun k' v' h' => by
          rw [HashMap.lookup_insert_ite] at h'
          split_ifs at h' with hk
          · exact hk ▸ h
          · exact t.bounded k' v' h' }
  else none

theorem insert_eq_some (h : ident v + 1 < 2 ^ 64) : ∃ t', t.insert v = some t' ∧
    ∀ k, t'.get k = if k = ident v then some v else t.get k := by
  rw [insert, dif_pos h]
  exact ⟨_, rfl, fun k => HashMap.lookup_insert_ite _ _ _ _⟩

/-- The table of some entities; those whose identifiers are out of range are left out. -/
def ofList (l : List V) : Table V := l.foldl (fun t v => (t.insert v).getD t) ∅

/-- The entities of a table. -/
def values (t : Table V) : List V := t.entries.entries.map Sigma.snd

theorem mem_values (h : t.get k = some v) : v ∈ t.values :=
  List.mem_map.2 ⟨⟨k, v⟩, List.of_mem_dlookup h, rfl⟩

/-- Put new entities in. An entity whose identifier is taken is left out and reported; the others
are checked against the table as it is when their turn comes. -/
def addAll (duplicate : Nat → W) (check : (Nat → Option V) → V → List W) :
    Table V → List V → Option (Table V × List W)
  | t, [] => some (t, [])
  | t, v :: l =>
    if (t.get (ident v)).isSome then do
      let (t', ws) ← addAll duplicate check t l
      return (t', duplicate (ident v) :: ws)
    else do
      let (t', ws) ← addAll duplicate check (← t.insert v) l
      return (t', check t.get v ++ ws)

/-- Put entities in the place of old ones. An entity that has no old one is left out and reported.
The identifiers of those put in are returned. -/
def modifyAll (notFound : Nat → W) : Table V → List V → Option (Table V × List W × List Nat)
  | t, [] => some (t, [], [])
  | t, v :: l =>
    if (t.get (ident v)).isSome then do
      let (t', ws, ids) ← modifyAll notFound (← t.insert v) l
      return (t', ws, ident v :: ids)
    else do
      let (t', ws, ids) ← modifyAll notFound t l
      return (t', notFound (ident v) :: ws, ids)

/-- The first entity of the list with an identifier, or what was there. -/
def overlay (g : Nat → Option V) (l : List V) (k : Nat) : Option V :=
  (l.find? fun v => ident v = k).or (g k)

theorem overlay_cons (g : Nat → Option V) (v : V) (l : List V) (k : Nat) :
    overlay g (v :: l) k = if ident v = k then some v else overlay g l k := by
  by_cases h : ident v = k <;> simp [overlay, h]

theorem overlay_of_notMem {g : Nat → Option V} (h : k ∉ l.map ident) : overlay g l k = g k := by
  have hfind : (l.find? fun v => ident v = k) = none := by
    rw [List.find?_eq_none]
    intro v hv hk
    exact h (List.mem_map.2 ⟨v, hv, of_decide_eq_true hk⟩)
  rw [overlay, hfind, Option.none_or]

theorem overlay_of_mem {g : Nat → Option V} (h : (l.map ident).Nodup) (hv : v ∈ l) :
    overlay g l (ident v) = some v := by
  induction l with
  | nil => cases hv
  | cons u l ih =>
    rw [overlay_cons]
    rcases List.mem_cons.1 hv with rfl | hmem
    · exact if_pos rfl
    · have hne : ident u ≠ ident v := by
        intro heq
        exact (List.nodup_cons.1 h).1 (List.mem_map.2 ⟨v, hmem, heq.symm⟩)
      rw [if_neg hne]
      exact ih (List.nodup_cons.1 h).2 hmem

/-- An entity put in beforehand comes before the list. -/
theorem overlay_eq_cons {g g' : Nat → Option V}
    (hg : ∀ k, g' k = if k = ident v then some v else g k) (h : ident v ∉ l.map ident) :
    overlay g' l = overlay g (v :: l) := by
  funext k
  rw [overlay_cons]
  by_cases hk : ident v = k
  · subst hk
    rw [if_pos rfl, overlay_of_notMem h, hg, if_pos rfl]
  · rw [if_neg hk, overlay, overlay, hg, if_neg (Ne.symm hk)]

/-- New entities go in as they are, and the reports are those of the checks. -/
theorem addAll_eq_some (duplicate : Nat → W) (check : (Nat → Option V) → V → List W)
    (hnodup : (l.map ident).Nodup) (hfresh : ∀ v ∈ l, t.get (ident v) = none)
    (hbound : ∀ v ∈ l, ident v + 1 < 2 ^ 64) :
    ∃ t' ws, addAll duplicate check t l = some (t', ws) ∧ t'.get = overlay t.get l ∧
      (ws = [] ↔ ∀ l₁ v l₂, l = l₁ ++ v :: l₂ → check (overlay t.get l₁) v = []) := by
  induction l generalizing t with
  | nil =>
    refine ⟨t, [], rfl, ?_, iff_of_true rfl ?_⟩
    · funext k
      exact (overlay_of_notMem (by simp)).symm
    · intro l₁ v l₂ h
      simp at h
  | cons v l ih =>
    obtain ⟨hv, hnodup'⟩ := List.nodup_cons.1 hnodup
    obtain ⟨t₁, hins, hget⟩ := insert_eq_some (t := t) (hbound v List.mem_cons_self)
    have hfresh' : ∀ u ∈ l, t₁.get (ident u) = none := by
      intro u hu
      have hne : ident u ≠ ident v := fun heq => hv (List.mem_map.2 ⟨u, hu, heq⟩)
      rw [hget, if_neg hne]
      exact hfresh u (List.mem_cons_of_mem v hu)
    obtain ⟨t', ws, hrun, hget', hws⟩ :=
      ih hnodup' hfresh' fun u hu => hbound u (List.mem_cons_of_mem v hu)
    have hnone : (t.get (ident v)).isSome = false := by
      rw [hfresh v List.mem_cons_self]
      rfl
    refine ⟨t', check t.get v ++ ws, ?_, ?_, ?_⟩
    · simp [addAll, hnone, hins, hrun]
    · rw [hget', overlay_eq_cons hget hv]
    · rw [List.append_eq_nil_iff, hws]
      have hnil : overlay t.get [] = t.get := funext fun k => overlay_of_notMem (by simp)
      constructor
      · rintro ⟨hfirst, hrest⟩ l₁ u l₂ heq
        cases l₁ with
        | nil =>
          obtain ⟨rfl, rfl⟩ := List.cons.inj heq
          rw [hnil]
          exact hfirst
        | cons w l₁ =>
          obtain ⟨rfl, rfl⟩ := List.cons.inj heq
          rw [← overlay_eq_cons hget fun hmem => hv (by simp [List.mem_map.1 hmem])]
          exact hrest l₁ u l₂ rfl
      · intro h
        refine ⟨by simpa only [hnil] using h [] v l rfl, ?_⟩
        rintro l₁ u l₂ rfl
        rw [overlay_eq_cons hget fun hmem => hv (by simp [List.mem_map.1 hmem])]
        exact h (v :: l₁) u l₂ rfl

/-- What is put in place of old entities: the last one with each identifier. -/
theorem modifyAll_eq_some (notFound : Nat → W) (l : List V) (t : Table V) :
    ∃ t' ws, modifyAll notFound t l =
        some (t', ws, (l.map ident).filter fun k => (t.get k).isSome) ∧
      (∀ k, t'.get k = if (t.get k).isSome then overlay t.get l.reverse k else none) ∧
      (ws = [] ↔ ∀ v ∈ l, (t.get (ident v)).isSome) := by
  induction l generalizing t with
  | nil =>
    refine ⟨t, [], rfl, fun k => ?_, by simp⟩
    cases h : t.get k <;> simp [overlay, h]
  | cons v l ih =>
    by_cases hv : (t.get (ident v)).isSome
    · obtain ⟨u, hu⟩ := Option.isSome_iff_exists.1 hv
      obtain ⟨t₁, hins, hget⟩ := insert_eq_some (t := t) (v := v) (bound_of_get hu)
      obtain ⟨t', ws, hrun, hget', hws⟩ := ih t₁
      have hsome : ∀ k, (t₁.get k).isSome = (t.get k).isSome := by
        intro k
        rw [hget]
        split_ifs with hk
        · rw [hk, hv]
          rfl
        · rfl
      refine ⟨t', ws, ?_, ?_, ?_⟩
      · simp [modifyAll, hv, hins, hrun, hsome]
      · intro k
        rw [hget', hsome]
        have hlast : overlay t₁.get l.reverse k = overlay t.get (v :: l).reverse k := by
          rw [overlay, overlay, List.reverse_cons, List.find?_append, Option.or_assoc, hget]
          congr 1
          by_cases hk : ident v = k
          · simp [hk]
          · simp [hk, Ne.symm hk]
        rw [hlast]
      · simp [hws, hsome, hv]
    · obtain ⟨t', ws, hrun, hget', hws⟩ := ih t
      refine ⟨t', notFound (ident v) :: ws, ?_, ?_, ?_⟩
      · simp [modifyAll, hv, hrun]
      · intro k
        rw [hget']
        split_ifs with hk
        · have hne : ident v ≠ k := by
            rintro rfl
            exact hv hk
          rw [overlay, overlay, List.reverse_cons, List.find?_append]
          simp [hne]
        · rfl
      · simp [hv]

end Table

end Vuma.Lib
