import Vuma.Package.TomlDocument
import Vuma.Lib.Fuel

/-!
# Places in a value

Every change of a table puts one value at one place: it makes the tables on the way, and leaves
alone what is neither on the way nor below.
-/

namespace Vuma.Package.Toml

/-- One step into a value. -/
inductive Step where
  | key (k : String)
  | index (i : Nat)
  deriving DecidableEq, Repr

abbrev Loc := List Step

/-- The place of a dotted key. -/
def keys (path : List String) : Loc := path.map .key

def Value.at : Value → Loc → Option Value
  | v, [] => some v
  | .table entries, .key k :: loc => (entries.lookup k).bind fun v => v.at loc
  | .array items, .index i :: loc => items[i]?.bind fun v => v.at loc
  | _, _ => none

variable {x x' y y' v w : Value} {l m : Loc} {k : String} {t t' u : Entries}

@[simp]
theorem at_nil (x : Value) : x.at [] = some x := by
  cases x <;> rfl

theorem at_key (t : Entries) (k : String) (l : Loc) :
    (Value.table t).at (.key k :: l) = (t.lookup k).bind fun v => v.at l := rfl

theorem at_index (items : List Value) (i : Nat) (l : Loc) :
    (Value.array items).at (.index i :: l) = items[i]?.bind fun v => v.at l := rfl

theorem at_append (x : Value) (l m : Loc) : x.at (l ++ m) = (x.at l).bind fun y => y.at m := by
  induction l generalizing x with
  | nil => simp
  | cons s l ih =>
    have hbind : ∀ o : Option Value, (o.bind fun v => v.at (l ++ m)) =
        (o.bind fun v => v.at l).bind fun y => y.at m := by
      intro o
      rw [Option.bind_assoc]
      exact congrArg o.bind (funext ih)
    cases x <;> cases s
    · rfl
    · rfl
    · rfl
    · exact hbind _
    · exact hbind _
    · rfl

theorem lookup_cons_ite {V : Type} (k k' : String) (v : V) (entries : List (String × V)) :
    ((k, v) :: entries).lookup k' = if k' = k then some v else entries.lookup k' := by
  rw [List.lookup_cons]
  by_cases h : k' = k
  · subst h
    rw [beq_self_eq_true, if_pos rfl]
  · rw [beq_false_of_ne h, if_neg h]

theorem lookup_insertEntry {V : Type} (k k' : String) (v : V) (entries : List (String × V)) :
    (insertEntry k v entries).lookup k' = if k' = k then some v else entries.lookup k' := by
  induction entries with
  | nil => exact lookup_cons_ite k k' v []
  | cons p entries ih =>
    obtain ⟨k'', v''⟩ := p
    rw [insertEntry]
    by_cases heq : k = k''
    · subst heq
      rw [if_pos rfl, lookup_cons_ite, lookup_cons_ite]
      split <;> rfl
    · rw [if_neg heq]
      split
      · exact lookup_cons_ite _ _ _ _
      · rw [lookup_cons_ite, lookup_cons_ite, ih]
        split
        · next h =>
          subst h
          rw [if_neg (Ne.symm heq)]
        · rfl

/-! ## Putting a value at a place -/

/-- There is an array of a length. -/
def IsArray (o : Option Value) (n : Nat) : Prop :=
  ∃ items, o = some (.array items) ∧ items.length = n

/-- The value `x'` is `x` with `v` at the place `l`. -/
structure Put (x x' : Value) (l : Loc) (v : Value) : Prop where
  self : x'.at l = some v
  apart : ∀ m, ¬ l <+: m → ¬ m <+: l → x'.at m = x.at m
  above : ∀ m, m <+: l → m ≠ l → ∀ n, IsArray (x'.at m) n ↔ IsArray (x.at m) n

/-- What is at a place, or an empty table if there is nothing. -/
def Holds (x : Value) (l : Loc) (y : Value) : Prop :=
  x.at l = some y ∨ x.at l = none ∧ y = .table []

theorem put_nil (x x' : Value) : Put x x' [] x' where
  self := at_nil x'
  apart _ h := absurd List.nil_prefix h
  above _ h hne := absurd (List.prefix_nil.mp h) hne

theorem not_isArray_table {n : Nat} : ¬ IsArray (some (.table t)) n := by
  rintro ⟨items, h, -⟩
  cases h

theorem not_isArray_none {n : Nat} : ¬ IsArray none n := by
  rintro ⟨items, h, -⟩
  cases h

theorem at_empty {s : Step} : (Value.table []).at (s :: l) = none := by
  cases s <;> rfl

theorem Holds.trans (h : Holds x l y) (h' : Holds y m w) : Holds x (l ++ m) w := by
  rw [Holds, at_append]
  rcases h with hy | ⟨hnone, rfl⟩
  · rw [hy]
    exact h'
  · rw [hnone]
    cases m with
    | nil =>
      rcases h' with h' | ⟨h', -⟩
      · rw [at_nil] at h'
        exact .inr ⟨rfl, (Option.some.inj h').symm⟩
      · cases h'
    | cons s m =>
      rcases h' with h' | ⟨-, rfl⟩
      · rw [at_empty] at h'
        cases h'
      · exact .inr ⟨rfl, rfl⟩

theorem Holds.at_below (h : Holds x l y) (hm : m ≠ []) : x.at (l ++ m) = y.at m := by
  rw [at_append]
  rcases h with hat | ⟨hnone, rfl⟩
  · rw [hat, Option.bind_some]
  · obtain ⟨s, m, rfl⟩ := List.exists_cons_of_ne_nil hm
    rw [hnone, Option.bind_none, at_empty]

/-- To put a changed value in its place. -/
theorem Put.compose (hold : Holds x l y) (h : Put y y' m v) (h' : Put x x' l y') :
    Put x x' (l ++ m) v := by
  have hold' : ∀ m', m' ≠ [] → x.at (l ++ m') = y.at m' := fun m' => hold.at_below
  have hnew : ∀ m', x'.at (l ++ m') = y'.at m' := fun m' => by
    rw [at_append, h'.self, Option.bind_some]
  refine ⟨(hnew m).trans h.self, fun p hlp hpl => ?_, fun p hpl hne n => ?_⟩
  · by_cases hl : l <+: p
    · obtain ⟨m', rfl⟩ := hl
      rw [List.prefix_append_right_inj] at hlp hpl
      have hm' : m' ≠ [] := by
        rintro rfl
        exact hpl List.nil_prefix
      rw [hnew, hold' m' hm']
      exact h.apart m' hlp hpl
    · exact h'.apart p hl fun hp => hpl (hp.trans (List.prefix_append l m))
  · rcases List.prefix_or_prefix_of_prefix hpl (List.prefix_append l m) with hp | hl
    · by_cases hpeq : p = l
      · subst hpeq
        have hm : ([] : Loc) ≠ m := by
          rintro rfl
          exact hne (List.append_nil _).symm
        have hself := h.above [] List.nil_prefix hm n
        rw [at_nil, at_nil] at hself
        rw [h'.self, hself]
        rcases hold with hy | ⟨hnone, rfl⟩
        · rw [hy]
        · rw [hnone]
          exact iff_of_false not_isArray_table not_isArray_none
      · exact h'.above p hp hpeq n
    · obtain ⟨m', rfl⟩ := hl
      rw [List.prefix_append_right_inj] at hpl
      have hne' : m' ≠ m := fun heq => hne (by rw [heq])
      have hself := h.above m' hpl hne' n
      rw [hnew, hself]
      by_cases hm' : m' = []
      · subst hm'
        rw [List.append_nil, at_nil]
        rcases hold with hy | ⟨hnone, rfl⟩
        · rw [hy]
        · rw [hnone]
          exact iff_of_false not_isArray_table not_isArray_none
      · rw [hold' m' hm']

theorem put_entry (t : Entries) (k : String) (v : Value) :
    Put (.table t) (.table (insertEntry k v t)) [.key k] v where
  self := by
    rw [at_key, lookup_insertEntry, if_pos rfl]
    exact at_nil v
  apart m h h' := by
    cases m with
    | nil => exact absurd List.nil_prefix h'
    | cons s m =>
      cases s with
      | index i => rfl
      | key k' =>
        have hne : k' ≠ k := by
          rintro rfl
          exact h (by simp)
        rw [at_key, at_key, lookup_insertEntry, if_neg hne]
  above m h hne n := by
    have hm : m = [] := by
      cases m with
      | nil => rfl
      | cons s m =>
        obtain ⟨rfl, hm⟩ := List.cons_prefix_cons.mp h
        exact absurd (by rw [List.prefix_nil.mp hm]) hne
    subst hm
    rw [at_nil, at_nil]
    exact iff_of_false not_isArray_table not_isArray_table

theorem put_last {items : List Value} (hitems : items ≠ []) (v : Value) :
    Put (.array items) (.array (items.dropLast ++ [v])) [.index (items.length - 1)] v where
  self := by
    rw [at_index, List.getElem?_append_right (by simp)]
    simp
  apart m h h' := by
    cases m with
    | nil => exact absurd List.nil_prefix h'
    | cons s m =>
      cases s with
      | key k => rfl
      | index i =>
        have hne : i ≠ items.length - 1 := by
          rintro rfl
          exact h (by simp)
        have hget : (items.dropLast ++ [v])[i]? = items[i]? := by
          have hpos := List.length_pos_iff.mpr hitems
          by_cases hi : i < items.length - 1
          · rw [List.getElem?_append_left (by simpa using hi), List.getElem?_dropLast, if_pos hi]
          · rw [List.getElem?_eq_none (by simp; omega), List.getElem?_eq_none (by omega)]
        rw [at_index, at_index, hget]
  above m h' hne n := by
    have hpos := List.length_pos_iff.mpr hitems
    have hm : m = [] := by
      cases m with
      | nil => rfl
      | cons s m =>
        obtain ⟨rfl, hm⟩ := List.cons_prefix_cons.mp h'
        exact absurd (by rw [List.prefix_nil.mp hm]) hne
    subst hm
    rw [at_nil, at_nil]
    simp only [IsArray, Option.some_inj, Value.array.injEq, exists_eq_left', List.length_append,
      List.length_dropLast, List.length_singleton]
    omega

/-- The value at a place is changed, but what was below it stays, and there are no new arrays
there. -/
structure Grows (x x' : Value) (l : Loc) (v : Value) : Prop extends Put x x' l v where
  below : ∀ m, m ≠ [] → ∀ w, x.at (l ++ m) = some w → v.at m = some w
  back : ∀ m, m ≠ [] → ∀ n, IsArray (v.at m) n → IsArray (x.at (l ++ m)) n

theorem Grows.keeps (h : Grows x x' l v) (hm : ¬ m <+: l) (hat : x.at m = some w) :
    x'.at m = some w := by
  by_cases hl : l <+: m
  · obtain ⟨m, rfl⟩ := hl
    have hne : m ≠ [] := by
      rintro rfl
      exact hm (by simp)
    rw [at_append, h.self, Option.bind_some]
    exact h.below m hne w hat
  · rw [h.apart m hl hm, hat]

theorem Grows.isArray_iff (h : Grows x x' l v) (hm : m ≠ l) (n : Nat) :
    IsArray (x'.at m) n ↔ IsArray (x.at m) n := by
  by_cases hml : m <+: l
  · exact h.above m hml hm n
  by_cases hlm : l <+: m
  · constructor
    · obtain ⟨m, rfl⟩ := hlm
      have hne : m ≠ [] := by
        rintro rfl
        exact hml (by simp)
      rw [at_append, h.self, Option.bind_some]
      exact h.back m hne n
    · rintro ⟨items, hitems, hn⟩
      exact ⟨items, h.keeps hml hitems, hn⟩
  · rw [h.apart m hlm hml]

/-- To make the tables of a path. -/
theorem Put.grows_table (h : Put x x' l (.table t)) (hold : Holds x l (.table t)) :
    Grows x x' l (.table t) where
  toPut := h
  below m hm w hw := by rw [← hold.at_below hm, hw]
  back m hm n hn := by rwa [hold.at_below hm]

theorem Put.grows_array {items : List Value} (h : Put x x' l (.array (items ++ [.table []])))
    (hold : x.at l = some (.array items) ∨ x.at l = none ∧ items = []) :
    Grows x x' l (.array (items ++ [.table []])) where
  toPut := h
  below m hm w hw := by
    rw [at_append] at hw
    rcases hold with hat | ⟨hnone, -⟩
    · rw [hat, Option.bind_some] at hw
      obtain ⟨s, m, rfl⟩ := List.exists_cons_of_ne_nil hm
      cases s with
      | key k => cases hw
      | index i =>
        obtain ⟨y, hy, hw⟩ := Option.bind_eq_some_iff.mp hw
        have hlt := (List.getElem?_eq_some_iff.mp hy).1
        rw [at_index, List.getElem?_append_left hlt, hy, Option.bind_some, hw]
    · rw [hnone] at hw
      cases hw
  back m hm n hn := by
    obtain ⟨s, m, rfl⟩ := List.exists_cons_of_ne_nil hm
    cases s with
    | key k => exact absurd hn not_isArray_none
    | index i =>
      rw [at_index] at hn
      rcases Nat.lt_trichotomy i items.length with hi | rfl | hi
      · have hat : x.at l = some (.array items) := by
          rcases hold with hat | ⟨-, rfl⟩
          · exact hat
          · cases hi
        rw [List.getElem?_append_left hi] at hn
        rw [at_append, hat, Option.bind_some, at_index]
        exact hn
      · rw [List.getElem?_concat_length, Option.bind_some] at hn
        cases m with
        | nil =>
          rw [at_nil] at hn
          exact absurd hn not_isArray_table
        | cons s m =>
          rw [at_empty] at hn
          exact absurd hn not_isArray_none
      · rw [List.getElem?_eq_none (by simp; omega)] at hn
        exact absurd hn not_isArray_none

/-! ## The functions of the source -/

/-- Going down a path: the place it leads to, and the table there. -/
inductive Reaches : Entries → List String → Loc → Entries → Prop
  | here (t : Entries) : Reaches t [] [] t
  | table {t inner u : Entries} {key : String} {path : List String} {l : Loc}
      (h : (t.lookup key).getD (.table []) = .table inner) (hpath : Reaches inner path l u) :
      Reaches t (key :: path) (.key key :: l) u
  | last {t inner u : Entries} {key : String} {items : List Value} {path : List String} {l : Loc}
      (h : t.lookup key = some (.array items)) (hlast : items.getLast? = some (.table inner))
      (hpath : Reaches inner path l u) :
      Reaches t (key :: path) (.key key :: .index (items.length - 1) :: l) u

theorem holds_entry {inner : Entries} (h : (t.lookup k).getD (.table []) = .table inner) :
    Holds (.table t) [.key k] (.table inner) := by
  rw [Holds, at_key]
  cases hk : t.lookup k with
  | none =>
    rw [hk] at h
    exact .inr ⟨rfl, h.symm⟩
  | some v =>
    rw [hk] at h
    rw [Option.bind_some, at_nil]
    exact .inl (congrArg some h)

theorem holds_last {items : List Value} (h : items.getLast? = some y) :
    Holds (.array items) [.index (items.length - 1)] y := by
  rw [List.getLast?_eq_getElem?] at h
  rw [Holds, at_index, h, Option.bind_some, at_nil]
  exact .inl rfl

theorem put_navigateMut {line : Nat} {change : Entries → Except ParseError Entries}
    {path : List String} (h : navigateMut line change path t = .ok t') :
    ∃ l u u', Reaches t path l u ∧ change u = .ok u' ∧
      Put (.table t) (.table t') l (.table u') := by
  induction path generalizing t t' with
  | nil => exact ⟨[], t, t', .here t, h, put_nil _ _⟩
  | cons key path ih =>
    rw [navigateMut] at h
    cases hv : (t.lookup key).getD (.table []) with
    | string s =>
      rw [hv] at h
      cases h
    | table inner =>
      rw [hv] at h
      obtain ⟨inner', hinner, ht'⟩ := Lib.bind_eq_ok h
      cases ht'
      obtain ⟨l, u, u', hreach, hchange, hput⟩ := ih hinner
      exact ⟨_, u, u', .table hv hreach, hchange, hput.compose (holds_entry hv) (put_entry _ _ _)⟩
    | array items =>
      rw [hv] at h
      have hlookup : t.lookup key = some (.array items) := by
        cases hk : t.lookup key with
        | none =>
          rw [hk] at hv
          cases hv
        | some v =>
          rw [hk] at hv
          exact congrArg some hv
      dsimp only at h
      split at h
      · next inner hlast =>
        obtain ⟨inner', hinner, ht'⟩ := Lib.bind_eq_ok h
        cases ht'
        obtain ⟨l, u, u', hreach, hchange, hput⟩ := ih hinner
        have hne : items ≠ [] := by
          rintro rfl
          cases hlast
        have hitems := hput.compose (holds_last hlast) (put_last hne _)
        have hold : Holds (.table t) [.key key] (.array items) := by
          rw [Holds, at_key, hlookup, Option.bind_some, at_nil]
          exact .inl rfl
        exact ⟨_, u, u', .last hlookup hlast hreach, hchange, hitems.compose hold (put_entry _ _ _)⟩
      · cases h

theorem put_insertIntoTable {keyPath : List String} {line : Nat}
    (h : insertIntoTable t keyPath v line = .ok t') :
    Put (.table t) (.table t') (keys keyPath) v := by
  induction keyPath generalizing t t' with
  | nil => cases h
  | cons first rest ih =>
    cases rest with
    | nil =>
      cases h
      exact put_entry _ _ _
    | cons second rest =>
      rw [insertIntoTable] at h
      cases hv : (t.lookup first).getD (.table []) with
      | string s =>
        rw [hv] at h
        cases h
      | array items =>
        rw [hv] at h
        cases h
      | table inner =>
        rw [hv] at h
        obtain ⟨inner', hinner, ht'⟩ := Lib.bind_eq_ok h
        cases ht'
        exact (ih hinner).compose (holds_entry hv) (put_entry _ _ _)

theorem Reaches.holds {path : List String} (h : Reaches t path l u) :
    Holds (.table t) l (.table u) := by
  induction h with
  | here t => exact .inl (at_nil _)
  | table h _ ih => exact (holds_entry h).trans ih
  | @last t inner u key items path l h hlast _ ih =>
    have hitems : Holds (.table t) [.key key] (.array items) := by
      rw [Holds, at_key, h, Option.bind_some, at_nil]
      exact .inl rfl
    exact (hitems.trans (holds_last hlast)).trans ih

end Vuma.Package.Toml
