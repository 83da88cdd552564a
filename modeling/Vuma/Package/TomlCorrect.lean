import Vuma.Package.TomlPlaces

/-!
# What the parser keeps

A document that the parser accepts is kept whole exactly when no statement of it assigns what was
assigned, opened or passed through before, and none goes through what was assigned: the parser
overwrites the one and changes the other without a word.
-/

namespace Vuma.Package.Toml

/-! ## The places a document speaks of -/

/-- The place a path leads to from another, through the latest table of each array of tables, given
the places of the arrays that a table was put into. -/
def resolveFrom (pushes : List Loc) : Loc → List String → Loc
  | l, [] => l
  | l, k :: path =>
    let l := l ++ [.key k]
    resolveFrom pushes
      (if pushes.count l = 0 then l else l ++ [.index (pushes.count l - 1)]) path

def resolve (pushes : List Loc) (path : List String) : Loc := resolveFrom pushes [] path

/-- The place that a header is about. -/
def headerAt (pushes : List Loc) (path : List String) : Loc :=
  match path.getLast? with
  | some last => resolve pushes path.dropLast ++ [.key last]
  | none => []

/-- A place that a header opens, or that a pair assigns. -/
inductive Use where
  | opened (l : Loc)
  | assigned (l : Loc) (e : Expr)

/-- The place that a statement uses. -/
def Stmt.use (pushes : List Loc) : Stmt → Use
  | .table path => .opened (headerAt pushes path)
  | .arrayTable path =>
    .opened (headerAt pushes path ++ [.index (pushes.count (headerAt pushes path))])
  | .pair currentPath keyPath e => .assigned (resolve pushes currentPath ++ keys keyPath) e

/-- The arrays of tables after a statement. -/
def Stmt.pushed (pushes : List Loc) : Stmt → List Loc
  | .arrayTable path => pushes ++ [headerAt pushes path]
  | _ => pushes

/-- The places that the statements use, one after the other. -/
def uses : List Loc → List Stmt → List Use
  | _, [] => []
  | pushes, stmt :: doc => stmt.use pushes :: uses (stmt.pushed pushes) doc

/-- The later use neither overwrites nor changes the earlier one, and does not open an array of
tables as a table. -/
def Use.Apart : Use → Use → Prop
  | .assigned l _, .assigned l' _ => ¬ l <+: l' ∧ ¬ l' <+: l
  | .assigned l _, .opened l' => ¬ l <+: l'
  | .opened l, .assigned l' _ => ¬ l' <+: l
  | .opened l, .opened l' => ∀ i, l ≠ l' ++ [.index i]

/-- No inline table assigns a key twice, or goes through a key that it assigns. -/
inductive Clean : Expr → Prop
  | string (s : String) : Clean (.string s)
  | array {items : List Expr} (h : ∀ e ∈ items, Clean e) : Clean (.array items)
  | inline {pairs : List (List String × Expr)}
      (hapart : pairs.Pairwise fun p q => ¬ p.1 <+: q.1 ∧ ¬ q.1 <+: p.1)
      (h : ∀ p ∈ pairs, Clean p.2) : Clean (.inline pairs)

/-- No statement overwrites or changes what an earlier one is about. -/
structure NoConflict (doc : List Stmt) : Prop where
  apart : (uses [] doc).Pairwise Use.Apart
  clean : ∀ l e, .assigned l e ∈ uses [] doc → Clean e

/-- A pair inside of a value, and its place there. -/
inductive Inner : Expr → Loc → Expr → Prop
  | item {items : List Expr} {i : Nat} {e e' : Expr} {l : Loc} (h : items[i]? = some e)
      (hinner : Inner e l e') : Inner (.array items) (.index i :: l) e'
  | pair {pairs : List (List String × Expr)} {keyPath : List String} {e : Expr}
      (h : (keyPath, e) ∈ pairs) : Inner (.inline pairs) (keys keyPath) e
  | deeper {pairs : List (List String × Expr)} {keyPath : List String} {e e' : Expr} {l : Loc}
      (h : (keyPath, e) ∈ pairs) (hinner : Inner e l e') :
      Inner (.inline pairs) (keys keyPath ++ l) e'

/-- A pair of the document, of a section or of an inline table, and its place. -/
inductive PairOf (doc : List Stmt) : Loc → Expr → Prop
  | section {l : Loc} {e : Expr} (h : .assigned l e ∈ uses [] doc) : PairOf doc l e
  | inner {l l' : Loc} {e e' : Expr} (h : .assigned l e ∈ uses [] doc) (hinner : Inner e l' e') :
      PairOf doc (l ++ l') e'

/-- What is asked of the parser: if it accepts a text, every pair has its own value at its place,
and no pair assigns again, and nothing opens or goes through, what another one assigned. -/
def LosesNothing (input : String) : Prop :=
  ∀ n root, parse n input = some (.ok root) →
    ∃ doc, readText written n input = some (.ok doc) ∧ NoConflict doc ∧
      ∀ l e, PairOf doc l e → ∃ v, eval e = some v ∧ root.at l = some v

/-! ## Inline tables -/

theorem evalAll_getElem? {items : List Expr} {vs : List Value} (h : evalAll items = some vs)
    {i : Nat} {e : Expr} (hi : items[i]? = some e) : ∃ v, eval e = some v ∧ vs[i]? = some v := by
  induction items generalizing vs i with
  | nil => cases hi
  | cons e' items ih =>
    rw [evalAll] at h
    cases hv : eval e' with
    | none => simp [hv] at h
    | some v' =>
      cases hvs : evalAll items with
      | none => simp [hv, hvs] at h
      | some vs' =>
        simp [hv, hvs] at h
        subst h
        cases i with
        | zero =>
          cases hi
          exact ⟨v', hv, rfl⟩
        | succ i => exact ih hvs hi

theorem keys_prefix_keys {p q : List String} : keys p <+: keys q ↔ p <+: q := by
  have hinj : Function.Injective Step.key := fun _ _ h => Step.key.inj h
  rw [List.prefix_iff_eq_take, List.prefix_iff_eq_take, keys, keys, List.length_map,
    ← List.map_take]
  exact (List.map_injective_iff.mpr hinj).eq_iff

/-- One pair of an inline table. -/
theorem evalPairs_cons {p : List String × Expr} {pairs : List (List String × Expr)}
    {t t' : Entries} (h : evalPairs (p :: pairs) t = some t') :
    ∃ v u, eval p.2 = some v ∧ Put (.table t) (.table u) (keys p.1) v ∧
      evalPairs pairs u = some t' := by
  rw [evalPairs] at h
  obtain ⟨v, hv, h⟩ := Option.bind_eq_some_iff.mp h
  obtain ⟨u, hu, h⟩ := Option.bind_eq_some_iff.mp h
  refine ⟨v, u, hv, ?_, h⟩
  cases hins : insertIntoTable t p.1 v 0 with
  | error e =>
    rw [hins] at hu
    cases hu
  | ok u' =>
    rw [hins] at hu
    cases hu
    exact put_insertIntoTable hins

/-- What is at a key stays there as long as no pair goes above or below it. -/
theorem at_evalPairs {pairs : List (List String × Expr)} {t t' : Entries}
    (h : evalPairs pairs t = some t') {l : Loc}
    (hl : ∀ p ∈ pairs, ¬ keys p.1 <+: l ∧ ¬ l <+: keys p.1) :
    (Value.table t').at l = (Value.table t).at l := by
  induction pairs generalizing t with
  | nil =>
    cases h
    rfl
  | cons p pairs ih =>
    rw [List.forall_mem_cons] at hl
    obtain ⟨v, u, -, hput, hrest⟩ := evalPairs_cons h
    rw [ih hrest hl.2, hput.apart l hl.1.1 hl.1.2]

theorem at_pair {pairs : List (List String × Expr)} {t t' : Entries}
    (hapart : pairs.Pairwise fun p q => ¬ p.1 <+: q.1 ∧ ¬ q.1 <+: p.1)
    (h : evalPairs pairs t = some t') {keyPath : List String} {e : Expr}
    (hp : (keyPath, e) ∈ pairs) :
    ∃ v, eval e = some v ∧ (Value.table t').at (keys keyPath) = some v := by
  induction pairs generalizing t with
  | nil => cases hp
  | cons p pairs ih =>
    rw [List.pairwise_cons] at hapart
    obtain ⟨v, u, hv, hput, hrest⟩ := evalPairs_cons h
    rcases List.mem_cons.mp hp with rfl | hp
    · refine ⟨v, hv, ?_⟩
      rw [at_evalPairs hrest fun q hq => ?_, hput.self]
      rw [keys_prefix_keys, keys_prefix_keys]
      exact (hapart.1 q hq).symm
    · exact ih hapart.2 hrest hp

theorem at_inner {e e' : Expr} {l : Loc} (hinner : Inner e l e') (hclean : Clean e) {v : Value}
    (h : eval e = some v) : ∃ w, eval e' = some w ∧ v.at l = some w := by
  induction hinner generalizing v with
  | @item items i e e' l hi _ ih =>
    cases hclean with
    | array hclean =>
      rw [eval] at h
      obtain ⟨vs, hvs, rfl⟩ := Option.map_eq_some_iff.mp h
      obtain ⟨u, hu, hget⟩ := evalAll_getElem? hvs hi
      obtain ⟨w, hw, hat⟩ := ih (hclean e (List.mem_of_getElem? hi)) hu
      exact ⟨w, hw, by rw [at_index, hget, Option.bind_some, hat]⟩
  | pair hp =>
    cases hclean with
    | inline hapart =>
      rw [eval] at h
      obtain ⟨t, ht, rfl⟩ := Option.map_eq_some_iff.mp h
      exact at_pair hapart ht hp
  | deeper hp _ ih =>
    cases hclean with
    | inline hapart hclean =>
      rw [eval] at h
      obtain ⟨t, ht, rfl⟩ := Option.map_eq_some_iff.mp h
      obtain ⟨u, hu, hat⟩ := at_pair hapart ht hp
      obtain ⟨w, hw, hat'⟩ := ih (hclean _ hp) hu
      exact ⟨w, hw, by rw [at_append, hat, Option.bind_some, hat']⟩

/-! ## Sections -/

/-- The value after some statements: every assigned place has its value, and the arrays outside of
the assigned places are those that tables were put into. -/
structure Kept (pushes : List Loc) (earlier : List Use) (root : Value) : Prop where
  assigned : ∀ l e, .assigned l e ∈ earlier → ∃ v, eval e = some v ∧ root.at l = some v
  arrays : ∀ l n, IsArray (root.at l) n →
    (∃ l' e, .assigned l' e ∈ earlier ∧ l' <+: l) ∨ n = pushes.count l ∧ 0 < n
  pushed : ∀ l ∈ pushes, IsArray (root.at l) (pushes.count l)
  opened : ∀ l ∈ pushes, ∃ i, .opened (l ++ [.index i]) ∈ earlier

theorem prefix_resolveFrom (pushes : List Loc) (l : Loc) (path : List String) :
    l <+: resolveFrom pushes l path := by
  induction path generalizing l with
  | nil => exact List.prefix_rfl
  | cons k path ih =>
    refine List.IsPrefix.trans ?_ (ih _)
    split
    · exact List.prefix_append l _
    · exact (List.prefix_append l _).trans (List.prefix_append _ _)

theorem prefix_resolveFrom_cons (pushes : List Loc) (l : Loc) (k : String) (path : List String) :
    l ++ [.key k] <+: resolveFrom pushes l (k :: path) := by
  rw [resolveFrom]
  refine List.IsPrefix.trans ?_ (prefix_resolveFrom _ _ _)
  split
  · exact List.prefix_rfl
  · exact List.prefix_append _ _

variable {pushes : List Loc} {earlier : List Use} {root : Value}

/-- The parser goes where the path leads to. -/
theorem Kept.reaches (h : Kept pushes earlier root) {base l : Loc} {t u : Entries}
    {path : List String} (hreach : Reaches t path l u) (hbase : Holds root base (.table t))
    (hfree : ∀ l' e, .assigned l' e ∈ earlier → ¬ l' <+: resolveFrom pushes base path) :
    base ++ l = resolveFrom pushes base path := by
  induction hreach generalizing base with
  | here t => exact List.append_nil base
  | @table t inner u key path l hkey _ ih =>
    rw [resolveFrom] at hfree ⊢
    have hhold := hbase.trans (holds_entry hkey)
    have hcount : pushes.count (base ++ [.key key]) = 0 := by
      apply List.count_eq_zero.mpr
      intro hmem
      obtain ⟨items, hitems, -⟩ := h.pushed _ hmem
      rcases hhold with h' | ⟨h', -⟩
      · rw [hitems] at h'
        cases h'
      · rw [hitems] at h'
        cases h'
    simp only [if_pos hcount] at hfree ⊢
    rw [← ih hhold hfree, List.append_assoc]
    rfl
  | @last t inner u key items path l hkey hlast _ ih =>
    have hhold : Holds root (base ++ [.key key]) (.array items) := by
      refine hbase.trans (.inl ?_)
      rw [at_key, hkey, Option.bind_some, at_nil]
    have hat : root.at (base ++ [.key key]) = some (.array items) := by
      rcases hhold with hat | ⟨-, hempty⟩
      · exact hat
      · cases hempty
    rcases h.arrays _ _ ⟨items, hat, rfl⟩ with ⟨l', e, hmem, hle⟩ | ⟨hcount, hpos⟩
    · exact absurd (hle.trans (prefix_resolveFrom_cons pushes base key path)) (hfree l' e hmem)
    · have hne : pushes.count (base ++ [.key key]) ≠ 0 := by omega
      rw [resolveFrom] at hfree ⊢
      simp only [if_neg hne] at hfree ⊢
      rw [← hcount] at hfree ⊢
      rw [← ih (hhold.trans (holds_last hlast)) hfree, List.append_assoc, List.append_assoc]
      rfl

theorem resolveFrom_append (pushes : List Loc) (base : Loc) (path : List String) (k : String) :
    resolveFrom pushes base (path ++ [k]) =
      resolveFrom pushes (resolveFrom pushes base path) [k] := by
  induction path generalizing base with
  | nil => rfl
  | cons k' path ih =>
    rw [List.cons_append, resolveFrom, ih]
    rfl

/-- A statement that opens a place: it adds to what was there, and takes nothing away. -/
theorem Kept.open {x x' v : Value} {l : Loc} {pushes' : List Loc} {l' : Loc}
    (h : Kept pushes earlier x) (hgrows : Grows x x' l v)
    (hfree : ∀ l' e, .assigned l' e ∈ earlier → ¬ l' <+: l)
    (hmem : ∀ m ∈ pushes', m ≠ l → m ∈ pushes)
    (hcount : ∀ m, m ≠ l → pushes'.count m = pushes.count m)
    (harray : ∀ n, IsArray (some v) n ↔ n = pushes'.count l ∧ 0 < n)
    (hopened : l ∈ pushes' → ∃ i, l' = l ++ [.index i]) :
    Kept pushes' (earlier ++ [.opened l']) x' where
  assigned m e hm := by
    have hearlier : .assigned m e ∈ earlier := by simpa using hm
    obtain ⟨w, hw, hat⟩ := h.assigned m e hearlier
    exact ⟨w, hw, hgrows.keeps (hfree m e hearlier) hat⟩
  arrays m n hm := by
    by_cases heq : m = l
    · subst heq
      rw [hgrows.self] at hm
      exact .inr ((harray n).mp hm)
    · rcases h.arrays m n ((hgrows.isArray_iff heq n).mp hm) with ⟨l', e, hmem, hle⟩ | hn
      · exact .inl ⟨l', e, List.mem_append_left _ hmem, hle⟩
      · rw [hcount m heq]
        exact .inr hn
  pushed m hm := by
    by_cases heq : m = l
    · subst heq
      rw [hgrows.self]
      exact (harray _).mpr ⟨rfl, List.count_pos_iff.mpr hm⟩
    · rw [hgrows.isArray_iff heq, hcount m heq]
      exact h.pushed m (hmem m hm heq)
  opened m hm := by
    by_cases heq : m = l
    · subst heq
      obtain ⟨i, rfl⟩ := hopened hm
      exact ⟨i, by simp⟩
    · obtain ⟨i, hi⟩ := h.opened m (hmem m hm heq)
      exact ⟨i, List.mem_append_left _ hi⟩

theorem prefix_headerAt (pushes : List Loc) (path : List String) (last : String) :
    resolve pushes path <+: headerAt pushes (path ++ [last]) := by
  rw [headerAt, List.getLast?_concat, List.dropLast_concat]
  exact List.prefix_append _ _

/-- A header that does not open an array of tables leads to what it is about. -/
theorem Kept.resolve_eq (h : Kept pushes earlier root) {path : List String}
    (hfree : ∀ use ∈ earlier, use.Apart (.opened (headerAt pushes path))) :
    resolve pushes path = headerAt pushes path := by
  rcases List.eq_nil_or_concat' path with rfl | ⟨path, last, rfl⟩
  · rfl
  · rw [headerAt, List.getLast?_concat, List.dropLast_concat] at hfree ⊢
    rw [resolve, resolveFrom_append, ← resolve, resolveFrom]
    split
    · rfl
    · next hcount =>
      have hmem := List.count_pos_iff.mp (Nat.pos_of_ne_zero hcount)
      obtain ⟨i, hi⟩ := h.opened _ hmem
      exact absurd rfl (hfree _ hi i)

theorem Kept.table {path : List String} {t t' : Entries} {line : Nat}
    (h : Kept pushes earlier (.table t)) (hexec : ensureTable t path line = .ok t')
    (hfree : ∀ use ∈ earlier, use.Apart (.opened (headerAt pushes path))) :
    Kept pushes (earlier ++ [.opened (headerAt pushes path)]) (.table t') := by
  obtain ⟨l, u, u', hreach, hchange, hput⟩ := put_navigateMut hexec
  cases hchange
  have heq := h.resolve_eq hfree
  have hassigned : ∀ l' e, .assigned l' e ∈ earlier → ¬ l' <+: headerAt pushes path :=
    fun l' e hmem => hfree _ hmem
  have hl : l = headerAt pushes path := by
    rw [← heq]
    apply h.reaches hreach (.inl (at_nil _))
    intro l' e hmem
    rw [← resolve, heq]
    exact hassigned l' e hmem
  subst hl
  have hnot : headerAt pushes path ∉ pushes := by
    intro hmem
    obtain ⟨i, hi⟩ := h.opened _ hmem
    exact hfree _ hi i rfl
  refine h.open (hput.grows_table hreach.holds) hassigned (fun m hm _ => hm) (fun m _ => rfl) ?_ ?_
  · intro n
    rw [List.count_eq_zero.mpr hnot]
    refine iff_of_false not_isArray_table ?_
    rintro ⟨rfl, hpos⟩
    exact absurd hpos (Nat.lt_irrefl 0)
  · exact fun hmem => absurd hmem hnot

theorem put_push {parent parent' : Entries} {last : String} {line : Nat}
    (h : (match (parent.lookup last).getD (.array []) with
      | .array items => .ok (insertEntry last (.array (items ++ [.table []])) parent)
      | _ => .error ⟨line, .notArray last⟩) = Except.ok (ε := ParseError) parent') :
    ∃ items, Put (.table parent) (.table parent') [.key last] (.array (items ++ [.table []])) ∧
      (parent.lookup last = some (.array items) ∨ parent.lookup last = none ∧ items = []) := by
  cases hlook : parent.lookup last with
  | none =>
    rw [hlook] at h
    cases h
    exact ⟨[], put_entry _ _ _, .inr ⟨rfl, rfl⟩⟩
  | some v =>
    rw [hlook] at h
    cases v with
    | string s => cases h
    | table u => cases h
    | array items =>
      cases h
      exact ⟨items, put_entry _ _ _, .inl rfl⟩

theorem Kept.arrayTable {path : List String} {t t' : Entries} {line : Nat}
    (h : Kept pushes earlier (.table t)) (hexec : pushArrayTable t path line = .ok t')
    (hfree : ∀ use ∈ earlier, use.Apart ((Stmt.arrayTable path).use pushes)) :
    Kept (pushes ++ [headerAt pushes path]) (earlier ++ [(Stmt.arrayTable path).use pushes])
      (.table t') := by
  rcases List.eq_nil_or_concat' path with rfl | ⟨path, last, rfl⟩
  · cases hexec
  rw [pushArrayTable, List.getLast?_concat, List.dropLast_concat] at hexec
  obtain ⟨l, u, u', hreach, hchange, hput⟩ := put_navigateMut hexec
  obtain ⟨items, hentry, hlookup⟩ := put_push hchange
  have hat : headerAt pushes (path ++ [last]) = resolve pushes path ++ [.key last] := by
    rw [headerAt, List.getLast?_concat, List.dropLast_concat]
  set a := headerAt pushes (path ++ [last]) with ha
  have hassigned : ∀ l' e, .assigned l' e ∈ earlier → ¬ l' <+: a := by
    intro l' e hmem hle
    exact hfree _ hmem (hle.trans (List.prefix_append _ _))
  have hl : l = resolve pushes path := by
    apply h.reaches hreach (.inl (at_nil _))
    intro l' e hmem hle
    exact hassigned l' e hmem (hle.trans (prefix_headerAt pushes path last))
  subst hl
  have hput' := hentry.compose hreach.holds hput
  rw [← hat] at hput'
  have hold : (Value.table t).at a = some (.array items) ∨
      (Value.table t).at a = none ∧ items = [] := by
    rw [hat, hreach.holds.at_below (by simp), at_key]
    rcases hlookup with hlookup | ⟨hlookup, hitems⟩
    · rw [hlookup]
      exact .inl (at_nil _)
    · rw [hlookup]
      exact .inr ⟨rfl, hitems⟩
  have hlength : items.length = pushes.count a := by
    rcases hold with hold | ⟨hold, rfl⟩
    · rcases h.arrays a _ ⟨items, hold, rfl⟩ with ⟨l', e, hmem, hle⟩ | ⟨hn, -⟩
      · exact absurd hle (hassigned l' e hmem)
      · exact hn
    · symm
      apply List.count_eq_zero.mpr
      intro hmem
      have harray := h.pushed a hmem
      rw [hold] at harray
      exact not_isArray_none harray
  refine h.open (hput'.grows_array hold) hassigned ?_ ?_ ?_ ?_
  · intro m hm hne
    rcases List.mem_append.mp hm with hm | hm
    · exact hm
    · exact absurd (List.mem_singleton.mp hm) hne
  · intro m hne
    rw [List.count_append, List.count_singleton, if_neg (by simpa using hne.symm), Nat.add_zero]
  · intro n
    rw [List.count_append, List.count_singleton_self, ← hlength]
    constructor
    · rintro ⟨items', hitems', rfl⟩
      cases hitems'
      simp
    · rintro ⟨rfl, -⟩
      exact ⟨_, rfl, by simp⟩
  · exact fun _ => ⟨_, rfl⟩

theorem Kept.pair {currentPath keyPath : List String} {e : Expr} {v : Value} {t t' : Entries}
    {line : Nat} (h : Kept pushes earlier (.table t)) (hv : eval e = some v)
    (hexec : insertValue t currentPath keyPath v line = .ok t')
    (hfree : ∀ use ∈ earlier, use.Apart ((Stmt.pair currentPath keyPath e).use pushes)) :
    Kept pushes (earlier ++ [(Stmt.pair currentPath keyPath e).use pushes]) (.table t') := by
  obtain ⟨l, u, u', hreach, hchange, hput⟩ := put_navigateMut hexec
  have hl : l = resolve pushes currentPath := by
    apply h.reaches hreach (.inl (at_nil _))
    intro l' e' hmem hle
    exact (hfree _ hmem).1 (hle.trans (List.prefix_append _ _))
  subst hl
  have hput' := (put_insertIntoTable hchange).compose hreach.holds hput
  rw [Stmt.use] at hfree ⊢
  set a := resolve pushes currentPath ++ keys keyPath with ha
  have hopened : ∀ m ∈ pushes, ¬ a <+: m := by
    intro m hm hle
    obtain ⟨i, hi⟩ := h.opened m hm
    exact hfree _ hi (hle.trans (List.prefix_append _ _))
  constructor
  case assigned =>
    intro m e' hm
    rcases List.mem_append.mp hm with hm | hm
    · obtain ⟨w, hw, hat⟩ := h.assigned m e' hm
      have hapart := hfree _ hm
      exact ⟨w, hw, by rw [hput'.apart m hapart.2 hapart.1, hat]⟩
    · cases List.mem_singleton.mp hm
      exact ⟨v, hv, hput'.self⟩
  case arrays =>
    intro m n hm
    by_cases hle : a <+: m
    · exact .inl ⟨a, e, by simp, hle⟩
    · have hold : IsArray ((Value.table t).at m) n := by
        by_cases hma : m <+: a
        · have hne : m ≠ a := by
            rintro rfl
            exact hle List.prefix_rfl
          exact (hput'.above m hma hne n).mp hm
        · rwa [← hput'.apart m hle hma]
      rcases h.arrays m n hold with ⟨l', e', hmem, hle⟩ | hn
      · exact .inl ⟨l', e', List.mem_append_left _ hmem, hle⟩
      · exact .inr hn
  case pushed =>
    intro m hm
    have hle := hopened m hm
    by_cases hma : m <+: a
    · have hne : m ≠ a := by
        rintro rfl
        exact hle List.prefix_rfl
      exact (hput'.above m hma hne _).mpr (h.pushed m hm)
    · rw [hput'.apart m hle hma]
      exact h.pushed m hm
  case opened =>
    intro m hm
    obtain ⟨i, hi⟩ := h.opened m hm
    exact ⟨i, List.mem_append_left _ hi⟩

/-- One statement. -/
theorem Kept.exec {stmt : Stmt} {t t' : Entries} (h : Kept pushes earlier (.table t))
    (hexec : exec t stmt = some t') (hfree : ∀ use ∈ earlier, use.Apart (stmt.use pushes)) :
    Kept (stmt.pushed pushes) (earlier ++ [stmt.use pushes]) (.table t') := by
  have hok : ∀ {r : Except ParseError Entries}, r.toOption = some t' → r = .ok t' := by
    intro r hr
    cases r with
    | error e => cases hr
    | ok a =>
      cases hr
      rfl
  cases stmt with
  | table path => exact h.table (hok hexec) hfree
  | arrayTable path => exact h.arrayTable (hok hexec) hfree
  | pair currentPath keyPath e =>
    obtain ⟨v, hv, hexec⟩ := Option.bind_eq_some_iff.mp hexec
    exact h.pair hv (hok hexec) hfree

theorem Kept.execAll {doc : List Stmt} {t t' : Entries} (h : Kept pushes earlier (.table t))
    (hexec : execAll doc t = some t')
    (hapart : (earlier ++ uses pushes doc).Pairwise Use.Apart) :
    ∃ pushes', Kept pushes' (earlier ++ uses pushes doc) (.table t') := by
  induction doc generalizing pushes earlier t with
  | nil =>
    cases hexec
    exact ⟨pushes, by simpa [uses] using h⟩
  | cons stmt doc ih =>
    rw [Toml.execAll, List.foldlM_cons] at hexec
    obtain ⟨t₁, hstmt, hexec⟩ := Option.bind_eq_some_iff.mp hexec
    rw [uses] at hapart ⊢
    have hfree : ∀ use ∈ earlier, use.Apart (stmt.use pushes) := fun use hmem =>
      (List.pairwise_append.mp hapart).2.2 use hmem _ (List.mem_cons_self ..)
    rw [List.append_cons] at hapart ⊢
    exact ih (h.exec hstmt hfree) hexec hapart

theorem kept_nil : Kept [] [] (.table []) where
  assigned _ _ h := nomatch h
  arrays l n h := by
    cases l with
    | nil =>
      rw [at_nil] at h
      exact absurd h not_isArray_table
    | cons s l =>
      rw [at_empty] at h
      exact absurd h not_isArray_none
  pushed _ h := nomatch h
  opened _ h := nomatch h

/-- The parser loses nothing of a text exactly when it rejects it, or the text has no conflict. -/
theorem losesNothing_iff (input : String) :
    LosesNothing input ↔ ∀ n root, parse n input = some (.ok root) →
      ∃ doc, readText written n input = some (.ok doc) ∧ NoConflict doc := by
  constructor
  · intro h n root hroot
    obtain ⟨doc, hdoc, hno, -⟩ := h n root hroot
    exact ⟨doc, hdoc, hno⟩
  · intro h n root hroot
    obtain ⟨doc, hdoc, hno⟩ := h n root hroot
    obtain ⟨doc', entries, hdoc', hexec, rfl⟩ := exists_document hroot
    rw [hdoc] at hdoc'
    cases hdoc'
    obtain ⟨pushes, hkept⟩ := kept_nil.execAll hexec hno.apart
    refine ⟨doc, hdoc, hno, fun l e hpair => ?_⟩
    cases hpair with
    | «section» h => exact hkept.assigned l e h
    | inner h hinner =>
      obtain ⟨v, hv, hat⟩ := hkept.assigned _ _ h
      obtain ⟨w, hw, hat'⟩ := at_inner hinner (hno.clean _ _ h) hv
      exact ⟨w, hw, by rw [at_append, hat, Option.bind_some, hat']⟩

/-- The key `a` is assigned twice, and what was assigned first is gone. -/
theorem not_losesNothing :
    parse 9 "a = '1'\na = '2'" = some (.ok (.table [("a", .string "2")])) ∧
      ¬ ∀ input, LosesNothing input := by
  have hparse : parse 9 "a = '1'\na = '2'" = some (.ok (.table [("a", .string "2")])) := by rfl
  refine ⟨hparse, fun h => ?_⟩
  have hwritten : readText written 9 "a = '1'\na = '2'" =
      some (.ok [.pair [] ["a"] (.string "1"), .pair [] ["a"] (.string "2")]) := by rfl
  obtain ⟨doc, hdoc, hno, -⟩ := h _ _ _ hparse
  rw [hwritten] at hdoc
  cases hdoc
  have happart := (List.pairwise_cons.mp hno.apart).1 _ (List.mem_singleton.mpr rfl)
  exact happart.1 List.prefix_rfl

end Vuma.Package.Toml
