import Vuma.Parser.ImportGraph

/-!
# Import cycles

The resolver comes back if the imports of the root lead to finitely many paths, and then it reports
a circular import if they lead back to a file. But a program that is merged while some of its
imports are missing stays in the cache, and the next call returns it.
-/

namespace Vuma.Parser

open Lib Relation

variable {P α : Type}

/-! ## Runs without errors -/

namespace Runs

variable [DecidableEq P] {files : Files P α} {order : P → KeyOrder String}
  {st st' : Resolver P α} {program p : Program α} {baseDir path : P} {task : Task P α}

/-- The programs in the cache are of files that load. -/
def CacheLoads (files : Files P α) (st : Resolver P α) : Prop :=
  ∀ q p, st.cache.lookup q = some p →
    ∃ program, files.read q = .ok program ∧ Loads files program (baseDirOf files q)

/-- The file loads, or the imports load and have the symbols that are asked for. -/
def TaskLoads (files : Files P α) : Task P α → Prop
  | .file path _ => ∃ program, files.read path = .ok program ∧
      Loads files program (baseDirOf files path)
  | .imports baseDir imports _ _ => ∀ i ∈ imports,
      ∃ program, files.read (target files baseDir i) = .ok program ∧
        Loads files program (baseDirOf files (target files baseDir i)) ∧
        ∀ s ∈ i.symbols, Provides files program (baseDirOf files (target files baseDir i)) s

omit [DecidableEq P] in
/-- The imports of a program load if each of them does. -/
theorem loads_of_imports (h : ∀ i ∈ program.imports,
    ∃ program, files.read (target files baseDir i) = .ok program ∧
      Loads files program (baseDirOf files (target files baseDir i)) ∧
      ∀ s ∈ i.symbols, Provides files program (baseDirOf files (target files baseDir i)) s) :
    Loads files program baseDir := by
  have hread : ∀ i ∈ program.imports, files.read (target files baseDir i) =
      .ok ((files.read (target files baseDir i)).toOption.getD program) := by
    intro i hi
    obtain ⟨program', hread, -⟩ := h i hi
    rw [hread]
    rfl
  have hsame : ∀ i ∈ program.imports, ∀ program',
      files.read (target files baseDir i) = .ok program' →
        (files.read (target files baseDir i)).toOption.getD program = program' := by
    intro i hi program' hread'
    rw [hread']
    rfl
  refine .mk _ hread ?_ ?_
  · intro i hi s hs
    obtain ⟨program', hread', -, hsymbols⟩ := h i hi
    rw [hsame i hi program' hread']
    exact hsymbols s hs
  · intro i hi
    obtain ⟨program', hread', hload, -⟩ := h i hi
    rw [hsame i hi program' hread']
    exact hload

theorem errors_eq_nil (h : Runs files order st task st') (herrors : st'.errors = []) :
    st.errors = [] :=
  List.prefix_nil.1 (herrors ▸ h.errors_prefix)

theorem taskLoads (h : Runs files order st task st') (himported : ImportedBy files st task)
    (hst : CacheOk files st) (hcache : CacheLoads files st) (herrors : st'.errors = []) :
    CacheLoads files st' ∧ TaskLoads files task := by
  induction h with
  | cached hlookup => exact ⟨hcache, hcache _ _ hlookup⟩
  | circular | unread => exact absurd herrors (List.append_ne_nil_of_right_ne_nil _ nofun)
  | @merged st st' path program p imported hlookup hmem hread h hp ih =>
    obtain ⟨hcache', hloads⟩ := ih (himported.imports hread) hst hcache herrors
    have hload : Loads files program (baseDirOf files path) := loads_of_imports hloads
    refine ⟨fun q p' hp' => ?_, program, hread, hload⟩
    rw [HashMap.lookup_insert_ite] at hp'
    split_ifs at hp' with hq
    · exact hq ▸ ⟨program, hread, hload⟩
    · exact hcache' q p' hp'
  | nil => exact ⟨hcache, fun i hi => absurd hi List.not_mem_nil⟩
  | @skip st st₁ st' baseDir i rest imported imported' h hrest ih ihrest =>
    have himported' := himported.head none
    obtain ⟨-, program, hread, hload⟩ := ih himported' hst hcache (hrest.errors_eq_nil herrors)
    obtain ⟨p, hp, -⟩ := (h.gives himported' hst).2 program hread hload
    cases hp
  | @add st st₁ st' baseDir i rest p imported imported' h hrest ih ihrest =>
    have himported' := himported.head (some p)
    obtain ⟨herrors₁, hsymbols⟩ := List.append_eq_nil_iff.1 (hrest.errors_eq_nil herrors)
    obtain ⟨hst₁, hgives⟩ := h.gives himported' hst
    obtain ⟨hcache₁, program, hread, hload⟩ := ih himported' hst hcache herrors₁
    obtain ⟨hcache', hloads⟩ := ihrest (himported.tail h.inProgress_eq) hst₁ hcache₁ herrors
    refine ⟨hcache', fun j hj => ?_⟩
    rcases List.mem_cons.1 hj with rfl | hj
    · obtain ⟨p', hp', hmerged⟩ := hgives program hread hload
      cases hp'
      refine ⟨program, hread, hload, fun s hs => ?_⟩
      rw [symbolErrors, List.map_eq_nil_iff, List.filter_eq_nil_iff] at hsymbols
      obtain ⟨item, hitem, hname⟩ := mem_collectExportableNames.1 (by simpa using hsymbols s hs)
      by_contra hnot
      exact findNamed_eq_none.1 ((hmerged.findNamed_eq_none_iff hload).2 hnot) item hitem hname
    · exact hloads j hj

/-! ## Circular imports -/

/-- A circular import is among the errors. -/
def Circular (errors : List (ResolveError P)) : Prop :=
  ∃ path cycle, .circularImport path cycle ∈ errors

/-- The imports of the programs in the cache come to an end. -/
def CacheEnds (files : Files P α) (st : Resolver P α) : Prop :=
  ∀ q p, st.cache.lookup q = some p → Acc (Function.swap (Imports files)) q

/-- The paths that a task starts from. -/
def Starts (files : Files P α) : Task P α → P → Prop
  | .file path _, q => q = path
  | .imports baseDir imports _ _, q => ∃ i ∈ imports, q = target files baseDir i

omit [DecidableEq P] in
theorem Circular.mono {errors errors' : List (ResolveError P)} (h : errors <+: errors')
    (hcircular : Circular errors) : Circular errors' := by
  obtain ⟨path, cycle, hmem⟩ := hcircular
  exact ⟨path, cycle, h.subset hmem⟩

/-- Where no circular import is reported, the imports come to an end. -/
theorem acc (h : Runs files order st task st') (hcache : CacheEnds files st)
    (hnot : ¬ Circular st'.errors) : CacheEnds files st' ∧
      ∀ q, Starts files task q → Acc (Function.swap (Imports files)) q := by
  induction h with
  | cached hlookup =>
    refine ⟨hcache, ?_⟩
    rintro q rfl
    exact hcache _ _ hlookup
  | circular => exact absurd ⟨_, _, List.mem_append_right _ (List.mem_singleton_self _)⟩ hnot
  | unread hlookup hmem hread =>
    refine ⟨hcache, ?_⟩
    rintro q rfl
    constructor
    rintro q' ⟨program, hprogram, -⟩
    rw [hread] at hprogram
    cases hprogram
  | @merged st st' path program p imported hlookup hmem hread h hp ih =>
    obtain ⟨hcache', hends⟩ := ih hcache hnot
    have hacc : Acc (Function.swap (Imports files)) path := by
      constructor
      rintro q ⟨program', hprogram, i, hi, rfl⟩
      rw [hread] at hprogram
      cases hprogram
      exact hends _ ⟨i, hi, rfl⟩
    refine ⟨fun q p' hp' => ?_, ?_⟩
    · rw [HashMap.lookup_insert_ite] at hp'
      split_ifs at hp' with hq
      · exact hq ▸ hacc
      · exact hcache' q p' hp'
    · rintro q rfl
      exact hacc
  | nil =>
    refine ⟨hcache, ?_⟩
    rintro q ⟨i, hi, -⟩
    exact absurd hi List.not_mem_nil
  | skip h hrest ih ihrest =>
    obtain ⟨hcache₁, hends⟩ := ih hcache fun hc => hnot (hc.mono hrest.errors_prefix)
    obtain ⟨hcache', hends'⟩ := ihrest hcache₁ hnot
    refine ⟨hcache', ?_⟩
    rintro q ⟨j, hj, rfl⟩
    rcases List.mem_cons.1 hj with rfl | hj
    · exact hends _ rfl
    · exact hends' _ ⟨j, hj, rfl⟩
  | add h hrest ih ihrest =>
    obtain ⟨hcache₁, hends⟩ := ih hcache fun hc =>
      hnot ((hc.mono (List.prefix_append _ _)).mono hrest.errors_prefix)
    obtain ⟨hcache', hends'⟩ := ihrest hcache₁ hnot
    refine ⟨hcache', ?_⟩
    rintro q ⟨j, hj, rfl⟩
    rcases List.mem_cons.1 hj with rfl | hj
    · exact hends _ rfl
    · exact hends' _ ⟨j, hj, rfl⟩

theorem transGen_self (h : Runs files order st task st') (himported : ImportedBy files st task)
    (hcircular : Circular st'.errors) : Circular st.errors ∨
      ∃ q, Starts files task q ∧ ∃ m, ReflTransGen (Imports files) q m ∧
        TransGen (Imports files) m m := by
  induction h with
  | cached | nil => exact .inl hcircular
  | @circular st path hlookup hmem =>
    exact .inr ⟨path, rfl, path, .refl, himported path hmem⟩
  | @unread st path e hlookup hmem hread =>
    obtain ⟨path', cycle, hin⟩ := hcircular
    rcases List.mem_append.1 hin with hin | hin
    · exact .inl ⟨path', cycle, hin⟩
    · cases e <;> cases List.mem_singleton.1 hin
  | @merged st st' path program p imported hlookup hmem hread h hp ih =>
    rcases ih (himported.imports hread) hcircular with hold | ⟨_, ⟨i, hi, rfl⟩, m, hm, hself⟩
    · exact .inl hold
    · exact .inr ⟨path, rfl, m, hm.head ⟨program, hread, i, hi, rfl⟩, hself⟩
  | @skip st st₁ st' baseDir i rest imported imported' h hrest ih ihrest =>
    rcases ihrest (himported.tail h.inProgress_eq) hcircular with
      hold | ⟨_, ⟨j, hj, rfl⟩, hcycle⟩
    · rcases ih (himported.head _) hold with hold | ⟨_, rfl, hcycle⟩
      · exact .inl hold
      · exact .inr ⟨_, ⟨i, List.mem_cons_self, rfl⟩, hcycle⟩
    · exact .inr ⟨_, ⟨j, List.mem_cons_of_mem _ hj, rfl⟩, hcycle⟩
  | @add st st₁ st' baseDir i rest p imported imported' h hrest ih ihrest =>
    rcases ihrest (himported.tail h.inProgress_eq) hcircular with
      hold | ⟨_, ⟨j, hj, rfl⟩, hcycle⟩
    · have hold₁ : Circular st₁.errors := by
        obtain ⟨path, cycle, hin⟩ := hold
        rcases List.mem_append.1 hin with hin | hin
        · exact ⟨path, cycle, hin⟩
        · obtain ⟨s, -, hs⟩ := List.mem_map.1 hin
          cases hs
      rcases ih (himported.head _) hold₁ with hold | ⟨_, rfl, hcycle⟩
      · exact .inl hold
      · exact .inr ⟨_, ⟨i, List.mem_cons_self, rfl⟩, hcycle⟩
    · exact .inr ⟨_, ⟨j, List.mem_cons_of_mem _ hj, rfl⟩, hcycle⟩

/-! ## Termination -/

/-- The path is cached, in progress or not to be read. -/
def Known (files : Files P α) (st : Resolver P α) (q : P) : Prop :=
  (st.cache.lookup q).isSome ∨ q ∈ st.inProgress ∨ ∀ program, files.read q ≠ .ok program

/-- The imports of the cached files are known. -/
def CacheClosed (files : Files P α) (st : Resolver P α) : Prop :=
  ∀ q q', (st.cache.lookup q).isSome → Imports files q q' → Known files st q'

theorem known_insert {p' : P} (h : Known files st' path)
    (hprog : st'.inProgress = p' :: st.inProgress) :
    Known files { st' with inProgress := st'.inProgress.erase p', cache := st'.cache.insert p' p }
      path := by
  show ((st'.cache.insert p' p).lookup path).isSome ∨ path ∈ st'.inProgress.erase p' ∨ _
  rw [HashMap.lookup_insert_ite, hprog, List.erase_cons_head]
  split_ifs with heq
  · exact .inl rfl
  · rcases h with h | h | h
    · exact .inl h
    · rw [hprog] at h
      exact .inr (.inl ((List.mem_cons.1 h).resolve_left heq))
    · exact .inr (.inr h)

/-- A task closes what it adds to the cache. -/
theorem closed (h : Runs files order st task st') (hst : CacheClosed files st) :
    CacheClosed files st' ∧ (∀ q, Known files st q → Known files st' q) ∧
      ∀ q, Starts files task q → Known files st' q := by
  induction h with
  | cached hlookup =>
    refine ⟨hst, fun _ hq => hq, ?_⟩
    rintro q rfl
    exact .inl (by rw [hlookup]; rfl)
  | circular hlookup hmem =>
    refine ⟨hst, fun _ hq => hq, ?_⟩
    rintro q rfl
    exact .inr (.inl hmem)
  | unread hlookup hmem hread =>
    refine ⟨hst, fun _ hq => hq, ?_⟩
    rintro q rfl
    refine .inr (.inr fun program hprogram => ?_)
    rw [hread] at hprogram
    cases hprogram
  | @merged st st' path program p imported hlookup hmem hread h hp ih =>
    have hprog := h.inProgress_eq
    obtain ⟨hst', hkeep, hstarts⟩ := ih fun q q' hq hstep => by
      rcases hst q q' hq hstep with h | h | h
      · exact .inl h
      · exact .inr (.inl (List.mem_cons_of_mem _ h))
      · exact .inr (.inr h)
    refine ⟨fun q q' hq hstep => ?_, fun q hq => ?_, ?_⟩
    · apply known_insert _ hprog
      by_cases heq : q = path
      · subst heq
        obtain ⟨program', hprogram, i, hi, rfl⟩ := hstep
        rw [hread] at hprogram
        cases hprogram
        exact hstarts _ ⟨i, hi, rfl⟩
      · apply hst' q q' _ hstep
        rwa [HashMap.lookup_insert_ite, if_neg heq] at hq
    · apply known_insert _ hprog
      apply hkeep
      rcases hq with h | h | h
      · exact .inl h
      · exact .inr (.inl (List.mem_cons_of_mem _ h))
      · exact .inr (.inr h)
    · rintro q rfl
      refine .inl ?_
      rw [HashMap.lookup_insert_ite, if_pos rfl]
      rfl
  | nil =>
    refine ⟨hst, fun _ hq => hq, ?_⟩
    rintro q ⟨i, hi, -⟩
    exact absurd hi List.not_mem_nil
  | skip h hrest ih ihrest | add h hrest ih ihrest =>
    obtain ⟨hst₁, hkeep, hstarts⟩ := ih hst
    obtain ⟨hst', hkeep', hstarts'⟩ := ihrest hst₁
    refine ⟨hst', fun q hq => hkeep' q (hkeep q hq), ?_⟩
    rintro q ⟨j, hj, rfl⟩
    rcases List.mem_cons.1 hj with rfl | hj
    · exact hkeep' _ (hstarts _ rfl)
    · exact hstarts' _ ⟨j, hj, rfl⟩

/-- The paths that a file imports. -/
def targets (files : Files P α) (path : P) : List P :=
  match files.read path with
  | .ok program => program.imports.map (target files (baseDirOf files path))
  | .error _ => []

omit [DecidableEq P] in
theorem mem_targets {q : P} : q ∈ targets files path ↔ Imports files path q := by
  rw [targets, Imports]
  cases files.read path with
  | ok program => simp [eq_comm]
  | error e => simp

/-- A run from a resolver with nothing in progress has seen every path that the file leads to. -/
theorem finite {r : Option (Program α)} (h : Runs files order st (.file path r) st')
    (hst : CacheClosed files st) (hprog : st.inProgress = []) :
    {q | ReflTransGen (Imports files) path q}.Finite := by
  obtain ⟨hclosed, -, hstart⟩ := h.closed hst
  have hcached : ∀ m q, Known files st' m → Imports files m q → (st'.cache.lookup m).isSome := by
    rintro m q (hm | hm | hm) ⟨program, hread, -⟩
    · exact hm
    · rw [h.inProgress_eq, hprog] at hm
      exact absurd hm List.not_mem_nil
    · exact absurd hread (hm program)
  have hknown : ∀ q, ReflTransGen (Imports files) path q → Known files st' q := by
    intro q hq
    induction hq with
    | refl => exact hstart path rfl
    | tail _ hstep ih => exact hclosed _ _ (hcached _ _ ih hstep) hstep
  apply ((Set.finite_singleton path).union (st'.cache.keys.finite_toSet.biUnion fun k _ =>
    (targets files k).finite_toSet)).subset
  intro q hq
  rcases ReflTransGen.cases_tail_iff .. |>.1 hq with rfl | ⟨m, hm, hstep⟩
  · exact .inl rfl
  · refine .inr (Set.mem_biUnion (x := m) ?_ (mem_targets.2 hstep))
    exact HashMap.mem_keys_iff.2 (hcached m q (hknown m hm) hstep)

end Runs

section Returns

variable [DecidableEq P] {files : Files P α} {order : P → KeyOrder String} {path : P}

theorem importAll_returns {imports : List Import} {baseDir : P} {l : List P}
    (h : ∀ i ∈ imports, ∀ st : Resolver P α, st.inProgress = l →
      ∃ r, resolveRecursive files order st (target files baseDir i) = some r)
    {st : Resolver P α} (hst : st.inProgress = l) (imported : Imported α) :
    ∃ r, importAll files order st imports baseDir imported = some r := by
  induction imports generalizing st imported with
  | nil => exact ⟨(st, imported), by rw [importAll]⟩
  | cons i rest ih =>
    obtain ⟨⟨st₁, resolved⟩, hfile⟩ := h i List.mem_cons_self st hst
    have hst₁ : st₁.inProgress = l := (runs_of_resolveRecursive hfile).inProgress_eq.trans hst
    have hrest : ∀ i ∈ rest, ∀ st : Resolver P α, st.inProgress = l →
        ∃ r, resolveRecursive files order st (target files baseDir i) = some r := fun j hj =>
      h j (List.mem_cons_of_mem _ hj)
    rw [importAll]
    change ∃ r, (resolveRecursive files order st (target files baseDir i)).bind _ = _
    rw [hfile, Option.bind_some]
    cases resolved with
    | none => exact ih hrest hst₁ imported
    | some p => exact ih hrest (by exact hst₁) _

theorem resolveRecursive_returns {paths : Finset P}
    (hpaths : ∀ p ∈ paths, ∀ q, Imports files p q → q ∈ paths) (n : ℕ) (st : Resolver P α)
    (hn : (paths.filter (· ∉ st.inProgress)).card ≤ n) (hpath : path ∈ paths) :
    ∃ r, resolveRecursive files order st path = some r := by
  induction n generalizing st path with
  | zero =>
    rw [resolveRecursive]
    split
    · exact ⟨_, rfl⟩
    · rw [Nat.le_zero, Finset.card_eq_zero, Finset.filter_eq_empty_iff] at hn
      rw [if_pos (not_not.1 (hn hpath))]
      exact ⟨_, rfl⟩
  | succ n ih =>
    rw [resolveRecursive]
    split
    · exact ⟨_, rfl⟩
    · split_ifs with hmem
      · exact ⟨_, rfl⟩
      · cases hread : files.read path with
        | error e => exact ⟨_, rfl⟩
        | ok program =>
          have hless : (paths.filter (· ∉ path :: st.inProgress)).card ≤ n := by
            apply Nat.le_of_lt_succ
            apply (Finset.card_lt_card _).trans_le hn
            rw [Finset.ssubset_iff_of_subset]
            · exact ⟨path, Finset.mem_filter.2 ⟨hpath, hmem⟩, by simp⟩
            · intro q hq
              rw [Finset.mem_filter, List.mem_cons, not_or] at hq
              exact Finset.mem_filter.2 ⟨hq.1, hq.2.2⟩
          have hmerge : ∃ r, mergeImports files order
              { st with inProgress := path :: st.inProgress } path program
              (baseDirOf files path) = some r := by
            rw [mergeImports]
            split_ifs
            · exact ⟨_, rfl⟩
            · have hall : ∃ r, importAll files order
                  { st with inProgress := path :: st.inProgress } program.imports
                  (baseDirOf files path) ∅ = some r :=
                importAll_returns (fun i hi st' hst' => ih st' (hst' ▸ hless)
                  (hpaths path hpath _ ⟨program, hread, i, hi, rfl⟩)) rfl ∅
              obtain ⟨⟨st', imported⟩, hall⟩ := hall
              rw [hall]
              exact ⟨_, rfl⟩
          obtain ⟨⟨st', merged⟩, hmerge⟩ := hmerge
          simp only
          change ∃ r, (mergeImports files order _ path program (baseDirOf files path)).bind _ = _
          rw [hmerge]
          exact ⟨_, rfl⟩

end Returns

/-! ## Calls of the resolver -/

section Calls

variable [DecidableEq P]

/-- `resolve_file` has taken the resolver from one state to another. -/
def Called (files : Files P α) (st st' : Resolver P α) : Prop :=
  ∃ order path result, resolveFile files order st path = some (st', result)

/-- A circular import is reported. -/
def Reports (result : Except (List (ResolveError P)) (Program α)) : Prop :=
  ∃ errors, result = .error errors ∧ Runs.Circular errors

/-- After any calls, `resolve_file` comes back, reports a circular import if there is one and else
none, and if it returns errors then nothing is in progress and each later call for the same root
returns errors again. -/
def ResolvesSoundly (files : Files P α) (root : P) : Prop :=
  ∀ st, ReflTransGen (Called files) .new st → ∀ order,
    ∃ st' result, resolveFile files order st root = some (st', result) ∧
      (Reports result ↔ HasCycle files (files.canonicalize root)) ∧
      ∀ errors, result = .error errors → st'.inProgress = [] ∧
        ∀ st'', ReflTransGen (Called files) st' st'' → ∀ order' st₁ result',
          resolveFile files order' st'' root = some (st₁, result') →
            ∃ errors', result' = .error errors'

/-- What holds of a resolver between two calls. -/
structure Settled (files : Files P α) (st : Resolver P α) : Prop where
  inProgress : st.inProgress = []
  cache : CacheOk files st
  read : Runs.CacheRead files st

variable {files : Files P α} {order : P → KeyOrder String} {st st' : Resolver P α} {root : P}
  {result : Except (List (ResolveError P)) (Program α)} {program : Program α}

theorem settled_new : Settled files (Resolver.new : Resolver P α) :=
  ⟨rfl, cacheOk_new, fun _ _ h => by cases h⟩

/-- A call is a run from a resolver without errors. -/
theorem resolveFile_eq_some (h : resolveFile files order st root = some (st', result)) :
    ∃ r, Runs files order { st with errors := [] } (.file (files.canonicalize root) r) st' ∧
      ((∃ p, r = some p ∧ st'.errors = [] ∧ result = .ok p) ∨
        (r = none ∨ st'.errors ≠ []) ∧ result = .error st'.errors) := by
  obtain ⟨⟨st₁, r⟩, hrun, h⟩ := Option.bind_eq_some_iff.1 h
  refine ⟨r, ?_⟩
  cases r with
  | none =>
    cases h
    exact ⟨runs_of_resolveRecursive hrun, .inr ⟨.inl rfl, rfl⟩⟩
  | some p =>
    cases h
    refine ⟨runs_of_resolveRecursive hrun, ?_⟩
    by_cases herrors : st'.errors = []
    · exact .inl ⟨p, rfl, herrors, by rw [herrors]; rfl⟩
    · refine .inr ⟨.inr herrors, ?_⟩
      rw [if_neg (by simpa using herrors)]

theorem Settled.call (hst : Settled files st) (h : Called files st st') : Settled files st' := by
  obtain ⟨order, path, result, h⟩ := h
  obtain ⟨r, hrun, -⟩ := resolveFile_eq_some h
  have himported : Runs.ImportedBy files { st with errors := [] }
      (.file (files.canonicalize path) r) := by
    intro q hq
    rw [show q ∈ st.inProgress ↔ q ∈ [] by rw [hst.inProgress]] at hq
    exact absurd hq List.not_mem_nil
  exact ⟨hrun.inProgress_eq.trans hst.inProgress, (hrun.gives himported hst.cache).1,
    hrun.cacheRead hst.read⟩

theorem Settled.calls (hst : Settled files st) (h : ReflTransGen (Called files) st st') :
    Settled files st' := by
  induction h with
  | refl => exact hst
  | tail _ hcall ih => exact ih.call hcall

theorem Settled.resolveFile_of_error (hst : Settled files st) {e : ReadError}
    (hread : files.read (files.canonicalize root) = .error e) :
    resolveFile files order st root = some ({ st with errors := [e.at (files.canonicalize root)] },
      .error [e.at (files.canonicalize root)]) := by
  have hcache : st.cache.lookup (files.canonicalize root) = none := by
    cases hlookup : st.cache.lookup (files.canonicalize root) with
    | none => rfl
    | some p =>
      obtain ⟨program, hprogram⟩ := hst.read _ _ hlookup
      rw [hread] at hprogram
      cases hprogram
  have hmem : files.canonicalize root ∉ st.inProgress := by
    rw [hst.inProgress]
    exact List.not_mem_nil
  rw [resolveFile, resolveRecursive]
  simp only [hcache, if_neg hmem, hread]
  rfl

theorem Settled.resolveFile_of_loads (hst : Settled files st)
    (hread : files.read (files.canonicalize root) = .ok program)
    (hload : Loads files program (baseDirOf files (files.canonicalize root))) :
    ∃ st' p, resolveFile files order st root = some (st', .ok p) := by
  obtain ⟨st', p, hres, hresolves, -⟩ := Loads.resolveRecursive order hload hread rfl
    (show CacheOk files { st with errors := [] } from hst.cache) fun q hq => by
      rw [show q ∈ st.inProgress ↔ q ∈ [] by rw [hst.inProgress]] at hq
      exact absurd hq List.not_mem_nil
  refine ⟨st', p, ?_⟩
  rw [resolveFile]
  change (Parser.resolveRecursive files order _ (files.canonicalize root)).bind _ = _
  rw [hres]
  have herrors : st'.errors = [] := hresolves.errors
  simp [herrors]

/-- A new resolver comes back iff the root leads to finitely many paths. -/
theorem resolveFile_new_isSome_iff : (resolveFile files order .new root).isSome ↔
    {q | ReflTransGen (Imports files) (files.canonicalize root) q}.Finite := by
  constructor
  · intro h
    obtain ⟨⟨st', result⟩, h⟩ := Option.isSome_iff_exists.1 h
    obtain ⟨r, hrun, -⟩ := resolveFile_eq_some h
    exact hrun.finite (fun q q' hq => by cases hq) rfl
  · intro hfinite
    have hreturns : ∃ r, resolveRecursive files order { Resolver.new with errors := [] }
        (files.canonicalize root) = some r :=
      resolveRecursive_returns
        (fun p hp q hstep => hfinite.mem_toFinset.2 ((hfinite.mem_toFinset.1 hp).tail hstep)) _ _
        le_rfl (hfinite.mem_toFinset.2 .refl)
    obtain ⟨⟨st', r⟩, hrun⟩ := hreturns
    rw [resolveFile]
    change (Option.bind (resolveRecursive files order _ (files.canonicalize root)) _).isSome
    rw [hrun]
    cases r <;> rfl

/-- If a new resolver comes back, it reports a circular import iff there is a cycle. -/
theorem reports_iff (hfiles : files.Identifies)
    (h : resolveFile files order .new root = some (st, result)) :
    Reports result ↔ HasCycle files (files.canonicalize root) := by
  obtain ⟨r, hrun, hresult⟩ := resolveFile_eq_some h
  have hreports : Reports result ↔ Runs.Circular st.errors := by
    rcases hresult with ⟨p, -, herrors, rfl⟩ | ⟨-, rfl⟩
    · rw [herrors]
      constructor
      · rintro ⟨errors, herror, -⟩
        cases herror
      · rintro ⟨path, cycle, hmem⟩
        exact absurd hmem List.not_mem_nil
    · exact ⟨fun ⟨errors, herror, hc⟩ => by cases herror; exact hc, fun hc => ⟨_, rfl, hc⟩⟩
  rw [hreports]
  constructor
  · intro hc
    rcases hrun.transGen_self (fun q hq => absurd hq List.not_mem_nil) hc with
      ⟨path, cycle, hmem⟩ | ⟨_, rfl, m, hm, hself⟩
    · exact absurd hmem List.not_mem_nil
    · exact ⟨m, m, hm, hself, rfl⟩
  · intro hcycle
    by_contra hnot
    obtain ⟨-, hends⟩ := hrun.acc (fun q p hq => by cases hq) hnot
    exact hfiles.not_hasCycle (hends _ rfl) hcycle

theorem ResolvesSoundly.loads (h : ResolvesSoundly files root)
    (hread : files.read (files.canonicalize root) = .ok program) :
    Loads files program (baseDirOf files (files.canonicalize root)) := by
  obtain ⟨st, result, hcall, -, hagain⟩ := h .new .refl fun _ => .id
  obtain ⟨r, hrun, hresult⟩ := resolveFile_eq_some hcall
  have hnone : (Resolver.new : Resolver P α).cache.lookup (files.canonicalize root) = none := rfl
  rcases hresult with ⟨p, -, herrors, -⟩ | ⟨-, herror⟩
  · obtain ⟨-, program', hread', hload⟩ := hrun.taskLoads (fun q hq => absurd hq List.not_mem_nil)
      cacheOk_new (fun q p hq => by cases hq) herrors
    rw [hread] at hread'
    cases hread'
    exact hload
  · -- the partial program is in the cache, so the second call returns it
    have hcached : ∃ p, st.cache.lookup (files.canonicalize root) = some p := by
      cases hrun with
      | cached hcache => cases hcache
      | circular _ hmem => exact absurd hmem List.not_mem_nil
      | unread _ _ hread' =>
        rw [hread] at hread'
        cases hread'
      | @merged _ st' _ _ p =>
        exact ⟨p, by rw [HashMap.lookup_insert_ite, if_pos rfl]⟩
    obtain ⟨p, hcached⟩ := hcached
    have hagain' : resolveFile files (fun _ => .id) st root =
        some ({ st with errors := [] }, .ok p) := by
      rw [resolveFile, resolveRecursive]
      simp only [hcached]
      rfl
    obtain ⟨errors', hok⟩ := (hagain _ herror).2 st .refl _ _ _ hagain'
    cases hok

/-- Resolution is sound for a root iff the root cannot be read, or everything it imports loads. -/
theorem resolvesSoundly_iff (hfiles : files.Identifies) (root : P) : ResolvesSoundly files root ↔
    ∀ program, files.read (files.canonicalize root) = .ok program →
      Loads files program (baseDirOf files (files.canonicalize root)) := by
  refine ⟨fun h program hread => h.loads hread, fun hload st hst order => ?_⟩
  have hsettled := settled_new.calls hst
  cases hread : files.read (files.canonicalize root) with
  | error e =>
    have hcall : ∀ (order : P → KeyOrder String) {st : Resolver P α}, Settled files st →
        resolveFile files order st root = some
          ({ st with errors := [e.at (files.canonicalize root)] },
            .error [e.at (files.canonicalize root)]) := fun _ _ hst =>
      hst.resolveFile_of_error hread
    refine ⟨_, _, hcall order hsettled, ⟨?_, ?_⟩, fun errors _ => ⟨hsettled.inProgress, ?_⟩⟩
    · rintro ⟨errors, herror, path, cycle, hmem⟩
      cases herror
      cases e <;> cases List.mem_singleton.1 hmem
    · rintro ⟨p, q, hp, hq, -⟩
      have hno : ∀ q, ¬ Imports files (files.canonicalize root) q := by
        rintro q ⟨program, hprogram, -⟩
        rw [hread] at hprogram
        cases hprogram
      rcases ReflTransGen.cases_head hp with rfl | ⟨m, hm, -⟩
      · obtain ⟨m, hm, -⟩ := TransGen.head'_iff.1 hq
        exact absurd hm (hno m)
      · exact absurd hm (hno m)
    · intro st'' hst'' order' st₁ result' hcall'
      have hsettled'' := (hsettled.call ⟨order, root, _, hcall order hsettled⟩).calls hst''
      rw [hcall order' hsettled''] at hcall'
      cases hcall'
      exact ⟨_, rfl⟩
  | ok program =>
    have hcall : ∃ st' p, resolveFile files order st root = some (st', .ok p) :=
      hsettled.resolveFile_of_loads hread (hload program hread)
    obtain ⟨st', p, hcall⟩ := hcall
    refine ⟨st', _, hcall, ⟨?_, fun hcycle => ?_⟩, fun errors herror => by cases herror⟩
    · rintro ⟨errors, herror, -⟩
      cases herror
    · exact absurd hcycle (hfiles.not_hasCycle ((hload program hread).acc hread rfl))

/-- Resolution is sound for a file that imports a file with its definitions. -/
theorem resolvesSoundly_twoFiles : ResolvesSoundly twoFiles ["src", "main.vuma"] := by
  have hfiles : twoFiles.Identifies := by
    constructor
    · rintro p _ program rfl hread
      exact hread
    · rintro p _ program i program' rfl _ _ _
      rfl
  apply (resolvesSoundly_iff hfiles _).2
  intro program hread
  obtain rfl : importingProgram = program := Except.ok.inj hread
  exact loads_twoFiles

theorem reports_iff_twoFiles : ∃ st result,
    resolveFile twoFiles (fun _ => .id) .new ["src", "main.vuma"] = some (st, result) ∧
      (Reports result ↔ HasCycle twoFiles ["src", "main.vuma"]) := by
  have hfiles : twoFiles.Identifies := by
    constructor
    · rintro p _ program rfl hread
      exact hread
    · rintro p _ program i program' rfl _ _ _
      rfl
  obtain ⟨st, p, h, -⟩ := resolveFile_of_loads (fun _ => .id)
    (show twoFiles.read (twoFiles.canonicalize ["src", "main.vuma"]) = _ from rfl) loads_twoFiles
  exact ⟨st, _, h, reports_iff hfiles h⟩

/-! A file that imports itself by way of the directory above. -/

/-- A component of a path after those before it. -/
def pushComponent (path : List String) (component : String) : List String :=
  if component = "." then path else if component = ".." then path.dropLast else path ++ [component]

/-- The path without the components `.` and `..`. -/
def normalize (path : List String) : List String := path.foldl pushComponent []

def selfImport : Program Nat := ⟨[.importDef "../src/main.vuma" []], (0, 27)⟩

/-- A path of the file. -/
def IsMain (path : List String) : Prop :=
  path.getLast? = some "main.vuma" ∧ normalize path = ["src", "main.vuma"]

instance (path : List String) : Decidable (IsMain path) := by
  unfold IsMain
  infer_instance

def oneFile : Files (List String) Nat where
  read path := if IsMain path then .ok selfImport else .error .notFound
  canonicalize path := if IsMain path then normalize path else path
  ofString path := (path.toList.splitOn '/').map String.ofList
  isAbsolute _ := false
  join dir path := dir ++ path
  parent path := if path = [] then none else some path.dropLast
  currentDir := ["src"]

/-- What is imported after going up and down `n` times. -/
def spelling (n : ℕ) : List String :=
  (List.replicate n ["src", ".."]).flatten ++ ["src", "main.vuma"]

theorem length_spelling (n : ℕ) : (spelling n).length = 2 * n + 2 := by
  induction n with
  | zero => rfl
  | succ n ih =>
    rw [spelling, List.replicate_succ, List.flatten_cons, List.append_assoc, List.length_append]
    rw [← spelling, ih]
    show 2 + (2 * n + 2) = _
    omega

theorem isMain_spelling (n : ℕ) : IsMain (spelling n) := by
  have hturns : ((List.replicate n ["src", ".."]).flatten).foldl pushComponent [] = [] := by
    induction n with
    | zero => rfl
    | succ n ih =>
      rw [List.replicate_succ, List.flatten_cons, List.foldl_append]
      exact ih
  refine ⟨by simp [spelling], ?_⟩
  rw [normalize, spelling, List.foldl_append, hturns]
  rfl

theorem IsMain.eq_append {path : List String} (h : IsMain path) :
    ∃ dir, path = dir ++ ["main.vuma"] ∧ normalize dir = ["src"] := by
  obtain ⟨dir, rfl⟩ := List.getLast?_eq_some_iff.1 h.1
  refine ⟨dir, rfl, ?_⟩
  have hmain : normalize dir ++ ["main.vuma"] = ["src"] ++ ["main.vuma"] := by
    refine Eq.trans ?_ h.2
    rw [normalize, normalize, List.foldl_append]
    rfl
  exact List.append_cancel_right hmain

/-- What the file imports, from its directory. -/
theorem target_oneFile {dir : List String} {i : Import} (hi : i ∈ selfImport.imports) :
    target oneFile (baseDirOf oneFile (dir ++ ["main.vuma"])) i =
      dir ++ ["..", "src", "main.vuma"] := by
  obtain rfl : i = ⟨"../src/main.vuma", []⟩ := List.mem_singleton.1 hi
  have hbase : baseDirOf oneFile (dir ++ ["main.vuma"]) = dir := by
    show Option.getD (if dir ++ ["main.vuma"] = [] then none
      else some (dir ++ ["main.vuma"]).dropLast) _ = _
    rw [if_neg (by simp), List.dropLast_concat]
    rfl
  rw [hbase]
  rfl

theorem isMain_target {dir : List String} (h : normalize dir = ["src"]) :
    IsMain (dir ++ ["..", "src", "main.vuma"]) := by
  refine ⟨by simp, ?_⟩
  rw [normalize, List.foldl_append, ← normalize, h]
  rfl

theorem read_oneFile {path : List String} {program : Program Nat}
    (h : oneFile.read path = .ok program) : IsMain path ∧ selfImport = program := by
  by_cases hmain : IsMain path
  · exact ⟨hmain, Except.ok.inj ((if_pos hmain).symm.trans h)⟩
  · exact absurd ((if_neg hmain).symm.trans h) nofun

theorem canonicalize_oneFile {path : List String} (h : IsMain path) :
    oneFile.canonicalize path = ["src", "main.vuma"] := (if_pos h).trans h.2

theorem identifies_oneFile : oneFile.Identifies := by
  have hmain : ∀ {p p'}, oneFile.canonicalize p = oneFile.canonicalize p' → IsMain p →
      IsMain p' := by
    intro p p' h hp
    by_cases hp' : IsMain p'
    · exact hp'
    · rw [canonicalize_oneFile hp, show oneFile.canonicalize p' = p' from if_neg hp'] at h
      exact h ▸ isMain_spelling 0
  constructor
  · intro p p' program h hread
    obtain ⟨hp, rfl⟩ := read_oneFile hread
    exact if_pos (hmain h hp)
  · intro p p' program i program' h hread hi _
    obtain ⟨hp, rfl⟩ := read_oneFile hread
    obtain ⟨dir, rfl, hdir⟩ := hp.eq_append
    obtain ⟨dir', rfl, hdir'⟩ := (hmain h hp).eq_append
    rw [target_oneFile hi, target_oneFile hi, canonicalize_oneFile (isMain_target hdir),
      canonicalize_oneFile (isMain_target hdir')]

theorem imports_spelling (n : ℕ) : Imports oneFile (spelling n) (spelling (n + 1)) := by
  refine ⟨selfImport, if_pos (isMain_spelling n), ⟨"../src/main.vuma", []⟩,
    List.mem_singleton_self _, ?_⟩
  have hpath : spelling n =
      ((List.replicate n ["src", ".."]).flatten ++ ["src"]) ++ ["main.vuma"] := by simp [spelling]
  rw [hpath, target_oneFile (List.mem_singleton_self _), spelling, List.replicate_succ',
    List.flatten_concat]
  simp

/-- The resolver does not come back from a file that imports itself under ever new paths. -/
theorem not_resolvesSoundly_oneFile : oneFile.Identifies ∧
    (∀ order, resolveFile oneFile order .new ["src", "main.vuma"] = none) ∧
    ¬ ResolvesSoundly oneFile ["src", "main.vuma"] := by
  have hnone : ∀ order, resolveFile oneFile order .new ["src", "main.vuma"] = none := by
    intro order
    rw [← Option.not_isSome_iff_eq_none, resolveFile_new_isSome_iff]
    apply Set.infinite_of_injective_forall_mem (f := spelling)
    · intro m n h
      have hlength := congrArg List.length h
      rw [length_spelling, length_spelling] at hlength
      omega
    · intro n
      induction n with
      | zero => exact .refl
      | succ n ih => exact ih.tail (imports_spelling n)
  refine ⟨identifies_oneFile, hnone, fun h => ?_⟩
  obtain ⟨st', result, hcall, -⟩ := h .new .refl fun _ => .id
  rw [hnone] at hcall
  cases hcall

end Calls

end Vuma.Parser
