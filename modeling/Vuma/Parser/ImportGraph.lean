import Vuma.Parser.ResolverCorrect

/-!
# The graph of imports

A file imports another under the path that is joined from its own path and that of the import. Two
paths are the same file if their canonical paths are equal, but the resolver compares them as they
are. A run of the resolver is a derivation of `Runs`: each case is one outcome of a file or one
import.
-/

namespace Vuma.Parser

open Lib Relation

variable {P α : Type}

section Graph

variable (files : Files P α)

/-- The file under one path imports the other path. -/
def Imports (p q : P) : Prop :=
  ∃ program, files.read p = .ok program ∧
    ∃ i ∈ program.imports, q = target files (baseDirOf files p) i

/-- The imports lead from the root to a file and from there back to the same file. -/
def HasCycle (root : P) : Prop :=
  ∃ p q, ReflTransGen (Imports files) root p ∧ TransGen (Imports files) p q ∧
    files.canonicalize q = files.canonicalize p

/-- The paths with one canonical path are one file: they have one content, and what is imported
under them are the same files. -/
structure Files.Identifies : Prop where
  read_eq : ∀ {p p' program}, files.canonicalize p = files.canonicalize p' →
    files.read p = .ok program → files.read p' = .ok program
  target_eq : ∀ {p p' program i program'}, files.canonicalize p = files.canonicalize p' →
    files.read p = .ok program → i ∈ program.imports →
    files.read (target files (baseDirOf files p) i) = .ok program' →
    files.canonicalize (target files (baseDirOf files p) i) =
      files.canonicalize (target files (baseDirOf files p') i)

variable {files} {program : Program α} {baseDir p p' q : P}

/-- The imports of a file that loads come to an end. -/
theorem Loads.acc (h : Loads files program baseDir) (hread : files.read p = .ok program)
    (hbase : baseDir = baseDirOf files p) : Acc (Function.swap (Imports files)) p := by
  induction h generalizing p with
  | mk imported hread' _ _ ih =>
    constructor
    rintro q ⟨program', hprogram, i, hi, rfl⟩
    rw [hread] at hprogram
    cases hprogram
    subst hbase
    exact ih i hi (hread' i hi) rfl

theorem acc_of_reaches (h : Acc (Function.swap (Imports files)) p)
    (hq : ReflTransGen (Imports files) p q) : Acc (Function.swap (Imports files)) q := by
  induction hq with
  | refl => exact h
  | tail _ hstep ih => exact ih.inv hstep

/-- What a file leads to, it leads to under each of its paths. -/
theorem Files.Identifies.transGen (hfiles : files.Identifies)
    (hp : files.canonicalize p = files.canonicalize p') (h : TransGen (Imports files) p q)
    (hq : files.read q = .ok program) :
    ∃ q', TransGen (Imports files) p' q' ∧ files.canonicalize q = files.canonicalize q' := by
  induction h generalizing program with
  | single hstep =>
    obtain ⟨program', hread, i, hi, rfl⟩ := hstep
    exact ⟨_, .single ⟨program', hfiles.read_eq hp hread, i, hi, rfl⟩,
      hfiles.target_eq hp hread hi hq⟩
  | tail _ hstep ih =>
    obtain ⟨program', hread, i, hi, rfl⟩ := hstep
    obtain ⟨m, hm, heq⟩ := ih hread
    exact ⟨_, hm.tail ⟨program', hfiles.read_eq heq hread, i, hi, rfl⟩,
      hfiles.target_eq heq hread hi hq⟩

/-- Where the imports come to an end, no file leads back to itself. -/
theorem Files.Identifies.ne_of_acc (hfiles : files.Identifies)
    (h : Acc (TransGen (Function.swap (Imports files))) p) (hq : TransGen (Imports files) p q) :
    files.canonicalize q ≠ files.canonicalize p := by
  induction h generalizing q with
  | intro p _ ih =>
    intro heq
    have hread : ∃ program, files.read q = .ok program := by
      obtain ⟨m, ⟨program, hread, -⟩, -⟩ := TransGen.head'_iff.1 hq
      exact ⟨program, hfiles.read_eq heq.symm hread⟩
    obtain ⟨program, hread⟩ := hread
    obtain ⟨q', hq', heq'⟩ := hfiles.transGen heq.symm hq hread
    exact ih q (transGen_swap.2 hq) hq' heq'.symm

theorem Files.Identifies.not_hasCycle (hfiles : files.Identifies)
    (h : Acc (Function.swap (Imports files)) p) : ¬ HasCycle files p := by
  rintro ⟨q, q', hq, hcycle, heq⟩
  exact hfiles.ne_of_acc (acc_of_reaches h hq).transGen hcycle heq

theorem not_transGen_self (h : Acc (Function.swap (Imports files)) p) :
    ¬ TransGen (Imports files) p p := by
  intro hself
  induction h.transGen with
  | intro p _ ih => exact ih p (transGen_swap.2 hself) (h := h) hself

end Graph

section Runs

/-- What the resolver is at: a file, with what it has become, or the imports of a file in a
directory, with the items that were collected before and after. -/
inductive Task (P α : Type) where
  | file (path : P) (result : Option (Program α))
  | imports (baseDir : P) (imports : List Import) (before after : Imported α)

/-- The resolver completes a task. -/
inductive Runs [DecidableEq P] (files : Files P α) (order : P → KeyOrder String) :
    Resolver P α → Task P α → Resolver P α → Prop where
  | cached {st : Resolver P α} {path : P} {p : Program α}
      (hcache : st.cache.lookup path = some p) : Runs files order st (.file path (some p)) st
  | circular {st : Resolver P α} {path : P} (hcache : st.cache.lookup path = none)
      (hmem : path ∈ st.inProgress) :
      Runs files order st (.file path none)
        { st with errors := st.errors ++ [.circularImport path (st.inProgress ++ [path])] }
  | unread {st : Resolver P α} {path : P} {e : ReadError} (hcache : st.cache.lookup path = none)
      (hmem : path ∉ st.inProgress) (hread : files.read path = .error e) :
      Runs files order st (.file path none) { st with errors := st.errors ++ [e.at path] }
  | merged {st st' : Resolver P α} {path : P} {program p : Program α} {imported : Imported α}
      (hcache : st.cache.lookup path = none) (hmem : path ∉ st.inProgress)
      (hread : files.read path = .ok program)
      (h : Runs files order { st with inProgress := path :: st.inProgress }
        (.imports (baseDirOf files path) program.imports ∅ imported) st')
      (hp : p = if program.imports.isEmpty then program
        else mergedProgram (order path) program imported) :
      Runs files order st (.file path (some p))
        { st' with inProgress := st'.inProgress.erase path, cache := st'.cache.insert path p }
  | nil {st : Resolver P α} {baseDir : P} {imported : Imported α} :
      Runs files order st (.imports baseDir [] imported imported) st
  | skip {st st₁ st' : Resolver P α} {baseDir : P} {i : Import} {rest : List Import}
      {imported imported' : Imported α}
      (h : Runs files order st (.file (target files baseDir i) none) st₁)
      (hrest : Runs files order st₁ (.imports baseDir rest imported imported') st') :
      Runs files order st (.imports baseDir (i :: rest) imported imported') st'
  | add {st st₁ st' : Resolver P α} {baseDir : P} {i : Import} {rest : List Import}
      {p : Program α} {imported imported' : Imported α}
      (h : Runs files order st (.file (target files baseDir i) (some p)) st₁)
      (hrest : Runs files order
        { st₁ with errors := st₁.errors ++ symbolErrors i (collectExportableNames p) }
        (.imports baseDir rest (p.items.foldl (addImported i.path) imported) imported') st') :
      Runs files order st (.imports baseDir (i :: rest) imported imported') st'

variable [DecidableEq P] {files : Files P α} {order : P → KeyOrder String}
  {st st' : Resolver P α} {program p : Program α} {baseDir path : P} {task : Task P α}

/-- A file that is resolved was resolved by one of the cases. -/
theorem runs_of_resolveRecursive {r : Option (Program α)}
    (h : resolveRecursive files order st path = some (st', r)) :
    Runs files order st (.file path r) st' := by
  refine Files.resolveRecursive.partial_correctness files order
    (fun st path r => Runs files order st (.file path r.2) r.1)
    (fun st path program baseDir r => ∃ imported,
      Runs files order st (.imports baseDir program.imports ∅ imported) r.1 ∧
        r.2 = if program.imports.isEmpty then program
          else mergedProgram (order path) program imported)
    (fun st imports baseDir imported r =>
      Runs files order st (.imports baseDir imports imported r.2) r.1)
    ?file ?merge ?all st path (st', r) h
  case file =>
    intro mergeImports ih st path r hr
    cases hcache : st.cache.lookup path with
    | some p =>
      rw [hcache] at hr
      cases hr
      exact .cached hcache
    | none =>
      rw [hcache] at hr
      simp only at hr
      split_ifs at hr with hmem
      · cases hr
        exact .circular hcache hmem
      · cases hread : files.read path with
        | error e =>
          rw [hread] at hr
          cases hr
          exact .unread hcache hmem hread
        | ok program =>
          rw [hread] at hr
          obtain ⟨⟨st₁, p⟩, hmerge, hr⟩ := Option.bind_eq_some_iff.1 hr
          cases hr
          obtain ⟨imported, hrun, hp⟩ := ih _ _ _ _ _ hmerge
          exact .merged hcache hmem hread hrun hp
  case merge =>
    intro importAll ih st path program baseDir r hr
    split_ifs at hr with hempty
    · cases hr
      refine ⟨∅, ?_, (if_pos hempty).symm⟩
      rw [List.isEmpty_iff.1 hempty]
      exact .nil
    · obtain ⟨⟨st₁, imported⟩, hall, hr⟩ := Option.bind_eq_some_iff.1 hr
      cases hr
      exact ⟨imported, ih _ _ _ _ _ hall, (if_neg hempty).symm⟩
  case all =>
    intro resolveRecursive importAll ihfile ihall st imports baseDir imported r hr
    cases imports with
    | nil =>
      cases hr
      exact .nil
    | cons i rest =>
      obtain ⟨⟨st₁, resolved⟩, hfile, hr⟩ := Option.bind_eq_some_iff.1 hr
      cases resolved with
      | none => exact .skip (ihfile _ _ _ hfile) (ihall _ _ _ _ _ hr)
      | some p => exact .add (ihfile _ _ _ hfile) (ihall _ _ _ _ _ hr)

namespace Runs

theorem inProgress_eq (h : Runs files order st task st') : st'.inProgress = st.inProgress := by
  induction h with
  | cached | circular | unread | nil => rfl
  | merged _ _ _ _ _ ih =>
    show List.erase _ _ = _
    rw [ih, List.erase_cons_head]
  | skip _ _ ih ihrest => exact ihrest.trans ih
  | add _ _ ih ihrest => exact ihrest.trans ih

theorem errors_prefix (h : Runs files order st task st') : st.errors <+: st'.errors := by
  induction h with
  | cached | nil => exact List.prefix_rfl
  | circular | unread => exact List.prefix_append _ _
  | merged _ _ _ _ _ ih => exact ih
  | skip _ _ ih ihrest => exact ih.trans ihrest
  | add _ _ ih ihrest => exact (ih.trans (List.prefix_append _ _)).trans ihrest

/-- The programs in the cache are of files that can be read. -/
def CacheRead (files : Files P α) (st : Resolver P α) : Prop :=
  ∀ q p, st.cache.lookup q = some p → ∃ program, files.read q = .ok program

theorem cacheRead (h : Runs files order st task st') (hst : CacheRead files st) :
    CacheRead files st' := by
  induction h with
  | cached | nil | circular | unread => exact hst
  | merged _ _ hread _ _ ih =>
    intro q p hp
    rw [HashMap.lookup_insert_ite] at hp
    split_ifs at hp with hq
    · exact ⟨_, hq ▸ hread⟩
    · exact ih hst q p hp
  | skip _ _ ih ihrest => exact ihrest (ih hst)
  | add _ _ ih ihrest => exact ihrest (ih hst)

/-- The files in progress import what the task is about. -/
def ImportedBy (files : Files P α) (st : Resolver P α) : Task P α → Prop
  | .file path _ => ∀ q ∈ st.inProgress, TransGen (Imports files) q path
  | .imports baseDir imports _ _ =>
    ∀ q ∈ st.inProgress, ∀ i ∈ imports, TransGen (Imports files) q (target files baseDir i)

omit [DecidableEq P] in
theorem ImportedBy.imports {imported : Imported α} {r : Option (Program α)}
    (h : ImportedBy files st (.file path r)) (hread : files.read path = .ok program) :
    ImportedBy files { st with inProgress := path :: st.inProgress }
      (.imports (baseDirOf files path) program.imports ∅ imported) := by
  intro q hq i hi
  have hstep : Imports files path (target files (baseDirOf files path) i) :=
    ⟨program, hread, i, hi, rfl⟩
  rcases List.mem_cons.1 hq with rfl | hq
  · exact .single hstep
  · exact (h q hq).tail hstep

omit [DecidableEq P] in
theorem ImportedBy.head {i : Import} {rest : List Import} {imported imported' : Imported α}
    (h : ImportedBy files st (.imports baseDir (i :: rest) imported imported'))
    (r : Option (Program α)) : ImportedBy files st (.file (target files baseDir i) r) :=
  fun q hq => h q hq i List.mem_cons_self

omit [DecidableEq P] in
theorem ImportedBy.tail {i : Import} {rest : List Import}
    {imported imported' before after : Imported α}
    (h : ImportedBy files st (.imports baseDir (i :: rest) imported imported'))
    (hprog : st'.inProgress = st.inProgress) :
    ImportedBy files st' (.imports baseDir rest before after) :=
  fun q hq j hj => h q (hprog ▸ hq) j (List.mem_cons_of_mem _ hj)

/-- What a task gives of files that load: the merged program of a file, and for the names of the
imports the first definition. -/
def Gives (files : Files P α) : Task P α → Prop
  | .file path r => ∀ program, files.read path = .ok program →
    Loads files program (baseDirOf files path) →
      ∃ p, r = some p ∧ Merged files program (baseDirOf files path) p
  | .imports baseDir imports before after =>
    (∀ i ∈ imports, ∃ program, files.read (target files baseDir i) = .ok program ∧
      Loads files program (baseDirOf files (target files baseDir i))) → NamesItems before →
      NamesItems after ∧ ∀ n item, importedItem after n = some item ↔
        importedItem before n = some item ∨
          importedItem before n = none ∧ FirstOf files baseDir imports n item

theorem gives (h : Runs files order st task st') (himported : ImportedBy files st task)
    (hst : CacheOk files st) : CacheOk files st' ∧ Gives files task := by
  induction h with
  | cached hcache =>
    exact ⟨hst, fun program hread hload => ⟨_, rfl, hst _ _ hcache program hread hload⟩⟩
  | circular hcache hmem =>
    refine ⟨hst, fun program hread hload => ?_⟩
    exact absurd (himported _ hmem) (not_transGen_self (hload.acc hread rfl))
  | unread hcache hmem hread =>
    refine ⟨hst, fun program hread' => ?_⟩
    rw [hread] at hread'
    cases hread'
  | @merged st st' path program p imported hcache hmem hread h hp ih =>
    obtain ⟨hst', hgives⟩ := ih (himported.imports hread) hst
    have hmerged : Loads files program (baseDirOf files path) →
        Merged files program (baseDirOf files path) p := by
      rintro ⟨imported', hread', -, hload⟩
      rw [hp]
      split_ifs with hempty
      · exact .of_imports_isEmpty hempty
      · obtain ⟨hnames, hitems⟩ :=
          hgives (fun i hi => ⟨_, hread' i hi, hload i hi⟩) namesItems_empty
        have hcollected : Collected files program (baseDirOf files path) imported := by
          refine ⟨hnames, fun n item => ?_⟩
          rw [hitems]
          have hnone : importedItem (∅ : Imported α) n = none := rfl
          simp [hnone]
        exact hcollected.merged _
    refine ⟨fun q p' hp' program' hread' hload => ?_, fun program' hread' hload => ?_⟩
    · rw [HashMap.lookup_insert_ite] at hp'
      split_ifs at hp' with hq
      · subst hq
        cases hp'
        rw [hread] at hread'
        cases hread'
        exact hmerged hload
      · exact hst' q p' hp' program' hread' hload
    · rw [hread] at hread'
      cases hread'
      exact ⟨p, rfl, hmerged hload⟩
  | nil =>
    refine ⟨hst, fun _ hnames => ⟨hnames, fun n item => ?_⟩⟩
    simp [firstOf_nil]
  | @skip st st₁ st' baseDir i rest imported imported' h hrest ih ihrest =>
    obtain ⟨hst₁, hfile⟩ := ih (himported.head _) hst
    obtain ⟨hst', -⟩ := ihrest (himported.tail h.inProgress_eq) hst₁
    refine ⟨hst', fun hloads => ?_⟩
    obtain ⟨program, hread, hload⟩ := hloads i List.mem_cons_self
    obtain ⟨p, hp, -⟩ := hfile program hread hload
    cases hp
  | @add st st₁ st' baseDir i rest p imported imported' h hrest ih ihrest =>
    obtain ⟨hst₁, hfile⟩ := ih (himported.head _) hst
    obtain ⟨hst', hgives⟩ := ihrest (himported.tail h.inProgress_eq) hst₁
    refine ⟨hst', fun hloads hnames => ?_⟩
    obtain ⟨program, hread, hload⟩ := hloads i List.mem_cons_self
    obtain ⟨p', hp', hmerged⟩ := hfile program hread hload
    cases hp'
    obtain ⟨hnames', hitems⟩ := hgives (fun j hj => hloads j (List.mem_cons_of_mem _ hj))
      (hnames.foldl i.path p.items)
    refine ⟨hnames', fun n item => ?_⟩
    rw [hitems, importedItem_foldl, firstOf_cons hread hload hmerged]
    cases importedItem imported n with
    | some item' => simp
    | none => simp

end Runs

end Runs

end Vuma.Parser
