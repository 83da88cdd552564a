import Vuma.IR.Syntax
import Vuma.Lib.Stable

/-!
# Removing unreachable functions

`whole_program_dce` of `opt.rs` keeps the entry points, the functions with a runtime name, and what
they refer to through `Call` and `GetAddress`, transitively. The functions that terminators name, of
a `TailCall` or an `Invoke`, are not followed. When that makes a difference is
`keepsClosed_iff`.

The set `reachable` of the function is computed first and then not used; it is left out.
-/

namespace Vuma.Opt

open IR Lib

def startsWith (name start : String) : Bool := start.toList.isPrefixOf name.toList

def fNameIsRuntime (name : String) : Bool :=
  startsWith name "__vuma" || startsWith name "_vuma" || name == "write" || name == "read" ||
    name == "exit" || name == "exit_group" || name == "mmap" || name == "munmap" || name == "brk" ||
    name == "sigaction"

/-- `func.name == "main" || func.name.starts_with("fn_main")`. -/
def isDceRoot (name : String) : Bool := name == "main" || startsWith name "fn_main"

section Pass

variable (program : IRProgram)

def isInternal (name : String) : Bool := program.functions.any (·.name == name)

/-- A reference of a function that is kept; the flag is `changed2`. -/
def keepName (s : Finset String × Bool) (target : String) : Finset String × Bool :=
  if target ∈ s.1 then s
  else if isInternal program target && !fNameIsRuntime target then (insert target s.1, true)
  else s

def keepInstr (s : Finset String × Bool) : IRInstr → Finset String × Bool
  | .call _ target _ _ => keepName program s target
  | .getAddress _ sym => keepName program s sym
  | _ => s

def keepFunction (s : Finset String × Bool) (f : IRFunction) : Finset String × Bool :=
  if f.name ∈ s.1 then
    f.blocks.foldl (fun s b => b.instructions.foldl (keepInstr program) s) s
  else s

/-- The body of `while changed2`. -/
def keepPass (keep : Finset String) : Finset String × Bool :=
  program.functions.foldl (keepFunction program) (keep, false)

/-- `while changed2`, at most so many times. -/
def keepLoop : Nat → Finset String → Finset String
  | 0, keep => keep
  | fuel + 1, keep =>
    let (keep', changed) := keepPass program keep
    if changed then keepLoop fuel keep' else keep'

/-- The entry points and the functions with a runtime name. -/
def keepStart : Finset String :=
  ((program.functions.map (·.name)).filter fun name =>
    isDceRoot name || fNameIsRuntime name).toFinset

/-- `keep` at the end. Every round but the last one adds the name of a function. -/
def keepNames : Finset String := keepLoop program (program.functions.length + 1) (keepStart program)

def wholeProgramDce : IRProgram :=
  { program with
    functions := program.functions.filter fun f =>
      f.name ∈ keepNames program || fNameIsRuntime f.name }

end Pass

/-! ## References -/

/-- The function that an instruction names. -/
def instrRef : IRInstr → Option String
  | .call _ target _ _ => some target
  | .getAddress _ sym => some sym
  | _ => none

/-- The function that a terminator names. -/
def terminatorRef : IRTerminator → Option String
  | .invoke _ target _ _ _ => some target
  | .tailCall target _ => some target
  | _ => none

/-- The functions that the instructions of a function name. -/
def instrRefs (f : IRFunction) : List String :=
  f.blocks.flatMap fun b => b.instructions.filterMap instrRef

/-- The functions that the terminators of a function name. -/
def terminatorRefs (f : IRFunction) : List String := f.blocks.filterMap fun b =>
  terminatorRef b.terminator

/-- All functions that a function names. -/
def functionRefs (f : IRFunction) : List String := instrRefs f ++ terminatorRefs f

section Reach

variable (refs : IRFunction → List String) (program : IRProgram)

/-- The program has a function of that name. -/
def Defined (program : IRProgram) (name : String) : Prop := ∃ f ∈ program.functions, f.name = name

/-- The defined functions that an entry point or a runtime name leads to. -/
inductive Reachable : String → Prop
  | root {name : String} (h : Defined program name)
      (hroot : isDceRoot name ∨ fNameIsRuntime name) : Reachable name
  | step {name : String} {f : IRFunction} (hf : f ∈ program.functions) (h : Reachable f.name)
      (href : name ∈ refs f) (hdef : Defined program name) : Reachable name

/-- Every reachable function is still there, no name that was defined becomes undefined, and what is
removed is not reachable. -/
structure KeepsClosed (program : IRProgram) : Prop where
  present : ∀ f ∈ program.functions, Reachable functionRefs program f.name →
    f ∈ (wholeProgramDce program).functions
  defined : ∀ f ∈ (wholeProgramDce program).functions, ∀ name ∈ functionRefs f,
    Defined program name → Defined (wholeProgramDce program) name
  removed : ∀ f ∈ program.functions, f ∉ (wholeProgramDce program).functions →
    ¬ Reachable functionRefs program f.name

end Reach

/-! ## What the loop keeps -/

section Keep

variable (program : IRProgram)

/-- More names are kept, and the flag is set if and only if it was set or a name is new. -/
structure Grows (s s' : Finset String × Bool) : Prop where
  subset : s.1 ⊆ s'.1
  flag : s'.2 = true ↔ s.2 = true ∨ s'.1 ≠ s.1

theorem Grows.refl (s : Finset String × Bool) : Grows s s :=
  ⟨Finset.Subset.refl _, ⟨.inl, fun h => h.resolve_right fun hne => hne rfl⟩⟩

theorem Grows.trans {s s' s'' : Finset String × Bool} (h : Grows s s') (h' : Grows s' s'') :
    Grows s s'' := by
  refine ⟨h.subset.trans h'.subset, ?_⟩
  rw [h'.flag, h.flag]
  constructor
  · rintro ((hs | hne) | hne)
    · exact .inl hs
    · exact .inr fun heq => hne (Finset.Subset.antisymm (heq ▸ h'.subset) h.subset)
    · exact .inr fun heq => hne (Finset.Subset.antisymm (heq ▸ h.subset) h'.subset)
  · rintro (hs | hne)
    · exact .inl (.inl hs)
    · by_cases heq : s'.1 = s.1
      · exact .inr fun heq' => hne (heq'.trans heq)
      · exact .inl (.inr heq)

/-- A fold of steps that each grow. -/
theorem grows_foldl {β : Type} {step : Finset String × Bool → β → Finset String × Bool}
    (hstep : ∀ s b, Grows s (step s b)) (bs : List β) (s : Finset String × Bool) :
    Grows s (bs.foldl step s) := by
  induction bs generalizing s with
  | nil => exact .refl s
  | cons b bs ih => exact (hstep s b).trans (ih _)

theorem grows_keepName (s : Finset String × Bool) (target : String) :
    Grows s (keepName program s target) := by
  unfold keepName
  split
  · exact .refl s
  · next hnew =>
    split
    · refine ⟨Finset.subset_insert _ _, ⟨fun _ => .inr fun heq => hnew ?_, fun _ => rfl⟩⟩
      rw [← heq]
      exact Finset.mem_insert_self _ _
    · exact .refl s

theorem keepInstr_eq (s : Finset String × Bool) (i : IRInstr) :
    keepInstr program s i = (instrRef i).toList.foldl (keepName program) s := by
  cases i <;> rfl

theorem keepFunction_eq (s : Finset String × Bool) (f : IRFunction) :
    keepFunction program s f =
      if f.name ∈ s.1 then (instrRefs f).foldl (keepName program) s else s := by
  have hblock : ∀ (is : List IRInstr) (s : Finset String × Bool),
      is.foldl (keepInstr program) s =
        (is.filterMap instrRef).foldl (keepName program) s := by
    intro is
    induction is with
    | nil => exact fun _ => rfl
    | cons i is ih =>
      intro s
      rw [List.foldl_cons, ih, keepInstr_eq]
      cases href : instrRef i with
      | none => rw [List.filterMap_cons_none href]; rfl
      | some n => rw [List.filterMap_cons_some href]; rfl
  rw [keepFunction, instrRefs, List.foldl_flatMap]
  simp only [hblock]

theorem grows_keepFunction (s : Finset String × Bool) (f : IRFunction) :
    Grows s (keepFunction program s f) := by
  rw [keepFunction_eq]
  split
  · exact grows_foldl (grows_keepName program) _ s
  · exact .refl s

/-- The names that are kept after a round. -/
def keepRound (keep : Finset String) : Finset String := (keepPass program keep).1

theorem grows_keepPass (keep : Finset String) : Grows (keep, false) (keepPass program keep) :=
  grows_foldl (grows_keepFunction program) _ _

theorem keepLoop_eq (fuel : Nat) (keep : Finset String) :
    keepLoop program fuel keep = untilStable (keepRound program) fuel keep := by
  induction fuel generalizing keep with
  | zero => rfl
  | succ fuel ih =>
    have hflag := (grows_keepPass program keep).flag
    rw [keepLoop, untilStable, keepRound]
    dsimp only
    by_cases hsame : (keepPass program keep).1 = keep
    · have hunchanged : ¬ (keepPass program keep).2 = true := fun h => by
        rcases hflag.mp h with h | h
        · cases h
        · exact h hsame
      rw [if_neg hunchanged, if_pos hsame, hsame]
    · rw [if_pos (hflag.mpr (.inr hsame)), if_neg hsame, ih]

/-- The names of the functions of a program. -/
def functionNames : Finset String := (program.functions.map (·.name)).toFinset

theorem mem_functionNames {name : String} :
    name ∈ functionNames program ↔ Defined program name := by
  simp [functionNames, Defined]

theorem isInternal_iff {name : String} : isInternal program name = true ↔ Defined program name := by
  simp [isInternal, Defined]

/-- A property of names that the references of kept functions keep. -/
theorem keepRound_induction {P : String → Prop}
    (hP : ∀ f ∈ program.functions, P f.name → ∀ name ∈ instrRefs f, Defined program name → P name)
    {keep : Finset String} (hkeep : ∀ name ∈ keep, P name) :
    ∀ name ∈ keepRound program keep, P name := by
  have hnames : ∀ (names : List String) (s : Finset String × Bool), (∀ name ∈ s.1, P name) →
      (∀ name ∈ names, Defined program name → P name) →
      ∀ name ∈ (names.foldl (keepName program) s).1, P name := by
    intro names
    induction names with
    | nil => exact fun s hs _ => hs
    | cons n names ih =>
      intro s hs hall
      obtain ⟨hn, hall⟩ := List.forall_mem_cons.mp hall
      refine ih _ (fun name hname => ?_) hall
      unfold keepName at hname
      split at hname
      · exact hs name hname
      · split at hname
        · next hinternal =>
          rw [Bool.and_eq_true] at hinternal
          rcases Finset.mem_insert.mp hname with rfl | hname
          · exact hn ((isInternal_iff program).mp hinternal.1)
          · exact hs name hname
        · exact hs name hname
  have hfunctions : ∀ (fs : List IRFunction) (s : Finset String × Bool),
      (∀ f ∈ fs, f ∈ program.functions) → (∀ name ∈ s.1, P name) →
      ∀ name ∈ (fs.foldl (keepFunction program) s).1, P name := by
    intro fs
    induction fs with
    | nil => exact fun s _ hs => hs
    | cons f fs ih =>
      intro s hfs hs
      obtain ⟨hf, hfs⟩ := List.forall_mem_cons.mp hfs
      refine ih _ hfs ?_
      rw [keepFunction_eq]
      split
      · next hmem => exact hnames _ s hs (hP f hf (hs _ hmem))
      · exact hs
  exact hfunctions _ _ (fun f hf => hf) hkeep

theorem mem_keepRound {f : IRFunction} (hf : f ∈ program.functions) {keep : Finset String}
    (hkeep : f.name ∈ keep) {name : String} (href : name ∈ instrRefs f)
    (hdef : Defined program name) (hruntime : fNameIsRuntime name = false) :
    name ∈ keepRound program keep := by
  have hnames : ∀ (names : List String) (s : Finset String × Bool), name ∈ names →
      name ∈ (names.foldl (keepName program) s).1 := by
    intro names
    induction names with
    | nil => exact fun s hmem => absurd hmem List.not_mem_nil
    | cons n names ih =>
      intro s hmem
      rcases List.mem_cons.mp hmem with rfl | hmem
      · refine (grows_foldl (grows_keepName program) names _).subset ?_
        unfold keepName
        split
        · assumption
        · rw [if_pos (by rw [(isInternal_iff program).mpr hdef, hruntime]; rfl)]
          exact Finset.mem_insert_self _ _
      · exact ih _ hmem
  have hfunctions : ∀ (fs : List IRFunction) (s : Finset String × Bool), f ∈ fs →
      f.name ∈ s.1 → name ∈ (fs.foldl (keepFunction program) s).1 := by
    intro fs
    induction fs with
    | nil => exact fun s hmem => absurd hmem List.not_mem_nil
    | cons g fs ih =>
      intro s hmem hs
      rcases List.mem_cons.mp hmem with rfl | hmem
      · refine (grows_foldl (grows_keepFunction program) fs _).subset ?_
        rw [keepFunction_eq, if_pos hs]
        exact hnames _ s href
      · exact ih _ hmem ((grows_keepFunction program s g).subset hs)
  exact hfunctions _ _ hf hkeep

theorem keepStart_subset : keepStart program ⊆ functionNames program := by
  intro name hname
  rw [keepStart, List.mem_toFinset] at hname
  exact List.mem_toFinset.mpr (List.mem_of_mem_filter hname)

theorem keepRound_subset {keep : Finset String} (h : keep ⊆ functionNames program) :
    keepRound program keep ⊆ functionNames program := by
  refine keepRound_induction program (fun f _ _ name _ hdef => ?_) h
  exact (mem_functionNames program).mpr hdef

theorem mem_keepNames {name : String} :
    name ∈ keepNames program ↔ Reachable instrRefs program name := by
  rw [keepNames, keepLoop_eq]
  constructor
  · refine fun hname => untilStable_induction
      (P := fun keep => ∀ name ∈ keep, Reachable instrRefs program name) ?_ _ ?_ name hname
    · exact fun keep hkeep => keepRound_induction program
        (fun f hf hreach name href hdef => .step hf hreach href hdef) hkeep
    · intro name hname
      have hdef := (mem_functionNames program).mp (keepStart_subset program hname)
      rw [keepStart, List.mem_toFinset, List.mem_filter, Bool.or_eq_true] at hname
      exact .root hdef hname.2
  · intro hreach
    have hle : ∀ keep, keep ⊆ keepRound program keep := fun keep =>
      (grows_keepPass program keep).subset
    have hroot : ∀ {name : String}, Defined program name →
        (isDceRoot name ∨ fNameIsRuntime name) →
        name ∈ untilStable (keepRound program) (program.functions.length + 1)
          (keepStart program) := by
      rintro name ⟨f, hf, rfl⟩ hroot
      refine subset_untilStable hle _ _ ?_
      rw [keepStart, List.mem_toFinset, List.mem_filter, Bool.or_eq_true]
      exact ⟨List.mem_map_of_mem hf, hroot⟩
    have hstable := untilStable_stable hle (fun keep => keepRound_subset program)
      (program.functions.length + 1) (keepStart_subset program) (by
        have hcard := List.toFinset_card_le (program.functions.map (·.name))
        rw [List.length_map] at hcard
        rw [functionNames]
        omega)
    induction hreach with
    | root hdef h => exact hroot hdef h
    | @step name f hf _ href hdef ih =>
      by_cases hruntime : fNameIsRuntime name = true
      · exact hroot hdef (.inr hruntime)
      · rw [← hstable]
        exact mem_keepRound program hf ih href hdef (Bool.not_eq_true _ ▸ hruntime)

theorem mem_wholeProgramDce {f : IRFunction} : f ∈ (wholeProgramDce program).functions ↔
    f ∈ program.functions ∧ Reachable instrRefs program f.name := by
  rw [wholeProgramDce, List.mem_filter, Bool.or_eq_true, decide_eq_true_eq, mem_keepNames]
  refine and_congr_right fun hf => ⟨fun h => ?_, .inl⟩
  exact h.elim id fun hruntime => .root ⟨f, hf, rfl⟩ (.inr hruntime)

end Keep

/-! ## Terminators -/

/-- Every function that a function kept names in a terminator is reached by instructions, too. -/
def TerminatorsFollowed (program : IRProgram) : Prop :=
  ∀ f ∈ program.functions, Reachable instrRefs program f.name →
    ∀ name ∈ terminatorRefs f, Defined program name → Reachable instrRefs program name

theorem Reachable.functionRefs {program : IRProgram} {name : String}
    (h : Reachable instrRefs program name) : Reachable functionRefs program name := by
  induction h with
  | root hdef hroot => exact .root hdef hroot
  | step hf _ href hdef ih => exact .step hf ih (List.mem_append_left _ href) hdef

theorem TerminatorsFollowed.instrRefs {program : IRProgram} (h : TerminatorsFollowed program)
    {name : String} (hreach : Reachable functionRefs program name) :
    Reachable instrRefs program name := by
  induction hreach with
  | root hdef hroot => exact .root hdef hroot
  | @step name f hf _ href hdef ih =>
    rcases List.mem_append.mp href with href | href
    · exact .step hf ih href hdef
    · exact h f hf ih name href hdef

/-- The program is kept closed if and only if no function is reached through terminators alone. -/
theorem keepsClosed_iff (program : IRProgram) :
    KeepsClosed program ↔ TerminatorsFollowed program := by
  constructor
  · rintro ⟨hpresent, -, -⟩ f hf hreach name href hdef
    obtain ⟨g, hg, rfl⟩ := hdef
    have hname : Reachable functionRefs program g.name :=
      .step hf hreach.functionRefs (List.mem_append_right _ href) ⟨g, hg, rfl⟩
    exact ((mem_wholeProgramDce program).mp (hpresent g hg hname)).2
  · intro h
    have hpresent : ∀ f ∈ program.functions, Reachable functionRefs program f.name →
        f ∈ (wholeProgramDce program).functions := fun f hf hreach =>
      (mem_wholeProgramDce program).mpr ⟨hf, h.instrRefs hreach⟩
    refine ⟨hpresent, fun f hf name href hdef => ?_, fun f hf hgone hreach => ?_⟩
    · obtain ⟨hmem, hreach⟩ := (mem_wholeProgramDce program).mp hf
      obtain ⟨g, hg, rfl⟩ := hdef
      exact ⟨g, hpresent g hg (.step hmem hreach.functionRefs href ⟨g, hg, rfl⟩), rfl⟩
    · exact hgone (hpresent f hf hreach)

/-- `main` ends in a tail call of `helper`. -/
def tailCalling : IRProgram where
  functions :=
    [{ name := "main", blocks := [⟨"entry", [], .tailCall "helper" [], [], []⟩] },
      { name := "helper", blocks := [⟨"entry", [], .ret [], [], []⟩] }]

/-- `helper` is removed. -/
theorem not_keepsClosed_tailCalling : ¬ KeepsClosed tailCalling := by
  intro h
  have hmain : Reachable functionRefs tailCalling "main" :=
    .root ⟨_, List.mem_cons_self, rfl⟩ (.inl (by decide))
  have hhelper : Reachable functionRefs tailCalling "helper" :=
    .step List.mem_cons_self hmain (by decide) ⟨_, List.mem_cons_of_mem _ List.mem_cons_self, rfl⟩
  have hkept := h.present _ (List.mem_cons_of_mem _ List.mem_cons_self) hhelper
  exact absurd hkept (by decide)

end Vuma.Opt
