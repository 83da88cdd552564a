import Vuma.IR.Syntax
import Vuma.Ive.PmtLayout

/-!
# Monomorphization

`monomorphize.rs`. A `Call` of `g<T, U>` asks for an instance of `g`. The pass gives each instance
the name `g_T_U`, puts a copy of the definition of `g` under that name and renames the calls. The
definitions that some call asks an instance of are dropped. Type arguments play a part in the names
only.

The name of an instance is made by joining its parts with `_`, and nothing checks that the result is
new. An instance gets its copy unless another instance with the same name was taken from the stack
before it, and a generic function is dropped as soon as one call asks for an instance of it.
-/

namespace Vuma.Codegen.Mono

open IR
open Ive (trim splitLast)

structure MonoKey where
  funcName : String
  typeArgs : List String
  deriving DecidableEq, Repr

/-- `Monomorphizer`. The top of the stack of pending keys comes first. -/
structure Monomorphizer where
  specializations : List (MonoKey × String)
  pending : List MonoKey
  done : List String

def Monomorphizer.new : Monomorphizer := ⟨[], [], []⟩

def specializedName (func : String) (typeArgs : List String) : String :=
  if typeArgs.isEmpty then func else func ++ "_" ++ "_".intercalate typeArgs

/-- `parse_generic_callee`: what stands before the first `<` and, up to the last `>`, which ends the
name, after it. -/
def parseGenericCallee (callee : String) : Option (String × List String) :=
  match callee.toList.span (· ≠ '<') with
  | (_, []) => none
  | (name, _ :: rest) =>
    match splitLast '>' rest with
    | none => none
    | some (typeStr, trailing) =>
      if name = [] ∨ trailing ≠ [] then none
      else
        let typeArgs := ((typeStr.splitOn ',').map trim).filter (· ≠ [])
        if typeArgs = [] then none
        else some (String.ofList name, typeArgs.map String.ofList)

/-- The callee of a `Call`. -/
def calleeOf : IRInstr → Option String
  | .call _ func _ _ => some func
  | _ => none

/-- The instructions of some functions. -/
def instructionsOf (funcs : List IRFunction) : List IRInstr :=
  funcs.flatMap fun f => f.blocks.flatMap (·.instructions)

/-- `collect_call_sites`, without the names of the callers, which the pass does not use. -/
def collectCallSites (funcs : List IRFunction) : List (String × List String) :=
  (instructionsOf funcs).filterMap fun i => (calleeOf i).bind parseGenericCallee

/-- Phase 2, for one call site. -/
def Monomorphizer.register (m : Monomorphizer) (site : String × List String) : Monomorphizer :=
  let key := ⟨site.1, site.2⟩
  if (m.specializations.lookup key).isSome then m
  else
    { m with
      specializations := (key, specializedName site.1 site.2) :: m.specializations
      pending := key :: m.pending }

/-- The definition that is copied: a map from names keeps the last one. -/
def genericLookup (funcs : List IRFunction) (name : String) : Option IRFunction :=
  funcs.reverse.find? (·.name = name)

/-- Phase 3: the names that are done and the copies. -/
def cloneAll (specializations : List (MonoKey × String)) (lookup : String → Option IRFunction) :
    List MonoKey → List String → List String × List IRFunction
  | [], done => (done, [])
  | key :: pending, done =>
    let specName := (specializations.lookup key).getD ""
    if specName = "" ∨ specName ∈ done then cloneAll specializations lookup pending done
    else
      let (done, clones) := cloneAll specializations lookup pending (specName :: done)
      match lookup key.funcName with
      | some genericFunc => (done, { genericFunc with name := specName } :: clones)
      | none => (done, clones)

/-- Phase 5, for one instruction. -/
def rewriteCall (specializations : List (MonoKey × String)) : IRInstr → IRInstr
  | .call dst callee args isExtern =>
    let callee' :=
      match parseGenericCallee callee with
      | some (name, typeArgs) => (specializations.lookup ⟨name, typeArgs⟩).getD callee
      | none => callee
    .call dst callee' args isExtern
  | i => i

def rewriteCalls (specializations : List (MonoKey × String)) (f : IRFunction) : IRFunction :=
  { f with
    blocks := f.blocks.map fun b =>
      { b with instructions := b.instructions.map (rewriteCall specializations) } }

def Monomorphizer.monomorphize (m : Monomorphizer) (funcs : List IRFunction) :
    Monomorphizer × List IRFunction :=
  let callSites := collectCallSites funcs
  let m := callSites.foldl register m
  let genericDefNames := callSites.map Prod.fst
  let lookup := genericLookup (funcs.filter fun f => genericDefNames.contains f.name)
  let (done, clones) := cloneAll m.specializations lookup m.pending m.done
  let result := funcs.filter (fun f => !genericDefNames.contains f.name) ++ clones
  (⟨m.specializations, [], done⟩, result.map (rewriteCalls m.specializations))

/-- `monomorphize`, the entry point of the pipeline. -/
def monomorphize (p : IRProgram) : IRProgram :=
  ⟨(Monomorphizer.new.monomorphize p.functions).2⟩

/-! ## What the result should be -/

def MonoKey.specName (k : MonoKey) : String := specializedName k.funcName k.typeArgs

/-- The instance that a callee asks for. -/
def keyOf (callee : String) : Option MonoKey :=
  (parseGenericCallee callee).map fun site => ⟨site.1, site.2⟩

/-- The name of a callee after the pass. -/
def newCallee (callee : String) : String :=
  match keyOf callee with
  | some k => k.specName
  | none => callee

def renameCall : IRInstr → IRInstr
  | .call dst callee args isExtern => .call dst (newCallee callee) args isExtern
  | i => i

/-- A function under another name, with its calls renamed. -/
def instantiate (f : IRFunction) (name : String) : IRFunction :=
  { f with
    name := name
    blocks := f.blocks.map fun b => { b with instructions := b.instructions.map renameCall } }

/-- The callee of a call at the end of a block. -/
def endCallee : IRTerminator → Option String
  | .tailCall func _ => some func
  | .invoke _ func .. => some func
  | _ => none

section

variable (funcs : List IRFunction)

def Defined (name : String) : Prop := ∃ f ∈ funcs, f.name = name

def Called (callee : String) : Prop := ∃ i ∈ instructionsOf funcs, calleeOf i = some callee

/-- Named by a plain call, by a `GetAddress`, or by a call at the end of a block. -/
def Named (name : String) : Prop :=
  (Called funcs name ∧ keyOf name = none) ∨ (∃ dst, .getAddress dst name ∈ instructionsOf funcs) ∨
    ∃ f ∈ funcs, ∃ b ∈ f.blocks, endCallee b.terminator = some name

/-- The instances that are asked for, the one met last first. -/
def instances : List MonoKey :=
  ((collectCallSites funcs).map fun site => (⟨site.1, site.2⟩ : MonoKey)).reverse.dedup

/-- No call asks for an instance of the function. -/
def Ordinary (f : IRFunction) : Prop := f ∈ funcs ∧ ∀ k ∈ instances funcs, k.funcName ≠ f.name

end

/-- Every call of a defined generic leads to its body, different instances are different functions
and no ordinary ones, and plain names still name a function. -/
structure Resolved (p : IRProgram) : Prop where
  renamed : ∀ f' ∈ (monomorphize p).functions, ∃ f ∈ p.functions, f' = instantiate f f'.name
  body : ∀ callee k, Called p.functions callee → keyOf callee = some k →
    Defined p.functions k.funcName →
    (∃ f' ∈ (monomorphize p).functions, f'.name = newCallee callee) ∧
    ∀ f' ∈ (monomorphize p).functions, f'.name = newCallee callee →
      ∃ f ∈ p.functions, f.name = k.funcName ∧ f' = instantiate f (newCallee callee)
  different : ∀ callee callee' k k', Called p.functions callee → Called p.functions callee' →
    keyOf callee = some k → keyOf callee' = some k' → Defined p.functions k.funcName →
    Defined p.functions k'.funcName → k ≠ k' → newCallee callee ≠ newCallee callee'
  ordinary : ∀ callee k, Called p.functions callee → keyOf callee = some k →
    Defined p.functions k.funcName → ∀ f, Ordinary p.functions f → f.name ≠ newCallee callee
  plain : ∀ name, Named p.functions name → Defined p.functions name →
    Defined (monomorphize p).functions name

/-- The joined names do not collide: that of an instance of a defined function is not that of an
instance met later, nor the name of an ordinary function; and a generic function that is named
plainly has the joined name of such an instance. -/
structure NoCollision (funcs : List IRFunction) : Prop where
  later : (instances funcs).Pairwise fun k' k => Defined funcs k.funcName → k'.specName ≠ k.specName
  ordinary : ∀ k ∈ instances funcs, Defined funcs k.funcName → ∀ f, Ordinary funcs f →
    f.name ≠ k.specName
  plain : ∀ name, Named funcs name → Defined funcs name →
    (∃ k ∈ instances funcs, k.funcName = name) → ∃ k ∈ instances funcs,
      Defined funcs k.funcName ∧ k.specName = name

/-! ## The instances -/

theorem mem_instances {funcs : List IRFunction} {k : MonoKey} :
    k ∈ instances funcs ↔ ∃ callee, Called funcs callee ∧ keyOf callee = some k := by
  rw [instances, List.mem_dedup, List.mem_reverse, List.mem_map]
  constructor
  · rintro ⟨site, hsite, rfl⟩
    obtain ⟨i, hi, hcallee⟩ := List.mem_filterMap.mp hsite
    obtain ⟨callee, hcalls, hparse⟩ := Option.bind_eq_some_iff.mp hcallee
    exact ⟨callee, ⟨i, hi, hcalls⟩, by rw [keyOf, hparse]; rfl⟩
  · rintro ⟨callee, ⟨i, hi, hcalls⟩, hkey⟩
    obtain ⟨site, hparse, rfl⟩ := Option.map_eq_some_iff.mp hkey
    exact ⟨site, List.mem_filterMap.mpr ⟨i, hi, by rw [hcalls]; exact hparse⟩, rfl⟩

theorem instances_nodup (funcs : List IRFunction) : (instances funcs).Nodup :=
  List.nodup_dedup _

theorem newCallee_of_keyOf {callee : String} {k : MonoKey} (h : keyOf callee = some k) :
    newCallee callee = k.specName := by
  rw [newCallee, h]

theorem typeArgs_ne_nil {callee : String} {name : String} {typeArgs : List String}
    (h : parseGenericCallee callee = some (name, typeArgs)) : typeArgs ≠ [] := by
  unfold parseGenericCallee at h
  split at h
  · cases h
  · split at h
    · cases h
    · split at h
      · cases h
      · dsimp only at h
        split at h
        · cases h
        · next hne =>
          cases h
          simpa using hne

theorem specName_ne_empty {funcs : List IRFunction} {k : MonoKey} (h : k ∈ instances funcs) :
    k.specName ≠ "" := by
  obtain ⟨callee, _, hkey⟩ := mem_instances.mp h
  obtain ⟨⟨name, typeArgs⟩, hparse, rfl⟩ := Option.map_eq_some_iff.mp hkey
  have hne := typeArgs_ne_nil hparse
  rw [MonoKey.specName, specializedName, if_neg (by simpa using hne)]
  simp

/-! ## Phases -/

/-- What has been registered after some call sites. -/
structure Registered (sites : List (String × List String)) (m : Monomorphizer) : Prop where
  pending : m.pending = (sites.map fun site => (⟨site.1, site.2⟩ : MonoKey)).reverse.dedup
  lookup : ∀ k, m.specializations.lookup k = if k ∈ m.pending then some k.specName else none
  done : m.done = []

theorem registered_foldl (sites : List (String × List String)) :
    Registered sites (sites.foldl Monomorphizer.register .new) := by
  induction sites using List.reverseRecOn with
  | nil => exact ⟨rfl, fun k => rfl, rfl⟩
  | append_singleton sites site ih =>
    rw [List.foldl_append, List.foldl_cons, List.foldl_nil]
    generalize sites.foldl Monomorphizer.register .new = m at ih
    have hrev : (((sites ++ [site]).map fun site => (⟨site.1, site.2⟩ : MonoKey)).reverse) =
        ⟨site.1, site.2⟩ :: (sites.map fun site => (⟨site.1, site.2⟩ : MonoKey)).reverse := by
      rw [List.map_append, List.reverse_append]
      rfl
    unfold Monomorphizer.register
    by_cases hmem : (⟨site.1, site.2⟩ : MonoKey) ∈ m.pending
    · have hsome : (m.specializations.lookup ⟨site.1, site.2⟩).isSome = true := by
        rw [ih.lookup, if_pos hmem]
        rfl
      rw [if_pos hsome]
      refine ⟨?_, ih.lookup, ih.done⟩
      rw [hrev, List.dedup_cons_of_mem (List.mem_dedup.mp (ih.pending ▸ hmem)), ih.pending]
    · have hnone : ¬(m.specializations.lookup ⟨site.1, site.2⟩).isSome = true := by
        rw [ih.lookup, if_neg hmem]
        exact nofun
      rw [if_neg hnone]
      refine ⟨?_, fun k => ?_, ih.done⟩
      · rw [hrev, List.dedup_cons_of_notMem fun h => hmem (ih.pending ▸ List.mem_dedup.mpr h),
          ih.pending]
      · by_cases hk : k = ⟨site.1, site.2⟩
        · rw [hk, List.lookup_cons_self, if_pos List.mem_cons_self]
          rfl
        · rw [List.lookup_cons, beq_false_of_ne hk]
          have hiff : k ∈ (⟨site.1, site.2⟩ : MonoKey) :: m.pending ↔ k ∈ m.pending := by
            rw [List.mem_cons, or_iff_right hk]
          simp only [hiff]
          exact ih.lookup k

theorem cloneAll_of_mem {specs : List (MonoKey × String)} {lookup : String → Option IRFunction}
    {k : MonoKey} {pending : List MonoKey} {done : List String}
    (hspec : specs.lookup k = some k.specName) (hdone : k.specName ∈ done) :
    cloneAll specs lookup (k :: pending) done = cloneAll specs lookup pending done := by
  rw [cloneAll]
  dsimp only
  rw [hspec, Option.getD_some, if_pos (Or.inr hdone)]

theorem cloneAll_of_not_mem {specs : List (MonoKey × String)}
    {lookup : String → Option IRFunction} {k : MonoKey} {pending : List MonoKey}
    {done : List String} (hspec : specs.lookup k = some k.specName) (hne : k.specName ≠ "")
    (hdone : k.specName ∉ done) :
    (cloneAll specs lookup (k :: pending) done).2 =
      (lookup k.funcName).toList.map (fun g => { g with name := k.specName }) ++
        (cloneAll specs lookup pending (k.specName :: done)).2 := by
  rw [cloneAll]
  dsimp only
  rw [hspec, Option.getD_some, if_neg (not_or.mpr ⟨hne, hdone⟩)]
  cases lookup k.funcName <;> rfl

/-- The splits of a list at an element: the first one, or a split of the rest. -/
theorem exists_split_cons {α : Type} {a : α} {l : List α} {P : List α → α → Prop} :
    (∃ before b after, a :: l = before ++ b :: after ∧ P before b) ↔
      P [] a ∨ ∃ before b after, l = before ++ b :: after ∧ P (a :: before) b := by
  constructor
  · rintro ⟨before, b, after, h, hP⟩
    obtain _ | ⟨c, before⟩ := before
    · cases h
      exact .inl hP
    · cases h
      exact .inr ⟨before, b, after, rfl, hP⟩
  · rintro (hP | ⟨before, b, after, rfl, hP⟩)
    · exact ⟨[], a, l, rfl, hP⟩
    · exact ⟨a :: before, b, after, rfl, hP⟩

/-- A key on the stack gets its copy unless its name is taken by then. -/
theorem mem_cloneAll {specs : List (MonoKey × String)} {lookup : String → Option IRFunction}
    {pending : List MonoKey} (hspecs : ∀ k ∈ pending, specs.lookup k = some k.specName)
    (hne : ∀ k ∈ pending, k.specName ≠ "") {done : List String} {f : IRFunction} :
    f ∈ (cloneAll specs lookup pending done).2 ↔
      ∃ before k after, pending = before ++ k :: after ∧ (k.specName ∉ done ∧
        (∀ k' ∈ before, k'.specName ≠ k.specName) ∧
        ∃ g, lookup k.funcName = some g ∧ f = { g with name := k.specName }) := by
  induction pending generalizing done with
  | nil =>
    refine ⟨nofun, ?_⟩
    rintro ⟨before, k, after, h, -⟩
    cases before <;> cases h
  | cons k pending ih =>
    rw [List.forall_mem_cons] at hspecs hne
    rw [exists_split_cons]
    simp only [List.forall_mem_cons]
    by_cases hdone : k.specName ∈ done
    · rw [cloneAll_of_mem hspecs.1 hdone, ih hspecs.2 hne.2, or_iff_right fun h => h.1 hdone]
      refine exists_congr fun before => exists_congr fun k' => exists_congr fun after =>
        and_congr_right fun _ => and_congr_right fun hk' => ?_
      rw [and_assoc, and_iff_right fun heq : k.specName = k'.specName => hk' (heq ▸ hdone)]
    · rw [cloneAll_of_not_mem hspecs.1 hne.1 hdone, List.mem_append, ih hspecs.2 hne.2]
      refine or_congr ?_ ?_
      · simp only [List.mem_map, Option.mem_toList, eq_comm (b := f)]
        rw [and_iff_right hdone, and_iff_right nofun]
      · refine exists_congr fun before => exists_congr fun k' => exists_congr fun after =>
          and_congr_right fun _ => ?_
        rw [List.mem_cons, not_or, ne_comm (a := k.specName)]
        tauto

/-! ## The result -/

theorem genericLookup_isSome_iff {funcs : List IRFunction} {name : String} :
    (genericLookup funcs name).isSome = true ↔ Defined funcs name := by
  rw [genericLookup, List.find?_isSome]
  simp only [List.mem_reverse, decide_eq_true_eq]
  rfl

theorem mem_of_genericLookup {funcs : List IRFunction} {name : String} {g : IRFunction}
    (h : genericLookup funcs name = some g) : g ∈ funcs ∧ g.name = name :=
  ⟨List.mem_reverse.mp (List.mem_of_find?_eq_some h), by simpa using List.find?_some h⟩

theorem rewriteCall_eq {specs : List (MonoKey × String)} {i : IRInstr}
    (h : ∀ callee k, calleeOf i = some callee → keyOf callee = some k →
      specs.lookup k = some k.specName) : rewriteCall specs i = renameCall i := by
  cases i with
  | call dst callee args isExtern =>
    have hcallee := fun k => h callee k rfl
    rw [rewriteCall, renameCall, newCallee]
    unfold keyOf at hcallee ⊢
    cases hparse : parseGenericCallee callee with
    | none => rfl
    | some site =>
      rw [hparse] at hcallee
      dsimp only [Option.map_some]
      rw [hcallee _ rfl]
      rfl
  | _ => rfl

theorem rewriteCalls_eq {funcs : List IRFunction} {specs : List (MonoKey × String)}
    (hspecs : ∀ k ∈ instances funcs, specs.lookup k = some k.specName) {f : IRFunction}
    (hf : f ∈ funcs) (name : String) :
    rewriteCalls specs { f with name := name } = instantiate f name := by
  unfold rewriteCalls instantiate
  congr 1
  refine List.map_congr_left fun b hb => ?_
  congr 1
  refine List.map_congr_left fun i hi => rewriteCall_eq fun callee k hcalls hkey => ?_
  have hmem : i ∈ instructionsOf funcs :=
    List.mem_flatMap.mpr ⟨f, hf, List.mem_flatMap.mpr ⟨b, hb, hi⟩⟩
  exact hspecs k (mem_instances.mpr ⟨callee, ⟨i, hmem, hcalls⟩, hkey⟩)

theorem genericDefNames_iff {funcs : List IRFunction} {name : String} :
    ((collectCallSites funcs).map Prod.fst).contains name = true ↔
      ∃ k ∈ instances funcs, k.funcName = name := by
  rw [List.contains_iff_mem, List.mem_map]
  simp only [instances, List.mem_dedup, List.mem_reverse, List.mem_map, exists_exists_and_eq_and]

/-- The definition that an instance is copied from. -/
def definitionOf (funcs : List IRFunction) (name : String) : Option IRFunction :=
  genericLookup (funcs.filter fun f => ((collectCallSites funcs).map Prod.fst).contains f.name) name

theorem mem_of_definitionOf {funcs : List IRFunction} {name : String} {g : IRFunction}
    (h : definitionOf funcs name = some g) : g ∈ funcs ∧ g.name = name :=
  (mem_of_genericLookup h).imp_left fun hmem => (List.mem_filter.mp hmem).1

theorem exists_definitionOf {funcs : List IRFunction} {k : MonoKey} (hk : k ∈ instances funcs)
    (h : Defined funcs k.funcName) : ∃ g, definitionOf funcs k.funcName = some g := by
  obtain ⟨f, hf, hname⟩ := h
  refine Option.isSome_iff_exists.mp (genericLookup_isSome_iff.mpr ⟨f, ?_, hname⟩)
  exact List.mem_filter.mpr ⟨hf, genericDefNames_iff.mpr ⟨k, hk, hname.symm⟩⟩

theorem mem_filter_ordinary {funcs : List IRFunction} {f : IRFunction} :
    f ∈ funcs.filter (fun f => !((collectCallSites funcs).map Prod.fst).contains f.name) ↔
      Ordinary funcs f := by
  rw [List.mem_filter, Bool.not_eq_true', ← Bool.not_eq_true, genericDefNames_iff]
  simp only [not_exists, not_and]
  rfl

/-- The functions of the result: the ordinary ones, and a copy for an instance unless an instance
that was met later has the same name. -/
theorem mem_monomorphize {p : IRProgram} {f' : IRFunction} :
    f' ∈ (monomorphize p).functions ↔
      (∃ f, Ordinary p.functions f ∧ f' = instantiate f f.name) ∨
      ∃ before k after, instances p.functions = before ++ k :: after ∧
        (∀ k' ∈ before, k'.specName ≠ k.specName) ∧
        ∃ g, definitionOf p.functions k.funcName = some g ∧ f' = instantiate g k.specName := by
  have hreg := registered_foldl (collectCallSites p.functions)
  unfold monomorphize Monomorphizer.monomorphize
  dsimp only
  generalize (collectCallSites p.functions).foldl Monomorphizer.register .new = m at hreg
  have hpending : m.pending = instances p.functions := hreg.pending
  have hspecs : ∀ k ∈ instances p.functions, m.specializations.lookup k = some k.specName :=
    fun k hk => (hreg.lookup k).trans (if_pos (hpending ▸ hk))
  have hclone : ∀ f, f ∈ (cloneAll m.specializations (definitionOf p.functions) m.pending
      m.done).2 ↔ ∃ before k after, instances p.functions = before ++ k :: after ∧
        (∀ k' ∈ before, k'.specName ≠ k.specName) ∧
        ∃ g, definitionOf p.functions k.funcName = some g ∧ f = { g with name := k.specName } := by
    intro f
    rw [hpending, hreg.done, mem_cloneAll hspecs fun k hk => specName_ne_empty hk]
    simp only [List.not_mem_nil, not_false_eq_true, true_and]
  change f' ∈ List.map _ (_ ++ (cloneAll m.specializations (definitionOf p.functions) m.pending
    m.done).2) ↔ _
  rw [List.mem_map]
  constructor
  · rintro ⟨f, hf, rfl⟩
    rcases List.mem_append.mp hf with hf | hf
    · have hord := mem_filter_ordinary.mp hf
      exact .inl ⟨f, hord, rewriteCalls_eq hspecs hord.1 f.name⟩
    · obtain ⟨before, k, after, hsplit, hbefore, g, hg, rfl⟩ := (hclone f).mp hf
      exact .inr ⟨before, k, after, hsplit, hbefore, g, hg,
        rewriteCalls_eq hspecs (mem_of_definitionOf hg).1 _⟩
  · rintro (⟨f, hord, rfl⟩ | ⟨before, k, after, hsplit, hbefore, g, hg, rfl⟩)
    · exact ⟨f, List.mem_append_left _ (mem_filter_ordinary.mpr hord),
        rewriteCalls_eq hspecs hord.1 f.name⟩
    · exact ⟨_, List.mem_append_right _ ((hclone _).mpr ⟨before, k, after, hsplit, hbefore, g, hg,
        rfl⟩), rewriteCalls_eq hspecs (mem_of_definitionOf hg).1 _⟩

/-! ## Collisions -/

theorem pairwise_of_splits {α : Type} {R : α → α → Prop} {l : List α}
    (h : ∀ before b after, l = before ++ b :: after → ∀ a ∈ before, R a b) : l.Pairwise R := by
  induction l using List.reverseRecOn with
  | nil => exact .nil
  | append_singleton l b ih =>
    refine List.pairwise_append.mpr ⟨ih fun before c after hsplit => ?_,
      List.pairwise_singleton R b, fun a ha c hc => ?_⟩
    · exact h before c (after ++ [b]) (by rw [hsplit, List.append_assoc, List.cons_append])
    · rw [List.mem_singleton.mp hc]
      exact h l b [] rfl a ha

theorem before_unique {α : Type} {l before before' after after' : List α} {a : α}
    (hnodup : l.Nodup) (h : l = before ++ a :: after) (h' : l = before' ++ a :: after') :
    before = before' := by
  have hparts := List.nodup_append.mp (h ▸ hnodup)
  have hbefore : a ∉ before := fun hmem => hparts.2.2 a hmem a List.mem_cons_self rfl
  have hafter : a ∉ after := (List.nodup_cons.mp hparts.2.1).1
  exact ((List.append_cons_inj_of_notMem hbefore hafter).mp (h.symm.trans h')).1

section

variable {p : IRProgram}

theorem NoCollision.eq_of_specName (hcol : NoCollision p.functions) {k k' : MonoKey}
    (hk : k ∈ instances p.functions) (hk' : k' ∈ instances p.functions)
    (hdef : Defined p.functions k.funcName) (hdef' : Defined p.functions k'.funcName)
    (h : k.specName = k'.specName) : k = k' := by
  by_contra hne
  let Differ (k k' : MonoKey) : Prop := Defined p.functions k.funcName →
    Defined p.functions k'.funcName → k.specName ≠ k'.specName
  have hsymm : Std.Symm Differ := ⟨fun _ _ h hdef hdef' heq => h hdef' hdef heq.symm⟩
  have hpair : (instances p.functions).Pairwise Differ := hcol.later.imp fun h _ hdef => h hdef
  exact hpair.forall hk hk' hne hdef hdef' h

theorem NoCollision.exists_copy (hcol : NoCollision p.functions) {k : MonoKey}
    (hk : k ∈ instances p.functions) (hdef : Defined p.functions k.funcName) :
    ∃ f' ∈ (monomorphize p).functions, f'.name = k.specName := by
  obtain ⟨before, after, hsplit⟩ := List.append_of_mem hk
  obtain ⟨g, hg⟩ := exists_definitionOf hk hdef
  have hlater := hcol.later
  rw [hsplit, List.pairwise_append] at hlater
  exact ⟨instantiate g k.specName, mem_monomorphize.mpr (.inr ⟨before, k, after, hsplit,
    fun k' hk' => hlater.2.2 k' hk' k List.mem_cons_self hdef, g, hg, rfl⟩), rfl⟩

theorem NoCollision.copy_of_name (hcol : NoCollision p.functions) {k : MonoKey}
    (hk : k ∈ instances p.functions) (hdef : Defined p.functions k.funcName) {f' : IRFunction}
    (hf' : f' ∈ (monomorphize p).functions) (hname : f'.name = k.specName) :
    ∃ f ∈ p.functions, f.name = k.funcName ∧ f' = instantiate f k.specName := by
  rcases mem_monomorphize.mp hf' with ⟨f, hord, rfl⟩ | ⟨before, k', after, hsplit, _, g, hg, rfl⟩
  · exact absurd hname (hcol.ordinary k hk hdef f hord)
  · obtain ⟨hmem, hgname⟩ := mem_of_definitionOf hg
    have hk' : k' ∈ instances p.functions := hsplit ▸ List.mem_append_cons_self
    obtain rfl := hcol.eq_of_specName hk' hk ⟨g, hmem, hgname⟩ hdef hname
    exact ⟨g, hmem, hgname, rfl⟩

theorem NoCollision.resolved (hcol : NoCollision p.functions) : Resolved p where
  renamed f' hf' := by
    rcases mem_monomorphize.mp hf' with ⟨f, hord, rfl⟩ | ⟨_, _, _, _, _, g, hg, rfl⟩
    · exact ⟨f, hord.1, rfl⟩
    · exact ⟨g, (mem_of_definitionOf hg).1, rfl⟩
  body callee k hcalled hkey hdef := by
    have hk := mem_instances.mpr ⟨callee, hcalled, hkey⟩
    rw [newCallee_of_keyOf hkey]
    exact ⟨hcol.exists_copy hk hdef, fun f' hf' hname => hcol.copy_of_name hk hdef hf' hname⟩
  different callee callee' k k' hcalled hcalled' hkey hkey' hdef hdef' hne := by
    rw [newCallee_of_keyOf hkey, newCallee_of_keyOf hkey']
    exact fun heq => hne (hcol.eq_of_specName (mem_instances.mpr ⟨callee, hcalled, hkey⟩)
      (mem_instances.mpr ⟨callee', hcalled', hkey'⟩) hdef hdef' heq)
  ordinary callee k hcalled hkey hdef f hord := by
    rw [newCallee_of_keyOf hkey]
    exact hcol.ordinary k (mem_instances.mpr ⟨callee, hcalled, hkey⟩) hdef f hord
  plain name hnamed hdef := by
    by_cases hgeneric : ∃ k ∈ instances p.functions, k.funcName = name
    · obtain ⟨k, hk, hkdef, rfl⟩ := hcol.plain name hnamed hdef hgeneric
      exact hcol.exists_copy hk hkdef
    · obtain ⟨f, hf, rfl⟩ := hdef
      have hord : Ordinary p.functions f := ⟨hf, fun k hk heq => hgeneric ⟨k, hk, heq⟩⟩
      exact ⟨_, mem_monomorphize.mpr (.inl ⟨f, hord, rfl⟩), rfl⟩

theorem Resolved.noCollision (h : Resolved p) : NoCollision p.functions where
  later := by
    refine pairwise_of_splits fun before k after hsplit k' hk' hdef heq => ?_
    have hk : k ∈ instances p.functions := hsplit ▸ List.mem_append_cons_self
    obtain ⟨callee, hcalled, hkey⟩ := mem_instances.mp hk
    have hname := newCallee_of_keyOf hkey
    obtain ⟨f', hf', hfname⟩ := (h.body callee k hcalled hkey hdef).1
    rw [hname] at hfname
    rcases mem_monomorphize.mp hf' with ⟨f, hord, rfl⟩ | ⟨before', k'', after', hsplit', hbefore,
      g, hg, rfl⟩
    · exact h.ordinary callee k hcalled hkey hdef f hord (hfname.trans hname.symm)
    · -- the copy is one for `k`, and `k'` stands before it
      have hk'' : k'' ∈ instances p.functions := hsplit' ▸ List.mem_append_cons_self
      obtain ⟨callee', hcalled', hkey'⟩ := mem_instances.mp hk''
      have hsame : k'' = k := by
        by_contra hne
        refine h.different callee' callee k'' k hcalled' hcalled hkey' hkey
          ⟨g, mem_of_definitionOf hg⟩ hdef hne ?_
        rw [newCallee_of_keyOf hkey', hname]
        exact hfname
      rw [hsame] at hsplit' hbefore
      have heqBefore : before' = before :=
        before_unique (instances_nodup p.functions) hsplit' hsplit
      exact hbefore k' (heqBefore ▸ hk') heq
  ordinary k hk hdef f hord := by
    obtain ⟨callee, hcalled, hkey⟩ := mem_instances.mp hk
    rw [← newCallee_of_keyOf hkey]
    exact h.ordinary callee k hcalled hkey hdef f hord
  plain name hnamed hdef hgeneric := by
    obtain ⟨k, hk, rfl⟩ := hgeneric
    obtain ⟨f', hf', hname⟩ := h.plain _ hnamed hdef
    rcases mem_monomorphize.mp hf' with ⟨f, hord, rfl⟩ | ⟨before, k', after, hsplit, _, g, hg, rfl⟩
    · exact absurd hname.symm (hord.2 k hk)
    · exact ⟨k', hsplit ▸ List.mem_append_cons_self, ⟨g, mem_of_definitionOf hg⟩, hname⟩

end

/-- Every call keeps its body, instances are kept apart and plain names still resolve exactly when
the joined names do not collide. -/
theorem monomorphize_resolved_iff (p : IRProgram) : Resolved p ↔ NoCollision p.functions :=
  ⟨Resolved.noCollision, NoCollision.resolved⟩

/-! ## A generic function that is also called plainly -/

def identity : IRFunction :=
  { name := "id", params := [.register 0]
    blocks := [{ label := "entry", instructions := [], terminator := .ret [.register 0] }] }

/-- Calls an instance of `id`, and `id` itself. -/
def callsBoth : IRFunction :=
  { name := "main"
    blocks := [{ label := "entry"
                 instructions := [.call (some (.register 1)) "id<i32>" [.immediate 5] false,
                   .call (some (.register 2)) "id" [.register 1] false]
                 terminator := .ret [.register 2] }] }

theorem monomorphize_callsBoth :
    (monomorphize ⟨[identity, callsBoth]⟩).functions.map (·.name) = ["main", "id_i32"] := by
  decide

/-- The definition of `id` is dropped although it is still called. -/
theorem not_resolved : ¬Resolved ⟨[identity, callsBoth]⟩ := by
  intro h
  have hnamed : Named [identity, callsBoth] "id" :=
    .inl ⟨⟨.call (some (.register 2)) "id" [.register 1] false, by decide, rfl⟩, by decide⟩
  obtain ⟨f, hf, hname⟩ := h.plain "id" hnamed ⟨identity, List.mem_cons_self, rfl⟩
  have hmem := List.mem_map_of_mem (f := (·.name)) hf
  rw [monomorphize_callsBoth, hname] at hmem
  exact absurd hmem (by decide)

end Vuma.Codegen.Mono
