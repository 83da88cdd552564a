import Vuma.IR.Relabel

/-!
# Merging identical functions

`identical_function_merge` of `opt.rs` groups the functions of a program by a summary string, keeps
the first of each group, and redirects the `Call`s and `GetAddress`es of the others to it.

The summary leaves out much of a function: the types, the arguments of calls, the arms of selects, the
kind of casts, jump targets, and every instruction it calls `other`. Entry points are merged like any
function, and the function named by a `TailCall` or `Invoke` is not redirected. What the pass gets
right, and exactly when, is `identicalFunctionMerge_correct`.
-/

namespace Vuma.Opt

open IR

/-! ## The summary -/

/-- `char::escape_debug` as it applies within a string: short escapes, `\u{..}` for the other ASCII
control characters, and printable characters as they are. -/
def escapeDebug (c : Char) : String :=
  match c.toNat with
  | 0 => "\\0"
  | 9 => "\\t"
  | 10 => "\\n"
  | 13 => "\\r"
  | 34 => "\\\""
  | 92 => "\\\\"
  | n =>
    if n < 32 ∨ n = 127 then "\\u\x7b" ++ String.ofList (Nat.toDigits 16 n) ++ "\x7d"
    else String.ofList [c]

/-- `{:?}` of a string. -/
def debugStr (s : String) : String :=
  "\"" ++ String.join (s.toList.map escapeDebug) ++ "\""

/-- `{:?}` of a list, from the `{:?}` of its elements. -/
def debugList (parts : List String) : String := "[" ++ String.intercalate ", " parts ++ "]"

/-- `{:?}` of an option. -/
def debugOption : Option String → String
  | none => "None"
  | some s => "Some(" ++ s ++ ")"

/-- `{:?}` of an operand. -/
def debugValue : IRValue → String
  | .register id => "Register(" ++ toString id ++ ")"
  | .immediate v => "Immediate(" ++ toString v.toInt ++ ")"
  | .address a => "Address(" ++ toString a.toNat ++ ")"
  | .label name => "Label(" ++ debugStr name ++ ")"

/-- `{:?}` of `Option<IRValue>`. -/
def debugOptValue (v : Option IRValue) : String := debugOption (v.map debugValue)

def debugValues (vs : List IRValue) : String := debugList (vs.map debugValue)

mutual
/-- `{:?}` of a type. -/
def debugType : IRType → String
  | .i8 => "I8" | .i16 => "I16" | .i32 => "I32" | .i64 => "I64"
  | .u8 => "U8" | .u16 => "U16" | .u32 => "U32" | .u64 => "U64"
  | .f32 => "F32" | .f64 => "F64" | .ptr => "Ptr" | .void => "Void" | .func => "Func"
  | .struct name fields =>
    "Struct \x7b name: " ++ debugStr name ++ ", fields: " ++ debugList (debugTypes fields) ++ " \x7d"
  | .array element count =>
    "Array \x7b element: " ++ debugType element ++ ", count: " ++ toString count ++ " \x7d"
  | .taggedUnion name tagType maxPayloadSize variantCount =>
    "TaggedUnion \x7b name: " ++ debugStr name ++ ", tag_type: " ++ debugType tagType ++
      ", max_payload_size: " ++ toString maxPayloadSize ++ ", variant_count: " ++
      toString variantCount ++ " \x7d"
  | .channel elem => "Channel(" ++ debugType elem ++ ")"
def debugTypes : List IRType → List String
  | [] => []
  | t :: ts => debugType t :: debugTypes ts
end

def debugBinOp : BinOpKind → String
  | .add => "Add" | .sub => "Sub" | .mul => "Mul"
  | .sdiv => "SDiv" | .udiv => "UDiv" | .srem => "SRem" | .urem => "URem"
  | .and => "And" | .or => "Or" | .xor => "Xor"
  | .shl => "Shl" | .shrL => "ShrL" | .shrA => "ShrA" | .ror => "Ror" | .rol => "Rol"
  | .slt => "SLt" | .sle => "SLe" | .sgt => "SGt" | .sge => "SGe"
  | .ult => "ULt" | .ule => "ULe" | .ugt => "UGt" | .uge => "UGe" | .eq => "Eq" | .ne => "Ne"

def debugCmp : CmpKind → String
  | .eq => "Eq" | .ne => "Ne"
  | .slt => "SLt" | .sle => "SLe" | .sgt => "SGt" | .sge => "SGe"
  | .ult => "ULt" | .ule => "ULe" | .ugt => "UGt" | .uge => "UGe"

/-- Join with colons, as the format strings do. -/
def colons (parts : List String) : String := String.intercalate ":" parts

/-- The part of the summary for one instruction. -/
def instrSummary : IRInstr → String
  | .add dst lhs rhs _ => colons ["add", debugValue dst, debugValue lhs, debugValue rhs]
  | .sub dst lhs rhs _ => colons ["sub", debugValue dst, debugValue lhs, debugValue rhs]
  | .mul dst lhs rhs _ => colons ["mul", debugValue dst, debugValue lhs, debugValue rhs]
  | .div dst lhs rhs _ => colons ["div", debugValue dst, debugValue lhs, debugValue rhs]
  | .binOp op dst lhs rhs _ =>
    colons ["binop", debugBinOp op, debugValue dst, debugValue lhs, debugValue rhs]
  | .cmp kind dst lhs rhs _ =>
    colons ["cmp", debugCmp kind, debugValue dst, debugValue lhs, debugValue rhs]
  | .load dst addr off ty =>
    colons ["load", debugValue dst, debugValue addr, toString off, debugType ty]
  | .store value addr off ty =>
    colons ["store", debugValue value, debugValue addr, toString off, debugType ty]
  | .alloc dst size => colons ["alloc", debugValue dst, toString size]
  | .call dst func args _ => colons ["call", debugOptValue dst, func, toString args.length]
  | .cast _ dst src _ _ => colons ["cast", debugValue dst, debugValue src]
  | .offset dst base off => colons ["offset", debugValue dst, debugValue base, debugValue off]
  | .select dst cond _ _ _ => colons ["select", debugValue dst, debugValue cond]
  | .ret values => colons ["ret", debugValues values]
  | .branch _ => "branch"
  | .condBranch .. => "condbranch"
  | .free _ => "free"
  | .phi .. => "phi"
  | .channelOpen dst elemTy => colons ["chopen", debugValue dst, debugType elemTy]
  | .channelSend ch msg _ => colons ["chsend", debugValue ch, debugValue msg]
  | .channelRecv ch dst _ => colons ["chrecv", debugValue ch, debugValue dst]
  | .channelRecvTimeout ch dst _ ms =>
    colons ["chrecvto", debugValue ch, debugValue dst, toString ms]
  | .channelClose ch => colons ["chclose", debugValue ch]
  | _ => "other"

/-- The part of the summary for a terminator. -/
def terminatorSummary : IRTerminator → String
  | .jump _ => "jmp"
  | .branch cond .. => colons ["br", debugValue cond]
  | .ret values => colons ["ret", debugValues values]
  | .tailCall func args => colons ["tailcall", func, toString args.length]
  | .unreachable => "unreachable"
  | _ => "otherterm"

def computeFunctionHash (f : IRFunction) : String :=
  String.intercalate "|" <|
    ["p" ++ toString f.params.length, "b" ++ toString f.blocks.length] ++
    f.blocks.flatMap fun b =>
      ["i" ++ toString b.instructions.length] ++ b.instructions.map instrSummary ++
        [terminatorSummary b.terminator]

/-! ## The pass -/

/-- `hash_to_func`: the names of the functions with a given summary, in program order. -/
def namesWithHash (p : IRProgram) (hash : String) : List String :=
  (p.functions.filter (fun f => computeFunctionHash f == hash)).map (·.name)

/-- The entries of `merge_map`: the functions of a group but the first, each with the first. -/
def mergeMap (p : IRProgram) : List (String × String) :=
  (p.functions.map computeFunctionHash).dedup.flatMap fun hash =>
    match namesWithHash p hash with
    | [] => []
    | canonical :: names => names.map (·, canonical)

/-- `merge_map.get`. -/
def mergeTarget (p : IRProgram) (name : String) : Option String :=
  ((mergeMap p).find? (fun e => e.1 == name)).map Prod.snd

/-- Redirect the function an instruction refers to. -/
def redirectInstr (target : String → Option String) : IRInstr → IRInstr
  | .call dst func args ext => .call dst ((target func).getD func) args ext
  | .getAddress dst name => .getAddress dst ((target name).getD name)
  | i => i

def redirectFunction (target : String → Option String) (f : IRFunction) : IRFunction :=
  { f with
    blocks := f.blocks.map fun b =>
      { b with instructions := b.instructions.map (redirectInstr target) } }

def identicalFunctionMerge (p : IRProgram) : IRProgram :=
  if (mergeMap p).isEmpty then p
  else
    ⟨(p.functions.map (redirectFunction (mergeTarget p))).filter
      (fun f => !((mergeMap p).map Prod.fst).contains f.name)⟩

/-! ## The canonical function of a group -/

/-- The first function of the program with the summary of `g`. -/
def canonicalOf (p : IRProgram) (g : IRFunction) : Option IRFunction :=
  p.functions.find? (fun f => computeFunctionHash f == computeFunctionHash g)

theorem canonicalOf_mem {p : IRProgram} {f g : IRFunction} (h : canonicalOf p g = some f) :
    f ∈ p.functions ∧ computeFunctionHash f = computeFunctionHash g :=
  ⟨List.mem_of_find?_eq_some h, by simpa using List.find?_some h⟩

/-- The canonical function of a group is its own. -/
theorem canonicalOf_canonical {p : IRProgram} {f g : IRFunction} (h : canonicalOf p g = some f) :
    canonicalOf p f = some f := by
  unfold canonicalOf at h ⊢
  rw [(canonicalOf_mem h).2]
  exact h

theorem exists_canonicalOf {p : IRProgram} {g : IRFunction} (hg : g ∈ p.functions) :
    ∃ f, canonicalOf p g = some f := by
  cases h : canonicalOf p g with
  | some f => exact ⟨f, rfl⟩
  | none => exact absurd (List.find?_eq_none.mp h g hg) (by simp)

theorem redirectFunction_of_isEmpty {p : IRProgram} (h : (mergeMap p).isEmpty) (f : IRFunction) :
    redirectFunction (mergeTarget p) f = f := by
  have htarget : ∀ n, mergeTarget p n = none := by
    intro n
    simp [mergeTarget, List.isEmpty_iff.mp h]
  have hi : ∀ i, redirectInstr (mergeTarget p) i = i := by
    intro i
    cases i <;> simp [redirectInstr, htarget]
  simp [redirectFunction, funext hi]

section

variable {p : IRProgram} (hnd : (p.functions.map (·.name)).Nodup)
include hnd

theorem eq_of_name_eq {f g : IRFunction} (hf : f ∈ p.functions) (hg : g ∈ p.functions)
    (h : f.name = g.name) : f = g :=
  List.inj_on_of_nodup_map hnd hf hg h

theorem mem_mergeMap {n c : String} : (n, c) ∈ mergeMap p ↔
    ∃ g ∈ p.functions, g.name = n ∧ ∃ f, canonicalOf p g = some f ∧ f.name = c ∧ c ≠ n := by
  have hsub : ∀ q : IRFunction → Bool, ((p.functions.filter q).map (·.name)).Nodup :=
    fun q => hnd.sublist (List.filter_sublist.map _)
  simp only [mergeMap, List.mem_flatMap, List.mem_dedup, List.mem_map]
  constructor
  · rintro ⟨hash, ⟨g₀, hg₀, rfl⟩, hmem⟩
    have hs := hsub (fun f => computeFunctionHash f == computeFunctionHash g₀)
    cases hfil : p.functions.filter
        (fun f => computeFunctionHash f == computeFunctionHash g₀) with
    | nil => simp [namesWithHash, hfil] at hmem
    | cons f fs =>
      simp only [namesWithHash, hfil, List.map_cons, List.mem_map, Prod.mk.injEq] at hmem
      obtain ⟨-, ⟨g, hg, rfl⟩, rfl, rfl⟩ := hmem
      rw [hfil, List.map_cons, List.nodup_cons] at hs
      have hg' : g ∈ p.functions.filter
          (fun f => computeFunctionHash f == computeFunctionHash g₀) := by
        rw [hfil]
        exact List.mem_cons_of_mem _ hg
      obtain ⟨hgm, hgh⟩ := List.mem_filter.mp hg'
      refine ⟨g, hgm, rfl, f, ?_, rfl, fun e => hs.1 (e ▸ List.mem_map_of_mem hg)⟩
      rw [canonicalOf, beq_iff_eq.mp hgh, ← List.head?_filter, hfil, List.head?_cons]
  · rintro ⟨g, hg, rfl, f, hf, rfl, hne⟩
    refine ⟨computeFunctionHash g, ⟨g, hg, rfl⟩, ?_⟩
    have hgm : g ∈ p.functions.filter
        (fun f => computeFunctionHash f == computeFunctionHash g) :=
      List.mem_filter.mpr ⟨hg, by simp⟩
    rw [canonicalOf, ← List.head?_filter] at hf
    cases hfil : p.functions.filter
        (fun f => computeFunctionHash f == computeFunctionHash g) with
    | nil => simp [hfil] at hf
    | cons f' fs =>
      rw [hfil, List.head?_cons] at hf
      cases hf
      rw [hfil] at hgm
      simp only [namesWithHash, hfil, List.map_cons, List.mem_map, Prod.mk.injEq]
      rcases List.mem_cons.mp hgm with rfl | hgm
      · exact absurd rfl hne
      · exact ⟨g.name, ⟨g, hgm, rfl⟩, rfl, trivial⟩

theorem mergeTarget_eq_some {n c : String} : mergeTarget p n = some c ↔
    ∃ g ∈ p.functions, g.name = n ∧ ∃ f, canonicalOf p g = some f ∧ f.name = c ∧ c ≠ n := by
  rw [← mem_mergeMap hnd]
  simp only [mergeTarget, Option.map_eq_some_iff]
  constructor
  · rintro ⟨⟨n', c'⟩, hfind, rfl⟩
    obtain rfl : n' = n := by simpa using List.find?_some hfind
    exact List.mem_of_find?_eq_some hfind
  · intro h
    cases hfind : (mergeMap p).find? (fun e => e.1 == n) with
    | none => exact absurd (List.find?_eq_none.mp hfind _ h) (by simp)
    | some e =>
      obtain ⟨n', c'⟩ := e
      obtain rfl : n' = n := by simpa using List.find?_some hfind
      refine ⟨_, rfl, ?_⟩
      -- the name determines the function, and the function its group
      obtain ⟨g, hg, rfl, f, hf, rfl, -⟩ := (mem_mergeMap hnd).mp h
      obtain ⟨g', hg', hname, f', hf', rfl, -⟩ :=
        (mem_mergeMap hnd).mp (List.mem_of_find?_eq_some hfind)
      obtain rfl := eq_of_name_eq hnd hg' hg hname
      rw [hf] at hf'
      cases hf'
      rfl

/-- A function is kept when it is the first of its group. -/
theorem name_mem_removed {g : IRFunction} (hg : g ∈ p.functions) :
    g.name ∈ (mergeMap p).map Prod.fst ↔ canonicalOf p g ≠ some g := by
  constructor
  · intro h hself
    obtain ⟨⟨n, c⟩, hmem, hn⟩ := List.mem_map.mp h
    simp only at hn
    subst hn
    obtain ⟨g', hg', hname, f, hf, rfl, hne⟩ := (mem_mergeMap hnd).mp hmem
    obtain rfl := eq_of_name_eq hnd hg' hg hname
    rw [hself] at hf
    cases hf
    exact hne rfl
  · intro h
    obtain ⟨f, hf⟩ := exists_canonicalOf hg
    refine List.mem_map.mpr
      ⟨(g.name, f.name), (mem_mergeMap hnd).mpr ⟨g, hg, rfl, f, hf, rfl, ?_⟩, rfl⟩
    intro e
    exact h (by rw [hf, eq_of_name_eq hnd (canonicalOf_mem hf).1 hg e])

/-- The functions of the result: those that are the first of their group, redirected. -/
theorem mem_identicalFunctionMerge {h : IRFunction} :
    h ∈ (identicalFunctionMerge p).functions ↔
      ∃ g ∈ p.functions, canonicalOf p g = some g ∧ h = redirectFunction (mergeTarget p) g := by
  have hkept : ∀ g ∈ p.functions,
      g.name ∉ (mergeMap p).map Prod.fst ↔ canonicalOf p g = some g := by
    intro g hg
    rw [name_mem_removed hnd hg, not_not]
  unfold identicalFunctionMerge
  split
  · rename_i hempty
    have hnone : ∀ n, n ∉ (mergeMap p).map Prod.fst := by
      intro n
      simp [List.isEmpty_iff.mp hempty]
    constructor
    · intro hh
      exact ⟨h, hh, (hkept h hh).mp (hnone _), (redirectFunction_of_isEmpty hempty h).symm⟩
    · rintro ⟨g, hg, -, rfl⟩
      rwa [redirectFunction_of_isEmpty hempty]
  · simp only [List.mem_filter, List.mem_map]
    constructor
    · rintro ⟨⟨g, hg, rfl⟩, hname⟩
      exact ⟨g, hg, (hkept g hg).mp (by simpa [redirectFunction] using hname), rfl⟩
    · rintro ⟨g, hg, hself, rfl⟩
      exact ⟨⟨g, hg, rfl⟩, by simpa [redirectFunction] using (hkept g hg).mpr hself⟩

theorem isDefined_identicalFunctionMerge {g : IRFunction} (hg : g ∈ p.functions) :
    (∃ h ∈ (identicalFunctionMerge p).functions, h.name = g.name) ↔ canonicalOf p g = some g := by
  constructor
  · rintro ⟨h, hh, hname⟩
    obtain ⟨g', hg', hself, rfl⟩ := (mem_identicalFunctionMerge hnd).mp hh
    obtain rfl := eq_of_name_eq hnd hg' hg hname
    exact hself
  · intro hself
    exact ⟨_, (mem_identicalFunctionMerge hnd).mpr ⟨g, hg, hself, rfl⟩, rfl⟩

end

/-! ## What the pass is to keep -/

/-- The same results and effects on all arguments, from any registers and world. -/
def SameBehaviour (f g : IRFunction) : Prop :=
  ∀ (M : Machine) (args : List Word) (regs : Regs) (w : World) (n : Nat),
    (f.run M (regs.writes (f.params.zip args)) w n).obs =
      (g.run M (regs.writes (g.params.zip args)) w n).obs

/-- The function a `Call` or `GetAddress` names. -/
def instrCallee : IRInstr → Option String
  | .call _ func _ _ => some func
  | .getAddress _ name => some name
  | _ => none

/-- The function a `TailCall` or `Invoke` names. -/
def terminatorCallee : IRTerminator → Option String
  | .tailCall func _ => some func
  | .invoke _ func .. => some func
  | _ => none

/-- The functions a function refers to. -/
def references (f : IRFunction) : List String :=
  f.blocks.flatMap fun b =>
    b.instructions.filterMap instrCallee ++ (terminatorCallee b.terminator).toList

/-- Some instruction of the program is redirected from the function `g` to the function `f`. -/
structure Redirected (p : IRProgram) (g f : IRFunction) : Prop where
  source : g ∈ p.functions
  target : f ∈ p.functions
  differ : f.name ≠ g.name
  instr : ∃ h ∈ p.functions, ∃ b ∈ h.blocks, ∃ i ∈ b.instructions,
    instrCallee i = some g.name ∧ instrCallee (redirectInstr (mergeTarget p) i) = some f.name

/-- A `Call` or `GetAddress` is redirected only to a function with the same behaviour. -/
def RedirectsSound (p : IRProgram) : Prop := ∀ g f, Redirected p g f → SameBehaviour f g

/-- `main` and `fn_main*`. -/
def isEntryPoint (name : String) : Bool := name == "main" || name.startsWith "fn_main"

/-- The entry points are still defined. -/
def EntriesKept (p : IRProgram) : Prop :=
  ∀ g ∈ p.functions, isEntryPoint g.name →
    ∃ h ∈ (identicalFunctionMerge p).functions, h.name = g.name

/-- No function of the result refers to a function that was removed. -/
def RefsDefined (p : IRProgram) : Prop :=
  ∀ h ∈ (identicalFunctionMerge p).functions, ∀ n ∈ references h,
    (∃ g ∈ p.functions, g.name = n) → ∃ h' ∈ (identicalFunctionMerge p).functions, h'.name = n

/-! ## When it keeps it -/

/-- The same parameters and the same code, up to the names of the blocks. -/
def SameCode (f g : IRFunction) : Prop :=
  f.params = g.params ∧ ∃ ρ : String → String, Function.Injective ρ ∧ g.IsRelabel ρ f

theorem SameCode.sameBehaviour {f g : IRFunction} (h : SameCode f g) : SameBehaviour f g := by
  obtain ⟨hparams, ρ, hρ, hrel⟩ := h
  intro M args regs w n
  rw [hparams]
  exact hrel.run_obs hρ M _ w n

theorem instrCallee_redirectInstr (target : String → Option String) (i : IRInstr) :
    instrCallee (redirectInstr target i) = (instrCallee i).map fun n => (target n).getD n := by
  cases i <;> rfl

theorem mem_references_redirectFunction {target : String → Option String} {f : IRFunction}
    {n : String} : n ∈ references (redirectFunction target f) ↔
      (∃ b ∈ f.blocks, ∃ i ∈ b.instructions, ∃ m, instrCallee i = some m ∧ (target m).getD m = n) ∨
      ∃ b ∈ f.blocks, terminatorCallee b.terminator = some n := by
  simp only [references, redirectFunction, List.mem_flatMap, List.mem_map, List.mem_append,
    List.mem_filterMap, Option.mem_toList]
  constructor
  · rintro ⟨_, ⟨b, hb, rfl⟩, ⟨_, hmap, hn⟩ | hn⟩
    · obtain ⟨i, hi, rfl⟩ := List.mem_map.mp hmap
      rw [instrCallee_redirectInstr, Option.map_eq_some_iff] at hn
      obtain ⟨m, hm, hn⟩ := hn
      exact Or.inl ⟨b, hb, i, hi, m, hm, hn⟩
    · exact Or.inr ⟨b, hb, hn⟩
  · rintro (⟨b, hb, i, hi, m, hm, hn⟩ | ⟨b, hb, hn⟩)
    · refine ⟨_, ⟨b, hb, rfl⟩, Or.inl ⟨_, List.mem_map_of_mem hi, ?_⟩⟩
      rw [instrCallee_redirectInstr, hm, Option.map_some, hn]
    · exact ⟨_, ⟨b, hb, rfl⟩, Or.inr hn⟩

/-- A redirected name is the name of the first function of a group, if of a function at all. -/
theorem canonicalOf_of_redirect {p : IRProgram} (hnd : (p.functions.map (·.name)).Nodup)
    {m : String} {g : IRFunction} (hg : g ∈ p.functions)
    (hname : g.name = (mergeTarget p m).getD m) : canonicalOf p g = some g := by
  cases htarget : mergeTarget p m with
  | some c =>
    obtain ⟨_, _, _, f, hf, rfl, _⟩ := (mergeTarget_eq_some hnd).mp htarget
    rw [htarget, Option.getD_some] at hname
    obtain rfl := eq_of_name_eq hnd hg (canonicalOf_mem hf).1 hname
    exact canonicalOf_canonical hf
  | none =>
    rw [htarget, Option.getD_none] at hname
    obtain ⟨f, hf⟩ := exists_canonicalOf hg
    -- a function that is not the first of its group is in the map
    have hsame : f.name = g.name := by
      by_contra hne
      have := (mergeTarget_eq_some hnd).mpr ⟨g, hg, hname, f, hf, rfl, hname ▸ hne⟩
      rw [htarget] at this
      cases this
    rw [hf, eq_of_name_eq hnd (canonicalOf_mem hf).1 hg hsame]

theorem Redirected.canonicalOf {p : IRProgram} (hnd : (p.functions.map (·.name)).Nodup)
    {g f : IRFunction} (h : Redirected p g f) : canonicalOf p g = some f := by
  obtain ⟨_, _, _, _, i, _, hi, hi'⟩ := h.instr
  rw [instrCallee_redirectInstr, hi, Option.map_some, Option.some_inj] at hi'
  cases htarget : mergeTarget p g.name with
  | none =>
    rw [htarget, Option.getD_none] at hi'
    exact absurd hi'.symm h.differ
  | some c =>
    rw [htarget, Option.getD_some] at hi'
    subst hi'
    obtain ⟨g', hg', hname, f', hf', hfn, -⟩ := (mergeTarget_eq_some hnd).mp htarget
    obtain rfl := eq_of_name_eq hnd hg' h.source hname
    rwa [← eq_of_name_eq hnd (canonicalOf_mem hf').1 h.target hfn]

theorem refsDefined_iff {p : IRProgram} (hnd : (p.functions.map (·.name)).Nodup) :
    RefsDefined p ↔ ∀ h ∈ p.functions, canonicalOf p h = some h → ∀ b ∈ h.blocks,
      ∀ g ∈ p.functions, terminatorCallee b.terminator = some g.name →
        canonicalOf p g = some g := by
  constructor
  · intro hrefs h hh hself b hb g hg hcallee
    rw [← isDefined_identicalFunctionMerge hnd hg]
    exact hrefs _ ((mem_identicalFunctionMerge hnd).mpr ⟨h, hh, hself, rfl⟩) g.name
      (mem_references_redirectFunction.mpr (Or.inr ⟨b, hb, hcallee⟩)) ⟨g, hg, rfl⟩
  · rintro hterm h' hh' n hn ⟨g, hg, rfl⟩
    rw [isDefined_identicalFunctionMerge hnd hg]
    obtain ⟨h, hh, hself, rfl⟩ := (mem_identicalFunctionMerge hnd).mp hh'
    rcases mem_references_redirectFunction.mp hn with ⟨-, -, i, -, m, -, hm⟩ | ⟨b, hb, hcallee⟩
    · exact canonicalOf_of_redirect hnd hg hm.symm
    · exact hterm h hh hself b hb g hg hcallee

/-- Redirection is right when every function that a `Call` or `GetAddress` names has the code of the
first function with its summary; entry points stay exactly when each is the first with its summary;
and no name is left dangling exactly when the tail calls and invokes of the functions that stay name
functions that stay. -/
theorem identicalFunctionMerge_correct (p : IRProgram)
    (hnd : (p.functions.map (·.name)).Nodup) :
    ((∀ g ∈ p.functions, ∀ h ∈ p.functions, ∀ b ∈ h.blocks, ∀ i ∈ b.instructions,
        instrCallee i = some g.name → ∀ f, canonicalOf p g = some f → f ≠ g → SameCode f g) →
      RedirectsSound p) ∧
    (EntriesKept p ↔
      ∀ g ∈ p.functions, isEntryPoint g.name → canonicalOf p g = some g) ∧
    (RefsDefined p ↔ ∀ h ∈ p.functions, canonicalOf p h = some h → ∀ b ∈ h.blocks,
      ∀ g ∈ p.functions, terminatorCallee b.terminator = some g.name →
        canonicalOf p g = some g) := by
  refine ⟨fun hcode g f hr => ?_, ?_, refsDefined_iff hnd⟩
  · obtain ⟨h, hh, b, hb, i, hi, hcallee, -⟩ := hr.instr
    exact (hcode g hr.source h hh b hb i hi hcallee f (hr.canonicalOf hnd)
      (fun e => hr.differ (e ▸ rfl))).sameBehaviour
  · refine forall_congr' fun g => forall_congr' fun hg => forall_congr' fun _ => ?_
    exact isDefined_identicalFunctionMerge hnd hg

/-- A function of one block. -/
def oneBlock (name : String) (instructions : List IRInstr) (terminator : IRTerminator) :
    IRFunction :=
  { name, blocks := [⟨"entry", instructions, terminator, [], []⟩] }

/-- Two functions with the same code, called in turn. -/
def twins : IRProgram :=
  ⟨[oneBlock "main" [.call none "a" [] false, .call none "b" [] false] (.ret []),
    oneBlock "a" [] (.ret [.immediate 1]), oneBlock "b" [] (.ret [.immediate 1])]⟩

theorem identicalFunctionMerge_twins :
    (identicalFunctionMerge twins).functions.map (·.name) = ["main", "a"] ∧
      RedirectsSound twins ∧ EntriesKept twins ∧ RefsDefined twins := by
  obtain ⟨hredirects, hentries, hrefs⟩ := identicalFunctionMerge_correct twins (by decide)
  refine ⟨by decide +kernel, hredirects ?_, hentries.mpr (by decide +kernel),
    hrefs.mpr (by decide +kernel)⟩
  intro g hg h hh b hb i hi hcallee f hf hne
  have hsame : ∀ g ∈ twins.functions, g.name ≠ "main" → ∀ f ∈ twins.functions,
      canonicalOf twins g = some f → f.params = g.params ∧ f.blocks = g.blocks := by
    decide +kernel
  have hmain : ∀ h ∈ twins.functions, ∀ b ∈ h.blocks, ∀ i ∈ b.instructions,
      instrCallee i ≠ some "main" := by
    decide
  obtain ⟨hparams, hblocks⟩ := hsame g hg
    (fun e => hmain h hh b hb i hi (by rw [hcallee, e])) f (canonicalOf_mem hf).1 hf
  refine ⟨hparams, id, Function.injective_id, ?_⟩
  have hid := g.isRelabel_id
  rwa [IRFunction.IsRelabel, ← hblocks] at hid ⊢

/-- Negation and complement have the same summary. -/
def negNot : IRProgram :=
  ⟨[oneBlock "a" [.unaryOp .neg (.register 0) (.immediate 1) none] (.ret [.register 0]),
    oneBlock "b" [.unaryOp .not (.register 0) (.immediate 1) none] (.ret [.register 0]),
    oneBlock "main" [.call none "b" [] false] (.ret [])]⟩

/-- An entry point after a function with the same code. -/
def lateMain : IRProgram := ⟨[oneBlock "stub" [] (.ret []), oneBlock "main" [] (.ret [])]⟩

/-- Two functions that end in a tail call of the second. -/
def tailCalls : IRProgram :=
  ⟨[oneBlock "a" [] (.tailCall "b" []), oneBlock "b" [] (.tailCall "b" [])]⟩

/-- `negNot` redirects a call of the complement to the negation, `lateMain` loses its entry point, and
`tailCalls` keeps a tail call of a function it has removed. -/
theorem identicalFunctionMerge_unsound :
    ¬ RedirectsSound negNot ∧ ¬ EntriesKept lateMain ∧ ¬ RefsDefined tailCalls := by
  refine ⟨fun h => ?_, ?_, ?_⟩
  · have hr : Redirected negNot
        (oneBlock "b" [.unaryOp .not (.register 0) (.immediate 1) none] (.ret [.register 0]))
        (oneBlock "a" [.unaryOp .neg (.register 0) (.immediate 1) none] (.ret [.register 0])) :=
      ⟨by decide, by decide, by decide, by decide +kernel⟩
    -- the negation of 1 is `-1`, its complement `-2`
    have := congrArg Prod.fst (h _ _ hr default [] (fun _ => 0) ⟨fun _ => 0, []⟩ 1)
    revert this
    decide
  · unfold EntriesKept
    decide +kernel
  · unfold RefsDefined
    decide +kernel

end Vuma.Opt
