import Vuma.IR.Program
import Vuma.IR.Lockstep

/-!
# Constant propagation across functions

`cross_function_constant_prop` of `opt.rs`. Function by function, it looks at the `Call`s of the
program to the function; where all of them that have an argument at some position have the same
immediate there, it puts the immediate in place of the parameter throughout the instructions of the
function. Invokes, tail calls, indirect calls and entry points are not looked at, terminators keep
the parameter, and nothing asks whether the register of the parameter is written.
-/

namespace Vuma.Opt

open IR

/-! ## Substitution in an instruction -/

/-- `sub` of `substitute_vreg_in_instr`. -/
def subValue (old : VReg) (new : IRValue) : IRValue → IRValue
  | .register r => if r = old then new else .register r
  | v => v

/-- The operands that `substitute_vreg_in_instr` looks at. The destinations of `ChannelOpen`,
`ChannelRecv` and `ChannelRecvTimeout` are among them. -/
def substituteOperands (sub : IRValue → IRValue) : IRInstr → IRInstr
  | .binOp op dst lhs rhs ty => .binOp op dst (sub lhs) (sub rhs) ty
  | .add dst lhs rhs ty => .add dst (sub lhs) (sub rhs) ty
  | .sub dst lhs rhs ty => .sub dst (sub lhs) (sub rhs) ty
  | .mul dst lhs rhs ty => .mul dst (sub lhs) (sub rhs) ty
  | .div dst lhs rhs ty => .div dst (sub lhs) (sub rhs) ty
  | .cmp kind dst lhs rhs ty => .cmp kind dst (sub lhs) (sub rhs) ty
  | .unaryOp op dst operand ty => .unaryOp op dst (sub operand) ty
  | .load dst addr off ty => .load dst (sub addr) off ty
  | .store value addr off ty => .store (sub value) (sub addr) off ty
  | .offset dst base off => .offset dst (sub base) (sub off)
  | .cast kind dst src fromTy toTy => .cast kind dst (sub src) fromTy toTy
  | .select dst cond t f ty => .select dst (sub cond) (sub t) (sub f) ty
  | .call dst func args ext => .call dst func (args.map sub) ext
  | .phi dst incoming => .phi dst (incoming.map fun e => (sub e.1, e.2))
  | .atomicLoad dst addr ty => .atomicLoad dst (sub addr) ty
  | .atomicStore value addr ty => .atomicStore (sub value) (sub addr) ty
  | .atomicCas dst addr expected desired ty =>
    .atomicCas dst (sub addr) (sub expected) (sub desired) ty
  | .syscall nr args dst => .syscall nr (args.map sub) dst
  | .ctSelect dst cond t f ty => .ctSelect dst (sub cond) (sub t) (sub f) ty
  | .ctEq dst lhs rhs ty => .ctEq dst (sub lhs) (sub rhs) ty
  | .ret values => .ret (values.map sub)
  | .condBranch cond t f => .condBranch (sub cond) t f
  | .free ptr => .free (sub ptr)
  | .channelOpen dst elemTy => .channelOpen (sub dst) elemTy
  | .channelSend ch msg ty => .channelSend (sub ch) (sub msg) ty
  | .channelRecv ch dst ty => .channelRecv (sub ch) (sub dst) ty
  | .channelRecvTimeout ch dst ty ms => .channelRecvTimeout (sub ch) (sub dst) ty ms
  | .channelClose ch => .channelClose (sub ch)
  | i => i

def substituteVregInInstr (old : VReg) (new : IRValue) (i : IRInstr) : IRInstr :=
  substituteOperands (subValue old new) i

/-! ## The pass -/

/-- `call_args`: the arguments of the `Call`s to a function. -/
def callArgs (p : IRProgram) (fname : String) : List (List IRValue) :=
  p.functions.flatMap fun caller => caller.blocks.flatMap fun b =>
    b.instructions.filterMap fun i =>
      match i with
      | .call _ func args _ => if func = fname then some args else none
      | _ => none

/-- The immediate that all arguments are, if there is one. -/
def commonImmediate : List IRValue → Option Word
  | .immediate first :: rest => if rest.all (· = .immediate first) then some first else none
  | _ => none

/-- `const_params`, with the register of the parameter in place of its position. Parameters that are
not registers are passed over. -/
def constParams (p : IRProgram) (f : IRFunction) : List (VReg × Word) :=
  f.params.zipIdx.filterMap fun (param, pos) => do
    let c ← commonImmediate ((callArgs p f.name).filterMap (·[pos]?))
    let r ← param.asRegister
    return (r, c)

/-- Put the constants in place of the parameters in one instruction. -/
def propagateInstr (consts : List (VReg × Word)) (i : IRInstr) : IRInstr :=
  consts.foldl (fun i c => substituteVregInInstr c.1 (.immediate c.2) i) i

def propagateFunction (consts : List (VReg × Word)) (f : IRFunction) : IRFunction :=
  f.mapBlocks fun b => { b with instructions := b.instructions.map (propagateInstr consts) }

/-- Change the first function with a name. -/
def modifyNamed (name : String) (g : IRFunction → IRFunction) :
    List IRFunction → List IRFunction
  | [] => []
  | f :: fs => if f.name = name then g f :: fs else f :: modifyNamed name g fs

/-- One round of the loop over the functions. -/
def propagateInto (p : IRProgram) (fname : String) : IRProgram :=
  ⟨modifyNamed fname (fun f => propagateFunction (constParams p f) f) p.functions⟩

def crossFunctionConstantProp (p : IRProgram) : IRProgram :=
  (p.functions.map (·.name)).foldl propagateInto p

end Vuma.Opt

/-!
# What constant propagation across functions preserves

A program and the program with the constants in place go through the same states but for the code
of the activations, as long as every parameter that is replaced where it is read holds the constant
there. That is so for activations that were entered with the constant, by whatever kind of call, and
have not written to the parameter.
-/

namespace Vuma.Opt

open IR

/-! ## One instruction -/

/-- The registers read in operands that are replaced, except by a `Phi`. -/
def replacedUses : IRInstr → List VReg
  | .vectorOp .. | .channelRecvResult .. | .starkProof .. | .callIndirect .. | .bulkCopy ..
  | .bulkFill .. | .transform .. | .phi .. => []
  | i => i.usedRegs

/-- The register that a `Phi` reads on the edge on which its block was entered. -/
def phiSource (pred : Option String) : IRInstr → Option VReg
  | .phi _ incoming => (incoming.find? fun e => some e.2 == pred).bind (·.1.asRegister)
  | _ => none

/-- The destinations that are replaced. -/
def replacedDsts : IRInstr → List VReg
  | .channelOpen dst _ | .channelRecv _ dst _ | .channelRecvTimeout _ dst .. => dst.regs
  | _ => []

/-- The parameters that are replaced in an instruction hold the constants when it is executed. -/
def ConstsHold (consts : List (VReg × Word)) (σ edge : Regs) (pred : Option String)
    (i : IRInstr) : Prop :=
  ∀ c ∈ consts, (c.1 ∈ replacedUses i → σ c.1 = c.2) ∧
    (phiSource pred i = some c.1 → edge c.1 = c.2) ∧ c.1 ∉ replacedDsts i

instance (consts : List (VReg × Word)) (σ edge : Regs) (pred : Option String) (i : IRInstr) :
    Decidable (ConstsHold consts σ edge pred i) :=
  inferInstanceAs (Decidable (∀ c ∈ consts, _))

/-- All substitutions in one operand. -/
def propagateValue (consts : List (VReg × Word)) (v : IRValue) : IRValue :=
  consts.foldl (fun v c => subValue c.1 (.immediate c.2) v) v

theorem substituteOperands_comp (g h : IRValue → IRValue) (i : IRInstr) :
    substituteOperands g (substituteOperands h i) = substituteOperands (g ∘ h) i := by
  cases i <;> simp [substituteOperands]

theorem substituteOperands_id (i : IRInstr) : substituteOperands id i = i := by
  cases i <;> simp [substituteOperands]

theorem propagateInstr_eq (consts : List (VReg × Word)) (i : IRInstr) :
    propagateInstr consts i = substituteOperands (propagateValue consts) i := by
  induction consts generalizing i with
  | nil => exact (substituteOperands_id i).symm
  | cons c consts ih =>
    calc propagateInstr (c :: consts) i
        = propagateInstr consts (substituteOperands (subValue c.1 (.immediate c.2)) i) := rfl
      _ = substituteOperands (propagateValue consts)
            (substituteOperands (subValue c.1 (.immediate c.2)) i) := ih _
      _ = substituteOperands (propagateValue (c :: consts)) i := substituteOperands_comp _ _ i

theorem subValue_of_not_mem {old : VReg} {new v : IRValue} (h : old ∉ v.regs) :
    subValue old new v = v := by
  cases v with
  | register r =>
    have hne : r ≠ old := fun he => h (by rw [he]; simp)
    exact if_neg hne
  | _ => rfl

theorem propagateValue_of_not_mem {consts : List (VReg × Word)} {v : IRValue}
    (h : ∀ c ∈ consts, c.1 ∉ v.regs) : propagateValue consts v = v := by
  induction consts with
  | nil => rfl
  | cons c consts ih =>
    rw [propagateValue, List.foldl_cons, subValue_of_not_mem (h c List.mem_cons_self)]
    exact ih fun d hd => h d (List.mem_cons_of_mem _ hd)

theorem propagateValue_immediate (consts : List (VReg × Word)) (c : Word) :
    propagateValue consts (.immediate c) = .immediate c :=
  propagateValue_of_not_mem fun _ _ h => absurd h List.not_mem_nil

/-- A replaced operand has the value of the original one. -/
theorem eval_propagateValue (M : Machine) {consts : List (VReg × Word)} {σ : Regs} {v : IRValue}
    (h : ∀ c ∈ consts, c.1 ∈ v.regs → σ c.1 = c.2) :
    (propagateValue consts v).eval M σ = v.eval M σ := by
  induction consts with
  | nil => rfl
  | cons c consts ih =>
    by_cases hc : c.1 ∈ v.regs
    · obtain ⟨r, rfl, rfl⟩ : ∃ r, v = .register r ∧ c.1 = r := by
        cases v with
        | register r => exact ⟨r, rfl, by simpa using hc⟩
        | _ => cases hc
      rw [propagateValue, List.foldl_cons, subValue, if_pos rfl]
      exact (congrArg (·.eval M σ) (propagateValue_immediate consts c.2)).trans
        (h c List.mem_cons_self hc).symm
    · rw [propagateValue, List.foldl_cons, subValue_of_not_mem hc]
      exact ih fun d hd => h d (List.mem_cons_of_mem _ hd)

section

variable (M : Machine) {consts : List (VReg × Word)} {σ edge : Regs} {pred : Option String}
  {i : IRInstr} (h : ConstsHold consts σ edge pred i)
include h

theorem eval_replaced {v : IRValue} (hv : ∀ r ∈ v.regs, r ∈ replacedUses i) :
    (propagateValue consts v).eval M σ = v.eval M σ :=
  eval_propagateValue M fun c hc hr => (h c hc).1 (hv _ hr)

theorem map_eval_replaced (vs : List IRValue)
    (hvs : ∀ r ∈ vs.filterMap IRValue.asRegister, r ∈ replacedUses i) :
    (vs.map (propagateValue consts)).map (·.eval M σ) = vs.map (·.eval M σ) := by
  rw [List.map_map]
  refine List.map_congr_left fun v hv => eval_replaced M h fun r hr => hvs r ?_
  exact List.mem_filterMap.mpr ⟨v, hv, by rw [IRValue.mem_regs.mp hr]; rfl⟩

theorem effect_propagateInstr (w : World) :
    (propagateInstr consts i).effect M (·.eval M σ) (·.eval M edge) pred w =
      i.effect M (·.eval M σ) (·.eval M edge) pred w := by
  have hev : ∀ v : IRValue, (∀ r ∈ v.regs, r ∈ replacedUses i) →
      (propagateValue consts v).eval M σ = v.eval M σ := fun v => eval_replaced M h
  have hvs := map_eval_replaced M h
  have hdst : ∀ v : IRValue, (∀ r ∈ v.regs, r ∈ replacedDsts i) → propagateValue consts v = v :=
    fun v hv => propagateValue_of_not_mem fun c hc hr => (h c hc).2.2 (hv _ hr)
  rw [propagateInstr_eq]
  cases i with
  | phi dst incoming =>
    have hfind : (incoming.map fun e => (propagateValue consts e.1, e.2)).find?
        (fun e => some e.2 == pred) =
        (incoming.find? fun e => some e.2 == pred).map fun e => (propagateValue consts e.1, e.2) := by
      rw [List.find?_map]
      rfl
    simp only [substituteOperands, IRInstr.effect, hfind]
    cases hf : incoming.find? (fun e => some e.2 == pred) with
    | none => rfl
    | some e =>
      have hedge : (propagateValue consts e.1).eval M edge = e.1.eval M edge := by
        refine eval_propagateValue M fun c hc hr => (h c hc).2.1 ?_
        rw [phiSource, hf, Option.bind_some, IRValue.mem_regs.mp hr]
        rfl
      simp only [Option.map_some, hedge]
  | call dst func args ext =>
    rw [substituteOperands, IRInstr.effect, hvs args fun r hr => hr, IRInstr.effect]
  | syscall nr args dst =>
    rw [substituteOperands, IRInstr.effect, hvs args fun r hr => hr, IRInstr.effect]
  | ret values =>
    rw [substituteOperands, IRInstr.effect, hvs values fun r hr => hr, IRInstr.effect]
  | channelOpen dst elemTy => rw [substituteOperands, hdst dst fun r hr => hr]
  | channelRecv ch dst ty | channelRecvTimeout ch dst ty ms =>
    rw [substituteOperands, hdst dst fun r hr => hr, IRInstr.effect, hev ch fun r hr => hr,
      IRInstr.effect]
  | vectorOp | channelRecvResult | starkProof | callIndirect | bulkCopy | bulkFill | transform
  | alloc | getAddress | branch => rfl
  | _ =>
    simp only [replacedUses, IRInstr.usedRegs, List.mem_append] at hev
    simp (disch := (intro r hr; simp [hr])) only [substituteOperands, IRInstr.effect, hev]

end

/-! ## Programs with changed code -/

/-- The function with the constants in place, if it has the name. -/
def propagateNamed (fname : String) (consts : List (VReg × Word)) (f : IRFunction) : IRFunction :=
  if f.name = fname then propagateFunction consts f else f

/-- The activation with the constants in its code, if it is one of the function with the name. -/
def propagateFrame (fname : String) (consts : List (VReg × Word)) (fr : Frame) : Frame :=
  { fr with
    func := propagateNamed fname consts fr.func
    rest := if fr.func.name = fname then fr.rest.map (propagateInstr consts) else fr.rest }

def propagateCallers (fname : String) (consts : List (VReg × Word))
    (callers : List (Frame × Resume)) : List (Frame × Resume) :=
  callers.map fun c => (propagateFrame fname consts c.1, c.2)

/-- The state with the constants in the code of all activations. -/
def propagateState (fname : String) (consts : List (VReg × Word)) : ProgramState → ProgramState
  | .running fr callers w =>
    .running (propagateFrame fname consts fr) (propagateCallers fname consts callers) w
  | .done o w => .done o w

section

variable {fname : String} {consts : List (VReg × Word)}

theorem name_propagateFunction (consts : List (VReg × Word)) (f : IRFunction) :
    (propagateFunction consts f).name = f.name := rfl

theorem name_propagateNamed (f : IRFunction) : (propagateNamed fname consts f).name = f.name := by
  unfold propagateNamed
  split <;> rfl

theorem obs_propagateState (s : ProgramState) : (propagateState fname consts s).obs = s.obs := by
  cases s <;> rfl

theorem goto_propagateFrame (fr : Frame) (callers : List (Frame × Resume)) (target : String)
    (pred : Option String) (regs : Regs) (w : World) :
    (propagateFrame fname consts fr).goto (propagateCallers fname consts callers) target pred regs w =
      propagateState fname consts (fr.goto callers target pred regs w) := by
  unfold Frame.goto propagateFrame propagateNamed
  by_cases hname : fr.func.name = fname
  · have hblock : (propagateFunction consts fr.func).blockAt target =
        (fr.func.blockAt target).map fun b =>
          { b with instructions := b.instructions.map (propagateInstr consts) } :=
      IRFunction.blockAt_of_map (g := fun b : IRBlock =>
        { b with instructions := b.instructions.map (propagateInstr consts) })
      rfl (fun _ => rfl) target
    simp only [if_pos hname, hblock]
    cases fr.func.blockAt target with
    | none => rfl
    | some b => simp [propagateState, propagateFrame, propagateNamed, hname]
  · simp only [if_neg hname]
    cases fr.func.blockAt target with
    | none => rfl
    | some b => simp [propagateState, propagateFrame, propagateNamed, hname]

theorem returnTo_propagate (callers : List (Frame × Resume)) (vs : List Word) (w : World) :
    returnTo (propagateCallers fname consts callers) vs w =
      propagateState fname consts (returnTo callers vs w) := by
  cases callers with
  | nil => rfl
  | cons c callers =>
    obtain ⟨fr, resume⟩ := c
    cases resume with
    | call dst => rfl
    | invoke dst normal unwind => exact goto_propagateFrame fr callers _ _ _ _

theorem unwindTo_propagate (v : Word) (w : World) (callers : List (Frame × Resume)) :
    unwindTo v w (propagateCallers fname consts callers) =
      propagateState fname consts (unwindTo v w callers) := by
  induction callers with
  | nil => rfl
  | cons c callers ih =>
    obtain ⟨fr, resume⟩ := c
    cases resume with
    | call dst => exact ih
    | invoke dst normal unwind => exact goto_propagateFrame fr callers _ _ _ _

theorem leave_propagate (fr : Frame) (callers : List (Frame × Resume)) (c : Config) :
    (propagateFrame fname consts fr).leave (propagateCallers fname consts callers) c =
      propagateState fname consts (fr.leave callers c) := by
  cases c with
  | enter target pred regs w => exact goto_propagateFrame fr callers _ _ _ _
  | done o w =>
    cases o with
    | returned vs => exact returnTo_propagate callers vs w
    | unwound v => exact unwindTo_propagate v w callers
    | _ => rfl

theorem enter_propagate (P : Platform) (f : IRFunction) (args : List Word)
    (callers : List (Frame × Resume)) (w : World) :
    IRProgram.enter P (propagateNamed fname consts f) args (propagateCallers fname consts callers) w =
      propagateState fname consts (IRProgram.enter P f args callers w) := by
  unfold IRProgram.enter propagateNamed
  by_cases hname : f.name = fname
  · rw [if_pos hname]
    cases hb : f.blocks with
    | nil => simp [propagateFunction, IRFunction.mapBlocks, hb, propagateState]
    | cons b bs =>
      simp [propagateFunction, IRFunction.mapBlocks, hb, propagateState, propagateFrame,
        propagateNamed, hname]
  · rw [if_neg hname]
    cases hb : f.blocks with
    | nil => rfl
    | cons b bs => simp [propagateState, propagateFrame, propagateNamed, hname]

end

/-! ## One round -/

/-- The constants that a round puts in place. -/
def roundConsts (p : IRProgram) (fname : String) : List (VReg × Word) :=
  match p.functionNamed fname with
  | some f => constParams p f
  | none => []

/-- A round changes the first function with the name. -/
theorem modifyNamed_congr {name : String} {g g' : IRFunction → IRFunction} {fs : List IRFunction}
    (h : ∀ f, fs.find? (·.name == name) = some f → g f = g' f) :
    modifyNamed name g fs = modifyNamed name g' fs := by
  induction fs with
  | nil => rfl
  | cons f fs ih =>
    rw [modifyNamed, modifyNamed]
    by_cases hname : f.name = name
    · rw [if_pos hname, if_pos hname, h f (List.find?_cons_of_pos (by simpa using hname))]
    · rw [if_neg hname, if_neg hname, ih fun k hk => h k ?_]
      rwa [List.find?_cons_of_neg (by simpa using hname)]

theorem propagateInto_eq (p : IRProgram) (fname : String) :
    propagateInto p fname =
      ⟨modifyNamed fname (propagateFunction (roundConsts p fname)) p.functions⟩ := by
  refine congrArg IRProgram.mk (modifyNamed_congr fun f hf => ?_)
  have hnamed : p.functionNamed fname = some f := hf
  rw [roundConsts, hnamed]

theorem find_modifyNamed {name : String} {g : IRFunction → IRFunction}
    (hg : ∀ f, (g f).name = f.name) (q : String → Bool) (fs : List IRFunction) :
    (modifyNamed name g fs).find? (fun f => q f.name) =
      (fs.find? fun f => q f.name).map fun f => if f.name = name then g f else f := by
  induction fs with
  | nil => rfl
  | cons f fs ih =>
    rw [modifyNamed]
    by_cases hname : f.name = name
    · rw [if_pos hname, List.find?_cons, List.find?_cons, hg f]
      cases hq : q f.name with
      | true => rw [Option.map_some, if_pos hname]
      | false =>
        -- no later function with this name is found either
        cases hfind : fs.find? fun f => q f.name with
        | none => rfl
        | some k =>
          have hk := List.find?_some (p := fun f : IRFunction => q f.name) hfind
          have hne : k.name ≠ name := by
            intro he
            rw [he, ← hname, hq] at hk
            cases hk
          rw [Option.map_some, if_neg hne]
    · rw [if_neg hname, List.find?_cons, List.find?_cons]
      cases q f.name with
      | true => rw [Option.map_some, if_neg hname]
      | false => exact ih

section

variable (p : IRProgram) (P : Platform) (fname : String)

theorem functionNamed_propagateInto (name : String) :
    (propagateInto p fname).functionNamed name =
      (p.functionNamed name).map (propagateNamed fname (roundConsts p fname)) := by
  rw [propagateInto_eq]
  exact find_modifyNamed (name_propagateFunction _) (· == name) p.functions

theorem functionAt_propagateInto (addr : Word) :
    (propagateInto p fname).functionAt P addr =
      (p.functionAt P addr).map (propagateNamed fname (roundConsts p fname)) := by
  rw [propagateInto_eq]
  exact find_modifyNamed (name_propagateFunction _) (P.machine.symAddr · == addr) p.functions

/-- At this point of a run, the parameters that the round replaces in the instruction to be executed
hold the constants. -/
def ConstsHoldAt : ProgramState → Prop
  | .running fr _ _ =>
    fr.func.name = fname →
      ∀ i ∈ fr.rest.head?, ConstsHold (roundConsts p fname) fr.regs fr.edge fr.pred i
  | .done _ _ => True

instance (s : ProgramState) : Decidable (ConstsHoldAt p fname s) :=
  match s with
  | .running fr _ _ => inferInstanceAs (Decidable (fr.func.name = fname →
      ∀ i ∈ fr.rest.head?, ConstsHold (roundConsts p fname) fr.regs fr.edge fr.pred i))
  | .done _ _ => inferInstanceAs (Decidable True)

theorem callOf_propagateInto (ev : IRValue → Word) (i : IRInstr) :
    (propagateInto p fname).callOf P ev i =
      (p.callOf P ev i).map fun c => (propagateNamed fname (roundConsts p fname) c.1, c.2) := by
  cases i with
  | call dst func args ext =>
    simp only [IRProgram.callOf, functionNamed_propagateInto]
    cases p.functionNamed func <;> rfl
  | callIndirect dst funcPtr args =>
    simp only [IRProgram.callOf, functionAt_propagateInto]
    cases p.functionAt P (ev funcPtr) <;> rfl
  | _ => rfl

theorem callOf_propagateInstr (M : Machine) {consts : List (VReg × Word)} {σ edge : Regs}
    {pred : Option String} {i : IRInstr} (h : ConstsHold consts σ edge pred i) :
    p.callOf P (·.eval M σ) (propagateInstr consts i) = p.callOf P (·.eval M σ) i := by
  rw [propagateInstr_eq]
  cases i with
  | call dst func args ext =>
    simp only [substituteOperands, IRProgram.callOf]
    rw [map_eval_replaced M h args fun r hr => hr]
  | _ => rfl

theorem stepInstr_propagateInto (fr : Frame) (callers : List (Frame × Resume)) (w : World)
    (i : IRInstr) (rest : List IRInstr)
    (h : fr.func.name = fname → ConstsHold (roundConsts p fname) fr.regs fr.edge fr.pred i) :
    (propagateInto p fname).stepInstr P (propagateFrame fname (roundConsts p fname) fr)
        (propagateCallers fname (roundConsts p fname) callers) w
        (if fr.func.name = fname then propagateInstr (roundConsts p fname) i else i)
        (if fr.func.name = fname then rest.map (propagateInstr (roundConsts p fname)) else rest) =
      propagateState fname (roundConsts p fname) (p.stepInstr P fr callers w i rest) := by
  have hname : (propagateFrame fname (roundConsts p fname) fr).func.name = fr.func.name :=
    name_propagateNamed fr.func
  have hlen : (propagateCallers fname (roundConsts p fname) callers).length = callers.length :=
    List.length_map _
  unfold IRProgram.stepInstr
  rw [hname, hlen]
  extract_lets M
  have hcall : (propagateInto p fname).callOf P (·.eval M fr.regs)
      (if fr.func.name = fname then propagateInstr (roundConsts p fname) i else i) =
      (p.callOf P (·.eval M fr.regs) i).map
        fun c => (propagateNamed fname (roundConsts p fname) c.1, c.2) := by
    rw [callOf_propagateInto]
    split
    · next hf => rw [callOf_propagateInstr p P M (h hf)]
    · rfl
  have heff : (if fr.func.name = fname then propagateInstr (roundConsts p fname) i else i).effect M
      (·.eval M fr.regs) (·.eval M fr.edge) fr.pred w =
      i.effect M (·.eval M fr.regs) (·.eval M fr.edge) fr.pred w := by
    split
    · next hf => exact effect_propagateInstr M (h hf) w
    · rfl
  dsimp only [propagateFrame]
  rw [hcall]
  cases p.callOf P (·.eval M fr.regs) i with
  | some c => exact enter_propagate P c.1 c.2.1 (({ fr with rest := rest }, .call c.2.2) :: callers) w
  | none =>
    dsimp only
    rw [heff]
    cases (i.effect M (·.eval M fr.regs) (·.eval M fr.edge) fr.pred w).flow fr.label fr.regs with
    | stay regs w => rfl
    | leave c => exact leave_propagate fr callers c

theorem stepTerminator_propagateInto (fr : Frame) (callers : List (Frame × Resume)) (w : World) :
    (propagateInto p fname).stepTerminator P (propagateFrame fname (roundConsts p fname) fr)
        (propagateCallers fname (roundConsts p fname) callers) w =
      propagateState fname (roundConsts p fname) (p.stepTerminator P fr callers w) := by
  have hname : (propagateFrame fname (roundConsts p fname) fr).func.name = fr.func.name :=
    name_propagateNamed fr.func
  have hlen : (propagateCallers fname (roundConsts p fname) callers).length = callers.length :=
    List.length_map _
  unfold IRProgram.stepTerminator
  rw [hname, hlen]
  extract_lets M elsewhere elsewhere'
  have helse : elsewhere = propagateState fname (roundConsts p fname) elsewhere' :=
    leave_propagate fr callers _
  have hterm : (propagateFrame fname (roundConsts p fname) fr).terminator = fr.terminator := rfl
  rw [hterm]
  cases fr.terminator with
  | invoke dst func args normal unwind =>
    simp only [functionNamed_propagateInto]
    cases p.functionNamed func with
    | none => exact helse
    | some f => exact enter_propagate P f _ ((fr, .invoke dst normal unwind) :: callers) w
  | tailCall func args =>
    simp only [functionNamed_propagateInto]
    cases p.functionNamed func with
    | none => exact helse
    | some f => exact enter_propagate P f _ callers w
  | _ => exact helse

/-- The changed program takes the same step. -/
theorem step_propagateInto {s : ProgramState} (h : ConstsHoldAt p fname s) :
    (propagateInto p fname).step P (propagateState fname (roundConsts p fname) s) =
      propagateState fname (roundConsts p fname) (p.step P s) := by
  cases s with
  | done o w => rfl
  | running fr callers w =>
    cases hrest : fr.rest with
    | nil =>
      have hrest' : (propagateFrame fname (roundConsts p fname) fr).rest = [] := by
        simp [propagateFrame, hrest]
      rw [propagateState, IRProgram.step_nil hrest, IRProgram.step_nil hrest']
      exact stepTerminator_propagateInto p P fname fr callers w
    | cons i rest =>
      have hrest' : (propagateFrame fname (roundConsts p fname) fr).rest =
          (if fr.func.name = fname then propagateInstr (roundConsts p fname) i else i) ::
            (if fr.func.name = fname then rest.map (propagateInstr (roundConsts p fname))
              else rest) := by
        unfold propagateFrame
        rw [hrest]
        split <;> rfl
      rw [propagateState, IRProgram.step_cons hrest, IRProgram.step_cons hrest']
      refine stepInstr_propagateInto p P fname fr callers w i rest fun hf => h hf i ?_
      rw [hrest]
      rfl

variable {p P fname} {entry : String} {args : List Word} {w : World}

theorem run_propagateInto (h : ∀ n, ConstsHoldAt p fname (p.run P entry args w n)) (n : Nat) :
    (propagateInto p fname).run P entry args w n =
      propagateState fname (roundConsts p fname) (p.run P entry args w n) := by
  induction n with
  | zero =>
    change (propagateInto p fname).start P entry args w =
      propagateState fname (roundConsts p fname) (p.start P entry args w)
    unfold IRProgram.start
    rw [functionNamed_propagateInto]
    cases p.functionNamed entry with
    | none => rfl
    | some f => exact enter_propagate P f args [] w
  | succ n ih =>
    rw [IRProgram.run, IRProgram.run, Function.iterate_succ_apply', Function.iterate_succ_apply']
    rw [IRProgram.run] at ih
    rw [ih]
    exact step_propagateInto p P fname (h n)

/-! ## The pass -/

/-- In every round, for the given functions one after the other, the run of the program as it then
is meets the parameters that are replaced only with the constants in them. -/
def PropagatesSafely (P : Platform) (entry : String) (args : List Word) (w : World) :
    IRProgram → List String → Prop
  | _, [] => True
  | p, fname :: names =>
    (∀ n, ConstsHoldAt p fname (p.run P entry args w n)) ∧
      PropagatesSafely P entry args w (propagateInto p fname) names

theorem obs_foldl_propagateInto {names : List String}
    (h : PropagatesSafely P entry args w p names) (n : Nat) :
    ((names.foldl propagateInto p).run P entry args w n).obs = (p.run P entry args w n).obs := by
  induction names generalizing p with
  | nil => rfl
  | cons fname names ih =>
    rw [List.foldl_cons, ih h.2, run_propagateInto h.1, obs_propagateState]

/-- A run of a program in which the parameters that are replaced hold the constants is the same,
step by step, after constant propagation. -/
theorem crossFunctionConstantProp_preserves
    (h : PropagatesSafely P entry args w p (p.functions.map (·.name))) (n : Nat) :
    ((crossFunctionConstantProp p).run P entry args w n).obs = (p.run P entry args w n).obs :=
  obs_foldl_propagateInto h n

end

/-- A machine for programs without frame slots. -/
def plainPlatform : Platform where
  machine := default
  slots _ _ := (default : Machine).slot
  undef _ := 0

/-- A function with one block. -/
def oneBlockFunction (name : String) (params : List IRValue) (instructions : List IRInstr)
    (terminator : IRTerminator) : IRFunction where
  name := name
  params := params
  blocks := [{ label := "entry", instructions := instructions, terminator := terminator }]

/-- The square of five. -/
def squareOfFive : IRProgram :=
  ⟨[oneBlockFunction "square" [.register 0] [.mul (.register 1) (.register 0) (.register 0) none]
      (.ret [.register 1]),
    oneBlockFunction "main" [] [.call (some (.register 1)) "square" [.immediate 5] false]
      (.ret [.register 1])]⟩

theorem constsHoldAt_of_nil {p : IRProgram} {fname : String} (h : roundConsts p fname = [])
    (s : ProgramState) : ConstsHoldAt p fname s := by
  cases s with
  | running fr callers w =>
    intro _ i _ c hc
    rw [h] at hc
    cases hc
  | done o w => trivial

theorem propagatesSafely_squareOfFive :
    PropagatesSafely plainPlatform "main" [] ⟨fun _ => 0, []⟩ squareOfFive ["square", "main"] := by
  have hmain : roundConsts (propagateInto squareOfFive "square") "main" = [] := by decide
  refine ⟨fun n => ?_, fun n => constsHoldAt_of_nil hmain _, trivial⟩
  by_cases hn : n < 4
  · revert n
    decide
  · have hdone : ∃ o w', squareOfFive.run plainPlatform "main" [] ⟨fun _ => 0, []⟩ 4 = .done o w' :=
      ⟨_, _, rfl⟩
    obtain ⟨o, w', hdone⟩ := hdone
    rw [IRProgram.run_of_done hdone (Nat.not_lt.mp hn)]
    trivial

theorem crossFunctionConstantProp_squareOfFive :
    ((crossFunctionConstantProp squareOfFive).run plainPlatform "main" [] ⟨fun _ => 0, []⟩ 4).obs =
      (squareOfFive.run plainPlatform "main" [] ⟨fun _ => 0, []⟩ 4).obs :=
  crossFunctionConstantProp_preserves propagatesSafely_squareOfFive 4

/-- A call with five and a tail call with seven. -/
def callThenTailCall : IRProgram :=
  ⟨[oneBlockFunction "echo" [.register 0] [.add (.register 1) (.register 0) (.immediate 0) none]
      (.ret [.register 1]),
    oneBlockFunction "main" [] [.call (some (.register 1)) "echo" [.immediate 5] false]
      (.tailCall "echo" [.immediate 7])]⟩

/-- A function that counts in the register of its parameter. -/
def countInParameter : IRProgram :=
  ⟨[oneBlockFunction "next" [.register 0]
      [.add (.register 0) (.register 0) (.immediate 1) none,
        .add (.register 1) (.register 0) (.immediate 0) none] (.ret [.register 1]),
    oneBlockFunction "main" [] [.call (some (.register 1)) "next" [.immediate 5] false]
      (.ret [.register 1])]⟩

/-- Both programs return five after the pass, not seven and not six. -/
theorem crossFunctionConstantProp_unsound :
    ((crossFunctionConstantProp callThenTailCall).run plainPlatform "main" []
      ⟨fun _ => 0, []⟩ 6).obs ≠
        (callThenTailCall.run plainPlatform "main" [] ⟨fun _ => 0, []⟩ 6).obs ∧
      ((crossFunctionConstantProp countInParameter).run plainPlatform "main" []
          ⟨fun _ => 0, []⟩ 6).obs ≠
        (countInParameter.run plainPlatform "main" [] ⟨fun _ => 0, []⟩ 6).obs := by
  constructor
  · intro h
    have houtcome := congrArg Prod.fst h
    revert houtcome
    decide
  · intro h
    have houtcome := congrArg Prod.fst h
    revert houtcome
    decide

end Vuma.Opt
