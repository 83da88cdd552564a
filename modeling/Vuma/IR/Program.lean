import Vuma.IR.Semantics

/-!
# Execution of programs

A program runs instruction by instruction on a stack of activations. A direct call, a tail call, an
invoke and an indirect call through the address of a function start an activation of that function;
what the program does not define is left to the machine, as in `IRInstr.effect`.
-/

namespace Vuma.IR

/-- One activation of a function: what is left of the block that it executes, the label and the
registers with which the block was entered, and its registers. -/
structure Frame where
  func : IRFunction
  label : String
  pred : Option String
  edge : Regs
  rest : List IRInstr
  terminator : IRTerminator
  regs : Regs

/-- What a suspended activation does with the result of a call. -/
inductive Resume where
  | call (dst : Option IRValue)
  | invoke (dst : Option IRValue) (normal unwind : String)

/-- A running program has an active and suspended activations. -/
inductive ProgramState where
  | running (top : Frame) (callers : List (Frame × Resume)) (w : World)
  | done (o : Outcome) (w : World)

/-- What can be observed: the outcome of a finished run, the memory and the events so far. -/
def ProgramState.obs : ProgramState → Option Outcome × Mem × List Event
  | .running _ _ w => (none, w.mem, w.trace)
  | .done o w => (some o, w.mem, w.trace)

/-- What a program is run on: the machine for everything outside of it, the frame slots of an
activation of a function at a depth of the stack, and the initial contents of its registers. -/
structure Platform where
  machine : Machine
  slots : String → Nat → VReg → Nat → Word
  undef : Regs

/-- The machine that an activation of a function sees. -/
def Platform.machineAt (P : Platform) (name : String) (depth : Nat) : Machine :=
  { P.machine with slot := P.slots name depth }

/-- Continue an activation at a block of its function. -/
def Frame.goto (fr : Frame) (callers : List (Frame × Resume)) (target : String)
    (pred : Option String) (regs : Regs) (w : World) : ProgramState :=
  match fr.func.blockAt target with
  | some b =>
    .running
      { fr with
        label := target, pred := pred, edge := regs, rest := b.instructions
        terminator := b.terminator, regs := regs } callers w
  | none => .done .noBlock w

/-- Hand values back to the caller. -/
def returnTo (callers : List (Frame × Resume)) (vs : List Word) (w : World) : ProgramState :=
  match callers with
  | [] => .done (.returned vs) w
  | (fr, .call dst) :: callers =>
    .running { fr with regs := fr.regs.writes (dst.toList.map (·, vs.headD 0)) } callers w
  | (fr, .invoke dst normal _) :: callers =>
    fr.goto callers normal (some fr.label) (fr.regs.writes (dst.toList.map (·, vs.headD 0))) w

/-- Unwind to the nearest invoke. -/
def unwindTo (v : Word) (w : World) : List (Frame × Resume) → ProgramState
  | [] => .done (.unwound v) w
  | (_, .call _) :: callers => unwindTo v w callers
  | (fr, .invoke _ _ unwind) :: callers => fr.goto callers unwind (some fr.label) fr.regs w

/-- Leave the block that an activation executes. -/
def Frame.leave (fr : Frame) (callers : List (Frame × Resume)) : Config → ProgramState
  | .enter target pred regs w => fr.goto callers target pred regs w
  | .done (.returned vs) w => returnTo callers vs w
  | .done (.unwound v) w => unwindTo v w callers
  | .done o w => .done o w

namespace IRProgram

variable (p : IRProgram) (P : Platform)

/-- The function with a name. -/
def functionNamed (name : String) : Option IRFunction := p.functions.find? (·.name == name)

/-- The function at an address. -/
def functionAt (addr : Word) : Option IRFunction :=
  p.functions.find? fun f => P.machine.symAddr f.name == addr

/-- Start an activation of a function. Parameters without an argument stay undefined. -/
def enter (f : IRFunction) (args : List Word) (callers : List (Frame × Resume)) (w : World) :
    ProgramState :=
  match f.blocks with
  | [] => .done .noBlock w
  | b :: _ =>
    let regs := P.undef.writes (f.params.zip args)
    .running ⟨f, b.label, none, regs, b.instructions, b.terminator, regs⟩ callers w

/-- The function of the program that an instruction calls, with the arguments and the destination of
the result. -/
def callOf (ev : IRValue → Word) : IRInstr → Option (IRFunction × List Word × Option IRValue)
  | .call dst func args _ => (p.functionNamed func).map (·, args.map ev, dst)
  | .callIndirect dst funcPtr args => (p.functionAt P (ev funcPtr)).map (·, args.map ev, dst)
  | _ => none

/-- Execute an instruction. -/
def stepInstr (fr : Frame) (callers : List (Frame × Resume)) (w : World) (i : IRInstr)
    (rest : List IRInstr) : ProgramState :=
  let M := P.machineAt fr.func.name callers.length
  match p.callOf P (·.eval M fr.regs) i with
  | some (f, args, dst) => enter P f args (({ fr with rest := rest }, .call dst) :: callers) w
  | none =>
    match (i.effect M (·.eval M fr.regs) (·.eval M fr.edge) fr.pred w).flow fr.label fr.regs with
    | .stay regs w => .running { fr with rest := rest, regs := regs } callers w
    | .leave c => fr.leave callers c

/-- Execute the terminator of a block. -/
def stepTerminator (fr : Frame) (callers : List (Frame × Resume)) (w : World) : ProgramState :=
  let M := P.machineAt fr.func.name callers.length
  let elsewhere := fr.leave callers (fr.terminator.exec M fr.label fr.regs w)
  match fr.terminator with
  | .invoke dst func args normal unwind =>
    match p.functionNamed func with
    | some f =>
      enter P f (args.map (·.eval M fr.regs)) ((fr, .invoke dst normal unwind) :: callers) w
    | none => elsewhere
  | .tailCall func args =>
    match p.functionNamed func with
    | some f => enter P f (args.map (·.eval M fr.regs)) callers w
    | none => elsewhere
  | _ => elsewhere

/-- One step of a program. -/
def step : ProgramState → ProgramState
  | .running fr callers w =>
    match fr.rest with
    | i :: rest => p.stepInstr P fr callers w i rest
    | [] => p.stepTerminator P fr callers w
  | .done o w => .done o w

variable {p P} in
theorem step_cons {fr : Frame} {callers : List (Frame × Resume)} {w : World} {i : IRInstr}
    {rest : List IRInstr} (h : fr.rest = i :: rest) :
    p.step P (.running fr callers w) = p.stepInstr P fr callers w i rest := by
  rw [step, h]

variable {p P} in
theorem step_nil {fr : Frame} {callers : List (Frame × Resume)} {w : World} (h : fr.rest = []) :
    p.step P (.running fr callers w) = p.stepTerminator P fr callers w := by
  rw [step, h]

/-- The state in which the program starts at an entry point. -/
def start (entry : String) (args : List Word) (w : World) : ProgramState :=
  match p.functionNamed entry with
  | some f => enter P f args [] w
  | none => .done .noBlock w

/-- The state after `n` steps. -/
def run (entry : String) (args : List Word) (w : World) (n : Nat) : ProgramState :=
  (p.step P)^[n] (p.start P entry args w)

variable {p P} in
theorem run_of_done {entry : String} {args : List Word} {w w' : World} {n m : Nat} {o : Outcome}
    (h : p.run P entry args w n = .done o w') (hnm : n ≤ m) :
    p.run P entry args w m = .done o w' := by
  induction hnm with
  | refl => exact h
  | step _ ih =>
    rw [run, Function.iterate_succ_apply', ← run, ih]
    rfl

end IRProgram

end Vuma.IR
