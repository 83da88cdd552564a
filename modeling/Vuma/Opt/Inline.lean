import Vuma.IR.Edges
import Vuma.Opt.Subst

/-!
# Inlining

`inline_with_threshold` of `opt.rs` replaces the calls of small single-block functions by their
bodies: the block of the call is split, the body is cloned with fresh registers into a block of its
own, and its `Return` becomes a jump to the second half of the split block. The fresh registers are
numbered from a `u32` counter, here a natural number: `InlineSafe.regs` keeps it below `2 ^ 32`.
-/

namespace Vuma.Opt

open IR

/-! ## The cost model -/

/-- `u32::saturating_add`. -/
def satAdd (a b : Nat) : Nat := min (a + b) (2 ^ 32 - 1)

def inlineCost : IRInstr → Nat
  | .add .. | .sub .. | .binOp .. => 1
  | .cmp .. => 1
  | .cast .. | .offset .. => 1
  | .phi .. => 0
  | .select .. => 2
  | .load .. => 3
  | .store .. => 3
  | .alloc .. => 5
  | .free _ => 5
  | .mul .. => 5
  | .div .. => 20
  | .call .. => 40
  | .channelOpen .. | .channelSend .. | .channelRecv .. | .channelRecvTimeout ..
  | .channelClose _ => 40
  | .atomicLoad .. | .atomicStore .. => 30
  | .branch _ | .condBranch .. => 2
  | .ret _ => 1
  | .getAddress .. => 1
  | _ => 3

/-- `matches!(a, IRValue::Immediate(_))`. -/
def isImmediate : IRValue → Bool
  | .immediate _ => true
  | _ => false

def functionInlineCost (callee : IRFunction) (args : List IRValue) : Nat :=
  let cost := (callee.blocks.flatMap (·.instructions)).foldl (fun c i => satAdd c (inlineCost i)) 0
  satAdd cost (min (args.length * 2) (2 ^ 32 - 1)) - (args.filter isImmediate).length * 3

def maxVregId (f : IRFunction) : VReg :=
  ((f.params ++ f.results).filterMap IRValue.asRegister ++ f.vregs.map (·.id) ++
    f.blocks.flatMap fun b =>
      b.instructions.flatMap (fun i => i.definedRegs ++ i.usedRegs) ++
        (b.terminator.definedRegs ++ b.terminator.usedRegs)).foldl max 0

/-! ## The splice -/

def maxInlinesPerFn : Nat := 256

/-- A call that is to be inlined: the call's destination, target and arguments, the callee, and its
only block. -/
structure CallSite where
  dst : Option IRValue
  name : String
  args : List IRValue
  callee : IRFunction
  body : IRBlock
  deriving DecidableEq

/-- The call is of a single-block function of the table, not of the caller itself, and within the
threshold. -/
def inlinable (funcs : String → Option IRFunction) (threshold : Nat) (caller : String) :
    IRInstr → Option CallSite
  | .call dst name args _ =>
    if name = caller then none
    else
      match funcs name with
      | some callee =>
        match callee.blocks with
        | [body] =>
          if 0 < threshold ∧ functionInlineCost callee args ≤ threshold then
            some ⟨dst, name, args, callee, body⟩
          else none
        | _ => none
      | none => none
  | _ => none

/-- The parameters get fresh registers, into which the arguments are copied. -/
def bindParams : List (IRValue × IRValue) → VReg → SubstMap → SubstMap × VReg × List IRInstr
  | [], counter, map => (map, counter, [])
  | (.register id, arg) :: ps, counter, map =>
    let (map', counter', copies) :=
      bindParams ps (counter + 1) (Function.update map id (some (.register counter)))
    (map', counter', .add (.register counter) arg (.immediate 0) none :: copies)
  | _ :: ps, counter, map => bindParams ps counter map

/-- The other registers the callee defines get fresh registers. -/
def mapDefs : List VReg → VReg → SubstMap → SubstMap × VReg
  | [], counter, map => (map, counter)
  | d :: ds, counter, map =>
    match map d with
    | some _ => mapDefs ds counter map
    | none => mapDefs ds (counter + 1) (Function.update map d (some (.register counter)))

/-- The labels of a phi, prefixed. -/
def prefixPhi (labelPrefix : String) : IRInstr → IRInstr
  | .phi dst incoming => .phi dst (incoming.map fun e => (e.1, labelPrefix ++ "_" ++ e.2))
  | i => i

/-- The registers of a splice: the renaming of the callee's registers, the copies of the arguments,
the register of the result, and the next free register. -/
structure SpliceRegs where
  map : SubstMap
  paramCopies : List IRInstr
  result : Option IRValue
  counter : VReg

def spliceRegs (s : CallSite) (counter : VReg) : SpliceRegs :=
  let (map, c₁, copies) := bindParams (s.callee.params.zip s.args) counter (fun _ => none)
  let c₂ := if s.dst.isSome then c₁ + 1 else c₁
  let (map', c₃) := mapDefs (s.body.instructions.flatMap IRInstr.definedRegs) c₂ map
  ⟨map', copies, s.dst.map fun _ => .register c₁, c₃⟩

/-- `format!("inl{}_{}", inline_id, label)`. -/
def inlinePrefix (inlineId : Nat) (label : String) : String :=
  "inl" ++ toString inlineId ++ "_" ++ label

/-- The cloned block of the callee. -/
def inlinedBlock (s : CallSite) (R : SpliceRegs) (labelPrefix : String) : IRBlock :=
  let body := (s.body.instructions.filter (fun i => !i.isControl)).map fun i =>
    prefixPhi labelPrefix (substituteInstr R.map i)
  let label := labelPrefix ++ "_" ++ s.body.label
  match s.body.terminator with
  | .ret values =>
    let copy := match R.result, values with
      | some rv, v :: _ => [.add rv (substituteValue R.map v) (.immediate 0) none]
      | _, _ => []
    { label, instructions := R.paramCopies ++ body ++ copy
      terminator := .jump (labelPrefix ++ "_cont") }
  | .jump target =>
    { label, instructions := R.paramCopies ++ body
      terminator := .jump (labelPrefix ++ "_" ++ target) }
  | .branch cond t f =>
    { label, instructions := R.paramCopies ++ body
      terminator := .branch (substituteValue R.map cond) (labelPrefix ++ "_" ++ t)
        (labelPrefix ++ "_" ++ f) }
  | other => { label, instructions := R.paramCopies ++ body, terminator := other }

/-- The block of the call up to the call. -/
def beforeBlock (s : CallSite) (labelPrefix : String) (b : IRBlock) (before : List IRInstr) :
    IRBlock :=
  { b with
    instructions := before
    terminator := .jump (labelPrefix ++ "_" ++ s.body.label) }

/-- The continuation: the result goes to the destination of the call, then the rest of the block. -/
def contBlock (s : CallSite) (R : SpliceRegs) (labelPrefix : String) (b : IRBlock)
    (after : List IRInstr) : IRBlock :=
  let copy := match s.dst, R.result with
    | some dst, some rv => [.add dst rv (.immediate 0) none]
    | _, _ => []
  { label := labelPrefix ++ "_cont"
    instructions := copy ++ after
    terminator := b.terminator }

/-! ## The loop over the blocks -/

/-- The state of the loop: the blocks before `block_idx` and from `block_idx` on, and the counters. -/
structure InlineState where
  done : List IRBlock
  todo : List IRBlock
  counter : VReg
  inlineId : Nat
  inlinedCallees : List String

/-- The first call of the block that is inlined, with the instructions before and after it. -/
def findCall (site : IRInstr → Option CallSite) :
    List IRInstr → Option (List IRInstr × CallSite × List IRInstr)
  | [] => none
  | i :: is =>
    match site i with
    | some s => some ([], s, is)
    | none => (findCall site is).map fun (before, s, after) => (i :: before, s, after)

section

variable (funcs : String → Option IRFunction) (threshold : Nat) (caller : String)

/-- A callee is inlined only once, and the number of inlined calls is bounded. -/
def siteAt (inlineId : Nat) (inlinedCallees : List String) (i : IRInstr) : Option CallSite :=
  (inlinable funcs threshold caller i).filter fun s =>
    !inlinedCallees.contains s.name && decide (inlineId < maxInlinesPerFn)

/-- One round of the loop. The inserted blocks are visited next. -/
def inlineRound (st : InlineState) : InlineState :=
  match st.todo with
  | [] => st
  | b :: rest =>
    match findCall (siteAt funcs threshold caller st.inlineId st.inlinedCallees)
      b.instructions with
    | none => { st with done := st.done ++ [b], todo := rest }
    | some (before, s, after) =>
      let R := spliceRegs s st.counter
      let labelPrefix := inlinePrefix st.inlineId b.label
      { done := st.done ++ [beforeBlock s labelPrefix b before]
        todo := inlinedBlock s R labelPrefix :: contBlock s R labelPrefix b after :: rest
        counter := R.counter
        inlineId := st.inlineId + 1
        inlinedCallees := s.name :: st.inlinedCallees }

/-- The number of rounds the loop can take: one for each block, and two more for each call. -/
def inlineFuel (f : IRFunction) : Nat := f.blocks.length + 2 * maxInlinesPerFn

def inlineWithThreshold (f : IRFunction) : IRFunction :=
  let st := (inlineRound funcs threshold f.name)^[inlineFuel f]
    ⟨[], f.blocks, maxVregId f + 1, 0, []⟩
  ({ f with blocks := st.done ++ st.todo }).rebuildCfg

end

end Vuma.Opt
