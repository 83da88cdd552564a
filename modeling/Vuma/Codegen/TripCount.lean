import Vuma.Codegen.LoopDetector
import Vuma.IR.Edges

/-!
# Trip counts

`analyze_trip_count` of `loop_unroll.rs`. Immediates are 64-bit words that are read as `i64`; next
to the result stands whether an `i64` operation on the way to it has overflowed.
-/

namespace Vuma.Codegen.LoopUnroll

open IR

inductive TripCount where
  | known (n : Nat)
  | bounded (n : Nat)
  | unknown
  deriving DecidableEq, Repr

/-- The phi that the header begins with: its register, and the constant on the edge that does not
come from the latch. -/
def headerPhi (loopInfo : LoopInfo) (header : IRBlock) : Option (VReg × Word) :=
  match header.instructions.head? with
  | some (.phi (.register r) incoming) =>
    if incoming.length = 2 then
      ((incoming.find? fun e => e.2 != loopInfo.latch).bind fun e => e.1.asImmediate).map (r, ·)
    else none
  | _ => none

/-- `i_next = i + step_const`: the step, whether its negation has overflowed, and `i_next`. -/
def latchStep (phi : VReg) (instructions : List IRInstr) : Option (Word × Bool × VReg) :=
  instructions.findSome? fun
    | .binOp .add (.register d) (.register l) (.immediate c) _ =>
      if l = phi then some (c, false, d) else none
    | .binOp .sub (.register d) (.register l) (.immediate c) _ =>
      if l = phi then some (-c, decide (c = BitVec.intMin 64), d) else none
    | _ => none

/-- The condition of the branch of the latch, one of whose targets is the header. -/
def latchCond (loopInfo : LoopInfo) : IRTerminator → Option VReg
  | .branch (.register cond) trueBlock falseBlock =>
    if trueBlock = loopInfo.header ∨ falseBlock = loopInfo.header then some cond else none
  | _ => none

/-- `cond = cmp i_next, end, kind`. -/
def latchCmp (cond iNext : VReg) (instructions : List IRInstr) : Option (CmpKind × IRValue) :=
  instructions.findSome? fun
    | .cmp kind (.register d) (.register l) rhs _ =>
      if d = cond ∧ l = iNext then some (kind, rhs) else none
    | _ => none

/-- The comparison on which the loop is left, with a constant bound. -/
def exitTest (loopInfo : LoopInfo) (latch : IRBlock) (iNext : VReg) : Option (CmpKind × Word) := do
  let cond ← latchCond loopInfo latch.terminator
  let (kind, rhs) ← latchCmp cond iNext latch.instructions
  let bound ← rhs.asImmediate
  pure (kind, bound)

def divCeil (a b : Nat) : Nat := (a + b - 1) / b

/-- The count from the constants. -/
def countTrips (kind : CmpKind) (start bound step : Word) : TripCount × Bool :=
  let diff := bound - start
  let overflow := decide (diff.toInt ≠ bound.toInt - start.toInt)
  if 0 < step.toInt ∧ diff.toInt ≤ 0 then (.known 0, overflow)
  else if step.toInt < 0 ∧ 0 ≤ diff.toInt then (.known 0, overflow)
  else
    let absStep := step.toInt.natAbs
    let absDiff := diff.toInt.natAbs
    match kind with
    | .slt | .ult => (.known (divCeil absDiff absStep), overflow)
    | .sle | .ule => (.known (divCeil (absDiff + 1) absStep), overflow)
    | .ne =>
      if absDiff % absStep ≠ 0 then (.unknown, overflow) else (.known (absDiff / absStep), overflow)
    | _ => (.unknown, overflow)

def analyzeTripCount (func : IRFunction) (loopInfo : LoopInfo) : TripCount × Bool :=
  match func.blockAt loopInfo.header, func.blockAt loopInfo.latch with
  | some header, some latch =>
    match headerPhi loopInfo header with
    | none => (.unknown, false)
    | some (phi, start) =>
      match latchStep phi latch.instructions with
      | none => (.unknown, false)
      | some (step, overflow, iNext) =>
        if step = 0 then (.unknown, overflow)
        else
          match exitTest loopInfo latch iNext with
          | none => (.unknown, overflow)
          | some (kind, bound) =>
            ((countTrips kind start bound step).1,
              overflow || (countTrips kind start bound step).2)
  | _, _ => (.unknown, false)

end Vuma.Codegen.LoopUnroll
