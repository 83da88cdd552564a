import Vuma.IR.Semantics

/-!
# The instruction scheduler

`scheduler.rs`: list scheduling of each block. A dependence graph has an edge from the last
definition of a register to its uses, edges between memory operations, and edges to and from the
barriers; instructions are then issued from a heap of those whose predecessors are all issued.
Control instructions go to the end of the block and leading phis stay in front.

The alias analysis is computed but no edge depends on it any more.
-/

namespace Vuma.Codegen

open IR

def classifyInstr : IRInstr → String
  | .add .. | .sub .. | .binOp .. => "arithmetic"
  | .mul .. => "multiply"
  | .div .. => "divide"
  | .load .. => "load"
  | .store .. => "store"
  | .atomicLoad .. | .atomicStore .. | .atomicCas .. => "branch"
  | .cmp .. => "arithmetic"
  | .call .. | .syscall .. => "branch"
  | .cast .. | .offset .. | .alloc .. => "arithmetic"
  | .branch .. | .condBranch .. => "branch"
  | _ => "arithmetic"

/-! ## The dependence graph -/

def isLoad : IRInstr → Bool
  | .load .. => true
  | _ => false

def isStore : IRInstr → Bool
  | .store .. => true
  | _ => false

def isBarrier : IRInstr → Bool
  | .alloc .. | .free _ | .call .. | .syscall .. | .ret _ | .atomicLoad .. | .atomicStore ..
  | .atomicCas .. => true
  | _ => false

/-- The instructions that depend on everything before them: the barriers without `Alloc`. -/
def isFence : IRInstr → Bool
  | .free _ | .call .. | .syscall .. | .ret _ | .atomicLoad .. | .atomicStore .. | .atomicCas .. =>
    true
  | _ => false

/-- `needs_edge` for an instruction that is a load, a store or a barrier. -/
def needsEdge (prev instr : IRInstr) : Bool :=
  if isBarrier instr || isBarrier prev then true
  else if isStore instr && isStore prev then true
  else if isStore instr && isLoad prev then true
  else if isLoad instr && isStore prev then true
  else if isLoad instr && isLoad prev then true
  else false

/-- `if !preds.contains(&j) { preds.push(j) }` for each of the indices. -/
def pushNew (preds : List Nat) : List Nat → List Nat
  | [] => preds
  | j :: js => pushNew (if preds.contains j then preds else preds ++ [j]) js

/-- The predecessors of an instruction that comes after `before`; `lastDef` is the index of the
last definition of a register. -/
def predsOfInstr (before : List IRInstr) (lastDef : VReg → Option Nat) (instr : IRInstr) :
    List Nat :=
  let data := pushNew [] (instr.usedRegs.filterMap lastDef)
  let memory :=
    if isLoad instr || isStore instr || isBarrier instr then
      pushNew data ((before.zipIdx.filter fun p => needsEdge p.1 instr).map Prod.snd)
    else data
  if isFence instr then pushNew memory (List.range before.length) else memory

/-- The predecessors of each of the instructions that come after `before`. -/
def buildPreds (before : List IRInstr) (lastDef : VReg → Option Nat) :
    List IRInstr → List (List Nat)
  | [] => []
  | instr :: rest =>
    predsOfInstr before lastDef instr ::
      buildPreds (before ++ [instr])
        (fun r => if instr.definedRegs.contains r then some before.length else lastDef r) rest

/-- The predecessors of every instruction of the list. -/
def ddg (instructions : List IRInstr) : List (List Nat) :=
  buildPreds [] (fun _ => none) instructions

def predsAt (preds : List (List Nat)) (i : Nat) : List Nat := preds.getD i []

/-- The successors of `i`, in the order of their indices. -/
def succsAt (preds : List (List Nat)) (i : Nat) : List Nat :=
  (List.range preds.length).flatMap fun j =>
    ((predsAt preds j).filter (· == i)).map fun _ => j

/-- `critical_path` of the instructions from `i` on: the longest path of latencies to a leaf. Edges
lead forward, so the instructions are done from the last to the first. -/
def criticalPaths (preds : List (List Nat)) (latency : Nat → Nat) (n : Nat) : Nat → Nat → Nat
  | 0 => fun _ => 0
  | k + 1 =>
    let paths := criticalPaths preds latency n k
    let i := n - (k + 1)
    Function.update paths i
      (latency i + ((succsAt preds i).map paths).foldl max 0)

/-! ## List scheduling -/

structure ReadyEntry where
  idx : Nat
  criticalPath : Nat
  pressureDelta : Int
  deriving DecidableEq, Repr

/-- `ReadyEntry::cmp`: whether the first entry is less than the second. -/
def ReadyEntry.lt (a b : ReadyEntry) : Bool :=
  if a.criticalPath ≠ b.criticalPath then b.criticalPath < a.criticalPath
  else if a.pressureDelta ≠ b.pressureDelta then a.pressureDelta < b.pressureDelta
  else a.idx < b.idx

/-- `BinaryHeap::pop`: the greatest entry and the others. -/
def popReady : List ReadyEntry → Option (ReadyEntry × List ReadyEntry)
  | [] => none
  | e :: es =>
    match popReady es with
    | none => some (e, [])
    | some (m, rest) => if m.lt e then some (e, es) else some (m, e :: rest)

/-- The state of the scheduling loop. -/
structure SchedState where
  scheduled : List Nat
  ready : List ReadyEntry
  remainingPreds : Nat → Nat

/-- The loop over the successors of an issued instruction. -/
def releaseSuccs (entry : Nat → ReadyEntry) : List Nat → SchedState → SchedState
  | [], s => s
  | succ :: succs, s =>
    if s.remainingPreds succ > 0 then
      let left := s.remainingPreds succ - 1
      releaseSuccs entry succs
        { s with
          ready := if left = 0 then entry succ :: s.ready else s.ready
          remainingPreds := Function.update s.remainingPreds succ left }
    else releaseSuccs entry succs s

/-- One iteration of the scheduling loop. -/
def schedStep (preds : List (List Nat)) (entry : Nat → ReadyEntry) (s : SchedState) : SchedState :=
  match popReady s.ready with
  | none => s
  | some (e, rest) =>
    if s.scheduled.contains e.idx then { s with ready := rest }
    else
      releaseSuccs entry (succsAt preds e.idx)
        { s with scheduled := s.scheduled ++ [e.idx], ready := rest }

/-- `while let Some(entry) = ready.pop()`, at most `fuel` times. -/
def schedLoop (preds : List (List Nat)) (entry : Nat → ReadyEntry) : Nat → SchedState → SchedState
  | 0, s => s
  | fuel + 1, s => if s.ready = [] then s else schedLoop preds entry fuel (schedStep preds entry s)

def pressureDelta (instr : IRInstr) : Int :=
  (instr.definedRegs.length : Int) - (instr.usedRegs.length : Int)

/-- The check at the end: every predecessor comes earlier in the schedule. -/
def respects (preds : List (List Nat)) (order : List Nat) : Bool :=
  (List.range preds.length).all fun i =>
    (predsAt preds i).all fun p => order.idxOf p < order.idxOf i

section

variable (latencyTable : String → Nat) (noReorder : Bool)

/-- The schedule before the check. Every iteration takes an entry from the heap, and every entry
that is added was a predecessor to wait for before, which bounds the number of iterations. -/
def listSchedule (instructions : List IRInstr) : List Nat :=
  let n := instructions.length
  let preds := ddg instructions
  let latency i := (instructions[i]?.map fun instr => latencyTable (classifyInstr instr)).getD 0
  let paths := criticalPaths preds latency n n
  let entry i := ReadyEntry.mk i (paths i) ((instructions[i]?.map pressureDelta).getD 0)
  let ready := ((List.range n).filter fun i => (predsAt preds i).length = 0).map entry
  let fuel := ready.length + ((List.range n).map fun i => (predsAt preds i).length).sum
  (schedLoop preds entry fuel ⟨[], ready, fun i => (predsAt preds i).length⟩).scheduled

/-- `schedule_block_inner_with_alias`; `noReorder` says that `VUMA_NO_SCHED_REORDER` is set. -/
def scheduleBlockInner (instructions : List IRInstr) : List Nat :=
  let n := instructions.length
  if n ≤ 2 then List.range n
  else if noReorder then List.range n
  else
    let scheduled := listSchedule latencyTable instructions
    if scheduled.length ≠ n then List.range n
    else if respects (ddg instructions) scheduled then scheduled
    else List.range n

/-- The indices of the instructions that satisfy a test. -/
def indicesWhere (p : IRInstr → Bool) (instructions : List IRInstr) : List Nat :=
  (instructions.zipIdx.filter fun e => p e.1).map Prod.snd

/-- `schedule_block_with_alias`. -/
def scheduleBlock (instructions : List IRInstr) : List Nat :=
  let n := instructions.length
  if n ≤ 2 then List.range n
  else
    let phiCount := (instructions.takeWhile IRInstr.isPhi).length
    if phiCount = n then List.range n
    else
      let nonPhi := instructions.drop phiCount
      let schedulable := indicesWhere (fun i => !i.isControl) nonPhi
      let control := indicesWhere IRInstr.isControl nonPhi
      let order := scheduleBlockInner latencyTable noReorder
        (schedulable.filterMap fun i => nonPhi[i]?)
      List.range phiCount ++ order.map (fun idx => schedulable.getD idx 0 + phiCount) ++
        control.map (· + phiCount)

/-- One block of `schedule_function`. -/
def scheduleIRBlock (b : IRBlock) : IRBlock :=
  if b.instructions.length ≤ 2 then b
  else
    { b with
      instructions := (scheduleBlock latencyTable noReorder b.instructions).filterMap fun idx =>
        b.instructions[idx]? }

def scheduleFunction (blocks : List IRBlock) : List IRBlock :=
  blocks.map (scheduleIRBlock latencyTable noReorder)

end

end Vuma.Codegen
