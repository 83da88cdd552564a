import Vuma.IR.Syntax

/-!
# Live intervals

`LivenessAnalysis::compute`, as far as blocks are concerned, and `LiveRangeComputer::compute` of
`regalloc.rs`. Every instruction and every terminator has a position, two apart; the interval of a
register runs over all positions at which it is read or written and over every block at whose
border it is live.

Positions (`u32`) are natural numbers. The loop of the liveness analysis stops when nothing changes;
its fuel stands for the number of rounds.
-/

namespace Vuma.Codegen

open IR

/-! ## Liveness of blocks -/

/-- `block_liveness`: the registers live at the start and at the end of the blocks with a label. -/
abbrev BlockLiveness := String → Finset VReg × Finset VReg

/-- The uses of a terminator that `LivenessAnalysis` counts. -/
def livenessUses : IRTerminator → List VReg
  | .branch cond .. => cond.regs
  | .ret values => values.filterMap IRValue.asRegister
  | .switch discr .. => discr.regs
  | _ => []

/-- Add uses that no definition precedes. -/
def addUses (uses : List VReg) (s : Finset VReg × Finset VReg) : Finset VReg × Finset VReg :=
  (s.1 ∪ uses.toFinset.filter (· ∉ s.2), s.2)

/-- `block_use` and `block_def` of a block. -/
def blockUseDef (b : IRBlock) : Finset VReg × Finset VReg :=
  let s := b.instructions.foldl
    (fun s i => let s := addUses i.usedRegs s; (s.1, s.2 ∪ i.definedRegs.toFinset)) (∅, ∅)
  addUses (livenessUses b.terminator) s

/-- The registers live at the end of a block. -/
def newLiveOut (f : IRFunction) (live : BlockLiveness) (b : IRBlock) : Finset VReg :=
  (b.terminator.successorLabels.filter fun l => f.blocks.any (·.label == l)).toFinset.biUnion
    fun l => (live l).1

/-- The registers live at the start and at the end of a block, from those of its successors. -/
def flowBlock (f : IRFunction) (live : BlockLiveness) (b : IRBlock) : Finset VReg × Finset VReg :=
  let out := newLiveOut f live b
  ((blockUseDef b).1 ∪ out.filter (· ∉ (blockUseDef b).2), out)

/-- One block of a round. -/
def livenessStep (f : IRFunction) (s : BlockLiveness × Bool) (b : IRBlock) : BlockLiveness × Bool :=
  let new := flowBlock f s.1 b
  if s.1 b.label = new then s else (Function.update s.1 b.label new, true)

/-- `while changed`. -/
def livenessLoop (f : IRFunction) : Nat → BlockLiveness → Option BlockLiveness
  | 0, _ => none
  | fuel + 1, live =>
    let (live', changed) := f.blocks.foldl (livenessStep f) (live, false)
    if changed then livenessLoop f fuel live' else some live'

/-- `LivenessAnalysis::compute`. -/
def livenessCompute (f : IRFunction) (fuel : Nat) : Option BlockLiveness :=
  livenessLoop f fuel fun _ => (∅, ∅)

/-! ## Intervals -/

inductive RegClass where
  | gpr
  | simdFp
  deriving DecidableEq, Repr

/-- `LiveInterval`; `cls` is `class` and `stop` is `end`. -/
structure LiveInterval where
  vreg : VReg
  cls : RegClass
  start : Nat
  stop : Nat
  crossesCall : Bool := false
  usePositions : List Nat := []
  defPositions : List Nat := []
  coalescedVregs : List VReg := [vreg]
  loopDepth : Nat := 0
  deriving DecidableEq, Repr

namespace LiveInterval

def extendTo (i : LiveInterval) (pos : Nat) : LiveInterval :=
  { i with start := min i.start pos, stop := max i.stop pos }

def len (i : LiveInterval) : Nat := i.stop - i.start

/-- Both ends belong to an interval. -/
def overlaps (i j : LiveInterval) : Bool := i.start ≤ j.stop && j.start ≤ i.stop

def spillWeight (i : LiveInterval) : Nat :=
  let baseWeight := max (i.usePositions.length + i.defPositions.length) 1
  let callMultiplier := if i.crossesCall then 2 else 1
  let loopMultiplier := 2 ^ min i.loopDepth 4
  baseWeight * callMultiplier * loopMultiplier

def weightPerLength (i : LiveInterval) : Nat := i.spillWeight / max i.len 1

/-- The interval with one more position at which its register is written. -/
def addDef (pos : Nat) (i : LiveInterval) : LiveInterval :=
  { i with defPositions := i.defPositions ++ [pos] }.extendTo pos

/-- The interval with one more position at which its register is read. -/
def addUse (pos : Nat) (i : LiveInterval) : LiveInterval :=
  { i with usePositions := i.usePositions ++ [pos] }.extendTo pos

end LiveInterval

/-- The entry of an ordered map, inserted first if there is none, is changed. -/
def upsert (new : LiveInterval) (change : LiveInterval → LiveInterval) :
    List LiveInterval → List LiveInterval
  | [] => [change new]
  | i :: is =>
    if new.vreg < i.vreg then change new :: i :: is
    else if new.vreg = i.vreg then change i :: is
    else i :: upsert new change is

/-- `CopyInfo`, without the class, which nothing reads. -/
structure CopyInfo where
  src : VReg
  dst : VReg
  pos : Nat

section

variable (classOf : VReg → RegClass)

/-- What the pass over the instructions collects. `ranges` holds the label, the first position and
the position after the last of every block. -/
structure Ranges where
  intervals : List LiveInterval := []
  callPositions : List Nat := []
  copies : List CopyInfo := []
  ranges : List (String × Nat × Nat) := []
  pos : Nat := 0

def Ranges.addDefs (s : Ranges) (vregs : List VReg) : Ranges :=
  { s with
    intervals := vregs.foldl
      (fun is v => upsert { vreg := v, cls := classOf v, start := s.pos, stop := s.pos }
        (·.addDef s.pos) is) s.intervals }

def Ranges.addUses (s : Ranges) (vregs : List VReg) : Ranges :=
  { s with
    intervals := vregs.foldl
      (fun is v => upsert { vreg := v, cls := classOf v, start := s.pos, stop := s.pos }
        (·.addUse s.pos) is) s.intervals }

/-- A `BitCast` between registers. -/
def copyOf (pos : Nat) : IRInstr → Option CopyInfo
  | .cast .bitCast (.register dst) (.register src) _ _ => some ⟨src, dst, pos⟩
  | _ => none

def isCallPosition : IRInstr → Bool
  | .call .. | .syscall .. => true
  | _ => false

def Ranges.addInstr (s : Ranges) (i : IRInstr) : Ranges :=
  let s := { s with copies := s.copies ++ (copyOf s.pos i).toList }
  let s := (s.addDefs classOf i.definedRegs).addUses classOf i.usedRegs
  { s with
    callPositions := if isCallPosition i then s.callPositions ++ [s.pos] else s.callPositions
    pos := s.pos + 2 }

def Ranges.addBlock (s : Ranges) (b : IRBlock) : Ranges :=
  let first := s.pos
  let s := b.instructions.foldl (Ranges.addInstr classOf) s
  let s := s.addUses classOf b.terminator.usedRegs
  { s with ranges := s.ranges ++ [(b.label, first, s.pos + 2)], pos := s.pos + 2 }

/-- The pass over the instructions. -/
def computeRanges (f : IRFunction) : Ranges := f.blocks.foldl (Ranges.addBlock classOf) {}

/-- Phase 1b for one interval: cover every block at whose border the register is live. -/
def extendLive (live : BlockLiveness) (ranges : List (String × Nat × Nat)) (i : LiveInterval) :
    LiveInterval :=
  ranges.foldl
    (fun i r =>
      if i.vreg ∈ (live r.1).1 ∨ i.vreg ∈ (live r.1).2 then (i.extendTo r.2.1).extendTo r.2.2
      else i) i

/-- Phase 2 for one interval. -/
def markCalls (callPositions : List Nat) (i : LiveInterval) : LiveInterval :=
  if callPositions.any fun p => i.start < p && p < i.stop then { i with crossesCall := true } else i

end

/-! ## Coalescing -/

/-- The union-find structure of `coalesce_intervals`. -/
abbrev Parents := VReg → VReg

/-- `find`, with path compression. The fuel bounds the length of a path. -/
def Parents.find : Nat → Parents → VReg → Parents × VReg
  | 0, parent, x => (parent, x)
  | fuel + 1, parent, x =>
    let root := parent x
    if root = x then (parent, x)
    else
      let (parent, root) := find fuel parent root
      (Function.update parent x root, root)

def Parents.union (fuel : Nat) (parent : Parents) (a b : VReg) : Parents :=
  let (parent, ra) := parent.find fuel a
  let (parent, rb) := parent.find fuel b
  if ra ≠ rb then Function.update parent ra rb else parent

/-- The loop that decides `can_coalesce`. -/
def canCoalesce (fuel : Nat) (copy : CopyInfo) (cls : RegClass) (first last : Nat) :
    List LiveInterval → Parents → Parents × Bool
  | [], parent => (parent, true)
  | other :: others, parent =>
    if other.cls ≠ cls then canCoalesce fuel copy cls first last others parent
    else
      let (parent, otherRoot) := parent.find fuel other.vreg
      let (parent, srcRoot) := parent.find fuel copy.src
      let (parent, dstRoot) := parent.find fuel copy.dst
      if otherRoot = srcRoot ∨ otherRoot = dstRoot then
        canCoalesce fuel copy cls first last others parent
      else if other.start ≤ last ∧ other.stop ≥ first then (parent, false)
      else canCoalesce fuel copy cls first last others parent

/-- One copy of the loop over all copies. -/
def coalesceCopy (intervals : List LiveInterval) (parent : Parents) (copy : CopyInfo) : Parents :=
  match intervals.find? (·.vreg == copy.src), intervals.find? (·.vreg == copy.dst) with
  | some src, some dst =>
    if src.cls ≠ dst.cls then parent
    else if src.overlaps dst then parent
    else
      let (parent, can) := canCoalesce intervals.length copy src.cls (min src.start dst.start)
        (max src.stop dst.stop) intervals parent
      if can then parent.union intervals.length copy.src copy.dst else parent
  | _, _ => parent

/-- Add an interval to the group of its root, in an ordered map. -/
def addToGroup (root : VReg) (i : LiveInterval) :
    List (VReg × List LiveInterval) → List (VReg × List LiveInterval)
  | [] => [(root, [i])]
  | g :: gs =>
    if root < g.1 then (root, [i]) :: g :: gs
    else if root = g.1 then (g.1, g.2 ++ [i]) :: gs
    else g :: addToGroup root i gs

/-- One interval made of the intervals of a group. -/
def mergeGroup : List LiveInterval → List LiveInterval
  | [] => []
  | [i] => [i]
  | i :: is =>
    let group := i :: is
    [{ vreg := (is.map (·.vreg)).foldl min i.vreg
       cls := i.cls
       start := (is.map (·.start)).foldl min i.start
       stop := (is.map (·.stop)).foldl max i.stop
       crossesCall := group.any (·.crossesCall)
       usePositions := ((group.flatMap (·.usePositions)).insertionSort (· ≤ ·)).dedup
       defPositions := ((group.flatMap (·.defPositions)).insertionSort (· ≤ ·)).dedup
       coalescedVregs := group.flatMap (·.coalescedVregs) }]

def coalesceIntervals (intervals : List LiveInterval) (copies : List CopyInfo) :
    List LiveInterval :=
  if copies.isEmpty then intervals
  else
    let parent := copies.foldl (coalesceCopy intervals) id
    let (_, groups) := intervals.foldl
      (fun (s : Parents × List (VReg × List LiveInterval)) i =>
        let (parent, root) := s.1.find intervals.length i.vreg
        (parent, addToGroup root i s.2)) (parent, [])
    groups.flatMap fun g => mergeGroup g.2

/-- The intervals of `LiveRangeComputer::compute`, with the given register classes. -/
def liveIntervals (classOf : VReg → RegClass) (f : IRFunction) (live : BlockLiveness) :
    List LiveInterval :=
  let s := computeRanges classOf f
  let intervals := (s.intervals.map (extendLive live s.ranges)).map (markCalls s.callPositions)
  coalesceIntervals intervals s.copies

/-- `LiveRangeComputer::compute`; `none` when the fuel of the liveness analysis runs out. -/
def computeIntervals (classOf : VReg → RegClass) (f : IRFunction) (fuel : Nat) :
    Option (List LiveInterval) :=
  (livenessCompute f fuel).map (liveIntervals classOf f)

end Vuma.Codegen
