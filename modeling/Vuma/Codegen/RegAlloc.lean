import Vuma.Codegen.LiveRange

/-!
# Linear scan

`TargetAgnosticRegAlloc` of `regalloc.rs`: the pools of a target, the scan over the sorted intervals
with expiry, allocation, spilling and eviction, and the pass that afterwards reassigns registers.
A hash map is a function to `Option`, or an association list where the code iterates over it.
-/

namespace Vuma.Codegen

open IR

/-! ## Targets and results -/

/-- `backend::RegClass`. -/
inductive BackendRegClass where
  | gpr
  | simdFp
  | condition
  | special
  deriving DecidableEq, Repr

/-- `impl From<RegClass> for backend::RegClass`. -/
def RegClass.toBackend : RegClass → BackendRegClass
  | .gpr => .gpr
  | .simdFp => .simdFp

/-- `impl From<backend::RegClass> for RegClass`. -/
def BackendRegClass.toRegClass : BackendRegClass → RegClass
  | .simdFp => .simdFp
  | .gpr | .condition | .special => .gpr

structure PhysicalReg where
  cls : BackendRegClass
  index : Nat
  deriving DecidableEq, Repr

/-- `RegDesc`, as far as the allocator reads it. -/
structure RegDesc where
  cls : BackendRegClass
  index : Nat
  isAllocatable : Bool
  isCalleeSaved : Bool

/-- `TargetDesc`, as far as the allocator reads it. -/
structure TargetDesc where
  name : String
  registers : List RegDesc

structure GenericSpillSlot where
  index : Nat
  offset : Int
  cls : RegClass
  deriving DecidableEq, Repr

def GenericSpillSlot.sizeBytes (slot : GenericSpillSlot) : Nat :=
  match slot.cls with
  | .gpr => 8
  | .simdFp => 16

inductive GenericSpillCode where
  | spill (vreg : VReg) (preg : PhysicalReg) (slot : GenericSpillSlot)
  | reload (vreg : VReg) (preg : PhysicalReg) (slot : GenericSpillSlot)
  deriving DecidableEq, Repr

structure RegAllocResult where
  vregToPreg : AList (fun _ : VReg => PhysicalReg) := ∅
  spillSlots : AList (fun _ : VReg => GenericSpillSlot) := ∅
  totalSpillSlots : Nat := 0
  usedCalleeSaved : Finset PhysicalReg := ∅
  spillCode : Nat → List GenericSpillCode := fun _ => []
  liveIntervals : List LiveInterval := []
  coalescedMap : VReg → Option VReg := fun _ => none

namespace RegAllocResult

def resolveVreg (r : RegAllocResult) (vreg : VReg) : VReg := (r.coalescedMap vreg).getD vreg

/-- `spill_frame_bytes`, a `u32`. -/
def spillFrameBytes (r : RegAllocResult) : Nat :=
  (r.spillSlots.entries.map fun e => e.2.sizeBytes).sum % 2 ^ 32

def insertPreg (r : RegAllocResult) (vreg : VReg) (preg : PhysicalReg) : RegAllocResult :=
  { r with vregToPreg := r.vregToPreg.insert vreg preg }

def insertSlot (r : RegAllocResult) (vreg : VReg) (slot : GenericSpillSlot) : RegAllocResult :=
  { r with spillSlots := r.spillSlots.insert vreg slot }

/-- Append to the spill code of a position. -/
def pushCode (r : RegAllocResult) (pos : Nat) (code : GenericSpillCode) : RegAllocResult :=
  { r with spillCode := Function.update r.spillCode pos (r.spillCode pos ++ [code]) }

/-- Put in front of the spill code of a position. -/
def prependCode (r : RegAllocResult) (pos : Nat) (code : GenericSpillCode) : RegAllocResult :=
  { r with spillCode := Function.update r.spillCode pos (code :: r.spillCode pos) }

def genSpillReload (interval : LiveInterval) (scratch : PhysicalReg) (slot : GenericSpillSlot)
    (r : RegAllocResult) : RegAllocResult :=
  let r := interval.defPositions.foldl
    (fun r pos => r.pushCode (pos + 1) (.spill interval.vreg scratch slot)) r
  interval.usePositions.foldl
    (fun r pos => r.pushCode pos (.reload interval.vreg scratch slot)) r

def genEvictionSpillReload (vreg : VReg) (preg scratch : PhysicalReg)
    (interval : Option LiveInterval) (currentPos : Nat) (slot : GenericSpillSlot)
    (r : RegAllocResult) : RegAllocResult :=
  let r := r.prependCode currentPos (.spill vreg preg slot)
  match interval with
  | none => r
  | some interval =>
    let r := (interval.usePositions.filter (currentPos ≤ ·)).foldl
      (fun r pos => r.pushCode pos (.reload vreg scratch slot)) r
    (interval.defPositions.filter (currentPos < ·)).foldl
      (fun r pos => r.pushCode (pos + 1) (.spill vreg scratch slot)) r

end RegAllocResult

/-- `spill_offset`, an `i32`. -/
def spillOffset (slotIndex : Nat) (cls : RegClass) : Int :=
  let size : Int :=
    match cls with
    | .gpr => 8
    | .simdFp => 16
  (-((slotIndex + 1) * size)).bmod (2 ^ 32)

/-! ## The scan -/

structure TargetAgnosticRegAlloc where
  isaName : String
  callerSavedGprs : List PhysicalReg
  calleeSavedGprs : List PhysicalReg
  callerSavedFps : List PhysicalReg
  calleeSavedFps : List PhysicalReg

/-- An entry of `active`. -/
structure ActiveEntry where
  vreg : VReg
  preg : PhysicalReg
  stop : Nat
  weight : Nat
  deriving DecidableEq, Repr

/-- The active intervals and the free registers of one class. -/
structure Pools where
  active : List ActiveEntry
  freeCaller : List PhysicalReg
  freeCallee : List PhysicalReg

/-- All registers of the pools. -/
def Pools.regs (p : Pools) : List PhysicalReg :=
  p.freeCaller ++ p.freeCallee ++ p.active.map (·.preg)

/-- The variables of the loop of `allocate_intervals`. -/
structure ScanState where
  pools : RegClass → Pools
  nextSpillIndex : Nat := 0
  result : RegAllocResult := {}

/-- The place and the value of the first least element. -/
def minBy {α : Type} (lt : α → α → Bool) : List α → Option (Nat × α)
  | [] => none
  | a :: as =>
    match minBy lt as with
    | some (i, b) => if lt b a then some (i + 1, b) else some (0, a)
    | none => some (0, a)

/-- Evicted first: less weight, and the longer interval of two of the same weight. -/
def ActiveEntry.lt (a b : ActiveEntry) : Bool :=
  a.weight < b.weight || a.weight == b.weight && b.stop < a.stop

def expireOld (originalCallee : List PhysicalReg) (position : Nat) (p : Pools) : Pools :=
  let expired := (p.active.filter (·.stop < position)).map (·.preg)
  { active := p.active.filter (¬ ·.stop < position)
    freeCaller := p.freeCaller ++ expired.filter (· ∉ originalCallee)
    freeCallee := p.freeCallee ++ expired.filter (· ∈ originalCallee) }

/-- The register that the pools give out, and what is left: from the end of the preferred pool, else
from the end of the other one. -/
def popFree (crossesCall : Bool) (p : Pools) : Option (PhysicalReg × Pools) :=
  let fromCaller := p.freeCaller.getLast?.map
    fun r => (r, { p with freeCaller := p.freeCaller.dropLast })
  let fromCallee := p.freeCallee.getLast?.map
    fun r => (r, { p with freeCallee := p.freeCallee.dropLast })
  if crossesCall then fromCallee.or fromCaller else fromCaller.or fromCallee

namespace TargetAgnosticRegAlloc

/-- The allocatable registers of one class. -/
def allocatable (target : TargetDesc) (cls : BackendRegClass) (calleeSaved : Bool) :
    List PhysicalReg :=
  (target.registers.filter fun reg =>
    reg.isAllocatable && reg.cls = cls && reg.isCalleeSaved = calleeSaved).map
    fun reg => ⟨reg.cls, reg.index⟩

def new (target : TargetDesc) : TargetAgnosticRegAlloc where
  isaName := target.name
  callerSavedGprs := allocatable target .gpr false
  calleeSavedGprs := allocatable target .gpr true
  callerSavedFps := allocatable target .simdFp false
  calleeSavedFps := allocatable target .simdFp true

variable (a : TargetAgnosticRegAlloc)

def callerSaved : RegClass → List PhysicalReg
  | .gpr => a.callerSavedGprs
  | .simdFp => a.callerSavedFps

def calleeSaved : RegClass → List PhysicalReg
  | .gpr => a.calleeSavedGprs
  | .simdFp => a.calleeSavedFps

/-- The pool of the target for a class. -/
def pool (cls : RegClass) : List PhysicalReg := a.callerSaved cls ++ a.calleeSaved cls

def isCalleeSaved (preg : PhysicalReg) : Bool :=
  preg ∈ a.calleeSavedGprs || preg ∈ a.calleeSavedFps

def spillScratch (cls : RegClass) : PhysicalReg :=
  ⟨cls.toBackend, if a.isaName = "x86_64" ∧ cls = .gpr then 11 else 5⟩

def assign (interval : LiveInterval) (preg : PhysicalReg) (r : RegAllocResult) : RegAllocResult :=
  let r := r.insertPreg interval.vreg preg
  let r := if a.isCalleeSaved preg then { r with usedCalleeSaved := insert preg r.usedCalleeSaved }
    else r
  { r with
    coalescedMap := (interval.coalescedVregs.filter (· ≠ interval.vreg)).foldl
      (fun m v => Function.update m v (some interval.vreg)) r.coalescedMap }

/-- Spill an interval entirely. -/
def spillInterval (interval : LiveInterval) (s : ScanState) : ScanState :=
  let slot : GenericSpillSlot :=
    ⟨s.nextSpillIndex, spillOffset s.nextSpillIndex interval.cls, interval.cls⟩
  let scratch := a.spillScratch interval.cls
  { s with
    nextSpillIndex := s.nextSpillIndex + 1
    result := ((s.result.insertPreg interval.vreg scratch).genSpillReload interval scratch
      slot).insertSlot interval.vreg slot }

/-- Evict the active entry at `idx` for the sake of an interval. Its register goes to the free
registers and to the new active entry. -/
def evict (intervals : List LiveInterval) (interval : LiveInterval) (idx : Nat)
    (entry : ActiveEntry) (s : ScanState) : ScanState :=
  let slot : GenericSpillSlot :=
    ⟨s.nextSpillIndex, spillOffset s.nextSpillIndex interval.cls, interval.cls⟩
  let scratch := a.spillScratch interval.cls
  let r := (s.result.insertSlot entry.vreg slot).insertPreg entry.vreg scratch
  let r := { r with usedCalleeSaved := r.usedCalleeSaved.erase entry.preg }
  let r := r.genEvictionSpillReload entry.vreg entry.preg scratch
    (intervals.find? (·.vreg == entry.vreg)) interval.start slot
  let p := s.pools interval.cls
  let p : Pools :=
    { active := p.active.eraseIdx idx ++
        [⟨interval.vreg, entry.preg, interval.stop, interval.weightPerLength⟩]
      freeCaller := if a.isCalleeSaved entry.preg then p.freeCaller
        else p.freeCaller ++ [entry.preg]
      freeCallee := if a.isCalleeSaved entry.preg then p.freeCallee ++ [entry.preg]
        else p.freeCallee }
  { pools := Function.update s.pools interval.cls p
    nextSpillIndex := s.nextSpillIndex + 1
    result := a.assign interval entry.preg r }

/-- `try_alloc_reg` and `spill_or_evict`, with the assignment of the register that they return. -/
def tryAllocReg (intervals : List LiveInterval) (interval : LiveInterval) (s : ScanState) :
    ScanState :=
  match popFree interval.crossesCall (s.pools interval.cls) with
  | some (r, p) =>
    let p := { p with
      active := p.active ++ [⟨interval.vreg, r, interval.stop, interval.weightPerLength⟩] }
    { s with
      pools := Function.update s.pools interval.cls p
      result := a.assign interval r s.result }
  | none =>
    match minBy ActiveEntry.lt (s.pools interval.cls).active with
    | none => a.spillInterval interval s
    | some (idx, entry) =>
      if interval.weightPerLength ≤ entry.weight then a.spillInterval interval s
      else a.evict intervals interval idx entry s

/-- Expire the old intervals of both classes. -/
def expire (position : Nat) (s : ScanState) : ScanState :=
  { s with pools := fun cls => expireOld (a.calleeSaved cls) position (s.pools cls) }

/-- One round of the loop of `allocate_intervals`. -/
def scanStep (intervals : List LiveInterval) (s : ScanState) (interval : LiveInterval) :
    ScanState :=
  a.tryAllocReg intervals interval (a.expire interval.start s)

def scanStart : ScanState where
  pools cls := ⟨[], a.callerSaved cls, a.calleeSaved cls⟩

/-- The state of the loop after the first `n` intervals. -/
def scan (intervals : List LiveInterval) (n : Nat) : ScanState :=
  (intervals.take n).foldl (a.scanStep intervals) a.scanStart

def allocateIntervals (intervals : List LiveInterval) : RegAllocResult :=
  let s := a.scan intervals intervals.length
  { s.result with liveIntervals := intervals, totalSpillSlots := s.nextSpillIndex }

/-! ## Reassignment -/

/-- The registers of the other intervals that overlap that of `defVreg`. -/
def usedPregs (r : RegAllocResult) (intervals : List LiveInterval) (defVreg : VReg) :
    List PhysicalReg :=
  let defInterval := intervals.find? (·.vreg == defVreg)
  let defStop := (defInterval.map (·.stop)).getD (2 ^ 32 - 1)
  let defStart := (defInterval.map (·.start)).getD 0
  (r.vregToPreg.entries.filter fun e =>
    e.1 ≠ defVreg && (intervals.find? (·.vreg == e.1)).any
      fun i => i.start ≤ defStop && defStart ≤ i.stop).map (·.2)

/-- The registers to choose from in place of `preg`. -/
def candidates (preg : PhysicalReg) : List PhysicalReg :=
  if preg.cls = .gpr then a.callerSavedGprs ++ a.calleeSavedGprs
  else (List.range 32).map fun i => ⟨preg.cls, i⟩

def resolveSingleConflict (intervals : List LiveInterval) (defVreg : VReg)
    (conflictPreg : PhysicalReg) (r : RegAllocResult) : RegAllocResult :=
  let used := usedPregs r intervals defVreg
  match (a.candidates conflictPreg).find? fun c => c ≠ conflictPreg && c ∉ used with
  | some c => r.insertPreg defVreg c
  | none =>
    let cls : RegClass := if conflictPreg.cls = .gpr then .gpr else .simdFp
    let slot : GenericSpillSlot :=
      ⟨r.totalSpillSlots, spillOffset r.totalSpillSlots cls, cls⟩
    let scratch := a.spillScratch cls
    let r := { r with totalSpillSlots := r.totalSpillSlots + 1 }
    let r := (r.insertSlot defVreg slot).insertPreg defVreg scratch
    match intervals.find? (·.vreg == defVreg) with
    | some interval => r.genSpillReload interval scratch slot
    | none => r

/-- The representative of a register. -/
def rootOf (r : RegAllocResult) (vreg : VReg) : VReg := (r.coalescedMap vreg).getD vreg

/-- A definition against one use of the same instruction. -/
def checkUse (intervals : List LiveInterval) (pos : Nat) (defRoot : VReg) (defPreg : PhysicalReg)
    (r : RegAllocResult) (useVreg : VReg) : RegAllocResult :=
  let useRoot := rootOf r useVreg
  if useRoot = defRoot then r
  else
    match r.vregToPreg.lookup useRoot with
    | none => r
    | some usePreg =>
      let scratch := a.spillScratch usePreg.cls.toRegClass
      if usePreg ≠ defPreg ∨ usePreg = scratch ∨ defPreg = scratch then r
      else if (intervals.find? (·.vreg == useRoot)).any (pos < ·.stop) then
        a.resolveSingleConflict intervals defRoot defPreg r
      else r

/-- Some other register that is live across `pos` has been given `defPreg`. -/
def clobbers (intervals : List LiveInterval) (pos : Nat) (defRoot : VReg) (defPreg : PhysicalReg)
    (r : RegAllocResult) : Bool :=
  r.vregToPreg.entries.any fun e =>
    e.1 ≠ defRoot && e.2 = defPreg && rootOf r e.1 ≠ defRoot &&
      (intervals.find? (·.vreg == rootOf r e.1)).any fun i => i.start < pos && pos < i.stop

/-- One definition of an instruction. Only the first live register that shares its register counts,
and which one it is makes no difference. -/
def checkDef (intervals : List LiveInterval) (pos : Nat) (uses : List VReg) (r : RegAllocResult)
    (defVreg : VReg) : RegAllocResult :=
  let defRoot := rootOf r defVreg
  match r.vregToPreg.lookup defRoot with
  | none => r
  | some defPreg =>
    let r := uses.foldl (a.checkUse intervals pos defRoot defPreg) r
    match r.vregToPreg.lookup defRoot with
    | none => r
    | some defPreg =>
      if defPreg = a.spillScratch defPreg.cls.toRegClass then r
      else if clobbers intervals pos defRoot defPreg r then
        a.resolveSingleConflict intervals defRoot defPreg r
      else r

/-- The instructions of a block, from position `pos` on. -/
def checkInstrs (intervals : List LiveInterval) :
    List IRInstr → Nat → RegAllocResult → RegAllocResult
  | [], _, r => r
  | i :: is, pos, r =>
    checkInstrs intervals is (pos + 2)
      (i.definedRegs.foldl (a.checkDef intervals pos i.usedRegs) r)

/-- The blocks of a function, from position `pos` on. -/
def checkBlocks (intervals : List LiveInterval) :
    List IRBlock → Nat → RegAllocResult → RegAllocResult
  | [], _, r => r
  | b :: bs, pos, r =>
    checkBlocks intervals bs (pos + 2 * b.instructions.length + 2)
      (a.checkInstrs intervals b.instructions pos r)

def resolveRegisterReuseConflicts (f : IRFunction) (intervals : List LiveInterval)
    (r : RegAllocResult) : RegAllocResult :=
  a.checkBlocks intervals f.blocks 0 r

/-! ## Functions -/

/-- By start, and the longer interval first. -/
def sortIntervals (intervals : List LiveInterval) : List LiveInterval :=
  intervals.insertionSort fun i j => i.start < j.start ∨ i.start = j.start ∧ j.stop ≤ i.stop

/-- `allocate_function_with_classes`; `none` when the fuel of the liveness analysis runs out. -/
def allocateFunctionWithClasses (f : IRFunction) (classOf : VReg → RegClass) (fuel : Nat) :
    Option RegAllocResult :=
  (computeIntervals classOf f fuel).map fun intervals =>
    let intervals := sortIntervals intervals
    a.resolveRegisterReuseConflicts f intervals (a.allocateIntervals intervals)

def allocateFunction (f : IRFunction) (fuel : Nat) : Option RegAllocResult :=
  a.allocateFunctionWithClasses f (fun _ => .gpr) fuel

end TargetAgnosticRegAlloc

end Vuma.Codegen
