import Vuma.IR.Syntax

/-!
# The greedy register cache

`GreedyRegCache` of `regalloc.rs`: which register holds which virtual register, whether the value in
it is newer than the one on the stack, and the operations that the instruction selection calls. A
hash map is a function to `Option`; the set of caller-saved registers is a list, whose order makes
no difference. An operation that indexes out of bounds panics: `none`.
-/

namespace Vuma.Codegen

open IR

inductive VregLocation where
  | register (pregIndex : Nat) (dirty : Bool)
  | stack (offset : Int)
  | undef
  deriving DecidableEq, Repr

structure CachedRegState where
  vreg : Option VReg := none
  dirty : Bool := false
  lastUsed : Nat := 0
  deriving DecidableEq, Repr

structure GreedyRegCache where
  vregLocs : VReg → Option VregLocation
  regStates : List CachedRegState
  vregStackOffsets : VReg → Option Int
  allocRegs : List Nat
  callerSaved : List Nat
  calleeSaved : List Nat
  timestamp : Nat

namespace GreedyRegCache

def new (numRegs : Nat) (allocRegs callerSaved calleeSaved : List Nat)
    (vregStackOffsets : VReg → Option Int) : GreedyRegCache where
  vregLocs _ := none
  regStates := List.replicate numRegs {}
  vregStackOffsets := vregStackOffsets
  allocRegs := allocRegs
  callerSaved := callerSaved
  calleeSaved := calleeSaved
  timestamp := 0

variable (c : GreedyRegCache)

def stackOffset (vreg : VReg) : Int := (c.vregStackOffsets vreg).getD (-8)

def touch (preg : Nat) : GreedyRegCache :=
  let timestamp := (c.timestamp + 1) % 2 ^ 32
  { c with
    timestamp := timestamp
    regStates := c.regStates.modify preg fun r => { r with lastUsed := timestamp } }

def vregInReg (vreg : VReg) : Option Nat :=
  match c.vregLocs vreg with
  | some (.register preg _) => some preg
  | _ => none

/-- The register exists and holds nothing. -/
def isFree (preg : Nat) : Bool := c.regStates[preg]?.any (·.vreg.isNone)

/-- The virtual register that a register holds. -/
def occupant (preg : Nat) : Option VReg := c.regStates[preg]?.bind (·.vreg)

/-- Move what a register holds to the stack and free the register. -/
def moveToStack (preg : Nat) : GreedyRegCache :=
  { c with
    vregLocs :=
      match c.occupant preg with
      | some v => Function.update c.vregLocs v (some (.stack (c.stackOffset v)))
      | none => c.vregLocs
    regStates := c.regStates.set preg {} }

/-- One register of the loop of `evict_lru`: the best register so far, when it was used and whether
it is callee-saved. -/
def betterVictim (best : Nat × Nat × Bool) (preg : Nat) : Nat × Nat × Bool :=
  match c.regStates[preg]? with
  | none => best
  | some r =>
    if r.vreg.isSome then
      let isCallee := decide (preg ∈ c.calleeSaved)
      let better :=
        if isCallee ≠ best.2.2 then best.2.2 && !isCallee else decide (r.lastUsed < best.2.1)
      if better then (preg, r.lastUsed, isCallee) else best
    else best

/-- The register that `evict_lru` chooses; there is none if no register can be allocated. -/
def victim : Option Nat :=
  c.allocRegs.head?.map fun first =>
    (c.allocRegs.foldl c.betterVictim (first, 2 ^ 32 - 1, true)).1

def evictLru : Option ((Nat × Option VReg) × GreedyRegCache) :=
  match c.victim with
  | none => none
  | some preg =>
    if preg < c.regStates.length then some ((preg, c.occupant preg), c.moveToStack preg) else none

/-- The register that `alloc_reg` finds free. -/
def freeReg (hint : Option Nat) : Option Nat :=
  (hint.filter c.isFree).or (c.allocRegs.find? c.isFree)

def allocReg (hint : Option Nat) : Option ((Nat × Option VReg) × GreedyRegCache) :=
  match c.freeReg hint with
  | some preg => some ((preg, none), c)
  | none => c.evictLru

def assignVreg (vreg : VReg) (preg : Nat) (dirty : Bool) : GreedyRegCache :=
  if preg < c.regStates.length then
    let locs :=
      match c.occupant preg with
      | some old =>
        if old ≠ vreg then Function.update c.vregLocs old (some (.stack (c.stackOffset old)))
        else c.vregLocs
      | none => c.vregLocs
    { c with
      regStates := c.regStates.set preg ⟨some vreg, dirty, 0⟩
      vregLocs := Function.update locs vreg (some (.register preg dirty)) }
  else c

def readVreg (vreg : VReg) : Option ((Nat × Bool) × GreedyRegCache) :=
  match c.vregInReg vreg with
  | some preg => some ((preg, false), c.touch preg)
  | none =>
    (c.allocReg none).map fun ((preg, _), c) =>
      ((preg, true), (c.assignVreg vreg preg false).touch preg)

def allocVreg (vreg : VReg) (hint : Option Nat) : Option ((Nat × Bool) × GreedyRegCache) :=
  match c.vregInReg vreg with
  | some preg => some ((preg, false), c.touch preg)
  | none =>
    match hint.filter c.isFree with
    | some h => some ((h, false), (c.assignVreg vreg h true).touch h)
    | none =>
      (c.allocReg hint).map fun ((preg, evicted), c) =>
        ((preg, evicted.isSome), (c.assignVreg vreg preg true).touch preg)

/-- Set the dirty bit of a register in both maps. -/
def setDirty (vreg : VReg) (preg : Nat) (dirty : Bool) : GreedyRegCache :=
  { c with
    regStates := c.regStates.modify preg fun r => { r with dirty := dirty }
    vregLocs := Function.update c.vregLocs vreg (some (.register preg dirty)) }

/-- `mark_dirty` and `mark_clean`. -/
def mark (vreg : VReg) (dirty : Bool) : Option GreedyRegCache :=
  match c.vregInReg vreg with
  | some preg => if preg < c.regStates.length then some (c.setDirty vreg preg dirty) else none
  | none => some c

def markDirty (vreg : VReg) : Option GreedyRegCache := c.mark vreg true

def markClean (vreg : VReg) : Option GreedyRegCache := c.mark vreg false

def releaseVreg (vreg : VReg) : Option GreedyRegCache :=
  let locs := Function.update c.vregLocs vreg none
  match c.vregInReg vreg with
  | some preg =>
    if preg < c.regStates.length then
      some { c with regStates := c.regStates.set preg {}, vregLocs := locs }
    else none
  | none => some { c with vregLocs := locs }

/-- One register of a flush. -/
def flushReg (s : List (VReg × Nat × Int) × GreedyRegCache) (preg : Nat) :
    List (VReg × Nat × Int) × GreedyRegCache :=
  match s.2.regStates[preg]? with
  | some ⟨some v, true, _⟩ =>
    (s.1 ++ [(v, preg, s.2.stackOffset v)], s.2.setDirty v preg false)
  | _ => s

def flushAll : List (VReg × Nat × Int) × GreedyRegCache := c.allocRegs.foldl flushReg ([], c)

def flushCallerSaved : List (VReg × Nat × Int) × GreedyRegCache :=
  (c.allocRegs.filter (· ∈ c.callerSaved)).foldl flushReg ([], c)

def invalidateCallerSaved : GreedyRegCache := c.callerSaved.foldl moveToStack c

end GreedyRegCache

/-! ## Operations -/

/-- A call of an operation of the cache. -/
inductive CacheOp where
  | readVreg (vreg : VReg)
  | allocVreg (vreg : VReg) (hint : Option Nat)
  | allocReg (hint : Option Nat)
  | assignVreg (vreg : VReg) (preg : Nat) (dirty : Bool)
  | markDirty (vreg : VReg)
  | markClean (vreg : VReg)
  | releaseVreg (vreg : VReg)
  | flushAll
  | flushCallerSaved
  | invalidateCallerSaved
  deriving DecidableEq, Repr

/-- What an operation returns. -/
inductive CacheReply where
  | read (preg : Nat) (needsReload : Bool)
  | alloc (preg : Nat) (needsSpill : Bool)
  | reg (preg : Nat) (evicted : Option VReg)
  | spills (l : List (VReg × Nat × Int))
  | unit
  deriving DecidableEq, Repr

/-- The returned value says that a virtual register has to be spilled. -/
def CacheReply.TellsSpill (vreg : VReg) : CacheReply → Prop
  | .alloc _ needsSpill => needsSpill = true
  | .reg _ evicted => evicted = some vreg
  | .spills l => ∃ s ∈ l, s.1 = vreg
  | .read .. | .unit => False

/-- One operation. -/
def GreedyRegCache.op (c : GreedyRegCache) : CacheOp → Option (CacheReply × GreedyRegCache)
  | .readVreg v => (c.readVreg v).map fun r => (.read r.1.1 r.1.2, r.2)
  | .allocVreg v hint => (c.allocVreg v hint).map fun r => (.alloc r.1.1 r.1.2, r.2)
  | .allocReg hint => (c.allocReg hint).map fun r => (.reg r.1.1 r.1.2, r.2)
  | .assignVreg v preg dirty => some (.unit, c.assignVreg v preg dirty)
  | .markDirty v => (c.markDirty v).map (.unit, ·)
  | .markClean v => (c.markClean v).map (.unit, ·)
  | .releaseVreg v => (c.releaseVreg v).map (.unit, ·)
  | .flushAll => some (.spills c.flushAll.1, c.flushAll.2)
  | .flushCallerSaved => some (.spills c.flushCallerSaved.1, c.flushCallerSaved.2)
  | .invalidateCallerSaved => some (.unit, c.invalidateCallerSaved)

end Vuma.Codegen
