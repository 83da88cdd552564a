import Vuma.Opt.DeadStore
import Vuma.Codegen.SchedulerCorrect

/-!
# The proof-directed scheduler

`build_happens_before_dag`, `schedule_instructions` and `schedule_with_provenance` of `opt.rs`: list
scheduling of each block along a graph of data dependences, loads and stores first. The graph has
no edge from a use of a register to a later definition of it, none between memory accesses through
registers of different provenance, and none between a store and a division.

A block keeps its meaning when the edges that are there connect what would need these
(`scheduleWithProvenance_preserves`).
-/

namespace Vuma.Opt

open IR Lib Codegen

/-! ## The happens-before graph -/

/-- Rule 1: a definition and a later use. -/
def rawEdge (x y : IRInstr) : Bool := x.definedRegs.any y.usedRegs.contains

/-- Rule 2: two definitions. -/
def wawEdge (x y : IRInstr) : Bool := x.definedRegs.any y.definedRegs.contains

/-- `MemOp`: the register of the address, and whether memory is written. -/
def memOp : IRInstr → Option (Option VReg × Bool)
  | .load _ addr _ _ => some (addr.asRegister, false)
  | .store _ addr _ _ => some (addr.asRegister, true)
  | _ => none

def nonAliasing (prov : Provenance) : Option VReg → Option VReg → Bool
  | some a, some b => iveProvenNonAliasingWith prov a b
  | _, _ => false

/-- Rule 3: memory accesses, one of which writes. -/
def memEdge (prov : Provenance) (x y : IRInstr) : Bool :=
  match memOp x, memOp y with
  | some (a, writesA), some (b, writesB) => (writesA || writesB) && !nonAliasing prov a b
  | _, _ => false

/-- Rule 4: an `Alloc` and the `Free` of what derives from it. -/
def allocFreeEdge (prov : Provenance) : IRInstr → IRInstr → Bool
  | .alloc dst _, .free ptr =>
    dst.asRegister.any fun root => ptr.asRegister.any fun p => prov p == some root
  | _, _ => false

/-- The four rules. -/
def happensBefore (prov : Provenance) (x y : IRInstr) : Bool :=
  rawEdge x y || wawEdge x y || memEdge prov x y || allocFreeEdge prov x y

/-- The edges of a block whose first instruction has the global index `base`. An instruction that
defines a register twice has an edge to itself, which nothing looks at. -/
def blockDag (prov : Provenance) (base : Nat) (instrs : List IRInstr) : List (Nat × Nat) :=
  instrs.zipIdx.flatMap fun x => instrs.zipIdx.filterMap fun y =>
    if x.2 < y.2 ∧ happensBefore prov x.1 y.1 = true ∨ x.2 = y.2 ∧ ¬x.1.definedRegs.Nodup then
      some (base + x.2, base + y.2)
    else none

/-- `build_happens_before_dag`, from the block whose first instruction has the index `base`. -/
def dagFrom (prov : Provenance) (base : Nat) : List IRBlock → List (Nat × Nat)
  | [] => []
  | b :: bs =>
    blockDag prov base b.instructions ++ dagFrom prov (base + b.instructions.length) bs

def buildHappensBeforeDag (f : IRFunction) (prov : Provenance) : List (Nat × Nat) :=
  dagFrom prov 0 f.blocks

/-! ## List scheduling -/

def isSchedulerBarrier : IRInstr → Bool
  | .load .. | .store .. | .binOp .. | .unaryOp .. | .alloc .. | .cast .. | .getAddress ..
  | .offset .. | .select .. | .add .. | .sub .. | .mul .. | .div .. | .cmp .. | .ctSelect ..
  | .ctEq .. | .vectorOp .. => false
  | _ => true

def schedulerPriority : IRInstr → Nat
  | .load .. | .store .. => 0
  | _ => 1

section Block

variable (instrs : List IRInstr) (base : Nat) (dag : List (Nat × Nat))

/-- The instruction at an index is a barrier. -/
def barrierAt (i : Nat) : Bool := instrs[i]?.any isSchedulerBarrier

/-- `adj[i]` contains `j`. -/
def schedEdge (i j : Nat) : Bool :=
  decide (i < j) && (dag.contains (base + i, base + j) || barrierAt instrs i || barrierAt instrs j)

/-- The nodes with an edge to `j`. -/
def schedPreds (j : Nat) : List Nat :=
  (List.range instrs.length).filter fun i => schedEdge instrs base dag i j

/-- `adj[i]`. -/
def schedSuccs (i : Nat) : List Nat :=
  (List.range instrs.length).filter fun j => schedEdge instrs base dag i j

/-- The priority of the instruction at an index. -/
def priorityAt (i : Nat) : Nat := (instrs[i]?.map schedulerPriority).getD 0

/-- The order in which ready nodes are picked: by priority, then by index. -/
def pickedFirst (a b : Nat) : Prop :=
  priorityAt instrs a < priorityAt instrs b ∨ priorityAt instrs a = priorityAt instrs b ∧ a ≤ b

instance : DecidableRel (pickedFirst instrs) := fun a b => by
  unfold pickedFirst
  infer_instance

/-- `ready`, `indeg` and `order`. -/
structure ListState where
  ready : List Nat
  indeg : Nat → Nat
  order : List Nat

/-- One round of the loop. -/
def listStep (s : ListState) : ListState :=
  match s.ready.insertionSort (pickedFirst instrs) with
  | [] => s
  | pick :: rest =>
    let succs := schedSuccs instrs base dag pick
    let indeg j := if j ∈ succs then s.indeg j - 1 else s.indeg j
    { ready := rest ++ succs.filter fun j => indeg j = 0
      indeg := indeg
      order := s.order ++ [pick] }

/-- `while !ready.is_empty()`, at most `fuel` times. -/
def listLoop : Nat → ListState → ListState
  | 0, s => s
  | fuel + 1, s => if s.ready = [] then s else listLoop fuel (listStep instrs base dag s)

/-- `order` after the loop. Every round emits a node. -/
def listOrder : List Nat :=
  let indeg j := (schedPreds instrs base dag j).length
  let ready := (List.range instrs.length).filter fun i => indeg i = 0
  (listLoop instrs base dag instrs.length ⟨ready, indeg, []⟩).order

def scheduleBlockInstructions : List IRInstr :=
  if instrs.length ≤ 1 then instrs
  else
    let order := listOrder instrs base dag
    if order.length ≠ instrs.length then instrs else order.filterMap (instrs[·]?)

end Block

/-- The blocks of `schedule_instructions`, from the global index `base` on. -/
def scheduleBlocks (dag : List (Nat × Nat)) (base : Nat) : List IRBlock → List IRBlock
  | [] => []
  | b :: bs =>
    { b with instructions := scheduleBlockInstructions b.instructions base dag } ::
      scheduleBlocks dag
        (base + (scheduleBlockInstructions b.instructions base dag).length) bs

def scheduleInstructions (f : IRFunction) (dag : List (Nat × Nat)) : IRFunction :=
  { f with blocks := scheduleBlocks dag 0 f.blocks }

def scheduleWithProvenance (f : IRFunction) (prov : Provenance) : IRFunction :=
  scheduleInstructions f (buildHappensBeforeDag f prov)

end Vuma.Opt
