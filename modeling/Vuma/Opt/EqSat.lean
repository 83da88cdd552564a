import Vuma.Opt.EGraphSound
import Vuma.IR.Lockstep

/-!
# Equality saturation

`equality_saturation_with_cost` of `opt.rs` puts the arithmetic of a block into an e-graph, saturates
it, and replaces every instruction by what is extracted for the class of its destination.

Both tables of the pass are keyed by registers as if a register were assigned once.
`vreg_to_eclass` is looked up after the whole block has been read, so an instruction gets the class
of the last assignment to its destination. `eclass_to_value` names a register for a class, whatever
has happened to that register since. An operand that is an address or a label counts as zero, and
`Div` counts as an unsigned division.

`eqSatSafe` follows the registers through a block and asks, at every instruction that the pass
changes, whether the tables still tell the truth there.
-/

namespace Vuma.Opt

open IR

/-- The order in which the hash set of registers is iterated over. -/
structure RegOrder where
  order : List VReg → List VReg
  perm : ∀ rs, (order rs).Perm rs

/-- What the pass gets from outside: the orders of the hash sets, and the verdict on the rules. -/
structure SatEnv where
  nodes : IterOrder
  regs : RegOrder
  gate : List RewriteRule → Bool

def defaultCost : ENode → Nat
  | .lit _ => 1
  | .vreg _ => 10
  | .binOp op _ _ =>
    match op with
    | .add | .sub => 100
    | .and | .or | .xor => 90
    | .shl | .shrL | .shrA => 95
    | .mul => 200
    | .udiv | .sdiv | .srem | .urem => 1000
    | .eq | .ne | .slt | .sle | .sgt | .sge | .ult | .ule | .ugt | .uge => 110
    | _ => 100

/-- The operation, destination and operands of the instructions that go into the e-graph. -/
def arithmetic : IRInstr → Option (BinOpKind × IRValue × IRValue × IRValue)
  | .binOp op dst lhs rhs _ => some (op, dst, lhs, rhs)
  | .add dst lhs rhs _ => some (.add, dst, lhs, rhs)
  | .sub dst lhs rhs _ => some (.sub, dst, lhs, rhs)
  | .mul dst lhs rhs _ => some (.mul, dst, lhs, rhs)
  | .div dst lhs rhs _ => some (.udiv, dst, lhs, rhs)
  | _ => none

/-- The e-graph of a block with `vreg_to_eclass` and `eclass_to_value`. -/
structure SatTables where
  graph : EGraph := {}
  vregToEclass : VReg → Option EClassId := fun _ => none
  eclassToValue : EClassId → Option IRValue := fun _ => none

def valueToENode (vregMap : VReg → Option EClassId) : IRValue → ENode
  | .immediate v => .lit v
  | .register r =>
    match vregMap r with
    | some c => .vreg c
    | none => .lit 0
  | _ => .lit 0

/-- `entry(c).or_insert(v)`. -/
def orInsert (values : EClassId → Option IRValue) (c : EClassId) (v : IRValue) :
    EClassId → Option IRValue :=
  Function.update values c (some ((values c).getD v))

def allRegs (is : List IRInstr) : List VReg :=
  (is.flatMap fun i => i.usedRegs ++ i.definedRegs.take 1).dedup

namespace SatTables

/-- The class of a register that is not known yet. Registers are 32-bit numbers. -/
def register (t : SatTables) (r : VReg) : SatTables :=
  match t.vregToEclass r with
  | some _ => t
  | none =>
    let c := t.graph.add (.vreg ((1000000 + r) % 2 ^ 32))
    { graph := c.2
      vregToEclass := Function.update t.vregToEclass r (some c.1)
      eclassToValue := Function.update t.eclassToValue c.1 (some (.register r)) }

/-- The first pass at one instruction. -/
def addInstr (t : SatTables) (i : IRInstr) : SatTables :=
  match arithmetic i with
  | none => t
  | some (op, dst, lhs, rhs) =>
    let l := t.graph.add (valueToENode t.vregToEclass lhs)
    let r := l.2.add (valueToENode t.vregToEclass rhs)
    let values := orInsert (orInsert t.eclassToValue l.1 lhs) r.1 rhs
    let b := r.2.add (.binOp op l.1 r.1)
    match dst.asRegister with
    | some d =>
      { graph := b.2
        vregToEclass := Function.update t.vregToEclass d (some b.1)
        eclassToValue := Function.update values b.1 (some dst) }
    | none => { t with graph := b.2, eclassToValue := values }

/-- The tables with a class for every register of the block. -/
def leaves (env : SatEnv) (is : List IRInstr) : SatTables :=
  (env.regs.order (allRegs is)).foldl register {}

/-- The tables after the first pass. -/
def build (env : SatEnv) (is : List IRInstr) : SatTables := is.foldl addInstr (leaves env is)

/-- The saturated e-graph. -/
def saturated (env : SatEnv) (t : SatTables) : EGraph :=
  t.graph.saturate env.gate (standardRules env.nodes) 10

/-- The node that is extracted for a destination. -/
def best (t : SatTables) (g : EGraph) (costFn : ENode → Nat) (dst : IRValue) : Option ENode :=
  (dst.asRegister.bind t.vregToEclass).map fun c => g.extract c costFn

/-- What becomes of the operands of an `Add` or a `Sub`. -/
def sumOperands (t : SatTables) (best : Option ENode) (lhs rhs : IRValue) : IRValue × IRValue :=
  match best with
  | some (.lit v) => (.immediate v, .immediate 0)
  | some (.vreg c) =>
    match t.eclassToValue c with
    | some x => (x, .immediate 0)
    | none => (lhs, rhs)
  | _ => (lhs, rhs)

/-- What becomes of the operands of a `Mul` or a `Div`. -/
def productOperands (best : Option ENode) (lhs rhs : IRValue) : IRValue × IRValue :=
  match best with
  | some (.lit v) => (.immediate v, .immediate 1)
  | _ => (lhs, rhs)

/-- What becomes of a `BinOp`. -/
def binOpOperands (t : SatTables) (best : Option ENode) (op : BinOpKind) (lhs rhs : IRValue) :
    BinOpKind × IRValue × IRValue :=
  match best with
  | some (.lit v) => (.add, .immediate v, .immediate 0)
  | some (.vreg c) =>
    match t.eclassToValue c with
    | some x => (.add, x, .immediate 0)
    | none => (op, lhs, rhs)
  | some (.binOp op' l r) =>
    match t.eclassToValue l, t.eclassToValue r with
    | some x, some y => (op', x, y)
    | _, _ => (op, lhs, rhs)
  | none => (op, lhs, rhs)

/-- The second pass at one instruction. -/
def rewriteInstr (t : SatTables) (g : EGraph) (costFn : ENode → Nat) : IRInstr → IRInstr
  | .binOp op dst lhs rhs ty =>
    let n := t.binOpOperands (t.best g costFn dst) op lhs rhs
    .binOp n.1 dst n.2.1 n.2.2 ty
  | .add dst lhs rhs ty =>
    let n := t.sumOperands (t.best g costFn dst) lhs rhs
    .add dst n.1 n.2 ty
  | .sub dst lhs rhs ty =>
    let n := t.sumOperands (t.best g costFn dst) lhs rhs
    .sub dst n.1 n.2 ty
  | .mul dst lhs rhs ty =>
    let n := productOperands (t.best g costFn dst) lhs rhs
    .mul dst n.1 n.2 ty
  | .div dst lhs rhs ty =>
    let n := productOperands (t.best g costFn dst) lhs rhs
    .div dst n.1 n.2 ty
  | i => i

end SatTables

/-- The pass on a block. -/
def eqSatBlock (env : SatEnv) (costFn : ENode → Nat) (b : IRBlock) : IRBlock :=
  let t := SatTables.build env b.instructions
  { b with instructions := b.instructions.map (t.rewriteInstr (t.saturated env) costFn) }

def equalitySaturationWithCost (env : SatEnv) (f : IRFunction) (costFn : ENode → Nat) :
    IRFunction :=
  f.mapBlocks (eqSatBlock env costFn)

/-! ## Following the registers -/

/-- The registers that an instruction of the e-graph reads. -/
def arithReads (i : IRInstr) : List VReg := if (arithmetic i).isSome then i.usedRegs else []

/-- The next thing that happens to the register is that arithmetic reads it. -/
def readNext (r : VReg) : List IRInstr → Bool
  | [] => false
  | i :: is => r ∈ arithReads i || (r ∉ i.definedRegs && readNext r is)

/-- The registers that arithmetic has read or assigned, and the class whose value they hold. -/
structure Track where
  touched : VReg → Bool := fun _ => false
  held : VReg → Option EClassId := fun _ => none

/-- The class whose value a register holds before the instructions `is`. The first class of a register
stands for what it holds when arithmetic first reads it. -/
def Track.current (leaf : VReg → Option EClassId) (tr : Track) (is : List IRInstr) (r : VReg) :
    Option EClassId :=
  if tr.touched r then tr.held r else if readNext r is then leaf r else none

/-- The operand has the value of its class in the e-graph. -/
def operandOk (current : VReg → Option EClassId) (t : SatTables) : IRValue → Bool
  | .immediate _ => true
  | .register r => (current r).isSome && current r == t.vregToEclass r
  | _ => false

/-- A value that is named for a class has the value of the class. -/
def valueOk (current : VReg → Option EClassId) (t : SatTables) (c : EClassId) : IRValue → Bool
  | .immediate _ => true
  | .register r =>
    (current r).any fun c' => c' == c || t.graph.hashcons (.vreg c') == some c
  | _ => false

/-- In a block with a `Div`, the unsigned divisions of the e-graph are signed. -/
def faithful (hasDiv : Bool) : IRInstr → Bool
  | .binOp .udiv .. => !hasDiv
  | _ => true

def isDiv : IRInstr → Bool
  | .div .. => true
  | _ => false

/-- The registers after one instruction, with the tables `t` before it. -/
def Track.step (leaf : VReg → Option EClassId) (hasDiv : Bool) (t : SatTables) (tr : Track)
    (i : IRInstr) (is : List IRInstr) : Track :=
  match arithmetic i with
  | none => { tr with held := fun r => if r ∈ i.definedRegs then none else tr.held r }
  | some (_, dst, lhs, rhs) =>
    let current := tr.current leaf (i :: is)
    let touched := fun r => tr.touched r || decide (r ∈ i.usedRegs)
    let held := fun r => if r ∈ i.usedRegs then current r else tr.held r
    match dst.asRegister with
    | none => ⟨touched, held⟩
    | some d =>
      ⟨Function.update touched d true, Function.update held d
        (if operandOk current t lhs && operandOk current t rhs && faithful hasDiv i then
          (t.addInstr i).vregToEclass d else none)⟩

/-- The tables tell the truth about an instruction: the class of its destination is its own, its
operands have the values of their classes, and so has every value that is put in their place. -/
def rewriteOk (t' : SatTables) (g : EGraph) (costFn : ENode → Nat)
    (current : VReg → Option EClassId) (t : SatTables) (i : IRInstr) : Bool :=
  match arithmetic i with
  | none => true
  | some (_, dst, lhs, rhs) =>
    dst.asRegister.bind t'.vregToEclass == dst.asRegister.bind (t.addInstr i).vregToEclass &&
      operandOk current t lhs && operandOk current t rhs &&
      (t'.best g costFn dst).all fun n =>
        n.refs.all fun c => (t'.eclassToValue c).all (valueOk current t' c)

/-- The tables tell the truth about every instruction that is changed. -/
def eqSatSafe (t' : SatTables) (g : EGraph) (costFn : ENode → Nat) (leaf : VReg → Option EClassId)
    (hasDiv : Bool) : List IRInstr → SatTables → Track → Bool
  | [], _, _ => true
  | i :: is, t, tr =>
    (t'.rewriteInstr g costFn i == i || rewriteOk t' g costFn (tr.current leaf (i :: is)) t i) &&
      eqSatSafe t' g costFn leaf hasDiv is (t.addInstr i) (tr.step leaf hasDiv t i is)

/-- Where the pass is right about a block: the numbers of its registers do not meet those of classes,
and the tables tell the truth about every instruction that is changed. -/
def EqSatSafe (env : SatEnv) (costFn : ENode → Nat) (b : IRBlock) : Prop :=
  let t := SatTables.build env b.instructions
  let leaves := SatTables.leaves env b.instructions
  (∀ r ∈ allRegs b.instructions, 1000000 + r < 2 ^ 32) ∧ (t.saturated env).nextId ≤ 1000000 ∧
    eqSatSafe t (t.saturated env) costFn leaves.vregToEclass (b.instructions.any isDiv)
      b.instructions leaves {}

/-- The arithmetic of the instruction is on 64-bit integers. -/
def is64Bit : IRInstr → Bool
  | .binOp _ _ _ _ ty | .add _ _ _ ty | .sub _ _ _ ty | .mul _ _ _ ty | .div _ _ _ ty =>
    opWidth ty == 64 && !(ty.map IRType.isFloat).getD false
  | _ => true

end Vuma.Opt
