import Vuma.IR.Syntax

/-!
# Execution of IR functions

A function runs block by block. Entering a block fixes the label it was entered from and the
register file on that edge; every `Phi` of the block reads its operands from that register file,
so the phis of a block are evaluated in parallel. The other instructions read the current
registers. An instruction-level `Branch`, `CondBranch` or `Ret` transfers control at once, as in
the emitted code; when the instruction list is exhausted the terminator decides.

`Machine` collects what the IR leaves open: the target (pointer width, byte order, addresses of
symbols and frame slots), the operations this model does not interpret (floating point, vectors),
and the world outside the function. Calls and the other external operations may do anything to
the memory and the trace, so a statement for every `Machine` covers callees that are part of the
program as well as foreign ones.
-/

namespace Vuma.IR

/-! ## Integer operations at the width of a type -/

/-- The width at which an operation of the given type computes: 8, 16 or 32 bits for the narrow
integer types, 64 bits otherwise (`None` defaults to 64 bits). -/
def opWidth : Option IRType → Nat
  | some .i8 | some .u8 => 8
  | some .i16 | some .u16 => 16
  | some .i32 | some .u32 => 32
  | _ => 64

/-- Results of a signed narrow type are sign-extended into the register, others zero-extended. -/
def isSignedTy : Option IRType → Bool
  | some .i8 | some .i16 | some .i32 => true
  | _ => false

/-- Extend a result of an operation of type `ty` to a register. -/
def extendTo (ty : Option IRType) {w : Nat} (x : BitVec w) : Word :=
  if isSignedTy ty then x.signExtend 64 else x.setWidth 64

/-- The register contents of a value of type `ty`: its low bits, extended. -/
def canon (ty : Option IRType) (a : Word) : Word := extendTo ty (a.setWidth (opWidth ty))

/-- The register contents of a truth value. -/
def boolWord (b : Bool) : Word := if b then 1 else 0

/-- A binary operation on `w`-bit operands, the result extended by `ext`; `none` is a trap.
Shift and rotate amounts are taken modulo the width. -/
def binOpAt (w : Nat) (ext : BitVec w → Word) (op : BinOpKind) (x y : BitVec w) : Option Word :=
  match op with
  | .add => some (ext (x + y))
  | .sub => some (ext (x - y))
  | .mul => some (ext (x * y))
  | .sdiv => if y = 0 then none else some (ext (x.sdiv y))
  | .udiv => if y = 0 then none else some (ext (x / y))
  | .srem => if y = 0 then none else some (ext (x.srem y))
  | .urem => if y = 0 then none else some (ext (x % y))
  | .and => some (ext (x &&& y))
  | .or => some (ext (x ||| y))
  | .xor => some (ext (x ^^^ y))
  | .shl => some (ext (x <<< (y.toNat % w)))
  | .shrL => some (ext (x >>> (y.toNat % w)))
  | .shrA => some (ext (x.sshiftRight (y.toNat % w)))
  | .ror => some (ext (x.rotateRight (y.toNat % w)))
  | .rol => some (ext (x.rotateLeft (y.toNat % w)))
  | .slt => some (boolWord (x.slt y))
  | .sle => some (boolWord (x.sle y))
  | .sgt => some (boolWord (y.slt x))
  | .sge => some (boolWord (y.sle x))
  | .ult => some (boolWord (x.ult y))
  | .ule => some (boolWord (x.ule y))
  | .ugt => some (boolWord (y.ult x))
  | .uge => some (boolWord (y.ule x))
  | .eq => some (boolWord (x == y))
  | .ne => some (boolWord (x != y))

/-- An integer binary operation of type `ty` on register contents. -/
def intBinOp (op : BinOpKind) (ty : Option IRType) (a b : Word) : Option Word :=
  binOpAt (opWidth ty) (extendTo ty) op (a.setWidth (opWidth ty)) (b.setWidth (opWidth ty))

/-- `CmpKind` as the comparison operator it denotes. -/
def CmpKind.toBinOp : CmpKind → BinOpKind
  | .eq => .eq | .ne => .ne
  | .slt => .slt | .sle => .sle | .sgt => .sgt | .sge => .sge
  | .ult => .ult | .ule => .ule | .ugt => .ugt | .uge => .uge

/-- The comparison of two `w`-bit operands. -/
def cmpAt (kind : CmpKind) {w : Nat} (x y : BitVec w) : Bool :=
  match kind with
  | .eq => x == y
  | .ne => x != y
  | .slt => x.slt y
  | .sle => x.sle y
  | .sgt => y.slt x
  | .sge => y.sle x
  | .ult => x.ult y
  | .ule => x.ule y
  | .ugt => y.ult x
  | .uge => y.ule x

/-- A unary operation on a `w`-bit operand. -/
def unaryOpAt (w : Nat) (op : UnaryOpKind) (x : BitVec w) : BitVec w :=
  match op with
  | .neg => -x
  | .not => ~~~x
  | .clz => x.clz
  | .ctz => x.ctz
  | .popcnt => x.cpop

/-- An integer unary operation of type `ty` on register contents. -/
def intUnaryOp (op : UnaryOpKind) (ty : Option IRType) (a : Word) : Word :=
  extendTo ty (unaryOpAt (opWidth ty) op (a.setWidth (opWidth ty)))

/-- The integer casts: extend from the source width, then keep the target's low bits. -/
def intCast (kind : CastKind) (fromTy toTy : Option IRType) (a : Word) : Word :=
  match kind with
  | .zext => canon toTy ((a.setWidth (opWidth fromTy)).setWidth 64)
  | .sext => canon toTy ((a.setWidth (opWidth fromTy)).signExtend 64)
  | .trunc => canon toTy a
  | _ => a

/-! ## Memory, events and the machine -/

abbrev Byte := BitVec 8

/-- Byte-addressed memory. -/
abbrev Mem := Word → Byte

/-- What an execution does besides computing in registers. -/
inductive Event where
  | write (addr : Word) (bytes : List Byte)
  | bulkCopy (dst src len : Word)
  | bulkFill (dst : Word) (val : Byte) (len : Word)
  | call (func : String) (args : List Word)
  | callIndirect (ptr : Word) (args : List Word)
  | syscall (nr : Nat) (args : List Word)
  | free (ptr : Word)
  | channelOpen (elemTy : IRType)
  | channelSend (ch msg : Word) (ty : Option IRType)
  | channelRecv (ch : Word) (ty : Option IRType)
  | channelRecvTimeout (ch : Word) (ty : Option IRType) (timeoutMs : Nat)
  | channelRecvResult (ch : Word) (ty : Option IRType)
  | channelClose (ch : Word)
  | starkProof (input : Word) (constraints : List Word)
  deriving DecidableEq, Repr

/-- The memory and the events so far, the latest first. -/
structure World where
  mem : Mem
  trace : List Event

/-- How an execution ends. -/
inductive Outcome where
  | returned (values : List Word)
  | unwound (value : Word)
  | trap
  | exited
  | unreachable
  | noBlock
  deriving DecidableEq, Repr

/-- How a call ends. -/
inductive CallResult where
  | returned (values : List Word) (w : World)
  | unwound (value : Word) (w : World)
  | stopped (o : Outcome) (w : World)

/-- The answer of the environment to an event: a value, an error code, and the new memory. -/
structure Reply where
  value : Word
  err : Word
  mem : Mem

/-- What the IR leaves to the target and to the world outside the function. -/
structure Machine where
  ptrWidth : Nat
  bigEndian : Bool
  /-- The address of a symbol. -/
  symAddr : String → Word
  /-- The frame slot an `Alloc` with this destination and size yields. -/
  slot : VReg → Nat → Word
  /-- The size of a state layout. -/
  layoutSize : String → Nat
  floatBin : BinOpKind → IRType → Word → Word → Word
  floatUnary : UnaryOpKind → IRType → Word → Word
  floatCast : CastKind → Option IRType → Option IRType → Word → Word
  vector : VectorOpKind → Nat → Nat → Word → Word → Word
  /-- Run the named function. The callee gets the whole world and hands it back. -/
  call : World → String → List Word → CallResult
  /-- Answer any other external operation, already recorded in the trace; `none`: no return. -/
  respond : World → Event → Option Reply

/-- A machine whose callees and environment record what they are asked and answer zero. -/
instance : Inhabited Machine where
  default :=
    { ptrWidth := 8
      bigEndian := false
      symAddr := fun _ => 0
      slot := fun r _ => BitVec.ofNat 64 (4096 * (r + 1))
      layoutSize := fun _ => 0
      floatBin := fun _ _ _ _ => 0
      floatUnary := fun _ _ _ => 0
      floatCast := fun _ _ _ _ => 0
      vector := fun _ _ _ _ _ => 0
      call := fun w func args => .returned [0] { w with trace := .call func args :: w.trace }
      respond := fun w _ => some ⟨0, 0, w.mem⟩ }

namespace Machine

/-- The low `n` bytes of a word, least significant first. -/
def lowBytes (n : Nat) (v : Word) : List Byte :=
  (List.range n).map fun i => v.extractLsb' (8 * i) 8

/-- The word with the given bytes, least significant first. -/
def ofBytes : List Byte → Word
  | [] => 0
  | b :: bs => b.setWidth 64 ||| (ofBytes bs <<< 8)

/-- The number of bytes a load or store of type `ty` moves through a register. -/
def accessSize (M : Machine) (ty : IRType) : Nat := min 8 (sizeOfType M.ptrWidth ty)

/-- The bytes a store of type `ty` writes, lowest address first. -/
def encode (M : Machine) (ty : IRType) (v : Word) : List Byte :=
  let bytes := lowBytes (M.accessSize ty) v
  if M.bigEndian then bytes.reverse else bytes

/-- The register contents a load of type `ty` produces. -/
def load (M : Machine) (ty : IRType) (mem : Mem) (addr : Word) : Word :=
  let bytes := (List.range (M.accessSize ty)).map fun i => mem (addr + BitVec.ofNat 64 i)
  canon (some ty) (ofBytes (if M.bigEndian then bytes.reverse else bytes))

/-- A binary operation of the declared type. -/
def binOp (M : Machine) (op : BinOpKind) (ty : Option IRType) (a b : Word) : Option Word :=
  match ty with
  | some .f32 => some (M.floatBin op .f32 a b)
  | some .f64 => some (M.floatBin op .f64 a b)
  | _ => intBinOp op ty a b

/-- A comparison of the declared operand type. -/
def cmp (M : Machine) (kind : CmpKind) (ty : Option IRType) (a b : Word) : Word :=
  match ty with
  | some .f32 => M.floatBin kind.toBinOp .f32 a b
  | some .f64 => M.floatBin kind.toBinOp .f64 a b
  | _ => boolWord (cmpAt kind (a.setWidth (opWidth ty)) (b.setWidth (opWidth ty)))

/-- A unary operation of the declared type. -/
def unaryOp (M : Machine) (op : UnaryOpKind) (ty : Option IRType) (a : Word) : Word :=
  match ty with
  | some .f32 => M.floatUnary op .f32 a
  | some .f64 => M.floatUnary op .f64 a
  | _ => intUnaryOp op ty a

/-- A cast. -/
def cast (M : Machine) (kind : CastKind) (fromTy toTy : Option IRType) (a : Word) : Word :=
  match kind with
  | .zext | .sext | .trunc | .bitCast => intCast kind fromTy toTy a
  | _ => M.floatCast kind fromTy toTy a

end Machine

namespace World

/-- Write bytes to consecutive addresses. -/
def writeBytes (mem : Mem) (addr : Word) : List Byte → Mem
  | [] => mem
  | b :: bs => writeBytes (Function.update mem addr b) (addr + 1) bs

def store (w : World) (addr : Word) (bytes : List Byte) : World :=
  ⟨writeBytes w.mem addr bytes, .write addr bytes :: w.trace⟩

def bulkCopy (w : World) (dst src len : Word) : World :=
  ⟨fun a => if (a - dst).ult len then w.mem (src + (a - dst)) else w.mem a,
    .bulkCopy dst src len :: w.trace⟩

def bulkFill (w : World) (dst : Word) (val : Byte) (len : Word) : World :=
  ⟨fun a => if (a - dst).ult len then val else w.mem a, .bulkFill dst val len :: w.trace⟩

def record (w : World) (e : Event) : World := { w with trace := e :: w.trace }

end World

/-! ## Instructions -/

/-- The effect of one instruction: the values it writes to its destinations, or a transfer of
control. -/
inductive Effect where
  | next (writes : List (IRValue × Word)) (w : World)
  | jump (target : String) (w : World)
  | ret (values : List Word) (w : World)
  | stop (o : Outcome) (w : World)

/-- Perform an external operation and write what the environment answers. -/
def Machine.external (M : Machine) (w : World) (e : Event)
    (writes : Reply → List (IRValue × Word)) : Effect :=
  match M.respond (w.record e) e with
  | some r => .next (writes r) ⟨r.mem, e :: w.trace⟩
  | none => .stop .exited (w.record e)

/-- The effect of a call that has come back. -/
def CallResult.effect (dst : Option IRValue) : CallResult → Effect
  | .returned vs w => .next (dst.toList.map (·, vs.headD 0)) w
  | .unwound v w => .stop (.unwound v) w
  | .stopped o w => .stop o w

/-- The effect of an instruction whose operands evaluate by `ev`; `edge` evaluates the operands
of a `Phi` on the edge from `pred`. A `Phi` without an entry for that edge writes nothing. -/
def IRInstr.effect (M : Machine) (ev edge : IRValue → Word) (pred : Option String) (w : World) :
    IRInstr → Effect
  | load dst addr off ty => .next [(dst, M.load ty w.mem (ev addr + BitVec.ofInt 64 off))] w
  | store value addr off ty =>
    .next [] (w.store (ev addr + BitVec.ofInt 64 off) (M.encode ty (ev value)))
  | binOp op dst lhs rhs ty =>
    match M.binOp op ty (ev lhs) (ev rhs) with
    | some v => .next [(dst, v)] w
    | none => .stop .trap w
  | unaryOp op dst operand ty => .next [(dst, M.unaryOp op ty (ev operand))] w
  | call dst func args _ => (M.call w func (args.map ev)).effect dst
  | alloc dst size =>
    match dst with
    | .register r => .next [(dst, M.slot r size)] w
    | _ => .next [] w
  | free ptr => M.external w (.free (ev ptr)) fun _ => []
  | cast kind dst src fromTy toTy => .next [(dst, M.cast kind fromTy toTy (ev src))] w
  | phi dst incoming =>
    match incoming.find? (fun e => some e.2 == pred) with
    | some e => .next [(dst, edge e.1)] w
    | none => .next [] w
  | getAddress dst name => .next [(dst, M.symAddr name)] w
  | offset dst base off => .next [(dst, ev base + ev off)] w
  | select dst cond t f ty =>
    .next [(dst, canon ty (if ev cond = 0 then ev f else ev t))] w
  | add dst lhs rhs ty => .next [(dst, extendTo ty
      ((ev lhs).setWidth (opWidth ty) + (ev rhs).setWidth (opWidth ty)))] w
  | sub dst lhs rhs ty => .next [(dst, extendTo ty
      ((ev lhs).setWidth (opWidth ty) - (ev rhs).setWidth (opWidth ty)))] w
  | mul dst lhs rhs ty => .next [(dst, extendTo ty
      ((ev lhs).setWidth (opWidth ty) * (ev rhs).setWidth (opWidth ty)))] w
  | div dst lhs rhs ty =>
    match intBinOp .sdiv ty (ev lhs) (ev rhs) with
    | some v => .next [(dst, v)] w
    | none => .stop .trap w
  | cmp kind dst lhs rhs ty => .next [(dst, M.cmp kind ty (ev lhs) (ev rhs))] w
  | atomicLoad dst addr ty => .next [(dst, M.load ty w.mem (ev addr))] w
  | atomicStore value addr ty => .next [] (w.store (ev addr) (M.encode ty (ev value)))
  | atomicCas dst addr expected desired ty =>
    let old := M.load ty w.mem (ev addr)
    .next [(dst, old)]
      (if old = canon (some ty) (ev expected) then
        w.store (ev addr) (M.encode ty (ev desired)) else w)
  | ret values => .ret (values.map ev) w
  | branch target => .jump target w
  | condBranch cond t f => .jump (if ev cond = 0 then f else t) w
  | ctSelect dst cond t f ty =>
    .next [(dst, canon ty (if ev cond = 0 then ev f else ev t))] w
  | ctEq dst lhs rhs ty => .next [(dst, boolWord
      ((ev lhs).setWidth (opWidth ty) == (ev rhs).setWidth (opWidth ty)))] w
  | syscall nr args dst =>
    M.external w (.syscall nr (args.map ev)) fun r => dst.toList.map (·, r.value)
  | vectorOp op lanes elemSize dst lhs rhs =>
    .next [(dst, M.vector op lanes elemSize (ev lhs) (ev rhs))] w
  | channelOpen dst elemTy => M.external w (.channelOpen elemTy) fun r => [(dst, r.value)]
  | channelSend ch msg ty => M.external w (.channelSend (ev ch) (ev msg) ty) fun _ => []
  | channelRecv ch dst ty => M.external w (.channelRecv (ev ch) ty) fun r => [(dst, r.value)]
  | channelRecvTimeout ch dst ty ms =>
    M.external w (.channelRecvTimeout (ev ch) ty ms) fun r => [(dst, r.value)]
  | channelRecvResult ch dst errDst ty =>
    M.external w (.channelRecvResult (ev ch) ty) fun r => [(dst, r.value), (errDst, r.err)]
  | channelClose ch => M.external w (.channelClose (ev ch)) fun _ => []
  | starkProof input dst constraints =>
    M.external w (.starkProof (ev input) constraints) fun r => [(dst, r.value)]
  | callIndirect dst funcPtr args =>
    M.external w (.callIndirect (ev funcPtr) (args.map ev)) fun r => dst.toList.map (·, r.value)
  | bulkCopy dst src len => .next [] (w.bulkCopy (ev dst) (ev src) (ev len))
  | bulkFill dst val len => .next [] (w.bulkFill (ev dst) ((ev val).setWidth 8) (ev len))
  | transform dst src fromLayout toLayout =>
    if M.layoutSize fromLayout = M.layoutSize toLayout then .next [(dst, ev src)] w
    else .stop .trap w

/-! ## Blocks and runs -/

/-- A register file. -/
abbrev Regs := VReg → Word

/-- The value of an operand. -/
def IRValue.eval (M : Machine) (regs : Regs) : IRValue → Word
  | .register r => regs r
  | .immediate v => v
  | .address a => a
  | .label name => M.symAddr name

/-- Write a value to a destination; only registers can be written. -/
def Regs.write (regs : Regs) : IRValue × Word → Regs
  | (.register r, v) => Function.update regs r v
  | _ => regs

def Regs.writes (regs : Regs) (ws : List (IRValue × Word)) : Regs := ws.foldl Regs.write regs

/-- A point between two blocks of a run: about to enter the block `label`, coming from `pred`;
or finished. -/
inductive Config where
  | enter (label : String) (pred : Option String) (regs : Regs) (w : World)
  | done (o : Outcome) (w : World)

/-- The effect of a block terminator of the block `label`. -/
def IRTerminator.exec (M : Machine) (label : String) (regs : Regs) (w : World) :
    IRTerminator → Config
  | jump target => .enter target (some label) regs w
  | branch cond t f => .enter (if cond.eval M regs = 0 then f else t) (some label) regs w
  | ret values => .done (.returned (values.map (·.eval M regs))) w
  | unreachable => .done .unreachable w
  | switch discr targets default =>
    let target := ((targets.find? (fun t => t.1 == discr.eval M regs)).map Prod.snd).getD default
    .enter target (some label) regs w
  | invoke dst func args normal unwind =>
    match M.call w func (args.map (·.eval M regs)) with
    | .returned vs w' =>
      .enter normal (some label) (regs.writes (dst.toList.map (·, vs.headD 0))) w'
    | .unwound _ w' => .enter unwind (some label) regs w'
    | .stopped o w' => .done o w'
  | tailCall func args =>
    match M.call w func (args.map (·.eval M regs)) with
    | .returned vs w' => .done (.returned vs) w'
    | .unwound v w' => .done (.unwound v) w'
    | .stopped o w' => .done o w'
  | resume value => .done (.unwound (value.eval M regs)) w

/-- Where control is after some instructions of a block: still in it, or gone. -/
inductive Flow where
  | stay (regs : Regs) (w : World)
  | leave (c : Config)

/-- Carry on with `k` when control is still in the block. -/
def Flow.andThen (k : Regs → World → Flow) : Flow → Flow
  | .stay regs w => k regs w
  | .leave c => .leave c

/-- Finish a block with `k` when control is still in it. -/
def Flow.finish (k : Regs → World → Config) : Flow → Config
  | .stay regs w => k regs w
  | .leave c => c

/-- Apply the effect of an instruction of the block `label` to its registers. -/
def Effect.flow (label : String) (regs : Regs) : Effect → Flow
  | .next ws w => .stay (regs.writes ws) w
  | .jump target w => .leave (.enter target (some label) regs w)
  | .ret vs w => .leave (.done (.returned vs) w)
  | .stop o w => .leave (.done o w)

/-- Execute instructions of the block `label`; `edge` is the register file with which the block
was entered from `pred`. -/
def execInstrs (M : Machine) (label : String) (pred : Option String) (edge : Regs) :
    List IRInstr → Regs → World → Flow
  | [], regs, w => .stay regs w
  | i :: is, regs, w =>
    ((i.effect M (·.eval M regs) (·.eval M edge) pred w).flow label regs).andThen
      (execInstrs M label pred edge is)

/-- Execute a block entered from `pred`. -/
def IRBlock.exec (M : Machine) (b : IRBlock) (pred : Option String) (regs : Regs) (w : World) :
    Config :=
  (execInstrs M b.label pred regs b.instructions regs w).finish
    (fun regs w => b.terminator.exec M b.label regs w)

/-- One step of a run: execute one block. -/
def IRFunction.step (M : Machine) (f : IRFunction) : Config → Config
  | .enter label pred regs w =>
    match f.blockAt label with
    | some b => b.exec M pred regs w
    | none => .done .noBlock w
  | .done o w => .done o w

/-- The configuration in which a run of `f` starts: at its first block. -/
def IRFunction.start (f : IRFunction) (regs : Regs) (w : World) : Config :=
  match f.blocks with
  | b :: _ => .enter b.label none regs w
  | [] => .done .noBlock w

/-- The configuration after `n` blocks of the run of `f` on the given registers and world. -/
def IRFunction.run (M : Machine) (f : IRFunction) (regs : Regs) (w : World) (n : Nat) : Config :=
  (f.step M)^[n] (f.start regs w)

/-- What can be observed of a configuration: the outcome of a finished run, the memory, and the
events so far. -/
def Config.obs : Config → Option Outcome × Mem × List Event
  | .enter _ _ _ w => (none, w.mem, w.trace)
  | .done o w => (some o, w.mem, w.trace)

end Vuma.IR
