import Mathlib

/-!
# The intermediate representation

The data model of `src/codegen/src/ir.rs`: types, operand values, the instruction set, block
terminators, blocks, functions and programs, with the queries every pass relies on
(`definedRegs`, `usedRegs`, `successorLabels`, `rebuildCfg`).

Virtual-register ids (`u32`) are natural numbers, 64-bit immediates and addresses are
`BitVec 64`, and the `HashSet`s of block labels are duplicate-free lists.
-/

namespace Vuma.IR

/-- A 64-bit machine word: the contents of a virtual register. -/
abbrev Word := BitVec 64

/-- The id of a virtual register. -/
abbrev VReg := Nat

/-! ## Types -/

inductive IRType where
  | i8 | i16 | i32 | i64
  | u8 | u16 | u32 | u64
  | f32 | f64
  | ptr | void | func
  | struct (name : String) (fields : List IRType)
  | array (element : IRType) (count : Nat)
  | taggedUnion (name : String) (tagType : IRType) (maxPayloadSize variantCount : Nat)
  | channel (elem : IRType)
  deriving Repr

namespace IRType

mutual
/-- The derived structural equality of `IRType`. -/
def beq : IRType → IRType → Bool
  | .i8, .i8 | .i16, .i16 | .i32, .i32 | .i64, .i64 => true
  | .u8, .u8 | .u16, .u16 | .u32, .u32 | .u64, .u64 => true
  | .f32, .f32 | .f64, .f64 | .ptr, .ptr | .void, .void | .func, .func => true
  | .struct n fs, .struct m gs => n == m && beqList fs gs
  | .array e c, .array e' c' => beq e e' && c == c'
  | .taggedUnion n t p v, .taggedUnion n' t' p' v' => n == n' && beq t t' && p == p' && v == v'
  | .channel e, .channel e' => beq e e'
  | _, _ => false
def beqList : List IRType → List IRType → Bool
  | [], [] => true
  | a :: as, b :: bs => beq a b && beqList as bs
  | _, _ => false
end

mutual
theorem eq_of_beq : ∀ {a b : IRType}, beq a b = true → a = b
  | .struct n fs, b, h => by
    cases b <;> simp [beq] at h ⊢
    exact ⟨h.1, eq_of_beqList h.2⟩
  | .array e c, b, h => by
    cases b <;> simp [beq] at h ⊢
    exact ⟨eq_of_beq h.1, h.2⟩
  | .taggedUnion n t p v, b, h => by
    cases b <;> simp [beq] at h ⊢
    exact ⟨h.1.1.1, eq_of_beq h.1.1.2, h.1.2, h.2⟩
  | .channel e, b, h => by
    cases b <;> simp [beq] at h ⊢
    exact eq_of_beq h
  | .i8, b, h | .i16, b, h | .i32, b, h | .i64, b, h | .u8, b, h | .u16, b, h | .u32, b, h
  | .u64, b, h | .f32, b, h | .f64, b, h | .ptr, b, h | .void, b, h | .func, b, h => by
    cases b <;> simp [beq] at h ⊢
theorem eq_of_beqList : ∀ {as bs : List IRType}, beqList as bs = true → as = bs
  | [], bs, h => by cases bs <;> simp [beqList] at h ⊢
  | a :: as, bs, h => by
    cases bs with
    | nil => simp [beqList] at h
    | cons b bs =>
      simp only [beqList, Bool.and_eq_true] at h
      rw [eq_of_beq h.1, eq_of_beqList h.2]
end

mutual
theorem beq_refl : ∀ a : IRType, beq a a = true
  | .struct n fs => by simp [beq, beqList_refl fs]
  | .array e c => by simp [beq, beq_refl e]
  | .taggedUnion n t p v => by simp [beq, beq_refl t]
  | .channel e => by simp [beq, beq_refl e]
  | .i8 | .i16 | .i32 | .i64 | .u8 | .u16 | .u32 | .u64 | .f32 | .f64 | .ptr | .void | .func => by
    simp [beq]
theorem beqList_refl : ∀ as : List IRType, beqList as as = true
  | [] => by simp [beqList]
  | a :: as => by simp [beqList, beq_refl a, beqList_refl as]
end

instance : DecidableEq IRType := fun a b =>
  decidable_of_iff (beq a b = true) ⟨eq_of_beq, fun h => h ▸ beq_refl a⟩

def isFloat : IRType → Bool
  | .f32 | .f64 => true
  | _ => false

end IRType

/-- `(n + a - 1) & !(a - 1)`: round `n` up to the alignment `a`, a power of two. -/
def alignUp (n a : Nat) : Nat := (n + a - 1) / a * a

mutual
/-- `alignment_of_with_ptr_width`. -/
def alignmentOf (ptrWidth : Nat) : IRType → Nat
  | .i8 | .u8 => 1
  | .i16 | .u16 => 2
  | .i32 | .u32 | .f32 => 4
  | .i64 | .u64 | .f64 => 8
  | .ptr | .func | .channel _ => ptrWidth
  | .void => 1
  | .struct _ [] => 1
  | .struct _ (f :: fs) => alignmentOfFields ptrWidth (f :: fs)
  | .array e _ => alignmentOf ptrWidth e
  | .taggedUnion _ t _ _ => max (alignmentOf ptrWidth t) 4
def alignmentOfFields (ptrWidth : Nat) : List IRType → Nat
  | [] => 0
  | f :: fs => max (alignmentOf ptrWidth f) (alignmentOfFields ptrWidth fs)
end

mutual
/-- `size_of_with_ptr_width`. -/
def sizeOfType (ptrWidth : Nat) : IRType → Nat
  | .i8 | .u8 => 1
  | .i16 | .u16 => 2
  | .i32 | .u32 | .f32 => 4
  | .i64 | .u64 | .f64 => 8
  | .ptr | .func | .channel _ => ptrWidth
  | .void => 0
  | .struct n fs =>
    alignUp (structEnd ptrWidth fs 0) (alignmentOf ptrWidth (.struct n fs))
  | .array e c => sizeOfType ptrWidth e * c
  | .taggedUnion n t p v =>
    alignUp (alignUp (sizeOfType ptrWidth t) (alignmentOf ptrWidth t) + p)
      (alignmentOf ptrWidth (.taggedUnion n t p v))
/-- The running field offset of the `Struct` arm. -/
def structEnd (ptrWidth : Nat) : List IRType → Nat → Nat
  | [], offset => offset
  | f :: fs, offset =>
    structEnd ptrWidth fs (alignUp offset (alignmentOf ptrWidth f) + sizeOfType ptrWidth f)
end

/-! ## Operands -/

/-- `IRValue`: an operand of an instruction. -/
inductive IRValue where
  | register (id : VReg)
  | immediate (v : Word)
  | address (a : Word)
  | label (name : String)
  deriving DecidableEq, Repr

namespace IRValue

def asRegister : IRValue → Option VReg
  | .register id => some id
  | _ => none

def asImmediate : IRValue → Option Word
  | .immediate v => some v
  | _ => none

/-- `as_register().into_iter().collect()`. -/
def regs (v : IRValue) : List VReg := v.asRegister.toList

@[simp] theorem regs_register (id : VReg) : (IRValue.register id).regs = [id] := rfl
@[simp] theorem regs_immediate (v : Word) : (IRValue.immediate v).regs = [] := rfl
@[simp] theorem regs_address (a : Word) : (IRValue.address a).regs = [] := rfl
@[simp] theorem regs_label (s : String) : (IRValue.label s).regs = [] := rfl

theorem mem_regs {v : IRValue} {r : VReg} : r ∈ v.regs ↔ v = .register r := by
  cases v <;> simp [eq_comm]

end IRValue

/-! ## Operators -/

inductive BinOpKind where
  | add | sub | mul | sdiv | udiv | srem | urem
  | and | or | xor | shl | shrL | shrA | ror | rol
  | slt | sle | sgt | sge | ult | ule | ugt | uge | eq | ne
  deriving DecidableEq, Repr

inductive UnaryOpKind where
  | neg | not | clz | ctz | popcnt
  deriving DecidableEq, Repr

inductive CmpKind where
  | eq | ne | slt | sle | sgt | sge | ult | ule | ugt | uge
  deriving DecidableEq, Repr

inductive CastKind where
  | zext | sext | trunc | bitCast
  | intToFloat | uintToFloat | floatToInt | floatToUint | floatToFloat
  deriving DecidableEq, Repr

inductive VectorOpKind where
  | add | sub | mul
  deriving DecidableEq, Repr

/-! ## Instructions -/

/-- `IRInstr`: the whole instruction set. -/
inductive IRInstr where
  | load (dst addr : IRValue) (offset : Int) (ty : IRType)
  | store (value addr : IRValue) (offset : Int) (ty : IRType)
  | binOp (op : BinOpKind) (dst lhs rhs : IRValue) (ty : Option IRType)
  | unaryOp (op : UnaryOpKind) (dst operand : IRValue) (ty : Option IRType)
  | call (dst : Option IRValue) (func : String) (args : List IRValue) (isExtern : Bool)
  | alloc (dst : IRValue) (size : Nat)
  | free (ptr : IRValue)
  | cast (kind : CastKind) (dst src : IRValue) (fromTy toTy : Option IRType)
  | phi (dst : IRValue) (incoming : List (IRValue × String))
  | getAddress (dst : IRValue) (name : String)
  | offset (dst base offset : IRValue)
  | select (dst cond trueVal falseVal : IRValue) (ty : Option IRType)
  | add (dst lhs rhs : IRValue) (ty : Option IRType)
  | sub (dst lhs rhs : IRValue) (ty : Option IRType)
  | mul (dst lhs rhs : IRValue) (ty : Option IRType)
  | div (dst lhs rhs : IRValue) (ty : Option IRType)
  | cmp (kind : CmpKind) (dst lhs rhs : IRValue) (ty : Option IRType)
  | atomicLoad (dst addr : IRValue) (ty : IRType)
  | atomicStore (value addr : IRValue) (ty : IRType)
  | atomicCas (dst addr expected desired : IRValue) (ty : IRType)
  | ret (values : List IRValue)
  | branch (target : String)
  | condBranch (cond : IRValue) (trueTarget falseTarget : String)
  | ctSelect (dst cond trueVal falseVal : IRValue) (ty : Option IRType)
  | ctEq (dst lhs rhs : IRValue) (ty : Option IRType)
  | syscall (nr : Nat) (args : List IRValue) (dst : Option IRValue)
  | vectorOp (op : VectorOpKind) (lanes elemSize : Nat) (dst lhs rhs : IRValue)
  | channelOpen (dst : IRValue) (elemTy : IRType)
  | channelSend (ch msg : IRValue) (ty : Option IRType)
  | channelRecv (ch dst : IRValue) (ty : Option IRType)
  | channelRecvTimeout (ch dst : IRValue) (ty : Option IRType) (timeoutMs : Nat)
  | channelRecvResult (ch dst errDst : IRValue) (ty : Option IRType)
  | channelClose (ch : IRValue)
  | starkProof (input dst : IRValue) (constraints : List Word)
  | callIndirect (dst : Option IRValue) (funcPtr : IRValue) (args : List IRValue)
  | bulkCopy (dst src len : IRValue)
  | bulkFill (dst val len : IRValue)
  | transform (dst src : IRValue) (fromLayout toLayout : String)
  deriving DecidableEq, Repr

namespace IRInstr

/-- `IRInstr::defined_regs`: the registers the instruction writes. -/
def definedRegs : IRInstr → List VReg
  | load dst .. | binOp _ dst .. | unaryOp _ dst .. | alloc dst _ | cast _ dst .. | phi dst _
  | getAddress dst _ | offset dst .. | select dst .. => dst.regs
  | call dst .. | syscall _ _ dst | callIndirect dst .. =>
    (dst.bind IRValue.asRegister).toList
  | vectorOp _ _ _ dst .. => dst.regs
  | add dst .. | sub dst .. | mul dst .. | div dst .. | cmp _ dst .. | ctSelect dst ..
  | ctEq dst .. | atomicLoad dst .. | atomicCas dst .. => dst.regs
  | channelOpen dst _ | channelRecv _ dst _ | channelRecvTimeout _ dst .. => dst.regs
  | channelRecvResult _ dst errDst _ => dst.regs ++ errDst.regs
  | starkProof _ dst _ => dst.regs
  | store .. | free _ | ret _ | branch _ | condBranch .. | atomicStore .. | channelSend ..
  | channelClose _ | bulkCopy .. | bulkFill .. => []
  | transform dst .. => dst.regs

/-- `IRInstr::used_regs`: the registers the instruction reads. -/
def usedRegs : IRInstr → List VReg
  | load _ addr .. => addr.regs
  | store value addr .. => value.regs ++ addr.regs
  | binOp _ _ lhs rhs _ | add _ lhs rhs _ | sub _ lhs rhs _ | mul _ lhs rhs _
  | div _ lhs rhs _ | cmp _ _ lhs rhs _ => lhs.regs ++ rhs.regs
  | unaryOp _ _ operand _ => operand.regs
  | call _ _ args _ | syscall _ args _ => args.filterMap IRValue.asRegister
  | vectorOp _ _ _ _ lhs rhs => lhs.regs ++ rhs.regs
  | alloc .. | getAddress .. => []
  | free ptr => ptr.regs
  | cast _ _ src .. => src.regs
  | phi _ incoming => incoming.filterMap (fun e => e.1.asRegister)
  | offset _ base off => base.regs ++ off.regs
  | select _ cond t f _ => cond.regs ++ t.regs ++ f.regs
  | ret values => values.filterMap IRValue.asRegister
  | branch _ => []
  | condBranch cond .. => cond.regs
  | ctSelect _ cond t f _ => cond.regs ++ t.regs ++ f.regs
  | ctEq _ lhs rhs _ => lhs.regs ++ rhs.regs
  | atomicLoad _ addr _ => addr.regs
  | atomicStore value addr _ => value.regs ++ addr.regs
  | atomicCas _ addr expected desired _ => addr.regs ++ expected.regs ++ desired.regs
  | channelOpen .. => []
  | channelSend ch msg _ => ch.regs ++ msg.regs
  | channelRecv ch .. | channelRecvTimeout ch .. | channelRecvResult ch .. | channelClose ch =>
    ch.regs
  | starkProof input .. => input.regs
  | callIndirect _ funcPtr args => funcPtr.regs ++ args.filterMap IRValue.asRegister
  | bulkCopy dst src len => dst.regs ++ src.regs ++ len.regs
  | bulkFill dst val len => dst.regs ++ val.regs ++ len.regs
  | transform _ src .. => src.regs

/-- `matches!(instr, IRInstr::Phi { .. })`. -/
def isPhi : IRInstr → Bool
  | phi .. => true
  | _ => false

/-- `matches!(instr, Ret | Branch | CondBranch)`: instruction-level control flow. -/
def isControl : IRInstr → Bool
  | ret _ | branch _ | condBranch .. => true
  | _ => false

end IRInstr

/-! ## Terminators, blocks, functions -/

inductive IRTerminator where
  | jump (target : String)
  | branch (cond : IRValue) (trueBlock falseBlock : String)
  | ret (values : List IRValue)
  | unreachable
  | switch (discr : IRValue) (targets : List (Word × String)) (default : String)
  | invoke (dst : Option IRValue) (func : String) (args : List IRValue) (normal unwind : String)
  | tailCall (func : String) (args : List IRValue)
  | resume (value : IRValue)
  deriving DecidableEq, Repr

def IRTerminator.successorLabels : IRTerminator → List String
  | jump target => [target]
  | branch _ t f => [t, f]
  | ret _ | unreachable => []
  | switch _ targets default => targets.map Prod.snd ++ [default]
  | invoke _ _ _ normal unwind => [normal, unwind]
  | tailCall .. | resume _ => []

/-- `terminator_used_regs` of `opt.rs`: the registers a terminator reads. -/
def IRTerminator.usedRegs : IRTerminator → List VReg
  | ret values => values.filterMap IRValue.asRegister
  | branch cond .. => cond.regs
  | switch discr .. => discr.regs
  | invoke _ _ args .. | tailCall _ args => args.filterMap IRValue.asRegister
  | resume value => value.regs
  | jump _ | unreachable => []

/-- `IRBlock`, without the debug-only `source_line`. -/
structure IRBlock where
  label : String
  instructions : List IRInstr
  terminator : IRTerminator
  predecessors : List String := []
  successors : List String := []
  deriving DecidableEq, Repr

structure VirtualRegister where
  id : VReg
  name : Option String := none
  deriving DecidableEq, Repr

/-- `IRFunction`; `vregs` lists the values of the source's map from ids. -/
structure IRFunction where
  name : String
  params : List IRValue := []
  results : List IRValue := []
  vregs : List VirtualRegister := []
  blocks : List IRBlock
  deriving DecidableEq, Repr

/-- `IRProgram`, without the data sections. -/
structure IRProgram where
  functions : List IRFunction
  deriving DecidableEq, Repr

namespace IRFunction

/-- The block a jump to `label` enters: the first one that carries the label. -/
def blockAt (f : IRFunction) (label : String) : Option IRBlock :=
  f.blocks.find? (fun b => b.label == label)

/-- `label_to_idx`: the label-to-index map collected from the blocks in layout order, in which a
later block overwrites an earlier one with the same label. -/
def labelToIdx (f : IRFunction) (label : String) : Option Nat :=
  ((f.blocks.zipIdx.filter (fun p => p.1.label == label)).getLast?).map Prod.snd

/-- `IRFunction::rebuild_cfg`: successors from the terminators, predecessors from the successors. -/
def rebuildCfg (f : IRFunction) : IRFunction :=
  let blocks := f.blocks.map fun b => { b with successors := b.terminator.successorLabels.dedup }
  { f with
    blocks := blocks.zipIdx.map fun (b, i) =>
      { b with
        predecessors :=
          if f.labelToIdx b.label = some i then
            ((blocks.filter (fun p => p.successors.contains b.label)).map (·.label)).dedup
          else [] } }

end IRFunction

end Vuma.IR

/-!
# Indices of labels

What `label_to_idx` gives for a label, and the labels of blocks by index.
-/

namespace Vuma.IR

variable {f : IRFunction} {l : String} {i j : Nat}

theorem labelToIdx_some (h : f.labelToIdx l = some i) :
    ∃ b, f.blocks[i]? = some b ∧ b.label = l := by
  simp only [IRFunction.labelToIdx, Option.map_eq_some_iff] at h
  obtain ⟨⟨b, j⟩, hlast, rfl⟩ := h
  have hmem := List.mem_filter.mp (List.mem_of_getLast? hlast)
  exact ⟨b, List.mem_zipIdx_iff_getElem?.mp hmem.1, by simpa using hmem.2⟩

theorem labelToIdx_none (h : f.labelToIdx l = none) : ∀ b ∈ f.blocks, b.label ≠ l := by
  simp only [IRFunction.labelToIdx, Option.map_eq_none_iff, List.getLast?_eq_none_iff,
    List.filter_eq_nil_iff] at h
  intro b hb e
  obtain ⟨i, hi⟩ := List.mem_iff_getElem?.mp hb
  exact h (b, i) (List.mem_zipIdx_iff_getElem?.mpr hi) (by simpa using e)

theorem labelToIdx_lt (h : f.labelToIdx l = some i) : i < f.blocks.length :=
  let ⟨_, hb, _⟩ := labelToIdx_some h
  (List.getElem?_eq_some_iff.mp hb).1

/-- The label of the block at an index. -/
def IRFunction.labelAt (f : IRFunction) (i : Nat) : String := ((f.blocks[i]?).map (·.label)).getD ""

theorem labelAt_eq_getElem (h : i < f.blocks.length) : f.labelAt i = f.blocks[i].label := by
  simp [IRFunction.labelAt, h]

/-- With unique labels, blocks are told apart by their labels. -/
theorem labelAt_inj (hnd : (f.blocks.map (·.label)).Nodup) (hi : i < f.blocks.length)
    (hj : j < f.blocks.length) (h : f.labelAt i = f.labelAt j) : i = j := by
  rw [labelAt_eq_getElem hi, labelAt_eq_getElem hj] at h
  refine (List.getElem?_inj (by simpa using hi) hnd).mp ?_
  rw [List.getElem?_map, List.getElem?_map, List.getElem?_eq_getElem hi,
    List.getElem?_eq_getElem hj, Option.map_some, Option.map_some, h]

end Vuma.IR
