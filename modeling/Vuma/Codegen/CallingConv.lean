import Vuma.IR.Syntax

/-!
# The calling convention

`classify_arg` and `compute_calling_conv` of `src/codegen/src/ir.rs`: where each argument of a
signature is passed, in X0–X7, in V0–V7 or on the stack. Three counters run along the argument
list: the next X register, the next V register and the next stack byte. They are natural numbers,
and so are the sizes of types. The code has `i32` for the stack bytes, with room for 2^26 stack
arguments, and `usize` for the sizes, which hold types of less than 2^64 bytes.
-/

namespace Vuma.IR

/-- `size_of`: sizes with 8-byte pointers. -/
def IRType.size (t : IRType) : Nat := sizeOfType 8 t

/-- `alignment_of`. -/
def IRType.alignment (t : IRType) : Nat := alignmentOf 8 t

end Vuma.IR

namespace Vuma.Codegen

open IR

/-! ## Classification -/

inductive ArgClass where
  | integer | fp | stack | indirect
  deriving DecidableEq, Repr

def isHfa : IRType → Bool
  | .struct _ [] => false
  | .struct _ (first :: fields) =>
    decide ((first :: fields).length ≤ 4) && first.isFloat &&
      (first :: fields).all fun f => decide (f = first)
  | .array element count => decide (count ≠ 0) && decide (count ≤ 4) && element.isFloat
  | _ => false

/-- `IRType::hfa_info`: the element type and the number of members. -/
def hfaInfo (t : IRType) : Option (IRType × Nat) :=
  if isHfa t then
    match t with
    | .struct _ (first :: fields) => some (first, (first :: fields).length)
    | .array element count => some (element, count)
    | _ => none
  else none

def classifyArg (t : IRType) : ArgClass :=
  match t with
  | .i8 | .i16 | .i32 | .i64 | .u8 | .u16 | .u32 | .u64 | .ptr | .func => .integer
  | .f32 | .f64 => .fp
  | .void => .integer
  | .struct .. | .array .. | .taggedUnion .. =>
    if isHfa t then .fp
    else if t.size ≤ 16 then .integer
    else .indirect
  | .channel _ => .integer

/-! ## Locations -/

inductive RegisterClass where
  | x | v
  deriving DecidableEq, Repr

structure ArgLocation where
  index : Nat
  cls : ArgClass
  register : Option (RegisterClass × Nat)
  stackOffset : Option Nat
  deriving DecidableEq, Repr

structure RetLocation where
  cls : ArgClass
  registers : List (RegisterClass × Nat)
  deriving DecidableEq, Repr

structure CallingConvInfo where
  argLocations : List ArgLocation
  retLocation : RetLocation
  stackArgsSize : Nat
  deriving DecidableEq, Repr

/-- `x_reg_idx`, `v_reg_idx` and `stack_offset` of `compute_calling_conv`. -/
structure Counters where
  xRegIdx : Nat
  vRegIdx : Nat
  stackOffset : Nat
  deriving DecidableEq, Repr

/-! ## Placement -/

/-- The `off` of a spilled aggregate of `count` members: each is aligned and then passed over. -/
def hfaEnd (elem : IRType) : Nat → Nat → Nat
  | 0, off => off
  | count + 1, off => hfaEnd elem count (alignUp off elem.alignment + elem.size)

/-- One round of the loop of `compute_calling_conv`. -/
def placeArg (c : Counters) (i : Nat) (argType : IRType) : ArgLocation × Counters :=
  match classifyArg argType with
  | .integer =>
    if c.xRegIdx < 8 then
      (⟨i, .integer, some (.x, c.xRegIdx), none⟩, { c with xRegIdx := c.xRegIdx + 1 })
    else
      (⟨i, .stack, none, some c.stackOffset⟩, { c with stackOffset := c.stackOffset + 8 })
  | .fp =>
    match hfaInfo argType with
    | some (elem, count) =>
      if c.vRegIdx + count ≤ 8 then
        (⟨i, .fp, some (.v, c.vRegIdx), none⟩, { c with vRegIdx := c.vRegIdx + count })
      else
        -- the offset of the location is the one before the members are aligned
        (⟨i, .stack, none, some c.stackOffset⟩,
          { c with stackOffset := hfaEnd elem count c.stackOffset })
    | none =>
      if c.vRegIdx < 8 then
        (⟨i, .fp, some (.v, c.vRegIdx), none⟩, { c with vRegIdx := c.vRegIdx + 1 })
      else
        let off := alignUp c.stackOffset argType.alignment
        (⟨i, .stack, none, some off⟩, { c with stackOffset := off + argType.size })
  | .indirect =>
    if c.xRegIdx < 8 then
      (⟨i, .indirect, some (.x, c.xRegIdx), none⟩, { c with xRegIdx := c.xRegIdx + 1 })
    else
      (⟨i, .stack, none, some c.stackOffset⟩, { c with stackOffset := c.stackOffset + 8 })
  | .stack =>
    let off := alignUp c.stackOffset argType.alignment
    (⟨i, .stack, none, some off⟩, { c with stackOffset := off + argType.size })

/-- The loop of `compute_calling_conv`, from the argument `i` on. -/
def placeArgs (c : Counters) (i : Nat) : List IRType → List ArgLocation × Counters
  | [] => ([], c)
  | t :: ts =>
    let r := placeArg c i t
    let rest := placeArgs r.2 (i + 1) ts
    (r.1 :: rest.1, rest.2)

/-- The location of the return value. -/
def placeRet (ret : IRType) : RetLocation :=
  match classifyArg ret with
  | .integer =>
    if ret = .void then ⟨.integer, []⟩
    else if ret.size ≤ 8 then ⟨.integer, [(.x, 0)]⟩
    else ⟨.integer, [(.x, 0), (.x, 1)]⟩
  | .fp =>
    match hfaInfo ret with
    | some (_, count) => ⟨.fp, (List.range count).map fun i => (.v, i)⟩
    | none => ⟨.fp, [(.v, 0)]⟩
  | .indirect => ⟨.indirect, [(.x, 8)]⟩
  | .stack => ⟨.indirect, [(.x, 8)]⟩

def computeCallingConv (args : List IRType) (ret : IRType) : CallingConvInfo :=
  let r := placeArgs ⟨0, 0, 0⟩ 0 args
  { argLocations := r.1
    retLocation := placeRet ret
    stackArgsSize := alignUp r.2.stackOffset 16 }

/-! ## What an argument occupies -/

/-- The number of V registers of a floating-point value: one, or one for each member. -/
def members (t : IRType) : Nat :=
  match hfaInfo t with
  | some (_, count) => count
  | none => 1

/-- The number of registers the value needs: `⌈size / 8⌉` X registers of an integer value, the
members of a floating-point one, the one of a pointer. -/
def regsNeeded (t : IRType) : Nat :=
  match classifyArg t with
  | .integer => (t.size + 7) / 8
  | .fp => members t
  | .indirect => 1
  | .stack => 0

/-- The size of what is passed: the value, or the pointer to it. -/
def passedSize (t : IRType) : Nat := if classifyArg t = .indirect then 8 else t.size

/-- The alignment of what is passed. -/
def passedAlign (t : IRType) : Nat := if classifyArg t = .indirect then 8 else t.alignment

/-- The registers an argument of type `t` occupies. -/
def ArgLocation.regs (t : IRType) (loc : ArgLocation) : Finset (RegisterClass × Nat) :=
  match loc.register with
  | some (cls, n) => {cls} ×ˢ Finset.Ico n (n + regsNeeded t)
  | none => ∅

/-- The stack bytes an argument of type `t` occupies. -/
def ArgLocation.bytes (t : IRType) (loc : ArgLocation) : Finset Nat :=
  match loc.stackOffset with
  | some off => Finset.Ico off (off + passedSize t)
  | none => ∅

/-- Two arguments share neither a register nor a stack byte. -/
def Apart (a b : IRType × ArgLocation) : Prop :=
  Disjoint (a.2.regs a.1) (b.2.regs b.1) ∧ Disjoint (a.2.bytes a.1) (b.2.bytes b.1)

/-- The registers are among X0–X7 and V0–V7, the stack bytes are aligned and within `total`. -/
def InBounds (total : Nat) (a : IRType × ArgLocation) : Prop :=
  (∀ r ∈ a.2.regs a.1, r.2 < 8) ∧
    ∀ off ∈ a.2.stackOffset, passedAlign a.1 ∣ off ∧ off + passedSize a.1 ≤ total

/-- No two arguments overlap, and each is where it may be. -/
structure WellPlaced (total : Nat) (args : List (IRType × ArgLocation)) : Prop where
  apart : args.Pairwise Apart
  inBounds : ∀ a ∈ args, InBounds total a

end Vuma.Codegen
