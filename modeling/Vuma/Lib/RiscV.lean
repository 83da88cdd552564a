import Mathlib

/-!
# RISC-V instruction words

The encoding tables of the unprivileged instruction set, RV64 with the extensions I, M, A, F, D,
Zicsr and Zifencei. A word is read as an operation with its registers, its immediates and its access
width. The acquire and release bits of an atomic operation are not part of it, nor is the rounding
mode of a floating-point operation, which is only checked not to be a reserved one.
-/

namespace Vuma.Lib.RiscV

abbrev Reg := BitVec 5

abbrev Word := BitVec 32

inductive BranchOp where
  | beq | bne | blt | bge | bltu | bgeu
  deriving DecidableEq, Repr

inductive LoadOp where
  | lb | lh | lw | ld | lbu | lhu | lwu
  deriving DecidableEq, Repr

inductive StoreOp where
  | sb | sh | sw | sd
  deriving DecidableEq, Repr

inductive ImmOp where
  | addi | slti | sltiu | xori | ori | andi
  deriving DecidableEq, Repr

inductive ShiftOp where
  | sll | srl | sra
  deriving DecidableEq, Repr

inductive RegOp where
  | add | sub | sll | slt | sltu | xor | srl | sra | or | and
  | mul | mulh | mulhsu | mulhu | div | divu | rem | remu
  deriving DecidableEq, Repr

inductive WordOp where
  | addw | subw | sllw | srlw | sraw | mulw | divw | divuw | remw | remuw
  deriving DecidableEq, Repr

inductive CsrOp where
  | rw | rs | rc
  deriving DecidableEq, Repr

/-- The access width of an atomic operation. -/
inductive Width where
  | w | d
  deriving DecidableEq, Repr

inductive AmoOp where
  | add | swap | xor | or | and | min | max | minu | maxu
  deriving DecidableEq, Repr

/-- The format of a floating-point operation. -/
inductive Fmt where
  | s | d
  deriving DecidableEq, Repr

/-- The integers that floating-point numbers are converted from and to. -/
inductive IntFmt where
  | w | wu | l | lu
  deriving DecidableEq, Repr

inductive FpOp where
  | add | sub | mul | div
  deriving DecidableEq, Repr

inductive FusedOp where
  | madd | msub | nmsub | nmadd
  deriving DecidableEq, Repr

/-- The operations that return one of their operands, perhaps with another sign. -/
inductive PickOp where
  | sgnj | sgnjn | sgnjx | min | max
  deriving DecidableEq, Repr

inductive CmpOp where
  | eq | lt | le
  deriving DecidableEq, Repr

/-- An operation with its operands. -/
inductive Op where
  | lui (rd : Reg) (imm : BitVec 32)
  | auipc (rd : Reg) (imm : BitVec 32)
  | jal (rd : Reg) (offset : Int)
  | jalr (rd rs1 : Reg) (imm : Int)
  | branch (op : BranchOp) (rs1 rs2 : Reg) (offset : Int)
  | load (op : LoadOp) (rd rs1 : Reg) (imm : Int)
  | store (op : StoreOp) (rs1 rs2 : Reg) (imm : Int)
  | imm (op : ImmOp) (rd rs1 : Reg) (imm : Int)
  | shift (op : ShiftOp) (rd rs1 : Reg) (shamt : Nat)
  | reg (op : RegOp) (rd rs1 rs2 : Reg)
  | addiw (rd rs1 : Reg) (imm : Int)
  | shiftw (op : ShiftOp) (rd rs1 : Reg) (shamt : Nat)
  | word (op : WordOp) (rd rs1 rs2 : Reg)
  | fence (pred succ : Nat)
  | fenceTso
  | fenceI
  | ecall
  | ebreak
  | csr (op : CsrOp) (rd : Reg) (csr : Nat) (rs1 : Reg)
  | csri (op : CsrOp) (rd : Reg) (csr uimm : Nat)
  | lr (width : Width) (rd rs1 : Reg)
  | sc (width : Width) (rd rs1 rs2 : Reg)
  | amo (op : AmoOp) (width : Width) (rd rs1 rs2 : Reg)
  | fload (fmt : Fmt) (rd rs1 : Reg) (imm : Int)
  | fstore (fmt : Fmt) (rs1 rs2 : Reg) (imm : Int)
  | fp (op : FpOp) (fmt : Fmt) (rd rs1 rs2 : Reg)
  | fused (op : FusedOp) (fmt : Fmt) (rd rs1 rs2 rs3 : Reg)
  | fsqrt (fmt : Fmt) (rd rs1 : Reg)
  | pick (op : PickOp) (fmt : Fmt) (rd rs1 rs2 : Reg)
  | fcmp (op : CmpOp) (fmt : Fmt) (rd rs1 rs2 : Reg)
  | fclass (fmt : Fmt) (rd rs1 : Reg)
  | fcvtInt (int : IntFmt) (fmt : Fmt) (rd rs1 : Reg)
  | fcvtOfInt (fmt : Fmt) (int : IntFmt) (rd rs1 : Reg)
  | fcvtFmt (dst src : Fmt) (rd rs1 : Reg)
  | fmvInt (fmt : Fmt) (rd rs1 : Reg)
  | fmvOfInt (fmt : Fmt) (rd rs1 : Reg)
  deriving DecidableEq, Repr

section Fields

def opcode (w : Word) : BitVec 7 := w.extractLsb' 0 7

def rd (w : Word) : Reg := w.extractLsb' 7 5

def funct3 (w : Word) : BitVec 3 := w.extractLsb' 12 3

def rs1 (w : Word) : Reg := w.extractLsb' 15 5

def rs2 (w : Word) : Reg := w.extractLsb' 20 5

def funct7 (w : Word) : BitVec 7 := w.extractLsb' 25 7

def immI (w : Word) : BitVec 12 := w.extractLsb' 20 12

def immS (w : Word) : BitVec 12 := w.extractLsb' 25 7 ++ w.extractLsb' 7 5

def immB (w : Word) : BitVec 13 :=
  w.extractLsb' 31 1 ++ w.extractLsb' 7 1 ++ w.extractLsb' 25 6 ++ w.extractLsb' 8 4 ++ 0#1

def immU (w : Word) : BitVec 32 := w.extractLsb' 12 20 ++ 0#12

def immJ (w : Word) : BitVec 21 :=
  w.extractLsb' 31 1 ++ w.extractLsb' 12 8 ++ w.extractLsb' 20 1 ++ w.extractLsb' 21 10 ++ 0#1

end Fields

section Tables

def branchOp : BitVec 3 → Option BranchOp
  | 0b000 => some .beq
  | 0b001 => some .bne
  | 0b100 => some .blt
  | 0b101 => some .bge
  | 0b110 => some .bltu
  | 0b111 => some .bgeu
  | _ => none

def loadOp : BitVec 3 → Option LoadOp
  | 0b000 => some .lb
  | 0b001 => some .lh
  | 0b010 => some .lw
  | 0b011 => some .ld
  | 0b100 => some .lbu
  | 0b101 => some .lhu
  | 0b110 => some .lwu
  | _ => none

def storeOp : BitVec 3 → Option StoreOp
  | 0b000 => some .sb
  | 0b001 => some .sh
  | 0b010 => some .sw
  | 0b011 => some .sd
  | _ => none

def immOp : BitVec 3 → Option ImmOp
  | 0b000 => some .addi
  | 0b010 => some .slti
  | 0b011 => some .sltiu
  | 0b100 => some .xori
  | 0b110 => some .ori
  | 0b111 => some .andi
  | _ => none

def shiftOp : BitVec 3 → BitVec 6 → Option ShiftOp
  | 0b001, 0b000000 => some .sll
  | 0b101, 0b000000 => some .srl
  | 0b101, 0b010000 => some .sra
  | _, _ => none

def shiftwOp : BitVec 3 → BitVec 7 → Option ShiftOp
  | 0b001, 0b0000000 => some .sll
  | 0b101, 0b0000000 => some .srl
  | 0b101, 0b0100000 => some .sra
  | _, _ => none

def regOp : BitVec 7 → BitVec 3 → Option RegOp
  | 0b0000000, 0b000 => some .add
  | 0b0100000, 0b000 => some .sub
  | 0b0000000, 0b001 => some .sll
  | 0b0000000, 0b010 => some .slt
  | 0b0000000, 0b011 => some .sltu
  | 0b0000000, 0b100 => some .xor
  | 0b0000000, 0b101 => some .srl
  | 0b0100000, 0b101 => some .sra
  | 0b0000000, 0b110 => some .or
  | 0b0000000, 0b111 => some .and
  | 0b0000001, 0b000 => some .mul
  | 0b0000001, 0b001 => some .mulh
  | 0b0000001, 0b010 => some .mulhsu
  | 0b0000001, 0b011 => some .mulhu
  | 0b0000001, 0b100 => some .div
  | 0b0000001, 0b101 => some .divu
  | 0b0000001, 0b110 => some .rem
  | 0b0000001, 0b111 => some .remu
  | _, _ => none

def wordOp : BitVec 7 → BitVec 3 → Option WordOp
  | 0b0000000, 0b000 => some .addw
  | 0b0100000, 0b000 => some .subw
  | 0b0000000, 0b001 => some .sllw
  | 0b0000000, 0b101 => some .srlw
  | 0b0100000, 0b101 => some .sraw
  | 0b0000001, 0b000 => some .mulw
  | 0b0000001, 0b100 => some .divw
  | 0b0000001, 0b101 => some .divuw
  | 0b0000001, 0b110 => some .remw
  | 0b0000001, 0b111 => some .remuw
  | _, _ => none

def csrOp : BitVec 2 → Option CsrOp
  | 0b01 => some .rw
  | 0b10 => some .rs
  | 0b11 => some .rc
  | _ => none

def amoOp : BitVec 5 → Option AmoOp
  | 0b00000 => some .add
  | 0b00001 => some .swap
  | 0b00100 => some .xor
  | 0b01000 => some .or
  | 0b01100 => some .and
  | 0b10000 => some .min
  | 0b10100 => some .max
  | 0b11000 => some .minu
  | 0b11100 => some .maxu
  | _ => none

def width : BitVec 3 → Option Width
  | 0b010 => some .w
  | 0b011 => some .d
  | _ => none

def fmt : BitVec 2 → Option Fmt
  | 0b00 => some .s
  | 0b01 => some .d
  | _ => none

/-- The width of a floating-point load or store. -/
def memFmt : BitVec 3 → Option Fmt
  | 0b010 => some .s
  | 0b011 => some .d
  | _ => none

def fpOp : BitVec 5 → Option FpOp
  | 0b00000 => some .add
  | 0b00001 => some .sub
  | 0b00010 => some .mul
  | 0b00011 => some .div
  | _ => none

def pickOp : BitVec 5 → BitVec 3 → Option PickOp
  | 0b00100, 0b000 => some .sgnj
  | 0b00100, 0b001 => some .sgnjn
  | 0b00100, 0b010 => some .sgnjx
  | 0b00101, 0b000 => some .min
  | 0b00101, 0b001 => some .max
  | _, _ => none

def cmpOp : BitVec 3 → Option CmpOp
  | 0b000 => some .le
  | 0b001 => some .lt
  | 0b010 => some .eq
  | _ => none

def intFmt : BitVec 5 → Option IntFmt
  | 0b00000 => some .w
  | 0b00001 => some .wu
  | 0b00010 => some .l
  | 0b00011 => some .lu
  | _ => none

/-- The rounding modes that are not reserved. -/
def isRoundingMode (rm : BitVec 3) : Bool := rm != 0b101 && rm != 0b110

end Tables

section Decode

/-- The immediate of a shift is its operation and the amount. -/
def decodeImm (imm : BitVec 12) (rs1 : Reg) (funct3 : BitVec 3) (rd : Reg) : Option Op :=
  match shiftOp funct3 (imm.extractLsb' 6 6) with
  | some op => some (.shift op rd rs1 (imm.extractLsb' 0 6).toNat)
  | none => (immOp funct3).map fun op => .imm op rd rs1 imm.toInt

def decodeImmWord (imm : BitVec 12) (rs1 : Reg) (funct3 : BitVec 3) (rd : Reg) : Option Op :=
  if funct3 = 0b000 then some (.addiw rd rs1 imm.toInt)
  else
    (shiftwOp funct3 (imm.extractLsb' 5 7)).map fun op =>
      .shiftw op rd rs1 (imm.extractLsb' 0 5).toNat

/-- The immediate of a fence is its mode, the predecessor set and the successor set. -/
def decodeFence (imm : BitVec 12) (funct3 : BitVec 3) : Option Op :=
  match funct3 with
  | 0b000 =>
    match imm.extractLsb' 8 4 with
    | 0b0000 => some (.fence (imm.extractLsb' 4 4).toNat (imm.extractLsb' 0 4).toNat)
    | 0b1000 => if imm.extractLsb' 0 8 = 0b00110011 then some .fenceTso else none
    | _ => none
  | 0b001 => some .fenceI
  | _ => none

/-- The highest bit of the function says that the operand is an immediate. -/
def decodeCsr (csr : BitVec 12) (rs1 : Reg) (funct3 : BitVec 3) (rd : Reg) : Option Op :=
  (csrOp (funct3.extractLsb' 0 2)).map fun op =>
    if funct3.getLsbD 2 then .csri op rd csr.toNat rs1.toNat else .csr op rd csr.toNat rs1

def decodeSystem (w : Word) : Option Op :=
  if w = 0x00000073 then some .ecall
  else if w = 0x00100073 then some .ebreak
  else decodeCsr (immI w) (rs1 w) (funct3 w) (rd w)

/-- The two lowest bits of the function are the acquire and release bits. -/
def decodeAtomic (funct7 : BitVec 7) (rs2 rs1 : Reg) (funct3 : BitVec 3) (rd : Reg) :
    Option Op :=
  (width funct3).bind fun width =>
    match funct7.extractLsb' 2 5, rs2 with
    | 0b00010, 0b00000 => some (.lr width rd rs1)
    | 0b00010, _ => none
    | 0b00011, rs2 => some (.sc width rd rs1 rs2)
    | op, rs2 => (amoOp op).map fun op => .amo op width rd rs1 rs2

/-- The two lowest bits of the function are the format, those above the third operand. -/
def decodeFused (op : FusedOp) (funct7 : BitVec 7) (rs2 rs1 : Reg) (rm : BitVec 3) (rd : Reg) :
    Option Op :=
  if isRoundingMode rm then
    (fmt (funct7.extractLsb' 0 2)).map fun fmt =>
      .fused op fmt rd rs1 rs2 (funct7.extractLsb' 2 5)
  else none

/-- The operations that round. -/
def decodeRounded (funct5 : BitVec 5) (fmt : Fmt) (rs2 rs1 : Reg) (rm : BitVec 3) (rd : Reg) :
    Option Op :=
  if isRoundingMode rm then
    match funct5, fmt, rs2 with
    | 0b01011, fmt, 0b00000 => some (.fsqrt fmt rd rs1)
    | 0b01000, .s, 0b00001 => some (.fcvtFmt .s .d rd rs1)
    | 0b01000, .d, 0b00000 => some (.fcvtFmt .d .s rd rs1)
    | 0b11000, fmt, int => (intFmt int).map fun int => .fcvtInt int fmt rd rs1
    | 0b11010, fmt, int => (intFmt int).map fun int => .fcvtOfInt fmt int rd rs1
    | op, fmt, rs2 => (fpOp op).map fun op => .fp op fmt rd rs1 rs2
  else none

/-- The two lowest bits of the function are the format. -/
def decodeFp (funct7 : BitVec 7) (rs2 rs1 : Reg) (funct3 : BitVec 3) (rd : Reg) : Option Op :=
  (fmt (funct7.extractLsb' 0 2)).bind fun fmt =>
    match funct7.extractLsb' 2 5, funct3, rs2 with
    | 0b00100, f3, rs2 => (pickOp 0b00100 f3).map fun op => .pick op fmt rd rs1 rs2
    | 0b00101, f3, rs2 => (pickOp 0b00101 f3).map fun op => .pick op fmt rd rs1 rs2
    | 0b10100, f3, rs2 => (cmpOp f3).map fun op => .fcmp op fmt rd rs1 rs2
    | 0b11100, 0b000, 0b00000 => some (.fmvInt fmt rd rs1)
    | 0b11100, 0b001, 0b00000 => some (.fclass fmt rd rs1)
    | 0b11110, 0b000, 0b00000 => some (.fmvOfInt fmt rd rs1)
    | funct5, rm, rs2 => decodeRounded funct5 fmt rs2 rs1 rm rd

/-- The operation that a word stands for. -/
def decode (w : Word) : Option Op :=
  match opcode w with
  | 0b0110111 => some (.lui (rd w) (immU w))
  | 0b0010111 => some (.auipc (rd w) (immU w))
  | 0b1101111 => some (.jal (rd w) (immJ w).toInt)
  | 0b1100111 =>
    if funct3 w = 0b000 then some (.jalr (rd w) (rs1 w) (immI w).toInt) else none
  | 0b1100011 => (branchOp (funct3 w)).map fun op => .branch op (rs1 w) (rs2 w) (immB w).toInt
  | 0b0000011 => (loadOp (funct3 w)).map fun op => .load op (rd w) (rs1 w) (immI w).toInt
  | 0b0100011 => (storeOp (funct3 w)).map fun op => .store op (rs1 w) (rs2 w) (immS w).toInt
  | 0b0010011 => decodeImm (immI w) (rs1 w) (funct3 w) (rd w)
  | 0b0011011 => decodeImmWord (immI w) (rs1 w) (funct3 w) (rd w)
  | 0b0110011 =>
    (regOp (funct7 w) (funct3 w)).map fun op => .reg op (rd w) (rs1 w) (rs2 w)
  | 0b0111011 =>
    (wordOp (funct7 w) (funct3 w)).map fun op => .word op (rd w) (rs1 w) (rs2 w)
  | 0b0001111 => decodeFence (immI w) (funct3 w)
  | 0b1110011 => decodeSystem w
  | 0b0101111 => decodeAtomic (funct7 w) (rs2 w) (rs1 w) (funct3 w) (rd w)
  | 0b0000111 => (memFmt (funct3 w)).map fun fmt => .fload fmt (rd w) (rs1 w) (immI w).toInt
  | 0b0100111 => (memFmt (funct3 w)).map fun fmt => .fstore fmt (rs1 w) (rs2 w) (immS w).toInt
  | 0b1000011 => decodeFused .madd (funct7 w) (rs2 w) (rs1 w) (funct3 w) (rd w)
  | 0b1000111 => decodeFused .msub (funct7 w) (rs2 w) (rs1 w) (funct3 w) (rd w)
  | 0b1001011 => decodeFused .nmsub (funct7 w) (rs2 w) (rs1 w) (funct3 w) (rd w)
  | 0b1001111 => decodeFused .nmadd (funct7 w) (rs2 w) (rs1 w) (funct3 w) (rd w)
  | 0b1010011 => decodeFp (funct7 w) (rs2 w) (rs1 w) (funct3 w) (rd w)
  | _ => none

end Decode

/-- A word of the system opcode with another function than 0 is an access to a register. -/
theorem decodeSystem_of_funct3 {w : Word} (h : funct3 w ≠ 0b000) :
    decodeSystem w = decodeCsr (immI w) (rs1 w) (funct3 w) (rd w) := by
  rw [decodeSystem, if_neg, if_neg]
  · rintro rfl
    exact h (by decide)
  · rintro rfl
    exact h (by decide)

/-- Four bytes, the lowest first. -/
abbrev Bytes := Vector (BitVec 8) 4

def toLeBytes (w : Word) : Bytes :=
  #v[w.extractLsb' 0 8, w.extractLsb' 8 8, w.extractLsb' 16 8, w.extractLsb' 24 8]

def ofLeBytes (b : Bytes) : Word := b[3] ++ b[2] ++ b[1] ++ b[0]

theorem ofLeBytes_toLeBytes (w : Word) : ofLeBytes (toLeBytes w) = w := by
  ext i hi
  simp only [ofLeBytes, toLeBytes]
  simp
  grind

end Vuma.Lib.RiscV
