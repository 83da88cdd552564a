import Vuma.Lib.RiscV

/-!
# The RISC-V 64 encoder

`Instruction::encode`: the registers, the instructions and the bytes that are emitted for them, by
the formats R, I, S, B, U and J. The numbers of the source have 32 bits, signed ones too.
-/

namespace Vuma.Codegen.Riscv64

open Lib.RiscV (Bytes toLeBytes)

abbrev U32 := BitVec 32

abbrev I32 := BitVec 32

section Opcodes

def opLui : U32 := 0b0110111

def opAuipc : U32 := 0b0010111

def opJal : U32 := 0b1101111

def opJalr : U32 := 0b1100111

def opBranch : U32 := 0b1100011

def opLoad : U32 := 0b0000011

def opStore : U32 := 0b0100011

def opImm : U32 := 0b0010011

def opReg : U32 := 0b0110011

def opImm32 : U32 := 0b0011011

def opReg32 : U32 := 0b0111011

def opSystem : U32 := 0b1110011

def opMiscMem : U32 := 0b0001111

def opFp : U32 := 0b1010011

def opLoadFp : U32 := 0b0000111

def opStoreFp : U32 := 0b0100111

end Opcodes

/-- `Gpr`, the general-purpose registers x0 to x31 in the order of their numbers. -/
inductive Gpr where
  | zero | ra | sp | gp | tp | t0 | t1 | t2 | s0 | s1 | a0 | a1 | a2 | a3 | a4 | a5
  | a6 | a7 | s2 | s3 | s4 | s5 | s6 | s7 | s8 | s9 | s10 | s11 | t3 | t4 | t5 | t6
  deriving DecidableEq, Repr

def Gpr.encoding : Gpr → U32
  | .zero => 0
  | .ra => 1
  | .sp => 2
  | .gp => 3
  | .tp => 4
  | .t0 => 5
  | .t1 => 6
  | .t2 => 7
  | .s0 => 8
  | .s1 => 9
  | .a0 => 10
  | .a1 => 11
  | .a2 => 12
  | .a3 => 13
  | .a4 => 14
  | .a5 => 15
  | .a6 => 16
  | .a7 => 17
  | .s2 => 18
  | .s3 => 19
  | .s4 => 20
  | .s5 => 21
  | .s6 => 22
  | .s7 => 23
  | .s8 => 24
  | .s9 => 25
  | .s10 => 26
  | .s11 => 27
  | .t3 => 28
  | .t4 => 29
  | .t5 => 30
  | .t6 => 31

/-- `Fpr`, the floating-point registers. -/
inductive Fpr where
  | f0 | f1 | f2 | f3 | f4 | f5 | f6 | f7 | f8 | f9 | f10 | f11 | f12 | f13 | f14 | f15
  | f16 | f17 | f18 | f19 | f20 | f21 | f22 | f23 | f24 | f25 | f26 | f27 | f28 | f29 | f30 | f31
  deriving DecidableEq, Repr

def Fpr.encoding : Fpr → U32
  | .f0 => 0
  | .f1 => 1
  | .f2 => 2
  | .f3 => 3
  | .f4 => 4
  | .f5 => 5
  | .f6 => 6
  | .f7 => 7
  | .f8 => 8
  | .f9 => 9
  | .f10 => 10
  | .f11 => 11
  | .f12 => 12
  | .f13 => 13
  | .f14 => 14
  | .f15 => 15
  | .f16 => 16
  | .f17 => 17
  | .f18 => 18
  | .f19 => 19
  | .f20 => 20
  | .f21 => 21
  | .f22 => 22
  | .f23 => 23
  | .f24 => 24
  | .f25 => 25
  | .f26 => 26
  | .f27 => 27
  | .f28 => 28
  | .f29 => 29
  | .f30 => 30
  | .f31 => 31

section Formats

def encodeRType (funct7 rs2 rs1 funct3 rd opcode : U32) : Bytes :=
  toLeBytes (((funct7 &&& 0x7F) <<< 25) ||| ((rs2 &&& 0x1F) <<< 20) ||| ((rs1 &&& 0x1F) <<< 15) |||
    ((funct3 &&& 0x7) <<< 12) ||| ((rd &&& 0x1F) <<< 7) ||| (opcode &&& 0x7F))

def encodeIType (imm rs1 funct3 rd opcode : U32) : Bytes :=
  toLeBytes (((imm &&& 0xFFF) <<< 20) ||| ((rs1 &&& 0x1F) <<< 15) ||| ((funct3 &&& 0x7) <<< 12) |||
    ((rd &&& 0x1F) <<< 7) ||| (opcode &&& 0x7F))

def encodeSType (imm rs2 rs1 funct3 opcode : U32) : Bytes :=
  let immLo := imm &&& 0x1F
  let immHi := (imm >>> 5) &&& 0x7F
  toLeBytes ((immHi <<< 25) ||| ((rs2 &&& 0x1F) <<< 20) ||| ((rs1 &&& 0x1F) <<< 15) |||
    ((funct3 &&& 0x7) <<< 12) ||| (immLo <<< 7) ||| (opcode &&& 0x7F))

def encodeBType (imm : I32) (rs2 rs1 funct3 opcode : U32) : Bytes :=
  toLeBytes ((((imm >>> 12) &&& 0x1) <<< 31) ||| (((imm >>> 5) &&& 0x3F) <<< 25) |||
    ((rs2 &&& 0x1F) <<< 20) ||| ((rs1 &&& 0x1F) <<< 15) ||| ((funct3 &&& 0x7) <<< 12) |||
    (((imm >>> 1) &&& 0xF) <<< 8) ||| (((imm >>> 11) &&& 0x1) <<< 7) ||| (opcode &&& 0x7F))

def encodeUType (imm rd opcode : U32) : Bytes :=
  toLeBytes ((imm &&& 0xFFFFF000) ||| ((rd &&& 0x1F) <<< 7) ||| (opcode &&& 0x7F))

def encodeJType (imm : I32) (rd opcode : U32) : Bytes :=
  toLeBytes ((((imm >>> 20) &&& 0x1) <<< 31) ||| (((imm >>> 1) &&& 0x3FF) <<< 21) |||
    (((imm >>> 11) &&& 0x1) <<< 20) ||| (((imm >>> 12) &&& 0xFF) <<< 12) |||
    ((rd &&& 0x1F) <<< 7) ||| (opcode &&& 0x7F))

/-- The word that the shifts by an immediate put together themselves. -/
def encodeShift (funct7AndShamt rs1 funct3 rd opcode : U32) : Bytes :=
  toLeBytes (funct7AndShamt ||| (rs1 <<< 15) ||| (funct3 <<< 12) ||| (rd <<< 7) ||| opcode)

end Formats

inductive Instruction where
  | lui (rd : Gpr) (imm : U32)
  | auipc (rd : Gpr) (imm : U32)
  | jal (rd : Gpr) (offset : I32)
  | jalr (rd rs1 : Gpr) (imm : I32)
  | beq (rs1 rs2 : Gpr) (offset : I32)
  | bne (rs1 rs2 : Gpr) (offset : I32)
  | blt (rs1 rs2 : Gpr) (offset : I32)
  | bge (rs1 rs2 : Gpr) (offset : I32)
  | bltu (rs1 rs2 : Gpr) (offset : I32)
  | bgeu (rs1 rs2 : Gpr) (offset : I32)
  | lb (rd rs1 : Gpr) (imm : I32)
  | lh (rd rs1 : Gpr) (imm : I32)
  | lw (rd rs1 : Gpr) (imm : I32)
  | ld (rd rs1 : Gpr) (imm : I32)
  | lbu (rd rs1 : Gpr) (imm : I32)
  | lhu (rd rs1 : Gpr) (imm : I32)
  | lwu (rd rs1 : Gpr) (imm : I32)
  | sb (rs1 rs2 : Gpr) (imm : I32)
  | sh (rs1 rs2 : Gpr) (imm : I32)
  | sw (rs1 rs2 : Gpr) (imm : I32)
  | sd (rs1 rs2 : Gpr) (imm : I32)
  | addi (rd rs1 : Gpr) (imm : I32)
  | slti (rd rs1 : Gpr) (imm : I32)
  | sltiu (rd rs1 : Gpr) (imm : I32)
  | xori (rd rs1 : Gpr) (imm : I32)
  | ori (rd rs1 : Gpr) (imm : I32)
  | andi (rd rs1 : Gpr) (imm : I32)
  | slli (rd rs1 : Gpr) (shamt : U32)
  | srli (rd rs1 : Gpr) (shamt : U32)
  | srai (rd rs1 : Gpr) (shamt : U32)
  | add (rd rs1 rs2 : Gpr)
  | sub (rd rs1 rs2 : Gpr)
  | sll (rd rs1 rs2 : Gpr)
  | slt (rd rs1 rs2 : Gpr)
  | sltu (rd rs1 rs2 : Gpr)
  | xor (rd rs1 rs2 : Gpr)
  | srl (rd rs1 rs2 : Gpr)
  | sra (rd rs1 rs2 : Gpr)
  | or (rd rs1 rs2 : Gpr)
  | and (rd rs1 rs2 : Gpr)
  | addw (rd rs1 rs2 : Gpr)
  | subw (rd rs1 rs2 : Gpr)
  | sllw (rd rs1 rs2 : Gpr)
  | srlw (rd rs1 rs2 : Gpr)
  | sraw (rd rs1 rs2 : Gpr)
  | addiw (rd rs1 : Gpr) (imm : I32)
  | slliw (rd rs1 : Gpr) (shamt : U32)
  | srliw (rd rs1 : Gpr) (shamt : U32)
  | sraiw (rd rs1 : Gpr) (shamt : U32)
  | mul (rd rs1 rs2 : Gpr)
  | mulh (rd rs1 rs2 : Gpr)
  | mulhsu (rd rs1 rs2 : Gpr)
  | mulhu (rd rs1 rs2 : Gpr)
  | div (rd rs1 rs2 : Gpr)
  | divu (rd rs1 rs2 : Gpr)
  | rem (rd rs1 rs2 : Gpr)
  | remu (rd rs1 rs2 : Gpr)
  | flw (rd : Fpr) (rs1 : Gpr) (imm : I32)
  | fld (rd : Fpr) (rs1 : Gpr) (imm : I32)
  | fsw (rs1 : Gpr) (rs2 : Fpr) (imm : I32)
  | fsd (rs1 : Gpr) (rs2 : Fpr) (imm : I32)
  | faddD (rd rs1 rs2 : Fpr)
  | fsubD (rd rs1 rs2 : Fpr)
  | fmulD (rd rs1 rs2 : Fpr)
  | fdivD (rd rs1 rs2 : Fpr)
  | fmvD (rd rs1 : Fpr)
  | faddS (rd rs1 rs2 : Fpr)
  | fsubS (rd rs1 rs2 : Fpr)
  | fmulS (rd rs1 rs2 : Fpr)
  | fdivS (rd rs1 rs2 : Fpr)
  | fsqrtS (rd rs1 : Fpr)
  | fminS (rd rs1 rs2 : Fpr)
  | fmaxS (rd rs1 rs2 : Fpr)
  | fsgnjS (rd rs1 rs2 : Fpr)
  | fsgnjnS (rd rs1 rs2 : Fpr)
  | fsgnjxS (rd rs1 rs2 : Fpr)
  | fclassS (rd : Gpr) (rs1 : Fpr)
  | fmvS (rd rs1 : Fpr)
  | fsqrtD (rd rs1 : Fpr)
  | fminD (rd rs1 rs2 : Fpr)
  | fmaxD (rd rs1 rs2 : Fpr)
  | fsgnjD (rd rs1 rs2 : Fpr)
  | fsgnjnD (rd rs1 rs2 : Fpr)
  | fsgnjxD (rd rs1 rs2 : Fpr)
  | fclassD (rd : Gpr) (rs1 : Fpr)
  | feqD (rd : Gpr) (rs1 rs2 : Fpr)
  | fltD (rd : Gpr) (rs1 rs2 : Fpr)
  | fleD (rd : Gpr) (rs1 rs2 : Fpr)
  | feqS (rd : Gpr) (rs1 rs2 : Fpr)
  | fltS (rd : Gpr) (rs1 rs2 : Fpr)
  | fleS (rd : Gpr) (rs1 rs2 : Fpr)
  | fcvtSW (rd : Fpr) (rs1 : Gpr)
  | fcvtSWU (rd : Fpr) (rs1 : Gpr)
  | fcvtSL (rd : Fpr) (rs1 : Gpr)
  | fcvtSLU (rd : Fpr) (rs1 : Gpr)
  | fcvtDW (rd : Fpr) (rs1 : Gpr)
  | fcvtDWU (rd : Fpr) (rs1 : Gpr)
  | fcvtDL (rd : Fpr) (rs1 : Gpr)
  | fcvtDLU (rd : Fpr) (rs1 : Gpr)
  | fcvtWS (rd : Gpr) (rs1 : Fpr)
  | fcvtWUS (rd : Gpr) (rs1 : Fpr)
  | fcvtLS (rd : Gpr) (rs1 : Fpr)
  | fcvtLUS (rd : Gpr) (rs1 : Fpr)
  | fcvtWD (rd : Gpr) (rs1 : Fpr)
  | fcvtWUD (rd : Gpr) (rs1 : Fpr)
  | fcvtLD (rd : Gpr) (rs1 : Fpr)
  | fcvtLUD (rd : Gpr) (rs1 : Fpr)
  | fcvtDS (rd rs1 : Fpr)
  | fcvtSD (rd rs1 : Fpr)
  | fmvXW (rd : Gpr) (rs1 : Fpr)
  | fmvWX (rd : Fpr) (rs1 : Gpr)
  | fmvXD (rd : Gpr) (rs1 : Fpr)
  | fmvDX (rd : Fpr) (rs1 : Gpr)
  | csrrw (rd : Gpr) (csr : U32) (rs1 : Gpr)
  | csrrs (rd : Gpr) (csr : U32) (rs1 : Gpr)
  | csrrc (rd : Gpr) (csr : U32) (rs1 : Gpr)
  | csrrwi (rd : Gpr) (csr uimm : U32)
  | csrrsi (rd : Gpr) (csr uimm : U32)
  | csrrci (rd : Gpr) (csr uimm : U32)
  | fenceI
  | ecall
  | ebreak
  | fence (pred succ : U32)
  | nop
  | lrD (rd rs1 : Gpr)
  | scD (rd rs1 rs2 : Gpr)
  | lrW (rd rs1 : Gpr)
  | scW (rd rs1 rs2 : Gpr)
  | amoaddW (rd rs1 rs2 : Gpr)
  | amoaddD (rd rs1 rs2 : Gpr)
  | amoswapW (rd rs1 rs2 : Gpr)
  | amoswapD (rd rs1 rs2 : Gpr)
  | amoxorW (rd rs1 rs2 : Gpr)
  | amoxorD (rd rs1 rs2 : Gpr)
  | amoandW (rd rs1 rs2 : Gpr)
  | amoandD (rd rs1 rs2 : Gpr)
  | amoorW (rd rs1 rs2 : Gpr)
  | amoorD (rd rs1 rs2 : Gpr)
  | amomaxW (rd rs1 rs2 : Gpr)
  | amomaxD (rd rs1 rs2 : Gpr)
  | amominW (rd rs1 rs2 : Gpr)
  | amominD (rd rs1 rs2 : Gpr)
  | amomaxWu (rd rs1 rs2 : Gpr)
  | amomaxDu (rd rs1 rs2 : Gpr)
  | amominWu (rd rs1 rs2 : Gpr)
  | amominDu (rd rs1 rs2 : Gpr)
  deriving Repr

def Instruction.encode : Instruction → Bytes
  | .lui rd imm => encodeUType imm rd.encoding opLui
  | .auipc rd imm => encodeUType imm rd.encoding opAuipc
  | .jal rd offset => encodeJType offset rd.encoding opJal
  | .jalr rd rs1 imm => encodeIType (imm &&& 0xFFF) rs1.encoding 0b000 rd.encoding opJalr
  | .beq rs1 rs2 offset => encodeBType offset rs2.encoding rs1.encoding 0b000 opBranch
  | .bne rs1 rs2 offset => encodeBType offset rs2.encoding rs1.encoding 0b001 opBranch
  | .blt rs1 rs2 offset => encodeBType offset rs2.encoding rs1.encoding 0b100 opBranch
  | .bge rs1 rs2 offset => encodeBType offset rs2.encoding rs1.encoding 0b101 opBranch
  | .bltu rs1 rs2 offset => encodeBType offset rs2.encoding rs1.encoding 0b110 opBranch
  | .bgeu rs1 rs2 offset => encodeBType offset rs2.encoding rs1.encoding 0b111 opBranch
  | .lb rd rs1 imm => encodeIType (imm &&& 0xFFF) rs1.encoding 0b000 rd.encoding opLoad
  | .lh rd rs1 imm => encodeIType (imm &&& 0xFFF) rs1.encoding 0b001 rd.encoding opLoad
  | .lw rd rs1 imm => encodeIType (imm &&& 0xFFF) rs1.encoding 0b010 rd.encoding opLoad
  | .ld rd rs1 imm => encodeIType (imm &&& 0xFFF) rs1.encoding 0b011 rd.encoding opLoad
  | .lbu rd rs1 imm => encodeIType (imm &&& 0xFFF) rs1.encoding 0b100 rd.encoding opLoad
  | .lhu rd rs1 imm => encodeIType (imm &&& 0xFFF) rs1.encoding 0b101 rd.encoding opLoad
  | .lwu rd rs1 imm => encodeIType (imm &&& 0xFFF) rs1.encoding 0b110 rd.encoding opLoad
  | .sb rs1 rs2 imm => encodeSType (imm &&& 0xFFF) rs2.encoding rs1.encoding 0b000 opStore
  | .sh rs1 rs2 imm => encodeSType (imm &&& 0xFFF) rs2.encoding rs1.encoding 0b001 opStore
  | .sw rs1 rs2 imm => encodeSType (imm &&& 0xFFF) rs2.encoding rs1.encoding 0b010 opStore
  | .sd rs1 rs2 imm => encodeSType (imm &&& 0xFFF) rs2.encoding rs1.encoding 0b011 opStore
  | .addi rd rs1 imm => encodeIType (imm &&& 0xFFF) rs1.encoding 0b000 rd.encoding opImm
  | .slti rd rs1 imm => encodeIType (imm &&& 0xFFF) rs1.encoding 0b010 rd.encoding opImm
  | .sltiu rd rs1 imm => encodeIType (imm &&& 0xFFF) rs1.encoding 0b011 rd.encoding opImm
  | .xori rd rs1 imm => encodeIType (imm &&& 0xFFF) rs1.encoding 0b100 rd.encoding opImm
  | .ori rd rs1 imm => encodeIType (imm &&& 0xFFF) rs1.encoding 0b110 rd.encoding opImm
  | .andi rd rs1 imm => encodeIType (imm &&& 0xFFF) rs1.encoding 0b111 rd.encoding opImm
  | .slli rd rs1 shamt => encodeShift ((shamt &&& 0x3F) <<< 20) rs1.encoding 0b001 rd.encoding opImm
  | .srli rd rs1 shamt => encodeShift ((shamt &&& 0x3F) <<< 20) rs1.encoding 0b101 rd.encoding opImm
  | .srai rd rs1 shamt =>
    encodeShift ((0b0100000 <<< 25) ||| ((shamt &&& 0x3F) <<< 20))
      rs1.encoding 0b101 rd.encoding opImm
  | .add rd rs1 rs2 => encodeRType 0b0000000 rs2.encoding rs1.encoding 0b000 rd.encoding opReg
  | .sub rd rs1 rs2 => encodeRType 0b0100000 rs2.encoding rs1.encoding 0b000 rd.encoding opReg
  | .sll rd rs1 rs2 => encodeRType 0b0000000 rs2.encoding rs1.encoding 0b001 rd.encoding opReg
  | .slt rd rs1 rs2 => encodeRType 0b0000000 rs2.encoding rs1.encoding 0b010 rd.encoding opReg
  | .sltu rd rs1 rs2 => encodeRType 0b0000000 rs2.encoding rs1.encoding 0b011 rd.encoding opReg
  | .xor rd rs1 rs2 => encodeRType 0b0000000 rs2.encoding rs1.encoding 0b100 rd.encoding opReg
  | .srl rd rs1 rs2 => encodeRType 0b0000000 rs2.encoding rs1.encoding 0b101 rd.encoding opReg
  | .sra rd rs1 rs2 => encodeRType 0b0100000 rs2.encoding rs1.encoding 0b101 rd.encoding opReg
  | .or rd rs1 rs2 => encodeRType 0b0000000 rs2.encoding rs1.encoding 0b110 rd.encoding opReg
  | .and rd rs1 rs2 => encodeRType 0b0000000 rs2.encoding rs1.encoding 0b111 rd.encoding opReg
  | .addw rd rs1 rs2 => encodeRType 0b0000000 rs2.encoding rs1.encoding 0b000 rd.encoding opReg32
  | .subw rd rs1 rs2 => encodeRType 0b0100000 rs2.encoding rs1.encoding 0b000 rd.encoding opReg32
  | .sllw rd rs1 rs2 => encodeRType 0b0000000 rs2.encoding rs1.encoding 0b001 rd.encoding opReg32
  | .srlw rd rs1 rs2 => encodeRType 0b0000000 rs2.encoding rs1.encoding 0b101 rd.encoding opReg32
  | .sraw rd rs1 rs2 => encodeRType 0b0100000 rs2.encoding rs1.encoding 0b101 rd.encoding opReg32
  | .addiw rd rs1 imm => encodeIType (imm &&& 0xFFF) rs1.encoding 0b000 rd.encoding opImm32
  | .slliw rd rs1 shamt =>
    encodeShift ((shamt &&& 0x1F) <<< 20) rs1.encoding 0b001 rd.encoding opImm32
  | .srliw rd rs1 shamt =>
    encodeShift ((shamt &&& 0x1F) <<< 20) rs1.encoding 0b101 rd.encoding opImm32
  | .sraiw rd rs1 shamt =>
    encodeShift ((0b0100000 <<< 25) ||| ((shamt &&& 0x1F) <<< 20))
      rs1.encoding 0b101 rd.encoding opImm32
  | .mul rd rs1 rs2 => encodeRType 0b0000001 rs2.encoding rs1.encoding 0b000 rd.encoding opReg
  | .mulh rd rs1 rs2 => encodeRType 0b0000001 rs2.encoding rs1.encoding 0b001 rd.encoding opReg
  | .mulhsu rd rs1 rs2 => encodeRType 0b0000001 rs2.encoding rs1.encoding 0b010 rd.encoding opReg
  | .mulhu rd rs1 rs2 => encodeRType 0b0000001 rs2.encoding rs1.encoding 0b011 rd.encoding opReg
  | .div rd rs1 rs2 => encodeRType 0b0000001 rs2.encoding rs1.encoding 0b100 rd.encoding opReg
  | .divu rd rs1 rs2 => encodeRType 0b0000001 rs2.encoding rs1.encoding 0b101 rd.encoding opReg
  | .rem rd rs1 rs2 => encodeRType 0b0000001 rs2.encoding rs1.encoding 0b110 rd.encoding opReg
  | .remu rd rs1 rs2 => encodeRType 0b0000001 rs2.encoding rs1.encoding 0b111 rd.encoding opReg
  | .flw rd rs1 imm => encodeIType (imm &&& 0xFFF) rs1.encoding 0b010 rd.encoding opLoadFp
  | .fld rd rs1 imm => encodeIType (imm &&& 0xFFF) rs1.encoding 0b011 rd.encoding opLoadFp
  | .fsw rs1 rs2 imm => encodeSType (imm &&& 0xFFF) rs2.encoding rs1.encoding 0b010 opStoreFp
  | .fsd rs1 rs2 imm => encodeSType (imm &&& 0xFFF) rs2.encoding rs1.encoding 0b011 opStoreFp
  | .faddD rd rs1 rs2 => encodeRType 0b0000001 rs2.encoding rs1.encoding 0b111 rd.encoding opFp
  | .fsubD rd rs1 rs2 => encodeRType 0b0000101 rs2.encoding rs1.encoding 0b111 rd.encoding opFp
  | .fmulD rd rs1 rs2 => encodeRType 0b0001001 rs2.encoding rs1.encoding 0b111 rd.encoding opFp
  | .fdivD rd rs1 rs2 => encodeRType 0b0001101 rs2.encoding rs1.encoding 0b111 rd.encoding opFp
  | .fmvD rd rs1 => encodeRType 0b0010001 rs1.encoding rs1.encoding 0b000 rd.encoding opFp
  | .faddS rd rs1 rs2 => encodeRType 0b0000000 rs2.encoding rs1.encoding 0b111 rd.encoding opFp
  | .fsubS rd rs1 rs2 => encodeRType 0b0000100 rs2.encoding rs1.encoding 0b111 rd.encoding opFp
  | .fmulS rd rs1 rs2 => encodeRType 0b0001000 rs2.encoding rs1.encoding 0b111 rd.encoding opFp
  | .fdivS rd rs1 rs2 => encodeRType 0b0001100 rs2.encoding rs1.encoding 0b111 rd.encoding opFp
  | .fsqrtS rd rs1 => encodeRType 0b0101100 0b00000 rs1.encoding 0b111 rd.encoding opFp
  | .fminS rd rs1 rs2 => encodeRType 0b0010100 rs2.encoding rs1.encoding 0b000 rd.encoding opFp
  | .fmaxS rd rs1 rs2 => encodeRType 0b0010100 rs2.encoding rs1.encoding 0b001 rd.encoding opFp
  | .fsgnjS rd rs1 rs2 => encodeRType 0b0010000 rs2.encoding rs1.encoding 0b000 rd.encoding opFp
  | .fsgnjnS rd rs1 rs2 => encodeRType 0b0010000 rs2.encoding rs1.encoding 0b001 rd.encoding opFp
  | .fsgnjxS rd rs1 rs2 => encodeRType 0b0010000 rs2.encoding rs1.encoding 0b010 rd.encoding opFp
  | .fclassS rd rs1 => encodeRType 0b1110000 0b00000 rs1.encoding 0b001 rd.encoding opFp
  | .fmvS rd rs1 => encodeRType 0b0010000 rs1.encoding rs1.encoding 0b000 rd.encoding opFp
  | .fsqrtD rd rs1 => encodeRType 0b0101101 0b00000 rs1.encoding 0b111 rd.encoding opFp
  | .fminD rd rs1 rs2 => encodeRType 0b0010101 rs2.encoding rs1.encoding 0b000 rd.encoding opFp
  | .fmaxD rd rs1 rs2 => encodeRType 0b0010101 rs2.encoding rs1.encoding 0b001 rd.encoding opFp
  | .fsgnjD rd rs1 rs2 => encodeRType 0b0010001 rs2.encoding rs1.encoding 0b000 rd.encoding opFp
  | .fsgnjnD rd rs1 rs2 => encodeRType 0b0010001 rs2.encoding rs1.encoding 0b001 rd.encoding opFp
  | .fsgnjxD rd rs1 rs2 => encodeRType 0b0010001 rs2.encoding rs1.encoding 0b010 rd.encoding opFp
  | .fclassD rd rs1 => encodeRType 0b1110001 0b00000 rs1.encoding 0b001 rd.encoding opFp
  | .feqD rd rs1 rs2 => encodeRType 0b1010001 rs2.encoding rs1.encoding 0b010 rd.encoding opFp
  | .fltD rd rs1 rs2 => encodeRType 0b1010001 rs2.encoding rs1.encoding 0b001 rd.encoding opFp
  | .fleD rd rs1 rs2 => encodeRType 0b1010001 rs2.encoding rs1.encoding 0b000 rd.encoding opFp
  | .feqS rd rs1 rs2 => encodeRType 0b1010000 rs2.encoding rs1.encoding 0b010 rd.encoding opFp
  | .fltS rd rs1 rs2 => encodeRType 0b1010000 rs2.encoding rs1.encoding 0b001 rd.encoding opFp
  | .fleS rd rs1 rs2 => encodeRType 0b1010000 rs2.encoding rs1.encoding 0b000 rd.encoding opFp
  | .fcvtSW rd rs1 => encodeRType 0b1101000 0b00000 rs1.encoding 0b111 rd.encoding opFp
  | .fcvtSWU rd rs1 => encodeRType 0b1101000 0b00001 rs1.encoding 0b111 rd.encoding opFp
  | .fcvtSL rd rs1 => encodeRType 0b1101000 0b00010 rs1.encoding 0b111 rd.encoding opFp
  | .fcvtSLU rd rs1 => encodeRType 0b1101000 0b00011 rs1.encoding 0b111 rd.encoding opFp
  | .fcvtDW rd rs1 => encodeRType 0b1101001 0b00000 rs1.encoding 0b111 rd.encoding opFp
  | .fcvtDWU rd rs1 => encodeRType 0b1101001 0b00001 rs1.encoding 0b111 rd.encoding opFp
  | .fcvtDL rd rs1 => encodeRType 0b1101001 0b00010 rs1.encoding 0b111 rd.encoding opFp
  | .fcvtDLU rd rs1 => encodeRType 0b1101001 0b00011 rs1.encoding 0b111 rd.encoding opFp
  | .fcvtWS rd rs1 => encodeRType 0b1100000 0b00000 rs1.encoding 0b111 rd.encoding opFp
  | .fcvtWUS rd rs1 => encodeRType 0b1100000 0b00001 rs1.encoding 0b111 rd.encoding opFp
  | .fcvtLS rd rs1 => encodeRType 0b1100000 0b00010 rs1.encoding 0b001 rd.encoding opFp
  | .fcvtLUS rd rs1 => encodeRType 0b1100000 0b00011 rs1.encoding 0b001 rd.encoding opFp
  | .fcvtWD rd rs1 => encodeRType 0b1100001 0b00000 rs1.encoding 0b111 rd.encoding opFp
  | .fcvtWUD rd rs1 => encodeRType 0b1100001 0b00001 rs1.encoding 0b111 rd.encoding opFp
  | .fcvtLD rd rs1 => encodeRType 0b1100001 0b00010 rs1.encoding 0b001 rd.encoding opFp
  | .fcvtLUD rd rs1 => encodeRType 0b1100001 0b00011 rs1.encoding 0b001 rd.encoding opFp
  | .fcvtDS rd rs1 => encodeRType 0b0100001 0b00000 rs1.encoding 0b000 rd.encoding opFp
  | .fcvtSD rd rs1 => encodeRType 0b0100000 0b00001 rs1.encoding 0b000 rd.encoding opFp
  | .fmvXW rd rs1 => encodeRType 0b1110000 0b00000 rs1.encoding 0b000 rd.encoding opFp
  | .fmvWX rd rs1 => encodeRType 0b1111000 0b00000 rs1.encoding 0b000 rd.encoding opFp
  | .fmvXD rd rs1 => encodeRType 0b1110001 0b00000 rs1.encoding 0b000 rd.encoding opFp
  | .fmvDX rd rs1 => encodeRType 0b1111001 0b00000 rs1.encoding 0b000 rd.encoding opFp
  | .csrrw rd csr rs1 => encodeIType csr rs1.encoding 0b001 rd.encoding opSystem
  | .csrrs rd csr rs1 => encodeIType csr rs1.encoding 0b010 rd.encoding opSystem
  | .csrrc rd csr rs1 => encodeIType csr rs1.encoding 0b011 rd.encoding opSystem
  | .csrrwi rd csr uimm => encodeIType csr (uimm &&& 0x1F) 0b101 rd.encoding opSystem
  | .csrrsi rd csr uimm => encodeIType csr (uimm &&& 0x1F) 0b110 rd.encoding opSystem
  | .csrrci rd csr uimm => encodeIType csr (uimm &&& 0x1F) 0b111 rd.encoding opSystem
  | .fenceI => encodeIType 0 0 0b001 0 opMiscMem
  | .ecall => toLeBytes 0x00000073
  | .ebreak => toLeBytes 0x00100073
  | .fence pred succ => encodeIType (((pred &&& 0xF) <<< 4) ||| (succ &&& 0xF)) 0 0b000 0 opMiscMem
  | .nop => encodeIType 0 0 0b000 0 opImm
  | .lrD rd rs1 => encodeRType 0b0001010 0 rs1.encoding 0b010 rd.encoding 0b0101111
  | .scD rd rs1 rs2 => encodeRType 0b0001100 rs2.encoding rs1.encoding 0b010 rd.encoding 0b0101111
  | .lrW rd rs1 => encodeRType 0b0001010 0 rs1.encoding 0b010 rd.encoding 0b0101111
  | .scW rd rs1 rs2 => encodeRType 0b0001100 rs2.encoding rs1.encoding 0b010 rd.encoding 0b0101111
  | .amoaddW rd rs1 rs2 =>
    encodeRType 0b0000010 rs2.encoding rs1.encoding 0b010 rd.encoding 0b0101111
  | .amoaddD rd rs1 rs2 =>
    encodeRType 0b0000010 rs2.encoding rs1.encoding 0b011 rd.encoding 0b0101111
  | .amoswapW rd rs1 rs2 =>
    encodeRType 0b0000110 rs2.encoding rs1.encoding 0b010 rd.encoding 0b0101111
  | .amoswapD rd rs1 rs2 =>
    encodeRType 0b0000110 rs2.encoding rs1.encoding 0b011 rd.encoding 0b0101111
  | .amoxorW rd rs1 rs2 =>
    encodeRType 0b0010010 rs2.encoding rs1.encoding 0b010 rd.encoding 0b0101111
  | .amoxorD rd rs1 rs2 =>
    encodeRType 0b0010010 rs2.encoding rs1.encoding 0b011 rd.encoding 0b0101111
  | .amoandW rd rs1 rs2 =>
    encodeRType 0b0110010 rs2.encoding rs1.encoding 0b010 rd.encoding 0b0101111
  | .amoandD rd rs1 rs2 =>
    encodeRType 0b0110010 rs2.encoding rs1.encoding 0b011 rd.encoding 0b0101111
  | .amoorW rd rs1 rs2 =>
    encodeRType 0b0100010 rs2.encoding rs1.encoding 0b010 rd.encoding 0b0101111
  | .amoorD rd rs1 rs2 =>
    encodeRType 0b0100010 rs2.encoding rs1.encoding 0b011 rd.encoding 0b0101111
  | .amomaxW rd rs1 rs2 =>
    encodeRType 0b1000010 rs2.encoding rs1.encoding 0b010 rd.encoding 0b0101111
  | .amomaxD rd rs1 rs2 =>
    encodeRType 0b1000010 rs2.encoding rs1.encoding 0b011 rd.encoding 0b0101111
  | .amominW rd rs1 rs2 =>
    encodeRType 0b1000011 rs2.encoding rs1.encoding 0b010 rd.encoding 0b0101111
  | .amominD rd rs1 rs2 =>
    encodeRType 0b1000011 rs2.encoding rs1.encoding 0b011 rd.encoding 0b0101111
  | .amomaxWu rd rs1 rs2 =>
    encodeRType 0b1110010 rs2.encoding rs1.encoding 0b010 rd.encoding 0b0101111
  | .amomaxDu rd rs1 rs2 =>
    encodeRType 0b1110010 rs2.encoding rs1.encoding 0b011 rd.encoding 0b0101111
  | .amominWu rd rs1 rs2 =>
    encodeRType 0b1110011 rs2.encoding rs1.encoding 0b010 rd.encoding 0b0101111
  | .amominDu rd rs1 rs2 =>
    encodeRType 0b1110011 rs2.encoding rs1.encoding 0b011 rd.encoding 0b0101111

end Vuma.Codegen.Riscv64
