import Vuma.Codegen.Riscv64

/-!
# The instructions that are encoded

The operation of the instruction set that each instruction names, and the operation that the tables
read from its bytes. The two are the same for all but six atomic instructions.
-/

namespace Vuma.Codegen.Riscv64

open Lib.RiscV (Op decode ofLeBytes toLeBytes ofLeBytes_toLeBytes)

section Fields

variable (funct7 rs2 rs1 funct3 rd opcode imm : U32)

theorem fields_encodeRType :
    Lib.RiscV.opcode (ofLeBytes (encodeRType funct7 rs2 rs1 funct3 rd opcode)) = opcode.setWidth 7 ∧
      Lib.RiscV.rd (ofLeBytes (encodeRType funct7 rs2 rs1 funct3 rd opcode)) = rd.setWidth 5 ∧
      Lib.RiscV.funct3 (ofLeBytes (encodeRType funct7 rs2 rs1 funct3 rd opcode)) =
        funct3.setWidth 3 ∧
      Lib.RiscV.rs1 (ofLeBytes (encodeRType funct7 rs2 rs1 funct3 rd opcode)) = rs1.setWidth 5 ∧
      Lib.RiscV.rs2 (ofLeBytes (encodeRType funct7 rs2 rs1 funct3 rd opcode)) = rs2.setWidth 5 ∧
      Lib.RiscV.funct7 (ofLeBytes (encodeRType funct7 rs2 rs1 funct3 rd opcode)) =
        funct7.setWidth 7 := by
  simp only [encodeRType, ofLeBytes_toLeBytes, Lib.RiscV.opcode, Lib.RiscV.rd, Lib.RiscV.funct3,
    Lib.RiscV.rs1, Lib.RiscV.rs2, Lib.RiscV.funct7]
  refine ⟨?_, ?_, ?_, ?_, ?_, ?_⟩ <;> ext i hi <;> interval_cases i <;> simp

theorem fields_encodeIType :
    Lib.RiscV.opcode (ofLeBytes (encodeIType imm rs1 funct3 rd opcode)) = opcode.setWidth 7 ∧
      Lib.RiscV.rd (ofLeBytes (encodeIType imm rs1 funct3 rd opcode)) = rd.setWidth 5 ∧
      Lib.RiscV.funct3 (ofLeBytes (encodeIType imm rs1 funct3 rd opcode)) = funct3.setWidth 3 ∧
      Lib.RiscV.rs1 (ofLeBytes (encodeIType imm rs1 funct3 rd opcode)) = rs1.setWidth 5 ∧
      Lib.RiscV.immI (ofLeBytes (encodeIType imm rs1 funct3 rd opcode)) = imm.setWidth 12 := by
  simp only [encodeIType, ofLeBytes_toLeBytes, Lib.RiscV.opcode, Lib.RiscV.rd, Lib.RiscV.funct3,
    Lib.RiscV.rs1, Lib.RiscV.immI]
  refine ⟨?_, ?_, ?_, ?_, ?_⟩ <;> ext i hi <;> interval_cases i <;> simp

theorem fields_encodeSType :
    Lib.RiscV.opcode (ofLeBytes (encodeSType imm rs2 rs1 funct3 opcode)) = opcode.setWidth 7 ∧
      Lib.RiscV.funct3 (ofLeBytes (encodeSType imm rs2 rs1 funct3 opcode)) = funct3.setWidth 3 ∧
      Lib.RiscV.rs1 (ofLeBytes (encodeSType imm rs2 rs1 funct3 opcode)) = rs1.setWidth 5 ∧
      Lib.RiscV.rs2 (ofLeBytes (encodeSType imm rs2 rs1 funct3 opcode)) = rs2.setWidth 5 ∧
      Lib.RiscV.immS (ofLeBytes (encodeSType imm rs2 rs1 funct3 opcode)) = imm.setWidth 12 := by
  simp only [encodeSType, ofLeBytes_toLeBytes, Lib.RiscV.opcode, Lib.RiscV.funct3, Lib.RiscV.rs1,
    Lib.RiscV.rs2, Lib.RiscV.immS]
  refine ⟨?_, ?_, ?_, ?_, ?_⟩ <;> apply BitVec.eq_of_getLsbD_eq <;> intro i hi
  case refine_5 =>
    simp only [BitVec.getLsbD_append]
    interval_cases i <;> simp
  all_goals interval_cases i <;> simp

theorem fields_encodeBType :
    Lib.RiscV.opcode (ofLeBytes (encodeBType imm rs2 rs1 funct3 opcode)) = opcode.setWidth 7 ∧
      Lib.RiscV.funct3 (ofLeBytes (encodeBType imm rs2 rs1 funct3 opcode)) = funct3.setWidth 3 ∧
      Lib.RiscV.rs1 (ofLeBytes (encodeBType imm rs2 rs1 funct3 opcode)) = rs1.setWidth 5 ∧
      Lib.RiscV.rs2 (ofLeBytes (encodeBType imm rs2 rs1 funct3 opcode)) = rs2.setWidth 5 ∧
      Lib.RiscV.immB (ofLeBytes (encodeBType imm rs2 rs1 funct3 opcode)) =
        imm.extractLsb' 1 12 ++ 0#1 := by
  simp only [encodeBType, ofLeBytes_toLeBytes, Lib.RiscV.opcode, Lib.RiscV.funct3, Lib.RiscV.rs1,
    Lib.RiscV.rs2, Lib.RiscV.immB]
  refine ⟨?_, ?_, ?_, ?_, ?_⟩ <;> apply BitVec.eq_of_getLsbD_eq <;> intro i hi
  case refine_5 =>
    simp only [BitVec.getLsbD_append]
    interval_cases i <;> simp
  all_goals interval_cases i <;> simp

theorem fields_encodeUType :
    Lib.RiscV.opcode (ofLeBytes (encodeUType imm rd opcode)) = opcode.setWidth 7 ∧
      Lib.RiscV.rd (ofLeBytes (encodeUType imm rd opcode)) = rd.setWidth 5 ∧
      Lib.RiscV.immU (ofLeBytes (encodeUType imm rd opcode)) = imm.extractLsb' 12 20 ++ 0#12 := by
  simp only [encodeUType, ofLeBytes_toLeBytes, Lib.RiscV.opcode, Lib.RiscV.rd, Lib.RiscV.immU]
  refine ⟨?_, ?_, ?_⟩ <;> apply BitVec.eq_of_getLsbD_eq <;> intro i hi
  case refine_3 =>
    simp only [BitVec.getLsbD_append]
    interval_cases i <;> simp
  all_goals interval_cases i <;> simp

theorem fields_encodeJType :
    Lib.RiscV.opcode (ofLeBytes (encodeJType imm rd opcode)) = opcode.setWidth 7 ∧
      Lib.RiscV.rd (ofLeBytes (encodeJType imm rd opcode)) = rd.setWidth 5 ∧
      Lib.RiscV.immJ (ofLeBytes (encodeJType imm rd opcode)) = imm.extractLsb' 1 20 ++ 0#1 := by
  simp only [encodeJType, ofLeBytes_toLeBytes, Lib.RiscV.opcode, Lib.RiscV.rd, Lib.RiscV.immJ]
  refine ⟨?_, ?_, ?_⟩ <;> apply BitVec.eq_of_getLsbD_eq <;> intro i hi
  case refine_3 =>
    simp only [BitVec.getLsbD_append]
    interval_cases i <;> simp
  all_goals interval_cases i <;> simp

/-- A shift by an immediate is a word of the format I, whose fields are not cut off. -/
theorem encodeShift_eq (himm : imm &&& 0xFFF = imm) (hrs1 : rs1 &&& 0x1F = rs1)
    (hfunct3 : funct3 &&& 0x7 = funct3) (hrd : rd &&& 0x1F = rd)
    (hopcode : opcode &&& 0x7F = opcode) :
    encodeShift (imm <<< 20) rs1 funct3 rd opcode = encodeIType imm rs1 funct3 rd opcode := by
  rw [encodeIType, himm, hrs1, hfunct3, hrd, hopcode, encodeShift]

end Fields

section Immediates

/-- A signed number of `n` bits. -/
def IsSigned (n : Nat) (x : I32) : Prop := -2 ^ (n - 1) ≤ x.toInt ∧ x.toInt < 2 ^ (n - 1)

instance (n : Nat) (x : I32) : Decidable (IsSigned n x) := inferInstanceAs (Decidable (_ ∧ _))

theorem toInt_setWidth_of_isSigned {n : Nat} {x : I32} (hn : n + 1 ≤ 32)
    (h : IsSigned (n + 1) x) : (x.setWidth (n + 1)).toInt = x.toInt := by
  rw [BitVec.toInt_setWidth, ← Int.bmod_bmod_of_dvd (Nat.pow_dvd_pow 2 hn),
    ← BitVec.toInt_eq_toNat_bmod]
  rw [IsSigned, Nat.add_sub_cancel] at h
  refine Int.bmod_eq_of_le ?_ ?_ <;> rw [Nat.pow_succ] <;> push_cast <;> omega

theorem extractLsb'_append_zero {k n : Nat} {x : U32} (h : x.toNat % 2 ^ k = 0) :
    x.extractLsb' k n ++ 0#k = x.setWidth (n + k) := by
  apply BitVec.eq_of_getLsbD_eq
  intro i hi
  rw [BitVec.getLsbD_append, BitVec.getLsbD_setWidth, decide_eq_true hi, Bool.true_and]
  split_ifs with hk
  · -- the bits below are those of the remainder
    have hmod := congrArg (fun r => Nat.testBit r i) h
    simp only [Nat.testBit_mod_two_pow, hk, decide_true, Bool.true_and, Nat.zero_testBit] at hmod
    rw [BitVec.getLsbD_zero, ← hmod]
    rfl
  · rw [BitVec.getLsbD_extractLsb', show k + (i - k) = i by omega,
      decide_eq_true (show i - k < n by omega), Bool.true_and]

end Immediates

section Operations

/-- The number of a register, as it stands in a word. -/
def Gpr.reg (r : Gpr) : Lib.RiscV.Reg := r.encoding.setWidth 5

def Fpr.reg (r : Fpr) : Lib.RiscV.Reg := r.encoding.setWidth 5

theorem Gpr.reg_inj {r r' : Gpr} (h : r.reg = r'.reg) : r = r' := by
  cases r <;> cases r' <;> first | rfl | exact absurd h (by decide)

theorem Gpr.encoding_and (r : Gpr) : r.encoding &&& 0x1F = r.encoding := by
  cases r <;> rfl

/-- The operation that an instruction names. `fmv` and `nop` are other names of `fsgnj` and
`addi`. -/
def Instruction.operation : Instruction → Op
  | .lui rd imm => .lui rd.reg imm
  | .auipc rd imm => .auipc rd.reg imm
  | .jal rd offset => .jal rd.reg offset.toInt
  | .jalr rd rs1 imm => .jalr rd.reg rs1.reg imm.toInt
  | .beq rs1 rs2 offset => .branch .beq rs1.reg rs2.reg offset.toInt
  | .bne rs1 rs2 offset => .branch .bne rs1.reg rs2.reg offset.toInt
  | .blt rs1 rs2 offset => .branch .blt rs1.reg rs2.reg offset.toInt
  | .bge rs1 rs2 offset => .branch .bge rs1.reg rs2.reg offset.toInt
  | .bltu rs1 rs2 offset => .branch .bltu rs1.reg rs2.reg offset.toInt
  | .bgeu rs1 rs2 offset => .branch .bgeu rs1.reg rs2.reg offset.toInt
  | .lb rd rs1 imm => .load .lb rd.reg rs1.reg imm.toInt
  | .lh rd rs1 imm => .load .lh rd.reg rs1.reg imm.toInt
  | .lw rd rs1 imm => .load .lw rd.reg rs1.reg imm.toInt
  | .ld rd rs1 imm => .load .ld rd.reg rs1.reg imm.toInt
  | .lbu rd rs1 imm => .load .lbu rd.reg rs1.reg imm.toInt
  | .lhu rd rs1 imm => .load .lhu rd.reg rs1.reg imm.toInt
  | .lwu rd rs1 imm => .load .lwu rd.reg rs1.reg imm.toInt
  | .sb rs1 rs2 imm => .store .sb rs1.reg rs2.reg imm.toInt
  | .sh rs1 rs2 imm => .store .sh rs1.reg rs2.reg imm.toInt
  | .sw rs1 rs2 imm => .store .sw rs1.reg rs2.reg imm.toInt
  | .sd rs1 rs2 imm => .store .sd rs1.reg rs2.reg imm.toInt
  | .addi rd rs1 imm => .imm .addi rd.reg rs1.reg imm.toInt
  | .slti rd rs1 imm => .imm .slti rd.reg rs1.reg imm.toInt
  | .sltiu rd rs1 imm => .imm .sltiu rd.reg rs1.reg imm.toInt
  | .xori rd rs1 imm => .imm .xori rd.reg rs1.reg imm.toInt
  | .ori rd rs1 imm => .imm .ori rd.reg rs1.reg imm.toInt
  | .andi rd rs1 imm => .imm .andi rd.reg rs1.reg imm.toInt
  | .slli rd rs1 shamt => .shift .sll rd.reg rs1.reg shamt.toNat
  | .srli rd rs1 shamt => .shift .srl rd.reg rs1.reg shamt.toNat
  | .srai rd rs1 shamt => .shift .sra rd.reg rs1.reg shamt.toNat
  | .add rd rs1 rs2 => .reg .add rd.reg rs1.reg rs2.reg
  | .sub rd rs1 rs2 => .reg .sub rd.reg rs1.reg rs2.reg
  | .sll rd rs1 rs2 => .reg .sll rd.reg rs1.reg rs2.reg
  | .slt rd rs1 rs2 => .reg .slt rd.reg rs1.reg rs2.reg
  | .sltu rd rs1 rs2 => .reg .sltu rd.reg rs1.reg rs2.reg
  | .xor rd rs1 rs2 => .reg .xor rd.reg rs1.reg rs2.reg
  | .srl rd rs1 rs2 => .reg .srl rd.reg rs1.reg rs2.reg
  | .sra rd rs1 rs2 => .reg .sra rd.reg rs1.reg rs2.reg
  | .or rd rs1 rs2 => .reg .or rd.reg rs1.reg rs2.reg
  | .and rd rs1 rs2 => .reg .and rd.reg rs1.reg rs2.reg
  | .addw rd rs1 rs2 => .word .addw rd.reg rs1.reg rs2.reg
  | .subw rd rs1 rs2 => .word .subw rd.reg rs1.reg rs2.reg
  | .sllw rd rs1 rs2 => .word .sllw rd.reg rs1.reg rs2.reg
  | .srlw rd rs1 rs2 => .word .srlw rd.reg rs1.reg rs2.reg
  | .sraw rd rs1 rs2 => .word .sraw rd.reg rs1.reg rs2.reg
  | .addiw rd rs1 imm => .addiw rd.reg rs1.reg imm.toInt
  | .slliw rd rs1 shamt => .shiftw .sll rd.reg rs1.reg shamt.toNat
  | .srliw rd rs1 shamt => .shiftw .srl rd.reg rs1.reg shamt.toNat
  | .sraiw rd rs1 shamt => .shiftw .sra rd.reg rs1.reg shamt.toNat
  | .mul rd rs1 rs2 => .reg .mul rd.reg rs1.reg rs2.reg
  | .mulh rd rs1 rs2 => .reg .mulh rd.reg rs1.reg rs2.reg
  | .mulhsu rd rs1 rs2 => .reg .mulhsu rd.reg rs1.reg rs2.reg
  | .mulhu rd rs1 rs2 => .reg .mulhu rd.reg rs1.reg rs2.reg
  | .div rd rs1 rs2 => .reg .div rd.reg rs1.reg rs2.reg
  | .divu rd rs1 rs2 => .reg .divu rd.reg rs1.reg rs2.reg
  | .rem rd rs1 rs2 => .reg .rem rd.reg rs1.reg rs2.reg
  | .remu rd rs1 rs2 => .reg .remu rd.reg rs1.reg rs2.reg
  | .flw rd rs1 imm => .fload .s rd.reg rs1.reg imm.toInt
  | .fld rd rs1 imm => .fload .d rd.reg rs1.reg imm.toInt
  | .fsw rs1 rs2 imm => .fstore .s rs1.reg rs2.reg imm.toInt
  | .fsd rs1 rs2 imm => .fstore .d rs1.reg rs2.reg imm.toInt
  | .faddD rd rs1 rs2 => .fp .add .d rd.reg rs1.reg rs2.reg
  | .fsubD rd rs1 rs2 => .fp .sub .d rd.reg rs1.reg rs2.reg
  | .fmulD rd rs1 rs2 => .fp .mul .d rd.reg rs1.reg rs2.reg
  | .fdivD rd rs1 rs2 => .fp .div .d rd.reg rs1.reg rs2.reg
  | .fmvD rd rs1 => .pick .sgnj .d rd.reg rs1.reg rs1.reg
  | .faddS rd rs1 rs2 => .fp .add .s rd.reg rs1.reg rs2.reg
  | .fsubS rd rs1 rs2 => .fp .sub .s rd.reg rs1.reg rs2.reg
  | .fmulS rd rs1 rs2 => .fp .mul .s rd.reg rs1.reg rs2.reg
  | .fdivS rd rs1 rs2 => .fp .div .s rd.reg rs1.reg rs2.reg
  | .fsqrtS rd rs1 => .fsqrt .s rd.reg rs1.reg
  | .fminS rd rs1 rs2 => .pick .min .s rd.reg rs1.reg rs2.reg
  | .fmaxS rd rs1 rs2 => .pick .max .s rd.reg rs1.reg rs2.reg
  | .fsgnjS rd rs1 rs2 => .pick .sgnj .s rd.reg rs1.reg rs2.reg
  | .fsgnjnS rd rs1 rs2 => .pick .sgnjn .s rd.reg rs1.reg rs2.reg
  | .fsgnjxS rd rs1 rs2 => .pick .sgnjx .s rd.reg rs1.reg rs2.reg
  | .fclassS rd rs1 => .fclass .s rd.reg rs1.reg
  | .fmvS rd rs1 => .pick .sgnj .s rd.reg rs1.reg rs1.reg
  | .fsqrtD rd rs1 => .fsqrt .d rd.reg rs1.reg
  | .fminD rd rs1 rs2 => .pick .min .d rd.reg rs1.reg rs2.reg
  | .fmaxD rd rs1 rs2 => .pick .max .d rd.reg rs1.reg rs2.reg
  | .fsgnjD rd rs1 rs2 => .pick .sgnj .d rd.reg rs1.reg rs2.reg
  | .fsgnjnD rd rs1 rs2 => .pick .sgnjn .d rd.reg rs1.reg rs2.reg
  | .fsgnjxD rd rs1 rs2 => .pick .sgnjx .d rd.reg rs1.reg rs2.reg
  | .fclassD rd rs1 => .fclass .d rd.reg rs1.reg
  | .feqD rd rs1 rs2 => .fcmp .eq .d rd.reg rs1.reg rs2.reg
  | .fltD rd rs1 rs2 => .fcmp .lt .d rd.reg rs1.reg rs2.reg
  | .fleD rd rs1 rs2 => .fcmp .le .d rd.reg rs1.reg rs2.reg
  | .feqS rd rs1 rs2 => .fcmp .eq .s rd.reg rs1.reg rs2.reg
  | .fltS rd rs1 rs2 => .fcmp .lt .s rd.reg rs1.reg rs2.reg
  | .fleS rd rs1 rs2 => .fcmp .le .s rd.reg rs1.reg rs2.reg
  | .fcvtSW rd rs1 => .fcvtOfInt .s .w rd.reg rs1.reg
  | .fcvtSWU rd rs1 => .fcvtOfInt .s .wu rd.reg rs1.reg
  | .fcvtSL rd rs1 => .fcvtOfInt .s .l rd.reg rs1.reg
  | .fcvtSLU rd rs1 => .fcvtOfInt .s .lu rd.reg rs1.reg
  | .fcvtDW rd rs1 => .fcvtOfInt .d .w rd.reg rs1.reg
  | .fcvtDWU rd rs1 => .fcvtOfInt .d .wu rd.reg rs1.reg
  | .fcvtDL rd rs1 => .fcvtOfInt .d .l rd.reg rs1.reg
  | .fcvtDLU rd rs1 => .fcvtOfInt .d .lu rd.reg rs1.reg
  | .fcvtWS rd rs1 => .fcvtInt .w .s rd.reg rs1.reg
  | .fcvtWUS rd rs1 => .fcvtInt .wu .s rd.reg rs1.reg
  | .fcvtLS rd rs1 => .fcvtInt .l .s rd.reg rs1.reg
  | .fcvtLUS rd rs1 => .fcvtInt .lu .s rd.reg rs1.reg
  | .fcvtWD rd rs1 => .fcvtInt .w .d rd.reg rs1.reg
  | .fcvtWUD rd rs1 => .fcvtInt .wu .d rd.reg rs1.reg
  | .fcvtLD rd rs1 => .fcvtInt .l .d rd.reg rs1.reg
  | .fcvtLUD rd rs1 => .fcvtInt .lu .d rd.reg rs1.reg
  | .fcvtDS rd rs1 => .fcvtFmt .d .s rd.reg rs1.reg
  | .fcvtSD rd rs1 => .fcvtFmt .s .d rd.reg rs1.reg
  | .fmvXW rd rs1 => .fmvInt .s rd.reg rs1.reg
  | .fmvWX rd rs1 => .fmvOfInt .s rd.reg rs1.reg
  | .fmvXD rd rs1 => .fmvInt .d rd.reg rs1.reg
  | .fmvDX rd rs1 => .fmvOfInt .d rd.reg rs1.reg
  | .csrrw rd csr rs1 => .csr .rw rd.reg csr.toNat rs1.reg
  | .csrrs rd csr rs1 => .csr .rs rd.reg csr.toNat rs1.reg
  | .csrrc rd csr rs1 => .csr .rc rd.reg csr.toNat rs1.reg
  | .csrrwi rd csr uimm => .csri .rw rd.reg csr.toNat uimm.toNat
  | .csrrsi rd csr uimm => .csri .rs rd.reg csr.toNat uimm.toNat
  | .csrrci rd csr uimm => .csri .rc rd.reg csr.toNat uimm.toNat
  | .fenceI => .fenceI
  | .ecall => .ecall
  | .ebreak => .ebreak
  | .fence pred succ => .fence pred.toNat succ.toNat
  | .nop => .imm .addi 0 0 0
  | .lrD rd rs1 => .lr .d rd.reg rs1.reg
  | .scD rd rs1 rs2 => .sc .d rd.reg rs1.reg rs2.reg
  | .lrW rd rs1 => .lr .w rd.reg rs1.reg
  | .scW rd rs1 rs2 => .sc .w rd.reg rs1.reg rs2.reg
  | .amoaddW rd rs1 rs2 => .amo .add .w rd.reg rs1.reg rs2.reg
  | .amoaddD rd rs1 rs2 => .amo .add .d rd.reg rs1.reg rs2.reg
  | .amoswapW rd rs1 rs2 => .amo .swap .w rd.reg rs1.reg rs2.reg
  | .amoswapD rd rs1 rs2 => .amo .swap .d rd.reg rs1.reg rs2.reg
  | .amoxorW rd rs1 rs2 => .amo .xor .w rd.reg rs1.reg rs2.reg
  | .amoxorD rd rs1 rs2 => .amo .xor .d rd.reg rs1.reg rs2.reg
  | .amoandW rd rs1 rs2 => .amo .and .w rd.reg rs1.reg rs2.reg
  | .amoandD rd rs1 rs2 => .amo .and .d rd.reg rs1.reg rs2.reg
  | .amoorW rd rs1 rs2 => .amo .or .w rd.reg rs1.reg rs2.reg
  | .amoorD rd rs1 rs2 => .amo .or .d rd.reg rs1.reg rs2.reg
  | .amomaxW rd rs1 rs2 => .amo .max .w rd.reg rs1.reg rs2.reg
  | .amomaxD rd rs1 rs2 => .amo .max .d rd.reg rs1.reg rs2.reg
  | .amominW rd rs1 rs2 => .amo .min .w rd.reg rs1.reg rs2.reg
  | .amominD rd rs1 rs2 => .amo .min .d rd.reg rs1.reg rs2.reg
  | .amomaxWu rd rs1 rs2 => .amo .maxu .w rd.reg rs1.reg rs2.reg
  | .amomaxDu rd rs1 rs2 => .amo .maxu .d rd.reg rs1.reg rs2.reg
  | .amominWu rd rs1 rs2 => .amo .minu .w rd.reg rs1.reg rs2.reg
  | .amominDu rd rs1 rs2 => .amo .minu .d rd.reg rs1.reg rs2.reg

/-- The operands are those that the format of the instruction has bits for. -/
def Instruction.InRange : Instruction → Prop
  | .lui _ imm | .auipc _ imm => imm.toNat % 2 ^ 12 = 0
  | .jal _ offset => IsSigned 21 offset ∧ offset.toNat % 2 = 0
  | .beq _ _ offset | .bne _ _ offset | .blt _ _ offset | .bge _ _ offset | .bltu _ _ offset
  | .bgeu _ _ offset =>
    IsSigned 13 offset ∧ offset.toNat % 2 = 0
  | .jalr _ _ imm | .lb _ _ imm | .lh _ _ imm | .lw _ _ imm | .ld _ _ imm | .lbu _ _ imm
  | .lhu _ _ imm | .lwu _ _ imm | .sb _ _ imm | .sh _ _ imm | .sw _ _ imm | .sd _ _ imm
  | .addi _ _ imm | .slti _ _ imm | .sltiu _ _ imm | .xori _ _ imm | .ori _ _ imm
  | .andi _ _ imm | .addiw _ _ imm | .flw _ _ imm | .fld _ _ imm | .fsw _ _ imm | .fsd _ _ imm =>
    IsSigned 12 imm
  | .slli _ _ shamt | .srli _ _ shamt | .srai _ _ shamt => shamt.toNat < 64
  | .slliw _ _ shamt | .srliw _ _ shamt | .sraiw _ _ shamt => shamt.toNat < 32
  | .csrrw _ csr _ | .csrrs _ csr _ | .csrrc _ csr _ => csr.toNat < 2 ^ 12
  | .csrrwi _ csr uimm | .csrrsi _ csr uimm | .csrrci _ csr uimm =>
    csr.toNat < 2 ^ 12 ∧ uimm.toNat < 32
  | .fence pred succ => pred.toNat < 16 ∧ succ.toNat < 16
  | _ => True

/-- The instructions that are emitted as another operation. -/
def Instruction.Miscoded : Instruction → Prop
  | .lrD _ _ | .scD _ _ _ | .amomaxW _ _ _ | .amomaxD _ _ _ | .amominWu _ _ _ | .amominDu _ _ _ =>
    True
  | _ => False

/-- The operation that is emitted. -/
def Instruction.emitted : Instruction → Op
  | .lrD rd rs1 => .lr .w rd.reg rs1.reg
  | .scD rd rs1 rs2 => .sc .w rd.reg rs1.reg rs2.reg
  | .amomaxW rd rs1 rs2 => .amo .min .w rd.reg rs1.reg rs2.reg
  | .amomaxD rd rs1 rs2 => .amo .min .d rd.reg rs1.reg rs2.reg
  | .amominWu rd rs1 rs2 => .amo .maxu .w rd.reg rs1.reg rs2.reg
  | .amominDu rd rs1 rs2 => .amo .maxu .d rd.reg rs1.reg rs2.reg
  | i => i.operation

theorem Instruction.operation_eq_emitted_iff (i : Instruction) :
    i.operation = i.emitted ↔ ¬ i.Miscoded := by
  cases i <;> simp [operation, emitted, Miscoded]

end Operations

section Decode

open Lib.RiscV

section Opcodes

variable (funct7 rs2 rs1 funct3 rd imm : U32)

theorem decode_branch : decode (ofLeBytes (encodeBType imm rs2 rs1 funct3 opBranch)) =
    (branchOp (funct3.setWidth 3)).map fun op =>
      .branch op (rs1.setWidth 5) (rs2.setWidth 5) (imm.extractLsb' 1 12 ++ 0#1).toInt := by
  simp only [decode, fields_encodeBType]
  rfl

theorem decode_load : decode (ofLeBytes (encodeIType imm rs1 funct3 rd opLoad)) =
    (loadOp (funct3.setWidth 3)).map fun op =>
      .load op (rd.setWidth 5) (rs1.setWidth 5) (imm.setWidth 12).toInt := by
  simp only [decode, fields_encodeIType]
  rfl

theorem decode_store : decode (ofLeBytes (encodeSType imm rs2 rs1 funct3 opStore)) =
    (storeOp (funct3.setWidth 3)).map fun op =>
      .store op (rs1.setWidth 5) (rs2.setWidth 5) (imm.setWidth 12).toInt := by
  simp only [decode, fields_encodeSType]
  rfl

theorem decode_imm : decode (ofLeBytes (encodeIType imm rs1 funct3 rd opImm)) =
    decodeImm (imm.setWidth 12) (rs1.setWidth 5) (funct3.setWidth 3) (rd.setWidth 5) := by
  simp only [decode, fields_encodeIType]
  rfl

theorem decode_immWord : decode (ofLeBytes (encodeIType imm rs1 funct3 rd opImm32)) =
    decodeImmWord (imm.setWidth 12) (rs1.setWidth 5) (funct3.setWidth 3) (rd.setWidth 5) := by
  simp only [decode, fields_encodeIType]
  rfl

theorem decode_reg : decode (ofLeBytes (encodeRType funct7 rs2 rs1 funct3 rd opReg)) =
    (regOp (funct7.setWidth 7) (funct3.setWidth 3)).map fun op =>
      .reg op (rd.setWidth 5) (rs1.setWidth 5) (rs2.setWidth 5) := by
  simp only [decode, fields_encodeRType]
  rfl

theorem decode_word : decode (ofLeBytes (encodeRType funct7 rs2 rs1 funct3 rd opReg32)) =
    (wordOp (funct7.setWidth 7) (funct3.setWidth 3)).map fun op =>
      .word op (rd.setWidth 5) (rs1.setWidth 5) (rs2.setWidth 5) := by
  simp only [decode, fields_encodeRType]
  rfl

theorem decode_atomic : decode (ofLeBytes (encodeRType funct7 rs2 rs1 funct3 rd 0b0101111)) =
    decodeAtomic (funct7.setWidth 7) (rs2.setWidth 5) (rs1.setWidth 5) (funct3.setWidth 3)
      (rd.setWidth 5) := by
  simp only [decode, fields_encodeRType]
  rfl

theorem decode_fload : decode (ofLeBytes (encodeIType imm rs1 funct3 rd opLoadFp)) =
    (memFmt (funct3.setWidth 3)).map fun fmt =>
      .fload fmt (rd.setWidth 5) (rs1.setWidth 5) (imm.setWidth 12).toInt := by
  simp only [decode, fields_encodeIType]
  rfl

theorem decode_fstore : decode (ofLeBytes (encodeSType imm rs2 rs1 funct3 opStoreFp)) =
    (memFmt (funct3.setWidth 3)).map fun fmt =>
      .fstore fmt (rs1.setWidth 5) (rs2.setWidth 5) (imm.setWidth 12).toInt := by
  simp only [decode, fields_encodeSType]
  rfl

theorem decode_fp : decode (ofLeBytes (encodeRType funct7 rs2 rs1 funct3 rd opFp)) =
    decodeFp (funct7.setWidth 7) (rs2.setWidth 5) (rs1.setWidth 5) (funct3.setWidth 3)
      (rd.setWidth 5) := by
  simp only [decode, fields_encodeRType]
  rfl

theorem decode_csr (h : funct3.setWidth 3 ≠ 0b000) :
    decode (ofLeBytes (encodeIType imm rs1 funct3 rd opSystem)) =
      decodeCsr (imm.setWidth 12) (rs1.setWidth 5) (funct3.setWidth 3) (rd.setWidth 5) := by
  have hsystem := decodeSystem_of_funct3 (w := ofLeBytes (encodeIType imm rs1 funct3 rd opSystem))
    (by rwa [(fields_encodeIType rs1 funct3 rd opSystem imm).2.2.1])
  simp only [fields_encodeIType] at hsystem
  simp only [decode, fields_encodeIType]
  exact hsystem

end Opcodes

variable {imm offset shamt csr uimm pred succ : U32}

theorem toInt_immI (h : IsSigned 12 imm) : ((imm &&& 0xFFF).setWidth 12).toInt = imm.toInt := by
  have hmask : (imm &&& 0xFFF).setWidth 12 = imm.setWidth 12 := by
    ext i hi
    interval_cases i <;> simp
  rw [hmask, toInt_setWidth_of_isSigned (by omega) h]

theorem toInt_immB (h : IsSigned 13 offset ∧ offset.toNat % 2 = 0) :
    (offset.extractLsb' 1 12 ++ 0#1).toInt = offset.toInt := by
  rw [extractLsb'_append_zero h.2, toInt_setWidth_of_isSigned (by omega) h.1]

theorem toInt_immJ (h : IsSigned 21 offset ∧ offset.toNat % 2 = 0) :
    (offset.extractLsb' 1 20 ++ 0#1).toInt = offset.toInt := by
  rw [extractLsb'_append_zero h.2, toInt_setWidth_of_isSigned (by omega) h.1]

theorem immU_eq (h : imm.toNat % 2 ^ 12 = 0) : imm.extractLsb' 12 20 ++ 0#12 = imm := by
  rw [extractLsb'_append_zero h]
  exact BitVec.setWidth_eq imm

theorem toNat_csr (h : csr.toNat < 2 ^ 12) : (csr.setWidth 12).toNat = csr.toNat := by
  rw [BitVec.toNat_setWidth, Nat.mod_eq_of_lt h]

theorem setWidth_and_mask : (uimm &&& 0x1F).setWidth 5 = uimm.setWidth 5 := by
  ext i hi
  interval_cases i <;> simp

theorem toNat_uimm (h : uimm.toNat < 32) : ((uimm &&& 0x1F).setWidth 5).toNat = uimm.toNat := by
  rw [setWidth_and_mask, BitVec.toNat_setWidth, Nat.mod_eq_of_lt h]

theorem fenceFields (hpred : pred.toNat < 16) (hsucc : succ.toNat < 16) :
    ((((pred &&& 0xF) <<< 4) ||| (succ &&& 0xF)).setWidth 12).extractLsb' 8 4 = 0 ∧
      (((((pred &&& 0xF) <<< 4) ||| (succ &&& 0xF)).setWidth 12).extractLsb' 4 4).toNat =
        pred.toNat ∧
      (((((pred &&& 0xF) <<< 4) ||| (succ &&& 0xF)).setWidth 12).extractLsb' 0 4).toNat =
        succ.toNat := by
  have hpred' : ((((pred &&& 0xF) <<< 4) ||| (succ &&& 0xF)).setWidth 12).extractLsb' 4 4 =
      pred.setWidth 4 := by
    ext i hi
    interval_cases i <;> simp
  have hsucc' : ((((pred &&& 0xF) <<< 4) ||| (succ &&& 0xF)).setWidth 12).extractLsb' 0 4 =
      succ.setWidth 4 := by
    ext i hi
    interval_cases i <;> simp
  refine ⟨?_, ?_, ?_⟩
  · ext i hi
    interval_cases i <;> simp
  · rw [hpred', BitVec.toNat_setWidth, Nat.mod_eq_of_lt hpred]
  · rw [hsucc', BitVec.toNat_setWidth, Nat.mod_eq_of_lt hsucc]

/-- The immediate of a shift: its operation above the amount. -/
theorem shiftImm_fields {k n : Nat} (op : U32) (hkn : k + n = 12) (hop : op.toNat % 2 ^ k = 0)
    (hlt : op.toNat < 2 ^ 12) (h : shamt.toNat < 2 ^ k) :
    (op ||| shamt) &&& 0xFFF = op ||| shamt ∧
      ((op ||| shamt).setWidth 12).extractLsb' k n = (op.setWidth 12).extractLsb' k n ∧
      ((op ||| shamt).setWidth 12).extractLsb' 0 k = shamt.setWidth k := by
  have hopLow : ∀ i, i < k → op.getLsbD i = false := by
    intro i hi
    have hmod := congrArg (fun r => Nat.testBit r i) hop
    simp only [Nat.testBit_mod_two_pow, hi, decide_true, Bool.true_and, Nat.zero_testBit] at hmod
    exact hmod
  have hopHigh : ∀ i, 12 ≤ i → op.getLsbD i = false := fun i hi =>
    Nat.testBit_lt_two_pow (hlt.trans_le (Nat.pow_le_pow_right (by omega) hi))
  have hshamt : ∀ i, k ≤ i → shamt.getLsbD i = false := fun i hi =>
    Nat.testBit_lt_two_pow (h.trans_le (Nat.pow_le_pow_right (by omega) hi))
  refine ⟨?_, ?_, ?_⟩ <;> apply BitVec.eq_of_getLsbD_eq <;> intro i hi
  · rw [BitVec.getLsbD_and, BitVec.getLsbD_or]
    by_cases h12 : i < 12
    · have hmask : (0xFFF : U32).getLsbD i = true := by interval_cases i <;> rfl
      rw [hmask, Bool.and_true]
    · rw [hopHigh i (by omega), hshamt i (by omega), Bool.or_false, Bool.false_and]
  · simp [hi, hshamt (k + i) (by omega)]
  · simp [hi, hopLow i hi, show i < 12 by omega]

theorem and_mask_of_lt {k : Nat} (mask : U32) (hmask : mask.toNat = 2 ^ k - 1)
    (h : shamt.toNat < 2 ^ k) : shamt &&& mask = shamt := by
  apply BitVec.eq_of_toNat_eq
  rw [BitVec.toNat_and, hmask, Nat.and_two_pow_sub_one_of_lt_two_pow h]

theorem decode_shift (op funct3 : U32) (kind : ShiftOp) (rd rs1 : Gpr)
    (hop : op.toNat % 2 ^ 6 = 0) (hlt : op.toNat < 2 ^ 12) (hfunct3 : funct3 &&& 0x7 = funct3)
    (hkind : shiftOp (funct3.setWidth 3) ((op.setWidth 12).extractLsb' 6 6) = some kind)
    (h : shamt.toNat < 64) :
    decode (ofLeBytes (encodeShift ((op ||| (shamt &&& 0x3F)) <<< 20) rs1.encoding funct3
      rd.encoding opImm)) = some (.shift kind rd.reg rs1.reg shamt.toNat) := by
  rw [and_mask_of_lt (k := 6) 0x3F rfl h]
  obtain ⟨himm, hhigh, hlow⟩ := shiftImm_fields (n := 6) op rfl hop hlt h
  rw [encodeShift_eq _ _ _ _ _ himm rs1.encoding_and hfunct3 rd.encoding_and rfl]
  simp only [decode_imm, decodeImm, hhigh, hlow, hkind, BitVec.toNat_setWidth, Nat.mod_eq_of_lt h]
  rfl

theorem decode_shiftw (op funct3 : U32) (kind : ShiftOp) (rd rs1 : Gpr)
    (hop : op.toNat % 2 ^ 5 = 0) (hlt : op.toNat < 2 ^ 12) (hfunct3 : funct3 &&& 0x7 = funct3)
    (hne : funct3.setWidth 3 ≠ 0b000)
    (hkind : shiftwOp (funct3.setWidth 3) ((op.setWidth 12).extractLsb' 5 7) = some kind)
    (h : shamt.toNat < 32) :
    decode (ofLeBytes (encodeShift ((op ||| (shamt &&& 0x1F)) <<< 20) rs1.encoding funct3
      rd.encoding opImm32)) = some (.shiftw kind rd.reg rs1.reg shamt.toNat) := by
  rw [and_mask_of_lt (k := 5) 0x1F rfl h]
  obtain ⟨himm, hhigh, hlow⟩ := shiftImm_fields (n := 7) op rfl hop hlt h
  rw [encodeShift_eq _ _ _ _ _ himm rs1.encoding_and hfunct3 rd.encoding_and rfl]
  simp only [decode_immWord, decodeImmWord, hhigh, hlow, hkind, hne, BitVec.toNat_setWidth,
    Nat.mod_eq_of_lt h]
  rfl

theorem decode_emitted (i : Instruction) (h : i.InRange) :
    decode (ofLeBytes i.encode) = some i.emitted := by
  cases i
  case lui rd imm | auipc rd imm =>
    simp only [Instruction.encode, decode, fields_encodeUType, immU_eq h]
    rfl
  case jal rd offset =>
    simp only [Instruction.encode, decode, fields_encodeJType, toInt_immJ h]
    rfl
  case jalr rd rs1 imm =>
    simp only [Instruction.encode, decode, fields_encodeIType, toInt_immI h]
    rfl
  case beq rs1 rs2 offset | bne rs1 rs2 offset | blt rs1 rs2 offset | bge rs1 rs2 offset
    | bltu rs1 rs2 offset | bgeu rs1 rs2 offset =>
    rw [Instruction.encode, decode_branch, toInt_immB h]
    rfl
  case lb rd rs1 imm | lh rd rs1 imm | lw rd rs1 imm | ld rd rs1 imm | lbu rd rs1 imm
    | lhu rd rs1 imm | lwu rd rs1 imm =>
    rw [Instruction.encode, decode_load, toInt_immI h]
    rfl
  case sb rs1 rs2 imm | sh rs1 rs2 imm | sw rs1 rs2 imm | sd rs1 rs2 imm =>
    rw [Instruction.encode, decode_store, toInt_immI h]
    rfl
  case addi rd rs1 imm | slti rd rs1 imm | sltiu rd rs1 imm | xori rd rs1 imm | ori rd rs1 imm
    | andi rd rs1 imm =>
    rw [Instruction.encode, decode_imm, decodeImm, toInt_immI h]
    rfl
  case slli rd rs1 shamt =>
    have hsll := decode_shift 0#32 0b001 .sll rd rs1 rfl (by decide) rfl rfl h
    rwa [BitVec.zero_or] at hsll
  case srli rd rs1 shamt =>
    have hsrl := decode_shift 0#32 0b101 .srl rd rs1 rfl (by decide) rfl rfl h
    rwa [BitVec.zero_or] at hsrl
  case srai rd rs1 shamt =>
    have hsra := decode_shift 0x400 0b101 .sra rd rs1 rfl (by decide) rfl rfl h
    rwa [BitVec.shiftLeft_or_distrib] at hsra
  case addiw rd rs1 imm =>
    rw [Instruction.encode, decode_immWord, decodeImmWord, toInt_immI h]
    rfl
  case slliw rd rs1 shamt =>
    have hsll := decode_shiftw 0#32 0b001 .sll rd rs1 rfl (by decide) rfl (by decide) rfl h
    rwa [BitVec.zero_or] at hsll
  case srliw rd rs1 shamt =>
    have hsrl := decode_shiftw 0#32 0b101 .srl rd rs1 rfl (by decide) rfl (by decide) rfl h
    rwa [BitVec.zero_or] at hsrl
  case sraiw rd rs1 shamt =>
    have hsra := decode_shiftw 0x400 0b101 .sra rd rs1 rfl (by decide) rfl (by decide) rfl h
    rwa [BitVec.shiftLeft_or_distrib] at hsra
  case add rd rs1 rs2 | sub rd rs1 rs2 | sll rd rs1 rs2 | slt rd rs1 rs2 | sltu rd rs1 rs2
    | xor rd rs1 rs2 | srl rd rs1 rs2 | sra rd rs1 rs2 | or rd rs1 rs2 | and rd rs1 rs2
    | mul rd rs1 rs2 | mulh rd rs1 rs2 | mulhsu rd rs1 rs2 | mulhu rd rs1 rs2 | div rd rs1 rs2
    | divu rd rs1 rs2 | rem rd rs1 rs2 | remu rd rs1 rs2 =>
    exact decode_reg ..
  case addw rd rs1 rs2 | subw rd rs1 rs2 | sllw rd rs1 rs2 | srlw rd rs1 rs2 | sraw rd rs1 rs2 =>
    exact decode_word ..
  case flw rd rs1 imm | fld rd rs1 imm =>
    rw [Instruction.encode, decode_fload, toInt_immI h]
    rfl
  case fsw rs1 rs2 imm | fsd rs1 rs2 imm =>
    rw [Instruction.encode, decode_fstore, toInt_immI h]
    rfl
  case csrrw rd csr rs1 | csrrs rd csr rs1 | csrrc rd csr rs1 =>
    rw [Instruction.encode, decode_csr _ _ _ _ (by decide), decodeCsr, toNat_csr h]
    rfl
  case csrrwi rd csr uimm | csrrsi rd csr uimm | csrrci rd csr uimm =>
    rw [Instruction.encode, decode_csr _ _ _ _ (by decide), decodeCsr, toNat_csr h.1,
      toNat_uimm h.2]
    rfl
  case fence pred succ =>
    obtain ⟨hmode, hpred, hsucc⟩ := fenceFields h.1 h.2
    simp only [Instruction.encode, decode, decodeFence, fields_encodeIType, hmode, hpred, hsucc]
    rfl
  case fenceI | nop | ecall | ebreak => decide
  case lrD rd rs1 | scD rd rs1 rs2 | lrW rd rs1 | scW rd rs1 rs2 | amoaddW rd rs1 rs2
    | amoaddD rd rs1 rs2 | amoswapW rd rs1 rs2 | amoswapD rd rs1 rs2 | amoxorW rd rs1 rs2
    | amoxorD rd rs1 rs2 | amoandW rd rs1 rs2 | amoandD rd rs1 rs2 | amoorW rd rs1 rs2
    | amoorD rd rs1 rs2 | amomaxW rd rs1 rs2 | amomaxD rd rs1 rs2 | amominW rd rs1 rs2
    | amominD rd rs1 rs2 | amomaxWu rd rs1 rs2 | amomaxDu rd rs1 rs2 | amominWu rd rs1 rs2
    | amominDu rd rs1 rs2 =>
    exact decode_atomic ..
  -- what is left are the words of the floating-point opcode
  all_goals exact decode_fp ..

end Decode

section Words

/-- Different operations that have the same bytes. -/
inductive Instruction.SameBytes : Instruction → Instruction → Prop where
  | lr (rd rs1 : Gpr) : SameBytes (.lrD rd rs1) (.lrW rd rs1)
  | sc (rd rs1 rs2 : Gpr) : SameBytes (.scD rd rs1 rs2) (.scW rd rs1 rs2)

theorem Instruction.SameBytes.encode_eq {i j : Instruction} (h : i.SameBytes j) :
    i.encode = j.encode := by
  cases h <;> rfl

theorem Instruction.SameBytes.operation_ne {i j : Instruction} (h : i.SameBytes j) :
    i.operation ≠ j.operation := by
  cases h <;> simp [operation]

theorem encodeRType_ne {funct7 funct7' rs2 rs1 funct3 rd opcode : U32}
    (h : funct7.setWidth 7 ≠ funct7'.setWidth 7) :
    encodeRType funct7 rs2 rs1 funct3 rd opcode ≠ encodeRType funct7' rs2 rs1 funct3 rd opcode := by
  intro heq
  have hfields := (fields_encodeRType funct7 rs2 rs1 funct3 rd opcode).2.2.2.2.2
  rw [heq, (fields_encodeRType funct7' rs2 rs1 funct3 rd opcode).2.2.2.2.2] at hfields
  exact h hfields.symm

theorem Gpr.eq_of_regs {rd rd' rs1 rs1' rs2 rs2' : Gpr}
    (h : rd.reg = rd'.reg ∧ rs1.reg = rs1'.reg ∧ rs2.reg = rs2'.reg) :
    rd = rd' ∧ rs1 = rs1' ∧ rs2 = rs2' :=
  h.imp Gpr.reg_inj (And.imp Gpr.reg_inj Gpr.reg_inj)

/-- A miscoded instruction shares its bytes with the narrow instruction of its kind only: minima and
maxima differ in their release bits. -/
theorem Instruction.Miscoded.eq_or_sameBytes {i j : Instruction} (hi : i.Miscoded)
    (h : i.emitted = j.emitted) (hbytes : i.encode = j.encode) : i = j ∨ i.SameBytes j := by
  cases i
  case lrD rd rs1 =>
    cases j
    case lrD rd' rs1' =>
      simp only [emitted, Op.lr.injEq, true_and] at h
      obtain ⟨rfl, rfl⟩ := h.imp Gpr.reg_inj Gpr.reg_inj
      exact .inl rfl
    case lrW rd' rs1' =>
      simp only [emitted, operation, Op.lr.injEq, true_and] at h
      obtain ⟨rfl, rfl⟩ := h.imp Gpr.reg_inj Gpr.reg_inj
      exact .inr (.lr ..)
    all_goals cases h
  case scD rd rs1 rs2 =>
    cases j
    case scD rd' rs1' rs2' =>
      simp only [emitted, Op.sc.injEq, true_and] at h
      obtain ⟨rfl, rfl, rfl⟩ := Gpr.eq_of_regs h
      exact .inl rfl
    case scW rd' rs1' rs2' =>
      simp only [emitted, operation, Op.sc.injEq, true_and] at h
      obtain ⟨rfl, rfl, rfl⟩ := Gpr.eq_of_regs h
      exact .inr (.sc ..)
    all_goals cases h
  case amomaxW rd rs1 rs2 =>
    cases j
    case amomaxW rd' rs1' rs2' =>
      simp only [emitted, Op.amo.injEq, true_and] at h
      obtain ⟨rfl, rfl, rfl⟩ := Gpr.eq_of_regs h
      exact .inl rfl
    case amominW rd' rs1' rs2' =>
      simp only [emitted, operation, Op.amo.injEq, true_and] at h
      obtain ⟨rfl, rfl, rfl⟩ := Gpr.eq_of_regs h
      exact absurd hbytes (encodeRType_ne (by decide))
    all_goals cases h
  case amomaxD rd rs1 rs2 =>
    cases j
    case amomaxD rd' rs1' rs2' =>
      simp only [emitted, Op.amo.injEq, true_and] at h
      obtain ⟨rfl, rfl, rfl⟩ := Gpr.eq_of_regs h
      exact .inl rfl
    case amominD rd' rs1' rs2' =>
      simp only [emitted, operation, Op.amo.injEq, true_and] at h
      obtain ⟨rfl, rfl, rfl⟩ := Gpr.eq_of_regs h
      exact absurd hbytes (encodeRType_ne (by decide))
    all_goals cases h
  case amominWu rd rs1 rs2 =>
    cases j
    case amominWu rd' rs1' rs2' =>
      simp only [emitted, Op.amo.injEq, true_and] at h
      obtain ⟨rfl, rfl, rfl⟩ := Gpr.eq_of_regs h
      exact .inl rfl
    case amomaxWu rd' rs1' rs2' =>
      simp only [emitted, operation, Op.amo.injEq, true_and] at h
      obtain ⟨rfl, rfl, rfl⟩ := Gpr.eq_of_regs h
      exact absurd hbytes (encodeRType_ne (by decide))
    all_goals cases h
  case amominDu rd rs1 rs2 =>
    cases j
    case amominDu rd' rs1' rs2' =>
      simp only [emitted, Op.amo.injEq, true_and] at h
      obtain ⟨rfl, rfl, rfl⟩ := Gpr.eq_of_regs h
      exact .inl rfl
    case amomaxDu rd' rs1' rs2' =>
      simp only [emitted, operation, Op.amo.injEq, true_and] at h
      obtain ⟨rfl, rfl, rfl⟩ := Gpr.eq_of_regs h
      exact absurd hbytes (encodeRType_ne (by decide))
    all_goals cases h
  all_goals cases hi

/-- The bytes of an instruction are the operation it names, but for six atomic ones; two operations
have the same bytes only where one is an atomic load or store of a double word. -/
theorem encode_names_operation_iff (i j : Instruction) (hi : i.InRange) (hj : j.InRange) :
    (decode (ofLeBytes i.encode) = some i.operation ↔ ¬ i.Miscoded) ∧
      ((i.operation ≠ j.operation → i.encode ≠ j.encode) ↔ ¬ i.SameBytes j ∧ ¬ j.SameBytes i) := by
  constructor
  · rw [decode_emitted i hi, Option.some_inj, eq_comm, i.operation_eq_emitted_iff]
  · constructor
    · intro h
      exact ⟨fun hsame => h hsame.operation_ne hsame.encode_eq,
        fun hsame => h hsame.operation_ne.symm hsame.encode_eq.symm⟩
    · rintro ⟨hij, hji⟩ hne hbytes
      have hemitted : i.emitted = j.emitted := by
        have hdecode := decode_emitted i hi
        rw [hbytes, decode_emitted j hj] at hdecode
        exact (Option.some.inj hdecode).symm
      by_cases hmi : i.Miscoded
      · rcases hmi.eq_or_sameBytes hemitted hbytes with rfl | hsame
        · exact hne rfl
        · exact hij hsame
      by_cases hmj : j.Miscoded
      · rcases hmj.eq_or_sameBytes hemitted.symm hbytes.symm with rfl | hsame
        · exact hne rfl
        · exact hji hsame
      rw [← i.operation_eq_emitted_iff] at hmi
      rw [← j.operation_eq_emitted_iff] at hmj
      exact hne (hmi.trans (hemitted.trans hmj.symm))

/-- A load-reserved of a double word reads a word. -/
theorem not_encode_names_lrD :
    decode (ofLeBytes (Instruction.lrD .t1 .t0).encode) ≠ some (Instruction.lrD .t1 .t0).operation ∧
      (Instruction.lrD .t1 .t0).encode = (Instruction.lrW .t1 .t0).encode := by
  decide

theorem encode_names_operation_iff_amo :
    (decode (ofLeBytes (Instruction.amomaxW .t2 .t0 .t1).encode) =
        some (Instruction.amomaxW .t2 .t0 .t1).operation ↔
      ¬ (Instruction.amomaxW .t2 .t0 .t1).Miscoded) ∧
    ((Instruction.amomaxW .t2 .t0 .t1).operation ≠ (Instruction.addi .sp .sp (-16)).operation →
        (Instruction.amomaxW .t2 .t0 .t1).encode ≠ (Instruction.addi .sp .sp (-16)).encode ↔
      ¬ (Instruction.amomaxW .t2 .t0 .t1).SameBytes (.addi .sp .sp (-16)) ∧
        ¬ (Instruction.addi .sp .sp (-16)).SameBytes (.amomaxW .t2 .t0 .t1)) :=
  encode_names_operation_iff (.amomaxW .t2 .t0 .t1) (.addi .sp .sp (-16)) trivial
    ⟨by decide, by decide⟩

end Words

end Vuma.Codegen.Riscv64
