import SeccampRiscvCpu.CoreRegisters

/-!
# The decode table of ID

`Instructions` gives a bit pattern for each instruction, and `csignals` is the
first row of the table whose pattern the word matches. A pattern fixes the
opcode, or opcode and funct3, or also funct7, or the whole word.
-/
namespace SeccampRiscvCpu.CoreDecode
open ByteMemory CoreRegisters

inductive BitPat
  | opcode (op : BitVec 7)
  | funct3 (f3 : BitVec 3) (op : BitVec 7)
  | funct7 (f7 : BitVec 7) (f3 : BitVec 3) (op : BitVec 7)
  | word (w : Word)
  deriving DecidableEq, Repr

def BitPat.matchesWord (p : BitPat) (w : Word) : Bool :=
  match p with
  | .opcode op => w.extractLsb' 0 7 == op
  | .funct3 f3 op => w.extractLsb' 0 7 == op && w.extractLsb' 12 3 == f3
  | .funct7 f7 f3 op =>
      w.extractLsb' 0 7 == op && w.extractLsb' 12 3 == f3 && w.extractLsb' 25 7 == f7
  | .word v => w == v

section Instructions

def LB : BitPat := .funct3 0b000 0b0000011
def LH : BitPat := .funct3 0b001 0b0000011
def LW : BitPat := .funct3 0b010 0b0000011
def LBU : BitPat := .funct3 0b100 0b0000011
def LHU : BitPat := .funct3 0b101 0b0000011
def SB : BitPat := .funct3 0b000 0b0100011
def SH : BitPat := .funct3 0b001 0b0100011
def SW : BitPat := .funct3 0b010 0b0100011
def ADD : BitPat := .funct7 0b0000000 0b000 0b0110011
def ADDI : BitPat := .funct3 0b000 0b0010011
def SUB : BitPat := .funct7 0b0100000 0b000 0b0110011
def AND : BitPat := .funct7 0b0000000 0b111 0b0110011
def OR : BitPat := .funct7 0b0000000 0b110 0b0110011
def XOR : BitPat := .funct7 0b0000000 0b100 0b0110011
def ANDI : BitPat := .funct3 0b111 0b0010011
def ORI : BitPat := .funct3 0b110 0b0010011
def XORI : BitPat := .funct3 0b100 0b0010011
def SLL : BitPat := .funct7 0b0000000 0b001 0b0110011
def SRL : BitPat := .funct7 0b0000000 0b101 0b0110011
def SRA : BitPat := .funct7 0b0100000 0b101 0b0110011
def SLLI : BitPat := .funct7 0b0000000 0b001 0b0010011
def SRLI : BitPat := .funct7 0b0000000 0b101 0b0010011
def SRAI : BitPat := .funct7 0b0100000 0b101 0b0010011
def SLT : BitPat := .funct7 0b0000000 0b010 0b0110011
def SLTU : BitPat := .funct7 0b0000000 0b011 0b0110011
def SLTI : BitPat := .funct3 0b010 0b0010011
def SLTIU : BitPat := .funct3 0b011 0b0010011
def BEQ : BitPat := .funct3 0b000 0b1100011
def BNE : BitPat := .funct3 0b001 0b1100011
def BLT : BitPat := .funct3 0b100 0b1100011
def BGE : BitPat := .funct3 0b101 0b1100011
def BLTU : BitPat := .funct3 0b110 0b1100011
def BGEU : BitPat := .funct3 0b111 0b1100011
def JAL : BitPat := .opcode 0b1101111
def JALR : BitPat := .funct3 0b000 0b1100111
def LUI : BitPat := .opcode 0b0110111
def AUIPC : BitPat := .opcode 0b0010111
def CSRRW : BitPat := .funct3 0b001 0b1110011
def CSRRWI : BitPat := .funct3 0b101 0b1110011
def CSRRS : BitPat := .funct3 0b010 0b1110011
def CSRRSI : BitPat := .funct3 0b110 0b1110011
def CSRRC : BitPat := .funct3 0b011 0b1110011
def CSRRCI : BitPat := .funct3 0b111 0b1110011
def ECALL : Word := 0b00000000000000000000000001110011
def MRET : Word := 0b00110000001000000000000001110011

end Instructions

structure CSignals where
  exeFun : ExeFun
  op1Sel : Op1Sel
  op2Sel : Op2Sel
  memWen : MemWen
  rfWen : RfWen
  wbSel : WbSel
  csrCmd : CsrCmd
  memW : MemW
  deriving DecidableEq, Repr

def csignalsDefault : CSignals := ⟨.aluX, .rs1, .rs2, .x, .x, .alu, .x, .x⟩

def csignalsTable : List (BitPat × CSignals) := [
  (LB, ⟨.aluAdd, .rs1, .imi, .x, .s, .mem, .x, .b⟩),
  (LBU, ⟨.aluAdd, .rs1, .imi, .x, .s, .mem, .x, .bu⟩),
  (SB, ⟨.aluAdd, .rs1, .ims, .s, .x, .alu, .x, .b⟩),
  (LH, ⟨.aluAdd, .rs1, .imi, .x, .s, .mem, .x, .h⟩),
  (LHU, ⟨.aluAdd, .rs1, .imi, .x, .s, .mem, .x, .hu⟩),
  (SH, ⟨.aluAdd, .rs1, .ims, .s, .x, .alu, .x, .h⟩),
  (LW, ⟨.aluAdd, .rs1, .imi, .x, .s, .mem, .x, .w⟩),
  (SW, ⟨.aluAdd, .rs1, .ims, .s, .x, .alu, .x, .w⟩),
  (ADD, ⟨.aluAdd, .rs1, .rs2, .x, .s, .alu, .x, .x⟩),
  (ADDI, ⟨.aluAdd, .rs1, .imi, .x, .s, .alu, .x, .x⟩),
  (SUB, ⟨.aluSub, .rs1, .rs2, .x, .s, .alu, .x, .x⟩),
  (AND, ⟨.aluAnd, .rs1, .rs2, .x, .s, .alu, .x, .x⟩),
  (OR, ⟨.aluOr, .rs1, .rs2, .x, .s, .alu, .x, .x⟩),
  (XOR, ⟨.aluXor, .rs1, .rs2, .x, .s, .alu, .x, .x⟩),
  (ANDI, ⟨.aluAnd, .rs1, .imi, .x, .s, .alu, .x, .x⟩),
  (ORI, ⟨.aluOr, .rs1, .imi, .x, .s, .alu, .x, .x⟩),
  (XORI, ⟨.aluXor, .rs1, .imi, .x, .s, .alu, .x, .x⟩),
  (SLL, ⟨.aluSll, .rs1, .rs2, .x, .s, .alu, .x, .x⟩),
  (SRL, ⟨.aluSrl, .rs1, .rs2, .x, .s, .alu, .x, .x⟩),
  (SRA, ⟨.aluSra, .rs1, .rs2, .x, .s, .alu, .x, .x⟩),
  (SLLI, ⟨.aluSll, .rs1, .imi, .x, .s, .alu, .x, .x⟩),
  (SRLI, ⟨.aluSrl, .rs1, .imi, .x, .s, .alu, .x, .x⟩),
  (SRAI, ⟨.aluSra, .rs1, .imi, .x, .s, .alu, .x, .x⟩),
  (SLT, ⟨.aluSlt, .rs1, .rs2, .x, .s, .alu, .x, .x⟩),
  (SLTU, ⟨.aluSltu, .rs1, .rs2, .x, .s, .alu, .x, .x⟩),
  (SLTI, ⟨.aluSlt, .rs1, .imi, .x, .s, .alu, .x, .x⟩),
  (SLTIU, ⟨.aluSltu, .rs1, .imi, .x, .s, .alu, .x, .x⟩),
  (BEQ, ⟨.brBeq, .rs1, .rs2, .x, .x, .alu, .x, .x⟩),
  (BNE, ⟨.brBne, .rs1, .rs2, .x, .x, .alu, .x, .x⟩),
  (BGE, ⟨.brBge, .rs1, .rs2, .x, .x, .alu, .x, .x⟩),
  (BGEU, ⟨.brBgeu, .rs1, .rs2, .x, .x, .alu, .x, .x⟩),
  (BLT, ⟨.brBlt, .rs1, .rs2, .x, .x, .alu, .x, .x⟩),
  (BLTU, ⟨.brBltu, .rs1, .rs2, .x, .x, .alu, .x, .x⟩),
  (JAL, ⟨.aluAdd, .pc, .imj, .x, .s, .pc, .x, .x⟩),
  (JALR, ⟨.aluJalr, .rs1, .imi, .x, .s, .pc, .x, .x⟩),
  (LUI, ⟨.aluAdd, .x, .imu, .x, .s, .alu, .x, .x⟩),
  (AUIPC, ⟨.aluAdd, .pc, .imu, .x, .s, .alu, .x, .x⟩),
  (CSRRW, ⟨.aluCopy1, .rs1, .x, .x, .s, .csr, .w, .x⟩),
  (CSRRWI, ⟨.aluCopy1, .imz, .x, .x, .s, .csr, .w, .x⟩),
  (CSRRS, ⟨.aluCopy1, .rs1, .x, .x, .s, .csr, .s, .x⟩),
  (CSRRSI, ⟨.aluCopy1, .imz, .x, .x, .s, .csr, .s, .x⟩),
  (CSRRC, ⟨.aluCopy1, .rs1, .x, .x, .s, .csr, .c, .x⟩),
  (CSRRCI, ⟨.aluCopy1, .imz, .x, .x, .s, .csr, .c, .x⟩),
  (.word ECALL, ⟨.aluX, .x, .x, .x, .x, .alu, .e, .x⟩)]

def csignals (inst : Word) : CSignals :=
  ((csignalsTable.find? fun row => row.1.matchesWord inst).map Prod.snd).getD csignalsDefault

section Immediates
variable (inst : Word)

def idImmISext : Word := BitVec.fill 20 (inst.getLsbD 31) ++ inst.extractLsb' 20 12

def idImmS : BitVec 12 := inst.extractLsb' 25 7 ++ inst.extractLsb' 7 5
def idImmSSext : Word := BitVec.fill 20 ((idImmS inst).getLsbD 11) ++ idImmS inst

def idImmB : BitVec 12 :=
  inst.extractLsb' 31 1 ++ inst.extractLsb' 7 1 ++ inst.extractLsb' 25 6 ++ inst.extractLsb' 8 4
def idImmBSext : Word := BitVec.fill 19 ((idImmB inst).getLsbD 11) ++ idImmB inst ++ 0#1

def idImmJ : BitVec 20 :=
  inst.extractLsb' 31 1 ++ inst.extractLsb' 12 8 ++ inst.extractLsb' 20 1 ++
    inst.extractLsb' 21 10
def idImmJSext : Word := BitVec.fill 11 ((idImmJ inst).getLsbD 19) ++ idImmJ inst ++ 0#1

def idImmUShifted : Word := inst.extractLsb' 12 20 ++ BitVec.fill 12 false

def idImmZUext : Word := BitVec.fill 27 false ++ inst.extractLsb' 15 5

end Immediates

end SeccampRiscvCpu.CoreDecode
