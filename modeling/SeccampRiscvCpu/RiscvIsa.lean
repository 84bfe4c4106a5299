import SeccampRiscvCpu.ByteMemory

/-!
# RV32I, one instruction at a time

The reference against which the pipeline is compared: the base integer
instructions and the CSR instructions on six plain registers, executed from
one architectural state to the next. Decoding follows the fields of the
instruction formats (opcode, funct3, funct7), not the core's bit patterns.

What an instruction does is recorded as one `Outcome`: the next pc, at most one
access on the data bus, at most one CSR write, at most one register write. An
outcome exists only for a listed instruction whose access and whose jump target
are naturally aligned; there are no traps and no environment calls here. The
CSRs hold whole words, as the core's do: no legal-value masks.
-/
namespace SeccampRiscvCpu.RiscvIsa
open ByteMemory

abbrev Reg := BitVec 5

inductive AluOp
  | add | sub | sll | slt | sltu | xor | srl | sra | or | and
  deriving DecidableEq, Repr

inductive BranchOp
  | beq | bne | blt | bge | bltu | bgeu
  deriving DecidableEq, Repr

inductive LoadOp
  | lb | lh | lw | lbu | lhu
  deriving DecidableEq, Repr

inductive StoreOp
  | sb | sh | sw
  deriving DecidableEq, Repr

inductive CsrOp
  | write | set | clear
  deriving DecidableEq, Repr

inductive Csr
  | mscratch | mtvec | mepc | mcause | mtval | gpio
  deriving DecidableEq, Repr

inductive CsrOperand
  | reg (rs1 : Reg)
  | imm (z : BitVec 5)
  deriving DecidableEq, Repr

inductive Instr
  | op (f : AluOp) (rd rs1 rs2 : Reg)
  | opImm (f : AluOp) (rd rs1 : Reg) (imm : Word)
  | lui (rd : Reg) (imm : Word)
  | auipc (rd : Reg) (imm : Word)
  | jal (rd : Reg) (dist : Word)
  | jalr (rd rs1 : Reg) (dist : Word)
  | branch (f : BranchOp) (rs1 rs2 : Reg) (dist : Word)
  | load (f : LoadOp) (rd rs1 : Reg) (dist : Word)
  | store (f : StoreOp) (rs1 rs2 : Reg) (dist : Word)
  | csr (f : CsrOp) (rd : Reg) (src : CsrOperand) (csr : Csr)
  deriving DecidableEq, Repr

section Formats
variable (w : Word)

def opcode : BitVec 7 := w.extractLsb' 0 7
def rd : Reg := w.extractLsb' 7 5
def funct3 : BitVec 3 := w.extractLsb' 12 3
def rs1 : Reg := w.extractLsb' 15 5
def rs2 : Reg := w.extractLsb' 20 5
def funct7 : BitVec 7 := w.extractLsb' 25 7

def immI : Word := (w.extractLsb' 20 12).signExtend 32
def immS : Word := (w.extractLsb' 25 7 ++ w.extractLsb' 7 5).signExtend 32
def immB : Word :=
  (w.extractLsb' 31 1 ++ w.extractLsb' 7 1 ++ w.extractLsb' 25 6 ++ w.extractLsb' 8 4 ++
    0#1).signExtend 32
def immU : Word := w.extractLsb' 12 20 ++ 0#12
def immJ : Word :=
  (w.extractLsb' 31 1 ++ w.extractLsb' 12 8 ++ w.extractLsb' 20 1 ++ w.extractLsb' 21 10 ++
    0#1).signExtend 32

end Formats

def regOp : BitVec 7 → BitVec 3 → Option AluOp
  | 0x00, 0 => some .add
  | 0x20, 0 => some .sub
  | 0x00, 1 => some .sll
  | 0x00, 2 => some .slt
  | 0x00, 3 => some .sltu
  | 0x00, 4 => some .xor
  | 0x00, 5 => some .srl
  | 0x20, 5 => some .sra
  | 0x00, 6 => some .or
  | 0x00, 7 => some .and
  | _, _ => none

/-- Only the shifts look at funct7, the upper part of their immediate. -/
def immOp (f7 : BitVec 7) : BitVec 3 → Option AluOp
  | 0 => some .add
  | 1 => if f7 = 0x00 then some .sll else none
  | 2 => some .slt
  | 3 => some .sltu
  | 4 => some .xor
  | 5 => if f7 = 0x00 then some .srl else if f7 = 0x20 then some .sra else none
  | 6 => some .or
  | _ => some .and

def branchOp : BitVec 3 → Option BranchOp
  | 0 => some .beq
  | 1 => some .bne
  | 4 => some .blt
  | 5 => some .bge
  | 6 => some .bltu
  | 7 => some .bgeu
  | _ => none

def loadOp : BitVec 3 → Option LoadOp
  | 0 => some .lb
  | 1 => some .lh
  | 2 => some .lw
  | 4 => some .lbu
  | 5 => some .lhu
  | _ => none

def storeOp : BitVec 3 → Option StoreOp
  | 0 => some .sb
  | 1 => some .sh
  | 2 => some .sw
  | _ => none

def csrOp (r : Reg) : BitVec 3 → Option (CsrOp × CsrOperand)
  | 1 => some (.write, .reg r)
  | 2 => some (.set, .reg r)
  | 3 => some (.clear, .reg r)
  | 5 => some (.write, .imm r)
  | 6 => some (.set, .imm r)
  | 7 => some (.clear, .imm r)
  | _ => none

def csrOf : BitVec 12 → Option Csr
  | 0x305 => some .mtvec
  | 0x340 => some .mscratch
  | 0x341 => some .mepc
  | 0x342 => some .mcause
  | 0x343 => some .mtval
  | 0x7c0 => some .gpio
  | _ => none

def decode (w : Word) : Option Instr :=
  match opcode w with
  | 0x33 => (regOp (funct7 w) (funct3 w)).map fun f => .op f (rd w) (rs1 w) (rs2 w)
  | 0x13 => (immOp (funct7 w) (funct3 w)).map fun f => .opImm f (rd w) (rs1 w) (immI w)
  | 0x37 => some (.lui (rd w) (immU w))
  | 0x17 => some (.auipc (rd w) (immU w))
  | 0x6f => some (.jal (rd w) (immJ w))
  | 0x67 => if funct3 w = 0 then some (.jalr (rd w) (rs1 w) (immI w)) else none
  | 0x63 => (branchOp (funct3 w)).map fun f => .branch f (rs1 w) (rs2 w) (immB w)
  | 0x03 => (loadOp (funct3 w)).map fun f => .load f (rd w) (rs1 w) (immI w)
  | 0x23 => (storeOp (funct3 w)).map fun f => .store f (rs1 w) (rs2 w) (immS w)
  | 0x73 => (csrOp (rs1 w) (funct3 w)).bind fun f =>
      (csrOf (w.extractLsb' 20 12)).map fun c => .csr f.1 (rd w) f.2 c
  | _ => none

structure ArchState where
  pc : Word
  regs : Reg → Word
  csrs : Csr → Word
  mem : Memory

/-- `x0` reads as zero. -/
def ArchState.reg (s : ArchState) (r : Reg) : Word := if r = 0 then 0 else s.regs r

/-- One access on the data bus: a load moves the line its address lies in. -/
inductive Access
  | load (addr line : Word)
  | store (bytes : List (Word × Byte))
  deriving DecidableEq, Repr

structure Outcome where
  nextPc : Word
  access : Option Access := none
  csrWrite : Option (Csr × Word) := none
  writeBack : Option (Reg × Word) := none
  deriving DecidableEq, Repr

/-- A register write; `x0` is not written. -/
def toReg (r : Reg) (v : Word) : Option (Reg × Word) := if r = 0 then none else some (r, v)

def AluOp.eval (f : AluOp) (a b : Word) : Word :=
  match f with
  | .add => a + b
  | .sub => a - b
  | .sll => a <<< (b.toNat % 32)
  | .slt => if a.slt b then 1 else 0
  | .sltu => if a.ult b then 1 else 0
  | .xor => a ^^^ b
  | .srl => a >>> (b.toNat % 32)
  | .sra => a.sshiftRight (b.toNat % 32)
  | .or => a ||| b
  | .and => a &&& b

def BranchOp.taken (f : BranchOp) (a b : Word) : Bool :=
  match f with
  | .beq => a == b
  | .bne => a != b
  | .blt => a.slt b
  | .bge => !a.slt b
  | .bltu => a.ult b
  | .bgeu => !a.ult b

def LoadOp.value (f : LoadOp) (m : Memory) (a : Word) : Word :=
  match f with
  | .lb => (m a).signExtend 32
  | .lh => (readHalf m a).signExtend 32
  | .lw => readWord m a
  | .lbu => (m a).setWidth 32
  | .lhu => (readHalf m a).setWidth 32

def LoadOp.aligned (f : LoadOp) (a : Word) : Bool :=
  match f with
  | .lb | .lbu => true
  | .lh | .lhu => !(offset a).getLsbD 0
  | .lw => offset a == 0

def StoreOp.bytes (f : StoreOp) (a v : Word) : List (Word × Byte) :=
  match f with
  | .sb => [(a, byteAt v 0)]
  | .sh => [(a, byteAt v 0), (a + 1, byteAt v 1)]
  | .sw => [(a, byteAt v 0), (a + 1, byteAt v 1), (a + 2, byteAt v 2), (a + 3, byteAt v 3)]

def StoreOp.aligned (f : StoreOp) (a : Word) : Bool :=
  match f with
  | .sb => true
  | .sh => !(offset a).getLsbD 0
  | .sw => offset a == 0

def CsrOperand.value (src : CsrOperand) (s : ArchState) : Word :=
  match src with
  | .reg r => s.reg r
  | .imm z => z.setWidth 32

/-- A set or clear whose operand field is zero does not write. -/
def CsrOp.result (f : CsrOp) (src : CsrOperand) (old v : Word) : Option Word :=
  match f, src with
  | .write, _ => some v
  | .set, .reg r => if r = 0 then none else some (old ||| v)
  | .set, .imm z => if z = 0 then none else some (old ||| v)
  | .clear, .reg r => if r = 0 then none else some (old &&& ~~~v)
  | .clear, .imm z => if z = 0 then none else some (old &&& ~~~v)

namespace Instr

def outcome (i : Instr) (s : ArchState) : Outcome :=
  match i with
  | .op f rd rs1 rs2 =>
      { nextPc := s.pc + 4, writeBack := toReg rd (f.eval (s.reg rs1) (s.reg rs2)) }
  | .opImm f rd rs1 imm =>
      { nextPc := s.pc + 4, writeBack := toReg rd (f.eval (s.reg rs1) imm) }
  | .lui rd imm => { nextPc := s.pc + 4, writeBack := toReg rd imm }
  | .auipc rd imm => { nextPc := s.pc + 4, writeBack := toReg rd (s.pc + imm) }
  | .jal rd dist => { nextPc := s.pc + dist, writeBack := toReg rd (s.pc + 4) }
  | .jalr rd rs1 dist =>
      { nextPc := (s.reg rs1 + dist) &&& ~~~1, writeBack := toReg rd (s.pc + 4) }
  | .branch f rs1 rs2 dist =>
      { nextPc := if f.taken (s.reg rs1) (s.reg rs2) then s.pc + dist else s.pc + 4 }
  | .load f rd rs1 dist =>
      let a := s.reg rs1 + dist
      { nextPc := s.pc + 4, access := some (.load a (busWord s.mem a)),
        writeBack := toReg rd (f.value s.mem a) }
  | .store f rs1 rs2 dist =>
      { nextPc := s.pc + 4,
        access := some (.store (f.bytes (s.reg rs1 + dist) (s.reg rs2))) }
  | .csr f rd src c =>
      { nextPc := s.pc + 4,
        csrWrite := (f.result src (s.csrs c) (src.value s)).map (c, ·),
        writeBack := toReg rd (s.csrs c) }

/-- Loads and stores at multiples of their size, jumps to multiples of four. -/
def aligned (i : Instr) (s : ArchState) : Bool :=
  match i with
  | .jal .. | .jalr .. => offset (i.outcome s).nextPc == 0
  | .branch f rs1 rs2 dist =>
      !f.taken (s.reg rs1) (s.reg rs2) || offset (s.pc + dist) == 0
  | .load f _ rs1 dist => f.aligned (s.reg rs1 + dist)
  | .store f rs1 _ dist => f.aligned (s.reg rs1 + dist)
  | _ => true

end Instr

namespace ArchState

/-- What the instruction at the pc does; nothing outside the listed, aligned ones. -/
def outcome (s : ArchState) : Option Outcome :=
  (decode (readWord s.mem s.pc)).bind fun i => if i.aligned s then some (i.outcome s) else none

def commit (s : ArchState) (o : Outcome) : ArchState where
  pc := o.nextPc
  regs := match o.writeBack with
    | some (r, v) => Function.update s.regs r v
    | none => s.regs
  csrs := match o.csrWrite with
    | some (c, v) => Function.update s.csrs c v
    | none => s.csrs
  mem := match o.access with
    | some (.store bs) => writeBytes s.mem bs
    | _ => s.mem

end ArchState

/-- What an observer of the register file and of the data bus sees. -/
inductive Event
  | access (a : Access)
  | writeBack (r : Reg) (v : Word)
  deriving DecidableEq, Repr

def writeBackEvents (wb : Option (Reg × Word)) : List Event :=
  (wb.map fun p => Event.writeBack p.1 p.2).toList

/-- The data bus is used before the register is written. -/
def Outcome.events (o : Outcome) : List Event :=
  (o.access.map Event.access).toList ++ writeBackEvents o.writeBack

/-- A run of the reference that never leaves the listed, aligned instructions. -/
structure Execution (s : ArchState) where
  state : ℕ → ArchState
  outcome : ℕ → Outcome
  start : state 0 = s
  defined : ∀ n, (state n).outcome = some (outcome n)
  next : ∀ n, state (n + 1) = (state n).commit (outcome n)

namespace Execution
variable {s : ArchState} (e : Execution s)

/-- What the first `n` instructions do. -/
def trace : ℕ → List Event
  | 0 => []
  | n + 1 => trace n ++ (e.outcome n).events

/-- No store ever changes the word of an executed instruction. -/
def CodeIntact : Prop :=
  ∀ i j, readWord (e.state i).mem (e.state j).pc = readWord s.mem (e.state j).pc

end Execution

section CommitLemmas
variable (s : ArchState) (o : Outcome)

@[simp] theorem commit_pc : (s.commit o).pc = o.nextPc := rfl

theorem toReg_some {r r' : Reg} {v v' : Word} (h : toReg r v = some (r', v')) :
    r = r' ∧ v = v' ∧ r ≠ 0 := by
  unfold toReg at h
  split at h
  · contradiction
  · cases h
    exact ⟨rfl, rfl, ‹_›⟩

theorem commit_reg_other {r : Reg} (h : ∀ v, o.writeBack ≠ some (r, v)) :
    (s.commit o).reg r = s.reg r := by
  unfold ArchState.reg ArchState.commit
  cases hw : o.writeBack with
  | none => rfl
  | some p =>
      have hr : r ≠ p.1 := fun he => h p.2 (by rw [hw, he])
      simp only [Function.update_of_ne hr]

theorem commit_reg_same {r : Reg} {v : Word} (h : o.writeBack = some (r, v)) (hr : r ≠ 0) :
    (s.commit o).reg r = v := by
  unfold ArchState.reg ArchState.commit
  simp only [h, if_neg hr, Function.update_self]

end CommitLemmas

end SeccampRiscvCpu.RiscvIsa
