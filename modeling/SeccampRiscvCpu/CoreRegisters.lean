import SeccampRiscvCpu.ByteMemory

/-!
# Registers of the core

The control codes of `Consts`, the machine-mode CSR bundles of `CSR.scala`, and
the registers between the pipeline stages, each with its reset value. Codes
that share a number in the source (`WB_X` and `WB_ALU`) are one constructor;
the codes of the vector instructions, which the decode table never produces,
are left out.

An instruction's registers in EX are kept apart from the three that describe a
pending interrupt, since the two are written by different parts of ID.
-/
namespace SeccampRiscvCpu.CoreRegisters
open ByteMemory

inductive ExeFun
  | aluX | aluAdd | aluSub | aluAnd | aluOr | aluXor | aluSll | aluSrl | aluSra | aluSlt | aluSltu
  | brBeq | brBne | brBlt | brBge | brBltu | brBgeu | aluJalr | aluCopy1
  deriving DecidableEq, Repr

inductive Op1Sel
  | rs1 | pc | x | imz
  deriving DecidableEq, Repr

inductive Op2Sel
  | x | rs2 | imi | ims | imj | imu
  deriving DecidableEq, Repr

inductive MemWen
  | x | s
  deriving DecidableEq, Repr

inductive RfWen
  | x | s
  deriving DecidableEq, Repr

/-- `WB_X` is the code of `WB_ALU`. -/
inductive WbSel
  | alu | mem | pc | csr
  deriving DecidableEq, Repr

inductive MemW
  | x | w | h | b | hu | bu
  deriving DecidableEq, Repr

inductive CsrCmd
  | x | w | s | c | e
  deriving DecidableEq, Repr

def startAddr : Word := 0x80000000

/-- ADDI x0,x0,0 -/
def bubble : Word := 0x00000013

section MachineStatus

structure MStatusRegister where
  wpri0 : BitVec 1 := 0
  sie : Bool := false
  wpri1 : BitVec 1 := 0
  mie : Bool := false
  wpri2 : BitVec 1 := 0
  spie : Bool := false
  ube : Bool := false
  mpie : Bool := false
  spp : Bool := false
  vs : BitVec 2 := 0
  mpp : BitVec 2 := 0
  fs : BitVec 2 := 0
  xs : BitVec 2 := 0
  mprv : Bool := false
  sum : Bool := false
  mxr : Bool := false
  tvm : Bool := false
  tw : Bool := false
  tsr : Bool := false
  wpri3 : BitVec 9 := 0
  uxl : BitVec 2 := 0
  sxl : BitVec 2 := 0
  sbe : Bool := false
  mbe : Bool := false
  wpri4 : BitVec 25 := 0
  sd : Bool := false
  wpri5 : BitVec 4 := 0
  deriving DecidableEq, Repr

def boolBit (b : Bool) : BitVec 1 := BitVec.ofBool b

namespace MStatusRegister

def toMStatusL (r : MStatusRegister) : Word :=
  boolBit r.sd ++ r.wpri3.extractLsb' 0 8 ++ boolBit r.tsr ++ boolBit r.tw ++ boolBit r.tvm ++ boolBit r.mxr ++
    boolBit r.sum ++ boolBit r.mprv ++ r.xs ++ r.fs ++ r.mpp ++ r.vs ++ boolBit r.spp ++ boolBit r.mpie ++
    boolBit r.ube ++ boolBit r.spie ++ r.wpri2 ++ boolBit r.mie ++ r.wpri1 ++ boolBit r.sie ++ r.wpri0

def toMStatusH (r : MStatusRegister) : Word :=
  r.wpri4 ++ r.wpri3.extractLsb' 8 1 ++ boolBit r.mbe ++ boolBit r.sbe ++ r.wpri5

/-- `MStatusRegister.apply`. The upper 26 bits of `valueH` meet the 25 of `wpri4`. -/
def ofWords (valueL valueH : Word) : MStatusRegister where
  wpri0 := valueL.extractLsb' 0 1
  sie := valueL.getLsbD 1
  wpri1 := valueL.extractLsb' 2 1
  mie := valueL.getLsbD 3
  wpri2 := valueL.extractLsb' 4 1
  spie := valueL.getLsbD 5
  ube := valueL.getLsbD 6
  mpie := valueL.getLsbD 7
  spp := valueL.getLsbD 8
  vs := valueL.extractLsb' 9 2
  mpp := valueL.extractLsb' 11 2
  fs := valueL.extractLsb' 13 2
  xs := valueL.extractLsb' 15 2
  mprv := valueL.getLsbD 17
  sum := valueL.getLsbD 18
  mxr := valueL.getLsbD 19
  tvm := valueL.getLsbD 20
  tw := valueL.getLsbD 21
  tsr := valueL.getLsbD 22
  wpri3 := valueH.extractLsb' 6 1 ++ valueL.extractLsb' 23 8
  sd := valueL.getLsbD 31
  wpri5 := valueH.extractLsb' 0 4
  sbe := valueH.getLsbD 4
  mbe := valueH.getLsbD 5
  wpri4 := (valueH.extractLsb' 6 26).setWidth 25

end MStatusRegister

structure MipRegister where
  ssip : Bool := false
  msip : Bool := false
  stip : Bool := false
  mtip : Bool := false
  seip : Bool := false
  meip : Bool := false
  deriving DecidableEq, Repr

namespace MipRegister

def toMip (r : MipRegister) : BitVec 16 :=
  0#4 ++ boolBit r.meip ++ 0#1 ++ boolBit r.seip ++ 0#1 ++ boolBit r.mtip ++ 0#1 ++ boolBit r.stip ++ 0#1 ++
    boolBit r.msip ++ 0#1 ++ boolBit r.ssip ++ 0#1

def hasPending (r : MipRegister) : Bool :=
  r.ssip || r.msip || r.stip || r.mtip || r.seip || r.meip

def ofWord {w : ℕ} (value : BitVec w) : MipRegister where
  ssip := value.getLsbD 1
  msip := value.getLsbD 3
  stip := value.getLsbD 5
  mtip := value.getLsbD 7
  seip := value.getLsbD 9
  meip := value.getLsbD 11

end MipRegister

structure MieRegister where
  ssie : Bool := false
  msie : Bool := false
  stie : Bool := false
  mtie : Bool := false
  seie : Bool := false
  meie : Bool := false
  deriving DecidableEq, Repr

namespace MieRegister

def toMie (r : MieRegister) : BitVec 16 :=
  0#4 ++ boolBit r.meie ++ 0#1 ++ boolBit r.seie ++ 0#1 ++ boolBit r.mtie ++ 0#1 ++ boolBit r.stie ++ 0#1 ++
    boolBit r.msie ++ 0#1 ++ boolBit r.ssie ++ 0#1

def ofWord (value : Word) : MieRegister where
  ssie := value.getLsbD 1
  msie := value.getLsbD 3
  stie := value.getLsbD 5
  mtie := value.getLsbD 7
  seie := value.getLsbD 9
  meie := value.getLsbD 11

end MieRegister

end MachineStatus

structure Csrs where
  gpioOut : Word := 0
  trapVector : Word := 0
  mstatus : MStatusRegister := {}
  mie : MieRegister := {}
  mscratch : Word := 0
  mepc : Word := 0
  mcause : Word := 0
  mtval : Word := 0
  deriving DecidableEq, Repr

section PipelineRegisters

structure IdReg where
  pc : Word := 0
  inst : Word := 0
  deriving DecidableEq, Repr

structure ExeReg where
  pc : Word := 0
  wbAddr : BitVec 5 := 0
  op1Data : Word := 0
  op2Data : Word := 0
  rs2Data : Word := 0
  exeFun : ExeFun := .aluX
  memWen : MemWen := .x
  rfWen : RfWen := .x
  wbSel : WbSel := .alu
  csrAddr : BitVec 12 := 0
  csrCmd : CsrCmd := .x
  immBSext : Word := 0
  memW : MemW := .x
  mret : Bool := false
  deriving DecidableEq, Repr

structure ExeInterrupt where
  hasPendingInterrupt : Bool := false
  exceptionTarget : Word := 0
  mcause : Word := 0
  deriving DecidableEq, Repr

structure MemReg where
  pc : Word := 0
  wbAddr : BitVec 5 := 0
  op1Data : Word := 0
  rs2Data : Word := 0
  memWen : MemWen := .x
  rfWen : RfWen := .x
  wbSel : WbSel := .alu
  csrAddr : BitVec 12 := 0
  csrCmd : CsrCmd := .x
  aluOut : Word := 0
  memW : MemW := .x
  memWstrb : BitVec 4 := 0
  deriving DecidableEq, Repr

structure WbReg where
  wbAddr : BitVec 5 := 0
  rfWen : RfWen := .x
  wbData : Word := 0
  deriving DecidableEq, Repr

/-- Everything the clock edge writes. -/
structure Core where
  regfile : BitVec 5 → Word
  csrs : Csrs := {}
  ifRegPc : Word
  idReg : IdReg := {}
  exeReg : ExeReg := {}
  exeInterrupt : ExeInterrupt := {}
  memReg : MemReg := {}
  wbReg : WbReg := {}

/-- The state after reset; the register file is a memory and keeps what it holds. -/
def reset (startAddress : Word) (regfile : BitVec 5 → Word) : Core where
  regfile := regfile
  ifRegPc := startAddress

/-- The input ports during one cycle. -/
structure Inputs where
  imemInst : Word
  imemValid : Bool
  dmemRdata : Word
  dmemRvalid : Bool
  interruptIn : Bool
  deriving DecidableEq, Repr

/-- The data bus outputs during one cycle. -/
structure DmemRequest where
  addr : Word
  ren : Bool
  wen : Bool
  wstrb : BitVec 4
  wdata : Word
  deriving DecidableEq, Repr

end PipelineRegisters

end SeccampRiscvCpu.CoreRegisters
