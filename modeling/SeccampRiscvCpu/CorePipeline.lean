import SeccampRiscvCpu.CoreDecode

/-!
# One clock cycle of the core

The wires of the five stages as functions of the registers and of the input
ports, and `step`, the clock edge that writes every register from them. The
order of the cases in each multiplexer is the source's: a redirect in EX wins
over a stall, a stall over a fetch.

Two parts have no state of their own and are named separately, because the
stages only move their results: `decodeExe`, what ID puts into EX for an
instruction word and its operands, and `exeMem`, what EX puts into MEM.
-/
namespace SeccampRiscvCpu.CorePipeline
open ByteMemory CoreRegisters CoreDecode

section Execute

def exeAluOut (e : ExeReg) : Word :=
  match e.exeFun with
  | .aluAdd => e.op1Data + e.op2Data
  | .aluSub => e.op1Data - e.op2Data
  | .aluAnd => e.op1Data &&& e.op2Data
  | .aluOr => e.op1Data ||| e.op2Data
  | .aluXor => e.op1Data ^^^ e.op2Data
  | .aluSll => e.op1Data <<< (e.op2Data.extractLsb' 0 5).toNat
  | .aluSrl => e.op1Data >>> (e.op2Data.extractLsb' 0 5).toNat
  | .aluSra => e.op1Data.sshiftRight (e.op2Data.extractLsb' 0 5).toNat
  | .aluSlt => (BitVec.ofBool (e.op1Data.slt e.op2Data)).setWidth 32
  | .aluSltu => (BitVec.ofBool (e.op1Data.ult e.op2Data)).setWidth 32
  | .aluJalr => (e.op1Data + e.op2Data) &&& ~~~1
  | .aluCopy1 => e.op1Data
  | _ => 0

/-- The comparison of a branch instruction. -/
def exeBranch (e : ExeReg) : Bool :=
  match e.exeFun with
  | .brBeq => e.op1Data == e.op2Data
  | .brBne => !(e.op1Data == e.op2Data)
  | .brBlt => e.op1Data.slt e.op2Data
  | .brBge => !e.op1Data.slt e.op2Data
  | .brBltu => e.op1Data.ult e.op2Data
  | .brBgeu => !e.op1Data.ult e.op2Data
  | _ => false

def exeBrFlg (s : Core) : Bool :=
  if s.exeInterrupt.hasPendingInterrupt then true
  else if s.exeReg.mret then true
  else exeBranch s.exeReg

def exeBrTarget (s : Core) : Word :=
  if s.exeInterrupt.hasPendingInterrupt then s.exeInterrupt.exceptionTarget
  else if s.exeReg.mret then s.csrs.mepc
  else s.exeReg.pc + s.exeReg.immBSext

def exeJmpFlg (e : ExeReg) : Bool := e.wbSel == .pc

/-- EX redirects the fetch, and ID loses what it holds. -/
def redirectFlg (s : Core) : Bool := exeBrFlg s || exeJmpFlg s.exeReg

def memWstrb (e : ExeReg) : BitVec 4 :=
  let wstrb : BitVec 4 := match e.memW with
    | .b => 0b0001
    | .h => 0b0011
    | _ => 0b1111
  wstrb <<< (offset (exeAluOut e)).toNat

/-- EX/MEM -/
def exeMem (e : ExeReg) : MemReg where
  pc := e.pc
  op1Data := e.op1Data
  rs2Data := e.rs2Data
  wbAddr := e.wbAddr
  aluOut := exeAluOut e
  rfWen := e.rfWen
  wbSel := e.wbSel
  csrAddr := e.csrAddr
  csrCmd := e.csrCmd
  memWen := e.memWen
  memW := e.memW
  memWstrb := memWstrb e

end Execute

section MemoryAccess

def dmemRequest (m : MemReg) : DmemRequest where
  addr := m.aluOut
  ren := m.wbSel == .mem
  wen := m.memWen == .s
  wstrb := m.memWstrb
  wdata := m.rs2Data <<< (8 * (offset m.aluOut).toNat)

def memStallFlg (m : MemReg) (i : Inputs) : Bool := (dmemRequest m).ren && !i.dmemRvalid

def csrMip (i : Inputs) : MipRegister := { meip := i.interruptIn }

def csrRdata (c : Csrs) (i : Inputs) (addr : BitVec 12) : Word :=
  match addr with
  | 0x7c0 => c.gpioOut
  | 0x300 => c.mstatus.toMStatusL
  | 0x301 => 0
  | 0x304 => c.mie.toMie.setWidth 32
  | 0x305 => c.trapVector
  | 0x310 => c.mstatus.toMStatusH
  | 0x340 => c.mscratch
  | 0x341 => c.mepc
  | 0x342 => c.mcause
  | 0x343 => c.mtval
  | 0x344 => (csrMip i).toMip.setWidth 32
  | _ => 0

def csrWdata (m : MemReg) (rdata : Word) : Word :=
  match m.csrCmd with
  | .w => m.op1Data
  | .s => rdata ||| m.op1Data
  | .c => rdata &&& ~~~m.op1Data
  | .e => 11
  | .x => 0

/-- The CSR write of MEM over `next`, what EX leaves of the CSRs `c`. -/
def csrWrite (c next : Csrs) (i : Inputs) (m : MemReg) : Csrs :=
  let wdata := csrWdata m (csrRdata c i m.csrAddr)
  if m.csrCmd = .x then next
  else match m.csrAddr with
    | 0x7c0 => { next with gpioOut := wdata }
    | 0x300 => { next with mstatus := .ofWords wdata c.mstatus.toMStatusH }
    | 0x304 => { next with mie := .ofWord wdata }
    | 0x305 => { next with trapVector := wdata }
    | 0x310 => { next with mstatus := .ofWords c.mstatus.toMStatusL wdata }
    | 0x340 => { next with mscratch := wdata }
    | 0x341 => { next with mepc := wdata }
    | 0x342 => { next with mcause := wdata }
    | 0x343 => { next with mtval := wdata }
    | _ => next

/-- What EX does to the CSRs: interrupt entry, then MRET. -/
def exeCsrs (s : Core) : Csrs :=
  let c := s.csrs
  let entered := if s.exeInterrupt.hasPendingInterrupt then
      { c with
        mcause := s.exeInterrupt.mcause
        mepc := s.exeReg.pc
        mstatus := { c.mstatus with mpie := c.mstatus.mie, mie := false } }
    else c
  if s.exeReg.mret then
    { entered with mstatus := { entered.mstatus with mie := c.mstatus.mpie } }
  else entered

def csrsNext (s : Core) (i : Inputs) : Csrs := csrWrite s.csrs (exeCsrs s) i s.memReg

def memLoadData (m : MemReg) (dmemRdata : Word) : Word :=
  let rdata := dmemRdata >>> (8 * (offset m.aluOut).toNat)
  match m.memW with
  | .b => BitVec.fill 24 (rdata.getLsbD 7) ++ rdata.extractLsb' 0 8
  | .h => BitVec.fill 16 (rdata.getLsbD 15) ++ rdata.extractLsb' 0 16
  | .bu => BitVec.fill 24 false ++ rdata.extractLsb' 0 8
  | .hu => BitVec.fill 16 false ++ rdata.extractLsb' 0 16
  | _ => rdata

def memWbData (c : Csrs) (i : Inputs) (m : MemReg) : Word :=
  match m.wbSel with
  | .mem => memLoadData m i.dmemRdata
  | .pc => m.pc + 4
  | .csr => csrRdata c i m.csrAddr
  | .alu => m.aluOut

end MemoryAccess

section Decode

def idRs1Addr (inst : Word) : BitVec 5 := inst.extractLsb' 15 5
def idRs2Addr (inst : Word) : BitVec 5 := inst.extractLsb' 20 5
def idWbAddr (inst : Word) : BitVec 5 := inst.extractLsb' 7 5

def idDataHazard (e : ExeReg) (rs : BitVec 5) : Bool :=
  e.rfWen == .s && rs != 0 && rs == e.wbAddr

/-- The EX hazards look at the word in ID even when it is about to be dropped. -/
def stallFlg (s : Core) (i : Inputs) : Bool :=
  idDataHazard s.exeReg (idRs1Addr s.idReg.inst) ||
    idDataHazard s.exeReg (idRs2Addr s.idReg.inst) || memStallFlg s.memReg i

def idInst (s : Core) (i : Inputs) : Word :=
  if redirectFlg s || stallFlg s i then bubble else s.idReg.inst

/-- An operand, from MEM, from WB, or from the register file. -/
def idRsData (s : Core) (i : Inputs) (rs : BitVec 5) : Word :=
  if rs = 0 then 0
  else if rs = s.memReg.wbAddr ∧ s.memReg.rfWen = .s then memWbData s.csrs i s.memReg
  else if rs = s.wbReg.wbAddr ∧ s.wbReg.rfWen = .s then s.wbReg.wbData
  else s.regfile rs

/-- ID/EX: the decoded word with its operands. -/
def decodeExe (inst pc rs1Data rs2Data : Word) : ExeReg :=
  let sig := csignals inst
  { pc := pc
    wbAddr := idWbAddr inst
    op1Data := match sig.op1Sel with
      | .rs1 => rs1Data
      | .pc => pc
      | .imz => idImmZUext inst
      | .x => 0
    op2Data := match sig.op2Sel with
      | .rs2 => rs2Data
      | .imi => idImmISext inst
      | .ims => idImmSSext inst
      | .imj => idImmJSext inst
      | .imu => idImmUShifted inst
      | .x => 0
    rs2Data := rs2Data
    exeFun := sig.exeFun
    memWen := sig.memWen
    rfWen := sig.rfWen
    wbSel := sig.wbSel
    csrAddr := if sig.csrCmd = .e then 0x342 else inst.extractLsb' 20 12
    csrCmd := sig.csrCmd
    immBSext := idImmBSext inst
    memW := sig.memW
    mret := inst == MRET }

/-- What `idReg` becomes in EX when it is not stalled and not dropped. -/
def idExe (s : Core) (i : Inputs) : ExeReg :=
  let inst := idInst s i
  decodeExe inst s.idReg.pc (idRsData s i (idRs1Addr inst)) (idRsData s i (idRs2Addr inst))

/-- The lowest set bit; the last one when there is none. -/
def priorityEncoder (v : BitVec 16) : BitVec 4 :=
  BitVec.ofNat 4 (((List.range 16).find? fun k => v.getLsbD k).getD 15)

def idEnabledMip (s : Core) (i : Inputs) : MipRegister :=
  .ofWord ((csrMip i).toMip &&& s.csrs.mie.toMie)

def idHasPendingInterrupt (s : Core) (i : Inputs) : Bool :=
  (idEnabledMip s i).hasPending && s.csrs.mstatus.mie

def idInterrupt (s : Core) (i : Inputs) : ExeInterrupt :=
  let cause := priorityEncoder (idEnabledMip s i).toMip
  let tv := s.csrs.trapVector
  { hasPendingInterrupt := idHasPendingInterrupt s i
    exceptionTarget := (tv &&& ~~~3#32) +
      (if tv &&& 3#32 = 0 then 0#32 else (cause.setWidth 6 <<< 2).setWidth 32)
    mcause := boolBit (idHasPendingInterrupt s i) ++ 0#27 ++ cause }

end Decode

section Fetch

/-- An invalid fetch is a bubble. -/
def ifInst (i : Inputs) : Word := if i.imemValid then i.imemInst else bubble

def ifPcNext (s : Core) (i : Inputs) : Word :=
  if exeBrFlg s then exeBrTarget s
  else if exeJmpFlg s.exeReg then exeAluOut s.exeReg
  else if ifInst i = ECALL then s.csrs.trapVector
  else if stallFlg s i || !i.imemValid then s.ifRegPc
  else s.ifRegPc + 4

def idRegNext (s : Core) (i : Inputs) : IdReg where
  pc := if stallFlg s i || exeBrFlg s || exeJmpFlg s.exeReg || !i.imemValid then s.idReg.pc
    else s.ifRegPc
  inst := if redirectFlg s then bubble
    else if stallFlg s i then s.idReg.inst
    else ifInst i

end Fetch

section ClockEdge

/-- The pc of EX is kept over a redirect. -/
def exeRegNext (s : Core) (i : Inputs) : ExeReg :=
  if memStallFlg s.memReg i then s.exeReg
  else { idExe s i with pc := if redirectFlg s then s.exeReg.pc else s.idReg.pc }

/-- A pending interrupt lasts one cycle, even through a stall. -/
def exeInterruptNext (s : Core) (i : Inputs) : ExeInterrupt :=
  let next := if memStallFlg s.memReg i then s.exeInterrupt else idInterrupt s i
  { next with hasPendingInterrupt :=
      if s.exeInterrupt.hasPendingInterrupt then false else next.hasPendingInterrupt }

def memRegNext (s : Core) (i : Inputs) : MemReg :=
  if memStallFlg s.memReg i then s.memReg else exeMem s.exeReg

def wbRegNext (s : Core) (i : Inputs) : WbReg where
  wbAddr := s.memReg.wbAddr
  rfWen := if memStallFlg s.memReg i then .x else s.memReg.rfWen
  wbData := memWbData s.csrs i s.memReg

def regfileNext (s : Core) : BitVec 5 → Word :=
  if s.wbReg.rfWen = .s then Function.update s.regfile s.wbReg.wbAddr s.wbReg.wbData
  else s.regfile

def step (s : Core) (i : Inputs) : Core where
  regfile := regfileNext s
  csrs := csrsNext s i
  ifRegPc := ifPcNext s i
  idReg := idRegNext s i
  exeReg := exeRegNext s i
  exeInterrupt := exeInterruptNext s i
  memReg := memRegNext s i
  wbReg := wbRegNext s i

variable (s : Core) (i : Inputs)

@[simp] theorem step_regfile : (step s i).regfile = regfileNext s := rfl
@[simp] theorem step_csrs : (step s i).csrs = csrsNext s i := rfl
@[simp] theorem step_ifRegPc : (step s i).ifRegPc = ifPcNext s i := rfl
@[simp] theorem step_idReg : (step s i).idReg = idRegNext s i := rfl
@[simp] theorem step_exeReg : (step s i).exeReg = exeRegNext s i := rfl
@[simp] theorem step_exeInterrupt : (step s i).exeInterrupt = exeInterruptNext s i := rfl
@[simp] theorem step_memReg : (step s i).memReg = memRegNext s i := rfl
@[simp] theorem step_wbReg : (step s i).wbReg = wbRegNext s i := rfl

end ClockEdge

end SeccampRiscvCpu.CorePipeline
