import SeccampRiscvCpu.CoreDatapath
import SeccampRiscvCpu.ClockedMachine

/-!
# The pipeline refines the reference

The core and a byte memory on its two buses make a clocked machine. The bus
schedule says in which cycles an instruction and a loaded word are valid; when
they are, they are what memory holds.

The relation places the machine on an execution of the reference: `k`
instructions have left MEM, MEM and EX hold the next ones or are idle, and `n`
is the first one not yet in EX. Memory, CSRs and the register file, with WB's
write applied, are those of the reference before instruction `k`. The front end
matters only while EX does not redirect the fetch.
-/
namespace SeccampRiscvCpu.CoreRefinement
open ByteMemory RiscvIsa CoreRegisters CoreDecode CorePipeline CoreDatapath ClockedMachine

section System

structure System where
  core : Core
  mem : Memory

/-- One cycle of the buses and of the interrupt line. What the ports carry while
they are not valid is arbitrary. -/
structure BusCycle where
  imemValid : Bool
  dmemRvalid : Bool
  imemIdle : Word := 0
  dmemIdle : Word := 0
  interruptIn : Bool := false

def inputs (x : System) (b : BusCycle) : Inputs where
  imemInst := if b.imemValid then readWord x.mem x.core.ifRegPc else b.imemIdle
  imemValid := b.imemValid
  dmemRdata :=
    if b.dmemRvalid then busWord x.mem (dmemRequest x.core.memReg).addr else b.dmemIdle
  dmemRvalid := b.dmemRvalid
  interruptIn := b.interruptIn

/-- The write WB is about to make; a bubble writes `x0`, which is not a write. -/
def wbWrite (w : WbReg) : Option (Reg × Word) :=
  if w.rfWen = .s then toReg w.wbAddr w.wbData else none

/-- What the data bus completes this cycle. -/
def busEvents (q : DmemRequest) (i : Inputs) : List Event :=
  (if q.ren && i.dmemRvalid then [.access (.load q.addr i.dmemRdata)] else []) ++
    (if q.wen then [.access (.store (requestBytes q))] else [])

def memNext (m : Memory) (q : DmemRequest) : Memory :=
  if q.wen then writeBytes m (requestBytes q) else m

def system : Machine System BusCycle Event where
  step x b := ⟨step x.core (inputs x b), memNext x.mem (dmemRequest x.core.memReg)⟩
  emit x b := writeBackEvents (wbWrite x.core.wbReg) ++
    busEvents (dmemRequest x.core.memReg) (inputs x b)

def powerOn (startAddress : Word) (regfile : Reg → Word) (mem : Memory) : System :=
  ⟨reset startAddress regfile, mem⟩

/-- The architectural state after reset. -/
def archReset (startAddress : Word) (regfile : Reg → Word) (mem : Memory) : ArchState where
  pc := startAddress
  regs := regfile
  csrs := fun _ => 0
  mem := mem

end System

section Idle

/-- Registers of EX that do nothing. -/
structure ExeIdle (e : ExeReg) : Prop where
  writeBack : e.rfWen = .x ∨ e.wbAddr = 0
  memWen : e.memWen = .x
  wbSel : e.wbSel = .alu
  csrCmd : e.csrCmd = .x
  mret : e.mret = false
  branch : exeBranch e = false

structure MemIdle (m : MemReg) : Prop where
  writeBack : m.rfWen = .x ∨ m.wbAddr = 0
  memWen : m.memWen = .x
  wbSel : m.wbSel = .alu
  csrCmd : m.csrCmd = .x

theorem ExeIdle.mem {e : ExeReg} (h : ExeIdle e) : MemIdle (exeMem e) :=
  ⟨h.writeBack, h.memWen, h.wbSel, h.csrCmd⟩

theorem ExeIdle.setPc {e : ExeReg} (h : ExeIdle e) (pc : Word) : ExeIdle { e with pc := pc } :=
  ⟨h.writeBack, h.memWen, h.wbSel, h.csrCmd, h.mret, h.branch⟩

theorem ExeIdle.jump {e : ExeReg} (h : ExeIdle e) : exeJmpFlg e = false := by
  unfold exeJmpFlg
  rw [h.wbSel]
  rfl

/-- What ID holds when there is no instruction: a bubble, or the word of reset. -/
def IdIdle (inst : Word) : Prop := inst = bubble ∨ inst = 0

theorem decodeExe_idle {inst : Word} (h : IdIdle inst) (pc r1 r2 : Word) :
    ExeIdle (decodeExe inst pc r1 r2) := by
  obtain rfl | rfl := h
  · exact ⟨.inr rfl, rfl, rfl, rfl, rfl, rfl⟩
  · exact ⟨.inl rfl, rfl, rfl, rfl, rfl, rfl⟩

end Idle

section Relation
variable {s : ArchState} (e : Execution s)

/-- The instruction at the pc of `a` sends the fetch elsewhere. -/
def redirects (a : ArchState) : Bool := exeBranch (exeSlot a) || exeJmpFlg (exeSlot a)

/-- IF and ID before instruction `n` enters EX: ID is empty and IF is at `n`, or
ID holds `n`, and IF is behind it unless `n` jumps away. -/
inductive FrontEnd (n : ℕ) (c : Core) : Prop
  | empty (hid : IdIdle c.idReg.inst) (hpc : c.ifRegPc = (e.state n).pc)
  | held (hinst : c.idReg.inst = fetched (e.state n)) (hpc : c.idReg.pc = (e.state n).pc)
      (hnext : redirects (e.state n) = false → c.ifRegPc = (e.state n).pc + 4)

/-- Instruction `k` is the first not yet past MEM; `inMem` and `inExe` say
whether MEM and EX hold an instruction. -/
structure Tracks (k : ℕ) (inMem inExe : Bool) (x : System) : Prop where
  mem : x.mem = (e.state k).mem
  csrs : plainCsrs x.core.csrs = (e.state k).csrs
  regs : ∀ r, r ≠ 0 → regfileNext x.core r = (e.state k).reg r
  memReg : if inMem then x.core.memReg = exeMem (exeSlot (e.state k)) else MemIdle x.core.memReg
  exeReg : if inExe then x.core.exeReg = exeSlot (e.state (k + inMem.toNat))
    else ExeIdle x.core.exeReg
  noInterrupt : x.core.exeInterrupt.hasPendingInterrupt = false
  front : redirectFlg x.core = false → FrontEnd e (k + inMem.toNat + inExe.toNat) x.core

theorem implements_state (n : ℕ) :
    Implements (e.state n) (e.outcome n) (exeSlot (e.state n)) :=
  exeSlot_implements (e.defined n)

theorem state_next_pc (n : ℕ) : (e.state (n + 1)).pc = (e.outcome n).nextPc := by
  rw [e.next n, commit_pc]

theorem pc_of_no_redirect {n : ℕ} (h : redirects (e.state n) = false) :
    (e.state (n + 1)).pc = (e.state n).pc + 4 := by
  rw [state_next_pc]
  obtain ⟨hb, hj⟩ := Bool.or_eq_false_iff.mp h
  rw [(implements_state e n).fallThrough hb hj, (implements_state e n).pc]

theorem fetched_ne_ecall (n : ℕ) : fetched (e.state n) ≠ ECALL := by
  intro h
  obtain ⟨i, hi, -⟩ := Option.bind_eq_some_iff.mp (e.defined n)
  change decode (fetched (e.state n)) = some i at hi
  rw [h] at hi
  contradiction

variable {e} {k : ℕ} {inMem inExe : Bool} {x : System} (T : Tracks e k inMem inExe x)
include T

/-- The instruction in EX. -/
theorem Tracks.exeImplements (h : inExe = true) : Implements (e.state (k + inMem.toNat))
    (e.outcome (k + inMem.toNat)) x.core.exeReg := by
  subst h
  have hx : x.core.exeReg = exeSlot (e.state (k + inMem.toNat)) := T.exeReg
  rw [hx]
  exact implements_state e _

/-- The instruction in MEM and what it asks of the bus. -/
theorem Tracks.memAccess (h : inMem = true) :
    Accesses (e.state k).mem x.core.memReg (e.outcome k).access := by
  subst h
  have hx : x.core.memReg = exeMem (exeSlot (e.state k)) := T.memReg
  rw [hx]
  exact (implements_state e k).access

theorem Tracks.mret : x.core.exeReg.mret = false := by
  have h := T.exeReg
  cases inExe with
  | false => exact h.mret
  | true => exact (T.exeImplements rfl).mret

theorem Tracks.exeBrFlg : exeBrFlg x.core = exeBranch x.core.exeReg := by
  unfold CorePipeline.exeBrFlg
  rw [T.noInterrupt, T.mret]
  rfl

theorem Tracks.exeBrTarget :
    exeBrTarget x.core = x.core.exeReg.pc + x.core.exeReg.immBSext := by
  unfold CorePipeline.exeBrTarget
  rw [T.noInterrupt, T.mret]
  rfl

theorem Tracks.exeCsrs : exeCsrs x.core = x.core.csrs := by
  unfold CorePipeline.exeCsrs
  rw [T.noInterrupt, T.mret]
  rfl

/-- A redirect comes from an instruction of the reference and goes where it goes. -/
theorem Tracks.redirect_pc (h : redirectFlg x.core = true) (i : Inputs) :
    ifPcNext x.core i = (e.state (k + inMem.toNat + inExe.toNat)).pc := by
  have hx := T.exeReg
  unfold redirectFlg at h
  unfold ifPcNext
  rw [T.exeBrFlg] at h ⊢
  rw [T.exeBrTarget]
  cases inExe with
  | false =>
      rw [hx.branch, hx.jump] at h
      contradiction
  | true =>
      have hi := T.exeImplements rfl
      rw [Bool.toNat_true, state_next_pc]
      cases hb : exeBranch x.core.exeReg with
      | true =>
          rw [if_pos rfl]
          exact (hi.branch hb).symm
      | false =>
          rw [hb, Bool.false_or] at h
          rw [if_neg Bool.false_ne_true, if_pos h]
          exact (hi.jump hb h).symm

end Relation

section Accesses
variable {a : ArchState} {o : Outcome} {m : MemReg} {i : Inputs}

/-- Only a load waits, and a load writes neither memory nor a CSR. -/
theorem waiting_load {mem : Memory} {acc : Option Access} (h : Accesses mem m acc)
    (hm : m.wbSel = .mem) : m.memWen = .x ∧ m.csrCmd = .x := by
  cases h with
  | none h => contradiction
  | load _ hw hc => exact ⟨hw, hc⟩
  | store h => contradiction

theorem commit_memNext (h : Accesses a.mem m o.access) :
    memNext a.mem (dmemRequest m) = (a.commit o).mem := by
  unfold ArchState.commit memNext
  cases o with
  | mk nextPc access csrWrite writeBack =>
  cases h with
  | none _ hw => simp [dmemRequest, hw]
  | load _ hw => simp [dmemRequest, hw]
  | store _ hw => simp [dmemRequest, hw]

theorem busEvents_access {mem : Memory} {acc : Option Access} (h : Accesses mem m acc)
    (hs : memStallFlg m i = false)
    (hd : m.wbSel = .mem → i.dmemRdata = busWord mem m.aluOut) :
    busEvents (dmemRequest m) i = (acc.map Event.access).toList := by
  unfold memStallFlg at hs
  cases h with
  | none hm hw => simp [busEvents, dmemRequest, hw, hm]
  | load hm hw =>
      have hv : i.dmemRvalid = true := by
        simpa [dmemRequest, hm] using hs
      simp [busEvents, dmemRequest, hw, hm, hv, hd hm]
  | store hm hw => simp [busEvents, dmemRequest, hw, hm]

theorem busEvents_idle (h : MemIdle m) : busEvents (dmemRequest m) i = [] := by
  simp [busEvents, dmemRequest, h.memWen, h.wbSel]

theorem memWriteBack_idle (h : MemIdle m) (c : Csrs) : memWriteBack c i m = none := by
  unfold memWriteBack
  obtain h | h := h.writeBack
  · rw [h]
    rfl
  · rw [h]
    exact ite_self _

theorem wbSel_of_stall (h : memStallFlg m i = true) : m.wbSel = .mem :=
  beq_iff_eq.mp (Bool.and_eq_true_iff.mp h).1

end Accesses

section MemoryStage
variable {s : ArchState} {e : Execution s} {k : ℕ} {inMem inExe : Bool} {x : System}
  (T : Tracks e k inMem inExe x) (b : BusCycle)

theorem rdata_of_valid (hs : memStallFlg x.core.memReg (inputs x b) = false)
    (hm : x.core.memReg.wbSel = .mem) :
    (inputs x b).dmemRdata = busWord x.mem x.core.memReg.aluOut := by
  have hv : b.dmemRvalid = true := by
    simpa [memStallFlg, dmemRequest, hm, inputs] using hs
  simp only [inputs, dmemRequest, hv, if_true]

include T

theorem Tracks.waiting (hs : memStallFlg x.core.memReg (inputs x b) = true) :
    x.core.memReg.memWen = .x ∧ x.core.memReg.csrCmd = .x := by
  have hm := wbSel_of_stall hs
  have hx := T.memReg
  cases inMem with
  | false =>
      rw [hx.wbSel] at hm
      contradiction
  | true => exact waiting_load (T.memAccess rfl) hm

theorem Tracks.wait_mem (hs : memStallFlg x.core.memReg (inputs x b) = true) :
    memNext x.mem (dmemRequest x.core.memReg) = x.mem := by
  simp [memNext, dmemRequest, (T.waiting b hs).1]

theorem Tracks.wait_csrs (hs : memStallFlg x.core.memReg (inputs x b) = true) :
    csrsNext x.core (inputs x b) = x.core.csrs := by
  unfold csrsNext
  rw [csrWrite_none _ _ _ (T.waiting b hs).2, T.exeCsrs]

theorem Tracks.wait_events (hs : memStallFlg x.core.memReg (inputs x b) = true) :
    busEvents (dmemRequest x.core.memReg) (inputs x b) = [] := by
  have hv : (inputs x b).dmemRvalid = false := by
    simpa [memStallFlg, dmemRequest, wbSel_of_stall hs] using hs
  simp [busEvents, dmemRequest, (T.waiting b hs).1, hv]

/-- The instruction leaving MEM does to memory what the reference does. -/
theorem Tracks.done_mem :
    memNext x.mem (dmemRequest x.core.memReg) = (e.state (k + inMem.toNat)).mem := by
  have hx := T.memReg
  cases inMem with
  | false => simp [memNext, dmemRequest, hx.memWen, T.mem]
  | true => rw [Bool.toNat_true, e.next k, T.mem, commit_memNext (T.memAccess rfl)]

theorem Tracks.done_csrs :
    plainCsrs (csrsNext x.core (inputs x b)) = (e.state (k + inMem.toNat)).csrs := by
  have hx := T.memReg
  unfold csrsNext
  rw [T.exeCsrs]
  cases inMem with
  | false =>
      rw [csrWrite_none _ _ _ hx.csrCmd]
      exact T.csrs
  | true =>
      have hm : x.core.memReg = exeMem (exeSlot (e.state k)) := hx
      rw [hm, Bool.toNat_true, e.next k]
      exact (implements_state e k).csrWrite _ _ T.csrs

variable (hs : memStallFlg x.core.memReg (inputs x b) = false)
include hs

/-- What MEM hands to WB is the register write of the reference. -/
theorem Tracks.done_writeBack (hm : inMem = true) :
    memWriteBack x.core.csrs (inputs x b) x.core.memReg = (e.outcome k).writeBack := by
  subst hm
  have hx : x.core.memReg = exeMem (exeSlot (e.state k)) := T.memReg
  have hd := rdata_of_valid b hs
  rw [hx, T.mem] at hd
  rw [hx]
  exact (implements_state e k).writeBack _ _ T.csrs hd

/-- The events of the instruction leaving MEM, on the bus now and in WB next. -/
theorem Tracks.done_events :
    ∃ due, e.trace (k + inMem.toNat) = e.trace k ++ due ∧
      due = busEvents (dmemRequest x.core.memReg) (inputs x b) ++
        writeBackEvents (memWriteBack x.core.csrs (inputs x b) x.core.memReg) := by
  have hx := T.memReg
  cases inMem with
  | false =>
      refine ⟨[], (List.append_nil _).symm, ?_⟩
      rw [busEvents_idle hx, memWriteBack_idle hx]
      rfl
  | true =>
      refine ⟨(e.outcome k).events, rfl, ?_⟩
      have ha := T.memAccess rfl
      rw [← T.mem] at ha
      rw [T.done_writeBack b hs rfl, busEvents_access ha hs (rdata_of_valid b hs)]
      rfl

/-- A register as the instruction leaving MEM leaves it: MEM's result in front
of WB's in front of the register file. -/
theorem Tracks.forward {r : Reg} (hr : r ≠ 0) :
    (if r = x.core.memReg.wbAddr ∧ x.core.memReg.rfWen = .s then
        memWbData x.core.csrs (inputs x b) x.core.memReg
      else regfileNext x.core r) = (e.state (k + inMem.toNat)).reg r := by
  have hx := T.memReg
  cases inMem with
  | false =>
      have h : ¬(r = x.core.memReg.wbAddr ∧ x.core.memReg.rfWen = .s) := by
        intro h
        rcases h with ⟨h1, h2⟩
        obtain h | h := hx.writeBack
        · rw [h] at h2
          contradiction
        · exact hr (h1.trans h)
      rw [if_neg h]
      exact T.regs r hr
  | true =>
      have hwb := T.done_writeBack b hs rfl
      rw [Bool.toNat_true, e.next k]
      unfold memWriteBack at hwb
      split
      next h =>
        rw [if_pos h.2, ← h.1, toReg, if_neg hr] at hwb
        exact (commit_reg_same _ _ hwb.symm hr).symm
      next h =>
        rw [T.regs r hr, commit_reg_other]
        intro v hv
        rw [← hwb] at hv
        split at hv
        next hw => exact h ⟨(toReg_some hv).1.symm, hw⟩
        next => contradiction

end MemoryStage

section DecodeStage
variable {s : ArchState} {e : Execution s} {k : ℕ} {inMem inExe : Bool} {x : System}

/-- Some CSRs of the core that agree with the reference. -/
def coreCsrs (c : Csr → Word) : Csrs where
  gpioOut := c .gpio
  trapVector := c .mtvec
  mscratch := c .mscratch
  mepc := c .mepc
  mcause := c .mcause
  mtval := c .mtval

theorem plainCsrs_core (c : Csr → Word) : plainCsrs (coreCsrs c) = c := by
  funext n
  cases n <;> rfl

/-- A register write of the reference is one of the registers in EX, before its value is known. -/
theorem writeBack_reg {a : ArchState} {o : Outcome} {ex : ExeReg} (h : Implements a o ex)
    {r : Reg} {v : Word} (hw : o.writeBack = some (r, v)) : ex.rfWen = .s ∧ ex.wbAddr = r := by
  let i : Inputs := ⟨0, false, busWord a.mem (exeAluOut ex), true, false⟩
  have hwb := h.writeBack (coreCsrs a.csrs) i (plainCsrs_core a.csrs) (fun _ => rfl)
  rw [hw] at hwb
  unfold memWriteBack at hwb
  split at hwb
  next hs => exact ⟨hs, (toReg_some hwb).1⟩
  next => contradiction

theorem no_hazard_reg {ex : ExeReg} {r : Reg} (hr : r ≠ 0) (h : idDataHazard ex r = false)
    (hw : ex.rfWen = .s) : ex.wbAddr ≠ r := by
  intro hrw
  simp [idDataHazard, hw, hrw] at h
  exact hr h

theorem idRsData_forward (c : Core) (i : Inputs) {r : Reg} (hr : r ≠ 0) :
    idRsData c i r = if r = c.memReg.wbAddr ∧ c.memReg.rfWen = .s then memWbData c.csrs i c.memReg
      else regfileNext c r := by
  unfold idRsData regfileNext
  rw [if_neg hr]
  congr 1
  by_cases hw : c.wbReg.rfWen = .s
  · rw [if_pos hw]
    by_cases ha : r = c.wbReg.wbAddr
    · rw [if_pos ⟨ha, hw⟩, ha, Function.update_self]
    · rw [if_neg (fun h => ha h.1), Function.update_of_ne ha]
  · rw [if_neg hw, if_neg (fun h => hw h.2)]

variable (T : Tracks e k inMem inExe x) (b : BusCycle)
  (hs : memStallFlg x.core.memReg (inputs x b) = false)
include T hs

/-- An operand without a hazard in EX is the register the next instruction reads. -/
theorem Tracks.operand {r : Reg} (hz : idDataHazard x.core.exeReg r = false) :
    idRsData x.core (inputs x b) r = (e.state (k + inMem.toNat + inExe.toNat)).reg r := by
  by_cases hr : r = 0
  · subst hr
    rfl
  rw [idRsData_forward _ _ hr, T.forward b hs hr]
  cases inExe with
  | false => rfl
  | true =>
      rw [Bool.toNat_true, e.next, commit_reg_other]
      intro v hv
      obtain ⟨hw, ha⟩ := writeBack_reg (T.exeImplements rfl) hv
      exact no_hazard_reg hr hz hw ha

/-- An instruction leaves ID with the operands it has in the reference. -/
theorem Tracks.issue (hst : stallFlg x.core (inputs x b) = false)
    (hrd : redirectFlg x.core = false)
    (hinst : x.core.idReg.inst = fetched (e.state (k + inMem.toNat + inExe.toNat)))
    (hpc : x.core.idReg.pc = (e.state (k + inMem.toNat + inExe.toNat)).pc) :
    exeRegNext x.core (inputs x b) = exeSlot (e.state (k + inMem.toNat + inExe.toNat)) := by
  have hid : idInst x.core (inputs x b) = x.core.idReg.inst := by
    unfold idInst
    rw [hrd, hst]
    rfl
  obtain ⟨hz, -⟩ := Bool.or_eq_false_iff.mp hst
  obtain ⟨hz1, hz2⟩ := Bool.or_eq_false_iff.mp hz
  have hex : idExe x.core (inputs x b) =
      exeSlot (e.state (k + inMem.toNat + inExe.toNat)) := by
    have h1 := T.operand b hs hz1
    have h2 := T.operand b hs hz2
    unfold idExe exeSlot
    rw [hid]
    dsimp only
    rw [h1, h2, hpc, hinst]
  unfold exeRegNext
  rw [hs, hrd, hex, hpc]
  rfl

end DecodeStage

section Step
variable {s : ArchState} {e : Execution s} {k : ℕ} {inMem inExe : Bool} {x : System}

theorem no_interrupt (c : Core) {i : Inputs} (hi : i.interruptIn = false) :
    idHasPendingInterrupt c i = false := by
  have hz : (csrMip i).toMip = 0 := by
    simp only [csrMip, hi]
    rfl
  unfold idHasPendingInterrupt idEnabledMip
  rw [hz]
  have hand : (0 : BitVec 16) &&& c.csrs.mie.toMie = 0 := BitVec.zero_and
  rw [hand]
  rfl

theorem exeInterruptNext_none (c : Core) {i : Inputs} (hi : i.interruptIn = false)
    (hc : c.exeInterrupt.hasPendingInterrupt = false) :
    (exeInterruptNext c i).hasPendingInterrupt = false := by
  unfold exeInterruptNext
  rw [hc]
  simp only [Bool.false_eq_true, if_false]
  split
  · exact hc
  · exact no_interrupt c hi

/-- A dropped or stalled ID leaves EX idle. -/
theorem exeRegNext_idle {c : Core} {i : Inputs} (hs : memStallFlg c.memReg i = false)
    (h : IdIdle (idInst c i)) : ExeIdle (exeRegNext c i) := by
  unfold exeRegNext
  rw [hs]
  exact (decodeExe_idle h _ _ _).setPc _

theorem idInst_dropped {c : Core} {i : Inputs} (h : (redirectFlg c || stallFlg c i) = true) :
    idInst c i = bubble := if_pos h

/-- The register file after the clock edge, with the write WB will then make. -/
theorem regfileNext_step (c : Core) (i : Inputs) (r : Reg) :
    regfileNext (step c i) r =
      if r = c.memReg.wbAddr ∧ (wbRegNext c i).rfWen = .s then memWbData c.csrs i c.memReg
      else regfileNext c r := by
  change (if (wbRegNext c i).rfWen = .s then
    Function.update (regfileNext c) c.memReg.wbAddr (memWbData c.csrs i c.memReg)
      else regfileNext c) r = _
  by_cases hw : (wbRegNext c i).rfWen = .s
  · rw [if_pos hw]
    by_cases ha : r = c.memReg.wbAddr
    · rw [if_pos ⟨ha, hw⟩, ha, Function.update_self]
    · rw [if_neg (fun h => ha h.1), Function.update_of_ne ha]
  · rw [if_neg hw, if_neg (fun h => hw h.2)]

theorem redirectFlg_eq {c : Core} (hp : c.exeInterrupt.hasPendingInterrupt = false)
    (hm : c.exeReg.mret = false) :
    redirectFlg c = (exeBranch c.exeReg || exeJmpFlg c.exeReg) := by
  unfold redirectFlg exeBrFlg
  rw [hp, hm]
  rfl

theorem no_redirect {c : Core} (h : redirectFlg c = false) :
    exeBrFlg c = false ∧ exeJmpFlg c.exeReg = false := Bool.or_eq_false_iff.mp h

section Front
variable (hcode : e.CodeIntact) (T : Tracks e k inMem inExe x) (b : BusCycle) {j : ℕ}
include hcode T

/-- On the path of the reference the fetch returns the reference's instruction. -/
theorem Tracks.ifInst (hpc : x.core.ifRegPc = (e.state j).pc) :
    ifInst (inputs x b) = if b.imemValid then fetched (e.state j) else bubble := by
  have hf : readWord x.mem x.core.ifRegPc = fetched (e.state j) := by
    rw [T.mem, hpc, hcode k j]
    exact (hcode j j).symm
  unfold CorePipeline.ifInst inputs
  cases b.imemValid with
  | false => rfl
  | true => exact hf

theorem Tracks.no_ecall (hpc : x.core.ifRegPc = (e.state j).pc) :
    CorePipeline.ifInst (inputs x b) ≠ ECALL := by
  rw [T.ifInst hcode b hpc]
  split
  · exact fetched_ne_ecall e j
  · decide

variable (hrd : redirectFlg x.core = false)
include hrd

/-- A stall keeps IF and ID. -/
theorem Tracks.front_hold (hst : stallFlg x.core (inputs x b) = true) {n : ℕ}
    (hf : FrontEnd e n x.core) : FrontEnd e n (step x.core (inputs x b)) := by
  obtain ⟨hbr, hj⟩ := no_redirect hrd
  have hpc' : (idRegNext x.core (inputs x b)).pc = x.core.idReg.pc := by
    simp only [idRegNext, hst, Bool.true_or, if_true]
  have hinst' : (idRegNext x.core (inputs x b)).inst = x.core.idReg.inst := by
    simp only [idRegNext, hst, hrd, Bool.false_eq_true, if_false, if_true]
  have hif : ∀ {j}, x.core.ifRegPc = (e.state j).pc →
      ifPcNext x.core (inputs x b) = x.core.ifRegPc := by
    intro j hj'
    have he := T.no_ecall hcode b hj'
    simp only [ifPcNext, hbr, hj, he, hst, Bool.true_or, Bool.false_eq_true, if_false, if_true]
  cases hf with
  | empty hid hpc =>
      apply FrontEnd.empty
      · exact hinst'.symm ▸ hid
      · exact (hif hpc).trans hpc
  | held hinst hpc hnext =>
      apply FrontEnd.held
      · exact hinst'.trans hinst
      · exact hpc'.trans hpc
      · intro hr
        have hn := hnext hr
        rw [← pc_of_no_redirect e hr] at hn ⊢
        exact (hif hn).trans hn

/-- Without a stall the fetched word moves to ID, or a bubble does. -/
theorem Tracks.front_flow (hst : stallFlg x.core (inputs x b) = false)
    (hpc : x.core.ifRegPc = (e.state j).pc) : FrontEnd e j (step x.core (inputs x b)) := by
  obtain ⟨hbr, hj⟩ := no_redirect hrd
  have hi := T.ifInst hcode b hpc
  have he := T.no_ecall hcode b hpc
  have hv : (inputs x b).imemValid = b.imemValid := rfl
  have hinst' : (idRegNext x.core (inputs x b)).inst = CorePipeline.ifInst (inputs x b) := by
    simp only [idRegNext, hst, hrd, Bool.false_eq_true, if_false]
  cases hb : b.imemValid with
  | false =>
      rw [hb] at hi hv
      apply FrontEnd.empty
      · exact .inl (hinst'.trans hi)
      · change ifPcNext x.core (inputs x b) = _
        simp only [ifPcNext, hbr, hj, he, hst, hv, Bool.not_false, Bool.or_true,
          Bool.false_eq_true, if_false, if_true, hpc]
  | true =>
      rw [hb] at hi hv
      apply FrontEnd.held
      · exact hinst'.trans hi
      · change (idRegNext x.core (inputs x b)).pc = _
        simp only [idRegNext, hst, hbr, hj, hv, Bool.not_true, Bool.or_false,
          Bool.false_eq_true, if_false, hpc]
      · intro _
        change ifPcNext x.core (inputs x b) = _
        simp only [ifPcNext, hbr, hj, he, hst, hv, Bool.not_true, Bool.or_false,
          Bool.false_eq_true, if_false, hpc]

end Front

section Cycle
variable (T : Tracks e k inMem inExe x) (b : BusCycle) (hi : b.interruptIn = false)
include T hi

/-- While MEM waits for the bus, everything behind it waits too. -/
theorem Tracks.wait (hcode : e.CodeIntact)
    (hs : memStallFlg x.core.memReg (inputs x b) = true) :
    Tracks e k inMem inExe (system.step x b) := by
  have hst : stallFlg x.core (inputs x b) = true := by
    simp only [stallFlg, hs, Bool.or_true]
  have hm : memRegNext x.core (inputs x b) = x.core.memReg := if_pos hs
  have hx : exeRegNext x.core (inputs x b) = x.core.exeReg := if_pos hs
  have hp := exeInterruptNext_none x.core (i := inputs x b) hi T.noInterrupt
  exact {
    mem := (T.wait_mem b hs).trans T.mem
    csrs := by
      change plainCsrs (csrsNext x.core (inputs x b)) = _
      rw [T.wait_csrs b hs]
      exact T.csrs
    regs := fun r hr => by
      refine (regfileNext_step x.core (inputs x b) r).trans ?_
      have hw : (wbRegNext x.core (inputs x b)).rfWen = .x := if_pos hs
      rw [hw, if_neg (fun h => nomatch h.2)]
      exact T.regs r hr
    memReg := by
      change if inMem then memRegNext x.core (inputs x b) = _ else MemIdle (memRegNext _ _)
      rw [hm]
      exact T.memReg
    exeReg := by
      change if inExe then exeRegNext x.core (inputs x b) = _ else ExeIdle (exeRegNext _ _)
      rw [hx]
      exact T.exeReg
    noInterrupt := hp
    front := fun h => by
      have hrd : redirectFlg x.core = false := by
        have hm' : (step x.core (inputs x b)).exeReg.mret = false :=
          (congrArg ExeReg.mret hx).trans T.mret
        have h' := redirectFlg_eq hp hm'
        change redirectFlg (step x.core (inputs x b)) = false at h
        change redirectFlg _ = (exeBranch (exeRegNext _ _) || exeJmpFlg (exeRegNext _ _)) at h'
        rw [h, hx] at h'
        rw [redirectFlg_eq T.noInterrupt T.mret]
        exact h'.symm
      exact T.front_hold hcode b hrd hst (T.front hrd) }

variable (hs : memStallFlg x.core.memReg (inputs x b) = false)
include hs

/-- MEM's instruction leaves, EX's moves to MEM; what enters EX and what the
front end then holds is the caller's. -/
theorem Tracks.advance {entered : Bool}
    (hex : if entered then exeRegNext x.core (inputs x b) =
        exeSlot (e.state (k + inMem.toNat + inExe.toNat))
      else ExeIdle (exeRegNext x.core (inputs x b)))
    (hf : redirectFlg (step x.core (inputs x b)) = false →
      FrontEnd e (k + inMem.toNat + inExe.toNat + entered.toNat) (step x.core (inputs x b))) :
    Tracks e (k + inMem.toNat) inExe entered (system.step x b) where
  mem := T.done_mem
  csrs := T.done_csrs b
  regs r hr := by
    refine (regfileNext_step x.core (inputs x b) r).trans ?_
    have hw : (wbRegNext x.core (inputs x b)).rfWen = x.core.memReg.rfWen := by
      simp only [wbRegNext, hs, Bool.false_eq_true, if_false]
    rw [hw]
    exact T.forward b hs hr
  memReg := by
    have hm : memRegNext x.core (inputs x b) = exeMem x.core.exeReg := by
      simp only [memRegNext, hs, Bool.false_eq_true, if_false]
    have hx := T.exeReg
    change if inExe then memRegNext x.core (inputs x b) = _ else MemIdle (memRegNext _ _)
    rw [hm]
    cases inExe with
    | false => exact hx.mem
    | true => exact congrArg exeMem hx
  exeReg := hex
  noInterrupt := exeInterruptNext_none x.core (i := inputs x b) hi T.noInterrupt
  front := hf

omit hs in
/-- One clock cycle of the machine, by what stalls it. -/
theorem Tracks.step (hcode : e.CodeIntact) :
    ∃ k' inMem' inExe' due, Tracks e k' inMem' inExe' (system.step x b) ∧
      e.trace k' = e.trace k ++ due ∧
      writeBackEvents (wbWrite x.core.wbReg) ++ due =
        system.emit x b ++ writeBackEvents (wbWrite (system.step x b).core.wbReg) := by
  cases hs : memStallFlg x.core.memReg (inputs x b) with
  | true =>
      refine ⟨k, inMem, inExe, [], T.wait b hi hcode hs, (List.append_nil _).symm, ?_⟩
      have hw : (wbRegNext x.core (inputs x b)).rfWen = .x := if_pos hs
      have hw' : wbWrite (wbRegNext x.core (inputs x b)) = none := by
        unfold wbWrite
        rw [hw]
        rfl
      change _ = (_ ++ busEvents _ _) ++ writeBackEvents (wbWrite (wbRegNext _ _))
      rw [T.wait_events b hs, hw', List.append_nil]
      exact (List.append_nil _).symm
  | false =>
      obtain ⟨due, hdue, hd⟩ := T.done_events b hs
      have hemit : writeBackEvents (wbWrite x.core.wbReg) ++ due =
          system.emit x b ++ writeBackEvents (wbWrite (system.step x b).core.wbReg) := by
        have hw : (wbRegNext x.core (inputs x b)).rfWen = x.core.memReg.rfWen := by
          simp only [wbRegNext, hs, Bool.false_eq_true, if_false]
        have hw' : wbWrite (wbRegNext x.core (inputs x b)) =
            memWriteBack x.core.csrs (inputs x b) x.core.memReg := by
          unfold wbWrite memWriteBack
          rw [hw]
          rfl
        change _ = (_ ++ busEvents _ _) ++ writeBackEvents (wbWrite (wbRegNext _ _))
        rw [hd, hw', List.append_assoc]
      suffices h : ∃ entered, Tracks e (k + inMem.toNat) inExe entered (system.step x b) from
        ⟨_, _, h.choose, due, h.choose_spec, hdue, hemit⟩
      cases hrd : redirectFlg x.core with
      | true =>
          -- EX redirects: ID is dropped and IF starts at the target
          refine ⟨false, T.advance b hi hs (exeRegNext_idle hs ?_) fun _ => .empty ?_ ?_⟩
          · exact .inl (idInst_dropped (by rw [hrd, Bool.true_or]))
          · exact .inl (if_pos hrd)
          · exact T.redirect_pc hrd _
      | false =>
      cases hst : stallFlg x.core (inputs x b) with
      | true =>
          -- a hazard with EX: ID waits and a bubble enters EX
          refine ⟨false, T.advance b hi hs (exeRegNext_idle hs ?_) fun _ => ?_⟩
          · exact .inl (idInst_dropped (by rw [hst, Bool.or_true]))
          · exact T.front_hold hcode b hrd hst (T.front hrd)
      | false =>
      have hid : idInst x.core (inputs x b) = x.core.idReg.inst := by
        unfold idInst
        rw [hrd, hst]
        rfl
      cases T.front hrd with
      | empty hinst hpc =>
          refine ⟨false, T.advance b hi hs (exeRegNext_idle hs ?_) fun _ => ?_⟩
          · exact hid.symm ▸ hinst
          · exact T.front_flow hcode b hrd hst hpc
      | held hinst hpc hnext =>
          have hex := T.issue b hs hst hrd hinst hpc
          refine ⟨true, T.advance b hi hs hex fun h => ?_⟩
          have hr : redirects (e.state (k + inMem.toNat + inExe.toNat)) = false := by
            have hp := exeInterruptNext_none x.core (i := inputs x b) hi T.noInterrupt
            have hm : (CorePipeline.step x.core (inputs x b)).exeReg.mret = false :=
              (congrArg ExeReg.mret hex).trans (implements_state e _).mret
            rw [redirectFlg_eq hp hm] at h
            change (exeBranch (exeRegNext _ _) || exeJmpFlg (exeRegNext _ _)) = false at h
            rwa [hex] at h
          have hn := hnext hr
          rw [← pc_of_no_redirect e hr] at hn
          exact T.front_flow hcode b hrd hst hn

end Cycle

/-- The register file, CSRs and memory of reset are those of the reference. -/
theorem tracks_reset (startAddress : Word) (regfile : Reg → Word) (mem : Memory)
    (e : Execution (archReset startAddress regfile mem)) :
    Tracks e 0 false false (powerOn startAddress regfile mem) := by
  have h0 := e.start
  exact {
    mem := by
      rw [h0]
      rfl
    csrs := by
      rw [h0]
      funext n
      cases n <;> rfl
    regs := fun r hr => by
      rw [h0, ArchState.reg, if_neg hr]
      rfl
    memReg := ⟨.inl rfl, rfl, rfl, rfl⟩
    exeReg := ⟨.inl rfl, rfl, rfl, rfl, rfl, rfl⟩
    noInterrupt := rfl
    front := fun _ => by
      apply FrontEnd.empty
      · exact .inr rfl
      · change startAddress = (e.state 0).pc
        rw [h0]
        rfl }

/-- The pipeline as a refinement of an execution that keeps its code. -/
def pipelineRefinement (e : Execution s) (hcode : e.CodeIntact) :
    system.Refinement (fun b => b.interruptIn = false) e.trace where
  rel k x := ∃ inMem inExe, Tracks e k inMem inExe x
  owed x := writeBackEvents (wbWrite x.core.wbReg)
  step := by
    intro k x b hi hr
    obtain ⟨inMem, inExe, T⟩ := hr
    obtain ⟨k', inMem', inExe', due, T', hk, hd⟩ := T.step b hi hcode
    exact ⟨k', due, ⟨inMem', inExe', T'⟩, hk, hd⟩

/-- With the interrupt line low, for every bus schedule, the register writes and
the completed bus accesses of the core are a prefix of those of the reference. -/
theorem pipeline_refines_isa (startAddress : Word) (regfile : Reg → Word) (mem : Memory)
    (e : Execution (archReset startAddress regfile mem)) (hcode : e.CodeIntact)
    (bus : ℕ → BusCycle) (hirq : ∀ t, (bus t).interruptIn = false) (t : ℕ) :
    ∃ n, system.trace (powerOn startAddress regfile mem) bus t <+: e.trace n :=
  (pipelineRefinement e hcode).trace_isPrefix
    ⟨false, false, tracks_reset startAddress regfile mem e⟩ rfl hirq t

end Step

section LinkLoop

/-- Every word is JAL x1,0. -/
def linkLoop : Memory := fun a => if offset a = 0 then 0xef else 0

def linkRegs : Reg → Word := fun _ => startAddr + 4

/-- The loop stays at its first instruction and links to the next one forever. -/
def linkLoopExecution : Execution (archReset startAddr linkRegs linkLoop) where
  state _ := archReset startAddr linkRegs linkLoop
  outcome _ := { nextPc := startAddr, writeBack := some (1, startAddr + 4) }
  start := rfl
  defined _ := by decide +kernel
  next _ := congrArg
    (fun regs => { archReset startAddr linkRegs linkLoop with regs := regs })
    (Function.update_eq_self (1 : Reg) linkRegs).symm

theorem pipeline_refines_isa_link :
    (∃ n, system.trace (powerOn startAddr linkRegs linkLoop) (fun _ => ⟨true, true, 0, 0, false⟩) 8
      <+: linkLoopExecution.trace n) ∧
    .writeBack 1 (startAddr + 4) ∈
      system.trace (powerOn startAddr linkRegs linkLoop) (fun _ => ⟨true, true, 0, 0, false⟩) 8 :=
  ⟨pipeline_refines_isa _ _ _ linkLoopExecution (fun _ _ => rfl) _ (fun _ => rfl) 8,
    by decide +kernel⟩

end LinkLoop

end SeccampRiscvCpu.CoreRefinement
