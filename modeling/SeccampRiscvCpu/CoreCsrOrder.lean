import SeccampRiscvCpu.CoreInterrupts

/-!
# CSRs in program order

`sequentialCsrs` performs the CSR accesses of the instructions one after the
other, in the order in which they leave EX. The core writes CSRs one stage
later, in MEM, and lets a return from a trap read and write them in EX. So while
an MRET is in EX the write of the instruction in front of it is still to come:
its new `mepc` is missed, and where both write `mstatus` MEM wins. No stall
keeps the two apart.

An MRET that waits in EX for a load has changed `mstatus` already, but then no
CSR write is in front of it.
-/
namespace SeccampRiscvCpu.CoreCsrOrder
open ByteMemory CoreRegisters CoreDecode CorePipeline CoreDatapath CoreRefinement ClockedMachine
open CoreProvenance CoreInterrupts

section InOrder

/-- The CSRs after a return from a trap. -/
def afterMret (c : Csrs) : Csrs := { c with mstatus := { c.mstatus with mie := c.mstatus.mpie } }

/-- The CSRs after the instruction in EX, which finds them as `c`. -/
def inOrder (c : Csrs) (i : Inputs) (e : ExeReg) : Csrs :=
  if e.mret then afterMret c else csrWrite c c i (exeMem e)

/-- The CSRs after the instructions that have left EX before cycle `t`. -/
def sequentialCsrs (startAddress : Word) (regfile : BitVec 5 → Word) (input : ℕ → Inputs) :
    ℕ → Csrs
  | 0 => {}
  | t + 1 =>
    let s := (coreRun startAddress regfile input t).core
    let c := sequentialCsrs startAddress regfile input t
    if memStallFlg s.memReg (input t) then c else inOrder c (input t) s.exeReg

/-- An MRET leaves EX. -/
def returns (s : Core) (i : Inputs) : Bool := s.exeReg.mret && !memStallFlg s.memReg i

/-- The instruction in front of an MRET does not change `mepc`, and where it writes
`mstatus` or `mstatush` it leaves `mie` as `mpie`. -/
def MretSafe (s : Core) (i : Inputs) : Prop :=
  returns s i = true → s.memReg.csrCmd ≠ .x →
    let wdata := csrWdata s.memReg (csrRdata s.csrs i s.memReg.csrAddr)
    (s.memReg.csrAddr = 0x341 → wdata = s.csrs.mepc) ∧
    (s.memReg.csrAddr = 0x300 → wdata.getLsbD 3 = wdata.getLsbD 7) ∧
    (s.memReg.csrAddr = 0x310 → s.csrs.mstatus.mie = s.csrs.mstatus.mpie)

instance (s : Core) (i : Inputs) : Decidable (MretSafe s i) :=
  inferInstanceAs (Decidable (_ → _ → _))

/-- An MRET jumps to the `mepc` of all instructions before it, and leaves the CSRs as
they do, with `mie` restored. -/
def MretInOrder (startAddress : Word) (regfile : BitVec 5 → Word) (input : ℕ → Inputs) (t : ℕ) :
    Prop :=
  returns (coreRun startAddress regfile input t).core (input t) = true →
    (coreRun startAddress regfile input (t + 1)).core.ifRegPc =
      (sequentialCsrs startAddress regfile input t).mepc ∧
    (coreRun startAddress regfile input (t + 1)).core.csrs =
      afterMret (sequentialCsrs startAddress regfile input t)

instance (startAddress : Word) (regfile : BitVec 5 → Word) (input : ℕ → Inputs) (t : ℕ) :
    Decidable (MretInOrder startAddress regfile input t) := inferInstanceAs (Decidable (_ → _))

end InOrder

section Writes
variable (c : Csrs) {i i' : Inputs} {m : MemReg}

@[simp] theorem afterMret_afterMret : afterMret (afterMret c) = afterMret c := rfl

@[simp] theorem toMStatusL_mie (r : MStatusRegister) : r.toMStatusL[3] = r.mie := by
  rw [← BitVec.getLsbD_eq_getElem]
  simp only [MStatusRegister.toMStatusL, BitVec.getLsbD_append, boolBit]
  simp

@[simp] theorem toMStatusL_mpie (r : MStatusRegister) : r.toMStatusL[7] = r.mpie := by
  rw [← BitVec.getLsbD_eq_getElem]
  simp only [MStatusRegister.toMStatusL, BitVec.getLsbD_append, boolBit]
  simp

/-- The only input a CSR access can read is the interrupt line. -/
theorem csrWrite_inputs (next : Csrs) (h : i.interruptIn = i'.interruptIn) :
    csrWrite c next i m = csrWrite c next i' m := by
  have hmip : csrMip i = csrMip i' := by
    unfold csrMip
    rw [h]
  unfold csrWrite csrRdata
  rw [hmip]

/-- The write of MEM over an MRET, and the MRET after the write. -/
theorem csrWrite_afterMret_iff :
    csrWrite c (afterMret c) i m = afterMret (csrWrite c c i m) ↔
      (m.csrCmd ≠ .x →
        (m.csrAddr = 0x300 → (csrWdata m (csrRdata c i m.csrAddr)).getLsbD 3 =
          (csrWdata m (csrRdata c i m.csrAddr)).getLsbD 7) ∧
        (m.csrAddr = 0x310 → c.mstatus.mie = c.mstatus.mpie)) := by
  unfold csrWrite
  by_cases hcmd : m.csrCmd = .x
  · simp [hcmd]
  · simp only [hcmd, if_false, ne_eq, not_false_eq_true, true_implies]
    split
    all_goals simp_all [afterMret, MStatusRegister.ofWords]

end Writes

section Cycle
variable {x : Tagged} {i i' : Inputs} {s : Core} {seq : Csrs}

/-- A return from a trap is no CSR access. -/
theorem mret_csrCmd (C : Coherent x) (h : x.core.exeReg.mret = true) :
    x.core.exeReg.csrCmd = .x := by
  cases hexe : x.exe with
  | none =>
    rw [(C.exeEmpty hexe).mret] at h
    exact nomatch h
  | some o =>
    obtain ⟨hcontrols, hmret⟩ := C.exeLive o hexe
    rw [h] at hmret
    have hword : o.word = MRET := beq_iff_eq.mp hmret.symm
    rw [hword] at hcontrols
    exact congrArg Controls.csrCmd hcontrols

/-- How the CSRs of the core stand to those of the instructions that have left EX: MEM
brings the last write, or an MRET that waits in EX has done its own. -/
inductive Follows (seq : Csrs) (s : Core) (i : Inputs) : Prop
  | settled (hmem : csrWrite s.csrs s.csrs i s.memReg = seq)
  | returning (hmret : s.exeReg.mret = true) (hcmd : s.memReg.csrCmd = .x)
      (hcsrs : s.csrs = afterMret seq)

theorem Follows.settled_of_no_mret (h : Follows seq s i) (hmret : s.exeReg.mret = false) :
    csrWrite s.csrs s.csrs i s.memReg = seq := by
  cases h with
  | settled hmem => exact hmem
  | returning hwas =>
    rw [hmret] at hwas
    exact nomatch hwas

/-- What an MRET leaves of CSRs that MEM does not write. -/
theorem Follows.afterMret_csrs (h : Follows seq s i) (hcmd : s.memReg.csrCmd = .x) :
    afterMret s.csrs = afterMret seq := by
  cases h with
  | settled hmem => rw [← hmem, csrWrite_none _ _ _ hcmd]
  | returning _ _ hcsrs => rw [hcsrs, afterMret_afterMret]

variable (hp : s.exeInterrupt.hasPendingInterrupt = false)
include hp

theorem csrsNext_of_mret (hmret : s.exeReg.mret = true) :
    csrsNext s i = csrWrite s.csrs (afterMret s.csrs) i s.memReg := by
  simp only [csrsNext, exeCsrs, hp, hmret]
  rfl

theorem csrsNext_of_no_mret (hmret : s.exeReg.mret = false) :
    csrsNext s i = csrWrite s.csrs s.csrs i s.memReg := by
  simp only [csrsNext, exeCsrs, hp, hmret]
  rfl

theorem ifPcNext_of_mret (hmret : s.exeReg.mret = true) : ifPcNext s i = s.csrs.mepc := by
  simp only [ifPcNext, exeBrFlg, exeBrTarget, hp, hmret]
  rfl

/-- An MRET is in order exactly when the cycle in which it leaves EX is safe. -/
theorem Follows.mret_iff (h : Follows seq s i) (hreturns : returns s i = true) :
    (ifPcNext s i = seq.mepc ∧ csrsNext s i = afterMret seq) ↔ MretSafe s i := by
  obtain ⟨hmret, -⟩ : s.exeReg.mret = true ∧ memStallFlg s.memReg i = false := by
    simpa [returns] using hreturns
  rw [ifPcNext_of_mret hp hmret, csrsNext_of_mret hp hmret]
  simp only [MretSafe, hreturns, true_implies]
  cases h with
  | returning _ hcmd hcsrs =>
    -- the MRET has waited, and no write is in front of it
    rw [csrWrite_none _ _ _ hcmd, hcsrs]
    simp [hcmd, afterMret]
  | settled hmem =>
    rw [← hmem, csrWrite_afterMret_iff]
    by_cases hcmd : s.memReg.csrCmd = .x
    · simp [hcmd, csrWrite_none]
    · have hmepc : s.csrs.mepc = (csrWrite s.csrs s.csrs i s.memReg).mepc ↔
          (s.memReg.csrAddr = 0x341 →
            csrWdata s.memReg (csrRdata s.csrs i s.memReg.csrAddr) = s.csrs.mepc) := by
        by_cases haddr : s.memReg.csrAddr = 0x341
        · simp [csrWrite, hcmd, haddr, eq_comm]
        · rw [csrWrite_mepc _ _ _ fun h => haddr h.2]
          exact iff_of_true rfl fun h => absurd h haddr
      rw [hmepc]
      simp [hcmd]

omit hp in
/-- A safe cycle keeps the CSRs in step with program order. -/
theorem Follows.next (h : Follows seq x.core i) (C : Coherent x)
    (hp : x.core.exeInterrupt.hasPendingInterrupt = false)
    (hline : i.interruptIn = i'.interruptIn) (hsafe : MretSafe x.core i) :
    Follows (if memStallFlg x.core.memReg i then seq else inOrder seq i x.core.exeReg)
      (step x.core i) i' := by
  have hcsrs : (step x.core i).csrs = csrsNext x.core i := rfl
  cases hstall : memStallFlg x.core.memReg i with
  | true =>
    -- nothing leaves EX, but a waiting MRET restores `mie`
    have hcmd := C.stall_csrCmd hstall
    have hmem : (step x.core i).memReg = x.core.memReg := if_pos hstall
    have hexe : (step x.core i).exeReg = x.core.exeReg := if_pos hstall
    rw [if_pos rfl]
    cases hmret : x.core.exeReg.mret with
    | true =>
      refine .returning (hexe ▸ hmret) (hmem ▸ hcmd) ?_
      rw [hcsrs, csrsNext_of_mret hp hmret, csrWrite_none _ _ _ hcmd, h.afterMret_csrs hcmd]
    | false =>
      refine .settled ?_
      rw [hmem, csrWrite_none _ _ _ hcmd, hcsrs, csrsNext_of_no_mret hp hmret]
      exact h.settled_of_no_mret hmret
  | false =>
    have hmem : (step x.core i).memReg = exeMem x.core.exeReg := if_neg (by simp [hstall])
    rw [if_neg Bool.false_ne_true]
    refine .settled ?_
    rw [hmem, inOrder]
    cases hmret : x.core.exeReg.mret with
    | true =>
      have hreturns : returns x.core i = true := by simp [returns, hmret, hstall]
      have hcmd : (exeMem x.core.exeReg).csrCmd = .x := mret_csrCmd C hmret
      rw [csrWrite_none _ _ _ hcmd, if_pos rfl, hcsrs]
      exact ((h.mret_iff hp hreturns).mpr hsafe).2
    | false =>
      rw [hcsrs, csrsNext_of_no_mret hp hmret, h.settled_of_no_mret hmret,
        if_neg Bool.false_ne_true]
      exact csrWrite_inputs _ _ hline.symm

end Cycle

section Runs
variable {startAddress : Word} {regfile : BitVec 5 → Word} {input : ℕ → Inputs}
  (hirq : ∀ t, (input t).interruptIn = false)
include hirq

theorem no_pending (t : ℕ) :
    (coreRun startAddress regfile input t).core.exeInterrupt.hasPendingInterrupt = false := by
  induction t with
  | zero => rfl
  | succ t ih => exact exeInterruptNext_none _ (hirq t) ih

/-- As long as every cycle is safe the CSRs follow program order. -/
theorem follows_run {t : ℕ}
    (hsafe : ∀ u < t, MretSafe (coreRun startAddress regfile input u).core (input u)) :
    Follows (sequentialCsrs startAddress regfile input t)
      (coreRun startAddress regfile input t).core (input t) := by
  induction t with
  | zero => exact .settled rfl
  | succ t ih =>
    have hbefore := ih fun u hu => hsafe u (Nat.lt_succ_of_lt hu)
    have hline := (hirq t).trans (hirq (t + 1)).symm
    exact hbefore.next (coherent_run t) (no_pending hirq t) hline (hsafe t (Nat.lt_succ_self t))

/-- **Returns from traps in program order.** Without interrupts, in a run up to any cycle every
MRET finds and leaves the CSRs as in program order if and only if in every cycle in which one
leaves EX the instruction in front of it is safe. -/
theorem mret_in_order_iff (t : ℕ) :
    (∀ u ≤ t, MretInOrder startAddress regfile input u) ↔
      ∀ u ≤ t, MretSafe (coreRun startAddress regfile input u).core (input u) := by
  apply Machine.forall_iff_of_prefix
  intro u hsafe
  have hfollows := follows_run hirq hsafe
  constructor
  · intro h hreturns
    exact (hfollows.mret_iff (no_pending hirq u) hreturns).mp (h hreturns) hreturns
  · intro h hreturns
    exact (hfollows.mret_iff (no_pending hirq u) hreturns).mpr h

end Runs

section Programs

/-- LUI x1,0x80000; CSRRW x0,mepc,x1; then ADDI x0,x0,0 in front of MRET. -/
def spacedReturn : ℕ → Inputs :=
  programInput [0x800000b7, 0x34109073, 0x00000013, 0x30200073] (fastBus fun _ => false)

theorem mret_in_order_iff_spaced :
    returns (coreRun startAddr (fun _ => 0) spacedReturn 6).core (spacedReturn 6) = true ∧
      ∀ u ≤ 6, MretInOrder startAddr (fun _ => 0) spacedReturn u :=
  ⟨by decide +kernel, (mret_in_order_iff (fun _ => rfl) 6).mpr (by decide +kernel)⟩

/-- LUI x1,0x80000; CSRRW x0,mepc,x1; MRET. -/
def staleReturn : ℕ → Inputs :=
  programInput [0x800000b7, 0x34109073, 0x30200073] (fastBus fun _ => false)

/-- The MRET jumps to address zero, the `mepc` of reset. -/
theorem mret_in_order_counterexample :
    (∀ t, (staleReturn t).interruptIn = false) ∧
      returns (coreRun startAddr (fun _ => 0) staleReturn 5).core (staleReturn 5) = true ∧
      (sequentialCsrs startAddr (fun _ => 0) staleReturn 5).mepc = startAddr ∧
      (coreRun startAddr (fun _ => 0) staleReturn 6).core.ifRegPc = 0 ∧
      ¬∀ t, MretInOrder startAddr (fun _ => 0) staleReturn t := by
  refine ⟨fun _ => rfl, by decide +kernel, by decide +kernel, by decide +kernel, ?_⟩
  intro hall
  have hnot : ¬MretInOrder startAddr (fun _ => 0) staleReturn 5 := by decide +kernel
  exact hnot (hall 5)

end Programs

end SeccampRiscvCpu.CoreCsrOrder
