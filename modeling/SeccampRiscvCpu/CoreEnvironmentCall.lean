import SeccampRiscvCpu.CoreCsrOrder
import SeccampRiscvCpu.FairSchedules

/-!
# Environment calls

IF itself follows an ECALL to `mtvec`, in the cycle in which it is fetched and
even when ID cannot take it. So an ECALL fetched while ID is stalled is lost: the
fetch goes on at the handler, and nothing ever sets `mcause`. And the handler's
address is read three stages before an older CSR write arrives.

An ECALL that enters ID on the path waits there and in EX for the data bus only,
and reaches MEM unless the bus stops answering.
-/
namespace SeccampRiscvCpu.CoreEnvironmentCall
open ByteMemory CoreRegisters CoreDecode CorePipeline CoreDatapath CoreRefinement ClockedMachine
open CoreProvenance CoreInterrupts CoreCsrOrder FairSchedules

section Conditions

/-- `mtvec` after the CSR access of an instruction in MEM. -/
def mtvecAfter (mtvec : Word) (m : MemReg) : Word :=
  if m.csrCmd ≠ .x ∧ m.csrAddr = 0x305 then csrWdata m mtvec else mtvec

/-- ID takes the fetched word, and the instructions in MEM, EX and ID together leave
`mtvec` as it is. -/
def EcallSafe (s : Core) (i : Inputs) : Prop :=
  stallFlg s i = false ∧
    mtvecAfter (mtvecAfter (mtvecAfter s.csrs.trapVector s.memReg) (exeMem s.exeReg))
      (exeMem (idExe s i)) = s.csrs.trapVector

instance (s : Core) (i : Inputs) : Decidable (EcallSafe s i) := inferInstanceAs (Decidable (_ ∧ _))

variable (startAddress : Word) (regfile : BitVec 5 → Word) (input : ℕ → Inputs)

/-- Cycle `t` fetches an ECALL on the path of the program: EX does not redirect, nor does
what ID hands to EX when it next moves. -/
def EcallOnPath (t : ℕ) : Prop :=
  ifInst (input t) = ECALL ∧ redirectFlg (coreRun startAddress regfile input t).core = false ∧
    ∀ u, t ≤ u →
      (∀ v, t ≤ v → v < u → stallFlg (coreRun startAddress regfile input v).core (input v) = true) →
      stallFlg (coreRun startAddress regfile input u).core (input u) = false →
      redirectFlg (coreRun startAddress regfile input (u + 1)).core = false

/-- The ECALL fetched in cycle `t`. -/
def ecallFetch (t : ℕ) : Fetch := ⟨t, (coreRun startAddress regfile input t).core.ifRegPc, ECALL⟩

/-- The ECALL of cycle `t` is taken once: it enters ID, the fetch goes on at the `mtvec`
of all instructions before it, which are then in EX or have left it, and it sets `mcause`
once, unless the core waits for the data bus forever. -/
structure EcallTaken (t : ℕ) : Prop where
  live : (coreRun startAddress regfile input (t + 1)).idLive = true
  owner : (coreRun startAddress regfile input (t + 1)).idOwner =
    some (ecallFetch startAddress regfile input t)
  target : (coreRun startAddress regfile input (t + 1)).core.ifRegPc =
    (inOrder (sequentialCsrs startAddress regfile input (t + 1)) (input (t + 1))
      (coreRun startAddress regfile input (t + 1)).core.exeReg).trapVector
  once : ∀ u u', MemEffect (coreRun startAddress regfile input u) (input u)
      (ecallFetch startAddress regfile input t) →
    MemEffect (coreRun startAddress regfile input u') (input u')
      (ecallFetch startAddress regfile input t) → u = u'
  mcause : ∀ u, MemEffect (coreRun startAddress regfile input u) (input u)
      (ecallFetch startAddress regfile input t) →
    (coreRun startAddress regfile input (u + 1)).core.csrs.mcause = 11
  taken : (∃ u, MemEffect (coreRun startAddress regfile input u) (input u)
      (ecallFetch startAddress regfile input t)) ∨
    ∃ u, ∀ v, u ≤ v →
      memStallFlg (coreRun startAddress regfile input v).core.memReg (input v) = true

end Conditions

section TrapVector

theorem csrWrite_trapVector (c next : Csrs) (i : Inputs) (m : MemReg)
    (h : next.trapVector = c.trapVector) :
    (csrWrite c next i m).trapVector = mtvecAfter c.trapVector m := by
  unfold csrWrite mtvecAfter
  by_cases hcmd : m.csrCmd = .x
  · simp [hcmd, h]
  · by_cases haddr : m.csrAddr = 0x305
    · simp [hcmd, haddr, csrRdata]
    · rw [if_neg hcmd, if_neg fun hand => haddr hand.2, ← h]
      split <;> first
        | rfl
        | exact absurd ‹_› haddr

theorem inOrder_trapVector (c : Csrs) (i : Inputs) {e : ExeReg}
    (h : e.mret = true → e.csrCmd = .x) :
    (inOrder c i e).trapVector = mtvecAfter c.trapVector (exeMem e) := by
  unfold inOrder
  cases hmret : e.mret with
  | true =>
    have hcmd : (exeMem e).csrCmd = .x := h hmret
    simp [afterMret, mtvecAfter, hcmd]
  | false => exact csrWrite_trapVector c c i _ rfl

theorem exeCsrs_trapVector (s : Core) : (exeCsrs s).trapVector = s.csrs.trapVector := by
  unfold exeCsrs
  dsimp only
  split <;> split <;> rfl

variable {startAddress : Word} {regfile : BitVec 5 → Word} {input : ℕ → Inputs}

theorem trapVector_next (t : ℕ) :
    (coreRun startAddress regfile input (t + 1)).core.csrs.trapVector =
    mtvecAfter (coreRun startAddress regfile input t).core.csrs.trapVector
      (coreRun startAddress regfile input t).core.memReg :=
  csrWrite_trapVector _ _ _ _ (exeCsrs_trapVector _)

theorem mtvecAfter_none (mtvec : Word) {m : MemReg} (h : m.csrCmd = .x) :
    mtvecAfter mtvec m = mtvec := if_neg fun hand => hand.1 h

/-- With the access of MEM, `mtvec` is always that of program order. -/
theorem trapVector_follows (t : ℕ) :
    mtvecAfter (coreRun startAddress regfile input t).core.csrs.trapVector
      (coreRun startAddress regfile input t).core.memReg =
    (sequentialCsrs startAddress regfile input t).trapVector := by
  induction t with
  | zero => rfl
  | succ t ih =>
    have C : Coherent (coreRun startAddress regfile input t) := coherent_run t
    rw [trapVector_next, ih, sequentialCsrs]
    have hmem : (coreRun startAddress regfile input (t + 1)).core.memReg =
        memRegNext (coreRun startAddress regfile input t).core (input t) := rfl
    rw [hmem]
    unfold memRegNext
    cases hstall : memStallFlg (coreRun startAddress regfile input t).core.memReg (input t) with
    | true => exact mtvecAfter_none _ (C.stall_csrCmd hstall)
    | false => exact (inOrder_trapVector _ _ (mret_csrCmd C)).symm

end TrapVector

section Fetch
variable {startAddress : Word} {regfile : BitVec 5 → Word} {input : ℕ → Inputs}

theorem coreRun_time (t : ℕ) : (coreRun startAddress regfile input t).time = t := by
  induction t with
  | zero => rfl
  | succ t ih => rw [coreRun_succ, next_time, ih]

theorem ecall_valid {i : Inputs} (h : ifInst i = ECALL) :
    i.imemValid = true ∧ i.imemInst = ECALL := by
  unfold ifInst at h
  cases hvalid : i.imemValid with
  | true => exact ⟨rfl, by simpa [hvalid] using h⟩
  | false =>
    have hne : bubble ≠ ECALL := by decide
    rw [hvalid] at h
    exact absurd h hne

variable {t : ℕ} (h : ifInst (input t) = ECALL)
  (hr : redirectFlg (coreRun startAddress regfile input t).core = false)
include h hr

theorem ecall_target : (coreRun startAddress regfile input (t + 1)).core.ifRegPc =
    (coreRun startAddress regfile input t).core.csrs.trapVector := by
  rw [coreRun_succ, next_core, step_ifRegPc, ifPcNext_stay hr, if_pos h]

/-- ID takes the ECALL in the cycle in which it is fetched, or never. -/
theorem ecall_enters_iff : (coreRun startAddress regfile input (t + 1)).idOwner =
      some (ecallFetch startAddress regfile input t) ↔
    stallFlg (coreRun startAddress regfile input t).core (input t) = false := by
  obtain ⟨hvalid, hword⟩ := ecall_valid h
  rw [coreRun_succ, next_idOwner]
  cases hstall : stallFlg (coreRun startAddress regfile input t).core (input t) with
  | true =>
    have C : Coherent (coreRun startAddress regfile input t) := coherent_run t
    have hnot : latches (coreRun startAddress regfile input t) (input t) = false := by
      simp [latches, hstall]
    rw [hnot, if_neg Bool.false_ne_true]
    refine iff_of_false ?_ Bool.true_eq_false.mp
    intro howner
    have hcycle := (C.idOwner _ howner).2
    rw [coreRun_time] at hcycle
    exact Nat.lt_irrefl t hcycle
  | false =>
    have hlatches : latches (coreRun startAddress regfile input t) (input t) = true := by
      simp [latches, hr, hstall, hvalid]
    rw [hlatches, if_pos rfl, coreRun_time, hword]
    exact iff_of_true rfl rfl

theorem ecall_live
    (hstall : stallFlg (coreRun startAddress regfile input t).core (input t) = false) :
    (coreRun startAddress regfile input (t + 1)).idLive = true := by
  rw [coreRun_succ, next_idLive, hr, hstall]
  exact (ecall_valid h).1

end Fetch

section Target
variable {startAddress : Word} {regfile : BitVec 5 → Word} {input : ℕ → Inputs} {t : ℕ}

theorem flows_of_not_stalled {s : Core} {i : Inputs} (h : stallFlg s i = false) :
    memStallFlg s.memReg i = false := (Bool.or_eq_false_iff.mp h).2

/-- The `mtvec` of all instructions before an ECALL that ID takes in cycle `t`. -/
theorem mtvec_established (hr : redirectFlg (coreRun startAddress regfile input t).core = false)
    (hstall : stallFlg (coreRun startAddress regfile input t).core (input t) = false) :
    (inOrder (sequentialCsrs startAddress regfile input (t + 1)) (input (t + 1))
      (coreRun startAddress regfile input (t + 1)).core.exeReg).trapVector =
    mtvecAfter (mtvecAfter (mtvecAfter (coreRun startAddress regfile input t).core.csrs.trapVector
      (coreRun startAddress regfile input t).core.memReg)
      (exeMem (coreRun startAddress regfile input t).core.exeReg))
      (exeMem (idExe (coreRun startAddress regfile input t).core (input t))) := by
  have C : Coherent (coreRun startAddress regfile input t) := coherent_run t
  have C' : Coherent (coreRun startAddress regfile input (t + 1)) := coherent_run (t + 1)
  have hflows := flows_of_not_stalled hstall
  have hexe : (coreRun startAddress regfile input (t + 1)).core.exeReg =
      { idExe (coreRun startAddress regfile input t).core (input t) with
        pc := (coreRun startAddress regfile input t).core.idReg.pc } := by
    rw [coreRun_succ, next_core, step_exeReg]
    unfold exeRegNext
    rw [hflows, hr]
    rfl
  rw [inOrder_trapVector _ _ (mret_csrCmd C'), hexe, sequentialCsrs]
  simp only [hflows, Bool.false_eq_true, if_false]
  rw [inOrder_trapVector _ _ (mret_csrCmd C), trapVector_follows]
  rfl

end Target

section Progress
variable {startAddress : Word} {regfile : BitVec 5 → Word} {input : ℕ → Inputs}

/-- `o` waits in ID behind an instruction that lets it pass. -/
def WaitsInId (o : Fetch) (x : Tagged) : Prop :=
  x.idLive = true ∧ x.idOwner = some o ∧ redirectFlg x.core = false

/-- EX is the same as long as MEM waits, and so is what it makes of the fetch. -/
theorem redirectFlg_waiting {s : Core} {i : Inputs} (hm : memStallFlg s.memReg i = true)
    (hp : s.exeInterrupt.hasPendingInterrupt = false)
    (hp' : (step s i).exeInterrupt.hasPendingInterrupt = false) :
    redirectFlg (step s i) = redirectFlg s := by
  have hexe : (step s i).exeReg = s.exeReg := if_pos hm
  unfold redirectFlg exeBrFlg
  rw [hexe, hp, hp']

/-- An ECALL has no operands, so no hazard holds it in ID. -/
theorem ecall_stallFlg {s : Core} (h : s.idReg.inst = ECALL) (i : Inputs) :
    stallFlg s i = memStallFlg s.memReg i := by
  have hrs1 : idRs1Addr ECALL = 0 := rfl
  have hrs2 : idRs2Addr ECALL = 0 := rfl
  unfold stallFlg
  rw [h, hrs1, hrs2]
  simp [idDataHazard]

variable {o : Fetch} (ho : o.word = ECALL) {t : ℕ}
include ho

theorem waitsInId_inst (h : WaitsInId o (coreRun startAddress regfile input t)) :
    (coreRun startAddress regfile input t).core.idReg.inst = ECALL := by
  obtain ⟨hlive, howner, -⟩ := h
  obtain ⟨p, hp, hinst⟩ := (coherent_run t).idLive hlive
  have heq : p = o := Option.some.inj (hp.symm.trans howner)
  rw [hinst, heq, ho]

/-- An ECALL in MEM takes its effect at once. -/
theorem ecall_memEffect (hmem : (coreRun startAddress regfile input t).mem = some o) :
    MemEffect (coreRun startAddress regfile input t) (input t) o := by
  refine ⟨hmem, Or.inr (Or.inr ?_)⟩
  have hcontrols := (coherent_run t).memLive o hmem
  have hcmd : (coreRun startAddress regfile input t).core.memReg.csrCmd =
      (wordControls o.word).csrCmd := congrArg Controls.csrCmd hcontrols
  rw [hcmd, ho]
  decide

theorem waitsInId_moves (h : WaitsInId o (coreRun startAddress regfile input t))
    (hm : memStallFlg (coreRun startAddress regfile input t).core.memReg (input t) = false) :
    (coreRun startAddress regfile input (t + 1)).exe = some o := by
  have hstall : stallFlg (coreRun startAddress regfile input t).core (input t) = false :=
    (ecall_stallFlg (waitsInId_inst ho h) _).trans hm
  obtain ⟨hlive, howner, hr⟩ := h
  rw [coreRun_succ, next_exe, hm, howner]
  simp [issues, hlive, hr, hstall]

variable (hirq : ∀ t, (input t).interruptIn = false)
include hirq

theorem waitsInId_waits (h : WaitsInId o (coreRun startAddress regfile input t))
    (hm : memStallFlg (coreRun startAddress regfile input t).core.memReg (input t) = true) :
    WaitsInId o (coreRun startAddress regfile input (t + 1)) := by
  have hstall : stallFlg (coreRun startAddress regfile input t).core (input t) = true :=
    (ecall_stallFlg (waitsInId_inst ho h) _).trans hm
  obtain ⟨hlive, howner, hr⟩ := h
  rw [coreRun_succ]
  refine ⟨?_, ?_, ?_⟩
  · rw [next_idLive, hr, hstall, hlive]
    rfl
  · rw [next_idOwner, howner]
    simp [latches, hstall]
  · rw [next_core, redirectFlg_waiting hm (no_pending hirq t) (no_pending hirq (t + 1)), hr]

/-- An ECALL in ID on the path reaches MEM, unless the core waits for the bus forever. -/
theorem ecall_reaches (h : WaitsInId o (coreRun startAddress regfile input t)) :
    (∃ u, MemEffect (coreRun startAddress regfile input u) (input u) o) ∨
      ∃ u, ∀ v, u ≤ v →
        memStallFlg (coreRun startAddress regfile input v).core.memReg (input v) = true := by
  by_cases hforever : ∃ u, ∀ v, u ≤ v →
      memStallFlg (coreRun startAddress regfile input v).core.memReg (input v) = true
  · exact Or.inr hforever
  have hfree : ∀ u, ∃ v, u ≤ v ∧
      ¬ memStallFlg (coreRun startAddress regfile input v).core.memReg (input v) = true := by
    simpa using hforever
  left
  have hkeepId : ∀ u, WaitsInId o (coreRun startAddress regfile input u) →
      memStallFlg (coreRun startAddress regfile input u).core.memReg (input u) = true →
      WaitsInId o (coreRun startAddress regfile input (u + 1)) :=
    fun u hid hwait => waitsInId_waits ho hirq hid hwait
  have hkeepExe : ∀ u, (coreRun startAddress regfile input u).exe = some o →
      memStallFlg (coreRun startAddress regfile input u).core.memReg (input u) = true →
      (coreRun startAddress regfile input (u + 1)).exe = some o := by
    intro u hexe hwait
    rw [coreRun_succ, next_exe, if_pos hwait, hexe]
  obtain ⟨u, -, hid, hu⟩ := held_until_free hkeepId h (hfree t)
  have hexe := waitsInId_moves ho hid (Bool.not_eq_true _ ▸ hu)
  obtain ⟨v, -, hin, hv⟩ := held_until_free hkeepExe hexe (hfree (u + 1))
  have hmem : (coreRun startAddress regfile input (v + 1)).mem = some o := by
    rw [coreRun_succ, next_mem, if_neg hv, hin]
  exact ⟨v + 1, ecall_memEffect ho hmem⟩

end Progress

section Cause
variable {startAddress : Word} {regfile : BitVec 5 → Word} {input : ℕ → Inputs}

/-- The access of an ECALL is to `mcause`, in EX and in MEM. -/
structure EcallAddr (s : Core) : Prop where
  exe : s.exeReg.csrCmd = .e → s.exeReg.csrAddr = 0x342
  mem : s.memReg.csrCmd = .e → s.memReg.csrAddr = 0x342

theorem ecallAddr_step {s : Core} (h : EcallAddr s) (i : Inputs) : EcallAddr (step s i) := by
  constructor
  · rw [step_exeReg]
    unfold exeRegNext
    split
    · exact h.exe
    · intro hcmd
      exact if_pos hcmd
  · rw [step_memReg]
    unfold memRegNext
    split
    · exact h.mem
    · exact h.exe

theorem ecallAddr_run (t : ℕ) : EcallAddr (coreRun startAddress regfile input t).core := by
  have hreset : EcallAddr (tagReset startAddress regfile).core := by
    constructor <;> exact nofun
  exact tagged.run_invariant (fun x => EcallAddr x.core) hreset
    (fun t x hx => ecallAddr_step hx (input t)) t

theorem ecall_mcause {o : Fetch} (ho : o.word = ECALL) {t : ℕ}
    (hmem : (coreRun startAddress regfile input t).mem = some o) :
    (coreRun startAddress regfile input (t + 1)).core.csrs.mcause = 11 := by
  have hcontrols := (coherent_run t).memLive o hmem
  have hcmd : (coreRun startAddress regfile input t).core.memReg.csrCmd =
      (wordControls o.word).csrCmd := congrArg Controls.csrCmd hcontrols
  have hecall : (wordControls ECALL).csrCmd = .e := by decide
  rw [ho, hecall] at hcmd
  have haddr := (ecallAddr_run t).mem hcmd
  rw [coreRun_succ, next_core, step_csrs, csrsNext]
  unfold csrWrite
  rw [hcmd, if_neg (by decide), haddr]
  simp [csrWdata, hcmd]

end Cause

section Taken
variable {startAddress : Word} {regfile : BitVec 5 → Word} {input : ℕ → Inputs}

/-- One ECALL is taken as it should exactly when the cycle that fetches it is safe. -/
theorem ecall_taken (hirq : ∀ t, (input t).interruptIn = false) {t : ℕ}
    (h : EcallOnPath startAddress regfile input t) :
    EcallTaken startAddress regfile input t ↔
      EcallSafe (coreRun startAddress regfile input t).core (input t) := by
  obtain ⟨hecall, hr, hpath⟩ := h
  constructor
  · intro htaken
    have hstall := (ecall_enters_iff hecall hr).mp htaken.owner
    refine ⟨hstall, ?_⟩
    rw [← mtvec_established hr hstall, ← htaken.target, ecall_target hecall hr]
  · intro hsafe
    obtain ⟨hstall, hmtvec⟩ := hsafe
    have howner := (ecall_enters_iff hecall hr).mpr hstall
    have hlive := ecall_live hecall hr hstall
    have hr' : redirectFlg (coreRun startAddress regfile input (t + 1)).core = false :=
      hpath t (Nat.le_refl t) (fun v hv hlt => absurd hv (Nat.not_le.mpr hlt)) hstall
    constructor
    · exact hlive
    · exact howner
    · rw [ecall_target hecall hr, mtvec_established hr hstall, hmtvec]
    · exact fun u u' => memEffect_once
    · exact fun u heffect => ecall_mcause rfl heffect.1
    · exact ecall_reaches rfl hirq ⟨hlive, howner, hr'⟩

/-- **Environment calls.** Without interrupts, in a run up to any cycle every ECALL on the path
of the program is taken once, at the handler that all instructions before it establish, if and
only if ID takes each in the cycle in which it is fetched and the instructions then in flight
leave `mtvec` as it is. -/
theorem ecalls_taken_iff (hirq : ∀ t, (input t).interruptIn = false) (t : ℕ) :
    (∀ u ≤ t, EcallOnPath startAddress regfile input u → EcallTaken startAddress regfile input u) ↔
      ∀ u ≤ t, EcallOnPath startAddress regfile input u →
        EcallSafe (coreRun startAddress regfile input u).core (input u) := by
  apply forall₃_congr
  intro u _ honPath
  exact ecall_taken hirq honPath

/-- LUI x5,0x80000; CSRRW x0,mtvec,x5; ADDI x0,x0,0 three times; ECALL. -/
def handledEcall : ℕ → Inputs :=
  programInput [0x800002b7, 0x30529073, 0x00000013, 0x00000013, 0x00000013, 0x00000073]
    (fastBus fun _ => false)

theorem ecalls_taken_iff_handled :
    ifInst (handledEcall 6) = ECALL ∧ ∀ u ≤ 6, EcallOnPath startAddr (fun _ => 0) handledEcall u →
      EcallTaken startAddr (fun _ => 0) handledEcall u := by
  refine ⟨by decide +kernel, (ecalls_taken_iff (fun _ => rfl) 6).mpr ?_⟩
  have hsafe : ∀ u ≤ 6, ifInst (handledEcall u) = ECALL →
      EcallSafe (coreRun startAddr (fun _ => 0) handledEcall u).core (handledEcall u) := by
    decide +kernel
  intro u hu honPath
  exact hsafe u hu honPath.1

/-- LUI x5,0x80000; CSRRW x0,mtvec,x5; ADDI x0,x0,0 twice; ADDI x1,x0,1; ADDI x2,x1,1, which
waits for x1 in ID while ECALL is fetched. -/
def lostEcall : ℕ → Inputs :=
  programInput [0x800002b7, 0x30529073, 0x00000013, 0x00000013, 0x00100093, 0x00108113, 0x00000073]
    (fastBus fun _ => false)

theorem ecalls_taken_counterexample :
    (∀ t, (lostEcall t).interruptIn = false) ∧
      ¬∀ t, EcallOnPath startAddr (fun _ => 0) lostEcall t →
        EcallTaken startAddr (fun _ => 0) lostEcall t := by
  have hwaits : stallFlg (coreRun startAddr (fun _ => 0) lostEcall 7).core (lostEcall 7) =
      true := by decide +kernel
  have hfree : stallFlg (coreRun startAddr (fun _ => 0) lostEcall 8).core (lostEcall 8) =
      false := by decide +kernel
  have hr : redirectFlg (coreRun startAddr (fun _ => 0) lostEcall 9).core = false := by
    decide +kernel
  have honPath : EcallOnPath startAddr (fun _ => 0) lostEcall 7 := by
    refine ⟨by decide +kernel, by decide +kernel, ?_⟩
    intro u hu hbefore hmoves
    rcases Nat.lt_trichotomy u 8 with hlt | rfl | hlater
    · have heq : u = 7 := by omega
      rw [heq, hwaits] at hmoves
      exact nomatch hmoves
    · exact hr
    · have hstill := hbefore 8 (by omega) hlater
      rw [hfree] at hstill
      exact nomatch hstill
  refine ⟨fun _ => rfl, ?_⟩
  intro hall
  have howner : (coreRun startAddr (fun _ => 0) lostEcall 8).idOwner ≠
      some (ecallFetch startAddr (fun _ => 0) lostEcall 7) := by decide +kernel
  exact howner (hall 7 honPath).owner

end Taken

end SeccampRiscvCpu.CoreEnvironmentCall
