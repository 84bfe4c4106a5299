import SeccampRiscvCpu.CoreProvenance

/-!
# Interrupt entry

ID accepts an interrupt and marks what it hands to EX; one cycle later EX saves
`exe_reg_pc` to `mepc` and redirects the fetch. Nothing kills the instruction
that entered EX together with the mark, and `exe_reg_pc` is a copy of
`id_reg_pc`, which is stale whenever ID holds a bubble and is not copied when EX
redirects. So both what the saved address names and whether that instruction
has taken effect depend on the cycle in which the interrupt is accepted.

`EffectsSafe` and `ReturnSafe` are conditions on that cycle and, as the older
instruction in MEM can still write the CSRs of the entry and a jump that waits
in EX can redirect again, on the cycle of the entry. In a run where every cycle
meets them, every interrupt is precise, as to effects and as to the return
address.
-/
namespace SeccampRiscvCpu.CoreInterrupts
open ByteMemory CoreRegisters CoreDecode CorePipeline CoreDatapath CoreRefinement ClockedMachine
open CoreProvenance

section Entry

/-- ID accepts an interrupt this cycle. -/
def accepts (s : Core) (i : Inputs) : Bool :=
  !memStallFlg s.memReg i && idHasPendingInterrupt s i && !s.exeInterrupt.hasPendingInterrupt

/-- The instruction in MEM writes one of the CSRs that an entry writes and a return reads. -/
def writesEntry (m : MemReg) : Prop :=
  m.csrCmd ≠ .x ∧ (m.csrAddr = 0x341 ∨ m.csrAddr = 0x300 ∨ m.csrAddr = 0x310)

instance (m : MemReg) : Decidable (writesEntry m) := inferInstanceAs (Decidable (_ ∧ _))

/-- The instruction in EX redirects the fetch, whether or not an interrupt is entered. -/
def ownRedirect (e : ExeReg) : Bool := e.mret || exeBranch e || exeJmpFlg e

/-- Whose address EX gets in `exe_reg_pc`. -/
def passedOn (x : Tagged) : Option Fetch := if redirectFlg x.core then x.exePc else x.idOwner

variable {x : Tagged} {i : Inputs}

theorem taken_iff (s : Core) (i : Inputs) :
    (step s i).exeInterrupt.hasPendingInterrupt = true ↔ accepts s i = true := by
  rw [step_exeInterrupt]
  unfold exeInterruptNext accepts
  cases hp : s.exeInterrupt.hasPendingInterrupt with
  | true => simp
  | false =>
      cases memStallFlg s.memReg i with
      | true => simp [hp]
      | false => simp [idInterrupt]

theorem accepts_flows {s : Core} (h : accepts s i = true) : memStallFlg s.memReg i = false := by
  simp only [accepts, Bool.and_eq_true, Bool.not_eq_true'] at h
  exact h.1.1

theorem exe_of_accepts (h : accepts x.core i = true) :
    (next x i).exe = if issues x i then x.idOwner else none := by
  rw [next_exe, accepts_flows h]
  rfl

theorem exePc_of_accepts (h : accepts x.core i = true) : (next x i).exePc = passedOn x := by
  rw [next_exePc, accepts_flows h]
  rfl

theorem redirectFlg_eq (s : Core) :
    redirectFlg s = (s.exeInterrupt.hasPendingInterrupt || ownRedirect s.exeReg) := by
  unfold redirectFlg exeBrFlg ownRedirect
  cases s.exeInterrupt.hasPendingInterrupt <;> cases s.exeReg.mret <;> rfl

theorem ownRedirect_idle {e : ExeReg} (h : ExeIdle e) : ownRedirect e = false := by
  rw [ownRedirect, h.mret, h.branch, h.jump]
  rfl

theorem csrWrite_mepc (c next : Csrs) (i : Inputs) {m : MemReg}
    (h : ¬(m.csrCmd ≠ .x ∧ m.csrAddr = 0x341)) : (csrWrite c next i m).mepc = next.mepc := by
  unfold csrWrite
  by_cases hc : m.csrCmd = .x
  · rw [if_pos hc]
  · rw [if_neg hc]
    split <;> first
      | rfl
      | exact absurd ⟨hc, ‹_›⟩ h

theorem csrWrite_mstatus (c next : Csrs) (i : Inputs) {m : MemReg}
    (h : ¬(m.csrCmd ≠ .x ∧ (m.csrAddr = 0x300 ∨ m.csrAddr = 0x310))) :
    (csrWrite c next i m).mstatus = next.mstatus := by
  unfold csrWrite
  by_cases hc : m.csrCmd = .x
  · rw [if_pos hc]
  · rw [if_neg hc]
    split <;> first
      | rfl
      | exact absurd ⟨hc, .inl ‹_›⟩ h
      | exact absurd ⟨hc, .inr ‹_›⟩ h

/-- What an instruction leaves as EX has it, unless it writes the CSRs of an entry. -/
theorem csrsNext_entry {s : Core} (h : ¬writesEntry s.memReg) (i : Inputs) :
    (csrsNext s i).mepc = (exeCsrs s).mepc ∧ (csrsNext s i).mstatus = (exeCsrs s).mstatus :=
  ⟨csrWrite_mepc _ _ _ fun h' => h ⟨h'.1, .inl h'.2⟩,
    csrWrite_mstatus _ _ _ fun h' => h ⟨h'.1, .inr h'.2⟩⟩

/-- Entry saves the pc of EX and closes the gate. -/
theorem exeCsrs_entry {s : Core} (h : s.exeInterrupt.hasPendingInterrupt = true)
    (hmret : s.exeReg.mret = false) :
    (exeCsrs s).mepc = s.exeReg.pc ∧ (exeCsrs s).mstatus.mie = false := by
  unfold exeCsrs
  rw [h, hmret]
  exact ⟨rfl, rfl⟩

theorem exeCsrs_plain {s : Core} (h : s.exeInterrupt.hasPendingInterrupt = false)
    (hmret : s.exeReg.mret = false) : exeCsrs s = s.csrs := by
  unfold exeCsrs
  rw [h, hmret]
  rfl

/-- Without MIE no interrupt is accepted. -/
theorem mark_closed {s : Core} (h : s.csrs.mstatus.mie = false) (i : Inputs) :
    (step s i).exeInterrupt.hasPendingInterrupt = false := by
  by_contra ht
  have ha := (taken_iff s i).mp (Bool.eq_true_of_not_eq_false ht)
  simp [accepts, idHasPendingInterrupt, h] at ha

/-- A mark lasts one cycle. -/
theorem mark_cleared {s : Core} (h : s.exeInterrupt.hasPendingInterrupt = true) (i : Inputs) :
    (step s i).exeInterrupt.hasPendingInterrupt = false := by
  rw [step_exeInterrupt, exeInterruptNext, h]
  rfl

end Entry

section Conditions
variable (x : Tagged) (i : Inputs)

/-- ID holds an instruction and a hazard with EX keeps it there. -/
def HeldInId : Prop :=
  redirectFlg x.core = false ∧ x.idLive = true ∧ stallFlg x.core i = true

instance : Decidable (HeldInId x i) := inferInstanceAs (Decidable (_ ∧ _))

/-- While an interrupt is entered the instruction in MEM does not write the CSRs of the
entry, and one that waits in EX does not redirect. -/
def EntrySafe (s : Core) : Prop :=
  s.exeInterrupt.hasPendingInterrupt = true →
    ¬writesEntry s.memReg ∧ (memStallFlg s.memReg i = true → ownRedirect s.exeReg = false)

/-- An interrupt is accepted only while the instruction whose address EX gets is
held in ID, or when its encoding has no effect and it is the last one that
entered EX. -/
def EffectsSafe : Prop :=
  (accepts x.core i = true → HeldInId x i ∨ ∃ o, passedOn x = some o ∧ EffectFree o.word ∧
      (if issues x i then x.idOwner else x.last) = some o) ∧
    EntrySafe i x.core

/-- An interrupt is accepted only while EX does not redirect and ID holds an
instruction, which a hazard keeps there or whose encoding has no effect. -/
def ReturnSafe : Prop :=
  (accepts x.core i = true → redirectFlg x.core = false ∧ x.idLive = true ∧
      (stallFlg x.core i = true ∨ ∀ o, x.idOwner = some o → EffectFree o.word)) ∧
    EntrySafe i x.core

end Conditions

section Entered
variable {x : Tagged} {i : Inputs} {o : Fetch} (C : Coherent x) (ha : accepts x.core i = true)
include C ha

theorem passedOn_pc (ho : passedOn x = some o) : (next x i).core.exeReg.pc = o.pc :=
  C.next.exePc o ((exePc_of_accepts ha).trans ho)

/-- Entry drops the instruction that was held in ID for good. -/
theorem held_dropped (hh : HeldInId x i) (ho : x.idOwner = some o) (i' : Inputs) :
    PastWb o (next (next x i) i') := by
  obtain ⟨hr, hl, hs⟩ := hh
  have hm := accepts_flows ha
  have hnot : ∀ {p}, PastId p x → p ≠ o := by
    intro p hp he
    subst he
    exact hp.id hl ho
  have hexe : (next x i).exe = none := by
    rw [next_exe, hm]
    simp [issues, hs]
  have hmem : (next x i).mem = x.exe := if_neg (by rw [hm]; exact Bool.false_ne_true)
  have hwb : (next x i).wb = x.mem := if_neg (by rw [hm]; exact Bool.false_ne_true)
  have hrd : redirectFlg (next x i).core = true := by
    have ht : (next x i).core.exeInterrupt.hasPendingInterrupt = true := (taken_iff x.core i).mpr ha
    rw [redirectFlg_eq, ht, Bool.true_or]
  exact {
    cycle := Nat.lt_succ_of_lt (Nat.lt_succ_of_lt (C.idOwner o ho).2)
    id := fun hl' => by
      rw [next_idLive, hrd] at hl'
      contradiction
    exe := by
      rw [next_exe, hexe, issues_of_redirectFlg hrd]
      split <;> exact fun he => absurd he.symm (Option.some_ne_none o)
    mem := by
      rw [next_mem, hexe, hmem]
      split
      · intro he
        exact hnot (C.exe o he) rfl
      · exact fun he => absurd he.symm (Option.some_ne_none o)
    wb := by
      rw [next_wb, hmem]
      split
      · exact fun he => absurd he.symm (Option.some_ne_none o)
      · intro he
        exact hnot (C.exe o he) rfl }

end Entered

section Handler

/-- After an entry nothing that was there before redirects, writes a CSR or lets an interrupt in. -/
structure Calm (s : Core) : Prop where
  mark : s.exeInterrupt.hasPendingInterrupt = false
  mie : s.csrs.mstatus.mie = false
  exe : ownRedirect s.exeReg = false
  exeCsr : s.exeReg.csrCmd = .x
  memCsr : s.memReg.csrCmd = .x

/-- No interrupt is let in and the saved address stands. -/
structure InHandler (saved : Word) (s : Core) : Prop where
  mark : s.exeInterrupt.hasPendingInterrupt = false
  mie : s.csrs.mstatus.mie = false
  mepc : s.csrs.mepc = saved

variable {x : Tagged} {i : Inputs} {saved : Word}

theorem Calm.redirectFlg {s : Core} (h : Calm s) : redirectFlg s = false := by
  rw [redirectFlg_eq, h.mark, h.exe]
  rfl

theorem mret_of_ownRedirect {e : ExeReg} (h : ownRedirect e = false) : e.mret = false :=
  (Bool.or_eq_false_iff.mp (Bool.or_eq_false_iff.mp h).1).1

/-- MEM writes no CSR in the next cycle if EX does not now. -/
theorem memCsr_next (C : Coherent x) (h : x.core.exeReg.csrCmd = .x) :
    (next x i).core.memReg.csrCmd = .x := by
  rw [next_core, step_memReg, memRegNext]
  split_ifs with hs
  · exact C.stall_csrCmd hs
  · exact h

/-- As long as nothing enters EX, EX holds what waits there or nothing. -/
theorem exe_next_quiet (C : Coherent x) (hi : issues x i = false)
    (h : memStallFlg x.core.memReg i = true →
      ownRedirect x.core.exeReg = false ∧ x.core.exeReg.csrCmd = .x) :
    ownRedirect (next x i).core.exeReg = false ∧ (next x i).core.exeReg.csrCmd = .x := by
  by_cases hs : memStallFlg x.core.memReg i = true
  · have hheld : (next x i).core.exeReg = x.core.exeReg := if_pos hs
    rw [hheld]
    exact h hs
  · have hnone : (next x i).exe = none := by
      rw [next_exe, if_neg hs, hi]
      rfl
    have hidle := C.next.exeEmpty hnone
    exact ⟨ownRedirect_idle hidle, hidle.csrCmd⟩

theorem Calm.next (C : Coherent x) (h : Calm x.core) (hi : issues x i = false) :
    Calm (next x i).core := by
  obtain ⟨hexe, hcsr⟩ := exe_next_quiet C hi fun _ => ⟨h.exe, h.exeCsr⟩
  have hentry : ¬writesEntry x.core.memReg := fun hw => hw.1 h.memCsr
  refine ⟨mark_closed h.mie i, ?_, hexe, hcsr, memCsr_next C h.exeCsr⟩
  rw [next_core, step_csrs, (csrsNext_entry hentry i).2,
    exeCsrs_plain h.mark (mret_of_ownRedirect h.exe)]
  exact h.mie

theorem InHandler.next {s : Core} (h : InHandler saved s) (hw : ¬writesEntry s.memReg)
    (hmret : s.exeReg.mret = false) (i : Inputs) : InHandler saved (step s i) := by
  obtain ⟨hmepc, hmstatus⟩ := csrsNext_entry hw i
  rw [exeCsrs_plain h.mark hmret] at hmepc hmstatus
  refine ⟨mark_closed h.mie i, ?_, ?_⟩
  · rw [step_csrs, hmstatus]
    exact h.mie
  · rw [step_csrs, hmepc]
    exact h.mepc

/-- A return from the handler goes on at the saved address. -/
theorem InHandler.returns (h : InHandler saved x.core) (hmret : x.core.exeReg.mret = true) :
    (CoreProvenance.next x i).pathPc = saved ∧
      (CoreProvenance.next x i).core.ifRegPc = saved := by
  have hr : CorePipeline.redirectFlg x.core = true := by
    rw [redirectFlg_eq, ownRedirect, hmret, Bool.true_or, Bool.true_or, Bool.or_true]
  have htarget : redirectTarget x.core = saved := by
    unfold redirectTarget exeBrFlg exeBrTarget
    rw [h.mark, hmret]
    exact h.mepc
  refine ⟨(if_pos hr).trans htarget, ?_⟩
  rw [next_core, step_ifRegPc, ifPcNext_redirect hr, htarget]

/-- The entry itself, with nothing in EX but what has no effect. -/
theorem entered (C : Coherent x) (ht : x.core.exeInterrupt.hasPendingInterrupt = true)
    (hmret : x.core.exeReg.mret = false) (hcsr : x.core.exeReg.csrCmd = .x)
    (hsafe : EntrySafe i x.core) :
    Calm (next x i).core ∧ InHandler x.core.exeReg.pc (next x i).core ∧
      (next x i).core.ifRegPc = x.core.exeInterrupt.exceptionTarget ∧
      (next x i).pathPc = x.core.exeInterrupt.exceptionTarget := by
  obtain ⟨hw, hstall⟩ := hsafe ht
  obtain ⟨hmepc, hmstatus⟩ := csrsNext_entry hw i
  obtain ⟨hsaved, hmie⟩ := exeCsrs_entry ht hmret
  have hr : CorePipeline.redirectFlg x.core = true := by
    rw [redirectFlg_eq, ht, Bool.true_or]
  have htarget : redirectTarget x.core = x.core.exeInterrupt.exceptionTarget := by
    unfold redirectTarget exeBrFlg exeBrTarget
    rw [ht]
    rfl
  obtain ⟨hexe, hcsr'⟩ := exe_next_quiet C (issues_of_redirectFlg hr) fun hs => ⟨hstall hs, hcsr⟩
  have hmie' : (next x i).core.csrs.mstatus.mie = false := by
    rw [next_core, step_csrs, hmstatus]
    exact hmie
  refine ⟨⟨mark_cleared ht i, hmie', hexe, hcsr', memCsr_next C hcsr⟩,
    ⟨mark_cleared ht i, hmie', hmepc.trans hsaved⟩, ?_, (if_pos hr).trans htarget⟩
  rw [next_core, step_ifRegPc, ifPcNext_redirect hr, htarget]

end Handler

section Precision
variable (startAddress : Word) (regfile : BitVec 5 → Word) (input : ℕ → Inputs)

/-- The interrupt taken in cycle `t + 1` saves the address of `o` and enters the handler, which
returns to it. The fetch is at the handler, and no redirect comes before one of its instructions
has entered EX. Until a CSR instruction writes `mepc` or `mstatus` or an MRET comes no interrupt
is let in, and the MRET goes on at `o`. -/
structure TrapTaken (t : ℕ) (o : Fetch) : Prop where
  mepc : (coreRun startAddress regfile input (t + 2)).core.csrs.mepc = o.pc
  handler : (coreRun startAddress regfile input (t + 2)).core.ifRegPc =
    (coreRun startAddress regfile input (t + 1)).core.exeInterrupt.exceptionTarget
  enters : ∀ u, t + 2 ≤ u →
    (∀ v, t + 2 ≤ v → v < u →
      issues (coreRun startAddress regfile input v) (input v) = false) →
    redirectFlg (coreRun startAddress regfile input u).core = false ∧
      ((∀ v, t + 2 ≤ v → v < u →
          swallows (coreRun startAddress regfile input v) (input v) = false) →
        ∀ p, EntersEx startAddress regfile input u p →
          p.pc = (coreRun startAddress regfile input (t + 1)).core.exeInterrupt.exceptionTarget)
  resumes : ∀ u, t + 2 ≤ u →
    (∀ v, t + 2 ≤ v → v < u →
      ¬writesEntry (coreRun startAddress regfile input v).core.memReg ∧
        (coreRun startAddress regfile input v).core.exeReg.mret = false) →
    (coreRun startAddress regfile input u).core.exeInterrupt.hasPendingInterrupt = false ∧
      ((coreRun startAddress regfile input u).core.exeReg.mret = true →
        (coreRun startAddress regfile input (u + 1)).pathPc = o.pc ∧
          (coreRun startAddress regfile input (u + 1)).core.ifRegPc = o.pc)

/-- The interrupt taken in cycle `t + 1` is precise as to effects: the
instruction whose address is saved takes none in the whole run, before or after,
and the program either goes on at that address or has come no further than this
instruction. Fetched again after the handler, it is another fetch. -/
def EffectsPreciseAt (t : ℕ) : Prop :=
  ∃ o, (coreRun startAddress regfile input (t + 1)).exePc = some o ∧
    TrapTaken startAddress regfile input t o ∧
    (∀ t', ¬TakesEffect (coreRun startAddress regfile input t') (input t') o) ∧
    ((coreRun startAddress regfile input (t + 1)).pathPc = o.pc ∨
      (coreRun startAddress regfile input (t + 1)).last = some o)

/-- The interrupt taken in cycle `t + 1` is precise as to the return address: it
is the address at which the program went on when the interrupt was accepted, of
an instruction that is in ID or EX, has been no further, and takes no effect. -/
def ReturnPreciseAt (t : ℕ) : Prop :=
  ∃ o, TrapTaken startAddress regfile input t o ∧
    (coreRun startAddress regfile input t).pathPc = o.pc ∧
    ((coreRun startAddress regfile input (t + 1)).idLive = true ∧
        (coreRun startAddress regfile input (t + 1)).idOwner = some o ∨
      (coreRun startAddress regfile input (t + 1)).exe = some o) ∧
    (∀ t' ≤ t + 1, (coreRun startAddress regfile input t').mem ≠ some o ∧
      (coreRun startAddress regfile input t').wb ≠ some o) ∧
    ∀ t', ¬TakesEffect (coreRun startAddress regfile input t') (input t') o

variable {startAddress regfile input}

theorem held_no_effect {t : ℕ} {o : Fetch}
    (ha : accepts (coreRun startAddress regfile input t).core (input t) = true)
    (hh : HeldInId (coreRun startAddress regfile input t) (input t))
    (ho : (coreRun startAddress regfile input t).idOwner = some o) (t' : ℕ) :
    ¬TakesEffect (coreRun startAddress regfile input t') (input t') o := by
  have C : Coherent (coreRun startAddress regfile input t) := coherent_run t
  have hdrop := held_dropped C ha hh ho (input (t + 1))
  obtain ⟨hr, hl, hs⟩ := hh
  have hl1 : (coreRun startAddress regfile input (t + 1)).idLive = true := by
    rw [coreRun_succ]
    simp only [next, hr, hs, hl, Bool.false_eq_true, if_false, if_true]
  have ho1 : (coreRun startAddress regfile input (t + 1)).idOwner = some o := by
    rw [coreRun_succ]
    simp only [next, latches, hs, ho, Bool.not_true, Bool.and_false, Bool.false_and,
      Bool.false_eq_true, if_false]
  obtain h | h := Nat.lt_or_ge (t + 1) t'
  · exact PastWb.no_effect (kept_from PastWb.next h hdrop)
  · exact not_before hl1 ho1 h

/-- As long as nothing has entered EX the core stays calm. -/
theorem Calm.run {s u : ℕ} (h : Calm (coreRun startAddress regfile input s).core) (hu : s ≤ u)
    (hnone : ∀ v, s ≤ v → v < u →
      issues (coreRun startAddress regfile input v) (input v) = false) :
    Calm (coreRun startAddress regfile input u).core := by
  induction hu with
  | refl => exact h
  | @step u hu ih =>
    have hnow := ih fun v hv hlt => hnone v hv (Nat.lt_succ_of_lt hlt)
    exact Calm.next (coherent_run u) hnow (hnone u hu (Nat.lt_succ_self u))

/-- Nor does the program go on anywhere else, unless an ECALL is fetched. -/
theorem Calm.pathPc_run {s u : ℕ} (h : Calm (coreRun startAddress regfile input s).core)
    (hu : s ≤ u)
    (hnone : ∀ v, s ≤ v → v < u →
      issues (coreRun startAddress regfile input v) (input v) = false)
    (hswallow : ∀ v, s ≤ v → v < u →
      swallows (coreRun startAddress regfile input v) (input v) = false) :
    (coreRun startAddress regfile input u).pathPc =
      (coreRun startAddress regfile input s).pathPc := by
  induction hu with
  | refl => rfl
  | @step u hu ih =>
    have hbefore : ∀ v, s ≤ v → v < u →
        issues (coreRun startAddress regfile input v) (input v) = false :=
      fun v hv hlt => hnone v hv (Nat.lt_succ_of_lt hlt)
    rw [← ih hbefore fun v hv hlt => hswallow v hv (Nat.lt_succ_of_lt hlt), coreRun_succ]
    simp only [CoreProvenance.next, (h.run hu hbefore).redirectFlg, hnone u hu (Nat.lt_succ_self u),
      hswallow u hu (Nat.lt_succ_self u), Bool.and_false, Bool.false_eq_true, if_false]

theorem InHandler.run {saved : Word} {s u : ℕ}
    (h : InHandler saved (coreRun startAddress regfile input s).core) (hu : s ≤ u)
    (hopen : ∀ v, s ≤ v → v < u →
      ¬writesEntry (coreRun startAddress regfile input v).core.memReg ∧
        (coreRun startAddress regfile input v).core.exeReg.mret = false) :
    InHandler saved (coreRun startAddress regfile input u).core := by
  induction hu with
  | refl => exact h
  | @step u hu ih =>
    have hnow := ih fun v hv hlt => hopen v hv (Nat.lt_succ_of_lt hlt)
    obtain ⟨hw, hmret⟩ := hopen u hu (Nat.lt_succ_self u)
    exact hnow.next hw hmret (input u)

section Taken
variable {t : ℕ}
  (ht : (coreRun startAddress regfile input (t + 1)).core.exeInterrupt.hasPendingInterrupt = true)
include ht

theorem accepts_of_taken :
    accepts (coreRun startAddress regfile input t).core (input t) = true :=
  (taken_iff _ _).mp ht

/-- An entry with nothing in EX, or with an instruction there that has no effect. -/
theorem trapTaken_of_taken {o : Fetch}
    (ho : passedOn (coreRun startAddress regfile input t) = some o)
    (hexe : ∀ p, (coreRun startAddress regfile input (t + 1)).exe = some p → EffectFree p.word)
    (hsafe : EntrySafe (input (t + 1)) (coreRun startAddress regfile input (t + 1)).core) :
    TrapTaken startAddress regfile input t o := by
  have C : ∀ v, Coherent (coreRun startAddress regfile input v) := coherent_run
  have hquiet : (coreRun startAddress regfile input (t + 1)).core.exeReg.mret = false ∧
      (coreRun startAddress regfile input (t + 1)).core.exeReg.csrCmd = .x := by
    cases he : (coreRun startAddress regfile input (t + 1)).exe with
    | none => exact ⟨((C (t + 1)).exeEmpty he).mret, ((C (t + 1)).exeEmpty he).csrCmd⟩
    | some p =>
      obtain ⟨hcontrols, hmret⟩ := (C (t + 1)).exeLive p he
      obtain ⟨hq, hne⟩ := hexe p he
      exact ⟨hmret.trans (beq_false_of_ne hne),
        (congrArg Controls.csrCmd hcontrols).trans hq.2.2.2⟩
  obtain ⟨hcalm, hhandler, hfetch, hpath⟩ := entered (C (t + 1)) ht hquiet.1 hquiet.2 hsafe
  rw [← coreRun_succ] at hcalm hhandler hfetch hpath
  have hpc : (coreRun startAddress regfile input (t + 1)).core.exeReg.pc = o.pc :=
    passedOn_pc (C t) (accepts_of_taken ht) ho
  rw [hpc] at hhandler
  refine ⟨hhandler.mepc, hfetch, fun u hu hnone => ⟨(hcalm.run hu hnone).redirectFlg, ?_⟩,
    fun u hu hopen => ?_⟩
  · intro hswallow p hp
    rw [← hp.path, ← hpath]
    exact hcalm.pathPc_run hu hnone hswallow
  · have hin := hhandler.run hu hopen
    exact ⟨hin.mark, hin.returns⟩

theorem effects_of_taken
    (h : ∀ t, EffectsSafe (coreRun startAddress regfile input t) (input t)) :
    EffectsPreciseAt startAddress regfile input t := by
  have ha := accepts_of_taken ht
  have hentry := (h (t + 1)).2
  obtain hh | ⟨o, ho, hf, hlast⟩ := (h t).1 ha
  · -- held in ID: entry drops it and the path goes on with it
    obtain ⟨hr, hl, hs⟩ := hh
    obtain ⟨o, ho, -⟩ := (coherent_run t).idLive hl
    have hpass : passedOn (coreRun startAddress regfile input t) = some o := by
      rw [passedOn, hr]
      exact ho
    have hstays : issues (coreRun startAddress regfile input t) (input t) = false := by
      rw [issues, hs, Bool.not_true, Bool.and_false]
    refine ⟨o, (exePc_of_accepts ha).trans hpass, trapTaken_of_taken ht hpass ?_ hentry,
      held_no_effect ha ⟨hr, hl, hs⟩ ho, .inl ?_⟩
    · intro p hp
      rw [coreRun_succ, exe_of_accepts ha, hstays] at hp
      cases hp
    rw [← live_path hl ho, coreRun_succ]
    simp only [next, issues, hr, hl, hs, Bool.not_true, Bool.and_false, Bool.false_and,
      Bool.false_eq_true, if_false]
  · -- no effect to take, wherever it is
    refine ⟨o, (exePc_of_accepts ha).trans ho, trapTaken_of_taken ht ho ?_ hentry,
      fun t' => (coherent_run t').effectFree hf, .inr ?_⟩
    · intro p hp
      rw [coreRun_succ, exe_of_accepts ha] at hp
      split_ifs at hp hlast with hi
      rw [hlast] at hp
      exact Option.some.inj hp ▸ hf
    · rw [coreRun_succ]
      exact hlast

theorem return_of_taken
    (h : ∀ t, ReturnSafe (coreRun startAddress regfile input t) (input t)) :
    ReturnPreciseAt startAddress regfile input t := by
  have ha := accepts_of_taken ht
  obtain ⟨hr, hl, hsf⟩ := (h t).1 ha
  obtain ⟨o, ho, -⟩ := (coherent_run t).idLive hl
  have hpass : passedOn (coreRun startAddress regfile input t) = some o := by
    rw [passedOn, hr]
    exact ho
  have hin : (coreRun startAddress regfile input (t + 1)).idLive = true ∧
      (coreRun startAddress regfile input (t + 1)).idOwner = some o ∨
      (coreRun startAddress regfile input (t + 1)).exe = some o := by
    rw [coreRun_succ]
    obtain hs | hs := Bool.eq_false_or_eq_true
      (stallFlg (coreRun startAddress regfile input t).core (input t))
    · left
      simp only [next, latches, hr, hl, hs, ho, Bool.not_true, Bool.and_false, Bool.false_and,
        Bool.false_eq_true, if_false, if_true, and_self]
    · right
      simp only [next, issues, accepts_flows ha, hr, hl, hs, ho, Bool.not_false, Bool.and_self,
        Bool.false_eq_true, if_false, if_true]
  have hnot : ¬PastExe o (coreRun startAddress regfile input (t + 1)) := by
    intro hp
    obtain ⟨hl', ho'⟩ | he := hin
    · exact hp.id hl' ho'
    · exact hp.exe he
  have htrap : TrapTaken startAddress regfile input t o := by
    refine trapTaken_of_taken ht hpass ?_ (h (t + 1)).2
    intro p hp
    rw [coreRun_succ, exe_of_accepts ha] at hp
    split_ifs at hp with hi
    rcases hsf with hs | hf
    · rw [issues, hs, Bool.not_true, Bool.and_false] at hi
      cases hi
    · exact hf p hp
  refine ⟨o, htrap, live_path hl ho, hin, fun t' hle => ⟨?_, ?_⟩, ?_⟩
  · intro hm
    exact hnot (kept_from PastExe.next hle ((coherent_run t').mem o hm))
  · intro hb
    exact hnot (kept_from PastExe.next hle ((coherent_run t').wb o hb).toPastExe)
  · obtain hs | hf := hsf
    · exact held_no_effect ha ⟨hr, hl, hs⟩ ho
    · exact fun t' => (coherent_run t').effectFree (hf o ho)

end Taken

end Precision

section Programs

/-- A program at the start address, little-endian. -/
def programMemory (program : List Word) : Memory := fun a =>
  byteAt (program.getD ((a - startAddr).toNat / 4) 0) (offset a).toNat

/-- What the core reads when it runs the program on this bus schedule. -/
def programInput (program : List Word) (bus : ℕ → BusCycle) (t : ℕ) : Inputs :=
  inputs (system.run (powerOn startAddr (fun _ => 0) (programMemory program)) bus t) (bus t)

/-- ADDI x5,x0,-2048; CSRRW x0,mie,x5; CSRRSI x0,mstatus,8: external interrupts are on. -/
def enableInterrupt : List Word := [0x80000293, 0x30429073, 0x30046073]

/-- Both buses always answer; the interrupt line is high in the cycles `irq`. -/
def fastBus (irq : ℕ → Bool) (t : ℕ) : BusCycle :=
  { imemValid := true, dmemRvalid := true, interruptIn := irq t }

/-- ADDI x1,x0,1; ADDI x2,x0,2; ADDI x3,x3,1, with the line high all the time. -/
def countInput : ℕ → Inputs :=
  programInput (enableInterrupt ++ [0x00100093, 0x00200113, 0x00118193]) (fastBus fun _ => true)

/-- JAL x0,0, with the line high all the time. -/
def spinInput : ℕ → Inputs := programInput (enableInterrupt ++ [0x0000006f]) (fastBus fun _ => true)

/-- The same with `mtvec` at the MRET behind ADDI x1,x1,1 five times; the line is high in
cycle 15 only, when the third of them waits in ID for the second. -/
def waitingInput : ℕ → Inputs :=
  programInput ([0x80000293, 0x30429073, 0x00000317, 0x02430313, 0x30531073, 0x30046073] ++
    List.replicate 5 0x00108093 ++ [0x30200073]) (fastBus (· == 15))

theorem accepts_line {s : Core} {i : Inputs} (h : accepts s i = true) : i.interruptIn = true := by
  by_contra hi
  rw [Bool.not_eq_true] at hi
  simp [accepts, no_interrupt s hi] at h

theorem waiting_accepts {s : Core} {t : ℕ} (h : accepts s (waitingInput t) = true) : t = 15 :=
  beq_iff_eq.mp (accepts_line h)

theorem waiting_held :
    HeldInId (coreRun startAddr (fun _ => 0) waitingInput 15) (waitingInput 15) := by
  decide +kernel

theorem waiting_entry (t : ℕ) :
    EntrySafe (waitingInput t) (coreRun startAddr (fun _ => 0) waitingInput t).core := by
  intro hmark
  cases t with
  | zero => cases hmark
  | succ t =>
    obtain rfl := waiting_accepts (accepts_of_taken hmark)
    have hcycle : ¬writesEntry (coreRun startAddr (fun _ => 0) waitingInput 16).core.memReg ∧
        memStallFlg (coreRun startAddr (fun _ => 0) waitingInput 16).core.memReg
          (waitingInput 16) = false := by decide +kernel
    refine ⟨hcycle.1, fun hs => ?_⟩
    exact absurd (hs.symm.trans hcycle.2) (by decide)

/-- The MRET is in EX in cycle 19, and nothing before it interferes. -/
theorem waiting_returns {o : Fetch}
    (h : TrapTaken startAddr (fun _ => 0) waitingInput 15 o) :
    (coreRun startAddr (fun _ => 0) waitingInput 20).core.ifRegPc = o.pc := by
  have hopen : ∀ v, 17 ≤ v → v < 19 →
      ¬writesEntry (coreRun startAddr (fun _ => 0) waitingInput v).core.memReg ∧
        (coreRun startAddr (fun _ => 0) waitingInput v).core.exeReg.mret = false := by
    intro v hv hlt
    obtain rfl | rfl : v = 17 ∨ v = 18 := by omega
    · decide +kernel
    · decide +kernel
  exact ((h.resumes 19 (by decide) hopen).2 (by decide +kernel)).2

end Programs

section Precise
variable {startAddress : Word} {regfile : BitVec 5 → Word} {input : ℕ → Inputs}

/-- Interrupts are precise as to effects in every run whose cycles are all safe: the
instruction at the saved address has made no effect when the handler returns to it. And every
instruction the program goes on with takes its effect exactly once, and no effect is without
an instruction. -/
theorem interrupts_precise_effects
    (h : ∀ t, EffectsSafe (coreRun startAddress regfile input t) (input t)) :
    (∀ t,
      (coreRun startAddress regfile input (t + 1)).core.exeInterrupt.hasPendingInterrupt = true →
      EffectsPreciseAt startAddress regfile input t) ∧
    (∀ o, EffectsOnce startAddress regfile input o) ∧
    ∀ t, EffectsOwned (coreRun startAddress regfile input t) (input t) :=
  ⟨fun _ ht => effects_of_taken ht h, effectsOnce startAddress regfile input,
    fun t => (coherent_run t).owned⟩

theorem interrupts_precise_effects_waiting :
    ∃ o, TrapTaken startAddr (fun _ => 0) waitingInput 15 o ∧
      (∀ t', ¬TakesEffect (coreRun startAddr (fun _ => 0) waitingInput t') (waitingInput t') o) ∧
      (coreRun startAddr (fun _ => 0) waitingInput 20).core.ifRegPc = o.pc := by
  have hprecise : EffectsPreciseAt startAddr (fun _ => 0) waitingInput 15 := by
    apply (interrupts_precise_effects ?_).1 15
    · decide +kernel
    · refine fun t => ⟨fun ha => ?_, waiting_entry t⟩
      cases waiting_accepts ha
      exact .inl waiting_held
  obtain ⟨o, -, htrap, hno, -⟩ := hprecise
  exact ⟨o, htrap, hno, waiting_returns htrap⟩

/-- The interrupt accepted in cycle 7 saves the address of ADDI x3,x3,1, which
writes x3 in cycle 10 all the same and again after the handler. -/
theorem interrupts_effects_counterexample :
    (coreRun startAddr (fun _ => 0) countInput 8).core.exeInterrupt.hasPendingInterrupt = true ∧
      ¬EffectsPreciseAt startAddr (fun _ => 0) countInput 7 := by
  refine ⟨by decide +kernel, ?_⟩
  intro hprecise
  rcases hprecise with ⟨o, ho, -, hno, -⟩
  have h : (coreRun startAddr (fun _ => 0) countInput 8).exePc =
      some ⟨6, 0x80000014, 0x00118193⟩ := by decide +kernel
  have heq := Option.some.inj (h.symm.trans ho)
  subst heq
  exact hno 10 (by decide +kernel)

/-- Interrupts are precise as to the return address in every run whose cycles are
all safe. -/
theorem interrupts_precise_return
    (h : ∀ t, ReturnSafe (coreRun startAddress regfile input t) (input t)) (t : ℕ)
    (ht : (coreRun startAddress regfile input (t + 1)).core.exeInterrupt.hasPendingInterrupt =
      true) :
    ReturnPreciseAt startAddress regfile input t :=
  return_of_taken ht h

theorem interrupts_precise_return_waiting :
    ∃ o, TrapTaken startAddr (fun _ => 0) waitingInput 15 o ∧
      (coreRun startAddr (fun _ => 0) waitingInput 15).pathPc = o.pc ∧
      (coreRun startAddr (fun _ => 0) waitingInput 20).core.ifRegPc = o.pc := by
  have hprecise : ReturnPreciseAt startAddr (fun _ => 0) waitingInput 15 := by
    apply interrupts_precise_return
    · refine fun t => ⟨fun ha => ?_, waiting_entry t⟩
      cases waiting_accepts ha
      obtain ⟨hr, hl, hs⟩ := waiting_held
      exact ⟨hr, hl, .inl hs⟩
    · decide +kernel
  obtain ⟨o, htrap, hpath, -⟩ := hprecise
  exact ⟨o, htrap, hpath, waiting_returns htrap⟩

/-- The interrupt accepted in cycle 7, in the bubble behind the jump, saves the
address after the loop. -/
theorem interrupts_return_counterexample :
    (coreRun startAddr (fun _ => 0) spinInput 8).core.exeInterrupt.hasPendingInterrupt = true ∧
      ¬ReturnPreciseAt startAddr (fun _ => 0) spinInput 7 := by
  refine ⟨by decide +kernel, ?_⟩
  intro hprecise
  rcases hprecise with ⟨o, ⟨hm, -, -, -⟩, hp, -⟩
  have h : (coreRun startAddr (fun _ => 0) spinInput 9).core.csrs.mepc ≠
      (coreRun startAddr (fun _ => 0) spinInput 7).pathPc := by decide +kernel
  exact h (hm.trans hp.symm)

end Precise

end SeccampRiscvCpu.CoreInterrupts
