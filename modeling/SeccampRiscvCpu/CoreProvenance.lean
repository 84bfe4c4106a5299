import SeccampRiscvCpu.CoreRefinement
import SeccampRiscvCpu.FairSchedules

/-!
# Which instruction is where

The core forgets which fetch a value came from: the pc registers of ID and EX
are held over bubbles, stalls and redirects while the instruction registers are
replaced. Here every stage carries, next to its registers, the fetch it got
them from. The tags never influence the core; a fetch is named by the cycle in
which it reached ID.

`pathPc` is the address at which the program goes on after the instructions
that have entered EX: the target of a redirect, or the address that follows the
last of them. It is computed without the pc registers, so that an address the
core saves can be compared with it.
-/
namespace SeccampRiscvCpu.CoreProvenance
open ByteMemory CoreRegisters CoreDecode CorePipeline CoreDatapath CoreRefinement ClockedMachine
open FairSchedules

/-- A fetch that reached ID. -/
structure Fetch where
  cycle : ℕ
  pc : Word
  word : Word
  deriving DecidableEq, Repr

structure Tagged where
  core : Core
  time : ℕ := 0
  /-- whose address `id_reg_pc` holds -/
  idOwner : Option Fetch := none
  /-- ID holds that fetch, and not a bubble -/
  idLive : Bool := false
  /-- the address after the instruction in ID -/
  idNext : Word := 0
  /-- whose address `exe_reg_pc` holds -/
  exePc : Option Fetch := none
  exe : Option Fetch := none
  mem : Option Fetch := none
  wb : Option Fetch := none
  /-- the last one that entered EX -/
  last : Option Fetch := none
  pathPc : Word

section Step
variable (x : Tagged) (i : Inputs)

/-- A fetched word moves into ID. -/
def latches : Bool := !redirectFlg x.core && !stallFlg x.core i && i.imemValid

/-- The instruction in ID moves into EX. -/
def issues : Bool := x.idLive && !redirectFlg x.core && !stallFlg x.core i

/-- IF follows an ECALL that ID cannot take. -/
def swallows : Bool := !redirectFlg x.core && stallFlg x.core i && ifInst i == ECALL

def following (word pc trapVector : Word) : Word := if word = ECALL then trapVector else pc + 4

def redirectTarget (s : Core) : Word :=
  if exeBrFlg s then exeBrTarget s else exeAluOut s.exeReg

def next : Tagged where
  core := step x.core i
  time := x.time + 1
  idOwner := if latches x i then some ⟨x.time, x.core.ifRegPc, i.imemInst⟩ else x.idOwner
  idLive := if redirectFlg x.core then false
    else if stallFlg x.core i then x.idLive else i.imemValid
  idNext := if latches x i then following i.imemInst x.core.ifRegPc x.core.csrs.trapVector
    else if swallows x i then x.core.csrs.trapVector else x.idNext
  exePc := if memStallFlg x.core.memReg i || redirectFlg x.core then x.exePc else x.idOwner
  exe := if memStallFlg x.core.memReg i then x.exe
    else if issues x i then x.idOwner else none
  mem := if memStallFlg x.core.memReg i then x.mem else x.exe
  wb := if memStallFlg x.core.memReg i then none else x.mem
  last := if issues x i then x.idOwner else x.last
  pathPc := if redirectFlg x.core then redirectTarget x.core
    else if issues x i then x.idNext
    else if !x.idLive && swallows x i then x.core.csrs.trapVector else x.pathPc

@[simp] theorem next_core : (next x i).core = step x.core i := rfl

@[simp] theorem next_time : (next x i).time = x.time + 1 := rfl

theorem next_idOwner : (next x i).idOwner =
    if latches x i then some ⟨x.time, x.core.ifRegPc, i.imemInst⟩ else x.idOwner := rfl

theorem next_idLive : (next x i).idLive = if redirectFlg x.core then false
    else if stallFlg x.core i then x.idLive else i.imemValid := rfl

theorem next_exePc : (next x i).exePc =
    if memStallFlg x.core.memReg i || redirectFlg x.core then x.exePc else x.idOwner := rfl

theorem next_exe : (next x i).exe = if memStallFlg x.core.memReg i then x.exe
    else if issues x i then x.idOwner else none := rfl

theorem next_mem : (next x i).mem = if memStallFlg x.core.memReg i then x.mem else x.exe := rfl

theorem next_wb : (next x i).wb = if memStallFlg x.core.memReg i then none else x.mem := rfl

end Step

/-- The core with its tags; it shows nothing by itself. -/
def tagged : Machine Tagged Inputs Unit where
  step := next
  emit _ _ := []

def tagReset (startAddress : Word) (regfile : BitVec 5 → Word) : Tagged where
  core := reset startAddress regfile
  pathPc := startAddress

section Effects

/-- The part of an instruction's registers that decides on its effects. -/
structure Controls where
  rfWen : RfWen
  wbAddr : BitVec 5
  memWen : MemWen
  wbSel : WbSel
  csrCmd : CsrCmd
  deriving DecidableEq, Repr

def wordControls (word : Word) : Controls :=
  let sig := csignals word
  ⟨sig.rfWen, idWbAddr word, sig.memWen, sig.wbSel, sig.csrCmd⟩

def exeControls (e : ExeReg) : Controls := ⟨e.rfWen, e.wbAddr, e.memWen, e.wbSel, e.csrCmd⟩
def memControls (m : MemReg) : Controls := ⟨m.rfWen, m.wbAddr, m.memWen, m.wbSel, m.csrCmd⟩

/-- No register but `x0`, no data bus, no CSR. -/
def Controls.Quiet (c : Controls) : Prop :=
  (c.rfWen = .x ∨ c.wbAddr = 0) ∧ c.memWen = .x ∧ c.wbSel ≠ .mem ∧ c.csrCmd = .x

instance (c : Controls) : Decidable c.Quiet := inferInstanceAs (Decidable (_ ∧ _))

/-- The word writes a register. -/
def WritesReg (word : Word) : Prop :=
  (wordControls word).rfWen = .s ∧ (wordControls word).wbAddr ≠ 0

/-- The word accesses the data bus or a CSR. -/
def UsesMem (word : Word) : Prop :=
  (wordControls word).wbSel = .mem ∨ (wordControls word).memWen = .s ∨
    (wordControls word).csrCmd ≠ .x

theorem Controls.Quiet.idle {word : Word} (h : (wordControls word).Quiet) :
    ¬WritesReg word ∧ ¬UsesMem word := by
  obtain ⟨hwb, hw, hs, hc⟩ := h
  constructor
  · rintro ⟨hr, ha⟩
    rcases hwb with hx | h0
    · exact absurd (hr.symm.trans hx) (by decide)
    · exact ha h0
  · rintro (hsel | hwen | hcmd)
    · exact hs hsel
    · exact absurd (hwen.symm.trans hw) (by decide)
    · exact hcmd hc

/-- The encoding itself rules out any effect, a return from a trap included. -/
def EffectFree (word : Word) : Prop := (wordControls word).Quiet ∧ word ≠ MRET

instance (word : Word) : Decidable (EffectFree word) := inferInstanceAs (Decidable (_ ∧ _))

variable (x : Tagged) (i : Inputs) (o : Fetch)

/-- WB writes a register for `o`. -/
def WbEffect : Prop := x.wb = some o ∧ wbWrite x.core.wbReg ≠ none

/-- MEM completes a load, stores, or writes a CSR for `o`. -/
def MemEffect : Prop :=
  x.mem = some o ∧ (((dmemRequest x.core.memReg).ren && i.dmemRvalid) = true ∨
    (dmemRequest x.core.memReg).wen = true ∨ x.core.memReg.csrCmd ≠ .x)

/-- EX returns from a trap for `o`. -/
def MretEffect : Prop := x.exe = some o ∧ x.core.exeReg.mret = true

def TakesEffect : Prop := WbEffect x o ∨ MemEffect x i o ∨ MretEffect x o

/-- Nothing happens on behalf of nobody: every write and access has an instruction behind it. -/
structure EffectsOwned : Prop where
  wb : wbWrite x.core.wbReg ≠ none → ∃ o, WbEffect x o
  mem : ((dmemRequest x.core.memReg).ren && i.dmemRvalid) = true ∨
    (dmemRequest x.core.memReg).wen = true ∨ x.core.memReg.csrCmd ≠ .x → ∃ o, MemEffect x i o

instance : Decidable (WbEffect x o) := inferInstanceAs (Decidable (_ ∧ _))
instance : Decidable (MemEffect x i o) := inferInstanceAs (Decidable (_ ∧ _))
instance : Decidable (MretEffect x o) := inferInstanceAs (Decidable (_ ∧ _))
instance : Decidable (TakesEffect x i o) := inferInstanceAs (Decidable (_ ∨ _))

end Effects

section Position
variable {o : Fetch} {x : Tagged} {i : Inputs}

/-- `o` has left ID or never was there, and no later fetch can be taken for it. -/
structure PastId (o : Fetch) (x : Tagged) : Prop where
  cycle : o.cycle < x.time
  id : x.idLive = true → x.idOwner ≠ some o

structure PastExe (o : Fetch) (x : Tagged) : Prop extends PastId o x where
  exe : x.exe ≠ some o

structure PastMem (o : Fetch) (x : Tagged) : Prop extends PastExe o x where
  mem : x.mem ≠ some o

structure PastWb (o : Fetch) (x : Tagged) : Prop extends PastMem o x where
  wb : x.wb ≠ some o

theorem PastId.next (h : PastId o x) : PastId o (next x i) where
  cycle := Nat.lt_succ_of_lt h.cycle
  id hl := by
    rw [next_idOwner]
    rw [next_idLive] at hl
    split
    · intro ho
      have hc := congrArg Fetch.cycle (Option.some.inj ho)
      exact absurd hc (Nat.ne_of_gt h.cycle)
    next hla =>
      split at hl
      · contradiction
      next hr =>
        split at hl
        · exact h.id hl
        next hs =>
          simp [latches, hr, hs, hl] at hla

/-- What moves out of ID is past it. -/
theorem issue_pastId {p : Fetch} (hc : p.cycle < x.time) (hi : issues x i = true) :
    PastId p (next x i) where
  cycle := Nat.lt_succ_of_lt hc
  id hl := by
    rw [next_idOwner]
    rw [next_idLive] at hl
    simp only [issues, Bool.and_eq_true, Bool.not_eq_true'] at hi
    obtain ⟨⟨-, hr⟩, hs⟩ := hi
    rw [hr, hs] at hl
    simp only [Bool.false_eq_true, if_false] at hl
    rw [if_pos (by simp [latches, hr, hs, hl])]
    intro ho
    have h := congrArg Fetch.cycle (Option.some.inj ho)
    exact absurd h (Nat.ne_of_gt hc)

theorem issues_of_redirectFlg (h : redirectFlg x.core = true) : issues x i = false := by
  unfold issues
  rw [h]
  simp

theorem issues_live (h : issues x i = true) : x.idLive = true := by
  simp only [issues, Bool.and_eq_true] at h
  exact h.1.1

theorem PastExe.next (h : PastExe o x) : PastExe o (next x i) where
  toPastId := h.toPastId.next
  exe := by
    rw [next_exe]
    split
    · exact h.exe
    · split
      next hi => exact h.id (issues_live hi)
      next => exact nofun

theorem PastMem.next (h : PastMem o x) : PastMem o (next x i) where
  toPastExe := h.toPastExe.next
  mem := by
    rw [next_mem]
    split
    · exact h.mem
    · exact h.exe

theorem PastWb.next (h : PastWb o x) : PastWb o (next x i) where
  toPastMem := h.toPastMem.next
  wb := by
    rw [next_wb]
    split
    · exact nofun
    · exact h.mem

end Position

section Coherence

/-- What the tags have to do with the registers, in every reachable state. -/
structure Coherent (x : Tagged) : Prop where
  idOwner : ∀ o, x.idOwner = some o → x.core.idReg.pc = o.pc ∧ o.cycle < x.time
  idLive : x.idLive = true → ∃ o, x.idOwner = some o ∧ x.core.idReg.inst = o.word
  idEmpty : x.idLive = false → IdIdle x.core.idReg.inst
  exePc : ∀ o, x.exePc = some o → x.core.exeReg.pc = o.pc
  exe : ∀ o, x.exe = some o → PastId o x
  exeLive : ∀ o, x.exe = some o →
    exeControls x.core.exeReg = wordControls o.word ∧ x.core.exeReg.mret = (o.word == MRET)
  exeEmpty : x.exe = none → ExeIdle x.core.exeReg
  mem : ∀ o, x.mem = some o → PastExe o x
  memLive : ∀ o, x.mem = some o → memControls x.core.memReg = wordControls o.word
  memEmpty : x.mem = none → MemIdle x.core.memReg
  wb : ∀ o, x.wb = some o → PastMem o x
  wbLive : ∀ o, x.wb = some o → x.core.wbReg.rfWen = (wordControls o.word).rfWen ∧
    x.core.wbReg.wbAddr = (wordControls o.word).wbAddr
  wbEmpty : x.wb = none → wbWrite x.core.wbReg = none
  path : if x.idLive then x.core.idReg.pc = x.pathPc ∧ x.core.ifRegPc = x.idNext
    else x.core.ifRegPc = x.pathPc

theorem coherent_reset (startAddress : Word) (regfile : BitVec 5 → Word) :
    Coherent (tagReset startAddress regfile) where
  idOwner _ h := nomatch h
  idLive h := nomatch h
  idEmpty _ := .inr rfl
  exePc _ h := nomatch h
  exe _ h := nomatch h
  exeLive _ h := nomatch h
  exeEmpty _ := ⟨.inl rfl, rfl, rfl, rfl, rfl, rfl⟩
  mem _ h := nomatch h
  memLive _ h := nomatch h
  memEmpty _ := ⟨.inl rfl, rfl, rfl, rfl⟩
  wb _ h := nomatch h
  wbLive _ h := nomatch h
  wbEmpty _ := rfl
  path := rfl

variable {x : Tagged} {i : Inputs} (C : Coherent x)

theorem ifPcNext_redirect {s : Core} (h : redirectFlg s = true) (i : Inputs) :
    ifPcNext s i = redirectTarget s := by
  unfold ifPcNext redirectTarget
  cases hb : exeBrFlg s with
  | true => rfl
  | false =>
      rw [redirectFlg, hb, Bool.false_or] at h
      rw [h]
      rfl

theorem ifPcNext_stay {s : Core} {i : Inputs} (hr : redirectFlg s = false) :
    ifPcNext s i = if ifInst i = ECALL then s.csrs.trapVector
      else if stallFlg s i || !i.imemValid then s.ifRegPc else s.ifRegPc + 4 := by
  obtain ⟨hb, hj⟩ := no_redirect hr
  unfold ifPcNext
  rw [hb, hj]
  rfl

include C

/-- The word ID hands to EX: the owner's when it issues, a bubble otherwise. -/
theorem Coherent.idInst :
    (issues x i = true ∧ ∃ o, x.idOwner = some o ∧ CorePipeline.idInst x.core i = o.word) ∨
      (issues x i = false ∧ IdIdle (CorePipeline.idInst x.core i)) := by
  unfold CorePipeline.idInst issues
  cases hr : redirectFlg x.core with
  | true => exact .inr ⟨by simp, .inl rfl⟩
  | false =>
  cases hs : stallFlg x.core i with
  | true => exact .inr ⟨by simp, .inl rfl⟩
  | false =>
  cases hl : x.idLive with
  | true => exact .inl ⟨rfl, C.idLive hl⟩
  | false => exact .inr ⟨rfl, C.idEmpty hl⟩

/-- EX holds what its tag says, decoded, or nothing. -/
theorem Coherent.exeReg_next :
    (∀ o, (next x i).exe = some o →
      exeControls (next x i).core.exeReg = wordControls o.word ∧
        (next x i).core.exeReg.mret = (o.word == MRET)) ∧
    ((next x i).exe = none → ExeIdle (next x i).core.exeReg) := by
  rw [next_exe, next_core, step_exeReg]
  cases hs : memStallFlg x.core.memReg i with
  | true =>
      have hheld : exeRegNext x.core i = x.core.exeReg := if_pos hs
      rw [hheld]
      exact ⟨C.exeLive, C.exeEmpty⟩
  | false =>
  obtain ⟨hi, p, hp, hw⟩ | ⟨hi, hidle⟩ := C.idInst (i := i)
  · rw [hi, hp]
    refine ⟨?_, nofun⟩
    intro o ho
    cases ho
    unfold exeRegNext idExe
    rw [hs, hw]
    exact ⟨rfl, rfl⟩
  · rw [hi]
    exact ⟨nofun, fun _ => exeRegNext_idle hs hidle⟩

theorem Coherent.memReg_next :
    (∀ o, (next x i).mem = some o → memControls (next x i).core.memReg = wordControls o.word) ∧
    ((next x i).mem = none → MemIdle (next x i).core.memReg) := by
  rw [next_mem, next_core, step_memReg]
  unfold memRegNext
  cases memStallFlg x.core.memReg i with
  | true => exact ⟨C.memLive, C.memEmpty⟩
  | false => exact ⟨fun o ho => (C.exeLive o ho).1, fun h => (C.exeEmpty h).mem⟩

theorem Coherent.wbReg_next :
    (∀ o, (next x i).wb = some o → (next x i).core.wbReg.rfWen = (wordControls o.word).rfWen ∧
      (next x i).core.wbReg.wbAddr = (wordControls o.word).wbAddr) ∧
    ((next x i).wb = none → wbWrite (next x i).core.wbReg = none) := by
  rw [next_wb, next_core, step_wbReg]
  have hwb : wbWrite (wbRegNext x.core i) =
      if memStallFlg x.core.memReg i then none else memWriteBack x.core.csrs i x.core.memReg := by
    unfold wbWrite wbRegNext memWriteBack
    cases memStallFlg x.core.memReg i <;> rfl
  rw [hwb]
  cases hs : memStallFlg x.core.memReg i with
  | true => exact ⟨nofun, fun _ => rfl⟩
  | false =>
      refine ⟨fun o ho => ?_, fun h => memWriteBack_idle (C.memEmpty h) _⟩
      have hc := C.memLive o ho
      have hwen : (wbRegNext x.core i).rfWen = x.core.memReg.rfWen := if_neg (by simp [hs])
      rw [hwen]
      exact ⟨congrArg Controls.rfWen hc, congrArg Controls.wbAddr hc⟩

theorem Coherent.idOwner_next (o : Fetch) (ho : (next x i).idOwner = some o) :
    (next x i).core.idReg.pc = o.pc ∧ o.cycle < (next x i).time := by
  rw [next_idOwner] at ho
  simp only [next_core, next_time, step_idReg, idRegNext]
  split at ho
  next hla =>
    cases ho
    simp only [latches, redirectFlg, Bool.and_eq_true, Bool.not_eq_true', Bool.or_eq_false_iff]
      at hla
    obtain ⟨⟨⟨hb, hj⟩, hs⟩, hv⟩ := hla
    rw [hb, hj, hs, hv]
    exact ⟨rfl, Nat.lt_succ_self _⟩
  next hla =>
    obtain ⟨hpc, hc⟩ := C.idOwner o ho
    have hkeep : (stallFlg x.core i || exeBrFlg x.core || exeJmpFlg x.core.exeReg ||
        !i.imemValid) = true := by
      simp only [latches, redirectFlg] at hla
      cases hb : exeBrFlg x.core <;> cases hj : exeJmpFlg x.core.exeReg <;>
        cases hs : stallFlg x.core i <;> cases hv : i.imemValid <;> simp_all
    rw [if_pos hkeep]
    exact ⟨hpc, Nat.lt_succ_of_lt hc⟩

theorem Coherent.idLive_next (hl : (next x i).idLive = true) :
    ∃ o, (next x i).idOwner = some o ∧ (next x i).core.idReg.inst = o.word := by
  rw [next_idLive] at hl
  simp only [next_idOwner, next_core, step_idReg, idRegNext, latches]
  obtain hr | hr := Bool.eq_false_or_eq_true (redirectFlg x.core)
  · rw [hr] at hl
    contradiction
  rw [hr] at hl
  obtain hs | hs := Bool.eq_false_or_eq_true (stallFlg x.core i)
  · rw [hs] at hl
    simp only [hr, hs]
    exact C.idLive hl
  · rw [hs] at hl
    change i.imemValid = true at hl
    simp only [hr, hs, hl]
    refine ⟨_, rfl, ?_⟩
    simp only [ifInst, hl, if_true, Bool.false_eq_true, if_false]

theorem Coherent.idEmpty_next (hl : (next x i).idLive = false) :
    IdIdle (next x i).core.idReg.inst := by
  rw [next_idLive] at hl
  simp only [next_core, step_idReg, idRegNext]
  cases hr : redirectFlg x.core with
  | true => exact .inl rfl
  | false =>
  rw [hr] at hl
  cases hs : stallFlg x.core i with
  | true =>
      rw [hs] at hl
      exact C.idEmpty hl
  | false =>
      rw [hs] at hl
      change i.imemValid = false at hl
      simp only [ifInst, hl]
      exact .inl rfl

theorem Coherent.exePc_next (o : Fetch) (ho : (next x i).exePc = some o) :
    (next x i).core.exeReg.pc = o.pc := by
  rw [next_exePc] at ho
  rw [next_core, step_exeReg]
  unfold exeRegNext
  cases hm : memStallFlg x.core.memReg i with
  | true =>
      rw [hm] at ho
      exact C.exePc o ho
  | false =>
  cases hr : redirectFlg x.core with
  | true =>
      rw [hm, hr] at ho
      exact C.exePc o ho
  | false =>
      rw [hm, hr] at ho
      exact (C.idOwner o ho).1

theorem Coherent.exe_next (o : Fetch) (ho : (next x i).exe = some o) : PastId o (next x i) := by
  rw [next_exe] at ho
  split at ho
  · exact (C.exe o ho).next
  · split at ho
    next hi => exact issue_pastId (C.idOwner o ho).2 hi
    next => contradiction

theorem Coherent.mem_next (o : Fetch) (ho : (next x i).mem = some o) : PastExe o (next x i) := by
  rw [next_mem] at ho
  split at ho
  · exact (C.mem o ho).next
  next hm =>
    have hp := C.exe o ho
    refine ⟨hp.next, ?_⟩
    rw [next_exe, if_neg hm]
    split
    next hi => exact hp.id (issues_live hi)
    next => exact nofun

theorem Coherent.wb_next (o : Fetch) (ho : (next x i).wb = some o) : PastMem o (next x i) := by
  rw [next_wb] at ho
  split at ho
  · contradiction
  next hm =>
    have hp := C.mem o ho
    refine ⟨hp.next, ?_⟩
    rw [next_mem, if_neg hm]
    exact hp.exe

/-- IF is at the address the path continues with, whatever stalls it. -/
theorem Coherent.path_next : if (next x i).idLive then
      (next x i).core.idReg.pc = (next x i).pathPc ∧ (next x i).core.ifRegPc = (next x i).idNext
    else (next x i).core.ifRegPc = (next x i).pathPc := by
  simp only [next, step]
  obtain hr | hr := Bool.eq_false_or_eq_true (redirectFlg x.core)
  · simp only [hr, if_true, Bool.false_eq_true, if_false]
    exact ifPcNext_redirect hr i
  have hpath := C.path
  obtain ⟨hb, hj⟩ := no_redirect hr
  have hif := ifPcNext_stay (i := i) hr
  obtain hs | hs := Bool.eq_false_or_eq_true (stallFlg x.core i)
  · -- a stall keeps ID; IF moves only for an ECALL
    have hpc : (idRegNext x.core i).pc = x.core.idReg.pc := by
      simp only [idRegNext, hs, Bool.true_or, if_true]
    simp only [hr, hs, hif, hpc, issues, latches, swallows, Bool.not_true, Bool.not_false,
      Bool.and_false, Bool.false_and, Bool.true_and, Bool.true_or, Bool.false_eq_true, if_false,
      if_true, beq_iff_eq]
    cases hl : x.idLive with
    | true =>
        simp only [hl, if_true] at hpath ⊢
        refine ⟨hpath.1, ?_⟩
        split
        · rfl
        · exact hpath.2
    | false =>
        simp only [hl, Bool.false_eq_true, if_false, Bool.not_false, Bool.true_and,
          beq_iff_eq] at hpath ⊢
        split
        · rfl
        · exact hpath
  · -- ID takes the fetched word, or a bubble when there is none
    have hat : x.core.ifRegPc = if x.idLive then x.idNext else x.pathPc := by
      cases hl : x.idLive with
      | true =>
          rw [hl] at hpath
          exact hpath.2
      | false =>
          rw [hl] at hpath
          exact hpath
    simp only [hr, hs, issues, latches, swallows, Bool.not_false, Bool.and_true, Bool.and_false,
      Bool.false_and, Bool.true_and, Bool.false_eq_true, if_false]
    rw [← hat, hif, hs]
    cases hv : i.imemValid with
    | true =>
        have hpc : (idRegNext x.core i).pc = x.core.ifRegPc := by
          simp only [idRegNext, hs, hb, hj, hv, Bool.not_true, Bool.or_false, Bool.false_eq_true,
            if_false]
        have hw : ifInst i = i.imemInst := if_pos hv
        simp only [if_true, hpc, hw, following, true_and, Bool.not_true, Bool.or_false,
          Bool.false_eq_true, if_false]
    | false =>
        have hw : ifInst i = bubble := if_neg (by simp [hv])
        have hne : bubble ≠ ECALL := by decide
        simp only [hw, hne, if_false, Bool.not_false, Bool.or_true, Bool.false_eq_true, if_true]

theorem Coherent.next : Coherent (next x i) where
  idOwner := C.idOwner_next
  idLive := C.idLive_next
  idEmpty := C.idEmpty_next
  exePc := C.exePc_next
  exe := C.exe_next
  exeLive := C.exeReg_next.1
  exeEmpty := C.exeReg_next.2
  mem := C.mem_next
  memLive := C.memReg_next.1
  memEmpty := C.memReg_next.2
  wb := C.wb_next
  wbLive := C.wbReg_next.1
  wbEmpty := C.wbReg_next.2
  path := C.path_next

end Coherence

section Attribution
variable {x : Tagged} {i : Inputs} {o : Fetch}

theorem PastWb.no_effect (h : PastWb o x) : ¬TakesEffect x i o := by
  intro ht
  rcases ht with h' | h' | h'
  · exact h.wb h'.1
  · exact h.mem h'.1
  · exact h.exe h'.1

/-- Only a load waits for the bus, and a load does nothing else there. -/
theorem wordControls_load {word : Word} (h : (wordControls word).wbSel = .mem) :
    (wordControls word).memWen = .x ∧ (wordControls word).csrCmd = .x := by
  have hrows : ∀ row ∈ csignalsTable, row.2.wbSel = .mem → row.2.memWen = .x ∧ row.2.csrCmd = .x := by
    decide
  revert h
  unfold wordControls csignals
  cases h : csignalsTable.find? fun row => row.1.matchesWord word with
  | none => exact nofun
  | some row => exact hrows row (List.mem_of_find?_eq_some h)

variable (C : Coherent x)
include C

theorem Coherent.wbEffect_writes (h : WbEffect x o) : WritesReg o.word := by
  obtain ⟨hr, ha⟩ := C.wbLive o h.1
  rw [WritesReg, ← hr, ← ha]
  by_contra hnot
  apply h.2
  unfold wbWrite
  split_ifs with hs
  · have h0 : x.core.wbReg.wbAddr = 0 := by
      by_contra hne
      exact hnot ⟨hs, hne⟩
    rw [h0]
    rfl
  · rfl

theorem Coherent.memEffect_uses (h : MemEffect x i o) : UsesMem o.word := by
  have hl := C.memLive o h.1
  rw [UsesMem, ← hl]
  obtain h | h | h := h.2
  · exact .inl (beq_iff_eq.mp (Bool.and_eq_true_iff.mp h).1)
  · exact .inr (.inl (beq_iff_eq.mp h))
  · exact .inr (.inr h)

/-- An instruction whose encoding has no effect never takes one. -/
theorem Coherent.effectFree (h : EffectFree o.word) : ¬TakesEffect x i o := by
  obtain ⟨hreg, hmem⟩ := h.1.idle
  intro ht
  rcases ht with ht | ht | ⟨ho, ht⟩
  · exact hreg (C.wbEffect_writes ht)
  · exact hmem (C.memEffect_uses ht)
  · rw [(C.exeLive o ho).2] at ht
    exact h.2 (beq_iff_eq.mp ht)

theorem Coherent.owned : EffectsOwned x i where
  wb h := by
    cases hw : x.wb with
    | none => exact absurd (C.wbEmpty hw) h
    | some o => exact ⟨o, hw, h⟩
  mem h := by
    cases hm : x.mem with
    | none =>
        have hidle := C.memEmpty hm
        simp [dmemRequest, hidle.wbSel, hidle.memWen, hidle.csrCmd] at h
    | some o => exact ⟨o, hm, h⟩

/-- An instruction does not wait in MEM after its effect there. -/
theorem Coherent.memEffect_moves (h : MemEffect x i o) : memStallFlg x.core.memReg i = false := by
  by_contra hs
  rw [Bool.not_eq_false] at hs
  have hm := wbSel_of_stall hs
  have hl := C.memLive o h.1
  have hwen : x.core.memReg.memWen = (wordControls o.word).memWen := congrArg Controls.memWen hl
  have hcmd : x.core.memReg.csrCmd = (wordControls o.word).csrCmd := congrArg Controls.csrCmd hl
  obtain ⟨hw, hc⟩ := wordControls_load ((congrArg Controls.wbSel hl).symm.trans hm)
  rw [← hwen] at hw
  rw [← hcmd] at hc
  obtain h | h | h := h.2
  · simp [memStallFlg, dmemRequest, hm] at hs h
    rw [hs] at h
    contradiction
  · simp [dmemRequest, hw] at h
  · exact h hc

/-- While MEM waits it writes no CSR. -/
theorem Coherent.stall_csrCmd (h : memStallFlg x.core.memReg i = true) :
    x.core.memReg.csrCmd = .x := by
  by_contra hcmd
  obtain ⟨o, ho⟩ := C.owned.mem (.inr (.inr hcmd))
  rw [C.memEffect_moves ho] at h
  exact nomatch h

/-- An instruction that leaves MEM has made its access there. -/
theorem Coherent.memEffect_made (ho : x.mem = some o) (hs : memStallFlg x.core.memReg i = false)
    (h : UsesMem o.word) : MemEffect x i o := by
  rw [UsesMem, ← C.memLive o ho] at h
  refine ⟨ho, ?_⟩
  rcases h with hsel | hwen | hcmd
  · have hren : (dmemRequest x.core.memReg).ren = true := beq_iff_eq.mpr hsel
    rw [memStallFlg, hren, Bool.true_and, Bool.not_eq_false'] at hs
    exact .inl (by rw [hren, hs]; rfl)
  · exact .inr (.inl (beq_iff_eq.mpr hwen))
  · exact .inr (.inr hcmd)

/-- It writes its register in the next cycle. -/
theorem Coherent.wbEffect_made (ho : x.mem = some o) (hs : memStallFlg x.core.memReg i = false)
    (h : WritesReg o.word) : WbEffect (CoreProvenance.next x i) o := by
  rw [WritesReg, ← C.memLive o ho] at h
  have hr : x.core.memReg.rfWen = .s := h.1
  have ha : x.core.memReg.wbAddr ≠ 0 := h.2
  refine ⟨(if_neg (by rw [hs]; exact Bool.false_ne_true)).trans ho, ?_⟩
  rw [next_core, step_wbReg]
  simpa [wbWrite, wbRegNext, hs, hr, RiscvIsa.toReg] using ha

theorem Coherent.memEffect_leaves (h : MemEffect x i o) :
    PastMem o (CoreProvenance.next x i) := by
  have hp := C.mem o h.1
  refine ⟨hp.next, ?_⟩
  rw [next_mem, C.memEffect_moves h]
  exact hp.exe

theorem Coherent.wbEffect_leaves (h : WbEffect x o) :
    PastWb o (CoreProvenance.next x i) := by
  have hp := C.wb o h.1
  refine ⟨hp.next, ?_⟩
  rw [next_wb]
  split
  · exact nofun
  · exact hp.mem

end Attribution

section Runs
variable (startAddress : Word) (regfile : BitVec 5 → Word) (input : ℕ → Inputs)

/-- The tagged core before cycle `t`. -/
def coreRun (t : ℕ) : Tagged := tagged.run (tagReset startAddress regfile) input t

variable {startAddress regfile input}

theorem coreRun_succ (t : ℕ) : coreRun startAddress regfile input (t + 1) =
    next (coreRun startAddress regfile input t) (input t) := rfl

theorem coherent_run (t : ℕ) : Coherent (coreRun startAddress regfile input t) :=
  tagged.run_invariant Coherent (coherent_reset startAddress regfile) (fun _ _ C => C.next) t

/-- A fact about one fetch that every cycle keeps, once it holds, holds from then on. -/
theorem kept_from {P : Tagged → Prop} (hP : ∀ {x i}, P x → P (next x i)) {t t' : ℕ}
    (h : t ≤ t') (ht : P (coreRun startAddress regfile input t)) :
    P (coreRun startAddress regfile input t') := by
  induction h with
  | refl => exact ht
  | step _ ih => exact hP ih

variable {o : Fetch} {t t' : ℕ}

/-- WB writes at most once for a fetch. -/
theorem wbEffect_once (h : WbEffect (coreRun startAddress regfile input t) o)
    (h' : WbEffect (coreRun startAddress regfile input t') o) : t = t' := by
  by_contra hne
  wlog hlt : t < t' generalizing t t'
  · exact this h' h (Ne.symm hne) (by omega)
  · have hp := (coherent_run t).wbEffect_leaves (i := input t) h
    exact PastWb.wb (kept_from PastWb.next hlt hp) h'.1

/-- MEM completes its access and its CSR write at most once for a fetch. -/
theorem memEffect_once (h : MemEffect (coreRun startAddress regfile input t) (input t) o)
    (h' : MemEffect (coreRun startAddress regfile input t') (input t') o) : t = t' := by
  by_contra hne
  wlog hlt : t < t' generalizing t t'
  · exact this h' h (Ne.symm hne) (by omega)
  · have hp := (coherent_run t).memEffect_leaves h
    exact PastMem.mem (kept_from PastMem.next hlt hp) h'.1

/-- The fetch moves from ID into EX. -/
def EntersEx (startAddress : Word) (regfile : BitVec 5 → Word) (input : ℕ → Inputs) (t : ℕ)
    (o : Fetch) : Prop :=
  issues (coreRun startAddress regfile input t) (input t) = true ∧
    (coreRun startAddress regfile input t).idOwner = some o

/-- The address of what ID holds is the one the program goes on at. -/
theorem live_path (hl : (coreRun startAddress regfile input t).idLive = true)
    (ho : (coreRun startAddress regfile input t).idOwner = some o) :
    (coreRun startAddress regfile input t).pathPc = o.pc := by
  have C : Coherent (coreRun startAddress regfile input t) := coherent_run t
  have hp := C.path
  rw [hl] at hp
  rw [← (C.idOwner o ho).1]
  exact hp.1.symm

theorem EntersEx.path (h : EntersEx startAddress regfile input t o) :
    (coreRun startAddress regfile input t).pathPc = o.pc := live_path (issues_live h.1) h.2

theorem EntersEx.once (h : EntersEx startAddress regfile input t o)
    (h' : EntersEx startAddress regfile input t' o) : t = t' := by
  by_contra hne
  wlog hlt : t < t' generalizing t t'
  · exact this h' h (Ne.symm hne) (by omega)
  · have hc := ((coherent_run t).idOwner o h.2).2
    have hp := kept_from PastId.next hlt (issue_pastId hc h.1)
    exact hp.id (issues_live h'.1) h'.2

/-- Whatever is in a stage behind ID has entered EX. -/
theorem entered_before (h : (coreRun startAddress regfile input t).exe = some o ∨
      (coreRun startAddress regfile input t).mem = some o ∨
      (coreRun startAddress regfile input t).wb = some o) :
    ∃ t' < t, EntersEx startAddress regfile input t' o := by
  induction t with
  | zero => rcases h with h | h | h <;> cases h
  | succ t ih =>
    have hbefore : ((coreRun startAddress regfile input t).exe = some o ∨
        (coreRun startAddress regfile input t).mem = some o ∨
        (coreRun startAddress regfile input t).wb = some o) →
        ∃ t' < t + 1, EntersEx startAddress regfile input t' o := by
      intro hstage
      obtain ⟨t', hlt, hin⟩ := ih hstage
      exact ⟨t', Nat.lt_succ_of_lt hlt, hin⟩
    rw [coreRun_succ, next_exe, next_mem, next_wb] at h
    rcases h with h | h | h
    · split_ifs at h with hs hi
      · exact hbefore (.inl h)
      · exact ⟨t, Nat.lt_succ_self t, hi, h⟩
    · split_ifs at h with hs
      · exact hbefore (.inr (.inl h))
      · exact hbefore (.inl h)
    · split_ifs at h with hs
      exact hbefore (.inr (.inl h))

/-- The data bus answers again and again. -/
def BusAnswers (input : ℕ → Inputs) : Prop := ∀ t, ∃ u, t ≤ u ∧ (input u).dmemRvalid = true

/-- What a stage in front of a load holds moves on when the load is answered. -/
theorem moves_on (hbus : BusAnswers input) {P : Tagged → Prop}
    (hkeep : ∀ u, P (coreRun startAddress regfile input u) →
      memStallFlg (coreRun startAddress regfile input u).core.memReg (input u) = true →
      P (coreRun startAddress regfile input (u + 1)))
    (h : P (coreRun startAddress regfile input t)) :
    ∃ u, t ≤ u ∧ P (coreRun startAddress regfile input u) ∧
      memStallFlg (coreRun startAddress regfile input u).core.memReg (input u) = false := by
  obtain ⟨v, hv, hvalid⟩ := hbus t
  have hfree : ∃ u, t ≤ u ∧
      ¬memStallFlg (coreRun startAddress regfile input u).core.memReg (input u) = true :=
    ⟨v, hv, by rw [memStallFlg, hvalid, Bool.not_true, Bool.and_false]; exact Bool.false_ne_true⟩
  obtain ⟨u, hu, hp, hs⟩ := held_until_free hkeep h hfree
  exact ⟨u, hu, hp, Bool.eq_false_of_not_eq_true hs⟩

/-- What has entered EX leaves MEM. -/
theorem EntersEx.leaves (h : EntersEx startAddress regfile input t o) (hbus : BusAnswers input) :
    ∃ u, (coreRun startAddress regfile input u).mem = some o ∧
      memStallFlg (coreRun startAddress regfile input u).core.memReg (input u) = false := by
  have hflows : memStallFlg (coreRun startAddress regfile input t).core.memReg (input t) =
      false := by
    by_contra hs
    rw [Bool.not_eq_false] at hs
    have hstall := h.1
    simp [issues, stallFlg, hs] at hstall
  have hexe : (coreRun startAddress regfile input (t + 1)).exe = some o := by
    rw [coreRun_succ, next_exe, hflows, h.1]
    exact h.2
  obtain ⟨u, -, hu, hs⟩ : ∃ u, t + 1 ≤ u ∧ (coreRun startAddress regfile input u).exe = some o ∧
      memStallFlg (coreRun startAddress regfile input u).core.memReg (input u) = false := by
    refine moves_on hbus (P := fun x => x.exe = some o) ?_ hexe
    intro u hu hs
    rw [coreRun_succ, next_exe, hs]
    exact hu
  have hmem : (coreRun startAddress regfile input (u + 1)).mem = some o := by
    rw [coreRun_succ, next_mem, hs]
    exact hu
  obtain ⟨v, -, hv, hs'⟩ : ∃ v, u + 1 ≤ v ∧ (coreRun startAddress regfile input v).mem = some o ∧
      memStallFlg (coreRun startAddress regfile input v).core.memReg (input v) = false := by
    refine moves_on hbus (P := fun x => x.mem = some o) ?_ hmem
    intro v hv hs'
    rw [coreRun_succ, next_mem, hs']
    exact hv
  exact ⟨v, hv, hs'⟩

/-- What a fetch does: nothing unless it has entered EX, as what the program went on with, and
then what its word says, at most once, and exactly once if the data bus keeps answering. -/
structure EffectsOnce (startAddress : Word) (regfile : BitVec 5 → Word) (input : ℕ → Inputs)
    (o : Fetch) : Prop where
  entered : ∀ t, TakesEffect (coreRun startAddress regfile input t) (input t) o →
    ∃ t' < t, EntersEx startAddress regfile input t' o
  path : ∀ t, EntersEx startAddress regfile input t o →
    (coreRun startAddress regfile input t).pathPc = o.pc
  enters : ∀ t t', EntersEx startAddress regfile input t o →
    EntersEx startAddress regfile input t' o → t = t'
  wb : ∀ t t', WbEffect (coreRun startAddress regfile input t) o →
    WbEffect (coreRun startAddress regfile input t') o → t = t'
  mem : ∀ t t', MemEffect (coreRun startAddress regfile input t) (input t) o →
    MemEffect (coreRun startAddress regfile input t') (input t') o → t = t'
  made : BusAnswers input → ∀ t, EntersEx startAddress regfile input t o →
    (WritesReg o.word ↔ ∃ u, WbEffect (coreRun startAddress regfile input u) o) ∧
      (UsesMem o.word ↔ ∃ u, MemEffect (coreRun startAddress regfile input u) (input u) o)

theorem effectsOnce (startAddress : Word) (regfile : BitVec 5 → Word) (input : ℕ → Inputs)
    (o : Fetch) : EffectsOnce startAddress regfile input o where
  entered t ht := by
    refine entered_before ?_
    rcases ht with h | h | h
    · exact .inr (.inr h.1)
    · exact .inr (.inl h.1)
    · exact .inl h.1
  path _ h := h.path
  enters _ _ h h' := h.once h'
  wb _ _ := wbEffect_once
  mem _ _ := memEffect_once
  made hbus t hin := by
    obtain ⟨u, hu, hs⟩ := hin.leaves hbus
    have C : Coherent (coreRun startAddress regfile input u) := coherent_run u
    refine ⟨⟨fun hw => ⟨u + 1, C.wbEffect_made hu hs hw⟩, ?_⟩,
      ⟨fun hm => ⟨u, C.memEffect_made hu hs hm⟩, ?_⟩⟩
    · rintro ⟨v, hv⟩
      exact (coherent_run v).wbEffect_writes hv
    · rintro ⟨v, hv⟩
      exact (coherent_run v).memEffect_uses hv

/-- A fetch that is still in ID has not been in any later stage. -/
theorem not_before (hl : (coreRun startAddress regfile input t).idLive = true)
    (ho : (coreRun startAddress regfile input t).idOwner = some o) (h : t' ≤ t) :
    ¬TakesEffect (coreRun startAddress regfile input t') (input t') o := by
  have C : Coherent (coreRun startAddress regfile input t') := coherent_run t'
  have hpast : ¬PastId o (coreRun startAddress regfile input t') := fun hp =>
    (kept_from PastId.next h hp).id hl ho
  intro ht
  rcases ht with h' | h' | h'
  · exact hpast (C.wb o h'.1).toPastId
  · exact hpast (C.mem o h'.1).toPastId
  · exact hpast (C.exe o h'.1)

end Runs

end SeccampRiscvCpu.CoreProvenance
