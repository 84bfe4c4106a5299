import SeccampRiscvCpu.GpioPorts
import SeccampRiscvCpu.ClockEdges

/-!
# The pulses of the stepper motor

The interval the CPU stores to GPIO port 2 reaches the pulse generator through the register
`stepperCount` and `max_pulse_counter`, two clocks later. Both are reset to the longest
interval, but the port is reset to zero, which overwrites them before the first store does.
-/
namespace SeccampRiscvCpu.StepperPulses
open ByteMemory CoreRegisters CoreDecode CorePipeline ClockedMachine ClockEdges DmemPort DmemDecoder
  GpioPorts WordCounters

/-! ## The pulse generator -/

def clockFreqHz : ℕ := 27000000
def maxPulseInterval : ℕ := clockFreqHz / 500

/-- The coils of a phase. -/
def coils (phase : BitVec 3) : BitVec 4 :=
  match phase with
  | 0 => 0b0001
  | 1 => 0b0011
  | 2 => 0b0010
  | 3 => 0b0110
  | 4 => 0b0100
  | 5 => 0b1100
  | 6 => 0b1000
  | 7 => 0b1001
  | _ => 0b0000

structure PulseGenerator where
  pulseCounter : Word
  phase : BitVec 3
  maxPulseCounter : Word
  directionCcw : BitVec 1
  stepperOut : BitVec 4

namespace PulseGenerator

/-- After reset; the coils are not reset and still off. -/
def new : PulseGenerator where
  pulseCounter := 0
  phase := 0
  maxPulseCounter := .ofNat 32 (maxPulseInterval - 1)
  directionCcw := 0
  stepperOut := 0

def step (g : PulseGenerator) (stepperCount : Word) (stepperCwCcw : BitVec 1) :
    PulseGenerator where
  pulseCounter := if g.maxPulseCounter ≤ g.pulseCounter then 0 else g.pulseCounter + 1
  phase :=
    if g.maxPulseCounter ≤ g.pulseCounter then
      if g.directionCcw = 1 then g.phase - 1 else g.phase + 1
    else g.phase
  directionCcw := stepperCwCcw
  maxPulseCounter := stepperCount
  stepperOut := coils g.phase

end PulseGenerator

/-! ## The module with the CPU -/

/-- The registers on the way of the interval; what the other modules answer is an input. -/
structure TopWithStepper where
  core : Core
  gpios : GpioArray 6
  stepperCount : Word
  stepperCwCcw : BitVec 1

structure TopInputs where
  core : Inputs
  switchIn : Word

namespace TopWithStepper

def new (regfile : BitVec 5 → Word) : TopWithStepper where
  core := reset 0 regfile
  gpios := .reset 6
  stepperCount := .ofNat 32 (clockFreqHz / 500)
  stepperCwCcw := 0

/-- `gpios.io.in` -/
def gpioIn (s : TopWithStepper) (i : TopInputs) (port : Fin 6) : Word :=
  match port with
  | 2 => s.stepperCount
  | 3 => 0#31 ++ s.stepperCwCcw
  | 5 => i.switchIn
  | _ => 0

/-- What the ports see of the request of the CPU. -/
def gpioRequest (s : TopWithStepper) : DmemRequest :=
  targetRequest ⟨0xa0000000, addressRange 6⟩ (dmemRequest s.core.memReg)

def step (s : TopWithStepper) (i : TopInputs) : TopWithStepper where
  core := CorePipeline.step s.core i.core
  gpios := s.gpios.step (fun _ => 0xffffffff) (s.gpioIn i) s.gpioRequest
  stepperCount := s.gpios.outReg 2
  stepperCwCcw := (s.gpios.outReg 3).extractLsb' 0 1

end TopWithStepper

/-- `top` in `top.sv` -/
structure StepperTop where
  top : TopWithStepper
  generator : PulseGenerator

def machine : Machine StepperTop TopInputs (BitVec 4) where
  step s i :=
    { top := s.top.step i
      generator := s.generator.step s.top.stepperCount s.top.stepperCwCcw }
  emit s _ := [s.generator.stepperOut]

/-! ## Half steps -/

/-- One coil or two neighbouring ones are on. -/
def HalfStep (pattern : BitVec 4) : Prop :=
  ∃ i < 4, pattern = (0b0001#4).rotateLeft i ∨ pattern = (0b0011#4).rotateLeft i

/-- Two half steps that differ in one coil. -/
structure Adjacent (a b : BitVec 4) : Prop where
  first : HalfStep a
  second : HalfStep b
  coil : ∃ i < 4, a ^^^ b = 1#4 <<< i

instance (pattern : BitVec 4) : Decidable (HalfStep pattern) :=
  inferInstanceAs (Decidable (∃ i < 4, _ ∨ _))

theorem halfStep_coils (phase : BitVec 3) : HalfStep (coils phase) := by
  revert phase
  decide

theorem adjacent_coils (phase : BitVec 3) :
    Adjacent (coils phase) (coils (phase + 1)) ∧ Adjacent (coils phase) (coils (phase - 1)) := by
  have hcoil : ∀ phase : BitVec 3, (∃ i < 4, coils phase ^^^ coils (phase + 1) = 1#4 <<< i) ∧
      ∃ i < 4, coils phase ^^^ coils (phase - 1) = 1#4 <<< i := by decide
  exact ⟨⟨halfStep_coils _, halfStep_coils _, (hcoil phase).1⟩,
    ⟨halfStep_coils _, halfStep_coils _, (hcoil phase).2⟩⟩

/-! ## One clock of the generator -/

section
variable {g : PulseGenerator} {stepperCount : Word} {stepperCwCcw : BitVec 1}

theorem phase_ne (phase : BitVec 3) : phase + 1 ≠ phase ∧ phase - 1 ≠ phase := by
  revert phase
  decide

theorem change_iff : (g.step stepperCount stepperCwCcw).phase ≠ g.phase ↔
    g.maxPulseCounter.toNat ≤ g.pulseCounter.toNat := by
  obtain ⟨hnext, hprev⟩ := phase_ne g.phase
  rw [← BitVec.le_def]
  unfold PulseGenerator.step
  grind

theorem change_adjacent (h : (g.step stepperCount stepperCwCcw).phase ≠ g.phase) :
    Adjacent (coils g.phase) (coils (g.step stepperCount stepperCwCcw).phase) := by
  obtain ⟨hnext, hprev⟩ := adjacent_coils g.phase
  have hdue := change_iff.mp h
  rw [← BitVec.le_def] at hdue
  simp only [PulseGenerator.step, if_pos hdue]
  split_ifs
  · exact hprev
  · exact hnext

theorem pulseCounter_change (h : (g.step stepperCount stepperCwCcw).phase ≠ g.phase) :
    (g.step stepperCount stepperCwCcw).pulseCounter.toNat = 0 := by
  have hdue := change_iff.mp h
  rw [← BitVec.le_def] at hdue
  simp only [PulseGenerator.step, if_pos hdue]
  exact BitVec.toNat_zero

theorem pulseCounter_wait (h : ¬(g.step stepperCount stepperCwCcw).phase ≠ g.phase) :
    (g.step stepperCount stepperCwCcw).pulseCounter.toNat = g.pulseCounter.toNat + 1 := by
  rw [change_iff] at h
  have hfit : g.pulseCounter.toNat + 1 < 2 ^ 32 := by
    have hlt := g.maxPulseCounter.isLt
    omega
  have hwait : ¬g.maxPulseCounter ≤ g.pulseCounter := by rwa [BitVec.le_def]
  simp only [PulseGenerator.step, if_neg hwait]
  exact toNat_add_one hfit

end

/-! ## The way of the interval -/

/-- The CPU stores to OUT of port 2. -/
def StoresInterval (s : TopWithStepper) : Prop :=
  (dmemRequest s.core.memReg).wen = true ∧
    inOut 0xa0000000 2 (dmemRequest s.core.memReg).addr

instance (s : TopWithStepper) : Decidable (StoresInterval s) :=
  inferInstanceAs (Decidable (_ ∧ _))

theorem outReg_unchanged {s : TopWithStepper} (h : ¬StoresInterval s) (i : TopInputs) :
    (s.step i).gpios.outReg 2 = s.gpios.outReg 2 := by
  have hwritten := written_iff (b := topWithSegmentLed) (q := dmemRequest s.core.memReg) 2
  exact if_neg fun hw => h (hwritten.mp hw)

section
variable (regfile : BitVec 5 → Word) (input : ℕ → TopInputs)

/-- The state before clock `t` of the run from reset. -/
def run : ℕ → StepperTop := machine.run ⟨.new regfile, .new⟩ input

/-- What port 2 holds before clock `t`. -/
def interval (t : ℕ) : Word := (run regfile input t).top.gpios.outReg 2

/-- The phase changes in clock `t`. -/
def PhaseChange (t : ℕ) : Prop :=
  (run regfile input (t + 1)).generator.phase ≠ (run regfile input t).generator.phase

theorem run_succ (t : ℕ) : run regfile input (t + 1) =
    machine.step (run regfile input t) (input t) := rfl

variable {regfile input}

theorem maxPulseCounter_run (t : ℕ) :
    (run regfile input (t + 2)).generator.maxPulseCounter = interval regfile input t := rfl

theorem phaseChange_iff (t : ℕ) : PhaseChange regfile input t ↔
    (run regfile input t).generator.maxPulseCounter.toNat ≤
      (run regfile input t).generator.pulseCounter.toNat := change_iff

/-- Before its first store to arrive the port holds what it holds at reset. -/
theorem interval_reset {t : ℕ} (h : ∀ w < t, ¬StoresInterval (run regfile input w).top) :
    interval regfile input t = 0 := by
  induction t with
  | zero => rfl
  | succ t ih =>
    rw [← ih fun w hw => h w (Nat.lt_succ_of_lt hw)]
    exact outReg_unchanged (h t (Nat.lt_succ_self t)) (input t)

/-- Whatever the port held after each store it still holds at least. -/
theorem interval_stored {N : ℕ}
    (h : ∀ w, StoresInterval (run regfile input w).top → N ≤ (interval regfile input (w + 1)).toNat)
    {w t : ℕ} (hw : StoresInterval (run regfile input w).top) (hlt : w < t) :
    N ≤ (interval regfile input t).toNat := by
  induction hlt with
  | refl => exact h w hw
  | @step u _ ih =>
    by_cases hu : StoresInterval (run regfile input u).top
    · exact h u hu
    · have hkept : interval regfile input (u + 1) = interval regfile input u :=
        outReg_unchanged hu (input u)
      rw [hkept]
      exact ih

/-- In the first clock the pipeline is still empty. -/
theorem no_first_store : ¬StoresInterval (run regfile input 0).top := by
  rintro ⟨hwen, -⟩
  cases hwen

theorem no_early_change {t : ℕ} (h : PhaseChange regfile input t) : 2 ≤ t := by
  have hfirst : ¬PhaseChange regfile input 0 := by
    rw [phaseChange_iff]
    exact (by decide : ¬(BitVec.ofNat 32 (maxPulseInterval - 1)).toNat ≤ (0 : Word).toNat)
  have hsecond : ¬PhaseChange regfile input 1 := by
    have hcounter : (run regfile input 1).generator.pulseCounter.toNat = 1 :=
      pulseCounter_wait hfirst
    rw [phaseChange_iff, hcounter]
    exact (by decide : ¬(BitVec.ofNat 32 (clockFreqHz / 500)).toNat ≤ 1)
  by_contra hlt
  have ht : t = 0 ∨ t = 1 := by omega
  rcases ht with rfl | rfl
  · exact hfirst h
  · exact hsecond h

/-- After a change the counter counts the clocks up to the next one. -/
theorem pulseCounter_run {t t' : ℕ} (h : Consecutive (PhaseChange regfile input) t t') {d : ℕ}
    (hd : t + 1 + d ≤ t') : (run regfile input (t + 1 + d)).generator.pulseCounter.toNat = d := by
  induction d with
  | zero => exact pulseCounter_change h.first
  | succ d ih =>
    have hwait := h.between (t + 1 + d) (by omega) (by omega)
    exact (pulseCounter_wait hwait).trans (congrArg (· + 1) (ih (by omega)))

/-- Without a store that has arrived the phase changes in every clock. -/
theorem change_of_quiet {t : ℕ} (ht : 2 ≤ t)
    (h : ∀ w < t - 2, ¬StoresInterval (run regfile input w).top) :
    PhaseChange regfile input t := by
  obtain ⟨u, rfl⟩ := Nat.exists_eq_add_of_le' ht
  have hzero : interval regfile input u = 0 := interval_reset h
  rw [phaseChange_iff, maxPulseCounter_run, hzero]
  exact Nat.zero_le _

/-- A change that no store is ahead of follows the one before it at once. -/
theorem next_of_quiet {t t' : ℕ} (h : Consecutive (PhaseChange regfile input) t t')
    (hnone : ¬∃ w, w + 3 ≤ t' ∧ StoresInterval (run regfile input w).top) : t' = t + 1 := by
  have hearly := no_early_change h.first
  have hlt := h.lt
  by_contra hne
  refine h.between (t + 1) (by omega) (by omega) (change_of_quiet (by omega) ?_)
  intro w hw hstore
  exact hnone ⟨w, by omega, hstore⟩

/-- Three clocks after a store the counter is compared with what the port held. -/
theorem lt_of_stored {N : ℕ}
    (hN : ∀ w, StoresInterval (run regfile input w).top →
      N ≤ (interval regfile input (w + 1)).toNat)
    {t t' w : ℕ} (h : Consecutive (PhaseChange regfile input) t t') (hw : w + 3 ≤ t')
    (hstore : StoresInterval (run regfile input w).top) : N < t' - t := by
  have hlt := h.lt
  obtain ⟨u, rfl⟩ := Nat.exists_eq_add_of_le' (show 2 ≤ t' by omega)
  have hinterval := interval_stored hN hstore (show w < u by omega)
  have hdue := (phaseChange_iff (u + 2)).mp h.second
  have hcount := pulseCounter_run h (d := u + 2 - (t + 1)) (by omega)
  rw [Nat.add_sub_cancel' (show t + 1 ≤ u + 2 by omega)] at hcount
  rw [maxPulseCounter_run, hcount] at hdue
  omega

/-- The interval of zero at reset is there in every run. -/
theorem first_changes : Consecutive (PhaseChange regfile input) 2 3 := by
  have hnone : ∀ w < 1, ¬StoresInterval (run regfile input w).top := by
    intro w hw
    rw [Nat.lt_one_iff.mp hw]
    exact no_first_store
  refine ⟨change_of_quiet (by decide) fun w hw => absurd hw (Nat.not_lt_zero w),
    change_of_quiet (by decide) hnone, by decide, ?_⟩
  intro u hlow hhigh
  omega

end

/-- **The step rate.** Where every value the CPU makes port 2 hold is at least `N`, each change
of the phase switches one coil, and two changes are more than `N` clocks apart exactly if the
second one comes three clocks or more after a store. Every run starts with changes that do not,
so the bound holds of a whole run for no `N` but zero. -/
theorem step_rate_iff (regfile : BitVec 5 → Word) (input : ℕ → TopInputs) (N : ℕ)
    (hN : ∀ w, StoresInterval (run regfile input w).top →
      N ≤ (interval regfile input (w + 1)).toNat) :
    let change := PhaseChange regfile input
    let stepperOut := fun t => (run regfile input t).generator.stepperOut
    (∀ t, change t → Adjacent (stepperOut (t + 1)) (stepperOut (t + 2))) ∧
    (∀ t t', Consecutive change t t' →
      (N < t' - t ↔ N = 0 ∨ ∃ w, w + 3 ≤ t' ∧ StoresInterval (run regfile input w).top)) ∧
    ((∀ t t', Consecutive change t t' → N < t' - t) ↔ N = 0) := by
  intro change stepperOut
  refine ⟨fun t ht => change_adjacent ht, ?_, ?_⟩
  · intro t t' h
    have hlt := h.lt
    by_cases hstore : ∃ w, w + 3 ≤ t' ∧ StoresInterval (run regfile input w).top
    · obtain ⟨w, hw, hstored⟩ := hstore
      exact iff_of_true (lt_of_stored hN h hw hstored) (.inr ⟨w, hw, hstored⟩)
    · have hnext := next_of_quiet h hstore
      rw [or_iff_left hstore]
      omega
  · constructor
    · intro h
      have hbound := h 2 3 first_changes
      omega
    · rintro rfl t t' h
      have hlt := h.lt
      omega

/-! ## A CPU that stores once -/

/-- A memory full of `nop`. -/
def nops (_ : ℕ) : TopInputs := ⟨⟨bubble, true, 0, true, false⟩, 0⟩

/-- No stage holds a store. -/
structure Idle (s : Core) : Prop where
  idReg : (csignals s.idReg.inst).memWen = .x
  exeReg : s.exeReg.memWen = .x
  memReg : s.memReg.memWen = .x

theorem Idle.step {s : Core} (h : Idle s) (t : ℕ) :
    Idle (CorePipeline.step s (nops t).core) := by
  have hbubble : (csignals bubble).memWen = .x := by decide
  refine ⟨?_, ?_, ?_⟩
  · rw [step_idReg, idRegNext]
    dsimp only
    split_ifs
    · exact hbubble
    · exact h.idReg
    · exact hbubble
  · have hinst : (csignals (idInst s (nops t).core)).memWen = .x := by
      unfold idInst
      split_ifs
      · exact hbubble
      · exact h.idReg
    rw [step_exeReg, exeRegNext]
    split_ifs
    · exact h.exeReg
    · exact hinst
    · exact hinst
  · rw [step_memReg, memRegNext]
    split_ifs
    · exact h.memReg
    · exact h.exeReg

/-- From then on there is no store. -/
theorem idle_from {regfile : BitVec 5 → Word} {input : ℕ → TopInputs} {t₀ : ℕ}
    (h : Idle (run regfile input t₀).top.core) (hnops : ∀ t, t₀ ≤ t → input t = nops t) {t : ℕ}
    (ht : t₀ ≤ t) : Idle (run regfile input t).top.core := by
  induction t, ht using Nat.le_induction with
  | base => exact h
  | succ t ht ih =>
    have hnext := ih.step t
    rw [← hnops t ht] at hnext
    exact hnext

theorem Idle.stores_nothing {s : TopWithStepper} (h : Idle s.core) : ¬StoresInterval s := by
  rintro ⟨hwen, -⟩
  rw [dmemRequest, h.memReg] at hwen
  cases hwen

def portRegs (r : BitVec 5) : Word := if r = 1 then 0xa0000000 else if r = 2 then 27000 else 0

/-- SW x2,32(x1), and then `nop`. -/
def storesOnce (t : ℕ) : TopInputs :=
  if t = 0 then ⟨⟨0x0220a023, true, 0, true, false⟩, 0⟩ else nops t

theorem stored_once : StoresInterval (run portRegs storesOnce 3).top := by decide +kernel

theorem storesOnce_interval (w : ℕ) (hw : StoresInterval (run portRegs storesOnce w).top) :
    27000 ≤ (interval portRegs storesOnce (w + 1)).toNat := by
  have hidle : Idle (run portRegs storesOnce 4).top.core :=
    ⟨by decide +kernel, by decide +kernel, by decide +kernel⟩
  have hearly : ∀ v < 3, ¬StoresInterval (run portRegs storesOnce v).top := by decide +kernel
  rcases Nat.lt_or_ge w 4 with hlt | hge
  · have hw3 : w = 3 := by
      by_contra hne
      exact hearly w (by omega) hw
    subst hw3
    decide +kernel
  · have hnops : ∀ t, 4 ≤ t → storesOnce t = nops t := fun t ht => if_neg (by omega)
    exact absurd hw (idle_from hidle hnops hge).stores_nothing

/-- The rate holds from three clocks after the store on, and not before. -/
theorem step_rate_stored :
    (∀ t t', Consecutive (PhaseChange portRegs storesOnce) t t' → 6 ≤ t' → 27000 < t' - t) ∧
    ¬∀ t t', Consecutive (PhaseChange portRegs storesOnce) t t' → 27000 < t' - t := by
  obtain ⟨-, hiff, hall⟩ := step_rate_iff portRegs storesOnce 27000 storesOnce_interval
  refine ⟨fun t t' h ht => (hiff t t' h).mpr (.inr ⟨3, ht, stored_once⟩), fun hrate => ?_⟩
  exact absurd (hall.mp hrate) (by decide)

/-- A CPU that stores no interval below 27000: the phase changes in clocks two and three. -/
theorem step_rate_reset :
    (∀ w, StoresInterval (run portRegs storesOnce w).top →
      27000 ≤ (interval portRegs storesOnce (w + 1)).toNat) ∧
    Consecutive (PhaseChange portRegs storesOnce) 2 3 ∧ ¬27000 < 3 - 2 :=
  ⟨storesOnce_interval, first_changes, by decide⟩

end SeccampRiscvCpu.StepperPulses
