import SeccampRiscvCpu.StepperBootrom
import SeccampRiscvCpu.StepperPulses

/-!
# The motor and the program that turns it

The program stores an interval in every round and changes it in each sixteenth one, by one
clock at most. Through the port it reaches the pulse generator, so that the rate of the coils
stays in the range the program keeps to.
-/
namespace SeccampRiscvCpu.StepperMotor
open BusPrograms ByteMemory ClockEdges CoreDecode CoreRegisters CorePipeline DmemDecoder GpioPorts
  StepperBootrom StepperPulses WordCounters

/-! ## The intervals -/

/-- What the program keeps to. -/
def InRange (v : Word) : Prop := stepperCounterMin ≤ v.toNat ∧ v.toNat ≤ stepperCounterMax

/-- The interval of round `k` is the one before it, or in a sixteenth round one off it. -/
def Near (k : ℕ) (v w : Word) : Prop :=
  w = v ∨ k % 16 = 0 ∧ (w.toNat = v.toNat + 1 ∨ w.toNat + 1 = v.toNat)

section
variable {s : Main} {v : Word} {k : ℕ} {l : List Round}

theorem toNat_limit (v : Word) : (limit v).toNat =
    if v.toNat < stepperCounterMin then stepperCounterMin
    else if stepperCounterMax < v.toNat then stepperCounterMax else v.toNat := by
  have hmin : (BitVec.ofNat 32 stepperCounterMin).toNat = stepperCounterMin := by decide
  have hmax : (BitVec.ofNat 32 stepperCounterMax).toNat = stepperCounterMax := by decide
  have hle : stepperCounterMin ≤ stepperCounterMax := by decide
  unfold limit
  simp only [BitVec.lt_def, hmin, hmax]
  split_ifs <;> omega

theorem inRange_limit (v : Word) : InRange (limit v) := by
  have hle : stepperCounterMin ≤ stepperCounterMax := by decide
  rw [InRange, toNat_limit]
  split_ifs <;> omega

theorem limit_eq (h : InRange v) : limit v = v := by
  obtain ⟨hmin, hmax⟩ := h
  apply BitVec.eq_of_toNat_eq
  rw [toNat_limit, if_neg (by omega), if_neg (by omega)]

theorem adjust_cases (v switchInput : Word) : adjustCounter v switchInput = v ∨
    adjustCounter v switchInput = v + 1 ∨ adjustCounter v switchInput = v - 1 := by
  have hback : v + 1 - 1 = v := BitVec.add_sub_cancel v 1
  unfold adjustCounter
  split_ifs
  · exact Or.inl hback
  · exact Or.inr (Or.inl rfl)
  · exact Or.inr (Or.inr rfl)
  · exact Or.inl rfl

/-- The limits undo a step that leads out of the range. -/
theorem limit_adjust (h : InRange v) (switchInput : Word) :
    let w := limit (adjustCounter v switchInput)
    w = v ∨ w.toNat = v.toNat + 1 ∨ w.toNat + 1 = v.toNat := by
  intro w
  have hmin : stepperCounterMin = 27000 := rfl
  have hmax : stepperCounterMax = 270000 := rfl
  obtain ⟨hlow, hhigh⟩ := h
  have hw : ∀ a, adjustCounter v switchInput = a → w.toNat =
      if a.toNat < stepperCounterMin then stepperCounterMin
      else if stepperCounterMax < a.toNat then stepperCounterMax else a.toNat := by
    rintro a rfl
    exact toNat_limit _
  rw [← BitVec.toNat_inj]
  rcases adjust_cases v switchInput with hv | hv | hv
  · have hnext := hw _ hv
    split_ifs at hnext <;> omega
  · have hnext := hw _ hv
    have hup : (v + 1).toNat = v.toNat + 1 := toNat_add_one (by omega)
    rw [hup] at hnext
    split_ifs at hnext <;> omega
  · have hnext := hw _ hv
    have hdown : (v - 1).toNat = v.toNat - 1 := toNat_sub_one (by omega)
    rw [hdown] at hnext
    split_ifs at hnext <;> omega

/-- The counter tells which rounds are sixteenth ones, however often it has wrapped. -/
theorem sixteenth_iff (k : ℕ) : BitVec.ofNat 32 k &&& 0xf = 0 ↔ k % 16 = 0 := by
  have hmask : (BitVec.ofNat 32 k &&& 0xf).toNat = k % 16 := by
    rw [BitVec.toNat_and, BitVec.toNat_ofNat]
    have hlow : k % 2 ^ 32 &&& 15 = k % 2 ^ 32 % 2 ^ 4 := Nat.and_two_pow_sub_one_eq_mod _ 4
    exact hlow.trans (Nat.mod_mod_of_dvd k (by decide))
  rw [← hmask, ← BitVec.toNat_inj]
  rfl

theorem next_counter (h : s.counter = BitVec.ofNat 32 k) (switchInput : Word) :
    (s.next switchInput).counter = BitVec.ofNat 32 (k + 1) := by
  have hnext : s.counter + 1 = BitVec.ofNat 32 (k + 1) := by
    rw [h]
    exact (BitVec.ofNat_add ..).symm
  unfold Main.next
  dsimp only
  split_ifs <;> exact hnext

/-- A round of the program. -/
theorem next_interval (h : s.counter = BitVec.ofNat 32 k) (hrange : InRange s.stepperCounter)
    (switchInput : Word) : InRange (s.next switchInput).stepperCounter ∧
      Near (k + 1) s.stepperCounter (s.next switchInput).stepperCounter := by
  have hnext : s.counter + 1 = BitVec.ofNat 32 (k + 1) := by
    rw [h]
    exact (BitVec.ofNat_add ..).symm
  have hround := sixteenth_iff (k + 1)
  rw [← hnext] at hround
  unfold Main.next
  dsimp only
  split_ifs with hsixteenth
  · refine ⟨inRange_limit _, ?_⟩
    rcases limit_adjust hrange switchInput with hv | hv
    · exact Or.inl hv
    · exact Or.inr ⟨hround.mp hsixteenth, hv⟩
  · exact ⟨inRange_limit _, Or.inl (limit_eq hrange)⟩

/-! ## The intervals of all rounds -/

/-- The intervals some rounds store. -/
def intervals (s : Main) : List Round → List Word
  | [] => []
  | r :: l => (s.next r.switchInput).stepperCounter :: intervals (s.next r.switchInput) l

theorem storedTo_intervals (s : Main) (l : List Round) :
    storedTo regGpioStepperCounter (s.log l) = intervals s l := by
  induction l generalizing s with
  | nil => rfl
  | cons r l ih =>
    have hecho : storedTo regGpioStepperCounter (r.echo.toList.map toUart) = [] := by
      cases r.echo <;> rfl
    rw [Main.log, storedTo_append, storedTo_append, hecho, ih]
    rfl

theorem intervals_log (l : List Round) :
    storedTo regGpioStepperCounter (log l) = intervals .init l := by
  rw [log, storedTo_append, storedTo_intervals]
  rfl

/-- Each interval and the one before it. -/
theorem intervals_near (hcounter : s.counter = BitVec.ofNat 32 k)
    (hrange : InRange s.stepperCounter) {i : ℕ} {w : Word} (hw : (intervals s l)[i]? = some w) :
    InRange w ∧ ∀ v, (s.stepperCounter :: intervals s l)[i]? = some v → Near (k + i + 1) v w := by
  induction l generalizing s k i with
  | nil => cases hw
  | cons r l ih =>
    obtain ⟨hin, hnear⟩ := next_interval hcounter hrange r.switchInput
    cases i with
    | zero =>
      obtain rfl : _ = w := Option.some.inj hw
      refine ⟨hin, fun v hv => ?_⟩
      obtain rfl : _ = v := Option.some.inj hv
      exact hnear
    | succ i =>
      obtain ⟨hwrange, hwnear⟩ := ih (next_counter hcounter r.switchInput) hin hw
      refine ⟨hwrange, fun v hv => ?_⟩
      rw [show k + (i + 1) + 1 = k + 1 + i + 1 by omega]
      exact hwnear v hv

end

section
variable {uartRxData : Word} {event : ℕ → Event} {u polls n : ℕ} {q : Firmware (Option Main)}

/-- Whatever the switches are and whenever the handler comes in between: the intervals begin
with the longest one and stay in the range, and from one to the next there is one clock at
most, and none but in each sixteenth round. -/
theorem intervals_ramp (hram : uartRxData < regGpioLedL)
    (hcomes : Comes (traffic uartRxData event) (main uartRxData polls n) 0 q u) :
    let vs := storedTo regGpioStepperCounter (busAt uartRxData event u).stores
    ∀ k v, vs[k]? = some v → InRange v ∧ (k = 0 → v.toNat = stepperCounterMax) ∧
      ∀ w, vs[k + 1]? = some w → Near (k + 2) v w := by
  intro vs k v hv
  obtain ⟨⟨l, hstores, -⟩, -⟩ := main_comes hram hcomes
  have hprefix : vs <+: intervals .init l := by
    rw [← intervals_log]
    exact storedTo_prefix _ hstores
  have hat : ∀ (j : ℕ) (w : Word), vs[j]? = some w → (intervals .init l)[j]? = some w := by
    intro j w hw
    obtain ⟨rest, hrest⟩ := hprefix
    obtain ⟨hlt, -⟩ := List.getElem?_eq_some_iff.mp hw
    rw [← hrest, List.getElem?_append_left hlt]
    exact hw
  have hinit : InRange Main.init.stepperCounter := by
    unfold InRange
    decide
  have hnear : ∀ (j : ℕ) (w : Word), vs[j]? = some w → InRange w ∧
      ∀ v, (Main.init.stepperCounter :: intervals .init l)[j]? = some v → Near (j + 1) v w := by
    intro j w hw
    have hj := intervals_near (k := 0) rfl hinit (hat j w hw)
    rwa [Nat.zero_add] at hj
  refine ⟨(hnear k v hv).1, ?_, fun w hw => (hnear (k + 1) w hw).2 v (hat k v hv)⟩
  rintro rfl
  rcases (hnear 0 v hv).2 _ rfl with rfl | ⟨hsixteenth, -⟩
  · decide
  · exact absurd hsixteenth (by decide)

end

/-- Seventeen rounds with all switches but the first one pressed. -/
def pressed (i : ℕ) : Event := (script 0x100 (main 0x100 1 17) .init).1.getD i .idle

/-- The interval of the sixteenth round is one clock shorter, as it may be. -/
theorem intervals_ramp_pressed : ∃ u v w,
    (storedTo regGpioStepperCounter (busAt 0x100 pressed u).stores)[14]? = some v ∧
    (storedTo regGpioStepperCounter (busAt 0x100 pressed u).stores)[15]? = some w ∧
    w ≠ v ∧ InRange v ∧ Near 16 v w := by
  have hmailbox : (busAt 0x100 pressed 0).mailbox = .init := rfl
  have hperforms := script_performs (main 0x100 1 17) hmailbox fun i _ => by
    rw [Nat.zero_add, pressed]
  generalize hu : 0 + (script 0x100 (main 0x100 1 17) .init).1.length = u at hperforms
  have hstored : (storedTo regGpioStepperCounter (busAt 0x100 pressed u).stores).drop 14 =
      [270000, 269999, 269999] := by
    rw [← hu]
    decide +kernel
  have hat : ∀ i, (storedTo regGpioStepperCounter (busAt 0x100 pressed u).stores)[14 + i]? =
      ([270000, 269999, 269999] : List Word)[i]? := by
    intro i
    rw [← hstored, List.getElem?_drop]
  obtain ⟨hrange, -, hnear⟩ := intervals_ramp (by decide) hperforms.comes 14 270000 (hat 0)
  exact ⟨u, 270000, 269999, hat 0, hat 1, by decide, hrange, hnear 269999 (hat 1)⟩

/-! ## What reaches the port -/

/-- What is stored to port 2 is in the range. -/
def Kept (x : Word × Word) : Prop := inOut 0xa0000000 2 x.1 → InRange x.2

theorem kept_of_other {addr : Word} (h : ¬ inOut 0xa0000000 2 addr) (w : Word) : Kept (addr, w) :=
  fun hin => absurd hin h

theorem kept_toUart (byte : Byte) : Kept (toUart byte) := kept_of_other (by decide) _

theorem inRange_next (s : Main) (switchInput : Word) :
    InRange (s.next switchInput).stepperCounter := by
  unfold Main.next
  dsimp only
  split_ifs <;> exact inRange_limit _

theorem kept_stores (s : Main) (switchInput : Word) : ∀ x ∈ s.stores switchInput, Kept x := by
  intro x hx
  simp only [Main.stores, List.mem_cons, List.not_mem_nil, or_false] at hx
  rcases hx with rfl | rfl | rfl | rfl | rfl
  · exact kept_of_other (by decide) _
  · exact fun _ => inRange_next s switchInput
  · exact kept_of_other (by decide) _
  · exact kept_of_other (by decide) _
  · exact kept_of_other (by decide) _

theorem kept_log (l : List Round) : ∀ x ∈ log l, Kept x := by
  have huart : ∀ bytes : List Byte, ∀ x ∈ bytes.map toUart, Kept x := by
    intro bytes x hx
    obtain ⟨byte, -, rfl⟩ := List.mem_map.mp hx
    exact kept_toUart byte
  have hrounds : ∀ s : Main, ∀ x ∈ s.log l, Kept x := by
    induction l with
    | nil => exact fun s x hx => absurd hx List.not_mem_nil
    | cons r l ih =>
      intro s x hx
      rw [Main.log, List.mem_append, List.mem_append] at hx
      rcases hx with (hstored | hechoed) | hrest
      · exact kept_stores s r.switchInput x hstored
      · exact huart _ x hechoed
      · exact ih _ x hrest
  intro x hx
  rw [log, List.mem_append] at hx
  rcases hx with hgreeting | hround
  · exact huart _ x hgreeting
  · exact hrounds _ x hround

/-- The core makes the stores of the program, and nothing else stores to port 2. -/
structure Drives (event : ℕ → Event) (regfile : BitVec 5 → Word) (input : ℕ → TopInputs) :
    Prop where
  stores : ∀ t addr w, event t = .store addr w →
    dmemRequest (run regfile input t).top.core.memReg = ⟨addr, false, true, 0b1111, w⟩
  only : ∀ t, StoresInterval (run regfile input t).top → ∃ addr w, event t = .store addr w

section
variable {uartRxData : Word} {event : ℕ → Event} {regfile : BitVec 5 → Word}
  {input : ℕ → TopInputs}

/-- A store of the whole word. -/
theorem outReg_stored {s : TopWithStepper} {addr w : Word}
    (hrequest : dmemRequest s.core.memReg = ⟨addr, false, true, 0b1111, w⟩)
    (haddr : inOut 0xa0000000 2 addr) (i : TopInputs) : (s.step i).gpios.outReg 2 = w := by
  have hwritten := written_iff (b := topWithSegmentLed) (q := dmemRequest s.core.memReg) 2
  have hstore := hwritten.mpr ⟨by rw [hrequest], by rw [hrequest]; exact haddr⟩
  have hin : topWithSegmentLed.gpioRange.contains addr = true :=
    inOut_contains (b := topWithSegmentLed) (q := ⟨addr, false, true, 0b1111, w⟩) (k := 2) haddr
  have hgpio : s.gpioRequest = ⟨addr - 0xa0000000, false, true, 0b1111, w⟩ := by
    rw [TopWithStepper.gpioRequest, hrequest]
    exact targetRequest_contains hin
  have hmask : strobeMask 0b1111 = BitVec.allOnes 32 := by decide
  have hall : (0xffffffff : Word) = BitVec.allOnes 32 := by decide
  have hout : (s.step i).gpios.outReg 2 = _ := if_pos hstore
  rw [hout]
  show ((_ &&& ~~~strobeMask s.gpioRequest.wstrb) |||
    (s.gpioRequest.wdata &&& strobeMask s.gpioRequest.wstrb)) &&& 0xffffffff = w
  rw [hgpio, hmask, hall, BitVec.not_allOnes, BitVec.and_zero, BitVec.zero_or, BitVec.and_allOnes,
    BitVec.and_allOnes]

variable (hram : uartRxData < regGpioLedL)
  (hcomes : ∀ u, ∃ polls n q, Comes (traffic uartRxData event) (main uartRxData polls n) 0 q u)
  (h : Drives event regfile input)
include hram hcomes h

/-- What the port holds after a store is in the range. -/
theorem interval_inRange {t : ℕ} (hstore : StoresInterval (run regfile input t).top) :
    InRange (interval regfile input (t + 1)) := by
  obtain ⟨addr, w, hevent⟩ := h.only t hstore
  have hrequest := h.stores t addr w hevent
  have haddr : inOut 0xa0000000 2 addr := by
    have hin := hstore.2
    rwa [hrequest] at hin
  have hport : interval regfile input (t + 1) = w := outReg_stored hrequest haddr (input t)
  obtain ⟨polls, n, q, hq⟩ := hcomes (t + 1)
  obtain ⟨⟨l, hstores, -⟩, -⟩ := main_comes hram hq
  have hne : addr ≠ uartRxData := by
    refine ne_of_ram hram ?_
    rw [BitVec.le_def]
    exact Nat.le_trans (by decide) haddr.1
  have hlast : (addr, w) ∈ (busAt uartRxData event (t + 1)).stores := by
    rw [busAt_succ uartRxData hevent, Bus.step, if_neg hne]
    exact List.mem_append_right _ (List.mem_singleton_self _)
  rw [hport]
  exact kept_log l _ (hstores.subset hlast) haddr

theorem interval_le (t : ℕ) : (interval regfile input t).toNat ≤ stepperCounterMax := by
  induction t with
  | zero => exact Nat.zero_le _
  | succ t ih =>
    by_cases hstore : StoresInterval (run regfile input t).top
    · exact (interval_inRange hram hcomes h hstore).2
    · have hkept : interval regfile input (t + 1) = interval regfile input t :=
        outReg_unchanged hstore (input t)
      rw [hkept]
      exact ih

/-- The generator cannot count past the longest interval. -/
theorem change_within (t : ℕ) :
    ∃ d ≤ stepperCounterMax, PhaseChange regfile input (t + d) := by
  by_contra hnone
  simp only [not_exists, not_and] at hnone
  have hcount : ∀ d ≤ stepperCounterMax, (run regfile input (t + d)).generator.pulseCounter.toNat =
      (run regfile input t).generator.pulseCounter.toNat + d := by
    intro d hd
    induction d with
    | zero => rfl
    | succ d ih =>
      exact (pulseCounter_wait (hnone d (by omega))).trans (congrArg (· + 1) (ih (by omega)))
  have hmax : stepperCounterMax = 270000 := rfl
  obtain ⟨v, hv⟩ := Nat.exists_eq_add_of_le' (show 2 ≤ t + stepperCounterMax by omega)
  have hle := interval_le hram hcomes h v
  refine hnone stepperCounterMax (Nat.le_refl _) ?_
  rw [phaseChange_iff, hcount stepperCounterMax (Nat.le_refl _), hv, maxPulseCounter_run]
  omega

end

section
variable {uartRxData : Word} {event : ℕ → Event} {regfile : BitVec 5 → Word}
  {input : ℕ → TopInputs}

/-- Whatever the switches are and whenever the handler comes in between: the phase never stands
still for longer than the longest interval, and each change switches one coil. Three
clocks after the first store of an interval two changes are at least the shortest one apart. -/
theorem motor_turns (hram : uartRxData < regGpioLedL)
    (hcomes : ∀ u, ∃ polls n q, Comes (traffic uartRxData event) (main uartRxData polls n) 0 q u)
    (h : Drives event regfile input) :
    let change := PhaseChange regfile input
    let stepperOut := fun t => (run regfile input t).generator.stepperOut
    (∀ t, change t → Adjacent (stepperOut (t + 1)) (stepperOut (t + 2))) ∧
    (∀ t, ∃ d ≤ stepperCounterMax, change (t + d)) ∧
    ∀ t t' w v, Consecutive change t t' → event w = .store regGpioStepperCounter v → w + 3 ≤ t' →
      stepperCounterMin < t' - t := by
  intro change stepperOut
  refine ⟨fun t ht => change_adjacent ht, change_within hram hcomes h, ?_⟩
  intro t t' w v hchange hevent hw
  have hrequest := h.stores w _ v hevent
  have hstore : StoresInterval (run regfile input w).top := by
    refine ⟨by rw [hrequest], ?_⟩
    rw [hrequest]
    exact (by decide : inOut 0xa0000000 2 regGpioStepperCounter)
  exact lt_of_stored (fun w hw => (interval_inRange hram hcomes h hw).1) hchange hw hstore

end

/-! ## A core that makes a round -/

/-- The accesses of the greeting and a round, one in each clock. -/
def accesses : List Event := (script 0x100 (main 0x100 1 1) .init).1

/-- What the registers of the core hold. -/
def constants : List Word :=
  [0, 0xa0001000, 0xa0000000, 0x48, 0x65, 0x6c, 0x6f, 0x2c, 0x20, 0x77, 0x72, 0x64, 0x21, 0x0a,
    0x55555555, 270000, 0x7906663f, 0x3f7c]

def constantRegs (r : BitVec 5) : Word := constants.getD r.toNat 0

def registerOf (w : Word) : BitVec 5 := .ofNat 5 (constants.idxOf w)

/-- LW to x31 and SW, at an offset from the register with the upper bits of the address. -/
def instruction : Event → Word
  | .load addr _ =>
    addr.setWidth 12 ++ registerOf (addr &&& 0xfffff000) ++ 0b010#3 ++ 31#5 ++ 0b0000011#7
  | .store addr w =>
    addr.extractLsb' 5 7 ++ registerOf w ++ registerOf (addr &&& 0xfffff000) ++ 0b010#3 ++
      addr.extractLsb' 0 5 ++ 0b0100011#7
  | _ => bubble

/-- The instructions of the accesses, and then `nop`. -/
def fetched (t : ℕ) : TopInputs :=
  if t < 35 then ⟨⟨instruction (accesses.getD t .idle), true, 1, true, false⟩, 0⟩ else nops t

/-- The accesses as they come out of the pipeline. -/
def driven (t : ℕ) : Event := if t < 3 then .idle else accesses.getD (t - 3) .idle

def agrees (q : DmemRequest) : Event → Bool
  | .store addr w => q == ⟨addr, false, true, 0b1111, w⟩
  | .idle => !q.wen
  | .handler _ => !q.wen
  | .load _ _ => !q.wen

/-- The stores of the next `n` clocks are those of the program, and then the core is idle. -/
def follows (c : Core) (t : ℕ) : ℕ → Bool
  | 0 => (csignals c.idReg.inst).memWen == .x && c.exeReg.memWen == .x && c.memReg.memWen == .x
  | n + 1 => agrees (dmemRequest c.memReg) (driven t) &&
      follows (CorePipeline.step c (fetched t).core) (t + 1) n

theorem follows_reset : follows (run constantRegs fetched 0).top.core 0 40 = true := by
  decide +kernel

theorem follows_run {t n : ℕ}
    (h : follows (run constantRegs fetched t).top.core t n = true) :
    (∀ i < n, agrees (dmemRequest (run constantRegs fetched (t + i)).top.core.memReg)
      (driven (t + i)) = true) ∧ Idle (run constantRegs fetched (t + n)).top.core := by
  induction n generalizing t with
  | zero =>
    simp only [follows, Bool.and_eq_true, beq_iff_eq] at h
    exact ⟨fun i hi => absurd hi (Nat.not_lt_zero i), h.1.1, h.1.2, h.2⟩
  | succ n ih =>
    obtain ⟨hfirst, hrest⟩ := (Bool.and_eq_true _ _).mp h
    obtain ⟨hagrees, hidle⟩ := ih (t := t + 1) hrest
    rw [Nat.add_assoc, Nat.add_comm 1] at hidle
    refine ⟨fun i hi => ?_, hidle⟩
    cases i with
    | zero => exact hfirst
    | succ i =>
      rw [show t + (i + 1) = t + 1 + i by omega]
      exact hagrees i (by omega)

theorem driven_idle {t : ℕ} (h : 38 ≤ t) : driven t = .idle := by
  have hlength : accesses.length = 35 := by decide +kernel
  rw [driven, if_neg (by omega), List.getD_eq_default _ _ (by omega)]

theorem idle_fetched {t : ℕ} (h : 40 ≤ t) : Idle (run constantRegs fetched t).top.core :=
  idle_from (follows_run follows_reset).2 (fun _ ht => if_neg (by omega)) h

theorem driven_agrees (t : ℕ) :
    agrees (dmemRequest (run constantRegs fetched t).top.core.memReg) (driven t) = true := by
  by_cases hlt : t < 40
  · have h := (follows_run follows_reset).1 t hlt
    rwa [Nat.zero_add] at h
  · rw [driven_idle (by omega), agrees, dmemRequest, (idle_fetched (by omega)).memReg]
    rfl

theorem drives_fetched : Drives driven constantRegs fetched := by
  constructor
  · intro t addr w hevent
    have h := driven_agrees t
    rw [hevent] at h
    exact beq_iff_eq.mp h
  · intro t hstore
    have h := driven_agrees t
    cases hevent : driven t with
    | store addr w => exact ⟨addr, w, rfl⟩
    | idle =>
      rw [hevent, agrees, hstore.1] at h
      cases h
    | handler byte =>
      rw [hevent, agrees, hstore.1] at h
      cases h
    | load addr w =>
      rw [hevent, agrees, hstore.1] at h
      cases h

theorem driven_comes (u : ℕ) :
    ∃ polls n q, Comes (traffic 0x100 driven) (main 0x100 polls n) 0 q u := by
  have hmailbox : (busAt 0x100 driven 3).mailbox = .init := rfl
  have hperforms := script_performs (main 0x100 1 1) hmailbox fun i _ => by
    rw [driven, if_neg (by omega), Nat.add_sub_cancel_left]
    rfl
  have hearly : ∀ t < 3, (traffic 0x100 driven).quiet t := fun t ht => Or.inl (if_pos ht)
  have hall : Performs (traffic 0x100 driven) (main 0x100 1 1) 0 _ _ :=
    .waits (hearly 0 (by decide)) (.waits (hearly 1 (by decide))
      (.waits (hearly 2 (by decide)) hperforms))
  have hlength : 38 ≤ 3 + accesses.length := by decide +kernel
  exact ⟨1, 1, hall.comes_at (fun v hv => Or.inl (driven_idle (hlength.trans hv)))
    (Nat.zero_le u)⟩

/-- The core stores the interval in clock 33. -/
theorem motor_turns_fetched :
    (∀ t, ∃ d ≤ stepperCounterMax, PhaseChange constantRegs fetched (t + d)) ∧
    ∀ t t', Consecutive (PhaseChange constantRegs fetched) t t' → 36 ≤ t' →
      stepperCounterMin < t' - t := by
  have hstore : driven 33 = .store regGpioStepperCounter 270000 := by decide +kernel
  obtain ⟨-, hmoves, hapart⟩ := motor_turns (by decide) driven_comes drives_fetched
  exact ⟨hmoves, fun t t' h hle => hapart t t' 33 270000 h hstore hle⟩

end SeccampRiscvCpu.StepperMotor
