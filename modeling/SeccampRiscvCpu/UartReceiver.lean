import SeccampRiscvCpu.UartTransmitter

/-!
# The UART receiver

`UartRx` waits for a falling edge behind its synchroniser, then samples the line one
and a half bit times later and once in each bit time after that. It is idle again in
the middle of the last data bit. What it hears is the wire as it was when the level in
the last synchroniser register was on it.
-/
namespace SeccampRiscvCpu.UartReceiver
open WordCounters UartTransmitter

structure UartRx (numberOfBits baudDivider rxSyncStages : ℕ) where
  rateCounter : BitVec (Nat.clog 2 (baudDivider * 3 / 2))
  bitCounter : BitVec (Nat.clog 2 numberOfBits)
  bits : BitVec numberOfBits
  rxRegs : BitVec (rxSyncStages + 1)
  overrun : Bool
  running : Bool
  outValid : Bool
  outBits : BitVec numberOfBits
deriving DecidableEq

namespace UartRx
variable {n B S : ℕ}

/-- The two data registers have no reset value. -/
def init (bits outBits : BitVec n) : UartRx n B S := ⟨0, 0, bits, 0, false, false, false, outBits⟩

/-- START bit is detected. -/
def startDetected (r : UartRx n B S) : Bool :=
  !r.running && (!r.rxRegs.getLsbD 1 && r.rxRegs.getLsbD 0)

/-- The last bit of a word is sampled. -/
def completes (r : UartRx n B S) : Bool :=
  r.running && (r.rateCounter == 0 && r.bitCounter == 0)

/-- The sampled bit in front of the upper bits that are there. For a word of one bit there are
none: `Cat` of nothing is `0.U`, with a bit of its own, and that is the one that is left. -/
def outWord (rx : Bool) (bits : BitVec n) : BitVec n := if n < 2 then 0 else shiftIn rx bits

def step (r : UartRx n B S) (rx outReady : Bool) : UartRx n B S :=
  let r' := { r with
    outValid := if r.outValid && outReady then false else r.outValid
    rxRegs := shiftIn rx r.rxRegs }
  if !r.running then
    if !r.rxRegs.getLsbD 1 && r.rxRegs.getLsbD 0 then
      { r' with
        rateCounter := .ofNat _ (B * 3 / 2 - 1) -- wait until the center of LSB
        bitCounter := .ofNat _ (n - 1)
        running := true }
    else r'
  else if r.rateCounter = 0 then
    let bits := shiftIn (r.rxRegs.getLsbD 0) r.bits
    if r.bitCounter = 0 then
      { r' with
        bits
        outValid := true
        outBits := outWord (r.rxRegs.getLsbD 0) r.bits
        overrun := r.outValid
        running := false }
    else { r' with bits, rateCounter := .ofNat _ (B - 1), bitCounter := r.bitCounter - 1 }
  else { r' with rateCounter := r.rateCounter - 1 }

/-- The word that is transferred in this clock. -/
def received (r : UartRx n B S) (outReady : Bool) : Option (BitVec n) :=
  if r.outValid && outReady then some r.outBits else none

@[simp] theorem step_rxRegs (r : UartRx n B S) (rx outReady : Bool) :
    (r.step rx outReady).rxRegs = shiftIn rx r.rxRegs := by
  unfold step
  split_ifs <;> rfl

end UartRx

/-! ## What the receiver hears -/

section
variable {n B S : ℕ}

/-- The age of a frame at which its last bit is sampled. -/
def lastSample (n B : ℕ) : ℕ := B * 3 / 2 + n * B - B

/-- `j` bits of the word have been sampled. -/
structure Sampling (r : UartRx n B S) (x : BitVec n) (age j : ℕ) : Prop where
  running : r.running = true
  idle : r.outValid = false
  count : r.bitCounter.toNat + j + 1 = n
  rate : r.rateCounter.toNat + age = B * 3 / 2 + j * B
  bits : ∀ i < j, r.bits.getLsbD (n - j + i) = x.getLsbD i

/-- The registers while this is heard. -/
def Hears (r : UartRx n B S) : Wire n → Prop
  | none => r.running = false ∧ r.outValid = false
  | some (x, age) => 0 < age ∧ (age ≤ lastSample n B → ∃ j, Sampling r x age j) ∧
      (lastSample n B < age → r.running = false ∧
        (r.outValid = true ↔ age = lastSample n B + 1) ∧
        (age = lastSample n B + 1 → r.outBits = x))

theorem lastSample_lt (hB : 2 ≤ B) : lastSample n B + 1 ≤ (n + 2) * B := by
  rw [lastSample, Nat.add_mul]
  omega

/-- Bit `j` is sampled within its bit time. -/
theorem level_sampled (hB : 2 ≤ B) (x : BitVec n) {j : ℕ} (hj : j < n) :
    Wire.level B (some (x, B * 3 / 2 + j * B)) = x.getLsbD j := by
  have hindex : (B * 3 / 2 + j * B - 1) / B = j + 1 := by
    have hsplit : B * 3 / 2 + j * B - 1 = (B * 3 / 2 - 1 - B) + (j + 1) * B := by
      rw [Nat.succ_mul]
      omega
    rw [hsplit, Nat.add_mul_div_right _ _ (by omega), Nat.div_eq_of_lt (by omega), Nat.zero_add]
  rw [Wire.level, hindex, frame_bit, if_neg (by omega), if_neg (by omega), Nat.add_sub_cancel]

/-- Behind the last sample the line does not fall before the next start bit. -/
theorem level_rises (hB : 2 ≤ B) (x : BitVec n) {age : ℕ} (hlate : lastSample n B < age)
    (hage : age < (n + 2) * B) (hlow : Wire.level B (some (x, age + 1)) = false) :
    Wire.level B (some (x, age)) = false := by
  have hB0 : 0 < B := by omega
  have hfrom : n ≤ (age - 1) / B := by
    rw [Nat.le_div_iff_mul_le hB0]
    rw [lastSample] at hlate
    omega
  have hto : (age + 1 - 1) / B < n + 2 := (Nat.div_lt_iff_lt_mul hB0).mpr hage
  have hmono : (age - 1) / B ≤ (age + 1 - 1) / B := Nat.div_le_div_right (by omega)
  have hstop : (age + 1 - 1) / B ≠ n + 1 := by
    intro hstop
    rw [Wire.level, frame_bit, if_pos hstop] at hlow
    exact Bool.noConfusion hlow
  have hsame : (age - 1) / B = (age + 1 - 1) / B := by omega
  rw [Wire.level, hsame]
  exact hlow

/-! ## One clock -/

variable {r : UartRx n B S}

theorem idle_step (hrunning : r.running = false) (hstart : r.startDetected = false) (rx : Bool) :
    (r.step rx true).running = false ∧ (r.step rx true).outValid = false ∧
      (r.step rx true).overrun = r.overrun := by
  rw [UartRx.startDetected, hrunning, Bool.not_false, Bool.true_and] at hstart
  simp only [UartRx.step, hrunning, hstart]
  cases r.outValid <;> exact ⟨rfl, rfl, rfl⟩

theorem start_step (hB : 2 ≤ B) (hn : 0 < n) (hrunning : r.running = false)
    (hidle : r.outValid = false) (hstart : r.startDetected = true) (rx : Bool) (x : BitVec n) :
    Sampling (r.step rx true) x 1 0 ∧ (r.step rx true).overrun = r.overrun := by
  rw [UartRx.startDetected, hrunning, Bool.not_false, Bool.true_and] at hstart
  have hrate : (BitVec.ofNat (Nat.clog 2 (B * 3 / 2)) (B * 3 / 2 - 1)).toNat = B * 3 / 2 - 1 :=
    toNat_literal (by omega)
  have hcount : (BitVec.ofNat (Nat.clog 2 n) (n - 1)).toNat = n - 1 := toNat_literal (by omega)
  simp only [UartRx.step, hrunning, hstart, hidle]
  refine ⟨⟨rfl, rfl, ?_, ?_, nofun⟩, rfl⟩
  · show _ + 0 + 1 = n
    simp only [Bool.not_false, if_true, hcount]
    omega
  · show _ + 1 = B * 3 / 2 + 0 * B
    simp only [Bool.not_false, if_true, hrate]
    omega

/-- Between two samples. -/
theorem wait_step {x : BitVec n} {age j : ℕ} (h : Sampling r x age j)
    (hrate : 0 < r.rateCounter.toNat) (rx : Bool) :
    Sampling (r.step rx true) x (age + 1) j ∧ (r.step rx true).overrun = r.overrun := by
  have hne : r.rateCounter ≠ 0 := mt (eq_zero_iff _).mp hrate.ne'
  simp only [UartRx.step, h.running, h.idle, if_neg hne]
  refine ⟨⟨rfl, rfl, h.count, ?_, h.bits⟩, rfl⟩
  have hdec := toNat_sub_one hrate
  have hcount := h.rate
  show (r.rateCounter - 1).toNat + (age + 1) = _
  rw [hdec]
  omega

/-- The bits that have been sampled once one more is. -/
theorem shiftIn_sampled {x bits : BitVec n} {j : ℕ} (hj : j < n)
    (hbits : ∀ i < j, bits.getLsbD (n - j + i) = x.getLsbD i) {i : ℕ} (hi : i < j + 1) :
    (shiftIn (x.getLsbD j) bits).getLsbD (n - (j + 1) + i) = x.getLsbD i := by
  rw [shiftIn_bit _ _ (by omega)]
  split_ifs with htop
  · have hlast : i = j := by omega
    rw [hlast]
  · have hplace : n - (j + 1) + i + 1 = n - j + i := by omega
    rw [hplace]
    exact hbits i (by omega)

/-- The bit that is sampled when the rate counter has run down. -/
theorem Sampling.bit (hB : 2 ≤ B) {x : BitVec n} {age j : ℕ} (h : Sampling r x age j)
    (hlevel : r.rxRegs.getLsbD 0 = Wire.level B (some (x, age)))
    (hrate : r.rateCounter.toNat = 0) : r.rxRegs.getLsbD 0 = x.getLsbD j := by
  have hage : age = B * 3 / 2 + j * B := by rw [← h.rate, hrate, Nat.zero_add]
  have hj : j < n := by
    have hcount := h.count
    omega
  rw [hlevel, hage]
  exact level_sampled hB x hj

theorem sample_step (hB : 2 ≤ B) {x : BitVec n} {age j : ℕ} (h : Sampling r x age j)
    (hlevel : r.rxRegs.getLsbD 0 = Wire.level B (some (x, age)))
    (hrate : r.rateCounter.toNat = 0) (hcount : 0 < r.bitCounter.toNat) (rx : Bool) :
    Sampling (r.step rx true) x (age + 1) (j + 1) ∧ (r.step rx true).overrun = r.overrun := by
  have hz : r.rateCounter = 0 := (eq_zero_iff _).mpr hrate
  have hne : r.bitCounter ≠ 0 := mt (eq_zero_iff _).mp hcount.ne'
  have hdec := toNat_sub_one hcount
  have hperiod : (BitVec.ofNat (Nat.clog 2 (B * 3 / 2)) (B - 1)).toNat = B - 1 :=
    toNat_literal (by omega)
  have htotal := h.count
  have hage := h.rate
  simp only [UartRx.step, h.running, h.idle, if_pos hz, if_neg hne, h.bit hB hlevel hrate]
  refine ⟨⟨rfl, rfl, ?_, ?_, ?_⟩, rfl⟩
  · show (r.bitCounter - 1).toNat + (j + 1) + 1 = n
    rw [hdec]
    omega
  · show (BitVec.ofNat (Nat.clog 2 (B * 3 / 2)) (B - 1)).toNat + (age + 1) = _
    rw [hperiod, Nat.succ_mul]
    omega
  · intro i hi
    exact shiftIn_sampled (by omega) h.bits hi

theorem last_step (hB : 2 ≤ B) (hn : 2 ≤ n) {x : BitVec n} {age j : ℕ} (h : Sampling r x age j)
    (hlevel : r.rxRegs.getLsbD 0 = Wire.level B (some (x, age)))
    (hrate : r.rateCounter.toNat = 0) (hcount : r.bitCounter.toNat = 0) (rx : Bool) :
    (r.step rx true).running = false ∧ (r.step rx true).outValid = true ∧
      (r.step rx true).outBits = x ∧ (r.step rx true).overrun = false := by
  have hz : r.rateCounter = 0 := (eq_zero_iff _).mpr hrate
  have hz' : r.bitCounter = 0 := (eq_zero_iff _).mpr hcount
  have htotal := h.count
  have hword : shiftIn (x.getLsbD j) r.bits = x := by
    apply BitVec.eq_of_getLsbD_eq
    intro i hi
    have hbit := shiftIn_sampled (by omega) h.bits (i := i) (by omega)
    have hplace : n - (j + 1) + i = i := by omega
    rwa [hplace] at hbit
  have hout : UartRx.outWord (x.getLsbD j) r.bits = x := by
    rw [UartRx.outWord, if_neg (by omega), hword]
  simp only [UartRx.step, h.running, h.idle, if_pos hz, if_pos hz', h.bit hB hlevel hrate, hout]
  exact ⟨rfl, rfl, rfl, rfl⟩

theorem Sampling.hears {x : BitVec n} {age j : ℕ} (h : Sampling r x age j) (hpos : 0 < age)
    (hage : age ≤ lastSample n B) : Hears r (some (x, age)) :=
  ⟨hpos, fun _ => ⟨j, h⟩, fun hlate => absurd hage (by omega)⟩

/-- Every sample is at most the last one. -/
theorem Sampling.age_le {x : BitVec n} {age j : ℕ} (h : Sampling r x age j) :
    r.rateCounter.toNat + age + r.bitCounter.toNat * B = lastSample n B := by
  have hrate := h.rate
  have hcount := congrArg (· * B) h.count
  simp only [Nat.add_mul, Nat.one_mul] at hcount
  rw [lastSample]
  omega

/-- A frame whose bits are being sampled. -/
theorem sampling_step (hB : 2 ≤ B) (hn : 2 ≤ n) {x : BitVec n} {age j : ℕ}
    (h : Sampling r x age j)
    (hlevel : r.rxRegs.getLsbD 0 = Wire.level B (some (x, age)))
    (hoverrun : r.overrun = false) (rx : Bool) :
    Hears (r.step rx true) (some (x, age + 1)) ∧ (r.step rx true).overrun = false := by
  have hage := h.age_le
  rcases Nat.eq_zero_or_pos r.rateCounter.toNat with hrate | hrate
  · rcases Nat.eq_zero_or_pos r.bitCounter.toNat with hcount | hcount
    · obtain ⟨hrunning, hvalid, hbits, hoverrun'⟩ := last_step hB hn h hlevel hrate hcount rx
      rw [hrate, hcount, Nat.zero_mul, Nat.zero_add, Nat.add_zero] at hage
      refine ⟨⟨Nat.succ_pos _, fun hle => absurd hle (by omega), ?_⟩, hoverrun'⟩
      exact fun _ => ⟨hrunning, iff_of_true hvalid (by rw [hage]), fun _ => hbits⟩
    · obtain ⟨hsampling, hsame⟩ := sample_step hB h hlevel hrate hcount rx
      have hmul := Nat.mul_le_mul_right B hcount
      exact ⟨hsampling.hears (Nat.succ_pos _) (by omega), hsame.trans hoverrun⟩
  · obtain ⟨hsampling, hsame⟩ := wait_step h hrate rx
    exact ⟨hsampling.hears (Nat.succ_pos _) (by omega), hsame.trans hoverrun⟩

/-- The receiver follows the wire: it starts with a frame and with nothing else. -/
theorem Hears.step (hB : 2 ≤ B) (hn : 2 ≤ n) {w : Wire n} {offer : Option (BitVec n)}
    (h : Hears r w) (hlevel : r.rxRegs.getLsbD 0 = w.level B)
    (hnext : r.rxRegs.getLsbD 1 = (w.next B offer).level B) (hoverrun : r.overrun = false)
    (rx : Bool) : r.startDetected = (w.accepted offer).isSome ∧
      Hears (r.step rx true) (w.next B offer) ∧ (r.step rx true).overrun = false := by
  match w, h with
  | none, ⟨hrunning, hidle⟩ =>
    cases offer with
    | none =>
      have hstart : r.startDetected = false := by
        simp only [UartRx.startDetected, hnext]
        simp [Wire.next, Wire.level]
      obtain ⟨hrunning', hidle', hsame⟩ := idle_step hrunning hstart rx
      exact ⟨hstart, ⟨hrunning', hidle'⟩, hsame.trans hoverrun⟩
    | some x =>
      have hlow : Wire.level B (some (x, 1)) = false := by
        rw [Wire.level, Nat.sub_self, Nat.zero_div, frame_bit, if_neg (by omega), if_pos rfl]
      have hstart : r.startDetected = true := by
        simp only [UartRx.startDetected, hnext, hlevel, hrunning, Wire.next, Option.map_some, hlow]
        rfl
      have hmul := Nat.mul_le_mul_right B (Nat.le_of_succ_le hn)
      have hfirst : 1 ≤ lastSample n B := by
        rw [lastSample]
        omega
      obtain ⟨hsampling, hsame⟩ := start_step hB (by omega) hrunning hidle hstart rx x
      exact ⟨hstart, hsampling.hears Nat.one_pos hfirst, hsame.trans hoverrun⟩
  | some (x, age), ⟨_, hsampling, hdone⟩ =>
    rcases Nat.lt_or_ge (lastSample n B) age with hlate | hage
    · -- the word is complete and the line stays high up to the next start bit
      obtain ⟨hrunning, -, -⟩ := hdone hlate
      have hstart : r.startDetected = false := by
        rw [UartRx.startDetected, hrunning, hnext, hlevel, Wire.next]
        split_ifs with hend
        · cases hlow : Wire.level B (some (x, age + 1)) with
          | true => simp
          | false => simp [level_rises hB x hlate hend hlow]
        · simp [Wire.level]
      obtain ⟨hrunning', hidle', hsame⟩ := idle_step hrunning hstart rx
      refine ⟨hstart, ?_, hsame.trans hoverrun⟩
      rw [Wire.next]
      split_ifs with hend
      · refine ⟨Nat.succ_pos _, fun hle => absurd hle (by omega), fun _ => ⟨hrunning', ?_, ?_⟩⟩
        · exact iff_of_false (by simp [hidle']) (by omega)
        · exact fun hsucc => absurd hsucc (by omega)
      · exact ⟨hrunning', hidle'⟩
    · obtain ⟨j, hj⟩ := hsampling hage
      have hstart : r.startDetected = false := by
        rw [UartRx.startDetected, hj.running]
        rfl
      have hlast := lastSample_lt (n := n) hB
      rw [Wire.next, if_pos (by omega)]
      exact ⟨hstart, sampling_step hB hn hj hlevel hoverrun rx⟩

end

/-! ## Overruns -/

section
variable {n B S : ℕ}

/-- The receiver before clock `t`, for any line and any consumer. -/
def rxRun (bits outBits : BitVec n) (rx ready : ℕ → Bool) : ℕ → UartRx n B S
  | 0 => .init bits outBits
  | t + 1 => (rxRun bits outBits rx ready t).step (rx t) (ready t)

/-- The output word is transferred in clock `t`. -/
def Transfers (run : ℕ → UartRx n B S) (ready : ℕ → Bool) (t : ℕ) : Prop :=
  (run t).outValid = true ∧ ready t = true

instance (run : ℕ → UartRx n B S) (ready : ℕ → Bool) (t : ℕ) :
    Decidable (Transfers run ready t) := inferInstanceAs (Decidable (_ ∧ _))

/-- The last word completed before clock `t`, in clock `s`, has not been transferred. -/
def Untransferred (run : ℕ → UartRx n B S) (ready : ℕ → Bool) (s t : ℕ) : Prop :=
  s < t ∧ (run s).completes = true ∧
    ∀ u, s < u → u < t → (run u).completes = false ∧ ¬ Transfers run ready u

/-- The word completed in clock `t` overwrites one that has not been transferred, not even in
this clock. -/
def Overwrites (run : ℕ → UartRx n B S) (ready : ℕ → Bool) (t : ℕ) : Prop :=
  (∃ s, Untransferred run ready s t) ∧ ¬ Transfers run ready t

theorem step_completes {r : UartRx n B S} (h : r.completes = true) (rx outReady : Bool) :
    (r.step rx outReady).outValid = true ∧ (r.step rx outReady).overrun = r.outValid := by
  simp only [UartRx.completes, Bool.and_eq_true, beq_iff_eq] at h
  obtain ⟨hrunning, hrate, hcount⟩ := h
  simp only [UartRx.step, hrunning, if_pos hrate, if_pos hcount]
  exact ⟨rfl, rfl⟩

theorem step_not_completes {r : UartRx n B S} (h : r.completes = false) (rx outReady : Bool) :
    (r.step rx outReady).outValid = (r.outValid && !outReady) ∧
      (r.step rx outReady).overrun = r.overrun := by
  have hvalid : (if r.outValid && outReady then false else r.outValid) =
      (r.outValid && !outReady) := by cases r.outValid <;> cases outReady <;> rfl
  unfold UartRx.step
  rw [hvalid]
  cases hrunning : r.running with
  | false => cases !r.rxRegs.getLsbD 1 && r.rxRegs.getLsbD 0 <;> exact ⟨rfl, rfl⟩
  | true =>
    by_cases hrate : r.rateCounter = 0
    · have hcount : r.bitCounter ≠ 0 := by
        rintro hcount
        simp [UartRx.completes, hrunning, hrate, hcount] at h
      simp only [if_pos hrate, if_neg hcount]
      exact ⟨rfl, rfl⟩
    · simp only [if_neg hrate]
      exact ⟨rfl, rfl⟩

variable {bits outBits : BitVec n} {rx ready : ℕ → Bool}

theorem Untransferred.unique {run : ℕ → UartRx n B S} {s u t : ℕ}
    (h : Untransferred run ready s t) (h' : Untransferred run ready u t) : s = u := by
  obtain ⟨hs, hword, hquiet⟩ := h
  obtain ⟨hu, hword', hquiet'⟩ := h'
  rcases Nat.lt_trichotomy s u with hlt | heq | hlt
  · rw [(hquiet u hlt hu).1] at hword'
    cases hword'
  · exact heq
  · rw [(hquiet' s hlt hs).1] at hword
    cases hword

theorem Untransferred.succ {run : ℕ → UartRx n B S} {s t : ℕ} (h : Untransferred run ready s t)
    (hquiet : (run t).completes = false) (hkept : ¬ Transfers run ready t) :
    Untransferred run ready s (t + 1) := by
  obtain ⟨hs, hword, hbefore⟩ := h
  refine ⟨Nat.lt_succ_of_lt hs, hword, ?_⟩
  intro u hu hu'
  rcases Nat.lt_or_eq_of_le (Nat.le_of_lt_succ hu') with hlt | rfl
  · exact hbefore u hu hlt
  · exact ⟨hquiet, hkept⟩

/-- A word is on offer exactly from its completion to its transfer. -/
theorem outValid_iff (t : ℕ) :
    (rxRun bits outBits rx ready t : UartRx n B S).outValid = true ↔
      ∃ s, Untransferred (rxRun bits outBits rx ready : ℕ → UartRx n B S) ready s t := by
  induction t with
  | zero => exact iff_of_false Bool.false_ne_true fun ⟨s, hs, _⟩ => absurd hs (Nat.not_lt_zero s)
  | succ t ih =>
    cases hcompletes : (rxRun bits outBits rx ready t : UartRx n B S).completes with
    | true =>
      refine iff_of_true (step_completes hcompletes _ _).1 ⟨t, Nat.lt_succ_self t, hcompletes, ?_⟩
      intro u hu hu'
      omega
    | false =>
      have hvalid : (rxRun bits outBits rx ready (t + 1) : UartRx n B S).outValid = true ↔
          (rxRun bits outBits rx ready t : UartRx n B S).outValid = true ∧
            ¬ Transfers (rxRun bits outBits rx ready : ℕ → UartRx n B S) ready t := by
        rw [rxRun, (step_not_completes hcompletes _ _).1, Transfers]
        simp only [Bool.and_eq_true, Bool.not_eq_true', not_and, Bool.not_eq_true]
        exact and_congr_right fun hvalid => ⟨fun hready _ => hready, fun h => h hvalid⟩
      rw [hvalid, ih]
      constructor
      · rintro ⟨⟨s, hs⟩, hkept⟩
        exact ⟨s, hs.succ hcompletes hkept⟩
      · rintro ⟨s, hs, hword, hquiet⟩
        have hne : s ≠ t := by
          rintro rfl
          rw [hcompletes] at hword
          exact Bool.noConfusion hword
        have hbefore : s < t := by omega
        exact ⟨⟨s, hbefore, hword, fun u hu hu' => hquiet u hu (Nat.lt_succ_of_lt hu')⟩,
          (hquiet t hbefore (Nat.lt_succ_self t)).2⟩

/-- The flag stays as the last completion has set it. -/
theorem overrun_kept {t u : ℕ} (hu : t + 1 ≤ u)
    (hquiet : ∀ v, t < v → v < u →
      (rxRun bits outBits rx ready v : UartRx n B S).completes = false) :
    (rxRun bits outBits rx ready u : UartRx n B S).overrun =
      (rxRun bits outBits rx ready (t + 1) : UartRx n B S).overrun := by
  induction u, hu using Nat.le_induction with
  | base => rfl
  | succ u hu ih =>
    rw [rxRun, (step_not_completes (hquiet u hu (Nat.lt_succ_self u)) _ _).2]
    exact ih fun v hv hv' => hquiet v hv (Nat.lt_succ_of_lt hv')

end

/-- **Overruns.** For every line and every consumer, the flag tells from the completion of a word
to the next one whether it has overwritten a word that was never transferred, if and only if
no word is transferred in the clock of the completion. -/
theorem overrun_iff {n B S : ℕ} (bits outBits : BitVec n) (rx ready : ℕ → Bool) {t u : ℕ}
    (hcompletes : (rxRun bits outBits rx ready t : UartRx n B S).completes = true) (hu : t < u)
    (hquiet : ∀ v, t < v → v < u →
      (rxRun bits outBits rx ready v : UartRx n B S).completes = false) :
    ((rxRun bits outBits rx ready u : UartRx n B S).overrun = true ↔
      Overwrites (rxRun bits outBits rx ready : ℕ → UartRx n B S) ready t) ↔
    ¬ Transfers (rxRun bits outBits rx ready : ℕ → UartRx n B S) ready t := by
  have hflag : (rxRun bits outBits rx ready u : UartRx n B S).overrun =
      (rxRun bits outBits rx ready t : UartRx n B S).outValid :=
    (overrun_kept hu hquiet).trans (step_completes hcompletes _ _).2
  rw [hflag, Overwrites, ← outValid_iff]
  constructor
  · intro hiff htransfers
    exact (hiff.mp htransfers.1).2 htransfers
  · intro hkept
    exact (and_iff_left hkept).symm

/-- Frames of one bit at two clocks a bit, one after the other. -/
def shortFrames (t : ℕ) : Bool := decide (2 ≤ t % 6)

/-- The consumer never takes a word, and the second one is reported. -/
theorem overrun_iff_never :
    (rxRun 0 0 shortFrames (fun _ => false) 17 : UartRx 1 2 1).overrun = true ∧
      Overwrites (rxRun 0 0 shortFrames (fun _ => false) : ℕ → UartRx 1 2 1)
        (fun _ => false) 16 := by
  have hflag : (rxRun 0 0 shortFrames (fun _ => false) 17 : UartRx 1 2 1).overrun = true := by
    decide
  have hiff := (overrun_iff (n := 1) (B := 2) (S := 1) 0 0 shortFrames (fun _ => false) (t := 16)
    (by decide) (Nat.lt_succ_self 16) (fun v hv hv' => by omega)).mpr (by decide)
  exact ⟨hflag, hiff.mp hflag⟩

/-- The consumer takes the first word in the clock in which the second one is complete, and
the second one is reported to have overwritten it. -/
theorem overrun_in_time : ¬ ∀ (n B S : ℕ) (bits outBits : BitVec n) (rx ready : ℕ → Bool) (t : ℕ),
    (rxRun bits outBits rx ready t : UartRx n B S).completes = true →
      ((rxRun bits outBits rx ready (t + 1) : UartRx n B S).overrun = true ↔
        Overwrites (rxRun bits outBits rx ready : ℕ → UartRx n B S) ready t) := by
  intro hall
  have hiff := hall 1 2 1 0 0 shortFrames (fun t => t == 16) 16 (by decide)
  exact absurd (hiff.mp (by decide)).2 (by decide)

end SeccampRiscvCpu.UartReceiver
