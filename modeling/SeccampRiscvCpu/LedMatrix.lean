import SeccampRiscvCpu.ClockedMachine
import SeccampRiscvCpu.WordCounters

/-!
# The driver of the LED matrix

`MatrixLed` shows one row at a time. The row register rotates in the middle of a blank
interval at the end of each refresh interval; the last clock of the interval shows the new
row already, so rounds of the display start one clock before those of the counter.
-/
namespace SeccampRiscvCpu.LedMatrix
open ClockedMachine WordCounters

structure MatrixLedConfig where
  rows : ℕ
  columns : ℕ
  refreshInterval : ℕ
  refreshGuardInterval : ℕ
deriving DecidableEq, Repr

structure MatrixLed (config : MatrixLedConfig) where
  refreshCounter : BitVec (Nat.clog 2 config.refreshInterval)
  rowReg : BitVec config.rows

/-- `io.matrix` -/
abbrev Matrix (config : MatrixLedConfig) := Fin config.rows → BitVec config.columns

/-- `(rowReg << 1) | rowReg(rows - 1)`, one bit wider than the register that takes it. -/
def rotated {n : ℕ} (rowReg : BitVec n) : BitVec n :=
  (rowReg.setWidth (n + 1) <<< 1 ||| (BitVec.ofBool rowReg.msb).setWidth (n + 1)).setWidth n

namespace MatrixLed
variable {config : MatrixLedConfig} (s : MatrixLed config)

def new (config : MatrixLedConfig) : MatrixLed config := ⟨0, 1⟩

def rowEnable : Bool :=
  if s.refreshCounter.toNat < config.refreshInterval - config.refreshGuardInterval * 2 - 1 then true
  else if s.refreshCounter.toNat = config.refreshInterval - config.refreshGuardInterval - 1 then
    false
  else if s.refreshCounter.toNat < config.refreshInterval - 1 then false
  else true

/-- `io.row` -/
def row : BitVec config.rows := if s.rowEnable then s.rowReg else 0

/-- `io.column`, of the first row whose bit is the row register. -/
def column (matrix : Matrix config) : BitVec config.columns :=
  match (List.finRange config.rows).find? fun i => s.rowReg == 1#(config.rows) <<< i.val with
  | some i => matrix i
  | none => 0

def step : MatrixLed config :=
  if s.refreshCounter.toNat < config.refreshInterval - config.refreshGuardInterval * 2 - 1 then
    { s with refreshCounter := s.refreshCounter + 1 }
  else if s.refreshCounter.toNat = config.refreshInterval - config.refreshGuardInterval - 1 then
    { refreshCounter := s.refreshCounter + 1, rowReg := rotated s.rowReg }
  else if s.refreshCounter.toNat < config.refreshInterval - 1 then
    { s with refreshCounter := s.refreshCounter + 1 }
  else if s.refreshCounter.toNat = config.refreshInterval - 1 then { s with refreshCounter := 0 }
  else { s with refreshCounter := s.refreshCounter + 1 }

end MatrixLed

/-- The driver, showing its row and column outputs. -/
def machine (config : MatrixLedConfig) :
    Machine (MatrixLed config) (Matrix config) (BitVec config.rows × BitVec config.columns) where
  step s _ := s.step
  emit s matrix := [(s.row, s.column matrix)]

/-! ## One row -/

section
variable {n : ℕ}

theorem row_getLsbD (i j : ℕ) : (1#n <<< i).getLsbD j = (decide (j < n) && decide (j = i)) := by
  rw [← BitVec.twoPow_eq, BitVec.getLsbD_twoPow]
  grind

theorem row_inj {i j : ℕ} (hi : i < n) (h : 1#n <<< i = 1#n <<< j) : i = j := by
  have hbit : (1#n <<< i).getLsbD i = (1#n <<< j).getLsbD i := by rw [h]
  rw [row_getLsbD, row_getLsbD, decide_eq_true hi, decide_eq_true rfl] at hbit
  exact of_decide_eq_true hbit.symm

theorem rotated_getLsbD (x : BitVec n) (j : ℕ) : (rotated x).getLsbD j =
    (decide (j < n) && if j = 0 then x.getLsbD (n - 1) else x.getLsbD (j - 1)) := by
  unfold rotated
  rw [BitVec.getLsbD_setWidth, BitVec.getLsbD_or, BitVec.getLsbD_shiftLeft, BitVec.getLsbD_setWidth,
    BitVec.getLsbD_setWidth, BitVec.getLsbD_ofBool, BitVec.msb_eq_getLsbD_last]
  grind

/-- The row register goes round. -/
theorem rotated_row (hn : 0 < n) (k : ℕ) :
    rotated (1#n <<< (k % n)) = 1#n <<< ((k + 1) % n) := by
  have hlt := Nat.mod_lt k hn
  have hnext : (k + 1) % n = if k % n + 1 = n then 0 else k % n + 1 := by
    split_ifs with hwrap
    · exact (rounds_wrap hwrap).2
    · exact (rounds_next (by omega)).2
  refine BitVec.eq_of_getLsbD_eq fun j hj => ?_
  rw [rotated_getLsbD, row_getLsbD, row_getLsbD, row_getLsbD, hnext]
  grind

end

/-! ## The run -/

section
variable {config : MatrixLedConfig}

/-- How often the row register has rotated in `t` clocks. -/
def rotations (config : MatrixLedConfig) (t : ℕ) : ℕ :=
  t / config.refreshInterval +
    if config.refreshInterval - config.refreshGuardInterval ≤ t % config.refreshInterval then 1
    else 0

structure At (t : ℕ) (s : MatrixLed config) : Prop where
  refreshCounter : s.refreshCounter.toNat = t % config.refreshInterval
  rowReg : s.rowReg = 1#(config.rows) <<< (rotations config t % config.rows)

theorem At.new (hguard : config.refreshGuardInterval < config.refreshInterval) :
    At 0 (.new config) := by
  have hnone : rotations config 0 = 0 := by
    unfold rotations
    rw [Nat.zero_div, Nat.zero_mod, if_neg (by omega)]
  constructor
  · rw [Nat.zero_mod]
    exact BitVec.toNat_zero
  · rw [hnone, Nat.zero_mod, BitVec.shiftLeft_zero]
    rfl

theorem rotations_succ (hguard : 0 < config.refreshGuardInterval)
    (hinterval : 2 * config.refreshGuardInterval + 2 ≤ config.refreshInterval) (t : ℕ) :
    rotations config (t + 1) =
      if t % config.refreshInterval = config.refreshInterval - config.refreshGuardInterval - 1 then
        rotations config t + 1
      else rotations config t := by
  have hlt := Nat.mod_lt t (show 0 < config.refreshInterval by omega)
  unfold rotations
  rcases Nat.lt_or_ge (t % config.refreshInterval + 1) config.refreshInterval with hin | hlast
  · obtain ⟨hround, hclock⟩ := rounds_next hin
    rw [hround, hclock]
    split_ifs <;> omega
  · obtain ⟨hround, hclock⟩ := rounds_wrap (show t % config.refreshInterval + 1 = _ by omega)
    rw [hround, hclock]
    split_ifs <;> omega

/-- The counter wraps at the interval, and the row rotates in the middle of the blank one. -/
theorem step_eq (hguard : 0 < config.refreshGuardInterval)
    (hinterval : 2 * config.refreshGuardInterval + 2 ≤ config.refreshInterval)
    (s : MatrixLed config) :
    s.step.refreshCounter = (if s.refreshCounter.toNat = config.refreshInterval - 1 then 0
        else s.refreshCounter + 1) ∧
      s.step.rowReg = if s.refreshCounter.toNat =
          config.refreshInterval - config.refreshGuardInterval - 1 then rotated s.rowReg
        else s.rowReg := by
  unfold MatrixLed.step
  constructor
  · split_ifs <;> first | rfl | omega
  · split_ifs <;> first | rfl | omega

theorem At.step {t : ℕ} {s : MatrixLed config} (h : At t s) (hrows : 0 < config.rows)
    (hguard : 0 < config.refreshGuardInterval)
    (hinterval : 2 * config.refreshGuardInterval + 2 ≤ config.refreshInterval) :
    At (t + 1) s.step := by
  obtain ⟨hcounter, hrow⟩ := step_eq hguard hinterval s
  rw [h.refreshCounter] at hcounter hrow
  have hlt := Nat.mod_lt t (show 0 < config.refreshInterval by omega)
  constructor
  · rw [hcounter]
    split_ifs with hlast
    · rw [(rounds_wrap (show t % config.refreshInterval + 1 = _ by omega)).2]
      exact BitVec.toNat_zero
    · have hin : t % config.refreshInterval + 1 < config.refreshInterval := by omega
      rw [toNat_add_one (by rw [h.refreshCounter]; exact lt_two_pow_clog hin), h.refreshCounter,
        (rounds_next hin).2]
  · rw [hrow, rotations_succ hguard hinterval]
    split_ifs
    · rw [h.rowReg, rotated_row hrows]
    · exact h.rowReg

end

/-! ## The outputs -/

section
variable {config : MatrixLedConfig} {s : MatrixLed config}

/-- The column is the one of the row that is selected. -/
theorem column_eq {i : Fin config.rows} (h : s.rowReg = 1#(config.rows) <<< i.val)
    (matrix : Matrix config) : s.column matrix = matrix i := by
  unfold MatrixLed.column
  cases hfind : (List.finRange config.rows).find? fun i => s.rowReg == 1#(config.rows) <<< i.val with
  | none =>
    have hnone := List.find?_eq_none.mp hfind i (List.mem_finRange i)
    exact absurd (beq_iff_eq.mpr h) hnone
  | some j =>
    have hj := List.find?_some hfind
    rw [beq_iff_eq, h] at hj
    exact congrArg matrix (Fin.ext (row_inj i.isLt hj)).symm

theorem rowEnable_iff (hguard : 0 < config.refreshGuardInterval)
    (hinterval : 2 * config.refreshGuardInterval + 2 ≤ config.refreshInterval) :
    s.rowEnable = true ↔
      s.refreshCounter.toNat < config.refreshInterval - 2 * config.refreshGuardInterval - 1 ∨
        config.refreshInterval - 1 ≤ s.refreshCounter.toNat := by
  unfold MatrixLed.rowEnable
  split_ifs <;> simp <;> omega

/-- The clock before place `j` of round `k`; in front of the first place it is the last one of
the round before. -/
theorem clock_before {t n k j : ℕ} (ht : t + 1 = k * n + j) (hj : j < n) :
    t % n + 1 = (if j = 0 then n else j) ∧ t / n + (if j = 0 then 1 else 0) = k := by
  cases j with
  | zero =>
    obtain ⟨q, rfl⟩ : ∃ q, k = q + 1 := Nat.exists_eq_succ_of_ne_zero fun hk => by
      rw [hk, Nat.zero_mul] at ht
      omega
    have hlast : t = q * n + (n - 1) := by
      rw [Nat.succ_mul] at ht
      omega
    obtain ⟨hdiv, hmod⟩ := rounds_at q (show n - 1 < n by omega)
    rw [hlast, hdiv, hmod]
    exact ⟨Nat.sub_add_cancel hj, rfl⟩
  | succ j =>
    have hin : t = k * n + j := by omega
    obtain ⟨hdiv, hmod⟩ := rounds_at k (show j < n by omega)
    rw [hin, hdiv, hmod]
    exact ⟨rfl, rfl⟩

/-- A clock by its round and its place in the round: lit in front, blank behind. -/
theorem At.row {t : ℕ} (h : At t s) (hguard : 0 < config.refreshGuardInterval)
    (hinterval : 2 * config.refreshGuardInterval + 2 ≤ config.refreshInterval) {k j : ℕ}
    (ht : t + 1 = k * config.refreshInterval + j) (hj : j < config.refreshInterval) :
    s.row = if j < config.refreshInterval - 2 * config.refreshGuardInterval then
      1#(config.rows) <<< (k % config.rows) else 0 := by
  obtain ⟨hclock, hround⟩ := clock_before ht hj
  have henable := rowEnable_iff (s := s) hguard hinterval
  rw [h.refreshCounter] at henable
  have hlit : s.rowEnable = true ↔
      j < config.refreshInterval - 2 * config.refreshGuardInterval := by
    rw [henable]
    split_ifs at hclock <;> omega
  unfold MatrixLed.row
  rw [if_congr hlit rfl rfl]
  refine if_ctx_congr Iff.rfl (fun hfront => ?_) fun _ => rfl
  have hrotations : rotations config t = k := by
    unfold rotations
    rw [← hround]
    split_ifs at hclock ⊢ <;> omega
  rw [h.rowReg, hrotations]

end

section
variable (config : MatrixLedConfig) (matrix : ℕ → Matrix config)

/-- The state before clock `t` of the run from reset. -/
def run : ℕ → MatrixLed config := (machine config).run (.new config) matrix

theorem at_run (hrows : 0 < config.rows) (hguard : 0 < config.refreshGuardInterval)
    (hinterval : 2 * config.refreshGuardInterval + 2 ≤ config.refreshInterval) (t : ℕ) :
    At t (run config matrix t) := by
  induction t with
  | zero => exact At.new (by omega)
  | succ t ih => exact ih.step hrows hguard hinterval

end

/-- **Scanning the rows.** No two rows are ever on, and the columns are those of the row that
is. Round `k` starts one clock before the counter does, so the first one is a clock shorter; it
shows row `k mod rows` and then blanks the display for two guard intervals. -/
theorem rows_scanned (config : MatrixLedConfig) (hrows : 2 ≤ config.rows)
    (hguard : 1 ≤ config.refreshGuardInterval)
    (hinterval : 2 * config.refreshGuardInterval + 2 ≤ config.refreshInterval)
    (matrix : ℕ → Matrix config) :
    let run := run config matrix
    let lit := config.refreshInterval - 2 * config.refreshGuardInterval
    (∀ t, (run t).row = 0 ∨ ∃ i : Fin config.rows, (run t).row = 1#(config.rows) <<< i.val) ∧
    (∀ t, ∀ i : Fin config.rows, (run t).row = 1#(config.rows) <<< i.val →
      (run t).column (matrix t) = matrix t i) ∧
    ∀ k t, ∀ j, t + 1 = k * config.refreshInterval + j →
      (j < lit → (run t).row = 1#(config.rows) <<< (k % config.rows)) ∧
      (lit ≤ j → j < lit + 2 * config.refreshGuardInterval → (run t).row = 0) := by
  intro run lit
  have hat : ∀ t, At t (run t) := at_run config matrix (by omega) hguard hinterval
  have hpos : 0 < config.rows := by omega
  refine ⟨?_, ?_, ?_⟩
  · intro t
    have hrow : (run t).row = if (run t).rowEnable then (run t).rowReg else 0 := rfl
    rw [hrow, (hat t).rowReg]
    cases (run t).rowEnable with
    | false => exact .inl rfl
    | true => exact .inr ⟨⟨_, Nat.mod_lt _ hpos⟩, rfl⟩
  · intro t i hi
    refine column_eq ?_ _
    have hne : (1#(config.rows) <<< i.val) ≠ 0 := by
      intro hzero
      have hbit : (1#(config.rows) <<< i.val).getLsbD i = (0 : BitVec config.rows).getLsbD i := by
        rw [hzero]
      rw [row_getLsbD, decide_eq_true i.isLt, decide_eq_true rfl] at hbit
      simp at hbit
    unfold MatrixLed.row at hi
    split_ifs at hi with henable
    · exact hi
    · exact absurd hi.symm hne
  · intro k t j ht
    have hround := (hat t).row hguard hinterval (k := k) (j := j) ht
    constructor
    · intro hlit
      rw [hround (by omega), if_pos hlit]
    · intro hblank hend
      rw [hround (by omega), if_neg (by omega)]

/-- Rounds of five clocks: the first row comes back in clock nine. -/
theorem rows_scanned_small : (run ⟨2, 4, 5, 1⟩ (fun t i => .ofNat 4 (t + i)) 9).row = 1#2 :=
  ((rows_scanned ⟨2, 4, 5, 1⟩ (by decide) (by decide) (by decide)
    (fun t i => .ofNat 4 (t + i))).2.2 2 9 0 rfl).1 (by decide)

end SeccampRiscvCpu.LedMatrix
