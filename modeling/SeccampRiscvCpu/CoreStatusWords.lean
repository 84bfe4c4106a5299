import SeccampRiscvCpu.CoreProvenance

/-!
# The two words of `mstatus`

`MStatusRegister` is cut out of two words and put together again at every write to one
of them. The upper 26 bits of the high word meet a field of 25: the field keeps the
lower 25, and reading puts it back one place too high. A high word therefore only
survives if its bits from the sixth on are all equal, and the low word always does.
-/
namespace SeccampRiscvCpu.CoreStatusWords
open ByteMemory CoreRegisters CorePipeline CoreProvenance ClockedMachine

section Words

theorem boolBit_getLsbD (w : Word) (k : ℕ) : boolBit (w.getLsbD k) = w.extractLsb' k 1 := by
  ext j hj
  obtain rfl : j = 0 := by omega
  simp [boolBit]

theorem extractLsb'_append_low {u v n : ℕ} (x : BitVec u) (y : BitVec v) (h : n ≤ v) :
    (x ++ y).extractLsb' 0 n = y.extractLsb' 0 n := by
  ext j hj
  have hlt : j < v := by omega
  simp [BitVec.getLsbD_append, hlt]

/-- The fields of the low word lie side by side. -/
theorem toMStatusL_ofWords (low high : Word) :
    (MStatusRegister.ofWords low high).toMStatusL = low := by
  have hwpri3 : (high.extractLsb' 6 1 ++ low.extractLsb' 23 8).extractLsb' 0 8 =
      low.extractLsb' 23 8 := by
    rw [extractLsb'_append_low _ _ (Nat.le_refl 8), BitVec.extractLsb'_eq_self]
  simp only [MStatusRegister.toMStatusL, MStatusRegister.ofWords, boolBit_getLsbD, hwpri3]
  simp (disch := rfl) only [BitVec.extractLsb'_append_extractLsb'_eq_extractLsb']
  exact BitVec.extractLsb'_eq_self

/-- From the seventh on a bit of the high word comes back as the next higher one. -/
theorem toMStatusH_bit (low high : Word) {k : ℕ} (hk : k < 32) :
    (MStatusRegister.ofWords low high).toMStatusH.getLsbD k =
      high.getLsbD (if k < 7 then k else k - 1) := by
  have hbit (b : Bool) {j : ℕ} (hj : j < 1) : (boolBit b).getLsbD j = b := by
    obtain rfl : j = 0 := by omega
    simp [boolBit]
  simp only [MStatusRegister.toMStatusH, MStatusRegister.ofWords, BitVec.getLsbD_append,
    BitVec.getLsbD_extractLsb', BitVec.getLsbD_setWidth]
  grind

/-- The bits from the sixth on are all equal. -/
def Uniform (high : Word) : Prop := high.extractLsb' 7 25 = high.extractLsb' 6 25

instance (high : Word) : Decidable (Uniform high) := inferInstanceAs (Decidable (_ = _))

theorem toMStatusH_ofWords_iff (low high : Word) :
    (MStatusRegister.ofWords low high).toMStatusH = high ↔ Uniform high := by
  constructor
  · intro h
    apply BitVec.eq_of_getLsbD_eq
    intro j hj
    have hbit := toMStatusH_bit low high (k := 7 + j) (by omega)
    have hplace : 7 + j - 1 = 6 + j := by omega
    rw [h, if_neg (by omega), hplace] at hbit
    simp only [BitVec.getLsbD_extractLsb', hj, decide_true, Bool.true_and]
    exact hbit
  · intro h
    apply BitVec.eq_of_getLsbD_eq
    intro k hk
    rw [toMStatusH_bit low high hk]
    split_ifs with hlow
    · rfl
    · have hbit := congrArg (fun w => w.getLsbD (k - 7)) h
      have hj : k - 7 < 25 := by omega
      have hplace : 6 + (k - 7) = k - 1 := by omega
      have hplace' : 7 + (k - 7) = k := by omega
      simp only [BitVec.getLsbD_extractLsb', hj, decide_true, Bool.true_and, hplace, hplace']
        at hbit
      exact hbit.symm

/-- One bit of a word is set or cleared. -/
def withBit (w : Word) (k : ℕ) (b : Bool) : Word :=
  if b then w ||| BitVec.twoPow 32 k else w &&& ~~~ BitVec.twoPow 32 k

theorem withBit_getElem (w : Word) (k : ℕ) (b : Bool) {j : ℕ} (hj : j < 32) :
    (withBit w k b)[j] = if j = k then b else w[j] := by
  unfold withBit
  cases b <;> grind

theorem withBit_extractLsb' (w : Word) {k i n : ℕ} (b : Bool)
    (h : k < i ∨ i + n ≤ k) : (withBit w k b).extractLsb' i n = w.extractLsb' i n := by
  unfold withBit
  cases b <;> grind

theorem ofWords_mie (low high : Word) (b : Bool) :
    { MStatusRegister.ofWords low high with mie := b } = .ofWords (withBit low 3 b) high := by
  simp [MStatusRegister.ofWords, withBit_getElem, withBit_extractLsb']

theorem ofWords_mpie (low high : Word) (b : Bool) :
    { MStatusRegister.ofWords low high with mpie := b } = .ofWords (withBit low 7 b) high := by
  simp [MStatusRegister.ofWords, withBit_getElem, withBit_extractLsb']

end Words

section Writes

/-- The value MEM writes to the register at `addr` in this cycle. -/
def writtenTo (addr : BitVec 12) (s : Core) (i : Inputs) : Option Word :=
  if s.memReg.csrCmd ≠ .x ∧ s.memReg.csrAddr = addr then
    some (csrWdata s.memReg (csrRdata s.csrs i addr))
  else none

/-- `mstatus` and `mstatush`. -/
structure StatusWords where
  low : Word
  high : Word
  deriving DecidableEq, Repr

/-- What the two registers read as. -/
def readStatus (c : Csrs) (i : Inputs) : StatusWords := ⟨csrRdata c i 0x300, csrRdata c i 0x310⟩

/-- The low word after interrupt entry and MRET. -/
def exeLow (s : Core) (low : Word) : Word :=
  let entered := if s.exeInterrupt.hasPendingInterrupt then
      withBit (withBit low 7 (low.getLsbD 3)) 3 false
    else low
  if s.exeReg.mret then withBit entered 3 (low.getLsbD 7) else entered

/-- Each word keeps what was last written to it, up to what EX does to the low one. -/
def StatusWords.next (w : StatusWords) (s : Core) (i : Inputs) : StatusWords :=
  match writtenTo 0x300 s i, writtenTo 0x310 s i with
  | some x, _ => { w with low := x }
  | none, some x => { w with high := x }
  | none, none => { w with low := exeLow s w.low }

/-- A write to `mstatush` leaves its upper bits all equal. -/
def UniformWrite (s : Core) (i : Inputs) : Prop := ∀ x ∈ writtenTo 0x310 s i, Uniform x

instance (s : Core) (i : Inputs) : Decidable (UniformWrite s i) :=
  inferInstanceAs (Decidable (∀ x ∈ writtenTo 0x310 s i, Uniform x))

variable {w : StatusWords} {s : Core} {i : Inputs}

theorem readStatus_ofWords {c : Csrs} (h : c.mstatus = .ofWords w.low w.high) :
    readStatus c i = w ↔ Uniform w.high := by
  have hlow : csrRdata c i 0x300 = w.low := by
    rw [← toMStatusL_ofWords w.low w.high, ← h]
    rfl
  have hhigh : csrRdata c i 0x310 = (MStatusRegister.ofWords w.low w.high).toMStatusH := by
    rw [← h]
    rfl
  rw [readStatus, hlow, hhigh, ← toMStatusH_ofWords_iff w.low w.high]
  exact ⟨congrArg StatusWords.high, fun hsame => by rw [hsame]⟩

theorem exeCsrs_mstatus {low high : Word} (h : s.csrs.mstatus = .ofWords low high) :
    (exeCsrs s).mstatus = .ofWords (exeLow s low) high := by
  have hmie : s.csrs.mstatus.mie = low.getLsbD 3 := by
    rw [h]
    rfl
  have hmpie : s.csrs.mstatus.mpie = low.getLsbD 7 := by
    rw [h]
    rfl
  have hentry : { s.csrs.mstatus with mpie := s.csrs.mstatus.mie, mie := false } =
      MStatusRegister.ofWords (withBit (withBit low 7 s.csrs.mstatus.mie) 3 false) high := by
    rw [← ofWords_mie, ← ofWords_mpie, h]
  unfold exeCsrs exeLow
  rw [← hmie, ← hmpie]
  cases s.exeInterrupt.hasPendingInterrupt <;> cases s.exeReg.mret
  · exact h
  · exact (congrArg (fun r => { r with mie := s.csrs.mstatus.mpie }) h).trans (ofWords_mie _ _ _)
  · exact hentry
  · exact (congrArg (fun r => { r with mie := s.csrs.mstatus.mpie }) hentry).trans
      (ofWords_mie _ _ _)

theorem csrWrite_mstatus (c next : Csrs) (i : Inputs) (m : MemReg) :
    (csrWrite c next i m).mstatus =
      if m.csrCmd ≠ .x ∧ m.csrAddr = 0x300 then
        .ofWords (csrWdata m (csrRdata c i 0x300)) c.mstatus.toMStatusH
      else if m.csrCmd ≠ .x ∧ m.csrAddr = 0x310 then
        .ofWords c.mstatus.toMStatusL (csrWdata m (csrRdata c i 0x310))
      else next.mstatus := by
  unfold csrWrite
  by_cases hcmd : m.csrCmd = .x
  · simp [hcmd]
  · simp only [hcmd, if_false, ne_eq, not_false_eq_true, true_and]
    split <;> simp_all

/-- The register holds the two words, as long as the high one comes back as it is. -/
theorem csrsNext_mstatus (h : s.csrs.mstatus = .ofWords w.low w.high) (hhigh : Uniform w.high) :
    (csrsNext s i).mstatus = .ofWords (w.next s i).low (w.next s i).high := by
  rw [csrsNext, csrWrite_mstatus, exeCsrs_mstatus h, h, toMStatusL_ofWords,
    (toMStatusH_ofWords_iff _ _).mpr hhigh]
  unfold StatusWords.next writtenTo
  by_cases hlow : s.memReg.csrCmd ≠ .x ∧ s.memReg.csrAddr = 0x300
  · rw [if_pos hlow, if_pos hlow]
  · rw [if_neg hlow, if_neg hlow]
    by_cases hhigh : s.memReg.csrCmd ≠ .x ∧ s.memReg.csrAddr = 0x310
    · rw [if_pos hhigh, if_pos hhigh]
    · rw [if_neg hhigh, if_neg hhigh]

theorem next_uniform_iff (hhigh : Uniform w.high) :
    Uniform (w.next s i).high ↔ UniformWrite s i := by
  unfold UniformWrite StatusWords.next
  cases hlow : writtenTo 0x300 s i with
  | some x =>
    have hnone : writtenTo 0x310 s i = none := by
      unfold writtenTo at hlow ⊢
      grind
    rw [hnone]
    exact iff_of_true hhigh nofun
  | none =>
    cases writtenTo 0x310 s i with
    | none => exact iff_of_true hhigh nofun
    | some x => simp

end Writes

section Runs
variable (startAddress : Word) (regfile : BitVec 5 → Word) (input : ℕ → Inputs)

/-- The words as last written before cycle `t`. -/
def lastWritten : ℕ → StatusWords
  | 0 => ⟨0, 0⟩
  | t + 1 => (lastWritten t).next (coreRun startAddress regfile input t).core (input t)

/-- Before cycle `t` both registers read as last written. -/
def ReadsBack (t : ℕ) : Prop :=
  readStatus (coreRun startAddress regfile input t).core.csrs (input t) =
    lastWritten startAddress regfile input t

variable {startAddress regfile input}

/-- After uniform writes the register holds the words, and the high one is uniform. -/
theorem holds_lastWritten {t : ℕ}
    (hwrites : ∀ u < t, UniformWrite (coreRun startAddress regfile input u).core (input u)) :
    (coreRun startAddress regfile input t).core.csrs.mstatus =
      .ofWords (lastWritten startAddress regfile input t).low
        (lastWritten startAddress regfile input t).high ∧
      Uniform (lastWritten startAddress regfile input t).high := by
  induction t with
  | zero =>
    have hreset : ({} : MStatusRegister) = .ofWords 0 0 ∧ Uniform 0 := by decide
    exact hreset
  | succ t ih =>
    obtain ⟨hholds, hhigh⟩ := ih fun u hu => hwrites u (Nat.lt_succ_of_lt hu)
    exact ⟨csrsNext_mstatus hholds hhigh,
      (next_uniform_iff hhigh).mpr (hwrites t (Nat.lt_succ_self t))⟩

/-- **The round trip of `mstatus`.** The low word always comes back and the high one exactly
if it is uniform. So in a run up to any cycle both registers read as last written if and only
if every write to `mstatush` has been uniform. -/
theorem status_round_trip_iff (low high startAddress : Word) (regfile : BitVec 5 → Word)
    (input : ℕ → Inputs) (t : ℕ) :
    ((MStatusRegister.ofWords low high).toMStatusL = low ∧
      ((MStatusRegister.ofWords low high).toMStatusH = high ↔ Uniform high)) ∧
    ((∀ u ≤ t, ReadsBack startAddress regfile input (u + 1)) ↔
      ∀ u ≤ t, UniformWrite (coreRun startAddress regfile input u).core (input u)) := by
  refine ⟨⟨toMStatusL_ofWords low high, toMStatusH_ofWords_iff low high⟩,
    Machine.forall_iff_of_prefix ?_ t⟩
  intro u hwrites
  obtain ⟨hholds, hhigh⟩ := holds_lastWritten hwrites
  exact (readStatus_ofWords (csrsNext_mstatus hholds hhigh)).trans (next_uniform_iff hhigh)

/-- The sixth bit of the high word comes back with the seventh. -/
theorem status_round_trip_sixth : ¬ ∀ low high,
    (MStatusRegister.ofWords low high).toMStatusL = low ∧
      (MStatusRegister.ofWords low high).toMStatusH = high := by
  intro hall
  exact absurd (hall 0 0x40).2 (by decide)

end Runs

end SeccampRiscvCpu.CoreStatusWords
