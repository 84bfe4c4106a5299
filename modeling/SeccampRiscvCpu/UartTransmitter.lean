import SeccampRiscvCpu.WordCounters

/-!
# The UART transmitter

`UartTx` shifts a start bit, the bits of a word from the lowest up and a stop bit
onto the line, each for `baudDivider` clocks. Seen from the line it is a wire that
is either idle or carries one frame of a known age.
-/
namespace SeccampRiscvCpu.UartTransmitter
open WordCounters

/-- Every bit of a register moves down one place and `b` comes in at the top. -/
def shiftIn {w : ℕ} (b : Bool) (bits : BitVec w) : BitVec w := (BitVec.cons b bits).extractLsb' 1 w

theorem shiftIn_bit {w : ℕ} (b : Bool) (bits : BitVec w) {i : ℕ} (hi : i < w) :
    (shiftIn b bits).getLsbD i = if i + 1 = w then b else bits.getLsbD (i + 1) := by
  simp only [shiftIn, BitVec.getLsbD_extractLsb', BitVec.getLsbD_cons, hi, decide_true,
    Bool.true_and, Nat.add_comm 1 i]

structure UartTx (numberOfBits baudDivider : ℕ) where
  rateCounter : BitVec (Nat.clog 2 baudDivider)
  bitCounter : BitVec (Nat.clog 2 (numberOfBits + 2))
  bits : BitVec (numberOfBits + 2)
deriving DecidableEq

/-- STOP(1), DATA, START(0) -/
def frame {n : ℕ} (x : BitVec n) : BitVec (n + 2) := BitVec.cons true (x.concat false)

namespace UartTx
variable {n B : ℕ}

/-- The shift register has no reset value. -/
def init (bits : BitVec (n + 2)) : UartTx n B := ⟨0, 0, bits⟩

/-- `io.tx` -/
def tx (s : UartTx n B) : Bool := s.bitCounter == 0 || s.bits.getLsbD 0

/-- `io.in.ready` -/
def inReady (s : UartTx n B) : Bool := s.bitCounter == 0

/-- The word that is transferred in this clock. -/
def accepted (s : UartTx n B) (offer : Option (BitVec n)) : Option (BitVec n) :=
  if s.inReady then offer else none

def step (s : UartTx n B) (offer : Option (BitVec n)) : UartTx n B :=
  if s.bitCounter = 0 then
    match s.accepted offer with
    | some x => ⟨.ofNat _ (B - 1), .ofNat _ (n + 2), frame x⟩
    | none => s
  else if s.rateCounter = 0 then
    -- shift out from the lowest bit, the highest one stays
    ⟨.ofNat _ (B - 1), s.bitCounter - 1, shiftIn s.bits.msb s.bits⟩
  else { s with rateCounter := s.rateCounter - 1 }

end UartTx

/-! ## The wire -/

/-- Nothing, or a word and for how many clocks its frame has been on the wire. -/
abbrev Wire (n : ℕ) := Option (BitVec n × ℕ)

namespace Wire
variable {n : ℕ}

def next (B : ℕ) (offer : Option (BitVec n)) : Wire n → Wire n
  | none => offer.map fun x => (x, 1)
  | some (x, age) => if age < (n + 2) * B then some (x, age + 1) else none

/-- An idle wire is high. -/
def level (B : ℕ) : Wire n → Bool
  | none => true
  | some (x, age) => (frame x).getLsbD ((age - 1) / B)

/-- What the wire takes in this clock. -/
def accepted (offer : Option (BitVec n)) : Wire n → Option (BitVec n)
  | none => offer
  | some _ => none

/-- The wire before clock `t`. -/
def run (B : ℕ) (offers : ℕ → Option (BitVec n)) : ℕ → Wire n
  | 0 => none
  | t + 1 => next B (offers t) (run B offers t)

end Wire

theorem frame_bit {n : ℕ} (x : BitVec n) (k : ℕ) :
    (frame x).getLsbD k =
      if k = n + 1 then true else if k = 0 then false else x.getLsbD (k - 1) := by
  simp only [frame, BitVec.getLsbD_cons, BitVec.getLsbD_concat]

section
variable {n B : ℕ} {offers : ℕ → Option (BitVec n)}

/-- A frame has been on the wire since it was accepted. -/
theorem run_age {u : ℕ} {x : BitVec n} {age : ℕ} (h : Wire.run B offers u = some (x, age)) :
    0 < age ∧ age ≤ max 1 ((n + 2) * B) ∧ ∃ t, u = t + age ∧
      (Wire.run B offers t).accepted (offers t) = some x := by
  induction u generalizing x age with
  | zero => simp [Wire.run] at h
  | succ u ih =>
    rw [Wire.run] at h
    cases hw : Wire.run B offers u with
    | none =>
      rw [hw] at h
      obtain ⟨y, hy, hpair⟩ := Option.map_eq_some_iff.mp h
      obtain ⟨rfl, rfl⟩ := Prod.mk.inj hpair
      exact ⟨Nat.one_pos, Nat.le_max_left _ _, u, rfl, by rw [hw]; exact hy⟩
    | some w =>
      obtain ⟨y, age'⟩ := w
      rw [hw, Wire.next] at h
      split_ifs at h with hlt
      · obtain ⟨rfl, rfl⟩ := Prod.mk.inj (Option.some.inj h)
        obtain ⟨-, -, t, rfl, haccepted⟩ := ih hw
        exact ⟨Nat.succ_pos _, by omega, t, by omega, haccepted⟩

/-- An accepted word stays on the wire for the whole of its frame. -/
theorem run_accepted {t : ℕ} {x : BitVec n}
    (h : (Wire.run B offers t).accepted (offers t) = some x) {age : ℕ} (hpos : 0 < age)
    (hage : age ≤ (n + 2) * B) : Wire.run B offers (t + age) = some (x, age) := by
  induction age, hpos using Nat.le_induction with
  | base =>
    rw [Wire.run]
    cases hw : Wire.run B offers t with
    | none =>
      rw [hw] at h
      rw [Wire.accepted] at h
      rw [Wire.next, h]
      rfl
    | some w =>
      rw [hw] at h
      simp [Wire.accepted] at h
  | succ age hpos ih =>
    rw [← Nat.add_assoc, Wire.run, ih (by omega), Wire.next, if_pos (by omega)]

/-- A frame ends, so the wire is idle again after at most one frame. -/
theorem run_idle (hB : 0 < B) (t : ℕ) : ∃ i ≤ (n + 2) * B, Wire.run B offers (t + i) = none := by
  cases hw : Wire.run B offers t with
  | none => exact ⟨0, Nat.zero_le _, hw⟩
  | some w =>
    obtain ⟨x, age⟩ := w
    have hframe : 0 < (n + 2) * B := Nat.mul_pos (Nat.succ_pos _) hB
    obtain ⟨hpos, hage, start, rfl, haccepted⟩ := run_age hw
    have hlast := run_accepted haccepted hframe (Nat.le_refl _)
    refine ⟨(n + 2) * B - age + 1, by omega, ?_⟩
    have hclock : start + age + ((n + 2) * B - age + 1) = start + (n + 2) * B + 1 := by omega
    rw [hclock, Wire.run, hlast, Wire.next, if_neg (Nat.lt_irrefl _)]

end

/-! ## The transmitter drives the wire -/

section
variable {n B : ℕ} {s : UartTx n B} {w : Wire n}

/-- The registers while this is on the wire. -/
def Sends (s : UartTx n B) : Wire n → Prop
  | none => s.bitCounter.toNat = 0
  | some (x, age) => 0 < age ∧ s.bitCounter.toNat + (age - 1) / B = n + 2 ∧
      0 < s.bitCounter.toNat ∧ s.rateCounter.toNat + (age - 1) % B + 1 = B ∧
      ∀ i < s.bitCounter.toNat, s.bits.getLsbD i = (frame x).getLsbD (i + (age - 1) / B)

theorem Sends.ready (h : Sends s w) : (s.bitCounter == 0) = w.isNone := by
  match w, h with
  | none, h => exact beq_iff_eq.mpr ((eq_zero_iff _).mpr h)
  | some _, ⟨_, _, hbusy, _⟩ => exact beq_false_of_ne (mt (eq_zero_iff _).mp hbusy.ne')

theorem Sends.accepted (h : Sends s w) (offer : Option (BitVec n)) :
    s.accepted offer = w.accepted offer := by
  rw [UartTx.accepted, UartTx.inReady, h.ready]
  cases w with
  | none => rfl
  | some w => rfl

theorem Sends.tx (h : Sends s w) : s.tx = w.level B := by
  rw [UartTx.tx, h.ready]
  match w, h with
  | none, _ => rfl
  | some (x, age), ⟨_, _, hbusy, _, hbits⟩ =>
    have hbit := hbits 0 hbusy
    rw [Nat.zero_add] at hbit
    exact hbit

theorem Sends.step (hB : 0 < B) (hn : n + 2 < 2 ^ Nat.clog 2 (n + 2)) (h : Sends s w)
    (offer : Option (BitVec n)) : Sends (s.step offer) (w.next B offer) := by
  have hrate : (BitVec.ofNat (Nat.clog 2 B) (B - 1)).toNat = B - 1 := toNat_literal (by omega)
  match w, h with
  | none, h =>
    have hidle : s.bitCounter = 0 := (eq_zero_iff _).mpr h
    have haccepted : s.accepted offer = offer := Sends.accepted h offer
    rw [UartTx.step, if_pos hidle, haccepted]
    cases offer with
    | none => exact h
    | some x =>
      have hcount : (BitVec.ofNat (Nat.clog 2 (n + 2)) (n + 2)).toNat = n + 2 := by
        rw [BitVec.toNat_ofNat, Nat.mod_eq_of_lt hn]
      refine ⟨Nat.one_pos, ?_, ?_, ?_, ?_⟩
      · simp [hcount]
      · simp [hcount]
      · simp only [hrate, Nat.sub_self, Nat.zero_mod]
        omega
      · intro i _
        simp
  | some (x, age), ⟨hpos, hcount, hbusy, hrest, hbits⟩ =>
    have hne : s.bitCounter ≠ 0 := fun hz => absurd ((eq_zero_iff _).mp hz) hbusy.ne'
    obtain ⟨k, rfl⟩ : ∃ k, age = k + 1 := ⟨age - 1, by omega⟩
    simp only [Nat.add_sub_cancel] at hcount hrest hbits
    have hk : k < (n + 2) * B := by
      rw [← Nat.div_lt_iff_lt_mul hB]
      omega
    rw [UartTx.step, if_neg hne]
    by_cases hz : s.rateCounter.toNat = 0
    · -- the next bit, or the end of the frame
      obtain ⟨hdiv, hmod⟩ := rounds_wrap (k := k) (n := B) (by omega)
      have hdec := toNat_sub_one hbusy
      rw [if_pos ((eq_zero_iff _).mpr hz)]
      by_cases hend : k + 1 < (n + 2) * B
      · have hmore : (k + 1) / B < n + 2 := (Nat.div_lt_iff_lt_mul hB).mpr hend
        rw [Wire.next, if_pos hend]
        simp only [Sends, Nat.add_sub_cancel, hdiv, hmod, hdec, hrate]
        refine ⟨Nat.succ_pos _, by omega, by omega, by omega, ?_⟩
        intro i hi
        have hlow : i + 1 < s.bitCounter.toNat := Nat.add_lt_of_lt_sub hi
        have htop : i + 1 < n + 2 := Nat.lt_of_lt_of_le hlow (Nat.le.intro hcount)
        rw [shiftIn_bit _ _ (Nat.lt_of_succ_lt htop), if_neg htop.ne, hbits (i + 1) hlow]
        congr 1
        omega
      · have hlast : ¬ (k + 1) / B < n + 2 := fun hlt =>
          hend ((Nat.div_lt_iff_lt_mul hB).mp hlt)
        rw [Wire.next, if_neg hend]
        simp only [Sends, hdec]
        omega
    · obtain ⟨hdiv, hmod⟩ := rounds_next (k := k) (n := B) (by omega)
      have hmore : k + 1 < (n + 2) * B := by
        rw [← Nat.div_lt_iff_lt_mul hB]
        omega
      rw [if_neg (mt (eq_zero_iff _).mp hz), Wire.next, if_pos hmore]
      simp only [Sends, Nat.add_sub_cancel, hdiv, hmod, toNat_sub_one (Nat.pos_of_ne_zero hz)]
      exact ⟨Nat.succ_pos _, hcount, hbusy, by omega, hbits⟩

end

/-! ## The waveform of a run -/

section
variable {n B : ℕ}

/-- The transmitter before clock `t`. -/
def txRun (bits : BitVec (n + 2)) (offers : ℕ → Option (BitVec n)) : ℕ → UartTx n B
  | 0 => .init bits
  | t + 1 => (txRun bits offers t).step (offers t)

/-- The level in bit time `k` of a word's frame. -/
def serial (x : BitVec n) (k : ℕ) : Bool :=
  if k = 0 then false else if k = n + 1 then true else x.getLsbD (k - 1)

/-- Every accepted word appears on the line, one bit time after the other, while no other is
taken; at all other times the line is high and the next word would be taken. -/
structure Waveform (run : ℕ → UartTx n B) (offers : ℕ → Option (BitVec n)) : Prop where
  frames : ∀ t x, (run t).accepted (offers t) = some x → ∀ k < n + 2, ∀ d < B,
    (run (t + 1 + (k * B + d))).tx = serial x k ∧ (run (t + 1 + (k * B + d))).inReady = false
  idle : ∀ u, (∀ t x, (run t).accepted (offers t) = some x → u ≤ t ∨ t + (n + 2) * B < u) →
    (run u).tx = true ∧ (run u).inReady = true

theorem serial_eq_frame (x : BitVec n) (k : ℕ) : serial x k = (frame x).getLsbD k := by
  rw [frame_bit, serial]
  split_ifs <;> first
    | rfl
    | omega

/-- The counter holds the number of bits of a frame unless that is a power of two. -/
theorem lt_two_pow_clog_iff : n + 2 < 2 ^ Nat.clog 2 (n + 2) ↔ ∀ k, n + 2 ≠ 2 ^ k := by
  constructor
  · intro h k hk
    rw [hk, Nat.clog_pow 2 k Nat.one_lt_two] at h
    exact Nat.lt_irrefl _ h
  · intro h
    exact Nat.lt_of_le_of_ne (Nat.le_pow_clog Nat.one_lt_two _) (h _)

variable {bits : BitVec (n + 2)} {offers : ℕ → Option (BitVec n)}

theorem txRun_sends (hB : 0 < B) (hn : n + 2 < 2 ^ Nat.clog 2 (n + 2)) (t : ℕ) :
    Sends (txRun bits offers t : UartTx n B) (Wire.run B offers t) := by
  induction t with
  | zero => exact BitVec.toNat_zero
  | succ t ih => exact ih.step hB hn (offers t)

theorem waveform_of_fits (hB : 0 < B) (hn : n + 2 < 2 ^ Nat.clog 2 (n + 2)) :
    Waveform (txRun bits offers : ℕ → UartTx n B) offers := by
  have hsends : ∀ t, Sends (txRun bits offers t : UartTx n B) (Wire.run B offers t) :=
    txRun_sends hB hn
  constructor
  · intro t x haccepted k hk d hd
    rw [(hsends t).accepted] at haccepted
    have hbit : (k * B + d) / B = k := (rounds_at k hd).1
    have hlast : k * B + d < (n + 2) * B := by
      rw [← Nat.div_lt_iff_lt_mul hB, hbit]
      exact hk
    have hclock : t + 1 + (k * B + d) = t + (k * B + d + 1) := by omega
    have hwire := run_accepted haccepted (Nat.succ_pos (k * B + d)) hlast
    rw [hclock, (hsends _).tx, UartTx.inReady, (hsends _).ready, hwire, serial_eq_frame,
      Wire.level, Nat.succ_sub_one, hbit]
    exact ⟨rfl, rfl⟩
  · intro u hother
    have hidle : Wire.run B offers u = none := by
      cases hwire : Wire.run B offers u with
      | none => rfl
      | some w =>
        obtain ⟨x, age⟩ := w
        obtain ⟨hpos, hage, t, rfl, haccepted⟩ := run_age hwire
        rw [← (hsends t).accepted] at haccepted
        have hframe : 1 ≤ (n + 2) * B := Nat.mul_pos (Nat.succ_pos _) hB
        have hout := hother t x haccepted
        omega
    rw [(hsends u).tx, UartTx.inReady, (hsends u).ready, hidle]
    exact ⟨rfl, rfl⟩

/-- A counter too narrow for the frame's bits is loaded with zero: nothing is ever sent. -/
theorem never_busy (hn : n + 2 = 2 ^ Nat.clog 2 (n + 2)) (t : ℕ) :
    (txRun bits offers t : UartTx n B).bitCounter = 0 := by
  induction t with
  | zero => rfl
  | succ t ih =>
    have hload : BitVec.ofNat (Nat.clog 2 (n + 2)) (n + 2) = 0 := by
      apply BitVec.eq_of_toNat_eq
      rw [BitVec.toNat_ofNat, ← hn, Nat.mod_self]
      exact BitVec.toNat_zero.symm
    rw [txRun, UartTx.step, if_pos ih]
    cases (txRun bits offers t : UartTx n B).accepted (offers t) with
    | none => exact ih
    | some x => exact hload

theorem silent_run (hB : 0 < B) (hn : n + 2 = 2 ^ Nat.clog 2 (n + 2)) :
    Waveform (txRun bits offers : ℕ → UartTx n B) offers ↔ ∀ t, offers t = none := by
  have hready : ∀ t, (txRun bits offers t : UartTx n B).inReady = true := fun t =>
    beq_iff_eq.mpr (never_busy hn t)
  constructor
  · intro hwave t
    cases hoffer : offers t with
    | none => rfl
    | some x =>
      have haccepted : (txRun bits offers t : UartTx n B).accepted (offers t) = some x := by
        rw [UartTx.accepted, hready t, hoffer]
        rfl
      have hbusy := (hwave.frames t x haccepted 0 (Nat.succ_pos _) 0 hB).2
      exact absurd ((hready _).symm.trans hbusy) Bool.noConfusion
  · intro hnone
    constructor
    · intro t x haccepted
      rw [UartTx.accepted, hready t, hnone t] at haccepted
      exact absurd haccepted nofun
    · intro u _
      have htx : (txRun bits offers u : UartTx n B).tx = true := by
        rw [UartTx.tx, never_busy hn u]
        rfl
      exact ⟨htx, hready u⟩

end

/-- **The waveform of the transmitter.** Every word accepted in a run appears on the line as it
should, if and only if the number of its bits with start and stop bit is no power of two or
no word is offered at all: otherwise that number does not fit the bit counter. -/
theorem waveform_iff {n B : ℕ} (hB : 2 ≤ B) (bits : BitVec (n + 2))
    (offers : ℕ → Option (BitVec n)) :
    Waveform (txRun bits offers : ℕ → UartTx n B) offers ↔
      (∀ k, n + 2 ≠ 2 ^ k) ∨ ∀ t, offers t = none := by
  rw [← lt_two_pow_clog_iff]
  rcases Nat.lt_or_eq_of_le (Nat.le_pow_clog Nat.one_lt_two (n + 2)) with hfits | hpow
  · exact iff_of_true (waveform_of_fits (by omega) hfits) (Or.inl hfits)
  · rw [silent_run (by omega) hpow]
    exact ⟨Or.inr, fun h => h.resolve_left (by omega)⟩

/-- Eight data bits at three clocks a bit, with a word always on offer. -/
theorem waveform_iff_byte :
    Waveform (txRun 0 (fun _ => some 0x41) : ℕ → UartTx 8 3) (fun _ => some 0x41) := by
  refine (waveform_iff (by decide) _ _).mpr (Or.inl ?_)
  rw [← lt_two_pow_clog_iff]
  decide

/-- Six data bits: the counter is loaded with eight modulo eight. -/
theorem waveform_six : ¬ ∀ (n B : ℕ) (bits : BitVec (n + 2)) (offers : ℕ → Option (BitVec n)),
    1 ≤ n → 2 ≤ B → Waveform (txRun bits offers : ℕ → UartTx n B) offers := by
  intro hall
  have hsix := hall 6 2 0 (fun _ => some 0) (by decide) (by decide)
  rw [silent_run (by decide) (by decide)] at hsix
  exact absurd (hsix 0) nofun

end SeccampRiscvCpu.UartTransmitter
