import SeccampRiscvCpu.HandshakeStreams
import SeccampRiscvCpu.UartReceiver

/-!
# A UART transmitter wired to a UART receiver

Both modules run on one clock with the same divider. The receiver sees the wire as it
was one clock for each synchroniser register before, and gives every word away a fixed
number of clocks after the transmitter has taken it.
-/
namespace SeccampRiscvCpu.UartLink
open ClockedMachine HandshakeStreams UartTransmitter UartReceiver

structure Link (numberOfBits baudDivider rxSyncStages : ℕ) where
  uartTx : UartTx numberOfBits baudDivider
  uartRx : UartRx numberOfBits baudDivider rxSyncStages
deriving DecidableEq

namespace Link
variable {n B S : ℕ}

/-- After reset; the data registers have no reset value. -/
def init (txBits : BitVec (n + 2)) (rxBits outBits : BitVec n) : Link n B S :=
  ⟨.init txBits, .init rxBits outBits⟩

/-- One clock with a consumer that is always ready. -/
def step (l : Link n B S) (offer : Option (BitVec n)) : Link n B S :=
  ⟨l.uartTx.step offer, l.uartRx.step l.uartTx.tx true⟩

/-- The words the transmitter takes. -/
def accepts : Machine (Link n B S) (Option (BitVec n)) (BitVec n) :=
  ⟨step, fun l offer => (l.uartTx.accepted offer).toList⟩

/-- The words the receiver gives away. -/
def delivers : Machine (Link n B S) (Option (BitVec n)) (BitVec n) :=
  ⟨step, fun l _ => (l.uartRx.received true).toList⟩

end Link

/-- From the clock in which a word is taken to the one in which it is given away. -/
def latency (n B S : ℕ) : ℕ := lastSample n B + 1 + (S + 1)

/-- The link before clock `t`. -/
def run {n B S : ℕ} (l : Link n B S) (offers : ℕ → Option (BitVec n)) : ℕ → Link n B S :=
  Link.accepts.run l offers

section
variable {n B S : ℕ} {l : Link n B S} {offers : ℕ → Option (BitVec n)}

theorem run_succ (t : ℕ) : run l offers (t + 1) = (run l offers t).step (offers t) := rfl

/-- Nothing is sent, heard or held. -/
structure Quiet (l : Link n B S) : Prop where
  sends : Sends l.uartTx none
  rxRegs : l.uartRx.rxRegs = 0
  hears : Hears l.uartRx none
  overrun : l.uartRx.overrun = false

theorem quiet_init (txBits : BitVec (n + 2)) (rxBits outBits : BitVec n) :
    Quiet (Link.init txBits rxBits outBits : Link n B S) :=
  ⟨BitVec.toNat_zero, rfl, ⟨rfl, rfl⟩, rfl⟩

variable (hB : 2 ≤ B) (hn : n + 2 < 2 ^ Nat.clog 2 (n + 2)) (h : Quiet l)
include hB hn h

/-- The transmitter keeps its frame on the wire. -/
theorem run_sends (t : ℕ) : Sends (run l offers t).uartTx (Wire.run B offers t) := by
  induction t with
  | zero => exact h.sends
  | succ t ih => exact ih.step (by omega) hn (offers t)

/-- The synchroniser holds the last levels of the wire, low ones before the first clock. -/
theorem run_rxRegs (t : ℕ) {i : ℕ} (hi : i ≤ S) :
    (run l offers t).uartRx.rxRegs.getLsbD i =
      if S < t + i then (Wire.run B offers (t + i - (S + 1))).level B else false := by
  induction t generalizing i with
  | zero =>
    have hearly : ¬ S < 0 + i := by omega
    rw [if_neg hearly]
    show l.uartRx.rxRegs.getLsbD i = false
    rw [h.rxRegs]
    exact BitVec.getLsbD_zero
  | succ t ih =>
    rw [run_succ, Link.step, UartRx.step_rxRegs, shiftIn_bit _ _ (by omega)]
    split_ifs with htop hlate hlate
    · rw [(run_sends hB hn h t).tx]
      congr 2
      omega
    · omega
    · rw [ih (by omega), if_pos (by omega)]
      congr 2
      omega
    · rw [ih (by omega), if_neg (by omega)]

theorem early_start {t : ℕ} (ht : t ≤ S) : (run l offers t).uartRx.startDetected = false := by
  rw [UartRx.startDetected, run_rxRegs hB hn h t (Nat.zero_le S), if_neg (by omega), Bool.and_false,
    Bool.and_false]

/-- Until the first level has come through, the receiver has nothing to hear. -/
theorem run_early {t : ℕ} (ht : t ≤ S + 1) :
    Hears (run l offers t).uartRx none ∧ (run l offers t).uartRx.overrun = false := by
  induction t with
  | zero => exact ⟨h.hears, h.overrun⟩
  | succ t ih =>
    obtain ⟨hhears, hoverrun⟩ := ih (by omega)
    obtain ⟨hrunning, hvalid, hsame⟩ :=
      idle_step hhears.1 (early_start hB hn h (by omega)) (run l offers t).uartTx.tx
    exact ⟨⟨hrunning, hvalid⟩, hsame.trans hoverrun⟩

/-- Afterwards it follows the wire. -/
theorem run_step (hpos : 2 ≤ n) (hS : 1 ≤ S) {t : ℕ}
    (hhears : Hears (run l offers (t + (S + 1))).uartRx (Wire.run B offers t))
    (hoverrun : (run l offers (t + (S + 1))).uartRx.overrun = false) :
    (run l offers (t + (S + 1))).uartRx.startDetected =
        ((Wire.run B offers t).accepted (offers t)).isSome ∧
      Hears (run l offers (t + 1 + (S + 1))).uartRx (Wire.run B offers (t + 1)) ∧
      (run l offers (t + 1 + (S + 1))).uartRx.overrun = false := by
  have hlevel : (run l offers (t + (S + 1))).uartRx.rxRegs.getLsbD 0 = _ :=
    run_rxRegs hB hn h _ (Nat.zero_le S)
  have hnext : (run l offers (t + (S + 1))).uartRx.rxRegs.getLsbD 1 = _ := run_rxRegs hB hn h _ hS
  have hold : t + (S + 1) + 0 - (S + 1) = t := by omega
  have hnew : t + (S + 1) + 1 - (S + 1) = t + 1 := by omega
  rw [if_pos (by omega), hold] at hlevel
  rw [if_pos (by omega), hnew] at hnext
  rw [Nat.add_right_comm t 1, run_succ]
  exact hhears.step hB hpos hlevel hnext hoverrun _

theorem run_hears (hpos : 2 ≤ n) (hS : 1 ≤ S) (t : ℕ) :
    Hears (run l offers (t + (S + 1))).uartRx (Wire.run B offers t) ∧
      (run l offers (t + (S + 1))).uartRx.overrun = false := by
  induction t with
  | zero =>
    rw [Nat.zero_add]
    exact run_early hB hn h (Nat.le_refl _)
  | succ t ih => exact (run_step hB hn h hpos hS ih.1 ih.2).2

/-! ## What comes out -/

omit hB hn h in
/-- A word is given away in the clock behind its last sample. -/
theorem received_iff {r : UartRx n B S} {w : Wire n} (hhears : Hears r w) (x : BitVec n) :
    r.received true = some x ↔ w = some (x, lastSample n B + 1) := by
  match w, hhears with
  | none, ⟨_, hidle⟩ => simp [UartRx.received, hidle]
  | some (y, age), ⟨_, hsampling, hdone⟩ =>
    rcases Nat.lt_or_ge (lastSample n B) age with hlate | hage
    · obtain ⟨-, hvalid, hbits⟩ := hdone hlate
      by_cases hlast : age = lastSample n B + 1
      · simp [UartRx.received, hvalid.mpr hlast, hbits hlast, hlast]
      · simp [UartRx.received, mt hvalid.mp hlast, hlast]
    · obtain ⟨j, hj⟩ := hsampling hage
      have hearly : age ≠ lastSample n B + 1 := by omega
      simp [UartRx.received, hj.idle, hearly]

theorem accepted_iff (t : ℕ) (x : BitVec n) :
    (run l offers t).uartTx.accepted (offers t) = some x ↔
      Wire.run B offers (t + (lastSample n B + 1)) = some (x, lastSample n B + 1) := by
  rw [(run_sends hB hn h t).accepted]
  constructor
  · intro haccepted
    exact run_accepted haccepted (Nat.succ_pos _) (lastSample_lt hB)
  · intro hwire
    obtain ⟨-, -, start, hstart, haccepted⟩ := run_age hwire
    rwa [Nat.add_right_cancel hstart]

/-- What is taken now is given away later. -/
theorem received_later (hpos : 2 ≤ n) (hS : 1 ≤ S) (t : ℕ) :
    (run l offers (t + latency n B S)).uartRx.received true =
      (run l offers t).uartTx.accepted (offers t) := by
  apply Option.ext
  intro x
  have hhears : Hears (run l offers (t + (lastSample n B + 1) + (S + 1))).uartRx _ :=
    (run_hears hB hn h hpos hS _).1
  rw [accepted_iff hB hn h, ← received_iff hhears, latency, ← Nat.add_assoc]

/-- Nothing else is. -/
theorem received_early (hpos : 2 ≤ n) (hS : 1 ≤ S) {t : ℕ} (ht : t < latency n B S) :
    (run l offers t).uartRx.received true = none := by
  rw [Option.eq_none_iff_forall_ne_some]
  intro x hx
  rcases Nat.lt_or_ge t (S + 1) with hearly | hlate
  · have hhears : Hears (run l offers t).uartRx none :=
      (run_early hB hn h (Nat.le_of_lt hearly)).1
    have hnone := (received_iff hhears x).mp hx
    exact absurd hnone nofun
  · obtain ⟨u, rfl⟩ := Nat.exists_eq_add_of_le' hlate
    have hwire := (received_iff (run_hears hB hn h hpos hS u).1 x).mp hx
    obtain ⟨-, -, start, hstart, -⟩ := run_age hwire
    rw [latency] at ht
    omega

/-- The receiver starts `S + 1` clocks behind each word that is taken, and at no other time. -/
theorem started_iff (hpos : 2 ≤ n) (hS : 1 ≤ S) (t : ℕ) :
    (run l offers t).uartRx.startDetected = true ↔
      ∃ u x, u + (S + 1) = t ∧ (run l offers u).uartTx.accepted (offers u) = some x := by
  rcases Nat.lt_or_ge t (S + 1) with hearly | hlate
  · rw [early_start hB hn h (Nat.le_of_lt_succ hearly)]
    refine iff_of_false nofun ?_
    rintro ⟨u, x, rfl, -⟩
    omega
  · obtain ⟨u, rfl⟩ := Nat.exists_eq_add_of_le' hlate
    obtain ⟨hhears, hoverrun⟩ : Hears (run l offers (u + (S + 1))).uartRx _ ∧ _ :=
      run_hears hB hn h hpos hS u
    rw [(run_step hB hn h hpos hS hhears hoverrun).1, Option.isSome_iff_exists]
    constructor
    · rintro ⟨x, hx⟩
      exact ⟨u, x, rfl, by rw [(run_sends hB hn h u).accepted, hx]⟩
    · rintro ⟨u', x, hu, hx⟩
      obtain rfl := Nat.add_right_cancel hu
      exact ⟨x, by rw [← (run_sends hB hn h u').accepted, hx]⟩

theorem run_overrun (hpos : 2 ≤ n) (hS : 1 ≤ S) (t : ℕ) :
    (run l offers t).uartRx.overrun = false := by
  rcases Nat.lt_or_ge t (S + 1) with hearly | hlate
  · exact (run_early hB hn h (Nat.le_of_lt hearly)).2
  · obtain ⟨u, rfl⟩ := Nat.exists_eq_add_of_le' hlate
    exact (run_hears hB hn h hpos hS u).2

/-- A word that stays offered is taken at the latest when the frame before it has ended. -/
theorem offer_taken {t : ℕ} {x : BitVec n}
    (hoffer : ∀ i ≤ (n + 2) * B, offers (t + i) = some x) :
    ∃ i ≤ (n + 2) * B, (run l offers (t + i)).uartTx.accepted (offers (t + i)) = some x := by
  obtain ⟨i, hi, hidle⟩ : ∃ i ≤ (n + 2) * B, Wire.run B offers (t + i) = none :=
    run_idle (by omega) t
  refine ⟨i, hi, ?_⟩
  rw [(run_sends hB hn h (t + i)).accepted, hidle]
  exact hoffer i hi

end

/-- **Every byte gets across.** With any gaps between them, the bytes the transmitter
takes are those the receiver gives away, in order and once each, a fixed number of
clocks later; it starts for each of them and for nothing else, and never overruns. A
byte that stays offered is taken. -/
theorem bytes_received {baudDivider rxSyncStages : ℕ} (hB : 2 ≤ baudDivider)
    (hS : 1 ≤ rxSyncStages) (txBits : BitVec 10) (rxBits outBits : BitVec 8)
    (offers : ℕ → Option (BitVec 8)) :
    let l : Link 8 baudDivider rxSyncStages := .init txBits rxBits outBits
    (∀ t, Link.delivers.trace l offers (t + latency 8 baudDivider rxSyncStages) =
      Link.accepts.trace l offers t) ∧
    (∀ t, (run l offers t).uartRx.startDetected = true ↔ ∃ u x, u + (rxSyncStages + 1) = t ∧
      (run l offers u).uartTx.accepted (offers u) = some x) ∧
    (∀ t, (run l offers t).uartRx.overrun = false) ∧
    ∀ t x, (∀ i ≤ 10 * baudDivider, offers (t + i) = some x) →
      ∃ i ≤ 10 * baudDivider,
        (run l offers (t + i)).uartTx.accepted (offers (t + i)) = some x := by
  intro l
  have hquiet : Quiet l := quiet_init txBits rxBits outBits
  have hfit : 8 + 2 < 2 ^ Nat.clog 2 (8 + 2) := by decide
  have hpos : 2 ≤ 8 := by decide
  have hrun : ∀ t, Link.delivers.run l offers t = run l offers t :=
    fun t => Link.delivers.run_congr (N := Link.accepts) rfl l offers t
  refine ⟨?_, ?_, ?_, ?_⟩
  · refine Machine.trace_delayed Link.accepts ?_ ?_
    · intro t ht
      rw [hrun]
      exact congrArg Option.toList (received_early hB hfit hquiet hpos hS ht)
    · intro t
      rw [hrun]
      exact congrArg Option.toList (received_later hB hfit hquiet hpos hS t)
  · exact started_iff hB hfit hquiet hpos hS
  · exact run_overrun hB hfit hquiet hpos hS
  · intro t x hoffer
    exact offer_taken hB hfit hquiet hoffer

/-- Two bytes without a gap, at the smallest divider. -/
theorem bytes_received_adjacent :
    Link.delivers.trace (Link.init 0 0 0 : Link 8 2 1)
      (fun t => if t = 0 then some 0x5A else some 0xC3) 42 = [0x5A, 0xC3] := by
  have h := (bytes_received (Nat.le_refl 2) (Nat.le_refl 1) 0 0 0
    fun t => if t = 0 then some 0x5A else some 0xC3).1 22
  have haccepts : Link.accepts.trace (Link.init 0 0 0 : Link 8 2 1)
      (fun t => if t = 0 then some 0x5A else some 0xC3) 22 = [0x5A, 0xC3] := by decide +kernel
  exact h.trans haccepts

/-! ## The other end of a line -/

section
variable {n B S : ℕ}

/-- A transmitter that takes what is transferred through a handshake. -/
structure Drives (tx : ℕ → UartTx n B) (txBits : BitVec (n + 2)) (h : Handshake (BitVec n)) :
    Prop where
  runs : ∀ t, tx t = txRun txBits h.offer t
  ready : ∀ t, h.ready t = (tx t).inReady

/-- The receiver at the other end of the line of a transmitter. -/
def farEnd (tx : ℕ → UartTx n B) (rxBits outBits : BitVec n) : ℕ → UartRx n B S :=
  rxRun rxBits outBits (fun t => (tx t).tx) fun _ => true

/-- What receivers have given away before clock `t` to a consumer that is always ready. -/
def heard (rx : ℕ → UartRx n B S) : ℕ → List (BitVec n)
  | 0 => []
  | t + 1 => heard rx t ++ ((rx t).received true).toList

variable {tx : ℕ → UartTx n B} {txBits : BitVec (n + 2)} {h : Handshake (BitVec n)}

theorem Drives.link (hd : Drives tx txBits h) (rxBits outBits : BitVec n) (t : ℕ) :
    run (.init txBits rxBits outBits : Link n B S) h.offer t =
      ⟨tx t, farEnd tx rxBits outBits t⟩ := by
  induction t with
  | zero =>
    rw [hd.runs]
    rfl
  | succ t ih =>
    rw [run_succ, ih, hd.runs (t + 1), txRun, ← hd.runs t]
    rfl

theorem Drives.accepted (hd : Drives tx txBits h) (t : ℕ) :
    (tx t).accepted (h.offer t) = h.transfer t := by
  rw [UartTx.accepted, Handshake.transfer, hd.ready]

/-- What the transmitter takes is given away later, and nothing else is. -/
theorem Drives.received (hd : Drives tx txBits h) (hB : 2 ≤ B) (hS : 1 ≤ S) (hpos : 2 ≤ n)
    (hn : n + 2 < 2 ^ Nat.clog 2 (n + 2)) (rxBits outBits : BitVec n) (t : ℕ) :
    (farEnd tx rxBits outBits t : UartRx n B S).received true =
      if latency n B S ≤ t then h.transfer (t - latency n B S) else none := by
  have hquiet : Quiet (.init txBits rxBits outBits : Link n B S) :=
    quiet_init txBits rxBits outBits
  split_ifs with hlate
  · obtain ⟨u, rfl⟩ := Nat.exists_eq_add_of_le' hlate
    have hlater : (run _ h.offer (u + latency n B S)).uartRx.received true = _ :=
      received_later hB hn hquiet hpos hS u
    rw [hd.link, hd.link, hd.accepted] at hlater
    rwa [Nat.add_sub_cancel]
  · have hearly : (run _ h.offer t).uartRx.received true = none :=
      received_early hB hn hquiet hpos hS (Nat.lt_of_not_le hlate)
    rwa [hd.link] at hearly

theorem Drives.heard (hd : Drives tx txBits h) (hB : 2 ≤ B) (hS : 1 ≤ S) (hpos : 2 ≤ n)
    (hn : n + 2 < 2 ^ Nat.clog 2 (n + 2)) (rxBits outBits : BitVec n) (t : ℕ) :
    heard (farEnd tx rxBits outBits : ℕ → UartRx n B S) t =
      h.transferred (t - latency n B S) := by
  induction t with
  | zero =>
    rw [Nat.zero_sub]
    rfl
  | succ t ih =>
    rw [UartLink.heard, ih, hd.received hB hS hpos hn]
    split_ifs with hlate
    · obtain ⟨u, rfl⟩ := Nat.exists_eq_add_of_le' hlate
      rw [Nat.add_sub_cancel, Nat.add_right_comm, Nat.add_sub_cancel, Handshake.transferred_succ]
    · have hnow : t - latency n B S = 0 := by omega
      have hnext : t + 1 - latency n B S = 0 := by omega
      rw [hnow, hnext]
      rfl

theorem Drives.wire (hd : Drives tx txBits h) (hB : 0 < B)
    (hn : n + 2 < 2 ^ Nat.clog 2 (n + 2)) (t : ℕ) :
    h.transfer t = (Wire.run B h.offer t).accepted (h.offer t) := by
  have hsends : Sends (tx t) (Wire.run B h.offer t) := hd.runs t ▸ txRun_sends hB hn t
  rw [← hd.accepted, hsends.accepted]

/-- Between two words that are taken there is a whole frame. -/
theorem Drives.apart (hd : Drives tx txBits h) (hB : 0 < B)
    (hn : n + 2 < 2 ^ Nat.clog 2 (n + 2)) {t u : ℕ} (ht : (h.transfer t).isSome)
    (hu : (h.transfer u).isSome) (hlt : t < u) : t + (n + 2) * B < u := by
  obtain ⟨x, hx⟩ := Option.isSome_iff_exists.mp ht
  rw [hd.wire hB hn] at hx hu
  by_contra hnear
  obtain ⟨d, rfl⟩ := Nat.exists_eq_add_of_le (Nat.le_of_lt hlt)
  rw [run_accepted hx (by omega) (by omega)] at hu
  exact Bool.false_ne_true hu

/-- The transmitter is ready again when the frame before has ended. -/
theorem Drives.ready_again (hd : Drives tx txBits h) (hB : 0 < B)
    (hn : n + 2 < 2 ^ Nat.clog 2 (n + 2)) (t : ℕ) :
    ∃ d ≤ (n + 2) * B, h.ready (t + d) = true := by
  obtain ⟨d, hd', hidle⟩ : ∃ d ≤ (n + 2) * B, Wire.run B h.offer (t + d) = none := run_idle hB t
  have hsends : Sends (tx (t + d)) (Wire.run B h.offer (t + d)) :=
    hd.runs (t + d) ▸ txRun_sends hB hn (t + d)
  refine ⟨d, hd', ?_⟩
  rw [hd.ready, UartTx.inReady, hsends.ready, hidle]
  rfl

end

end SeccampRiscvCpu.UartLink
