import SeccampRiscvCpu.UartLink

/-!
# A UART receiver in front of a consumer of any speed

A word stands at the output of `UartRx` until the consumer takes it or the next word is
complete. What the consumer does has no effect on which words are completed; so these are the
words a consumer that is always ready gets, and the words that are missing at a slower one are
those that have been overwritten.
-/
namespace SeccampRiscvCpu.UartReception
open HandshakeStreams UartTransmitter UartReceiver UartLink

section
variable {n B S : ℕ}

/-- Two receivers that differ at most in the state of their outputs. -/
structure SameLine (r r' : UartRx n B S) : Prop where
  rateCounter : r.rateCounter = r'.rateCounter
  bitCounter : r.bitCounter = r'.bitCounter
  bits : r.bits = r'.bits
  rxRegs : r.rxRegs = r'.rxRegs
  running : r.running = r'.running
  outBits : r.outBits = r'.outBits

theorem SameLine.step {r r' : UartRx n B S} (h : SameLine r r') (rx ready ready' : Bool) :
    SameLine (r.step rx ready) (r'.step rx ready') := by
  obtain ⟨hrate, hcount, hbits, hregs, hrunning, hout⟩ := h
  unfold UartRx.step
  rw [hrate, hcount, hbits, hregs, hrunning, hout]
  split_ifs <;> exact ⟨rfl, rfl, rfl, rfl, rfl, rfl⟩

theorem SameLine.completes {r r' : UartRx n B S} (h : SameLine r r') :
    r.completes = r'.completes := by
  rw [UartRx.completes, UartRx.completes, h.running, h.rateCounter, h.bitCounter]

theorem sameLine_run (bits outBits : BitVec n) (rx ready ready' : ℕ → Bool) (t : ℕ) :
    SameLine (rxRun bits outBits rx ready t : UartRx n B S) (rxRun bits outBits rx ready' t) := by
  induction t with
  | zero => exact ⟨rfl, rfl, rfl, rfl, rfl, rfl⟩
  | succ t ih => exact ih.step _ _ _

/-- The output register is loaded by a completion and by nothing else. -/
theorem step_outBits {r : UartRx n B S} (h : r.completes = false) (rx ready : Bool) :
    (r.step rx ready).outBits = r.outBits := by
  unfold UartRx.step
  cases hrunning : r.running with
  | false => cases !r.rxRegs.getLsbD 1 && r.rxRegs.getLsbD 0 <;> rfl
  | true =>
    by_cases hrate : r.rateCounter = 0
    · have hcount : r.bitCounter ≠ 0 := by
        rintro hcount
        simp [UartRx.completes, hrunning, hrate, hcount] at h
      simp only [if_pos hrate, if_neg hcount]
      rfl
    · simp only [if_neg hrate]
      rfl

/-- The word that is completed in clock `t`. -/
def completion (rx : ℕ → UartRx n B S) (t : ℕ) : Option (BitVec n) :=
  if (rx t).completes then some (rx (t + 1)).outBits else none

/-- The words completed before clock `t`. -/
def completed (rx : ℕ → UartRx n B S) : ℕ → List (BitVec n)
  | 0 => []
  | t + 1 => completed rx t ++ (completion rx t).toList

/-- The handshake at the output. -/
def outputs (rx : ℕ → UartRx n B S) (ready : ℕ → Bool) : Handshake (BitVec n) where
  offer t := if (rx t).outValid then some (rx t).outBits else none
  ready := ready

/-- A completion of this clock takes the place of a word that nobody takes. -/
def overwrites (r : UartRx n B S) (ready : Bool) : Bool := r.completes && (r.outValid && !ready)

/-- How many words have been overwritten before clock `t`. -/
def overwritten (rx : ℕ → UartRx n B S) (ready : ℕ → Bool) : ℕ → ℕ
  | 0 => 0
  | t + 1 => overwritten rx ready t + (overwrites (rx t) (ready t)).toNat

theorem overwritten_eq_zero_iff {rx : ℕ → UartRx n B S} {ready : ℕ → Bool} {t : ℕ} :
    overwritten rx ready t = 0 ↔ ∀ u < t, overwrites (rx u) (ready u) = false := by
  induction t with
  | zero => exact iff_of_true rfl fun u hu => absurd hu (Nat.not_lt_zero u)
  | succ t ih =>
    rw [overwritten, Nat.add_eq_zero_iff, ih, Bool.toNat_eq_zero]
    constructor
    · rintro ⟨hbefore, hnow⟩ u hu
      rcases Nat.lt_succ_iff_lt_or_eq.mp hu with hlt | rfl
      · exact hbefore u hlt
      · exact hnow
    · intro hall
      exact ⟨fun u hu => hall u (Nat.lt_succ_of_lt hu), hall t (Nat.lt_succ_self t)⟩

variable {bits outBits : BitVec n} {line ready : ℕ → Bool}

theorem overwrites_iff {t : ℕ}
    (hcompletes : (rxRun bits outBits line ready t : UartRx n B S).completes = true) :
    overwrites (rxRun bits outBits line ready t : UartRx n B S) (ready t) = true ↔
      Overwrites (rxRun bits outBits line ready : ℕ → UartRx n B S) ready t := by
  rw [Overwrites, ← outValid_iff, overwrites, hcompletes, Transfers]
  cases (rxRun bits outBits line ready t : UartRx n B S).outValid <;> cases ready t <;> simp

theorem not_overwritten_iff {t : ℕ} :
    overwritten (rxRun bits outBits line ready : ℕ → UartRx n B S) ready t = 0 ↔
      ∀ u < t, (rxRun bits outBits line ready u : UartRx n B S).completes = true →
        ¬ Overwrites (rxRun bits outBits line ready : ℕ → UartRx n B S) ready u := by
  rw [overwritten_eq_zero_iff]
  refine forall₂_congr fun u _ => ?_
  cases hcompletes : (rxRun bits outBits line ready u : UartRx n B S).completes with
  | false => simp [overwrites, hcompletes]
  | true => simp only [← overwrites_iff hcompletes, Bool.not_eq_true, forall_const]

theorem completion_congr (ready' : ℕ → Bool) (t : ℕ) :
    completion (rxRun bits outBits line ready : ℕ → UartRx n B S) t =
      completion (rxRun bits outBits line ready' : ℕ → UartRx n B S) t := by
  rw [completion, completion, (sameLine_run bits outBits line ready ready' t).completes,
    (sameLine_run bits outBits line ready ready' (t + 1)).outBits]

theorem completed_congr (ready' : ℕ → Bool) (t : ℕ) :
    completed (rxRun bits outBits line ready : ℕ → UartRx n B S) t =
      completed (rxRun bits outBits line ready' : ℕ → UartRx n B S) t := by
  induction t with
  | zero => rfl
  | succ t ih => rw [completed, completed, ih, completion_congr ready' t]

/-- Behind a completion a word is on offer to a consumer that is always ready. -/
theorem received_succ (t : ℕ) :
    (rxRun bits outBits line (fun _ => true) (t + 1) : UartRx n B S).received true =
      completion (rxRun bits outBits line (fun _ => true) : ℕ → UartRx n B S) t := by
  rw [completion, UartRx.received, Bool.and_true]
  cases hcompletes : (rxRun bits outBits line (fun _ => true) t : UartRx n B S).completes with
  | true =>
    have hvalid : (rxRun bits outBits line (fun _ => true) (t + 1) : UartRx n B S).outValid =
      true := (step_completes hcompletes _ _).1
    rw [hvalid]
  | false =>
    have hvalid : (rxRun bits outBits line (fun _ => true) (t + 1) : UartRx n B S).outValid =
        false := by
      rw [rxRun, (step_not_completes hcompletes _ _).1, Bool.not_true, Bool.and_false]
    rw [hvalid]

/-- A consumer that is always ready takes every word in the clock behind its completion. -/
theorem heard_succ (t : ℕ) :
    heard (rxRun bits outBits line (fun _ => true) : ℕ → UartRx n B S) (t + 1) =
      completed (rxRun bits outBits line fun _ => true : ℕ → UartRx n B S) t := by
  induction t with
  | zero => rfl
  | succ t ih =>
    rw [heard, ih, completed, received_succ]

@[simp] theorem outputs_offer (rx : ℕ → UartRx n B S) (t : ℕ) :
    (outputs rx ready).offer t = if (rx t).outValid then some (rx t).outBits else none := rfl
@[simp] theorem outputs_ready (rx : ℕ → UartRx n B S) (t : ℕ) :
    (outputs rx ready).ready t = ready t := rfl

section
variable {rx : ℕ → UartRx n B S} (hstep : ∀ t, rx (t + 1) = (rx t).step (line t) (ready t))
include hstep

/-- What a clock does to the words shown. -/
theorem shown_succ (t : ℕ) :
    (outputs rx ready).shown (t + 1) =
      (if overwrites (rx t) (ready t) then (outputs rx ready).transferred t
      else (outputs rx ready).shown t) ++ (completion rx t).toList := by
  rw [Handshake.shown, Handshake.shown, Handshake.transferred_succ, Handshake.transfer,
    outputs_offer, outputs_offer, outputs_ready, completion, overwrites]
  generalize (outputs rx ready).transferred t = sent
  cases hcompletes : (rx t).completes with
  | true =>
    rw [hstep, (step_completes hcompletes _ _).1]
    cases (rx t).outValid <;> cases ready t <;> simp
  | false =>
    rw [hstep, (step_not_completes hcompletes _ _).1, step_outBits hcompletes]
    cases (rx t).outValid <;> cases ready t <;> simp

/-- The words shown are some of those completed. -/
theorem shown_sublist (h0 : (rx 0).outValid = false) (t : ℕ) :
    ((outputs rx ready).shown t).Sublist (completed rx t) := by
  induction t with
  | zero => simp [Handshake.shown, h0]
  | succ t ih =>
    rw [shown_succ hstep, completed]
    refine List.Sublist.append ?_ (List.Sublist.refl _)
    split_ifs
    · exact (Handshake.transferred_shown t).sublist.trans ih
    · exact ih

/-- The others have been overwritten. -/
theorem shown_length (h0 : (rx 0).outValid = false) (t : ℕ) :
    ((outputs rx ready).shown t).length + overwritten rx ready t = (completed rx t).length := by
  induction t with
  | zero => simp [Handshake.shown, h0, completed, overwritten]
  | succ t ih =>
    rw [shown_succ hstep, completed, overwritten, List.length_append, List.length_append, ← ih]
    cases hlost : overwrites (rx t) (ready t) with
    | false =>
      simp only [Bool.false_eq_true, if_false, Bool.toNat_false]
      omega
    | true =>
      have hvalid : (rx t).outValid = true := by
        simp only [overwrites, Bool.and_eq_true] at hlost
        exact hlost.2.1
      rw [Handshake.shown, outputs_offer, hvalid]
      simp only [if_true, Bool.toNat_true, Option.toList_some, List.length_append,
        List.length_singleton]
      omega

theorem shown_completed_iff (h0 : (rx 0).outValid = false) (t : ℕ) :
    (outputs rx ready).shown t = completed rx t ↔ overwritten rx ready t = 0 := by
  have hlength := shown_length hstep h0 t
  constructor
  · intro hall
    rw [hall] at hlength
    omega
  · intro hnone
    exact (shown_sublist hstep h0 t).eq_of_length (by omega)

end

/-! ## Which words are missing -/

/-- The word completed in clock `u` was still on offer, and was not taken, when another one was
complete, before clock `t`. -/
def Lost (run : ℕ → UartRx n B S) (ready : ℕ → Bool) (u t : ℕ) : Prop :=
  ∃ v < t, (run v).completes = true ∧ Untransferred run ready u v ∧ ¬ Transfers run ready v

/-- The clocks before `t` that have completed a word which has not been lost, in order. -/
structure Keeps (run : ℕ → UartRx n B S) (ready : ℕ → Bool) (t : ℕ) (kept : List ℕ) : Prop where
  sorted : kept.Pairwise (· < ·)
  mem_iff : ∀ u, u ∈ kept ↔ u < t ∧ (run u).completes = true ∧ ¬ Lost run ready u t

theorem lost_succ {run : ℕ → UartRx n B S} {u t : ℕ} :
    Lost run ready u (t + 1) ↔ Lost run ready u t ∨
      ((run t).completes = true ∧ Untransferred run ready u t ∧ ¬ Transfers run ready t) := by
  constructor
  · rintro ⟨v, hv, hlost⟩
    rcases Nat.lt_succ_iff_lt_or_eq.mp hv with hlt | rfl
    · exact Or.inl ⟨v, hlt, hlost⟩
    · exact Or.inr hlost
  · rintro (⟨v, hv, hlost⟩ | hlost)
    · exact ⟨v, Nat.lt_succ_of_lt hv, hlost⟩
    · exact ⟨t, Nat.lt_succ_self t, hlost⟩

theorem not_lost_self {run : ℕ → UartRx n B S} {t u : ℕ} (h : u ≤ t + 1) :
    ¬ Lost run ready t u := by
  rintro ⟨v, hv, -, ⟨hlt, -⟩, -⟩
  omega

/-- A clock in which nothing is lost keeps what was kept, and the word it completes. -/
theorem Keeps.succ {run : ℕ → UartRx n B S} {t : ℕ} {kept : List ℕ}
    (h : Keeps run ready t kept)
    (hsafe : ∀ u, (run t).completes = true → Untransferred run ready u t →
      Transfers run ready t) :
    Keeps run ready (t + 1) (kept ++ if (run t).completes then [t] else []) := by
  have hsame : ∀ u, Lost run ready u (t + 1) ↔ Lost run ready u t := by
    intro u
    rw [lost_succ]
    exact or_iff_left fun ⟨hcompletes, hword, hkept⟩ => hkept (hsafe u hcompletes hword)
  constructor
  · rw [List.pairwise_append]
    refine ⟨h.sorted, ?_, ?_⟩
    · split_ifs <;> simp
    · intro u hu v hv
      split_ifs at hv
      · rw [List.mem_singleton.mp hv]
        exact ((h.mem_iff u).mp hu).1
      · exact absurd hv List.not_mem_nil
  · intro u
    rw [List.mem_append, h.mem_iff, hsame, Nat.lt_succ_iff_lt_or_eq]
    cases hcompletes : (run t).completes with
    | false =>
      simp only [Bool.false_eq_true, if_false, List.not_mem_nil, or_false]
      refine ⟨fun hu => ⟨Or.inl hu.1, hu.2⟩, ?_⟩
      rintro ⟨hu | rfl, hword, hkept⟩
      · exact ⟨hu, hword, hkept⟩
      · rw [hcompletes] at hword
        cases hword
    | true =>
      simp only [if_true, List.mem_singleton]
      constructor
      · rintro (⟨hu, hword, hkept⟩ | rfl)
        · exact ⟨Or.inl hu, hword, hkept⟩
        · exact ⟨Or.inr rfl, hcompletes, not_lost_self (Nat.le_succ _)⟩
      · rintro ⟨hu | rfl, hword, hkept⟩
        · exact Or.inl ⟨hu, hword, hkept⟩
        · exact Or.inr rfl

end

/-- The words completed are those taken at the other end up to the latency before. -/
theorem completed_eq {n B S : ℕ} (hB : 2 ≤ B) (hS : 1 ≤ S) (hpos : 2 ≤ n)
    (hn : n + 2 < 2 ^ Nat.clog 2 (n + 2)) {tx : ℕ → UartTx n B} {txBits : BitVec (n + 2)}
    {sent : Handshake (BitVec n)} (htx : Drives tx txBits sent) (rxBits outBits : BitVec n)
    (ready : ℕ → Bool) (t : ℕ) :
    completed (rxRun rxBits outBits (fun t => (tx t).tx) ready : ℕ → UartRx n B S) t =
      sent.transferred (t + 1 - latency n B S) := by
  rw [← htx.heard hB hS hpos hn rxBits outBits (t + 1), farEnd, heard_succ]
  exact completed_congr (fun _ => true) t

/-- A whole frame lies between two completions. -/
theorem completes_apart {n B S : ℕ} (hB : 2 ≤ B) (hS : 1 ≤ S) (hpos : 2 ≤ n)
    (hn : n + 2 < 2 ^ Nat.clog 2 (n + 2)) {tx : ℕ → UartTx n B} {txBits : BitVec (n + 2)}
    {sent : Handshake (BitVec n)} (htx : Drives tx txBits sent) {rxBits outBits : BitVec n}
    {ready : ℕ → Bool} {t u : ℕ}
    (ht : (rxRun rxBits outBits (fun t => (tx t).tx) ready t : UartRx n B S).completes = true)
    (hu : (rxRun rxBits outBits (fun t => (tx t).tx) ready u : UartRx n B S).completes = true)
    (hlt : t < u) : t + (n + 2) * B < u := by
  have htaken : ∀ t, (rxRun rxBits outBits (fun t => (tx t).tx) ready t : UartRx n B S).completes =
      true → latency n B S ≤ t + 1 ∧ (sent.transfer (t + 1 - latency n B S)).isSome := by
    intro t hcompletes
    have hsome : (completion (rxRun rxBits outBits (fun t => (tx t).tx) ready :
        ℕ → UartRx n B S) t).isSome := by
      rw [completion, hcompletes]
      rfl
    rw [completion_congr fun _ => true, ← received_succ, ← farEnd,
      htx.received hB hS hpos hn] at hsome
    split_ifs at hsome with hlate
    · exact ⟨hlate, hsome⟩
    · exact absurd hsome Bool.false_ne_true
  obtain ⟨hlate, htaken'⟩ := htaken t ht
  obtain ⟨-, hutaken⟩ := htaken u hu
  have hapart := htx.apart (by omega) hn htaken' hutaken (by omega)
  omega

/-- Bytes without a gap, at two clocks a bit. -/
def adjacent : Handshake (BitVec 8) where
  offer _ := some 0x41
  ready t := (txRun 0 (fun _ => some 0x41) t : UartTx 8 2).inReady

end SeccampRiscvCpu.UartReception
