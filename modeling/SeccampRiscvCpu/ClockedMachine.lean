import Mathlib

/-!
# Clocked machines

A machine takes one input each cycle, moves to its next state and may show some
events. An invariant is shown once, on a cycle, and then holds along every run.
A refinement compares the events of a run with a growing reference sequence:
between two cycles the machine may owe events, those it has decided on and not
yet shown, and everything shown together with everything owed is always what
the reference has produced up to some point.
-/
namespace SeccampRiscvCpu.ClockedMachine

structure Machine (σ ι ε : Type*) where
  step : σ → ι → σ
  emit : σ → ι → List ε

namespace Machine
variable {σ ι ε : Type*} (M : Machine σ ι ε)

/-- The state before cycle `t`. -/
def run (s : σ) (input : ℕ → ι) : ℕ → σ
  | 0 => s
  | t + 1 => M.step (run s input t) (input t)

/-- The events of the cycles before cycle `t`. -/
def trace (s : σ) (input : ℕ → ι) : ℕ → List ε
  | 0 => []
  | t + 1 => trace s input t ++ M.emit (M.run s input t) (input t)

@[simp] theorem run_succ (s : σ) (input : ℕ → ι) (t : ℕ) :
    M.run s input (t + 1) = M.step (M.run s input t) (input t) := rfl
@[simp] theorem trace_succ (s : σ) (input : ℕ → ι) (t : ℕ) :
    M.trace s input (t + 1) = M.trace s input t ++ M.emit (M.run s input t) (input t) := rfl

theorem trace_prefix {s : σ} {input : ℕ → ι} {t u : ℕ} (h : t ≤ u) :
    M.trace s input t <+: M.trace s input u := by
  induction h with
  | refl => exact List.prefix_refl _
  | step _ ih => exact ih.trans (List.prefix_append _ _)

/-- The events do not influence the run. -/
theorem run_congr {ε' : Type*} {N : Machine σ ι ε'} (h : M.step = N.step) (s : σ)
    (input : ℕ → ι) (t : ℕ) : M.run s input t = N.run s input t := by
  induction t with
  | zero => rfl
  | succ t ih => rw [run_succ, run_succ, ih, h]

/-- What every cycle preserves holds along the run. -/
theorem run_invariant (I : σ → Prop) {s : σ} {input : ℕ → ι} (h0 : I s)
    (hstep : ∀ t x, I x → I (M.step x (input t))) (t : ℕ) : I (M.run s input t) := by
  induction t with
  | zero => exact h0
  | succ t ih => exact hstep t _ ih

/-- A machine that shows in every cycle what another one showed `delay` cycles before has
shown the same events that much later. -/
theorem trace_delayed {σ' ι' : Type*} {N : Machine σ' ι' ε} {s : σ} {input : ℕ → ι} {s' : σ'}
    {input' : ℕ → ι'} {delay : ℕ} (h0 : ∀ t < delay, N.emit (N.run s' input' t) (input' t) = [])
    (h : ∀ t, N.emit (N.run s' input' (t + delay)) (input' (t + delay)) =
      M.emit (M.run s input t) (input t)) (t : ℕ) :
    N.trace s' input' (t + delay) = M.trace s input t := by
  induction t with
  | zero =>
    rw [Nat.zero_add]
    have hsilent : ∀ d ≤ delay, N.trace s' input' d = [] := by
      intro d hd
      induction d with
      | zero => rfl
      | succ d ih => rw [trace_succ, ih (by omega), h0 d hd, List.append_nil]
    exact hsilent delay (Nat.le_refl _)
  | succ t ih => rw [Nat.add_right_comm, trace_succ, trace_succ, ih, h t]

/-- If every cycle shows the front of what is still to be shown and keeps the rest,
then nothing is lost, repeated or reordered along the run. -/
theorem trace_append_todo (todo : σ → List ε) (I : σ → Prop) {s : σ} {input : ℕ → ι} (h0 : I s)
    (hstep : ∀ x i, I x → I (M.step x i) ∧ todo x = M.emit x i ++ todo (M.step x i)) (t : ℕ) :
    M.trace s input t ++ todo (M.run s input t) = todo s := by
  have hI : ∀ t, I (M.run s input t) :=
    M.run_invariant I h0 fun t x hx => (hstep x (input t) hx).1
  induction t with
  | zero => rfl
  | succ t ih => rw [trace_succ, run_succ, List.append_assoc, ← (hstep _ _ (hI t)).2, ih]

/-- A relation to a position in the reference, kept by every cycle that the
inputs allow; `owed` are the events decided on and not yet shown. -/
structure Refinement (legal : ι → Prop) (reference : ℕ → List ε) where
  rel : ℕ → σ → Prop
  owed : σ → List ε
  step : ∀ {k x i}, legal i → rel k x →
    ∃ k' due, rel k' (M.step x i) ∧ reference k' = reference k ++ due ∧
      owed x ++ due = M.emit x i ++ owed (M.step x i)

variable {M} {legal : ι → Prop} {reference : ℕ → List ε} {s : σ} {input : ℕ → ι}

theorem Refinement.trace_owed (R : M.Refinement legal reference) {k : ℕ} (h0 : R.rel k s)
    (hk : R.owed s = reference k) (hi : ∀ t, legal (input t)) (t : ℕ) :
    ∃ k, R.rel k (M.run s input t) ∧
      M.trace s input t ++ R.owed (M.run s input t) = reference k := by
  induction t with
  | zero => exact ⟨k, h0, hk⟩
  | succ t ih =>
      obtain ⟨k, hr, ht⟩ := ih
      obtain ⟨k', due, hr', hk', hd⟩ := R.step (hi t) hr
      refine ⟨k', hr', ?_⟩
      rw [trace_succ, run_succ, List.append_assoc, ← hd, ← List.append_assoc, ht, hk']

/-- What has been shown is a prefix of what the reference produces. -/
theorem Refinement.trace_isPrefix (R : M.Refinement legal reference) {k : ℕ} (h0 : R.rel k s)
    (hk : R.owed s = reference k) (hi : ∀ t, legal (input t)) (t : ℕ) :
    ∃ k, M.trace s input t <+: reference k := by
  obtain ⟨k, -, ht⟩ := R.trace_owed h0 hk hi t
  exact ⟨k, _, ht⟩

/-- Where two properties of a clock agree once the first has held in every clock before,
they agree on every beginning of a run. -/
theorem forall_iff_of_prefix {P Q : ℕ → Prop} (h : ∀ t, (∀ u < t, P u) → (Q t ↔ P t)) (t : ℕ) :
    (∀ u ≤ t, Q u) ↔ ∀ u ≤ t, P u := by
  constructor
  · intro hq u
    induction u using Nat.strongRecOn with
    | ind u ih =>
      intro hu
      exact (h u fun v hv => ih v hv (by omega)).mp (hq u hu)
  · intro hp u hu
    exact (h u fun v hv => hp v (by omega)).mpr (hp u hu)

end Machine

end SeccampRiscvCpu.ClockedMachine
