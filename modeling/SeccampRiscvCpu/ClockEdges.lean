import Mathlib

/-!
# Events of a clocked run

An event is the set of clocks it falls on. What is said of an interval is said of two
clocks of the event with none between them.
-/
namespace SeccampRiscvCpu.ClockEdges

/-- The signal is low in clock `t` and high in the next one. -/
def Rises (x : ℕ → Bool) (t : ℕ) : Prop := x t = false ∧ x (t + 1) = true

instance (x : ℕ → Bool) (t : ℕ) : Decidable (Rises x t) :=
  inferInstanceAs (Decidable (_ ∧ _))

structure Consecutive (e : ℕ → Prop) (t t' : ℕ) : Prop where
  first : e t
  second : e t'
  lt : t < t'
  between : ∀ u, t < u → u < t' → ¬ e u

/-- The event comes again and again, each time `n` clocks after the last one. -/
structure EvenlySpaced (n : ℕ) (e : ℕ → Prop) : Prop where
  recurs : ∀ t, ∃ u, t ≤ u ∧ e u
  apart : ∀ t t', Consecutive e t t' → t' = t + n

section
variable {e : ℕ → Prop} {n q r : ℕ}

theorem recurs_of_mod (hr : r < q) (he : ∀ t, e t ↔ t % q = r) (t : ℕ) : ∃ u, t ≤ u ∧ e u := by
  refine ⟨t * q + r, ?_, ?_⟩
  · have hle : t * 1 ≤ t * q := Nat.mul_le_mul_left t (by omega)
    omega
  · rw [he, Nat.add_comm, Nat.add_mul_mod_self_right, Nat.mod_eq_of_lt hr]

/-- Between two clocks of one residue that are a round apart there is no third one. -/
theorem consecutive_of_mod (hr : r < q) (he : ∀ t, e t ↔ t % q = r) {t : ℕ} (ht : e t) :
    Consecutive e t (t + q) := by
  have hmod := (he t).mp ht
  refine ⟨ht, ?_, by omega, ?_⟩
  · rw [he, Nat.add_mod_right, hmod]
  · intro u hlt hgt hu
    have hdvd : q ∣ u - t :=
      Nat.dvd_of_mod_eq_zero (Nat.sub_mod_eq_zero_of_mod_eq (((he u).mp hu).trans hmod.symm))
    have hle := Nat.le_of_dvd (by omega) hdvd
    omega

theorem Consecutive.unique {t t₁ t₂ : ℕ} (h₁ : Consecutive e t t₁) (h₂ : Consecutive e t t₂) :
    t₁ = t₂ := by
  rcases Nat.lt_trichotomy t₁ t₂ with hlt | heq | hgt
  · exact absurd h₁.second (h₂.between t₁ h₁.lt hlt)
  · exact heq
  · exact absurd h₂.second (h₁.between t₂ h₂.lt hgt)

/-- An event that falls on one clock of each round is evenly spaced by the round. -/
theorem evenlySpaced_iff (hr : r < q) (he : ∀ t, e t ↔ t % q = r) :
    EvenlySpaced n e ↔ n = q := by
  constructor
  · intro h
    have hfirst : e r := (he r).mpr (Nat.mod_eq_of_lt hr)
    have hn := h.apart r (r + q) (consecutive_of_mod hr he hfirst)
    omega
  · rintro rfl
    refine ⟨recurs_of_mod hr he, ?_⟩
    intro t t' h
    exact h.unique (consecutive_of_mod hr he h.first)

end

end SeccampRiscvCpu.ClockEdges
