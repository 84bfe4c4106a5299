import Mathlib

/-!
# Progress under fair schedules

A schedule gives one action after the other, and every action is of some kinds,
possibly of none. It is fair if each kind comes up again and again.

A run makes progress if there is always a kind of action that would lower a
count of the work left, and if no other action takes that possibility away
without lowering the count itself.
-/
namespace SeccampRiscvCpu.FairSchedules

variable {σ α κ : Type*}

def Fair (is : κ → α → Prop) (schedule : ℕ → α) : Prop :=
  ∀ k t, ∃ u, t ≤ u ∧ is k (schedule u)

/-- The work left did not grow, and stayed the same only without a helpful action. -/
structure Harmless (is : κ → α → Prop) (enabled : κ → σ → Prop) (work : σ → ℕ) (s s' : σ)
    (a : α) : Prop where
  le : work s' ≤ work s
  persists : work s' = work s → ∀ k, enabled k s → enabled k s' ∧ ¬ is k a

section
variable {is : κ → α → Prop} {enabled : κ → σ → Prop} {work : σ → ℕ} {schedule : ℕ → α}
  {run : ℕ → σ} {busy goal : ℕ → Prop}

theorem Harmless.same {s : σ} {a : α} (h : ∀ k, enabled k s → ¬ is k a) :
    Harmless is enabled work s s a :=
  ⟨Nat.le_refl _, fun _ k hk => ⟨hk, h k hk⟩⟩

theorem Harmless.less {s s' : σ} {a : α} (h : work s' < work s) :
    Harmless is enabled work s s' a :=
  ⟨Nat.le_of_lt h, fun he => absurd he (Nat.ne_of_lt h)⟩

theorem Harmless.of_helped {s s' : σ} {a : α} (h : work s' < work s ∨ s' = s)
    (hk : ∀ k, enabled k s → is k a → work s' < work s) : Harmless is enabled work s s' a := by
  rcases h with hless | rfl
  · exact .less hless
  · exact .same fun k hen his => Nat.lt_irrefl _ (hk k hen his)

/-- Up to the next helpful action the work shrinks or the goal is reached. -/
theorem reaches_or_shrinks
    (hstep : ∀ t, busy t → goal (t + 1) ∨
      busy (t + 1) ∧ Harmless is enabled work (run t) (run (t + 1)) (schedule t))
    {k : κ} {d t : ℕ} (ht : busy t) (hk : enabled k (run t)) (his : is k (schedule (t + d))) :
    ∃ u, t < u ∧ (goal u ∨ busy u ∧ work (run u) < work (run t)) := by
  induction d generalizing t with
  | zero =>
    rcases hstep t ht with hgoal | ⟨hbusy, hsafe⟩
    · exact ⟨t + 1, Nat.lt_succ_self t, Or.inl hgoal⟩
    · have hne : work (run (t + 1)) ≠ work (run t) := fun he => (hsafe.persists he k hk).2 his
      exact ⟨t + 1, Nat.lt_succ_self t, Or.inr ⟨hbusy, Nat.lt_of_le_of_ne hsafe.le hne⟩⟩
  | succ d ih =>
    rcases hstep t ht with hgoal | ⟨hbusy, hsafe⟩
    · exact ⟨t + 1, Nat.lt_succ_self t, Or.inl hgoal⟩
    · by_cases he : work (run (t + 1)) = work (run t)
      · have hnext : t + 1 + d = t + (d + 1) := by omega
        obtain ⟨u, hu, h⟩ := ih hbusy (hsafe.persists he k hk).1 (hnext ▸ his)
        rw [he] at h
        exact ⟨u, by omega, h⟩
      · exact ⟨t + 1, Nat.lt_succ_self t, Or.inr ⟨hbusy, Nat.lt_of_le_of_ne hsafe.le he⟩⟩

/-- Under a fair schedule a busy run reaches its goal; by induction on the work left. -/
theorem Fair.reaches (hfair : Fair is schedule) (hsome : ∀ t, busy t → ∃ k, enabled k (run t))
    (hstep : ∀ t, busy t → goal (t + 1) ∨
      busy (t + 1) ∧ Harmless is enabled work (run t) (run (t + 1)) (schedule t))
    {t : ℕ} (ht : busy t) : ∃ u, t < u ∧ goal u := by
  generalize hw : work (run t) = w
  induction w using Nat.strong_induction_on generalizing t with
  | h w ih =>
    obtain ⟨k, hk⟩ := hsome _ ht
    obtain ⟨u, hu, his⟩ := hfair k t
    obtain ⟨d, rfl⟩ := Nat.exists_eq_add_of_le hu
    obtain ⟨v, hv, hgoal | ⟨hbusy, hless⟩⟩ := reaches_or_shrinks hstep ht hk his
    · exact ⟨v, hv, hgoal⟩
    · obtain ⟨v', hv', hgoal⟩ := ih _ (hw ▸ hless) hbusy rfl
      exact ⟨v', by omega, hgoal⟩

/-- What holds on while it has to wait still holds when the wait is over. -/
theorem held_until_free {holds waits : ℕ → Prop}
    (hkeep : ∀ u, holds u → waits u → holds (u + 1)) {t : ℕ} (ht : holds t)
    (hfree : ∃ u, t ≤ u ∧ ¬ waits u) : ∃ u, t ≤ u ∧ holds u ∧ ¬ waits u := by
  obtain ⟨u, hu, hfree⟩ := hfree
  obtain ⟨d, rfl⟩ := Nat.exists_eq_add_of_le hu
  induction d generalizing t with
  | zero => exact ⟨t, Nat.le_refl t, ht, hfree⟩
  | succ d ih =>
    by_cases hwait : waits t
    · have hnext : t + 1 + d = t + (d + 1) := by omega
      obtain ⟨v, hv, h⟩ := ih (hkeep t ht hwait) (by omega) (hnext ▸ hfree)
      exact ⟨v, by omega, h⟩
    · exact ⟨t, Nat.le_refl t, ht, hwait⟩

end

end SeccampRiscvCpu.FairSchedules
