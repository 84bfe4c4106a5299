import Mathlib

/-!
# Programs on a bus

A program loads and stores, and goes on with what it has loaded. It is performed along a run of
the hardware behind the bus, with any number of clocks between its accesses. What holds
in a clock may be any property of the run; assertions that the quiet clocks keep are
propagated through a program by one rule for each of its forms.
-/
namespace SeccampRiscvCpu.BusPrograms

inductive Program (A W : Type) (α : Type) where
  | done (a : α)
  | load (address : A) (next : W → Program A W α)
  | store (address : A) (value : W) (next : Program A W α)

namespace Program
variable {A W α β : Type}

def bind (f : α → Program A W β) : Program A W α → Program A W β
  | done a => f a
  | load address next => load address fun w => (next w).bind f
  | store address value next => store address value (next.bind f)

instance : Monad (Program A W) where
  pure := done
  bind p f := p.bind f

@[simp] theorem pure_eq (a : α) : (pure a : Program A W α) = done a := rfl
@[simp] theorem bind_done (a : α) (f : α → Program A W β) : done a >>= f = f a := rfl
@[simp] theorem bind_load (address : A) (next : W → Program A W α) (f : α → Program A W β) :
    load address next >>= f = load address fun w => next w >>= f := rfl
@[simp] theorem bind_store (address : A) (value : W) (next : Program A W α)
    (f : α → Program A W β) :
    store address value next >>= f = store address value (next >>= f) := rfl

/-- One access on its own. -/
def read (address : A) : Program A W W := load address done
def write (address : A) (value : W) : Program A W Unit := store address value (done ())

/-- The body of a loop, `n` times. -/
def iterate (body : α → Program A W α) : ℕ → α → Program A W α
  | 0, a => done a
  | n + 1, a => body a >>= iterate body n

/-- A loop that counts from `i` on, `n` times. -/
def count (body : ℕ → α → Program A W α) (i : ℕ) : ℕ → α → Program A W α
  | 0, a => done a
  | n + 1, a => body i a >>= count body (i + 1) n

end Program

/-- What happens on the bus in each clock. -/
structure Traffic (A W : Type) where
  loads : ℕ → A → W → Prop
  stores : ℕ → A → W → Prop
  quiet : ℕ → Prop

section
variable {A W α β : Type} (b : Traffic A W)

/-- The program is performed from clock `t` up to clock `u`, with this result. -/
inductive Performs : Program A W α → ℕ → ℕ → α → Prop where
  | done (a : α) (t : ℕ) : Performs (.done a) t t a
  | waits {p : Program A W α} {t u : ℕ} {a : α} :
      b.quiet t → Performs p (t + 1) u a → Performs p t u a
  | loads {address : A} {next : W → Program A W α} {w : W} {t u : ℕ} {a : α} :
      b.loads t address w → Performs (next w) (t + 1) u a → Performs (.load address next) t u a
  | stores {address : A} {value : W} {next : Program A W α} {t u : ℕ} {a : α} :
      b.stores t address value → Performs next (t + 1) u a →
        Performs (.store address value next) t u a

/-- An assertion the quiet clocks keep. -/
def Stable (P : ℕ → Prop) : Prop := ∀ t, b.quiet t → P t → P (t + 1)

/-- From any clock in which `P` holds the program can only come to a result and a clock in which
`Q` holds. -/
def Triple (P : ℕ → Prop) (p : Program A W α) (Q : α → ℕ → Prop) : Prop :=
  ∀ t u a, P t → Performs b p t u a → Q a u

variable {b}

/-- What is performed where less can happen. -/
theorem Performs.mono {b' : Traffic A W} (hloads : ∀ t address w, b.loads t address w →
    b'.loads t address w) (hstores : ∀ t address w, b.stores t address w → b'.stores t address w)
    (hquiet : ∀ t, b.quiet t → b'.quiet t) {p : Program A W α} {t u : ℕ} {a : α}
    (h : Performs b p t u a) : Performs b' p t u a := by
  induction h with
  | done a t => exact .done a t
  | waits hnow _ ih => exact .waits (hquiet _ hnow) ih
  | loads hnow _ ih => exact .loads (hloads _ _ _ hnow) ih
  | stores hnow _ ih => exact .stores (hstores _ _ _ hnow) ih

/-! ## Programs one after the other -/

theorem Performs.bind {p : Program A W α} {f : α → Program A W β} {t u v : ℕ} {a : α} {c : β}
    (hp : Performs b p t u a) (hf : Performs b (f a) u v c) : Performs b (p >>= f) t v c := by
  induction hp with
  | done => exact hf
  | waits hquiet _ ih => exact .waits hquiet (ih hf)
  | loads hload _ ih => exact .loads hload (ih hf)
  | stores hstore _ ih => exact .stores hstore (ih hf)

theorem Performs.split {p : Program A W α} {f : α → Program A W β} {t v : ℕ} {c : β}
    (h : Performs b (p >>= f) t v c) : ∃ u a, Performs b p t u a ∧ Performs b (f a) u v c := by
  induction p generalizing t with
  | done a => exact ⟨t, a, .done a t, h⟩
  | load address next ih =>
    rw [Program.bind_load] at h
    generalize hq : Program.load address _ = q at h
    induction h with
    | done => cases hq
    | waits hquiet _ ih' =>
      obtain ⟨u, a, hp, hf⟩ := ih' ih hq
      exact ⟨u, a, .waits hquiet hp, hf⟩
    | loads hload hrest _ =>
      cases hq
      obtain ⟨u, a, hp, hf⟩ := ih _ hrest
      exact ⟨u, a, .loads hload hp, hf⟩
    | stores => cases hq
  | store address value next ih =>
    rw [Program.bind_store] at h
    generalize hq : Program.store address value _ = q at h
    induction h with
    | done => cases hq
    | waits hquiet _ ih' =>
      obtain ⟨u, a, hp, hf⟩ := ih' ih hq
      exact ⟨u, a, .waits hquiet hp, hf⟩
    | loads => cases hq
    | stores hstore hrest _ =>
      cases hq
      obtain ⟨u, a, hp, hf⟩ := ih hrest
      exact ⟨u, a, .stores hstore hp, hf⟩

/-! ## The rules -/

variable {P : ℕ → Prop} {Q : α → ℕ → Prop}

theorem Triple.imp {P' : ℕ → Prop} {Q' : α → ℕ → Prop} {p : Program A W α}
    (h : Triple b P' p Q') (hP : ∀ t, P t → P' t) (hQ : ∀ a t, Q' a t → Q a t) :
    Triple b P p Q :=
  fun t u a hp hperforms => hQ a u (h t u a (hP t hp) hperforms)

theorem Triple.of_exists {ι : Type*} {P : ι → ℕ → Prop} {p : Program A W α}
    (h : ∀ i, Triple b (P i) p Q) : Triple b (fun t => ∃ i, P i t) p Q :=
  fun t u a ⟨i, hP⟩ hperforms => h i t u a hP hperforms

theorem Triple.of_and {φ : Prop} {p : Program A W α} (h : φ → Triple b P p Q) :
    Triple b (fun t => φ ∧ P t) p Q :=
  fun t u a ⟨hφ, hP⟩ hperforms => h hφ t u a hP hperforms

theorem Triple.done {a : α} (hstable : Stable b (Q a)) (h : ∀ t, P t → Q a t) :
    Triple b P (.done a) Q := by
  intro t u c hP hperforms
  have hQ := h t hP
  clear hP
  generalize hp : Program.done a = p at hperforms
  induction hperforms with
  | done c t =>
    cases hp
    exact hQ
  | waits hquiet _ ih => exact ih (hstable _ hquiet hQ) hp
  | loads => cases hp
  | stores => cases hp

theorem Triple.load {R : W → ℕ → Prop} {address : A} {next : W → Program A W α}
    (hstable : Stable b P) (hload : ∀ t w, P t → b.loads t address w → R w (t + 1))
    (hnext : ∀ w, Triple b (R w) (next w) Q) : Triple b P (.load address next) Q := by
  intro t u c hP hperforms
  generalize hp : Program.load address next = p at hperforms
  induction hperforms with
  | done => cases hp
  | waits hquiet _ ih => exact ih (hstable _ hquiet hP) hp
  | loads hnow hrest _ =>
    cases hp
    exact hnext _ _ _ _ (hload _ _ hP hnow) hrest
  | stores => cases hp

theorem Triple.store {R : ℕ → Prop} {address : A} {value : W} {next : Program A W α}
    (hstable : Stable b P) (hstore : ∀ t, P t → b.stores t address value → R (t + 1))
    (hnext : Triple b R next Q) : Triple b P (.store address value next) Q := by
  intro t u c hP hperforms
  generalize hp : Program.store address value next = p at hperforms
  induction hperforms with
  | done => cases hp
  | waits hquiet _ ih => exact ih (hstable _ hquiet hP) hp
  | loads => cases hp
  | stores hnow hrest _ =>
    cases hp
    exact hnext _ _ _ (hstore _ hP hnow) hrest

theorem Triple.read {R : W → ℕ → Prop} {address : A} {f : W → Program A W α}
    (hstable : Stable b P) (hload : ∀ t w, P t → b.loads t address w → R w (t + 1))
    (hnext : ∀ w, Triple b (R w) (f w) Q) : Triple b P (.read address >>= f) Q :=
  .load hstable hload hnext

theorem Triple.write {R : ℕ → Prop} {address : A} {value : W} {f : Unit → Program A W α}
    (hstable : Stable b P) (hstore : ∀ t, P t → b.stores t address value → R (t + 1))
    (hnext : Triple b R (f ()) Q) : Triple b P (.write address value >>= f) Q :=
  .store hstable hstore hnext

theorem Triple.bind {R : β → ℕ → Prop} {p : Program A W α} {f : α → Program A W β}
    (hp : Triple b P p Q) (hf : ∀ a, Triple b (Q a) (f a) R) : Triple b P (p >>= f) R := by
  intro t v c hP hperforms
  obtain ⟨u, a, hfirst, hrest⟩ := hperforms.split
  exact hf a u v c (hp t u a hP hfirst) hrest

/-- What the body of a loop keeps. -/
theorem Triple.iterate {body : α → Program A W α} (hstable : ∀ a, Stable b (Q a))
    (hbody : ∀ a, Triple b (Q a) (body a) Q) (n : ℕ) (a : α) :
    Triple b (Q a) (Program.iterate body n a) Q := by
  induction n generalizing a with
  | zero => exact .done (hstable a) fun _ h => h
  | succ n ih => exact (hbody a).bind ih

/-! ## While a program is performed -/

variable (b) in
/-- The program `p` is performed from clock `t` on, and on clock `u` there is `q` left of it. -/
inductive Comes : Program A W α → ℕ → Program A W α → ℕ → Prop where
  | refl (p : Program A W α) (t : ℕ) : Comes p t p t
  | waits {p q : Program A W α} {t u : ℕ} :
      b.quiet t → Comes p (t + 1) q u → Comes p t q u
  | loads {address : A} {next : W → Program A W α} {q : Program A W α} {w : W} {t u : ℕ} :
      b.loads t address w → Comes (next w) (t + 1) q u → Comes (.load address next) t q u
  | stores {address : A} {value : W} {next q : Program A W α} {t u : ℕ} :
      b.stores t address value → Comes next (t + 1) q u → Comes (.store address value next) t q u

variable (b) in
/-- From any clock in which `P` holds `I` holds for as long as the program is performed, and
it can only come to a result and a clock in which `Q` holds. -/
def Always (I P : ℕ → Prop) (p : Program A W α) (Q : α → ℕ → Prop) : Prop :=
  ∀ t u q, P t → Comes b p t q u → I u ∧ ∀ a, q = .done a → Q a u

variable {I : ℕ → Prop}

theorem Performs.comes {p : Program A W α} {t u : ℕ} {a : α} (h : Performs b p t u a) :
    Comes b p t (.done a) u := by
  induction h with
  | done a t => exact .refl _ t
  | waits hquiet _ ih => exact .waits hquiet ih
  | loads hload _ ih => exact .loads hload ih
  | stores hstore _ ih => exact .stores hstore ih

theorem Comes.of_quiet {p : Program A W α} {t u : ℕ} (h : ∀ v, t ≤ v → b.quiet v)
    (hle : t ≤ u) : Comes b p t p u := by
  induction hle using Nat.decreasingInduction with
  | self => exact .refl p u
  | of_succ k hk ih => exact .waits (h k (Nat.le_refl k)) (ih fun v hv => h v (by omega))

/-- A program that is performed has come somewhere on every clock. -/
theorem Performs.comes_at {p : Program A W α} {t v : ℕ} {a : α} (h : Performs b p t v a)
    (hquiet : ∀ u, v ≤ u → b.quiet u) {u : ℕ} (hle : t ≤ u) : ∃ q, Comes b p t q u := by
  induction h with
  | done a t => exact ⟨.done a, .of_quiet hquiet hle⟩
  | @waits p t v a hnow _ ih =>
    rcases Nat.eq_or_lt_of_le hle with rfl | hlt
    · exact ⟨p, .refl p t⟩
    · obtain ⟨q, hq⟩ := ih hquiet hlt
      exact ⟨q, .waits hnow hq⟩
  | @loads address next w t v a hnow _ ih =>
    rcases Nat.eq_or_lt_of_le hle with rfl | hlt
    · exact ⟨_, .refl (.load address next) t⟩
    · obtain ⟨q, hq⟩ := ih hquiet hlt
      exact ⟨q, .loads hnow hq⟩
  | @stores address value next t v a hnow _ ih =>
    rcases Nat.eq_or_lt_of_le hle with rfl | hlt
    · exact ⟨_, .refl (.store address value next) t⟩
    · obtain ⟨q, hq⟩ := ih hquiet hlt
      exact ⟨q, .stores hnow hq⟩

/-- What is left of two programs is left of the first one, or of the second one. -/
theorem Comes.split {p : Program A W α} {f : α → Program A W β} {q : Program A W β} {t u : ℕ}
    (h : Comes b (p >>= f) t q u) : (∃ p', Comes b p t p' u ∧ q = p' >>= f) ∨
      ∃ v a, Comes b p t (.done a) v ∧ Comes b (f a) v q u := by
  induction p generalizing t with
  | done a => exact Or.inr ⟨t, a, .refl _ t, h⟩
  | load address next ih =>
    rw [Program.bind_load] at h
    generalize hr : Program.load address _ = r at h
    induction h with
    | refl r t =>
      cases hr
      exact Or.inl ⟨_, .refl _ t, rfl⟩
    | waits hquiet _ ih' =>
      rcases ih' ih hr with ⟨p', hp, hq⟩ | ⟨v, a, hp, hf⟩
      · exact Or.inl ⟨p', .waits hquiet hp, hq⟩
      · exact Or.inr ⟨v, a, .waits hquiet hp, hf⟩
    | loads hload hrest _ =>
      cases hr
      rcases ih _ hrest with ⟨p', hp, hq⟩ | ⟨v, a, hp, hf⟩
      · exact Or.inl ⟨p', .loads hload hp, hq⟩
      · exact Or.inr ⟨v, a, .loads hload hp, hf⟩
    | stores => cases hr
  | store address value next ih =>
    rw [Program.bind_store] at h
    generalize hr : Program.store address value _ = r at h
    induction h with
    | refl r t =>
      cases hr
      exact Or.inl ⟨_, .refl _ t, rfl⟩
    | waits hquiet _ ih' =>
      rcases ih' ih hr with ⟨p', hp, hq⟩ | ⟨v, a, hp, hf⟩
      · exact Or.inl ⟨p', .waits hquiet hp, hq⟩
      · exact Or.inr ⟨v, a, .waits hquiet hp, hf⟩
    | loads => cases hr
    | stores hstore hrest _ =>
      cases hr
      rcases ih hrest with ⟨p', hp, hq⟩ | ⟨v, a, hp, hf⟩
      · exact Or.inl ⟨p', .stores hstore hp, hq⟩
      · exact Or.inr ⟨v, a, .stores hstore hp, hf⟩

theorem Always.imp {P' I' : ℕ → Prop} {Q' : α → ℕ → Prop} {p : Program A W α}
    (h : Always b I' P' p Q') (hP : ∀ t, P t → P' t) (hI : ∀ t, I' t → I t)
    (hQ : ∀ a t, Q' a t → Q a t) : Always b I P p Q := by
  intro t u q hp hcomes
  obtain ⟨hi, hq⟩ := h t u q (hP t hp) hcomes
  exact ⟨hI u hi, fun a ha => hQ a u (hq a ha)⟩

theorem Always.of_imp {P' : ℕ → Prop} {p : Program A W α} (h : Always b I P' p Q)
    (hP : ∀ t, P t → P' t) : Always b I P p Q :=
  h.imp hP (fun _ h => h) fun _ _ h => h

theorem Always.of_exists {ι : Type*} {P : ι → ℕ → Prop} {p : Program A W α}
    (h : ∀ i, Always b I (P i) p Q) : Always b I (fun t => ∃ i, P i t) p Q :=
  fun t u q ⟨i, hP⟩ hcomes => h i t u q hP hcomes

theorem Always.of_and {φ : Prop} {p : Program A W α} (h : φ → Always b I P p Q) :
    Always b I (fun t => φ ∧ P t) p Q :=
  fun t u q ⟨hφ, hP⟩ hcomes => h hφ t u q hP hcomes

theorem Always.done {a : α} (hstable : Stable b (Q a)) (h : ∀ t, P t → Q a t)
    (hI : ∀ t, Q a t → I t) : Always b I P (.done a) Q := by
  intro t u q hP hcomes
  have hQ := h t hP
  clear hP
  generalize hp : Program.done a = p at hcomes
  induction hcomes with
  | refl p t =>
    cases hp
    refine ⟨hI t hQ, fun c hc => ?_⟩
    cases hc
    exact hQ
  | waits hquiet _ ih => exact ih (hstable _ hquiet hQ) hp
  | loads => cases hp
  | stores => cases hp

theorem Always.load {R : W → ℕ → Prop} {address : A} {next : W → Program A W α}
    (hstable : Stable b P) (hI : ∀ t, P t → I t)
    (hload : ∀ t w, P t → b.loads t address w → R w (t + 1))
    (hnext : ∀ w, Always b I (R w) (next w) Q) : Always b I P (.load address next) Q := by
  intro t u q hP hcomes
  generalize hp : Program.load address next = p at hcomes
  induction hcomes with
  | refl p t =>
    cases hp
    exact ⟨hI t hP, fun a ha => by cases ha⟩
  | waits hquiet _ ih => exact ih (hstable _ hquiet hP) hp
  | loads hnow hrest _ =>
    cases hp
    exact hnext _ _ _ _ (hload _ _ hP hnow) hrest
  | stores => cases hp

theorem Always.store {R : ℕ → Prop} {address : A} {value : W} {next : Program A W α}
    (hstable : Stable b P) (hI : ∀ t, P t → I t)
    (hstore : ∀ t, P t → b.stores t address value → R (t + 1)) (hnext : Always b I R next Q) :
    Always b I P (.store address value next) Q := by
  intro t u q hP hcomes
  generalize hp : Program.store address value next = p at hcomes
  induction hcomes with
  | refl p t =>
    cases hp
    exact ⟨hI t hP, fun a ha => by cases ha⟩
  | waits hquiet _ ih => exact ih (hstable _ hquiet hP) hp
  | loads => cases hp
  | stores hnow hrest _ =>
    cases hp
    exact hnext _ _ _ (hstore _ hP hnow) hrest

theorem Always.read {R : W → ℕ → Prop} {address : A} {f : W → Program A W α}
    (hstable : Stable b P) (hI : ∀ t, P t → I t)
    (hload : ∀ t w, P t → b.loads t address w → R w (t + 1))
    (hnext : ∀ w, Always b I (R w) (f w) Q) : Always b I P (.read address >>= f) Q :=
  .load hstable hI hload hnext

theorem Always.write {R : ℕ → Prop} {address : A} {value : W} {f : Unit → Program A W α}
    (hstable : Stable b P) (hI : ∀ t, P t → I t)
    (hstore : ∀ t, P t → b.stores t address value → R (t + 1))
    (hnext : Always b I R (f ()) Q) : Always b I P (.write address value >>= f) Q :=
  .store hstable hI hstore hnext

theorem Always.bind {R : β → ℕ → Prop} {p : Program A W α} {f : α → Program A W β}
    (hp : Always b I P p Q) (hf : ∀ a, Always b I (Q a) (f a) R) : Always b I P (p >>= f) R := by
  intro t u q hP hcomes
  rcases hcomes.split with ⟨p', hfirst, rfl⟩ | ⟨v, a, hfirst, hrest⟩
  · obtain ⟨hI, hQ⟩ := hp t u p' hP hfirst
    refine ⟨hI, fun c hc => ?_⟩
    -- nothing may be left of the second program only if the first one is done
    cases p' with
    | done a => exact (hf a u u _ (hQ a rfl) (.refl _ u)).2 c hc
    | load => cases hc
    | store => cases hc
  · exact hf a v u q ((hp t v _ hP hfirst).2 a rfl) hrest

/-- The rule of a counting loop: an invariant for each count, kept by the body. -/
theorem Always.count {J : ℕ → α → ℕ → Prop} (body : ℕ → α → Program A W α) {i n : ℕ}
    (hstable : ∀ a, Stable b (J (i + n) a)) (hI : ∀ a t, J (i + n) a t → I t)
    (hbody : ∀ j, i ≤ j → j < i + n → ∀ a, Always b I (J j a) (body j a) (J (j + 1))) (a : α) :
    Always b I (J i a) (Program.count body i n a) (J (i + n)) := by
  induction n generalizing i a with
  | zero => exact .done (hstable a) (fun _ h => h) (hI a)
  | succ n ih =>
    have hend : i + (n + 1) = i + 1 + n := by omega
    rw [hend] at hstable hI hbody ⊢
    exact (hbody i (Nat.le_refl _) (by omega) a).bind
      (ih hstable hI (fun j hj hlt a => hbody j (by omega) hlt a))

end

end SeccampRiscvCpu.BusPrograms
