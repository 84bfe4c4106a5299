import Mathlib

/-!
# Symbol-by-symbol transducers and programs polled over a stream

A transducer reads one symbol at a time and may emit after each. A polled
program sees the same stream through reads whose sizes somebody else decides:
each poll takes some prefix of what is left, possibly none of it, and returns
at most one event. A poll without a value is a failed one.

If every poll does to the program's state what the transducer does on exactly
the symbols the poll took, then a whole run of polls emits the transducer's
output on the consumed symbols, and the reads' sizes cannot be observed. Where
it does so in some states only, the same holds of streams that stay in them.
-/
namespace SeccampRiscvCpu.StreamTransducer

variable {σ τ α β δ : Type*}

structure Transducer (σ α β : Type*) where
  step : σ → α → σ
  emit : σ → α → Option β

namespace Transducer
variable (T : Transducer σ α β)

def run (s : σ) (xs : List α) : σ := xs.foldl T.step s

def output (s : σ) : List α → List β
  | [] => []
  | x :: xs => (T.emit s x).toList ++ output (T.step s x) xs

@[simp] theorem run_nil (s : σ) : T.run s [] = s := rfl
@[simp] theorem run_cons (s : σ) (x : α) (xs : List α) :
    T.run s (x :: xs) = T.run (T.step s x) xs := rfl
@[simp] theorem output_nil (s : σ) : T.output s [] = [] := rfl
@[simp] theorem output_cons (s : σ) (x : α) (xs : List α) :
    T.output s (x :: xs) = (T.emit s x).toList ++ T.output (T.step s x) xs := rfl

theorem run_append (s : σ) (xs ys : List α) :
    T.run s (xs ++ ys) = T.run (T.run s xs) ys := List.foldl_append

theorem output_append (s : σ) (xs ys : List α) :
    T.output s (xs ++ ys) = T.output s xs ++ T.output (T.run s xs) ys := by
  induction xs generalizing s with
  | nil => rfl
  | cons x xs ih => simp only [List.cons_append, output_cons, run_cons, ih, List.append_assoc]

/-- A state the transducer never leaves and never emits from absorbs everything. -/
theorem absorbing {s : σ} (hs : ∀ x, T.step s x = s) (he : ∀ x, T.emit s x = none)
    (xs : List α) : T.run s xs = s ∧ T.output s xs = [] := by
  induction xs with
  | nil => exact ⟨rfl, rfl⟩
  | cons x xs ih => simp only [run_cons, output_cons, hs, he, ih, Option.toList, List.nil_append,
      and_self]

/-- The same transducer with its events renamed. -/
def rename {γ : Type*} (g : β → γ) : Transducer σ α γ :=
  ⟨T.step, fun s x => (T.emit s x).map g⟩

@[simp] theorem rename_output {γ : Type*} (g : β → γ) (s : σ) (xs : List α) :
    (T.rename g).output s xs = (T.output s xs).map g := by
  induction xs generalizing s with
  | nil => rfl
  | cons x xs ih =>
      simp only [output_cons, List.map_append, ih]
      cases h : T.emit s x <;> simp [rename, h]

/-- What has been emitted is a prefix of what will have been emitted. -/
theorem output_mono (s : σ) {xs ys : List α} (h : xs <+: ys) :
    T.output s xs <+: T.output s ys := by
  obtain ⟨zs, rfl⟩ := h
  exact ⟨_, (T.output_append s xs zs).symm⟩

end Transducer

/-- What one poll leaves: the new state, the unread stream, and an event. -/
structure Poll (τ α β : Type*) where
  state : τ
  rest : List α
  event : Option β

/-- Everything a run of polls leaves, events in order. -/
structure PollRun (τ α β : Type*) where
  state : τ
  rest : List α
  events : List β

/-- Poll once for each decision `d`, on what the polls before it left. -/
def pollRun (poll : δ → τ → List α → Option (Poll τ α β)) :
    List δ → τ → List α → Option (PollRun τ α β)
  | [], t, xs => some ⟨t, xs, []⟩
  | d :: ds, t, xs => do
      let p ← poll d t xs
      let q ← pollRun poll ds p.state p.rest
      return ⟨q.state, q.rest, p.event.toList ++ q.events⟩

/-- One poll does what the transducer does on the symbols the poll took. -/
def Tracks (T : Transducer σ α β) (poll : δ → τ → List α → Option (Poll τ α β))
    (R : τ → σ → Prop) : Prop :=
  ∀ d t s xs, R t s → ∃ p taken, poll d t xs = some p ∧ xs = taken ++ p.rest ∧
    R p.state (T.run s taken) ∧ p.event.toList = T.output s taken

theorem pollRun_nil (poll : δ → τ → List α → Option (Poll τ α β)) (t : τ) (xs : List α) :
    pollRun poll [] t xs = some ⟨t, xs, []⟩ := rfl

theorem pollRun_cons {poll : δ → τ → List α → Option (Poll τ α β)} {d : δ} {ds : List δ}
    {t : τ} {xs : List α} {p : Poll τ α β} {q : PollRun τ α β} (hp : poll d t xs = some p)
    (hq : pollRun poll ds p.state p.rest = some q) :
    pollRun poll (d :: ds) t xs = some ⟨q.state, q.rest, p.event.toList ++ q.events⟩ := by
  simp [pollRun, hp, hq]

/-- The induction over polls, done once: what every poll keeps of the state, the
unread stream and the events so far holds after every run, and no run fails. -/
theorem pollRun_invariant (poll : δ → τ → List α → Option (Poll τ α β))
    {I : τ → List α → List β → Prop}
    (hpoll : ∀ d t xs es, I t xs es →
      ∃ p, poll d t xs = some p ∧ I p.state p.rest (es ++ p.event.toList))
    (ds : List δ) {t : τ} {xs : List α} (es : List β) (h : I t xs es) :
    ∃ q, pollRun poll ds t xs = some q ∧ I q.state q.rest (es ++ q.events) := by
  induction ds generalizing t xs es with
  | nil => exact ⟨_, pollRun_nil poll t xs, by simpa using h⟩
  | cons d ds ih =>
      obtain ⟨p, hp, hI⟩ := hpoll d t xs es h
      obtain ⟨q, hq, hI'⟩ := ih _ hI
      exact ⟨_, pollRun_cons hp hq, by simpa using hI'⟩

/-- The same for runs that are known to succeed. -/
theorem pollRun_sound {poll : δ → τ → List α → Option (Poll τ α β)}
    {I : τ → List α → List β → Prop}
    (hpoll : ∀ d t xs es p, I t xs es → poll d t xs = some p →
      I p.state p.rest (es ++ p.event.toList))
    {ds : List δ} {t : τ} {xs : List α} {es : List β} {q : PollRun τ α β}
    (h : I t xs es) (hq : pollRun poll ds t xs = some q) : I q.state q.rest (es ++ q.events) := by
  induction ds generalizing t xs es q with
  | nil =>
      obtain rfl := Option.some.inj ((pollRun_nil poll t xs).symm.trans hq)
      simpa using h
  | cons d ds ih =>
      obtain ⟨p, hp, hq⟩ := Option.bind_eq_some_iff.mp hq
      obtain ⟨q', hq', hq⟩ := Option.bind_eq_some_iff.mp hq
      obtain rfl := Option.some.inj hq
      simpa using ih (hpoll d t xs es p h hp) hq'

/-- Each poll that takes a symbol, if there is one, leaves fewer of them. -/
theorem pollRun_length {poll : δ → τ → List α → Option (Poll τ α β)} {takes : δ → Bool}
    {I : τ → List α → Prop} {ds : List δ}
    (hpoll : ∀ d ∈ ds, ∀ t xs p, I t xs → poll d t xs = some p →
      I p.state p.rest ∧ p.rest.length ≤ xs.length - (takes d).toNat)
    {xs : List α} {t : τ} {q : PollRun τ α β} (h : I t xs)
    (hq : pollRun poll ds t xs = some q) : q.rest.length ≤ xs.length - ds.countP takes := by
  induction ds generalizing t xs q with
  | nil =>
      obtain rfl := Option.some.inj hq
      exact Nat.le_refl _
  | cons d ds ih =>
      obtain ⟨p, hp, hq⟩ := Option.bind_eq_some_iff.mp hq
      obtain ⟨q', hq', hq⟩ := Option.bind_eq_some_iff.mp hq
      obtain rfl := Option.some.inj hq
      obtain ⟨hI, hrest⟩ := hpoll d List.mem_cons_self t xs p h hp
      have hall := ih (fun d hd => hpoll d (List.mem_cons_of_mem _ hd)) hI hq'
      rw [List.countP_cons]
      cases htakes : takes d with
      | true =>
        rw [htakes, Bool.toNat_true] at hrest
        rw [if_pos rfl]
        exact hall.trans (by omega)
      | false =>
        rw [htakes, Bool.toNat_false] at hrest
        rw [if_neg Bool.false_ne_true]
        exact hall.trans (by omega)

/-- So as many of them as there are symbols have read the stream. -/
theorem pollRun_drains {poll : δ → τ → List α → Option (Poll τ α β)} {takes : δ → Bool}
    {I : τ → List α → Prop} {ds : List δ}
    (hpoll : ∀ d ∈ ds, ∀ t xs p, I t xs → poll d t xs = some p →
      I p.state p.rest ∧ p.rest.length ≤ xs.length - (takes d).toNat)
    {xs : List α} {t : τ} {q : PollRun τ α β} (h : I t xs)
    (hq : pollRun poll ds t xs = some q) (henough : xs.length ≤ ds.countP takes) :
    q.rest = [] := by
  have hlength := pollRun_length hpoll h hq
  exact List.eq_nil_of_length_eq_zero (by omega)

/-- Polls that take one symbol each have read the stream after as many polls. -/
theorem pollRun_drains_each {poll : δ → τ → List α → Option (Poll τ α β)} {d : δ}
    {I : τ → List α → Prop}
    (hpoll : ∀ t xs p, I t xs → poll d t xs = some p → I p.state p.rest ∧ p.rest = xs.drop 1)
    {xs : List α} {t : τ} {q : PollRun τ α β} (h : I t xs)
    (hq : pollRun poll (List.replicate xs.length d) t xs = some q) : q.rest = [] := by
  have heach : ∀ d' ∈ List.replicate xs.length d, ∀ t xs p, I t xs → poll d' t xs = some p →
      I p.state p.rest ∧ p.rest.length ≤ xs.length - true.toNat := by
    intro d' hd' t xs p hI hp
    rw [List.eq_of_mem_replicate hd'] at hp
    obtain ⟨hnext, hrest⟩ := hpoll t xs p hI hp
    refine ⟨hnext, ?_⟩
    rw [hrest, List.length_drop]
    exact Nat.le_refl _
  refine pollRun_drains heach h hq ?_
  rw [List.countP_replicate]
  exact Nat.le_refl _

/-- Tracking as long as the transducer is in a good state. -/
def TracksWhile (good : σ → Prop) (T : Transducer σ α β)
    (poll : δ → τ → List α → Option (Poll τ α β)) (R : τ → σ → Prop) : Prop :=
  ∀ d t s xs, good s → R t s → ∃ p taken, poll d t xs = some p ∧ xs = taken ++ p.rest ∧
    R p.state (T.run s taken) ∧ p.event.toList = T.output s taken

theorem Tracks.tracksWhile {T : Transducer σ α β} {poll : δ → τ → List α → Option (Poll τ α β)}
    {R : τ → σ → Prop} (hT : Tracks T poll R) : TracksWhile (fun _ => True) T poll R :=
  fun d t s xs _ => hT d t s xs

theorem pollRun_append (poll : δ → τ → List α → Option (Poll τ α β)) (ds₁ ds₂ : List δ) (t : τ)
    (xs : List α) : pollRun poll (ds₁ ++ ds₂) t xs = (pollRun poll ds₁ t xs).bind fun q₁ =>
      (pollRun poll ds₂ q₁.state q₁.rest).map fun q₂ =>
        ⟨q₂.state, q₂.rest, q₁.events ++ q₂.events⟩ := by
  induction ds₁ generalizing t xs with
  | nil => simp [pollRun]
  | cons d ds₁ ih =>
      simp only [List.cons_append, pollRun, ih, Option.bind_eq_bind, Option.bind_assoc,
        Option.pure_def, Option.bind_some, Option.map_eq_bind, Function.comp_def, List.append_assoc]

section
variable {T : Transducer σ α β} {poll : δ → τ → List α → Option (Poll τ α β)}
  {R : τ → σ → Prop} {good : σ → Prop}

theorem TracksWhile.run (hT : TracksWhile good T poll R) (ds : List δ) {t : τ} {s : σ}
    (h : R t s) {xs : List α} (hgood : ∀ ys, ys <+: xs → good (T.run s ys)) :
    ∃ q taken, pollRun poll ds t xs = some q ∧ xs = taken ++ q.rest ∧
      R q.state (T.run s taken) ∧ q.events = T.output s taken := by
  have hinv := pollRun_invariant poll
    (I := fun t rest es => ∃ taken, xs = taken ++ rest ∧ R t (T.run s taken) ∧
      es = T.output s taken)
    (fun d t rest es ⟨taken, hxs, hR, hes⟩ => by
      obtain ⟨p, more, hp, hrest, hR', hout⟩ := hT d t _ rest (hgood taken ⟨rest, hxs.symm⟩) hR
      refine ⟨p, hp, taken ++ more, ?_, ?_, ?_⟩
      · rw [List.append_assoc, ← hrest, ← hxs]
      · rwa [T.run_append]
      · rw [T.output_append, hes, hout])
    ds [] ⟨[], rfl, h, rfl⟩
  obtain ⟨q, hq, taken, hxs, hR, hes⟩ := hinv
  exact ⟨q, taken, hq, hxs, hR, by simpa using hes⟩

/-- Polls that take one symbol each stop wherever the stream is cut. -/
theorem TracksWhile.run_each (hT : TracksWhile good T poll R) {d : δ}
    (hone : ∀ t s xs p, good s → R t s → poll d t xs = some p → p.rest = xs.drop 1)
    {t : τ} {s : σ} (h : R t s) (xs ys : List α)
    (hgood : ∀ zs, zs <+: xs → good (T.run s zs)) :
    ∃ t', pollRun poll (List.replicate xs.length d) t (xs ++ ys) =
      some ⟨t', ys, T.output s xs⟩ ∧ R t' (T.run s xs) := by
  induction xs generalizing t s with
  | nil => exact ⟨t, rfl, h⟩
  | cons x xs ih =>
      have hs := hgood [] List.nil_prefix
      obtain ⟨p, taken, hp, hxs, hR, hout⟩ := hT d t s (x :: (xs ++ ys)) hs h
      have hrest : p.rest = xs ++ ys := hone t s _ p hs h hp
      obtain rfl : taken = [x] := by
        rw [hrest] at hxs
        have hcut : taken ++ (xs ++ ys) = [x] ++ (xs ++ ys) := hxs.symm
        exact List.append_cancel_right hcut
      obtain ⟨t', hq, hR'⟩ := ih hR fun zs hzs => hgood (x :: zs) (List.cons_prefix_cons.mpr
        ⟨rfl, hzs⟩)
      rw [← hrest] at hq
      refine ⟨t', ?_, hR'⟩
      have hrun := pollRun_cons hp hq
      simpa [hout, List.replicate_succ] using hrun

/-- No run of a poll that tracks fails, and its events are the transducer's
output on the symbols consumed. -/
theorem Tracks.run (hT : Tracks T poll R) (ds : List δ) {t : τ} {s : σ} (h : R t s)
    (xs : List α) : ∃ q taken, pollRun poll ds t xs = some q ∧ xs = taken ++ q.rest ∧
      R q.state (T.run s taken) ∧ q.events = T.output s taken :=
  hT.tracksWhile.run ds h fun _ _ => trivial

/-- A run that read the whole stream emitted the transducer's output on it. -/
theorem Tracks.run_all (hT : Tracks T poll R) {ds : List δ} {t : τ} {s : σ} (h : R t s)
    {xs : List α} {q : PollRun τ α β} (hq : pollRun poll ds t xs = some q)
    (hall : q.rest = []) : R q.state (T.run s xs) ∧ q.events = T.output s xs := by
  obtain ⟨q', taken, hq', hxs, hR, hout⟩ := hT.run ds h xs
  obtain rfl : q = q' := Option.some.inj (hq.symm.trans hq')
  rw [hall, List.append_nil] at hxs
  exact hxs ▸ ⟨hR, hout⟩

/-- The sizes of the reads cannot be observed. -/
theorem Tracks.schedule_independent (hT : Tracks T poll R) {ds₁ ds₂ : List δ} {t : τ}
    {s : σ} (h : R t s) {xs : List α} {q₁ q₂ : PollRun τ α β}
    (h₁ : pollRun poll ds₁ t xs = some q₁) (h₂ : pollRun poll ds₂ t xs = some q₂)
    (hr₁ : q₁.rest = []) (hr₂ : q₂.rest = []) : q₁.events = q₂.events :=
  (hT.run_all h h₁ hr₁).2.trans (hT.run_all h h₂ hr₂).2.symm

end

/-! ## Logs of events that pass a state along -/

/-- Each entry of the log takes the state the entries before it left. -/
def Threads (step : β → τ → τ → Prop) : τ → List β → τ → Prop
  | t, [], t' => t' = t
  | t, e :: es, t' => ∃ mid, step e t mid ∧ Threads step mid es t'

theorem Threads.snoc {step : β → τ → τ → Prop} {t mid t' : τ} {es : List β} {e : β}
    (h : Threads step t es mid) (he : step e mid t') : Threads step t (es ++ [e]) t' := by
  induction es generalizing t with
  | nil => exact ⟨t', h ▸ he, rfl⟩
  | cons e' es ih =>
      obtain ⟨m, hstep, hrest⟩ := h
      exact ⟨m, hstep, ih hrest⟩

theorem Threads.imp {step step' : β → τ → τ → Prop} {t t' : τ} {es : List β}
    (h : Threads step t es t') (himp : ∀ e ∈ es, ∀ t t', step e t t' → step' e t t') :
    Threads step' t es t' := by
  induction es generalizing t with
  | nil => exact h
  | cons e es ih =>
      obtain ⟨m, hstep, hrest⟩ := h
      exact ⟨m, himp e List.mem_cons_self t m hstep,
        ih hrest fun e' he' => himp e' (List.mem_cons_of_mem e he')⟩

/-- A simulation of each entry's step is one of the whole log. -/
theorem Threads.simulate {υ : Type*} {step : β → τ → τ → Prop} {step' : β → υ → υ → Prop}
    {R : τ → υ → Prop} {t t' : τ} {es : List β} {u : υ} (h : Threads step t es t') (hR : R t u)
    (hstep : ∀ e ∈ es, ∀ t t' u, R t u → step e t t' → ∃ u', step' e u u' ∧ R t' u') :
    ∃ u', Threads step' u es u' ∧ R t' u' := by
  induction es generalizing t u with
  | nil =>
      subst h
      exact ⟨u, rfl, hR⟩
  | cons e es ih =>
      obtain ⟨m, hhead, hrest⟩ := h
      obtain ⟨um, hu, hRm⟩ := hstep e List.mem_cons_self t m u hR hhead
      obtain ⟨u', hthreads, hR'⟩ := ih hrest hRm
        fun e' he' => hstep e' (List.mem_cons_of_mem e he')
      exact ⟨u', ⟨um, hu, hthreads⟩, hR'⟩

end SeccampRiscvCpu.StreamTransducer
