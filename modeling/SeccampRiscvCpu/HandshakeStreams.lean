import SeccampRiscvCpu.ClockedMachine
import SeccampRiscvCpu.FifoQueue

/-!
# Streams through a handshake

In each clock a producer may offer an item and a consumer may be ready; the item is
transferred if both happen. A stable producer keeps an item on offer until it is taken.
To its consumer it is then a list: what is on offer is always the first item of the list
that has not been transferred yet. A queue is a stable producer, whatever stands in front
of it, and passes on what it takes in.
-/
namespace SeccampRiscvCpu.HandshakeStreams
open ClockedMachine FifoQueue

structure Handshake (α : Type*) where
  offer : ℕ → Option α
  ready : ℕ → Bool

namespace Handshake
variable {α : Type*} (h : Handshake α)

/-- The item that is transferred in clock `t`. -/
def transfer (t : ℕ) : Option α := if h.ready t then h.offer t else none

/-- The items transferred before clock `t`. -/
def transferred : ℕ → List α
  | 0 => []
  | t + 1 => transferred t ++ (h.transfer t).toList

/-- The items transferred before clock `t` or on offer in it. -/
def shown (t : ℕ) : List α := h.transferred t ++ (h.offer t).toList

/-- The items of `l` that have not been transferred before clock `t`. -/
def rest (l : List α) (t : ℕ) : List α := l.drop (h.transferred t).length

/-- An item stays on offer until it is taken. -/
def Stable : Prop := ∀ t x, h.offer t = some x → h.ready t = false → h.offer (t + 1) = some x

@[simp] theorem transferred_zero : h.transferred 0 = [] := rfl
@[simp] theorem transferred_succ (t : ℕ) :
    h.transferred (t + 1) = h.transferred t ++ (h.transfer t).toList := rfl

@[simp] theorem rest_zero (l : List α) : h.rest l 0 = l := rfl

variable {h}

theorem transfer_ready {t : ℕ} (hready : h.ready t = true) : h.transfer t = h.offer t :=
  if_pos hready

theorem transfer_blocked {t : ℕ} (hready : h.ready t = false) : h.transfer t = none := by
  rw [transfer, hready]
  rfl

theorem transferred_mono {t u : ℕ} (hle : t ≤ u) : h.transferred t <+: h.transferred u := by
  induction hle with
  | refl => exact List.prefix_refl _
  | step _ ih => exact ih.trans (List.prefix_append _ _)

theorem transferred_shown (t : ℕ) : h.transferred t <+: h.shown t := List.prefix_append _ _

/-- What a machine emits is what its handshake transfers. -/
theorem trace_eq {σ ι : Type*} {M : Machine σ ι α} {s : σ} {input : ℕ → ι}
    (hemit : ∀ t, M.emit (M.run s input t) (input t) = (h.transfer t).toList) (t : ℕ) :
    M.trace s input t = h.transferred t := by
  induction t with
  | zero => rfl
  | succ t ih => rw [Machine.trace_succ, transferred_succ, ih, hemit]

/-- A transfer takes the first item off the rest. -/
theorem rest_succ (l : List α) (t : ℕ) :
    h.rest l (t + 1) = if (h.transfer t).isSome then (h.rest l t).tail else h.rest l t := by
  cases htransfer : h.transfer t with
  | none => simp [rest, htransfer]
  | some x => simp [rest, htransfer]

/-! ## A stable producer -/

theorem Stable.shown_succ (hstable : h.Stable) (t : ℕ) : h.shown t <+: h.shown (t + 1) := by
  cases hready : h.ready t with
  | true =>
    have hall : h.transferred (t + 1) = h.shown t := by
      rw [transferred_succ, transfer_ready hready, shown]
    exact hall ▸ transferred_shown (t + 1)
  | false =>
    have hsame : h.transferred (t + 1) = h.transferred t := by
      rw [transferred_succ, transfer_blocked hready, Option.toList_none, List.append_nil]
    rw [shown, shown, hsame]
    cases hoffer : h.offer t with
    | none => exact List.prefix_append_right_inj _ |>.mpr List.nil_prefix
    | some x => rw [hstable t x hoffer hready]

section
variable {l : List α} {t : ℕ}

/-- The item on offer is the first of the rest. -/
theorem rest_offered (hl : h.shown t <+: l) {x : α} (hx : h.offer t = some x) :
    h.rest l t = x :: (h.rest l t).tail := by
  obtain ⟨more, rfl⟩ := hl
  rw [shown, hx, rest, List.append_assoc, List.drop_left]
  rfl

end

/-! ## Progress -/

/-- An item that stays on offer is taken in the first clock in which the consumer is ready. -/
theorem Stable.taken (hstable : h.Stable) {t d : ℕ} {x : α} (hx : h.offer t = some x)
    (hready : h.ready (t + d) = true) : ∃ u, t ≤ u ∧ u ≤ t + d ∧ h.transfer u = some x := by
  induction d generalizing t with
  | zero => exact ⟨t, Nat.le_refl t, Nat.le_refl t, (transfer_ready hready).trans hx⟩
  | succ d ih =>
    cases hnow : h.ready t with
    | true => exact ⟨t, Nat.le_refl t, Nat.le_add_right _ _, (transfer_ready hnow).trans hx⟩
    | false =>
      have hnext : t + 1 + d = t + (d + 1) := by omega
      obtain ⟨u, hu, hu', htransfer⟩ := ih (hstable t x hx hnow) (hnext ▸ hready)
      exact ⟨u, by omega, by omega, htransfer⟩

theorem transferred_length_succ {t : ℕ} (hsome : (h.transfer t).isSome) :
    (h.transferred (t + 1)).length = (h.transferred t).length + 1 := by
  obtain ⟨x, hx⟩ := Option.isSome_iff_exists.mp hsome
  rw [transferred_succ, hx, List.length_append]
  rfl

/-- If up to `n` transfers there is always one within `wait` clocks, then `n` are made in
`wait` clocks each. -/
theorem length_reaches {n wait t left : ℕ}
    (hbusy : ∀ u, t ≤ u → (h.transferred u).length < n →
      ∃ w, u ≤ w ∧ w < u + wait ∧ (h.transfer w).isSome)
    (hleft : n ≤ (h.transferred t).length + left) :
    n ≤ (h.transferred (t + wait * left)).length := by
  induction left generalizing t with
  | zero => exact hleft
  | succ left ih =>
    have hmul : t + wait * (left + 1) = t + wait + wait * left := by
      rw [Nat.mul_succ]
      omega
    rw [hmul]
    refine ih (fun u hu => hbusy u (by omega)) ?_
    rcases Nat.lt_or_ge (h.transferred t).length n with hshort | hdone
    · obtain ⟨w, hw, hw', hsome⟩ := hbusy t (Nat.le_refl t) hshort
      have hkept := (transferred_mono (h := h) hw).length_le
      have hlater := (transferred_mono (h := h) hw').length_le
      rw [transferred_length_succ hsome] at hlater
      omega
    · have hkept := (transferred_mono (h := h) (Nat.le_add_right t wait)).length_le
      omega

/-! ## Through a queue -/

/-- A queue between two handshakes, at first empty. -/
structure Queued {capacity : ℕ} (q : ℕ → Fifo α capacity) (up down : Handshake α) : Prop where
  init : q 0 = .empty α capacity
  step : ∀ t, q (t + 1) = (q t).step (up.offer t) (down.ready t) false
  ready : ∀ t, up.ready t = (q t).enqReady
  offer : ∀ t, down.offer t = (q t).entries.head?

section
variable {capacity : ℕ} {q : ℕ → Fifo α capacity} {up down : Handshake α}

theorem Queued.entries_succ (h : Queued q up down) (t : ℕ) :
    (q (t + 1)).entries = (q t).kept (down.ready t) ++ (up.transfer t).toList := by
  rw [h.step, Fifo.step_entries, transfer, h.ready]

theorem Queued.kept (h : Queued q up down) (t : ℕ) :
    (down.transfer t).toList ++ (q t).kept (down.ready t) = (q t).entries := by
  rw [transfer, h.offer, Fifo.kept]
  cases down.ready t with
  | true => cases (q t).entries <;> rfl
  | false => rfl

/-- What has gone in has come out or is in the queue. -/
theorem Queued.transferred (h : Queued q up down) (t : ℕ) :
    up.transferred t = down.transferred t ++ (q t).entries := by
  induction t with
  | zero =>
    rw [h.init]
    rfl
  | succ t ih =>
    rw [transferred_succ, transferred_succ, ih, h.entries_succ, ← h.kept t]
    simp only [List.append_assoc]

theorem Queued.stable (h : Queued q up down) : down.Stable := by
  intro t x hoffer hready
  rw [h.offer] at hoffer
  rw [h.offer, h.entries_succ, hready, Fifo.kept, if_neg Bool.false_ne_true, List.head?_append,
    hoffer, Option.some_or]

/-- If the queue is never kept waiting for long, what has gone in comes out. -/
theorem Queued.passes (h : Queued q up down) {wait : ℕ}
    (hwait : ∀ u, ∃ w, u ≤ w ∧ w < u + wait ∧ down.ready w = true) (t : ℕ) :
    up.transferred t <+: down.transferred (t + wait * capacity) := by
  have hlength : (up.transferred t).length ≤ (down.transferred (t + wait * capacity)).length := by
    refine length_reaches ?_ ?_
    · intro u hu hshort
      have hmore := (transferred_mono (h := up) hu).length_le
      rw [h.transferred u, List.length_append] at hmore
      obtain ⟨x, hx⟩ : ∃ x, down.offer u = some x := by
        rw [h.offer]
        exact Option.isSome_iff_exists.mp (List.isSome_head?.mpr fun hnil => by
          rw [hnil] at hmore
          simp at hmore
          omega)
      obtain ⟨w, hw, hw', hready⟩ := hwait u
      obtain ⟨d, rfl⟩ := Nat.exists_eq_add_of_le hw
      obtain ⟨v, hv, hv', htransfer⟩ := h.stable.taken hx hready
      exact ⟨v, hv, by omega, by rw [htransfer]; rfl⟩
    · have hroom := (q t).length_le
      rw [h.transferred, List.length_append]
      omega
  refine List.prefix_of_prefix_length_le
    (transferred_mono (h := up) (Nat.le_add_right t (wait * capacity))) ?_ hlength
  rw [h.transferred (t + wait * capacity)]
  exact List.prefix_append _ _

end

end Handshake

end SeccampRiscvCpu.HandshakeStreams
