import Mathlib

/-!
# A clocked first-in first-out queue

A queue of bounded capacity with registered flags: it takes an item in a clock
in which it is not full, gives its oldest one away in a clock in which it is not
empty, and may do both. An item never passes through in the clock it arrives in,
and a flush wins over both.
-/
namespace SeccampRiscvCpu.FifoQueue

structure Fifo (α : Type*) (capacity : ℕ) where
  entries : List α
  length_le : entries.length ≤ capacity
deriving DecidableEq

namespace Fifo
variable {α : Type*} {capacity : ℕ}

def empty (α : Type*) (capacity : ℕ) : Fifo α capacity := ⟨[], Nat.zero_le _⟩

/-- There is room for one more item. -/
def enqReady (q : Fifo α capacity) : Bool := decide (q.entries.length < capacity)

/-- There is an item to give away. -/
def deqValid (q : Fifo α capacity) : Bool := !q.entries.isEmpty

/-- The items that stay in this clock. -/
def kept (q : Fifo α capacity) (deqReady : Bool) : List α :=
  if deqReady then q.entries.tail else q.entries

theorem kept_length_le (q : Fifo α capacity) (deqReady : Bool) :
    (q.kept deqReady).length ≤ q.entries.length := by
  unfold kept
  split
  · rw [List.length_tail]
    exact Nat.sub_le _ _
  · exact Nat.le_refl _

/-- One clock, with the item that is offered. -/
def step (q : Fifo α capacity) (enq : Option α) (deqReady flush : Bool) : Fifo α capacity :=
  if flush then empty α capacity
  else match enq with
    | none => ⟨q.kept deqReady, Nat.le_trans (q.kept_length_le deqReady) q.length_le⟩
    | some x =>
      if h : q.entries.length < capacity then
        ⟨q.kept deqReady ++ [x], by
          have hkept := q.kept_length_le deqReady
          rw [List.length_append, List.length_singleton]
          omega⟩
      else ⟨q.kept deqReady, Nat.le_trans (q.kept_length_le deqReady) q.length_le⟩

variable (q : Fifo α capacity)

@[simp] theorem empty_entries : (empty α capacity).entries = [] := rfl

@[simp] theorem step_flush (enq : Option α) (deqReady : Bool) :
    q.step enq deqReady true = empty α capacity := rfl

theorem step_none (deqReady : Bool) :
    (q.step none deqReady false).entries = q.kept deqReady := rfl

/-- An offered item goes to the back. -/
theorem step_some {x : α} (deqReady : Bool) (h : q.entries.length < capacity) :
    (q.step (some x) deqReady false).entries = q.kept deqReady ++ [x] := by
  simp [step, h]

/-- What is taken in goes behind what stays. -/
theorem step_entries (enq : Option α) (deqReady : Bool) :
    (q.step enq deqReady false).entries =
      q.kept deqReady ++ (if q.enqReady then enq else none).toList := by
  cases enq with
  | none => simp [step_none]
  | some x =>
    by_cases h : q.entries.length < capacity
    · rw [step_some q deqReady h, enqReady, decide_eq_true h]
      rfl
    · simp [step, enqReady, h]

/-- A full queue that keeps its items does not change. -/
theorem step_full {enq : Option α} (h : q.entries.length = capacity) :
    q.step enq false false = q := by
  cases enq with
  | none => rfl
  | some x => simp [step, h, kept]

end Fifo
end SeccampRiscvCpu.FifoQueue
