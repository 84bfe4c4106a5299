import SeccampRiscvCpu.ClockedMachine
import SeccampRiscvCpu.CorePipeline

/-!
# The data bus

A target answers the request of a clock from its registers. The initiator of the bus
makes its accesses in order, one clock each, and holds a load until the target answers;
the next access comes on the clock behind the answer.
-/
namespace SeccampRiscvCpu.DmemPort
open ByteMemory CoreRegisters CoreDecode CorePipeline ClockedMachine

structure DmemResponse where
  rvalid : Bool
  rdata : Word
deriving DecidableEq

/-- `ι` is what else the target sees in a clock. -/
structure Target (σ ι : Type*) where
  respond : σ → ι → DmemRequest → DmemResponse
  step : σ → ι → DmemRequest → σ

section
variable {σ ι : Type*} (T : Target σ ι) (accesses : ℕ → DmemRequest)

/-- Whether an access goes on in the next clock. -/
def held (q : DmemRequest) (r : DmemResponse) : Bool := q.ren && !r.rvalid

/-- A target with an initiator at access `x.2`. The events are the clocks with `rvalid`,
each with the access of the clock and the data. -/
def system : Machine (σ × ℕ) ι (ℕ × Word) where
  step x i :=
    (T.step x.1 i (accesses x.2),
      if held (accesses x.2) (T.respond x.1 i (accesses x.2)) then x.2 else x.2 + 1)
  emit x i :=
    if (T.respond x.1 i (accesses x.2)).rvalid then
      [(x.2, (T.respond x.1 i (accesses x.2)).rdata)]
    else []

section
variable {T accesses} {x : σ × ℕ} {i : ι}

theorem system_waits
    (h : held (accesses x.2) (T.respond x.1 i (accesses x.2)) = true) :
    (system T accesses).step x i = (T.step x.1 i (accesses x.2), x.2) := by
  simp only [system, h, if_true]

theorem system_ends
    (h : held (accesses x.2) (T.respond x.1 i (accesses x.2)) = false) :
    (system T accesses).step x i = (T.step x.1 i (accesses x.2), x.2 + 1) := by
  simp only [system, h, Bool.false_eq_true, if_false]

theorem system_answers (h : (T.respond x.1 i (accesses x.2)).rvalid = true) :
    (system T accesses).emit x i = [(x.2, (T.respond x.1 i (accesses x.2)).rdata)] := by
  simp only [system, h, if_true]

theorem system_silent (h : (T.respond x.1 i (accesses x.2)).rvalid = false) :
    (system T accesses).emit x i = [] := by
  simp only [system, h, Bool.false_eq_true, if_false]

end

/-- The clocks among the events on which a load is answered. -/
def completions (events : List (ℕ × Word)) : List (ℕ × Word) :=
  events.filter fun e => (accesses e.1).ren

theorem completions_append (l l' : List (ℕ × Word)) :
    completions accesses (l ++ l') = completions accesses l ++ completions accesses l' :=
  List.filter_append l l'

theorem completions_emit (x : σ × ℕ) (i : ι) :
    completions accesses ((system T accesses).emit x i) =
      if (accesses x.2).ren && (T.respond x.1 i (accesses x.2)).rvalid then
        [(x.2, (T.respond x.1 i (accesses x.2)).rdata)]
      else [] := by
  cases hrvalid : (T.respond x.1 i (accesses x.2)).rvalid with
  | true =>
    rw [system_answers hrvalid, completions, List.filter_singleton, Bool.cond_eq_ite, Bool.and_true]
  | false =>
    rw [system_silent hrvalid, Bool.and_false]
    rfl

/-- An access is a load, a store or neither. -/
def Exclusive : Prop := ∀ k, (accesses k).ren = true → (accesses k).wen = false

/-- The loads among the first `k` accesses. -/
def loadsBefore (k : ℕ) : List ℕ := (List.range k).filter fun j => (accesses j).ren

theorem loadsBefore_succ (k : ℕ) : loadsBefore accesses (k + 1) =
    loadsBefore accesses k ++ if (accesses k).ren then [k] else [] := by
  simp only [loadsBefore, List.range_succ, List.filter_append, List.filter_cons, List.filter_nil]

end

end SeccampRiscvCpu.DmemPort
