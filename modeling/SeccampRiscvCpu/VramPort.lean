import SeccampRiscvCpu.DmemPort
import SeccampRiscvCpu.VideoScanout

/-!
# The data bus port of the video memory

The port answers every load with the word it was at on the clock before. An initiator that
goes on to a load behind a load gets the answer of the first one for the second one too.

It keeps a pixel for each cell, where the bus has words, and finds the cell by the low bits
of the address, so that a word has the cell of others too, or none.
-/
namespace SeccampRiscvCpu.VramPort
open ByteMemory CoreRegisters ClockedMachine DmemPort VideoScanout

/-- The pixels, and the registers of the answer. Cells from `vramAddressMax` on do not
exist; reading one gives an input. -/
structure Port (c : ControllerParams) where
  vram : ℕ → BitVec c.vramPixelBits
  rdata : Word
  rvalid : Bool

section
variable {c : ControllerParams}

def memWordAddr (addr : Word) : BitVec 30 := addr.extractLsb' 2 30

/-- The cell behind an address. -/
def cell (c : ControllerParams) (addr : Word) : ℕ :=
  ((memWordAddr addr).setWidth (Nat.clog 2 c.vramAddressMax)).toNat

/-- The byte offset and the strobes are ignored. -/
def store (vram : ℕ → BitVec c.vramPixelBits) (q : DmemRequest) : ℕ → BitVec c.vramPixelBits :=
  fun a => if q.wen && cell c q.addr == a then q.wdata.setWidth _ else vram a

/-- `vram(memWordAddr)` -/
def fetch (vram : ℕ → BitVec c.vramPixelBits) (undefined : BitVec c.vramPixelBits) (addr : Word) :
    Word :=
  (if cell c addr < c.vramAddressMax then vram (cell c addr) else undefined).setWidth 32

def Port.init (vram : ℕ → BitVec c.vramPixelBits) : Port c := ⟨vram, 0, false⟩

def Port.step (s : Port c) (undefined : BitVec c.vramPixelBits) (q : DmemRequest) : Port c where
  vram := store s.vram q
  rdata := if q.wen then q.wdata else fetch s.vram undefined q.addr
  rvalid := q.ren

/-- `io.mem` -/
def target (c : ControllerParams) : Target (Port c) (BitVec c.vramPixelBits) where
  respond s _ _ := ⟨s.rvalid, s.rdata⟩
  step := Port.step

/-! ## When the accesses are made -/

section
variable (accesses : ℕ → DmemRequest)

/-- Access `k` comes directly behind a load. -/
def behindLoad : ℕ → Bool
  | 0 => false
  | k + 1 => (accesses k).ren

/-- A load takes two clocks, but for one behind a load. -/
def duration (k : ℕ) : ℕ := if (accesses k).ren && !behindLoad accesses k then 2 else 1

/-- The first clock of access `k`. -/
def start : ℕ → ℕ
  | 0 => 0
  | k + 1 => start k + duration accesses k

theorem le_start (k : ℕ) : k ≤ start accesses k := by
  induction k with
  | zero => exact Nat.le_refl _
  | succ k ih =>
    have hone : 1 ≤ duration accesses k := by
      unfold duration
      split_ifs <;> omega
    rw [start]
    omega

/-- The pixels after the first accesses. -/
def contents (vram : ℕ → BitVec c.vramPixelBits) : ℕ → ℕ → BitVec c.vramPixelBits
  | 0 => vram
  | k + 1 => store (contents vram k) (accesses k)

/-- What was last stored to a word before access `k`, by its whole address. At first the
words of the video memory hold its pixels. -/
def lastStored (vram : ℕ → BitVec c.vramPixelBits) : ℕ → BitVec 30 → Option Word
  | 0 => fun a => if a.toNat < c.vramAddressMax then some ((vram a.toNat).setWidth 32) else none
  | k + 1 => fun a =>
    if (accesses k).wen && memWordAddr (accesses k).addr == a then some (accesses k).wdata
    else lastStored vram k a

/-- The value fits into a pixel, and it is in the cell of the address. A read of a cell that
does not exist gives anything, which a pixel without bits leaves no room for. -/
def Reads (vram : ℕ → BitVec c.vramPixelBits) (addr v : Word) : Prop :=
  v.toNat < 2 ^ c.vramPixelBits ∧
    if cell c addr < c.vramAddressMax then (vram (cell c addr)).setWidth 32 = v
    else c.vramPixelBits = 0

/-- What the port reads for load `k` on clock `t`. -/
def fetched (vram : ℕ → BitVec c.vramPixelBits) (undefined : ℕ → BitVec c.vramPixelBits)
    (k t : ℕ) : Word :=
  fetch (contents accesses vram k) (undefined t) (accesses k).addr

/-- The load whose word load `k` completes with: one behind a load gets that one's. -/
def answering (k : ℕ) : ℕ := if behindLoad accesses k then k - 1 else k

/-- What load `k` completes with: one behind a load with what the port read for that load on
its last clock. -/
def answer (vram : ℕ → BitVec c.vramPixelBits) (undefined : ℕ → BitVec c.vramPixelBits) (k : ℕ) :
    Word :=
  if behindLoad accesses k then fetched accesses vram undefined (k - 1) (start accesses k - 1)
  else fetched accesses vram undefined k (start accesses k)

end

/-! ## Runs of the port and its initiator -/

section
variable {accesses : ℕ → DmemRequest} {vram : ℕ → BitVec c.vramPixelBits}
  {undefined : ℕ → BitVec c.vramPixelBits} {x : Port c × ℕ} {k : ℕ}

/-- The state on the first clock of access `k`. -/
structure Starts (accesses : ℕ → DmemRequest) (vram : ℕ → BitVec c.vramPixelBits)
    (undefined : ℕ → BitVec c.vramPixelBits) (k : ℕ) (x : Port c × ℕ) : Prop where
  index_eq : x.2 = k
  vram_eq : x.1.vram = contents accesses vram k
  rvalid_eq : x.1.rvalid = behindLoad accesses k
  rdata_eq : behindLoad accesses k = true →
    x.1.rdata = fetched accesses vram undefined (k - 1) (start accesses k - 1)

theorem store_of_not_wen (vram : ℕ → BitVec c.vramPixelBits) {q : DmemRequest}
    (h : q.wen = false) : store vram q = vram := by
  funext a
  rw [store, h]
  rfl

theorem start_ends (h : (accesses k).ren = false ∨ behindLoad accesses k = true) :
    start accesses (k + 1) = start accesses k + 1 := by
  rw [start, duration, if_neg]
  rw [Bool.and_eq_true, Bool.not_eq_true']
  rcases h with h | h <;> rw [h] <;> simp

theorem start_waits (hren : (accesses k).ren = true) (hfree : behindLoad accesses k = false) :
    start accesses (k + 1) = start accesses k + 2 := by
  rw [start, duration, hren, hfree]
  rfl

/-- On its last clock an access leaves what it has read, if it is a load. -/
theorem last_clock {s : Port c} {t : ℕ} (hvram : s.vram = contents accesses vram k)
    (hexclusive : Exclusive accesses) (hlast : start accesses (k + 1) = t + 1) :
    Starts accesses vram undefined (k + 1) (s.step (undefined t) (accesses k), k + 1) := by
  refine ⟨rfl, ?_, rfl, fun hload => ?_⟩
  · simp only [Port.step, hvram, contents]
  · have hwen := hexclusive k hload
    rw [hlast, Nat.add_sub_cancel, Nat.add_sub_cancel, fetched, ← hvram]
    simp only [Port.step, hwen, Bool.false_eq_true, if_false]

/-- An access that is no load or comes behind one takes one clock, and completes with the
data that is there. -/
theorem Starts.ends (h : Starts accesses vram undefined k x) (hexclusive : Exclusive accesses)
    (hend : (accesses k).ren = false ∨ behindLoad accesses k = true) :
    Starts accesses vram undefined (k + 1)
      ((system (target c) accesses).step x (undefined (start accesses k))) ∧
    completions accesses ((system (target c) accesses).emit x (undefined (start accesses k))) =
      if (accesses k).ren then [(k, answer accesses vram undefined k)] else [] := by
  obtain ⟨s, j⟩ := x
  obtain ⟨rfl, hvram, hrvalid, hrdata⟩ := h
  simp only at hvram hrvalid hrdata hend ⊢
  constructor
  · have hnotheld : held (accesses j) ⟨s.rvalid, s.rdata⟩ = false := by
      rw [held, hrvalid, Bool.and_eq_false_iff, Bool.not_eq_false']
      exact hend
    rw [system_ends hnotheld]
    exact last_clock hvram hexclusive (start_ends hend)
  · rw [completions_emit]
    simp only [target, hrvalid, answer]
    cases hren : (accesses j).ren with
    | false => rfl
    | true =>
      have hbehind := hend.resolve_left (by rw [hren]; decide)
      rw [hbehind, hrdata hbehind]
      rfl

/-- A load that does not come behind one takes two clocks, and completes with its own data. -/
theorem Starts.waits (h : Starts accesses vram undefined k x) (hexclusive : Exclusive accesses)
    (hren : (accesses k).ren = true) (hfree : behindLoad accesses k = false) :
    ∃ x', (system (target c) accesses).step x (undefined (start accesses k)) = x' ∧
      Starts accesses vram undefined (k + 1)
        ((system (target c) accesses).step x' (undefined (start accesses k + 1))) ∧
      completions accesses ((system (target c) accesses).emit x (undefined (start accesses k))) =
        [] ∧
      completions accesses
        ((system (target c) accesses).emit x' (undefined (start accesses k + 1))) =
        [(k, answer accesses vram undefined k)] := by
  obtain ⟨s, j⟩ := x
  obtain ⟨rfl, hvram, hrvalid, -⟩ := h
  simp only at hvram hrvalid hren hfree ⊢
  have hwen := hexclusive j hren
  have hheld : held (accesses j) ⟨s.rvalid, s.rdata⟩ = true := by
    rw [held, hren, hrvalid, hfree]
    rfl
  have hdone : held (accesses j) ⟨(accesses j).ren, (s.step (undefined (start accesses j))
      (accesses j)).rdata⟩ = false := by
    rw [held, hren]
    rfl
  refine ⟨(s.step (undefined (start accesses j)) (accesses j), j), system_waits hheld, ?_, ?_, ?_⟩
  · rw [system_ends hdone]
    refine last_clock ?_ hexclusive (start_waits hren hfree)
    simp only [Port.step, store_of_not_wen _ hwen, hvram]
  · rw [completions_emit]
    simp only [target, hrvalid, hfree, Bool.and_false]
    rfl
  · rw [completions_emit, answer, hfree]
    simp only [target, Port.step, hren, hwen, hvram, fetched]
    rfl

theorem starts_init : Starts accesses vram undefined 0 (.init vram, 0) :=
  ⟨rfl, rfl, rfl, fun h => by cases h⟩

/-- Every access starts on its clock, and the loads before it have been answered, in order. -/
theorem run_start (hexclusive : Exclusive accesses) (k : ℕ) :
    Starts accesses vram undefined k
      ((system (target c) accesses).run (.init vram, 0) undefined (start accesses k)) ∧
    completions accesses
      ((system (target c) accesses).trace (.init vram, 0) undefined (start accesses k)) =
      (loadsBefore accesses k).map fun j => (j, answer accesses vram undefined j) := by
  induction k with
  | zero => exact ⟨starts_init, rfl⟩
  | succ k ih =>
    obtain ⟨hstarts, htrace⟩ := ih
    rcases Bool.eq_false_or_eq_true (accesses k).ren with hren | hren
    · cases hbehind : behindLoad accesses k with
      | true =>
        obtain ⟨hnext, hemit⟩ := hstarts.ends hexclusive (.inr hbehind)
        rw [start_ends (.inr hbehind), Machine.run_succ, Machine.trace_succ, completions_append,
          hemit, htrace, loadsBefore_succ, hren]
        exact ⟨hnext, by rw [List.map_append]; rfl⟩
      | false =>
        obtain ⟨x', hx', hnext, hfirst, hsecond⟩ := hstarts.waits hexclusive hren hbehind
        rw [start_waits hren hbehind, Machine.run_succ, Machine.run_succ, Machine.trace_succ,
          Machine.trace_succ, Machine.run_succ, completions_append, completions_append, hx', hfirst,
          hsecond, htrace, loadsBefore_succ, hren, List.append_nil]
        exact ⟨hnext, by rw [List.map_append]; rfl⟩
    · obtain ⟨hnext, hemit⟩ := hstarts.ends hexclusive (.inl hren)
      rw [start_ends (.inl hren), Machine.run_succ, Machine.trace_succ, completions_append, hemit,
        htrace, loadsBefore_succ, hren]
      exact ⟨hnext, by rw [List.map_append]; rfl⟩

theorem completions_iff (hexclusive : Exclusive accesses) (e : ℕ × Word) :
    (∃ t, e ∈ completions accesses
      ((system (target c) accesses).trace (.init vram, 0) undefined t)) ↔
    (accesses e.1).ren = true ∧ e.2 = answer accesses vram undefined e.1 := by
  have hstart : ∀ k, completions accesses ((system (target c) accesses).trace (.init vram, 0)
      undefined (start accesses k)) = _ := fun k => (run_start hexclusive k).2
  constructor
  · rintro ⟨t, he⟩
    have hlater : e ∈ completions accesses ((system (target c) accesses).trace (.init vram, 0)
        undefined (start accesses t)) :=
      ((Machine.trace_prefix _ (le_start accesses t)).filter _).subset he
    rw [hstart] at hlater
    obtain ⟨j, hj, rfl⟩ := List.mem_map.mp hlater
    exact ⟨(List.mem_filter.mp hj).2, rfl⟩
  · rintro ⟨hren, hdata⟩
    refine ⟨start accesses (e.1 + 1), ?_⟩
    rw [hstart, List.mem_map]
    refine ⟨e.1, List.mem_filter.mpr ⟨List.mem_range.mpr (Nat.lt_succ_self _), hren⟩, ?_⟩
    rw [← hdata]

/-- What a cell that does not exist gives is one value only for pixels without bits. -/
theorem all_setWidth_iff {n : ℕ} {v : Word} :
    (∀ u : BitVec n, u.setWidth 32 = v) ↔ v.toNat < 2 ^ n ∧ n = 0 := by
  constructor
  · intro h
    have hzero : n = 0 := by
      by_contra hn
      have hone : (1 : ℕ) < 2 ^ n := Nat.one_lt_two_pow hn
      have heq : ((1#n).setWidth 32).toNat = ((0#n).setWidth 32).toNat := by rw [h, h]
      rw [BitVec.toNat_setWidth, BitVec.toNat_setWidth, BitVec.toNat_ofNat, BitVec.toNat_ofNat,
        Nat.mod_eq_of_lt hone] at heq
      exact absurd heq (by simp)
    subst hzero
    rw [← h 0]
    exact ⟨by decide, rfl⟩
  · rintro ⟨hv, rfl⟩ u
    apply BitVec.eq_of_toNat_eq
    rw [BitVec.toNat_setWidth, BitVec.eq_nil u]
    omega

theorem fetch_all_iff {pixels : ℕ → BitVec c.vramPixelBits} {addr v : Word} :
    (∀ u, fetch pixels u addr = v) ↔ Reads pixels addr v := by
  unfold fetch Reads
  split_ifs with hcell
  · have hfits : (pixels (cell c addr)).setWidth 32 = v → v.toNat < 2 ^ c.vramPixelBits := by
      rintro rfl
      rw [BitVec.toNat_setWidth]
      exact Nat.lt_of_le_of_lt (Nat.mod_le _ _) (BitVec.isLt _)
    exact ⟨fun h => ⟨hfits (h 0), h 0⟩, fun h _ => h.2⟩
  · exact all_setWidth_iff

/-- A load gets the same value whatever there is outside of the video memory exactly if the
load it is answered for reads it. -/
theorem answer_all_iff {v : Word} :
    (∀ undefined, answer accesses vram undefined k = v) ↔
      Reads (contents accesses vram (answering accesses k))
        (accesses (answering accesses k)).addr v := by
  rw [← fetch_all_iff]
  unfold answer answering fetched
  split_ifs
  · exact ⟨fun h u => h fun _ => u, fun h undefined => h _⟩
  · exact ⟨fun h u => h fun _ => u, fun h undefined => h _⟩

/-- Every load is answered once, and all of them with the values last stored to their own
words, whatever there is outside of the video memory, exactly if each of these values fits
into a pixel and is in the cell of the load that is answered: the load itself, or the one it
directly follows. -/
theorem loads_answered_iff (hexclusive : Exclusive accesses) (vram : ℕ → BitVec c.vramPixelBits) :
    (∀ undefined k, (completions accesses ((system (target c) accesses).trace (.init vram, 0)
      undefined (start accesses k))).map Prod.fst = loadsBefore accesses k) ∧
    ((∀ undefined t, ∀ e ∈ completions accesses
        ((system (target c) accesses).trace (.init vram, 0) undefined t),
      ∀ v, lastStored accesses vram e.1 (memWordAddr (accesses e.1).addr) = some v → e.2 = v) ↔
      ∀ k, (accesses k).ren = true →
        ∀ v, lastStored accesses vram k (memWordAddr (accesses k).addr) = some v →
          Reads (contents accesses vram (answering accesses k))
            (accesses (answering accesses k)).addr v) := by
  refine ⟨fun undefined k => ?_, fun h k hren v hv => ?_, fun h undefined t e he v hv => ?_⟩
  · rw [(run_start hexclusive k).2, List.map_map]
    exact List.map_id _
  · refine answer_all_iff.mp fun undefined => ?_
    have hcompleted : ∃ t, (k, answer accesses vram undefined k) ∈ completions accesses
        ((system (target c) accesses).trace (.init vram, 0) undefined t) :=
      (completions_iff hexclusive _).mpr ⟨hren, rfl⟩
    obtain ⟨t, he⟩ := hcompleted
    exact h undefined t _ he v hv
  · obtain ⟨hren, hdata⟩ := (completions_iff hexclusive e).mp ⟨t, he⟩
    rw [hdata]
    exact answer_all_iff.mpr (h e.1 hren v hv) undefined

end

end

/-- Two words are stored and loaded, with a clock between the loads. -/
def separateLoads : ℕ → DmemRequest
  | 0 => ⟨0, false, true, 0b1111, 1⟩
  | 1 => ⟨4, false, true, 0b1111, 2⟩
  | 2 => ⟨0, true, false, 0, 0⟩
  | 4 => ⟨4, true, false, 0, 0⟩
  | _ => ⟨0, false, false, 0, 0⟩

theorem exclusive_separateLoads : Exclusive separateLoads := by
  intro k hren
  match k with
  | 0 => exact absurd hren (by decide)
  | 1 => exact absurd hren (by decide)
  | 2 => rfl
  | 3 => rfl
  | 4 => rfl
  | _ + 5 => rfl

theorem loads_answered_separateLoads :
    (completions separateLoads ((system (target topWithHDMI) separateLoads).trace
      (.init fun _ => 0, 0) (fun _ => 0) 7)).map Prod.fst = [2, 4] ∧
    ∀ e ∈ completions separateLoads ((system (target topWithHDMI) separateLoads).trace
      (.init fun _ => 0, 0) (fun _ => 0) 7),
      ∀ v, lastStored separateLoads (c := topWithHDMI) (fun _ => 0) e.1
        (memWordAddr (separateLoads e.1).addr) = some v → e.2 = v := by
  obtain ⟨honce, hright⟩ := loads_answered_iff (c := topWithHDMI) exclusive_separateLoads
    (fun _ => 0)
  refine ⟨honce (fun _ => 0) 5, hright.mpr (fun k hren v hv => ?_) (fun _ => 0) 7⟩
  match k with
  | 0 => exact absurd hren (by decide)
  | 1 => exact absurd hren (by decide)
  | 2 =>
    obtain rfl : (1 : Word) = v := Option.some.inj hv
    unfold Reads
    decide
  | 3 => exact absurd hren (by decide)
  | 4 =>
    obtain rfl : (2 : Word) = v := Option.some.inj hv
    unfold Reads
    decide
  | _ + 5 => exact absurd hren (by simp [separateLoads])

/-- The same loads without the clock between them. -/
def adjacentLoads : ℕ → DmemRequest
  | 0 => ⟨0, false, true, 0b1111, 1⟩
  | 1 => ⟨4, false, true, 0b1111, 2⟩
  | 2 => ⟨0, true, false, 0, 0⟩
  | 3 => ⟨4, true, false, 0, 0⟩
  | _ => ⟨0, false, false, 0, 0⟩

/-- Word `4096` has the cell of word `0`. -/
def aliasedStores : ℕ → DmemRequest
  | 0 => ⟨0, false, true, 0b1111, 1⟩
  | 1 => ⟨0x4000, false, true, 0b1111, 2⟩
  | 3 => ⟨0, true, false, 0, 0⟩
  | _ => ⟨0, false, false, 0, 0⟩

/-- The second load gets the word of the first one; and a store to another word changes
what is loaded. -/
theorem stale_answer :
    (completions adjacentLoads ((system (target topWithHDMI) adjacentLoads).trace
        (.init fun _ => 0, 0) (fun _ => 0) 5) = [(2, 1), (3, 1)] ∧
      lastStored adjacentLoads (c := topWithHDMI) (fun _ => 0) 3
        (memWordAddr (adjacentLoads 3).addr) = some 2) ∧
    completions aliasedStores ((system (target topWithHDMI) aliasedStores).trace
        (.init fun _ => 0, 0) (fun _ => 0) 5) = [(3, 2)] ∧
      lastStored aliasedStores (c := topWithHDMI) (fun _ => 0) 3
        (memWordAddr (aliasedStores 3).addr) = some 1 := by
  decide

end SeccampRiscvCpu.VramPort
