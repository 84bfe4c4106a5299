import SeccampRiscvCpu.DmemPort
import SeccampRiscvCpu.WordCounters

/-!
# The memory of the core

Four memories of bytes side by side, each with a port for instructions and one for data.
A read gives its data one clock later. What the source leaves undefined is an input: the
data of a port that did not read, of a cell that does not exist and of a cell that is
written at the same edge.
-/
namespace SeccampRiscvCpu.MemoryPorts
open ByteMemory CoreRegisters DmemPort ClockedMachine

/-! ## One memory with two ports -/

structure FixedLatencyMemoryPort (dataWidth depth : ℕ) where
  dataIn : BitVec dataWidth
  address : BitVec (Nat.clog 2 depth)
  chipEnable : Bool
  writeEnable : Bool

namespace FixedLatencyMemoryPort
variable {dataWidth depth : ℕ} (p : FixedLatencyMemoryPort dataWidth depth)

def reads : Bool := p.chipEnable && !p.writeEnable

def writes (cell : ℕ) : Bool := p.chipEnable && p.writeEnable && p.address.toNat == cell

end FixedLatencyMemoryPort

/-- The cells, and the data read at the last edge. Cells from `depth` on do not exist; no
read ever gives one. -/
structure DualPortMemory (dataWidth : ℕ) where
  mem : ℕ → BitVec dataWidth
  dataA : BitVec dataWidth
  dataB : BitVec dataWidth

structure Undefined (dataWidth : ℕ) where
  mem : BitVec dataWidth
  dataA : BitVec dataWidth
  dataB : BitVec dataWidth

namespace DualPortMemory
variable {dataWidth depth : ℕ}

/-- What a port shows of the data it has read. -/
def dataOut (data : BitVec dataWidth) (p : FixedLatencyMemoryPort dataWidth depth) :
    BitVec dataWidth := if p.reads then data else 0

/-- The data port `p` reads while the other port is `other`. -/
def read (m : DualPortMemory dataWidth) (p other : FixedLatencyMemoryPort dataWidth depth)
    (undefined : BitVec dataWidth) : BitVec dataWidth :=
  if p.reads && decide (p.address.toNat < depth) && !other.writes p.address.toNat then
    m.mem p.address.toNat
  else undefined

def step (m : DualPortMemory dataWidth) (portA portB : FixedLatencyMemoryPort dataWidth depth)
    (u : Undefined dataWidth) : DualPortMemory dataWidth where
  mem cell :=
    if portA.writes cell && portB.writes cell then u.mem
    else if portA.writes cell then portA.dataIn
    else if portB.writes cell then portB.dataIn
    else m.mem cell
  dataA := m.read portA portB u.dataA
  dataB := m.read portB portA u.dataB

end DualPortMemory

/-! ## The memory -/

structure MemoryParams where
  baseAddress : Word
  sizeInBytes : ℕ

namespace MemoryParams
variable (p : MemoryParams)

def depth : ℕ := p.sizeInBytes * 8 / 4 / 8

def wordAddr (addr : Word) : BitVec 30 := (addr - p.baseAddress).extractLsb' 2 30

/-- The address at the ports of the four memories. -/
def portAddress (addr : Word) : BitVec (Nat.clog 2 p.depth) := (p.wordAddr addr).setWidth _

def imemPort (addr : Word) : FixedLatencyMemoryPort 8 p.depth where
  dataIn := 0
  address := p.portAddress addr
  chipEnable := true
  writeEnable := false

def dmemPort (q : DmemRequest) (lane : BitVec 2) : FixedLatencyMemoryPort 8 p.depth where
  dataIn := byteAt q.wdata lane.toNat
  address := p.portAddress q.addr
  chipEnable := q.ren || q.wen
  writeEnable := q.wen && q.wstrb.getLsbD lane.toNat

/-- The word behind an address. -/
def cell (addr : Word) : ℕ := (p.portAddress addr).toNat

end MemoryParams

structure Memory where
  mems : BitVec 2 → DualPortMemory 8
  imemWordAddrFetched : BitVec 30
  isFirstCycle : Bool
  rvalid : Bool

structure MemoryInputs where
  imemAddr : Word
  undefined : BitVec 2 → Undefined 8

namespace Memory
variable (p : MemoryParams)

def reset (mems : BitVec 2 → DualPortMemory 8) (imemWordAddrFetched : BitVec 30) : Memory :=
  ⟨mems, imemWordAddrFetched, true, false⟩

variable (s : Memory)

def imemValid (imemAddr : Word) : Bool :=
  !s.isFirstCycle && s.imemWordAddrFetched == p.wordAddr imemAddr

def imemInst (imemAddr : Word) : Word :=
  line fun lane => DualPortMemory.dataOut (s.mems lane).dataA (p.imemPort imemAddr)

def dmemRdata (q : DmemRequest) : Word :=
  line fun lane => DualPortMemory.dataOut (s.mems lane).dataB (p.dmemPort q lane)

def step (i : MemoryInputs) (q : DmemRequest) : Memory where
  mems lane := (s.mems lane).step (p.imemPort i.imemAddr) (p.dmemPort q lane) (i.undefined lane)
  imemWordAddrFetched := p.wordAddr i.imemAddr
  isFirstCycle := false
  rvalid := q.ren && !q.wen && !s.rvalid

/-- `io.dmem` -/
def target : Target Memory MemoryInputs where
  respond s _ q := ⟨s.rvalid, s.dmemRdata p q⟩
  step s i q := s.step p i q

end Memory

/-! ## A plain array of bytes -/

/-- The bytes of a memory, by word and lane. -/
abbrev Bytes := ℕ → BitVec 2 → Byte

/-- A store changes the strobed bytes of its word. -/
def Bytes.access (p : MemoryParams) (m : Bytes) (q : DmemRequest) : Bytes := fun w lane =>
  if q.wen && q.wstrb.getLsbD lane.toNat && p.cell q.addr == w then byteAt q.wdata lane.toNat
  else m w lane

/-- The bytes after the first accesses. -/
def contents (p : MemoryParams) (m : Bytes) (accesses : ℕ → DmemRequest) : ℕ → Bytes
  | 0 => m
  | k + 1 => (contents p m accesses k).access p (accesses k)

/-! ## The memory is such an array -/

section
variable {p : MemoryParams} {s : Memory} {i : MemoryInputs} {q : DmemRequest} {lane : BitVec 2}

/-- A memory of a power of two words answers at every address. -/
theorem cell_lt {n : ℕ} (h : p.depth = 2 ^ n) (addr : Word) : p.cell addr < p.depth := by
  have hlt := (p.portAddress addr).isLt
  have hwidth : 2 ^ Nat.clog 2 p.depth = p.depth := by
    rw [h, Nat.clog_pow 2 n Nat.one_lt_two]
  rwa [hwidth] at hlt

theorem dmemPort_writes (w : ℕ) : (p.dmemPort q lane).writes w =
    (q.wen && q.wstrb.getLsbD lane.toNat && p.cell q.addr == w) := by
  cases hwen : q.wen <;>
    simp [FixedLatencyMemoryPort.writes, MemoryParams.dmemPort, MemoryParams.cell, hwen]

theorem dmemPort_reads (hren : q.ren = true) (hwen : q.wen = false) :
    (p.dmemPort q lane).reads = true := by
  simp [FixedLatencyMemoryPort.reads, MemoryParams.dmemPort, hren, hwen]

/-- The instruction port writes nothing, so the cells are those of the array. -/
theorem step_mem {m : Bytes} (h : ∀ w lane, (s.mems lane).mem w = m w lane) (w : ℕ)
    (lane : BitVec 2) : ((s.step p i q).mems lane).mem w = m.access p q w lane := by
  have hA : (p.imemPort i.imemAddr).writes w = false := rfl
  simp only [Memory.step, DualPortMemory.step, hA, Bool.false_and, dmemPort_writes, h]
  rfl

/-- A load reads its word. -/
theorem step_dataB {m : Bytes} (h : ∀ w lane, (s.mems lane).mem w = m w lane)
    (hren : q.ren = true) (hwen : q.wen = false) (hcell : p.cell q.addr < p.depth) :
    ((s.step p i q).mems lane).dataB = m (p.cell q.addr) lane := by
  have hA : (p.imemPort i.imemAddr).writes (p.cell q.addr) = false := rfl
  have haddress : (p.dmemPort q lane).address.toNat = p.cell q.addr := rfl
  simp only [Memory.step, DualPortMemory.step, DualPortMemory.read, dmemPort_reads hren hwen,
    haddress, hcell, hA, h, decide_true, Bool.not_false, Bool.and_self, if_true]

/-- A fetch reads its word, if no lane of it is stored to at that edge. -/
theorem step_dataA {m : Bytes} (h : ∀ w lane, (s.mems lane).mem w = m w lane)
    (hcell : p.cell i.imemAddr < p.depth)
    (hstore : (p.dmemPort q lane).writes (p.cell i.imemAddr) = false) :
    ((s.step p i q).mems lane).dataA = m (p.cell i.imemAddr) lane := by
  have hA : (p.imemPort i.imemAddr).reads = true := rfl
  have haddress : (p.imemPort i.imemAddr).address.toNat = p.cell i.imemAddr := rfl
  simp only [Memory.step, DualPortMemory.step, DualPortMemory.read, hA, haddress, hcell, hstore, h,
    decide_true, Bool.not_false, Bool.and_self, if_true]

theorem dmemRdata_eq {m : BitVec 2 → Byte} (hren : q.ren = true) (hwen : q.wen = false)
    (h : ∀ lane, (s.mems lane).dataB = m lane) : s.dmemRdata p q = line m := by
  simp only [Memory.dmemRdata, DualPortMemory.dataOut, dmemPort_reads hren hwen, if_true, h]

theorem imemInst_eq {m : BitVec 2 → Byte} (h : ∀ lane, (s.mems lane).dataA = m lane)
    (addr : Word) : s.imemInst p addr = line m := by
  have hA : (p.imemPort addr).reads = true := rfl
  simp only [Memory.imemInst, DualPortMemory.dataOut, hA, if_true, h]

end

/-! ## Runs of the memory and its initiator -/

section
variable {p : MemoryParams} {m : Bytes} {accesses : ℕ → DmemRequest} {x : Memory × ℕ}

/-- The memory holds what the accesses before this one have left; when it answers, this one is
a load, and the data is that of its word. -/
structure Serves (p : MemoryParams) (m : Bytes) (accesses : ℕ → DmemRequest) (x : Memory × ℕ) :
    Prop where
  mem_eq : ∀ w lane, (x.1.mems lane).mem w = contents p m accesses x.2 w lane
  ren_of_rvalid : x.1.rvalid = true → (accesses x.2).ren = true
  dataB_eq : x.1.rvalid = true → p.cell (accesses x.2).addr < p.depth → ∀ lane,
    (x.1.mems lane).dataB = contents p m accesses x.2 (p.cell (accesses x.2).addr) lane

theorem access_of_not_wen {q : DmemRequest} (m : Bytes) (h : q.wen = false) :
    m.access p q = m := by
  funext w lane
  rw [Bytes.access, h]
  rfl

/-- A load that has not been answered is answered next. -/
theorem step_waits {i : MemoryInputs} (hren : (accesses x.2).ren = true)
    (hrvalid : x.1.rvalid = false) : (system (Memory.target p) accesses).step x i =
      (x.1.step p i (accesses x.2), x.2) := by
  refine system_waits ?_
  simp only [held, Memory.target, hren, hrvalid]
  rfl

theorem step_ends {i : MemoryInputs} (h : (accesses x.2).ren = false ∨ x.1.rvalid = true) :
    (system (Memory.target p) accesses).step x i =
      (x.1.step p i (accesses x.2), x.2 + 1) := by
  refine system_ends ?_
  simp only [held, Memory.target, Bool.and_eq_false_iff, Bool.not_eq_false']
  exact h

/-- An access that ends leaves no answer behind. -/
theorem step_quiet {i : MemoryInputs} (h : (accesses x.2).ren = false ∨ x.1.rvalid = true) :
    (x.1.step p i (accesses x.2)).rvalid = false := by
  rcases h with hren | hrvalid
  · simp only [Memory.step, hren, Bool.false_and]
  · simp only [Memory.step, hrvalid, Bool.not_true, Bool.and_false]

/-- An access goes on exactly while it is an unanswered load. -/
theorem waits_or_ends (accesses : ℕ → DmemRequest) (x : Memory × ℕ) :
    (accesses x.2).ren = true ∧ x.1.rvalid = false ∨
      ((accesses x.2).ren = false ∨ x.1.rvalid = true) := by
  cases (accesses x.2).ren <;> cases x.1.rvalid <;> simp

theorem Serves.next (h : Serves p m accesses x) (hexclusive : Exclusive accesses)
    (i : MemoryInputs) : Serves p m accesses ((system (Memory.target p) accesses).step x i) := by
  have hmem : ∀ w lane, ((x.1.step p i (accesses x.2)).mems lane).mem w =
      contents p m accesses (x.2 + 1) w lane := step_mem h.mem_eq
  rcases waits_or_ends accesses x with ⟨hren, hrvalid⟩ | hend
  · have hwen := hexclusive x.2 hren
    rw [contents, access_of_not_wen _ hwen] at hmem
    rw [step_waits hren hrvalid]
    exact ⟨hmem, fun _ => hren, fun _ hcell _ => step_dataB h.mem_eq hren hwen hcell⟩
  · have hquiet := step_quiet (p := p) (i := i) hend
    rw [step_ends hend]
    refine ⟨hmem, fun hrvalid => ?_, fun hrvalid => ?_⟩ <;>
      exact absurd (hquiet.symm.trans hrvalid) (by decide)

theorem Serves.run (h : Serves p m accesses x) (hexclusive : Exclusive accesses)
    (input : ℕ → MemoryInputs) (t : ℕ) :
    Serves p m accesses ((system (Memory.target p) accesses).run x input t) :=
  Machine.run_invariant _ (Serves p m accesses) h (fun _ _ hx => hx.next hexclusive _) t

theorem serves_reset (mems : BitVec 2 → DualPortMemory 8) (imemWordAddrFetched : BitVec 30) :
    Serves p (fun w lane => (mems lane).mem w) accesses
      (.reset mems imemWordAddrFetched, 0) := by
  refine ⟨fun _ _ => rfl, fun hrvalid => ?_, fun hrvalid => ?_⟩ <;> cases hrvalid

/-- The clocks with an answer are one for each load that has ended. -/
theorem Serves.answers (h : Serves p m accesses x) (hexclusive : Exclusive accesses)
    (h0 : x.2 = 0) (input : ℕ → MemoryInputs) (t : ℕ) :
    ((system (Memory.target p) accesses).trace x input t).map Prod.fst =
      loadsBefore accesses ((system (Memory.target p) accesses).run x input t).2 := by
  induction t with
  | zero =>
    rw [Machine.run, h0]
    rfl
  | succ t ih =>
    have hserves := h.run hexclusive input t
    rw [Machine.trace_succ, Machine.run_succ, List.map_append, ih]
    generalize (system (Memory.target p) accesses).run x input t = y at hserves
    rcases waits_or_ends accesses y with ⟨hren, hrvalid⟩ | hend
    · rw [step_waits hren hrvalid, system_silent hrvalid, List.map_nil, List.append_nil]
    · rw [step_ends hend, loadsBefore_succ]
      cases hrvalid : y.1.rvalid with
      | true =>
        rw [system_answers hrvalid, hserves.ren_of_rvalid hrvalid]
        rfl
      | false =>
        have hren : (accesses y.2).ren = false := hend.resolve_right (by rw [hrvalid]; decide)
        rw [system_silent hrvalid, hren]
        rfl

/-- Every answer is the word of its load. -/
theorem Serves.answer_data (h : Serves p m accesses x) (hexclusive : Exclusive accesses)
    (input : ℕ → MemoryInputs) (t : ℕ) :
    ∀ e ∈ (system (Memory.target p) accesses).trace x input t,
      p.cell (accesses e.1).addr < p.depth →
      e.2 = line (contents p m accesses e.1 (p.cell (accesses e.1).addr)) := by
  induction t with
  | zero =>
    intro e he
    cases he
  | succ t ih =>
    intro e he hcell
    have hserves := h.run hexclusive input t
    rw [Machine.trace_succ, List.mem_append] at he
    rcases he with he | he
    · exact ih e he hcell
    · generalize (system (Memory.target p) accesses).run x input t = y at hserves he
      cases hrvalid : y.1.rvalid with
      | true =>
        rw [system_answers hrvalid, List.mem_singleton] at he
        have hren := hserves.ren_of_rvalid hrvalid
        subst he
        exact dmemRdata_eq hren (hexclusive y.2 hren) (hserves.dataB_eq hrvalid hcell)
      | false =>
        rw [system_silent hrvalid] at he
        cases he

/-- Every access comes to its end, in two clocks at most. -/
theorem accesses_end (hexclusive : Exclusive accesses) (hx : x.1.rvalid = false) (h0 : x.2 = 0)
    (input : ℕ → MemoryInputs) (k : ℕ) : ∃ t ≤ 2 * k,
      ((system (Memory.target p) accesses).run x input t).2 = k ∧
      ((system (Memory.target p) accesses).run x input t).1.rvalid = false := by
  induction k with
  | zero => exact ⟨0, Nat.le_refl _, h0, hx⟩
  | succ k ih =>
    obtain ⟨t, ht, rfl, hrvalid⟩ := ih
    set y := (system (Memory.target p) accesses).run x input t with hy
    cases hren : (accesses y.2).ren with
    | false =>
      refine ⟨t + 1, by omega, ?_⟩
      rw [Machine.run_succ, ← hy, step_ends (.inl hren)]
      exact ⟨rfl, step_quiet (.inl hren)⟩
    | true =>
      have hanswer : (system (Memory.target p) accesses).run x input (t + 1) =
          (y.1.step p (input t) (accesses y.2), y.2) := by
        rw [Machine.run_succ, ← hy, step_waits hren hrvalid]
      have hrvalid' : (y.1.step p (input t) (accesses y.2)).rvalid = true := by
        simp only [Memory.step, hren, hexclusive y.2 hren, hrvalid]
        rfl
      refine ⟨t + 2, by omega, ?_⟩
      rw [Machine.run_succ, hanswer, step_ends (.inr hrvalid')]
      exact ⟨rfl, step_quiet (x := (_, y.2)) (.inr hrvalid')⟩

/-! ## The instruction port -/

/-- Some lane of the word is stored to. -/
def Stored (p : MemoryParams) (q : DmemRequest) (w : ℕ) : Prop :=
  q.wen = true ∧ q.wstrb ≠ 0 ∧ p.cell q.addr = w

theorem not_writes_of_not_stored {q : DmemRequest} {w : ℕ} (h : ¬ Stored p q w)
    (lane : BitVec 2) : (p.dmemPort q lane).writes w = false := by
  rw [dmemPort_writes, ← Bool.not_eq_true]
  intro hwrites
  simp only [Bool.and_eq_true, beq_iff_eq] at hwrites
  refine h ⟨hwrites.1.1, fun hzero => ?_, hwrites.2⟩
  have hlane := hwrites.1.2
  rw [hzero] at hlane
  simp at hlane

/-- A valid instruction is the word at its address, as it was at the last edge. -/
theorem Serves.fetched (h : Serves p m accesses x) {i : MemoryInputs} {addr : Word}
    (hvalid : (x.1.step p i (accesses x.2)).imemValid p addr = true)
    (hcell : p.cell addr < p.depth) (hstored : ¬ Stored p (accesses x.2) (p.cell addr)) :
    (x.1.step p i (accesses x.2)).imemInst p addr =
      line (contents p m accesses x.2 (p.cell addr)) := by
  have hsame : p.wordAddr i.imemAddr = p.wordAddr addr := by
    simpa [Memory.imemValid, Memory.step] using hvalid
  have haddr : p.cell i.imemAddr = p.cell addr := by
    simp only [MemoryParams.cell, MemoryParams.portAddress, hsame]
  rw [← haddr] at hcell hstored ⊢
  exact imemInst_eq
    (fun lane => step_dataA h.mem_eq hcell (not_writes_of_not_stored hstored lane)) addr

/-- The memory from its reset on, with any initial contents and any fetches: one answer for
each load, in order, with the last bytes stored to its word; the stores change the strobed
bytes; a valid instruction is its word. -/
theorem memory_answers (p : MemoryParams) (mems : BitVec 2 → DualPortMemory 8)
    (imemWordAddrFetched : BitVec 30) {accesses : ℕ → DmemRequest}
    (hexclusive : Exclusive accesses) (input : ℕ → MemoryInputs) :
    let run := (system (Memory.target p) accesses).run (.reset mems imemWordAddrFetched, 0) input
    let trace :=
      (system (Memory.target p) accesses).trace (.reset mems imemWordAddrFetched, 0) input
    let bytes := contents p (fun w lane => (mems lane).mem w) accesses
    (∀ t, (trace t).map Prod.fst = loadsBefore accesses (run t).2) ∧
    (∀ k, ∃ t ≤ 2 * k, (run t).2 = k) ∧
    (∀ t, ∀ e ∈ trace t, p.cell (accesses e.1).addr < p.depth →
      e.2 = line (bytes e.1 (p.cell (accesses e.1).addr))) ∧
    (∀ t w lane, ((run t).1.mems lane).mem w = bytes (run t).2 w lane) ∧
    (run 0).1.imemValid p (input 0).imemAddr = false ∧
    ∀ t addr, (run (t + 1)).1.imemValid p addr = true → p.cell addr < p.depth →
      ¬ Stored p (accesses (run t).2) (p.cell addr) →
      (run (t + 1)).1.imemInst p addr = line (bytes (run t).2 (p.cell addr)) := by
  intro run trace bytes
  have h : Serves p (fun w lane => (mems lane).mem w) accesses
      (.reset mems imemWordAddrFetched, 0) := serves_reset mems imemWordAddrFetched
  refine ⟨h.answers hexclusive rfl input, ?_, h.answer_data hexclusive input, ?_, rfl, ?_⟩
  · intro k
    obtain ⟨t, ht, hk, -⟩ := accesses_end (p := p) (x := (.reset mems imemWordAddrFetched, 0))
      hexclusive rfl rfl input k
    exact ⟨t, ht, hk⟩
  · intro t
    exact (h.run hexclusive input t).mem_eq
  · intro t addr
    exact (h.run hexclusive input t).fetched

end

/-- A byte is stored and its word loaded on the clock behind the store. -/
def storeThenLoad : ℕ → DmemRequest
  | 0 => ⟨0x80000005, false, true, 0b0010, 0xab00⟩
  | 1 => ⟨0x80000004, true, false, 0, 0⟩
  | _ => ⟨0, false, false, 0, 0⟩

theorem exclusive_storeThenLoad : Exclusive storeThenLoad := by
  intro k hren
  match k with
  | 0 => exact absurd hren (by decide)
  | 1 => rfl
  | _ + 2 => rfl

theorem memory_answers_storeThenLoad :
    (system (Memory.target ⟨0x80000000, 16384⟩) storeThenLoad).trace
      (.reset (fun _ => ⟨fun _ => 0x11, 0, 0⟩) 0, 0)
      (fun _ => ⟨0x80000000, fun _ => ⟨0, 0, 0⟩⟩) 3 = [(1, 0x1111ab11)] := by
  obtain ⟨honce, -, hdata, -⟩ := memory_answers ⟨0x80000000, 16384⟩
    (fun _ => ⟨fun _ => 0x11, 0, 0⟩) 0 exclusive_storeThenLoad
    (fun _ => ⟨0x80000000, fun _ => ⟨0, 0, 0⟩⟩)
  obtain ⟨⟨k, data⟩, htrace, hk⟩ := List.map_eq_singleton_iff.mp (honce 3)
  simp only at hk
  subst hk
  have hload : MemoryParams.cell ⟨0x80000000, 16384⟩ 0x80000004 = 1 := by decide
  have hword := hdata 3 (1, data) (htrace ▸ List.mem_singleton_self _)
    (cell_lt (n := 12) (by decide) _)
  simp only [storeThenLoad, hload, contents] at hword
  rw [htrace, hword]
  decide

end SeccampRiscvCpu.MemoryPorts
