import SeccampRiscvCpu.CoreRefinement
import SeccampRiscvCpu.MemoryPorts
import SeccampRiscvCpu.GpioPorts

/-!
# The core with its memory and its port

`Top` is the core, its memory and one GPIO port behind the decoder of the data bus. The
reference runs on a flat memory, which holds the image of the memory in front and zeroes
behind. Where a program keeps to its memory and to OUT of the port, the memory and the port
together are that flat memory.

The fetch runs ahead of the instructions and behind a jump it runs astray: what it returns
there need not be the word at the address, since the memory is smaller than the address
space and a word that is stored to while it is read comes back undefined. Only a fetch on
the path of the reference has to be right.
-/
namespace SeccampRiscvCpu.TopSystem
open ByteMemory RiscvIsa CoreRegisters CoreDecode CorePipeline CoreDatapath CoreRefinement
open ClockedMachine DmemPort DmemDecoder MemoryPorts GpioPorts

/-! ## The modules -/

/-- A single port: OUT is the first of four words. -/
structure Gpio where
  out : Word := 0

namespace Gpio
variable (s : Gpio) (q : DmemRequest)

/-- `io.mem.addr(3, 2)` -/
def key (addr : Word) : BitVec 2 := addr.extractLsb' 2 2

def respond : DmemResponse := ⟨true, if key q.addr = 0 then s.out else 0xdeadbeef⟩

def step : Gpio where
  out :=
    if q.wen && key q.addr == 0 then
      (s.out &&& ~~~strobeMask q.wstrb) ||| (q.wdata &&& strobeMask q.wstrb)
    else s.out

end Gpio

def memSize : ℕ := 8192

def memoryParams : MemoryParams := ⟨0, memSize⟩
def memoryRange : AddressRange := ⟨0x00000000, memSize⟩
def gpioRange : AddressRange := ⟨0xa0000000, 64⟩

structure Top where
  core : Core
  memory : MemoryPorts.Memory
  gpio : Gpio

namespace Top

def reset (regfile : Reg → Word) (mems : BitVec 2 → DualPortMemory 8)
    (imemWordAddrFetched : BitVec 30) : Top :=
  ⟨CoreRegisters.reset 0 regfile, .reset mems imemWordAddrFetched, {}⟩

variable (s : Top)

def request : DmemRequest := dmemRequest s.core.memReg

/-- What the core sees on the data bus. -/
def response : DmemResponse :=
  DmemDecoder.respond [memoryRange, gpioRange] s.request fun
    | 0 => (Memory.target memoryParams).respond s.memory ⟨0, fun _ => ⟨0, 0, 0⟩⟩
        (targetRequest memoryRange s.request)
    | _ => s.gpio.respond (targetRequest gpioRange s.request)

def inputs : Inputs where
  imemInst := s.memory.imemInst memoryParams s.core.ifRegPc
  imemValid := s.memory.imemValid memoryParams s.core.ifRegPc
  dmemRdata := s.response.rdata
  dmemRvalid := s.response.rvalid
  interruptIn := false

/-- A clock; what the memory leaves undefined is `u`. -/
def step (u : BitVec 2 → Undefined 8) : Top where
  core := CorePipeline.step s.core s.inputs
  memory := s.memory.step memoryParams ⟨s.core.ifRegPc, u⟩ (targetRequest memoryRange s.request)
  gpio := s.gpio.step (targetRequest gpioRange s.request)

end Top

/-- The events are the register writes and the completed accesses of the core. -/
def machine : Machine Top (BitVec 2 → Undefined 8) Event where
  step s u := s.step u
  emit s _ := writeBackEvents (wbWrite s.core.wbReg) ++ busEvents s.request s.inputs

/-! ## A cycle with fetches astray -/

section Cycle
variable {a : ArchState} {e : Execution a} {k : ℕ} {inMem inExe : Bool} {c : Core}
  {m : ByteMemory.Memory} {i : Inputs}

/-- What the data bus says is looked at only while MEM loads. -/
theorem step_loads (c : Core) (i : Inputs) :
    step c { i with dmemRvalid := (dmemRequest c.memReg).ren && i.dmemRvalid } = step c i := by
  have hs : memStallFlg c.memReg
      { i with dmemRvalid := (dmemRequest c.memReg).ren && i.dmemRvalid } =
        memStallFlg c.memReg i := by
    unfold memStallFlg
    cases (dmemRequest c.memReg).ren <;> rfl
  have hst : stallFlg c { i with dmemRvalid := (dmemRequest c.memReg).ren && i.dmemRvalid } =
      stallFlg c i := congrArg (_ || ·) hs
  simp only [step, csrsNext, ifPcNext, idRegNext, exeRegNext, exeInterruptNext, memRegNext,
    wbRegNext, idExe, idInst, hs, hst]
  rfl

/-- What the core sees of the buses, for the flat memory `m`. -/
structure Sees (e : Execution a) (c : Core) (m : ByteMemory.Memory) (i : Inputs) : Prop where
  fetch : i.imemValid = true → ∀ j, c.ifRegPc = (e.state j).pc → i.imemInst = fetched (e.state j)
  load : c.memReg.wbSel = .mem → i.dmemRvalid = true → i.dmemRdata = busWord m c.memReg.aluOut
  quiet : i.interruptIn = false

/-- The cycle of the buses behind `i`, with or without the fetch. -/
def busOf (c : Core) (i : Inputs) (onPath : Bool) : BusCycle where
  imemValid := onPath && i.imemValid
  dmemRvalid := (dmemRequest c.memReg).ren && i.dmemRvalid
  imemIdle := i.imemInst
  dmemIdle := i.dmemRdata

theorem Sees.rdata (h : Sees e c m i) : (if (dmemRequest c.memReg).ren && i.dmemRvalid then
    busWord m (dmemRequest c.memReg).addr else i.dmemRdata) = i.dmemRdata := by
  split
  next hv =>
    obtain ⟨hren, hvalid⟩ := Bool.and_eq_true_iff.mp hv
    exact (h.load (beq_iff_eq.mp hren) hvalid).symm
  next => rfl

/-- On the path of the reference nothing is lost by looking at the flat memory. -/
theorem Sees.step_onPath (h : Sees e c m i) (hcode : e.CodeIntact) (hm : m = (e.state k).mem)
    {j : ℕ} (hpc : c.ifRegPc = (e.state j).pc) :
    step c (CoreRefinement.inputs ⟨c, m⟩ (busOf c i true)) = step c i := by
  have hf : i.imemValid = true → readWord m c.ifRegPc = i.imemInst := by
    intro hv
    rw [h.fetch hv j hpc, hm, hpc, hcode k j]
    exact (hcode j j).symm
  rw [← step_loads c i]
  congr 1
  simp only [CoreRefinement.inputs, busOf, Bool.true_and, h.rdata]
  rw [h.quiet]
  congr 1
  split
  next hv => exact hf hv
  next => rfl

/-- The buses without the fetch. -/
theorem Sees.inputs_astray (h : Sees e c m i) :
    CoreRefinement.inputs ⟨c, m⟩ (busOf c i false) =
      { i with imemValid := false, dmemRvalid := (dmemRequest c.memReg).ren && i.dmemRvalid } := by
  simp only [CoreRefinement.inputs, busOf, Bool.false_and, h.rdata, Bool.false_eq_true, if_false]
  rw [h.quiet]

/-- Without the fetch only IF and ID are lost. -/
theorem Sees.step_astray (h : Sees e c m i) :
    step c i = { step c (CoreRefinement.inputs ⟨c, m⟩ (busOf c i false)) with
      idReg := idRegNext c i
      ifRegPc := ifPcNext c i } := by
  have hl := step_loads c { i with imemValid := false }
  rw [h.inputs_astray]
  exact congrArg (fun c' : Core => { c' with idReg := idRegNext c i, ifRegPc := ifPcNext c i })
    hl.symm

theorem Sees.memStall (onPath : Bool) : memStallFlg c.memReg
    (CoreRefinement.inputs ⟨c, m⟩ (busOf c i onPath)) = memStallFlg c.memReg i := by
  unfold memStallFlg
  simp only [CoreRefinement.inputs, busOf]
  cases (dmemRequest c.memReg).ren <;> rfl

theorem Sees.stall (onPath : Bool) : stallFlg c
    (CoreRefinement.inputs ⟨c, m⟩ (busOf c i onPath)) = stallFlg c i :=
  congrArg (_ || ·) (Sees.memStall onPath)

theorem refetch (T : Tracks e k inMem inExe ⟨c, m⟩) (r : IdReg) (pc : Word)
    (hf : redirectFlg c = false →
      FrontEnd e (k + inMem.toNat + inExe.toNat) { c with idReg := r, ifRegPc := pc }) :
    Tracks e k inMem inExe ⟨{ c with idReg := r, ifRegPc := pc }, m⟩ :=
  ⟨T.mem, T.csrs, T.regs, T.memReg, T.exeReg, T.noInterrupt, hf⟩

/-- IF is on the path of the reference, unless ID holds an instruction that leaves it. -/
theorem onPath_or_leaves {n : ℕ} (h : FrontEnd e n c) : (∃ j, c.ifRegPc = (e.state j).pc) ∨
    c.idReg.inst = fetched (e.state n) ∧ c.idReg.pc = (e.state n).pc ∧
      redirects (e.state n) = true := by
  cases h with
  | empty hid hpc => exact .inl ⟨n, hpc⟩
  | held hinst hpc hnext =>
    cases hr : redirects (e.state n) with
    | true => exact .inr ⟨hinst, hpc, rfl⟩
    | false => exact .inl ⟨n + 1, (hnext hr).trans (pc_of_no_redirect e hr).symm⟩

/-- A stall keeps an instruction in ID, whatever is fetched. -/
theorem held_stalled {n : ℕ} (hrd : redirectFlg c = false) (hst : stallFlg c i = true)
    (h : c.idReg.inst = fetched (e.state n) ∧ c.idReg.pc = (e.state n).pc ∧
      redirects (e.state n) = true) : FrontEnd e n (step c i) := by
  obtain ⟨hinst, hpc, hr⟩ := h
  refine .held ?_ ?_ fun hr' => absurd (hr'.symm.trans hr) Bool.false_ne_true
  · change (idRegNext c i).inst = _
    simp only [idRegNext, hst, hrd, Bool.false_eq_true, if_false, if_true, hinst]
  · change (idRegNext c i).pc = _
    simp only [idRegNext, hst, Bool.true_or, if_true, hpc]

variable (T : Tracks e k inMem inExe ⟨c, m⟩) (h : Sees e c m i) (hcode : e.CodeIntact)
include T h hcode

/-- While MEM waits, every instruction stays where it is. -/
theorem cycle_waits (hs : memStallFlg c.memReg i = true) :
    Tracks e k inMem inExe ⟨step c i, m⟩ := by
  have hkeep : ∀ onPath, Tracks e k inMem inExe
      ⟨step c (CoreRefinement.inputs ⟨c, m⟩ (busOf c i onPath)), m⟩ := by
    intro onPath
    have hs' := (Sees.memStall (m := m) onPath).trans hs
    have hw := T.wait (busOf c i onPath) rfl hcode hs'
    have hm : memNext m (dmemRequest c.memReg) = m := T.wait_mem (busOf c i onPath) hs'
    change Tracks e k inMem inExe ⟨_, memNext m (dmemRequest c.memReg)⟩ at hw
    rwa [hm] at hw
  by_cases hpath : ∃ j, c.ifRegPc = (e.state j).pc
  · obtain ⟨j, hpc⟩ := hpath
    rw [← h.step_onPath hcode T.mem hpc]
    exact hkeep true
  · rw [h.step_astray]
    refine refetch (hkeep false) _ _ fun hrd' => ?_
    -- EX is kept, and with it that it does not redirect
    have hx : exeRegNext c (CoreRefinement.inputs ⟨c, m⟩ (busOf c i false)) = c.exeReg :=
      if_pos ((Sees.memStall false).trans hs)
    have hrd : redirectFlg c = false := by
      rw [redirectFlg_eq (hkeep false).noInterrupt (hkeep false).mret] at hrd'
      change (exeBranch (exeRegNext _ _) || exeJmpFlg (exeRegNext _ _)) = false at hrd'
      rw [hx] at hrd'
      rwa [redirectFlg_eq T.noInterrupt T.mret]
    have hst : stallFlg c i = true := by
      simp only [stallFlg, hs, Bool.or_true]
    have hheld := held_stalled hrd hst ((onPath_or_leaves (T.front hrd)).resolve_left hpath)
    rw [h.step_astray] at hheld
    exact hheld

omit h hcode in
/-- An instruction that waits shows nothing. -/
theorem wait_events (hs : memStallFlg c.memReg i = true) :
    busEvents (dmemRequest c.memReg) i = [] ∧ wbWrite (step c i).wbReg = none := by
  have hstall := Bool.and_eq_true_iff.mp hs
  have hv : i.dmemRvalid = false := (Bool.not_eq_true' _).mp hstall.2
  constructor
  · have hw : c.memReg.memWen = .x :=
      (T.waiting (busOf c i false) ((Sees.memStall false).trans hs)).1
    simp only [busEvents, dmemRequest, hw, hv, Bool.and_false, Bool.false_eq_true, if_false]
    rfl
  · have hw : (wbRegNext c i).rfWen = .x := if_pos hs
    unfold wbWrite
    rw [step_wbReg, hw]
    rfl

variable (hs : memStallFlg c.memReg i = false)
include hs

omit hcode in
/-- EX redirects the fetch, and ID is dropped. -/
theorem cycle_redirects (hrd : redirectFlg c = true) : Tracks e (k + inMem.toNat) inExe false
    ⟨step c i, memNext m (dmemRequest c.memReg)⟩ := by
  have hs' := (Sees.memStall (m := m) false).trans hs
  have hidle : IdIdle (idInst c (CoreRefinement.inputs ⟨c, m⟩ (busOf c i false))) :=
    .inl (idInst_dropped (by rw [hrd, Bool.true_or]))
  have hadv : Tracks e (k + inMem.toNat) inExe false (system.step ⟨c, m⟩ (busOf c i false)) :=
    T.advance _ rfl hs' (exeRegNext_idle hs' hidle)
      fun _ => .empty (.inl (if_pos hrd)) (T.redirect_pc hrd _)
  rw [h.step_astray]
  exact refetch hadv _ _ fun _ => .empty (.inl (if_pos hrd)) (T.redirect_pc hrd _)

/-- A hazard with EX keeps IF and ID. -/
theorem cycle_stalls (hrd : redirectFlg c = false) (hst : stallFlg c i = true) :
    Tracks e (k + inMem.toNat) inExe false ⟨step c i, memNext m (dmemRequest c.memReg)⟩ := by
  have hadv : ∀ onPath, Tracks e (k + inMem.toNat) inExe false
      (system.step ⟨c, m⟩ (busOf c i onPath)) := by
    intro onPath
    have hs' := (Sees.memStall (m := m) onPath).trans hs
    have hst' := (Sees.stall (m := m) onPath).trans hst
    have hdropped := idInst_dropped (by rw [hst', Bool.or_true])
    exact T.advance _ rfl hs' (exeRegNext_idle hs' (.inl hdropped))
      fun _ => T.front_hold hcode _ hrd hst' (T.front hrd)
  by_cases hpath : ∃ j, c.ifRegPc = (e.state j).pc
  · obtain ⟨j, hpc⟩ := hpath
    rw [← h.step_onPath hcode T.mem hpc]
    exact hadv true
  · have hheld := held_stalled hrd hst ((onPath_or_leaves (T.front hrd)).resolve_left hpath)
    rw [h.step_astray] at hheld ⊢
    exact refetch (hadv false) _ _ fun _ => hheld

/-- ID is empty, and IF is where the reference is. -/
theorem cycle_fetches (hrd : redirectFlg c = false) (hst : stallFlg c i = false)
    (hid : IdIdle c.idReg.inst)
    (hpc : c.ifRegPc = (e.state (k + inMem.toNat + inExe.toNat)).pc) :
    Tracks e (k + inMem.toNat) inExe false ⟨step c i, memNext m (dmemRequest c.memReg)⟩ := by
  have hs' := (Sees.memStall (m := m) true).trans hs
  have hst' := (Sees.stall (m := m) true).trans hst
  have hkept : idInst c (CoreRefinement.inputs ⟨c, m⟩ (busOf c i true)) = c.idReg.inst := by
    unfold idInst
    rw [hrd, hst']
    rfl
  rw [← h.step_onPath hcode T.mem hpc]
  have hadv : Tracks e (k + inMem.toNat) inExe false (system.step ⟨c, m⟩ (busOf c i true)) :=
    T.advance _ rfl hs' (exeRegNext_idle hs' (hkept.symm ▸ hid))
      fun _ => T.front_flow hcode _ hrd hst' hpc
  exact hadv

/-- The instruction in ID enters EX. -/
theorem cycle_issues (hrd : redirectFlg c = false) (hst : stallFlg c i = false)
    (hinst : c.idReg.inst = fetched (e.state (k + inMem.toNat + inExe.toNat)))
    (hpc : c.idReg.pc = (e.state (k + inMem.toNat + inExe.toNat)).pc)
    (hnext : redirects (e.state (k + inMem.toNat + inExe.toNat)) = false →
      c.ifRegPc = (e.state (k + inMem.toNat + inExe.toNat)).pc + 4) :
    Tracks e (k + inMem.toNat) inExe true ⟨step c i, memNext m (dmemRequest c.memReg)⟩ := by
  have hs' : ∀ onPath, memStallFlg c.memReg
      (CoreRefinement.inputs ⟨c, m⟩ (busOf c i onPath)) = false :=
    fun onPath => (Sees.memStall onPath).trans hs
  have hst' : ∀ onPath, stallFlg c (CoreRefinement.inputs ⟨c, m⟩ (busOf c i onPath)) = false :=
    fun onPath => (Sees.stall onPath).trans hst
  have hex : ∀ onPath, exeRegNext c (CoreRefinement.inputs ⟨c, m⟩ (busOf c i onPath)) =
      exeSlot (e.state (k + inMem.toNat + inExe.toNat)) :=
    fun onPath => T.issue (busOf c i onPath) (hs' onPath) (hst' onPath) hrd hinst hpc
  have hleaves : ∀ onPath,
      redirectFlg (step c (CoreRefinement.inputs ⟨c, m⟩ (busOf c i onPath))) = false →
      redirects (e.state (k + inMem.toNat + inExe.toNat)) = false := by
    intro onPath hrd'
    have hp := exeInterruptNext_none c
      (i := CoreRefinement.inputs ⟨c, m⟩ (busOf c i onPath)) rfl T.noInterrupt
    have hmret : (exeRegNext c (CoreRefinement.inputs ⟨c, m⟩ (busOf c i onPath))).mret = false :=
      (congrArg ExeReg.mret (hex onPath)).trans (implements_state e _).mret
    rw [redirectFlg_eq hp hmret] at hrd'
    change (exeBranch (exeRegNext _ _) || exeJmpFlg (exeRegNext _ _)) = false at hrd'
    rwa [hex onPath] at hrd'
  cases hr : redirects (e.state (k + inMem.toNat + inExe.toNat)) with
  | false =>
    have hn := hnext hr
    rw [← pc_of_no_redirect e hr] at hn
    rw [← h.step_onPath hcode T.mem hn]
    have hadv : Tracks e (k + inMem.toNat) inExe true (system.step ⟨c, m⟩ (busOf c i true)) :=
      T.advance _ rfl (hs' true) (hex true) fun _ => T.front_flow hcode _ hrd (hst' true) hn
    exact hadv
  | true =>
    -- the instruction leaves, and EX drops what is fetched behind it
    rw [h.step_astray]
    have hlost : ∀ {P : Prop}, redirectFlg
        (step c (CoreRefinement.inputs ⟨c, m⟩ (busOf c i false))) = false → P :=
      fun hrd' => absurd ((hleaves false hrd').symm.trans hr) Bool.false_ne_true
    have hadv : Tracks e (k + inMem.toNat) inExe true (system.step ⟨c, m⟩ (busOf c i false)) :=
      T.advance _ rfl (hs' false) (hex false) hlost
    exact refetch hadv _ _ hlost

/-- A cycle in which MEM does not wait. -/
theorem cycle_moves : ∃ entered, Tracks e (k + inMem.toNat) inExe entered
    ⟨step c i, memNext m (dmemRequest c.memReg)⟩ := by
  cases hrd : redirectFlg c with
  | true => exact ⟨false, cycle_redirects T h hs hrd⟩
  | false =>
  cases hst : stallFlg c i with
  | true => exact ⟨false, cycle_stalls T h hcode hs hrd hst⟩
  | false =>
  cases T.front hrd with
  | empty hid hpc => exact ⟨false, cycle_fetches T h hcode hs hrd hst hid hpc⟩
  | held hinst hpc hnext => exact ⟨true, cycle_issues T h hcode hs hrd hst hinst hpc hnext⟩

omit hcode in
/-- The instruction that leaves MEM shows its access now and its register write next. -/
theorem cycle_events : e.trace (k + inMem.toNat) = e.trace k ++
    (busEvents (dmemRequest c.memReg) i ++ writeBackEvents (wbWrite (step c i).wbReg)) := by
  obtain ⟨due, hdue, rfl⟩ := T.done_events (busOf c i false) ((Sees.memStall false).trans hs)
  have hbus : busEvents (dmemRequest c.memReg)
      (CoreRefinement.inputs ⟨c, m⟩ (busOf c i false)) = busEvents (dmemRequest c.memReg) i := by
    rw [h.inputs_astray, busEvents, busEvents, ← Bool.and_assoc, Bool.and_self]
  have hwb : wbWrite (step c i).wbReg = memWriteBack c.csrs
      (CoreRefinement.inputs ⟨c, m⟩ (busOf c i false)) c.memReg := by
    have hw : (wbRegNext c i).rfWen = c.memReg.rfWen := by
      simp only [wbRegNext, hs, Bool.false_eq_true, if_false]
    rw [h.inputs_astray, memWriteBack, ← hw]
    rfl
  rw [hdue, hbus, hwb]

end Cycle

/-! ## Programs that keep to the memory and to OUT -/

/-- The image of the memory, and zeroes behind it. -/
def image (mems : BitVec 2 → DualPortMemory 8) : ByteMemory.Memory := fun addr =>
  if addr.toNat < memSize then (mems (offset addr)).mem (addr.toNat / 4) else 0

/-- Instructions come from the memory and loads from the memory or from OUT; a store to the
port is one to OUT, and none is to the word of an instruction. -/
structure Confined {a : ArchState} (e : Execution a) : Prop where
  fetches : ∀ n, (e.state n).pc.toNat < memSize
  loads : ∀ n addr data, (e.outcome n).access = some (.load addr data) →
    addr.toNat < memSize ∨ inOut gpioRange.start 0 addr
  stores : ∀ n bytes, (e.outcome n).access = some (.store bytes) →
    ∀ b ∈ bytes, gpioRange.contains b.1 = true → inOut gpioRange.start 0 b.1
  code : ∀ n bytes, (e.outcome n).access = some (.store bytes) →
    ∀ b ∈ bytes, ∀ j, b.1.toNat / 4 ≠ (e.state j).pc.toNat / 4

section Programs
variable {a : ArchState} {e : Execution a}

theorem offset_zero_iff {w : Word} : offset w = 0 ↔ w.toNat % 4 = 0 := by
  have hto : (offset w).toNat = w.toNat % 4 := by
    simp [offset, BitVec.extractLsb'_toNat]
  rw [← hto]
  exact ⟨fun h => congrArg BitVec.toNat h, fun h => BitVec.eq_of_toNat_eq h⟩

theorem offset_add_four {w : Word} (h : offset w = 0) : offset (w + 4) = 0 := by
  rw [offset_zero_iff] at h ⊢
  rw [BitVec.toNat_add, show (4 : Word).toNat = 4 from rfl]
  omega

/-- Aligned jumps keep the pc aligned. -/
theorem offset_next {s : ArchState} {o : Outcome} (h : s.outcome = some o) (hpc : offset s.pc = 0) :
    offset o.nextPc = 0 := by
  obtain ⟨i, -, hi⟩ := Option.bind_eq_some_iff.mp h
  split at hi
  case isFalse => cases hi
  case isTrue ha =>
  cases hi
  have hnext := offset_add_four hpc
  cases i with
  | jal | jalr => exact beq_iff_eq.mp ha
  | branch f rs1 rs2 dist =>
    simp only [Instr.outcome]
    simp only [Instr.aligned, Bool.or_eq_true, Bool.not_eq_true'] at ha
    split
    next ht => exact beq_iff_eq.mp (ha.resolve_left (by rw [ht]; decide))
    next => exact hnext
  | _ => exact hnext

theorem pc_aligned (h0 : offset a.pc = 0) (n : ℕ) : offset (e.state n).pc = 0 := by
  induction n with
  | zero => rwa [e.start]
  | succ n ih =>
    rw [state_next_pc]
    exact offset_next (e.defined n) ih

variable (hc : Confined e)
include hc

theorem code_kept (n j : ℕ) (l : BitVec 2) :
    (e.state n).mem (lane (e.state j).pc l) = a.mem (lane (e.state j).pc l) := by
  induction n with
  | zero => rw [e.start]
  | succ n ih =>
    rw [← ih, e.next n]
    cases haccess : (e.outcome n).access with
    | none => simp only [ArchState.commit, haccess]
    | some access =>
      cases access with
      | load => simp only [ArchState.commit, haccess]
      | store bytes =>
        simp only [ArchState.commit, haccess]
        refine writeBytes_other fun b hb heq => hc.code n bytes haccess b hb j ?_
        have hl := l.isLt
        rw [heq, lane_toNat]
        omega

theorem word_kept (h0 : offset a.pc = 0) (n j : ℕ) : readWord (e.state n).mem (e.state j).pc =
    line fun l => a.mem (lane (e.state j).pc l) := by
  rw [← busWord_word _ (pc_aligned h0 j)]
  exact congrArg line (funext (code_kept hc n j))

theorem codeIntact (h0 : offset a.pc = 0) : e.CodeIntact := by
  intro n j
  have hstart := word_kept hc h0 0 j
  rw [e.start] at hstart
  rw [word_kept hc h0 n j, hstart]

end Programs

/-! ## The memory and the port are the flat memory -/

section Backing

theorem cell_eq {addr : Word} (h : addr.toNat < memSize) :
    memoryParams.cell addr = addr.toNat / 4 := by
  have hdepth : Nat.clog 2 memoryParams.depth = 11 := by decide +kernel
  have hword : (memoryParams.wordAddr addr).toNat = addr.toNat / 4 := by
    have hbase : addr - memoryParams.baseAddress = addr := BitVec.sub_zero addr
    rw [MemoryParams.wordAddr, hbase, BitVec.extractLsb'_toNat, Nat.shiftRight_eq_div_pow]
    have hlt := addr.isLt
    omega
  unfold memSize at h
  rw [MemoryParams.cell, MemoryParams.portAddress, BitVec.toNat_setWidth, hword, hdepth]
  omega

theorem memoryRange_contains {addr : Word} :
    memoryRange.contains addr = true ↔ addr.toNat < memSize := by
  rw [contains_iff]
  exact ⟨fun h => by simpa [memoryRange] using h.2,
    fun h => ⟨Nat.zero_le _, by simpa [memoryRange] using h⟩⟩

theorem disjoint_ranges : Disjoint [memoryRange, gpioRange] := disjoint_of_sorted (by decide)

/-- What the memory sees of a request. -/
theorem memoryRequest {q : DmemRequest} (h : q.addr.toNat < memSize) :
    targetRequest memoryRange q = q := by
  rw [targetRequest_contains (memoryRange_contains.mpr h)]
  have hstart : q.addr - BitVec.ofNat 32 memoryRange.start = q.addr := BitVec.sub_zero q.addr
  rw [hstart]

theorem memoryRequest_other {q : DmemRequest} (h : ¬ q.addr.toNat < memSize) :
    (targetRequest memoryRange q).ren = false ∧ (targetRequest memoryRange q).wen = false :=
  targetRequest_other (Bool.eq_false_iff.mpr fun hin => h (memoryRange_contains.mp hin))

/-- The key of a request to OUT is that of OUT. -/
theorem gpioRequest_key {q : DmemRequest} (h : inOut gpioRange.start 0 q.addr) :
    gpioRange.contains q.addr = true ∧ Gpio.key (targetRequest gpioRange q).addr = 0 := by
  have hstart : gpioRange.start = 0xa0000000 := rfl
  have hlength : gpioRange.length = 64 := rfl
  unfold inOut at h
  have hin : gpioRange.contains q.addr = true := by
    rw [contains_iff]
    omega
  refine ⟨hin, BitVec.eq_of_toNat_eq ?_⟩
  rw [Gpio.key, BitVec.extractLsb'_toNat, relative_toNat hin, Nat.shiftRight_eq_div_pow]
  change _ = 0
  omega

/-- The memory and the port hold the flat memory `m`. -/
structure Backs (s : Top) (m : ByteMemory.Memory) : Prop where
  memory : ∀ addr : Word, addr.toNat < memSize → ∀ l,
    (s.memory.mems l).mem (memoryParams.cell addr) = m (lane addr l)
  out : ∀ l, byteAt s.gpio.out l.toNat = m (lane 0xa0000000 l)

variable {s : Top} {m : ByteMemory.Memory}

theorem Backs.word (h : Backs s m) {addr : Word} (haddr : inOut gpioRange.start 0 addr) :
    s.gpio.out = busWord m addr := by
  refine eq_of_bytes fun l => ?_
  have hstart : gpioRange.start = 0xa0000000 := rfl
  have hline : addr.toNat / 4 = (0xa0000000 : Word).toNat / 4 := by
    unfold inOut at haddr
    rw [show (0xa0000000 : Word).toNat = 0xa0000000 from rfl]
    omega
  rw [h.out, busWord, byteAt_line, lane_congr hline]

/-- A load from OUT is answered at once, with the word of the flat memory. -/
theorem Backs.response_out (h : Backs s m) (haddr : inOut gpioRange.start 0 s.request.addr) :
    s.response = ⟨true, busWord m s.request.addr⟩ := by
  obtain ⟨hin, hkey⟩ := gpioRequest_key haddr
  rw [Top.response, respond_contains disjoint_ranges (i := 1) rfl hin]
  simp only [Gpio.respond, hkey, if_true, h.word haddr]

theorem response_memory (haddr : s.request.addr.toNat < memSize) :
    s.response = ⟨s.memory.rvalid, s.memory.dmemRdata memoryParams s.request⟩ := by
  rw [Top.response, respond_contains disjoint_ranges (i := 0) rfl (memoryRange_contains.mpr haddr)]
  simp only [Memory.target, memoryRequest haddr]

theorem memNext_lane (q : DmemRequest) (addr : Word) (l : BitVec 2) :
    memNext m q (lane addr l) = if q.wen = true ∧ q.wstrb.getLsbD l.toNat = true ∧
      q.addr.toNat / 4 = addr.toNat / 4 then byteAt q.wdata l.toNat else m (lane addr l) := by
  unfold memNext
  cases hwen : q.wen with
  | false => simp only [Bool.false_eq_true, false_and, if_false]
  | true =>
    rw [if_pos rfl, requestBytes, writeBytes_strobed]
    simp only [true_and]

theorem byteAt_allOnes (l : BitVec 2) :
    byteAt (BitVec.allOnes 32) l.toNat = BitVec.allOnes 8 := by
  revert l
  decide

/-- A clock of the port, byte by byte. -/
theorem gpio_step_byte (g : Gpio) (q : DmemRequest) (l : BitVec 2) :
    byteAt (g.step q).out l.toNat =
      if q.wen = true ∧ Gpio.key q.addr = 0 ∧ q.wstrb.getLsbD l.toNat = true then
        byteAt q.wdata l.toNat
      else byteAt g.out l.toNat := by
  have hstore := byteAt_store g.out q.wdata (BitVec.allOnes 32) q.wstrb l
  rw [BitVec.and_allOnes, byteAt_allOnes, BitVec.and_allOnes] at hstore
  rw [Gpio.step]
  by_cases hkey : (q.wen && Gpio.key q.addr == 0) = true
  · obtain ⟨hwen, hzero⟩ := Bool.and_eq_true_iff.mp hkey
    rw [if_pos hkey, hstore]
    simp only [hwen, beq_iff_eq.mp hzero, true_and]
  · rw [if_neg hkey, if_neg]
    rintro ⟨hwen, hzero, -⟩
    exact hkey (by rw [hwen, hzero]; rfl)

/-- A clock stores the same bytes in the flat memory. -/
theorem Backs.next (h : Backs s m) (u : BitVec 2 → Undefined 8)
    (hport : s.request.wen = true → ∀ l : BitVec 2, s.request.wstrb.getLsbD l.toNat = true →
      gpioRange.contains s.request.addr = true → inOut gpioRange.start 0 s.request.addr) :
    Backs (s.step u) (memNext m s.request) := by
  constructor
  · intro addr haddr l
    have hstep := step_mem (p := memoryParams) (i := ⟨s.core.ifRegPc, u⟩)
      (q := targetRequest memoryRange s.request) (m := fun w l => (s.memory.mems l).mem w)
      (fun _ _ => rfl) (memoryParams.cell addr) l
    change ((s.memory.step _ _ _).mems l).mem _ = _
    rw [hstep, Bytes.access, memNext_lane]
    by_cases hq : s.request.addr.toNat < memSize
    · rw [memoryRequest hq, cell_eq hq, cell_eq haddr]
      simp only [Bool.and_eq_true, beq_iff_eq, and_assoc]
      congr 1
      rw [← cell_eq haddr]
      exact h.memory addr haddr l
    · rw [(memoryRequest_other hq).2, Bool.false_and, Bool.false_and, if_neg Bool.false_ne_true,
        if_neg fun hw => hq ?_]
      · exact h.memory addr haddr l
      · unfold memSize at haddr ⊢
        omega
  · intro l
    change byteAt (s.gpio.step _).out l.toNat = _
    rw [memNext_lane, gpio_step_byte, h.out]
    have hline : s.request.addr.toNat / 4 = (0xa0000000 : Word).toNat / 4 ↔
        inOut gpioRange.start 0 s.request.addr := by
      rw [show (0xa0000000 : Word).toNat = 0xa0000000 from rfl]
      unfold inOut
      rw [show gpioRange.start = 0xa0000000 from rfl]
      omega
    simp only [hline]
    cases hin : gpioRange.contains s.request.addr with
    | false =>
      rw [(targetRequest_other hin).2, if_neg fun hw => Bool.false_ne_true hw.1, if_neg]
      rintro ⟨-, -, hout⟩
      exact absurd ((gpioRequest_key hout).1.symm.trans hin) (by decide)
    | true =>
      rw [targetRequest_contains hin]
      refine if_congr ⟨?_, ?_⟩ rfl rfl
      · rintro ⟨hwen, -, hstrobe⟩
        exact ⟨hwen, hstrobe, hport hwen l hstrobe hin⟩
      · rintro ⟨hwen, hstrobe, hout⟩
        have hkey := (gpioRequest_key hout).2
        rw [targetRequest_contains hin] at hkey
        exact ⟨hwen, hkey, hstrobe⟩

end Backing

/-! ## The system carries out the program -/

section Running
variable {a : ArchState} {e : Execution a} {k : ℕ} {inMem inExe : Bool} {s : Top}

/-- The core is after `k` instructions of the execution, and the memory and the port hold its
flat memory. What the memory has read for IF, and what it answers to MEM, is the word there. -/
structure Holds (e : Execution a) (k : ℕ) (inMem inExe : Bool) (s : Top) : Prop where
  tracks : Tracks e k inMem inExe ⟨s.core, (e.state k).mem⟩
  backs : Backs s (e.state k).mem
  fetched : s.memory.isFirstCycle = false → ∀ j,
    s.memory.imemWordAddrFetched = memoryParams.wordAddr (e.state j).pc →
      ∀ l, (s.memory.mems l).dataA = a.mem (lane (e.state j).pc l)
  loaded : s.memory.rvalid = true → s.request.ren = true ∧ s.request.addr.toNat < memSize ∧
    ∀ l, (s.memory.mems l).dataB = (e.state k).mem (lane s.request.addr l)

theorem not_idle_of_access (T : Tracks e k inMem inExe ⟨s.core, (e.state k).mem⟩)
    (h : s.request.wen = true ∨ s.request.ren = true) : inMem = true := by
  cases inMem with
  | true => rfl
  | false =>
    have hidle : MemIdle s.core.memReg := T.memReg
    rcases h with h | h
    · have hw := beq_iff_eq.mp h
      rw [hidle.memWen] at hw
      cases hw
    · have hw := beq_iff_eq.mp h
      rw [hidle.wbSel] at hw
      cases hw

theorem stored_byte {q : DmemRequest} {l : BitVec 2} (h : q.wstrb.getLsbD l.toNat = true) :
    (lane q.addr l, byteAt q.wdata l.toNat) ∈ requestBytes q := mem_strobedBytes.mpr ⟨l, h, rfl⟩

/-- A store of MEM is one of the execution. -/
theorem store_of_wen (T : Tracks e k inMem inExe ⟨s.core, (e.state k).mem⟩)
    (h : s.request.wen = true) :
    (e.outcome k).access = some (.store (requestBytes s.request)) := by
  have haccess := T.memAccess (not_idle_of_access T (.inl h))
  have hw : s.core.memReg.memWen = .s := beq_iff_eq.mp h
  generalize hacc : (e.outcome k).access = acc at haccess
  cases haccess with
  | none _ hx => cases hx.symm.trans hw
  | load _ hx => cases hx.symm.trans hw
  | store => rfl

/-- So is a load. -/
theorem load_of_ren (T : Tracks e k inMem inExe ⟨s.core, (e.state k).mem⟩)
    (h : s.request.ren = true) : s.request.wen = false ∧
      ∃ data, (e.outcome k).access = some (.load s.request.addr data) := by
  have haccess := T.memAccess (not_idle_of_access T (.inr h))
  have hw : s.core.memReg.wbSel = .mem := beq_iff_eq.mp h
  generalize hacc : (e.outcome k).access = acc at haccess
  cases haccess with
  | none hx => exact absurd hw hx
  | load _ hx => exact ⟨by rw [Top.request, dmemRequest, hx]; rfl, _, rfl⟩
  | store hx => exact absurd hw hx

variable (hc : Confined e) (h0 : offset a.pc = 0)
include hc

theorem Holds.sees (h : Holds e k inMem inExe s) (h0 : offset a.pc = 0) :
    Sees e s.core (e.state k).mem s.inputs := by
  refine ⟨fun hvalid j hpc => ?_, fun hsel hvalid => ?_, rfl⟩
  · change (!s.memory.isFirstCycle && s.memory.imemWordAddrFetched ==
      memoryParams.wordAddr s.core.ifRegPc) = true at hvalid
    rw [Bool.and_eq_true, Bool.not_eq_true', beq_iff_eq, hpc] at hvalid
    exact (imemInst_eq (h.fetched hvalid.1 j hvalid.2) _).trans (word_kept hc h0 j j).symm
  · have hren : s.request.ren = true := beq_iff_eq.mpr hsel
    obtain ⟨hwen, data, haccess⟩ := load_of_ren h.tracks hren
    change s.response.rdata = busWord _ s.request.addr
    change s.response.rvalid = true at hvalid
    rcases hc.loads k _ _ haccess with haddr | haddr
    · rw [response_memory haddr] at hvalid ⊢
      obtain ⟨-, -, hdata⟩ := h.loaded hvalid
      exact dmemRdata_eq hren hwen hdata
    · rw [h.backs.response_out haddr]

/-- The stores of MEM keep to OUT of the port and off the instructions. -/
theorem Holds.port (h : Holds e k inMem inExe s) (hwen : s.request.wen = true) (l : BitVec 2)
    (hstrobe : s.request.wstrb.getLsbD l.toNat = true)
    (hin : gpioRange.contains s.request.addr = true) :
    inOut gpioRange.start 0 s.request.addr := by
  have hl := l.isLt
  have hstart : gpioRange.start = 0xa0000000 := rfl
  have hlength : gpioRange.length = 64 := rfl
  have hout := hc.stores k _ (store_of_wen h.tracks hwen) _ (stored_byte hstrobe)
  unfold inOut at hout ⊢
  rw [contains_iff] at hin hout
  rw [lane_toNat] at hout
  omega

theorem Holds.code (h : Holds e k inMem inExe s) (hwen : s.request.wen = true) (l : BitVec 2)
    (hstrobe : s.request.wstrb.getLsbD l.toNat = true) (j : ℕ) :
    s.request.addr.toNat / 4 ≠ (e.state j).pc.toNat / 4 := by
  have hcode := hc.code k _ (store_of_wen h.tracks hwen) _ (stored_byte hstrobe) j
  have hl := l.isLt
  rw [lane_toNat] at hcode
  omega

/-- A wait of MEM for the memory. -/
theorem stall_iff (h : Holds e k inMem inExe s) : memStallFlg s.core.memReg s.inputs = true ↔
    s.request.ren = true ∧ s.request.addr.toNat < memSize ∧ s.memory.rvalid = false := by
  change (s.request.ren && !s.response.rvalid) = true ↔ _
  rw [Bool.and_eq_true, Bool.not_eq_true']
  refine and_congr_right fun hren => ?_
  obtain ⟨-, data, haccess⟩ := load_of_ren h.tracks hren
  constructor
  · intro hvalid
    rcases hc.loads k _ _ haccess with haddr | haddr
    · rw [response_memory haddr] at hvalid
      exact ⟨haddr, hvalid⟩
    · rw [h.backs.response_out haddr] at hvalid
      cases hvalid
  · rintro ⟨haddr, hvalid⟩
    rw [response_memory haddr]
    exact hvalid

/-- The memory and the port follow the core. -/
theorem Holds.next_of (h : Holds e k inMem inExe s) (u : BitVec 2 → Undefined 8) {k' : ℕ}
    {inMem' inExe' : Bool} (T : Tracks e k' inMem' inExe'
      ⟨step s.core s.inputs, memNext (e.state k).mem s.request⟩) :
    Holds e k' inMem' inExe' (s.step u) := by
  have hmem : memNext (e.state k).mem s.request = (e.state k').mem := T.mem
  refine ⟨hmem ▸ T, hmem ▸ h.backs.next u (h.port hc), fun _ j hword l => ?_, fun hvalid => ?_⟩
  · have hpc : memoryParams.cell s.core.ifRegPc = memoryParams.cell (e.state j).pc :=
      congrArg (fun w : BitVec 30 => (w.setWidth (Nat.clog 2 memoryParams.depth)).toNat) hword
    have hfetch := hc.fetches j
    have hcell : memoryParams.cell s.core.ifRegPc < memoryParams.depth := by
      rw [hpc, cell_eq hfetch, show memoryParams.depth = 2048 from rfl]
      unfold memSize at hfetch
      omega
    have hstore : (memoryParams.dmemPort (targetRequest memoryRange s.request) l).writes
        (memoryParams.cell s.core.ifRegPc) = false := by
      rw [dmemPort_writes, ← Bool.not_eq_true]
      intro hw
      simp only [Bool.and_eq_true, beq_iff_eq] at hw
      obtain ⟨⟨hwen, hstrobe⟩, hsame⟩ := hw
      by_cases haddr : s.request.addr.toNat < memSize
      · rw [memoryRequest haddr] at hwen hstrobe hsame
        rw [hpc, cell_eq haddr, cell_eq hfetch] at hsame
        exact h.code hc hwen l hstrobe j hsame
      · rw [(memoryRequest_other haddr).2] at hwen
        cases hwen
    have hdata := step_dataA (p := memoryParams) (i := ⟨s.core.ifRegPc, u⟩)
      (m := fun w l => (s.memory.mems l).mem w) (fun _ _ => rfl) hcell hstore
    refine hdata.trans ?_
    change (s.memory.mems l).mem (memoryParams.cell s.core.ifRegPc) = _
    rw [hpc, h.backs.memory _ hfetch, code_kept hc]
  · change ((targetRequest memoryRange s.request).ren &&
      !(targetRequest memoryRange s.request).wen && !s.memory.rvalid) = true at hvalid
    rw [Bool.and_eq_true, Bool.and_eq_true, Bool.not_eq_true', Bool.not_eq_true'] at hvalid
    obtain ⟨⟨hren, -⟩, hwaits⟩ := hvalid
    by_cases haddr : s.request.addr.toNat < memSize
    case neg =>
      rw [(memoryRequest_other haddr).1] at hren
      cases hren
    case pos =>
    rw [memoryRequest haddr] at hren
    have hwen := (load_of_ren h.tracks hren).1
    have hkept : (s.step u).request = s.request := by
      have hstall := (stall_iff hc h).mpr ⟨hren, haddr, hwaits⟩
      exact congrArg dmemRequest (if_pos hstall)
    have hcell : memoryParams.cell s.request.addr < memoryParams.depth := by
      rw [cell_eq haddr, show memoryParams.depth = 2048 from rfl]
      unfold memSize at haddr
      omega
    rw [hkept]
    refine ⟨hren, haddr, fun l => ?_⟩
    have hdata : ((s.memory.step memoryParams ⟨s.core.ifRegPc, u⟩ s.request).mems l).dataB =
        (s.memory.mems l).mem (memoryParams.cell s.request.addr) :=
      step_dataB (m := fun w l => (s.memory.mems l).mem w) (fun _ _ => rfl) hren hwen hcell
    rw [← hmem, memNext, hwen, if_neg Bool.false_ne_true, ← h.backs.memory _ haddr]
    change (((s.memory.step memoryParams _ (targetRequest memoryRange s.request)).mems l).dataB) = _
    rw [memoryRequest haddr]
    exact hdata

/-- A wait ends with the next clock. -/
theorem Holds.waits (h : Holds e k inMem inExe s) (h0 : offset a.pc = 0)
    (u : BitVec 2 → Undefined 8) (hs : memStallFlg s.core.memReg s.inputs = true) :
    Holds e k inMem inExe (s.step u) ∧
      memStallFlg (s.step u).core.memReg (s.step u).inputs = false := by
  obtain ⟨hren, haddr, hwaits⟩ := (stall_iff hc h).mp hs
  have hwen := (load_of_ren h.tracks hren).1
  have hnext : Holds e k inMem inExe (s.step u) := by
    refine h.next_of hc u ?_
    rw [memNext, hwen, if_neg Bool.false_ne_true]
    exact cycle_waits h.tracks (h.sees hc h0) (codeIntact hc h0) hs
  refine ⟨hnext, Bool.eq_false_iff.mpr fun hs' => ?_⟩
  have hvalid := ((stall_iff hc hnext).mp hs').2.2
  change ((targetRequest memoryRange s.request).ren && !(targetRequest memoryRange s.request).wen &&
    !s.memory.rvalid) = false at hvalid
  rw [memoryRequest haddr, hren, hwen, hwaits] at hvalid
  cases hvalid

theorem Holds.moves (h : Holds e k inMem inExe s) (h0 : offset a.pc = 0)
    (u : BitVec 2 → Undefined 8) (hs : memStallFlg s.core.memReg s.inputs = false) :
    ∃ entered, Holds e (k + inMem.toNat) inExe entered (s.step u) := by
  obtain ⟨entered, T⟩ := cycle_moves h.tracks (h.sees hc h0) (codeIntact hc h0) hs
  exact ⟨entered, h.next_of hc u T⟩

/-- At most how many clocks are left to instruction `k` in the core, by where it stands. -/
inductive Due (e : Execution a) (k : ℕ) (s : Top) : ℕ → Bool → Bool → Prop
  | leaving {inExe : Bool} (hs : memStallFlg s.core.memReg s.inputs = false) :
      Due e k s 1 true inExe
  | loading {inExe : Bool} : Due e k s 2 true inExe
  | executing : Due e k s 3 false true
  | decoding (hinst : s.core.idReg.inst = CoreDatapath.fetched (e.state k))
      (hpc : s.core.idReg.pc = (e.state k).pc)
      (hnext : redirects (e.state k) = false → s.core.ifRegPc = (e.state k).pc + 4) :
      Due e k s 4 false false
  | fetching (hid : IdIdle s.core.idReg.inst) (hpc : s.core.ifRegPc = (e.state k).pc)
      (hvalid : s.inputs.imemValid = true) : Due e k s 5 false false
  | addressing (hid : IdIdle s.core.idReg.inst) (hpc : s.core.ifRegPc = (e.state k).pc) :
      Due e k s 6 false false

omit hc in
theorem Due.bounds {r : ℕ} (h : Due e k s r inMem inExe) : 1 ≤ r ∧ r ≤ 6 := by
  cases h <;> decide

omit hc in
/-- Behind idle stages nothing redirects and nothing stalls. -/
theorem idle_flows (T : Tracks e k false false ⟨s.core, (e.state k).mem⟩) (i : Inputs) :
    redirectFlg s.core = false ∧ memStallFlg s.core.memReg i = false ∧
      stallFlg s.core i = false := by
  have hexe : ExeIdle s.core.exeReg := T.exeReg
  have hmem : MemIdle s.core.memReg := T.memReg
  have hstall : memStallFlg s.core.memReg i = false := by
    simp only [memStallFlg, dmemRequest, hmem.wbSel]
    rfl
  have hazard : ∀ rs, idDataHazard s.core.exeReg rs = false := by
    intro rs
    unfold idDataHazard
    rcases hexe.writeBack with hw | hw
    · rw [hw]
      rfl
    · rw [hw, Bool.and_assoc, bne, Bool.not_and_self, Bool.and_false]
  refine ⟨?_, hstall, ?_⟩
  · rw [redirectFlg_eq T.noInterrupt T.mret, hexe.branch, hexe.jump]
    rfl
  · rw [stallFlg, hazard, hazard, hstall]
    rfl

omit hc in
theorem Holds.due (h : Holds e k inMem inExe s) : ∃ r, Due e k s r inMem inExe := by
  cases inMem with
  | true => exact ⟨2, .loading⟩
  | false =>
  cases inExe with
  | true => exact ⟨3, .executing⟩
  | false =>
  cases h.tracks.front (idle_flows h.tracks s.inputs).1 with
  | empty hid hpc => exact ⟨6, .addressing hid hpc⟩
  | held hinst hpc hnext => exact ⟨4, .decoding hinst hpc hnext⟩

/-- On the path of the reference a valid fetch moves to ID, and IF goes on to the next word. -/
theorem Holds.fetched_next (h : Holds e k inMem inExe s) (h0 : offset a.pc = 0)
    (u : BitVec 2 → Undefined 8) (hrd : redirectFlg s.core = false)
    (hst : stallFlg s.core s.inputs = false) {j : ℕ} (hpc : s.core.ifRegPc = (e.state j).pc) :
    (s.inputs.imemValid = true →
      (s.step u).core.idReg = ⟨(e.state j).pc, CoreDatapath.fetched (e.state j)⟩ ∧
      (s.step u).core.ifRegPc = (e.state j).pc + 4) ∧
    (s.inputs.imemValid = false → (s.step u).core.idReg.inst = bubble ∧
      (s.step u).core.ifRegPc = (e.state j).pc ∧ (s.step u).inputs.imemValid = true) := by
  obtain ⟨hbr, hj⟩ := no_redirect hrd
  constructor
  · intro hvalid
    have hif : ifInst s.inputs = CoreDatapath.fetched (e.state j) := by
      rw [ifInst, hvalid, if_pos rfl, (h.sees hc h0).fetch hvalid j hpc]
    have hne := fetched_ne_ecall e j
    refine ⟨?_, ?_⟩
    · change idRegNext s.core s.inputs = _
      simp only [idRegNext, hst, hrd, hbr, hj, hvalid, hif, hpc, Bool.not_true, Bool.or_self,
        Bool.false_eq_true, if_false]
    · change ifPcNext s.core s.inputs = _
      simp only [ifPcNext, hbr, hj, hif, hne, hst, hvalid, hpc, Bool.not_true, Bool.or_self,
        Bool.false_eq_true, if_false]
  · intro hvalid
    have hif : ifInst s.inputs = bubble := by
      rw [ifInst, hvalid, if_neg Bool.false_ne_true]
    have hne : bubble ≠ ECALL := by decide
    have hkept : (s.step u).core.ifRegPc = s.core.ifRegPc := by
      change ifPcNext s.core s.inputs = _
      simp only [ifPcNext, hbr, hj, hif, hne, hst, hvalid, Bool.not_false, Bool.or_true,
        Bool.false_eq_true, if_false, if_true]
    refine ⟨?_, hkept.trans hpc, ?_⟩
    · change (idRegNext s.core s.inputs).inst = _
      simp only [idRegNext, hst, hrd, hif, Bool.false_eq_true, if_false]
    · change (!false && memoryParams.wordAddr s.core.ifRegPc ==
        memoryParams.wordAddr (s.step u).core.ifRegPc) = true
      rw [hkept, beq_self_eq_true]
      rfl

/-- The events so far, together with the write WB is about to make, are those of the first `k`
instructions. -/
def Shown (e : Execution a) (k : ℕ) (s : Top) (events : List Event) : Prop :=
  events ++ writeBackEvents (wbWrite s.core.wbReg) = e.trace k

omit hc in
theorem Shown.waits {events : List Event} (hx : Shown e k s events) (h : Holds e k inMem inExe s)
    (u : BitVec 2 → Undefined 8) (hs : memStallFlg s.core.memReg s.inputs = true) :
    Shown e k (s.step u) (events ++ machine.emit s u) := by
  obtain ⟨hbus, hwb⟩ := wait_events h.tracks hs
  change events ++ (_ ++ busEvents (dmemRequest s.core.memReg) s.inputs) ++
    writeBackEvents (wbWrite (CorePipeline.step s.core s.inputs).wbReg) = _
  rw [hbus, hwb, List.append_nil]
  exact (List.append_nil _).trans hx

theorem Shown.moves {events : List Event} (hx : Shown e k s events) (h : Holds e k inMem inExe s)
    (h0 : offset a.pc = 0) (u : BitVec 2 → Undefined 8)
    (hs : memStallFlg s.core.memReg s.inputs = false) :
    Shown e (k + inMem.toNat) (s.step u) (events ++ machine.emit s u) := by
  rw [Shown, cycle_events h.tracks (h.sees hc h0) hs, ← hx, List.append_assoc, List.append_assoc,
    ← List.append_assoc (writeBackEvents _)]
  rfl

/-- Where the system is after some clocks: `k` instructions have left MEM and are shown, and the
next one leaves in time. -/
structure Reaches (e : Execution a) (k clocks : ℕ) (s : Top) (events : List Event) : Prop where
  shown : Shown e k s events
  holds : ∃ inMem inExe r, Holds e k inMem inExe s ∧ Due e k s r inMem inExe ∧
    clocks + r ≤ 6 * (k + 1)
  slow : k ≤ clocks

variable {clocks : ℕ} {events : List Event}

/-- An instruction leaves MEM. -/
theorem reaches_next (h : Holds e k true inExe s) (h0 : offset a.pc = 0)
    (hx : Shown e k s events) (hslow : k ≤ clocks) (htime : clocks + 1 ≤ 6 * (k + 1))
    (u : BitVec 2 → Undefined 8) (hs : memStallFlg s.core.memReg s.inputs = false) :
    ∃ k', Reaches e k' (clocks + 1) (s.step u) (events ++ machine.emit s u) := by
  obtain ⟨entered, hnext⟩ := h.moves hc h0 u hs
  obtain ⟨r, hdue⟩ := hnext.due
  have hr := hdue.bounds
  exact ⟨k + 1, hx.moves hc h h0 u hs, ⟨_, _, r, hnext, hdue, by omega⟩, by omega⟩

/-- A clock: the oldest instruction leaves MEM, or it comes nearer to leaving it. -/
theorem Reaches.next (h : Reaches e k clocks s events) (h0 : offset a.pc = 0)
    (u : BitVec 2 → Undefined 8) :
    ∃ k', Reaches e k' (clocks + 1) (s.step u) (events ++ machine.emit s u) := by
  obtain ⟨hx, ⟨inMem, inExe, r, hh, hdue, htime⟩, hslow⟩ := h
  cases hdue with
  | leaving hs => exact reaches_next hc hh h0 hx hslow htime u hs
  | loading =>
    cases hs : memStallFlg s.core.memReg s.inputs with
    | false => exact reaches_next hc hh h0 hx hslow (by omega) u hs
    | true =>
      obtain ⟨hnext, hs'⟩ := hh.waits hc h0 u hs
      exact ⟨k, hx.waits hh u hs, ⟨_, _, 1, hnext, .leaving hs', by omega⟩, by omega⟩
  | executing =>
    have hidle : MemIdle s.core.memReg := hh.tracks.memReg
    have hs : memStallFlg s.core.memReg s.inputs = false := by
      simp only [memStallFlg, dmemRequest, hidle.wbSel]
      rfl
    obtain ⟨entered, hnext⟩ := hh.moves hc h0 u hs
    exact ⟨k, hx.moves hc hh h0 u hs, ⟨_, _, 2, hnext, .loading, by omega⟩, by omega⟩
  | decoding hinst hpc hnext =>
    obtain ⟨hrd, hs, hst⟩ := idle_flows hh.tracks s.inputs
    have T := cycle_issues hh.tracks (hh.sees hc h0) (codeIntact hc h0) hs hrd hst hinst hpc hnext
    exact ⟨k, hx.moves hc hh h0 u hs, ⟨_, _, 3, hh.next_of hc u T, .executing, by omega⟩, by omega⟩
  | fetching hid hpc hvalid =>
    obtain ⟨hrd, hs, hst⟩ := idle_flows hh.tracks s.inputs
    have T := cycle_fetches hh.tracks (hh.sees hc h0) (codeIntact hc h0) hs hrd hst hid hpc
    obtain ⟨hreg, hif⟩ := (hh.fetched_next hc h0 u hrd hst hpc).1 hvalid
    refine ⟨k, hx.moves hc hh h0 u hs, ⟨_, _, 4, hh.next_of hc u T, ?_, by omega⟩, by omega⟩
    exact .decoding (congrArg IdReg.inst hreg) (congrArg IdReg.pc hreg) fun _ => hif
  | addressing hid hpc =>
    obtain ⟨hrd, hs, hst⟩ := idle_flows hh.tracks s.inputs
    have T := cycle_fetches hh.tracks (hh.sees hc h0) (codeIntact hc h0) hs hrd hst hid hpc
    have hnext := hh.next_of hc u T
    cases hvalid : s.inputs.imemValid with
    | true =>
      obtain ⟨hreg, hif⟩ := (hh.fetched_next hc h0 u hrd hst hpc).1 hvalid
      refine ⟨k, hx.moves hc hh h0 u hs, ⟨_, _, 4, hnext, ?_, by omega⟩, by omega⟩
      exact .decoding (congrArg IdReg.inst hreg) (congrArg IdReg.pc hreg) fun _ => hif
    | false =>
      obtain ⟨hinst, hif, hvalid'⟩ := (hh.fetched_next hc h0 u hrd hst hpc).2 hvalid
      exact ⟨k, hx.moves hc hh h0 u hs,
        ⟨_, _, 5, hnext, .fetching (.inl hinst) hif hvalid', by omega⟩, by omega⟩

end Running

section FromReset
variable {regfile : Reg → Word} {mems : BitVec 2 → DualPortMemory 8}

theorem backs_reset (w : BitVec 30) : Backs (.reset regfile mems w) (image mems) := by
  constructor
  · intro addr haddr l
    have hlane := lane_toNat addr l
    have hl := l.isLt
    have hoffset : offset (lane addr l) = l := by
      refine BitVec.eq_of_toNat_eq ?_
      simp only [offset, BitVec.extractLsb'_toNat, Nat.shiftRight_zero]
      rw [hlane]
      omega
    have hin : (lane addr l).toNat < memSize := by
      unfold memSize at haddr ⊢
      omega
    have hword : (lane addr l).toNat / 4 = addr.toNat / 4 := by omega
    change (mems l).mem (memoryParams.cell addr) = _
    rw [image, if_pos hin, hoffset, hword, cell_eq haddr]
  · intro l
    have hbyte : byteAt (0 : Word) l.toNat = 0 := by
      revert l
      decide
    have hout : ¬ (lane 0xa0000000 l).toNat < memSize := by
      rw [lane_toNat, show (0xa0000000 : Word).toNat = 0xa0000000 from rfl]
      unfold memSize
      omega
    rw [image, if_neg hout]
    exact hbyte

theorem reaches_reset (e : Execution (archReset 0 regfile (image mems))) (w : BitVec 30) :
    Reaches e 0 0 (.reset regfile mems w) [] := by
  have hstart := e.start
  have hmem : (e.state 0).mem = image mems := by
    rw [hstart]
    rfl
  refine ⟨rfl, ⟨false, false, 6, ⟨?_, ?_, ?_, ?_⟩, .addressing (.inr rfl) ?_, by omega⟩,
    Nat.le_refl 0⟩
  · rw [hmem]
    exact tracks_reset 0 regfile (image mems) e
  · rw [hmem]
    exact backs_reset w
  · intro hfirst
    cases hfirst
  · intro hvalid
    cases hvalid
  · rw [hstart]
    rfl

end FromReset

/-- **The core with its memory and its port runs the program.** From reset, with any image of the
memory and any contents of the register file, whatever the memory leaves undefined: at every
clock the registers, the CSRs, the memory and the pins of the port are those of the reference
after its first `k` instructions, and what was shown on the way are their events. No instruction
takes more than six clocks. -/
theorem program_runs (regfile : Reg → Word) (mems : BitVec 2 → DualPortMemory 8) (w : BitVec 30)
    (e : Execution (archReset 0 regfile (image mems))) (hc : Confined e)
    (u : ℕ → BitVec 2 → Undefined 8) (t : ℕ) :
    let s := machine.run (.reset regfile mems w) u t
    ∃ k, t / 6 ≤ k ∧ k ≤ t ∧
      machine.trace (.reset regfile mems w) u t ++ writeBackEvents (wbWrite s.core.wbReg) =
        e.trace k ∧
      (∀ r, r ≠ 0 → regfileNext s.core r = (e.state k).reg r) ∧
      plainCsrs s.core.csrs = (e.state k).csrs ∧
      s.gpio.out = readWord (e.state k).mem 0xa0000000 ∧
      ∀ addr, addr.toNat < memSize →
        (s.memory.mems (offset addr)).mem (addr.toNat / 4) = (e.state k).mem addr := by
  intro s
  have h : ∃ k, Reaches e k t s (machine.trace (.reset regfile mems w) u t) := by
    induction t with
    | zero => exact ⟨0, reaches_reset e w⟩
    | succ t ih =>
      obtain ⟨k, hk⟩ := ih
      exact hk.next hc rfl (u t)
  obtain ⟨k, hshown, ⟨inMem, inExe, r, hh, hdue, htime⟩, hslow⟩ := h
  have hr := hdue.bounds
  refine ⟨k, by omega, hslow, hshown, hh.tracks.regs, hh.tracks.csrs, ?_, fun addr haddr => ?_⟩
  · rw [← busWord_word (e.state k).mem rfl]
    exact hh.backs.word ⟨Nat.le_refl _, by decide⟩
  · have hcell := hh.backs.memory addr haddr (offset addr)
    rwa [cell_eq haddr, lane_offset] at hcell

section ShowAndStop

/-- SW x1, 0(x2) and JAL x0, 0. -/
def showAndStop (l : BitVec 2) : DualPortMemory 8 where
  mem cell := if cell = 0 then byteAt 0x00112023 l.toNat
    else if cell = 1 then byteAt 0x6f l.toNat else 0
  dataA := 0
  dataB := 0

def showAndStopRegs (r : Reg) : Word := if r = 1 then 42 else if r = 2 then 0xa0000000 else 0

def shownBytes : List (Word × Byte) :=
  [(0xa0000000, 42), (0xa0000001, 0), (0xa0000002, 0), (0xa0000003, 0)]

def stopped : ArchState :=
  ⟨4, showAndStopRegs, fun _ => 0, writeBytes (image showAndStop) shownBytes⟩

def showAndStopExecution : Execution (archReset 0 showAndStopRegs (image showAndStop)) where
  state n := if n = 0 then archReset 0 showAndStopRegs (image showAndStop) else stopped
  outcome n :=
    if n = 0 then { nextPc := 4, access := some (.store shownBytes) } else { nextPc := 4 }
  start := rfl
  defined n := by
    have hstart : (archReset 0 showAndStopRegs (image showAndStop)).outcome =
        some { nextPc := 4, access := some (.store shownBytes) } := by decide +kernel
    have hstop : stopped.outcome = some { nextPc := 4 } := by decide +kernel
    split
    · exact hstart
    · exact hstop
  next n := by
    rw [if_neg (Nat.succ_ne_zero n)]
    split <;> rfl

theorem showAndStop_pc (n : ℕ) : (showAndStopExecution.state n).pc.toNat ≤ 4 := by
  cases n with
  | zero => exact Nat.zero_le _
  | succ n => exact Nat.le_refl _

theorem showAndStop_access {n : ℕ} {access : Access}
    (h : (showAndStopExecution.outcome n).access = some access) : access = .store shownBytes := by
  cases n with
  | zero => exact (Option.some.inj h).symm
  | succ n => cases h

theorem shownBytes_line : ∀ b ∈ shownBytes, b.1.toNat / 4 = 0x28000000 := by
  simp [shownBytes]

theorem showAndStop_confined : Confined showAndStopExecution where
  fetches n := by
    have hpc := showAndStop_pc n
    unfold memSize
    omega
  loads n addr data h := by
    have haccess := showAndStop_access h
    cases haccess
  stores n bytes h := by
    have haccess := showAndStop_access h
    cases haccess
    intro b hb _
    have hline := shownBytes_line b hb
    unfold inOut
    rw [show gpioRange.start = 0xa0000000 from rfl]
    omega
  code n bytes h := by
    have haccess := showAndStop_access h
    cases haccess
    intro b hb j
    have hpc := showAndStop_pc j
    have hline := shownBytes_line b hb
    omega

theorem program_runs_showAndStop :
    (machine.run (.reset showAndStopRegs showAndStop 0) (fun _ _ => ⟨0, 0, 0⟩) 6).gpio.out = 42 := by
  obtain ⟨k, hk, -, -, -, -, hout, -⟩ := program_runs showAndStopRegs showAndStop 0
    showAndStopExecution showAndStop_confined (fun _ _ => ⟨0, 0, 0⟩) 6
  obtain ⟨j, rfl⟩ : ∃ j, k = j + 1 := ⟨k - 1, by omega⟩
  have hshown : readWord stopped.mem 0xa0000000 = 42 := by decide +kernel
  rw [hout]
  exact hshown

end ShowAndStop

end SeccampRiscvCpu.TopSystem
