import SeccampRiscvCpu.CorePipeline
import SeccampRiscvCpu.RiscvIsa

/-!
# One instruction through EX, MEM and WB

The registers an instruction occupies are computed by the core's own decode
and ALU from the architectural state it executes in. `Implements` says that
these registers carry out a given outcome of the reference: where they send the
fetch, what they do on the data bus, to the CSRs and to the register file. It
is proved for every listed instruction here, so that the pipeline's argument
never looks at an opcode.
-/
namespace SeccampRiscvCpu.CoreDatapath
open ByteMemory RiscvIsa CoreRegisters CoreDecode CorePipeline

section Table

/-- A pattern against the three format fields; only whole-word patterns need the word. -/
def matchesFields (p : BitPat) (op : BitVec 7) (f3 : BitVec 3) (f7 : BitVec 7) (w : Word) : Bool :=
  match p with
  | .opcode op' => op == op'
  | .funct3 f3' op' => op == op' && f3 == f3'
  | .funct7 f7' f3' op' => op == op' && f3 == f3' && f7 == f7'
  | .word v => w == v

def csignalsOf (op : BitVec 7) (f3 : BitVec 3) (f7 : BitVec 7) (w : Word) : CSignals :=
  ((csignalsTable.find? fun row => matchesFields row.1 op f3 f7 w).map Prod.snd).getD
    csignalsDefault

theorem csignals_fields (w : Word) :
    csignals w = csignalsOf (opcode w) (funct3 w) (funct7 w) w := by
  unfold csignals csignalsOf
  congr 3

def exeFunOf : AluOp → ExeFun
  | .add => .aluAdd
  | .sub => .aluSub
  | .sll => .aluSll
  | .slt => .aluSlt
  | .sltu => .aluSltu
  | .xor => .aluXor
  | .srl => .aluSrl
  | .sra => .aluSra
  | .or => .aluOr
  | .and => .aluAnd

def branchFunOf : BranchOp → ExeFun
  | .beq => .brBeq
  | .bne => .brBne
  | .blt => .brBlt
  | .bge => .brBge
  | .bltu => .brBltu
  | .bgeu => .brBgeu

def loadWidthOf : LoadOp → MemW
  | .lb => .b
  | .lh => .h
  | .lw => .w
  | .lbu => .bu
  | .lhu => .hu

def storeWidthOf : StoreOp → MemW
  | .sb => .b
  | .sh => .h
  | .sw => .w

def csrCmdOf : CsrOp → CsrCmd
  | .write => .w
  | .set => .s
  | .clear => .c

theorem csrCmdOf_ne (f : CsrOp) : csrCmdOf f ≠ .x ∧ csrCmdOf f ≠ .e := by
  cases f <;> decide

def csrSrcOf : CsrOperand → Op1Sel
  | .reg _ => .rs1
  | .imm _ => .imz

/-- The row of the decode table for each instruction of the reference. -/
def signalsOf : Instr → CSignals
  | .op f .. => ⟨exeFunOf f, .rs1, .rs2, .x, .s, .alu, .x, .x⟩
  | .opImm f .. => ⟨exeFunOf f, .rs1, .imi, .x, .s, .alu, .x, .x⟩
  | .lui .. => ⟨.aluAdd, .x, .imu, .x, .s, .alu, .x, .x⟩
  | .auipc .. => ⟨.aluAdd, .pc, .imu, .x, .s, .alu, .x, .x⟩
  | .jal .. => ⟨.aluAdd, .pc, .imj, .x, .s, .pc, .x, .x⟩
  | .jalr .. => ⟨.aluJalr, .rs1, .imi, .x, .s, .pc, .x, .x⟩
  | .branch f .. => ⟨branchFunOf f, .rs1, .rs2, .x, .x, .alu, .x, .x⟩
  | .load f .. => ⟨.aluAdd, .rs1, .imi, .x, .s, .mem, .x, loadWidthOf f⟩
  | .store f .. => ⟨.aluAdd, .rs1, .ims, .s, .x, .alu, .x, storeWidthOf f⟩
  | .csr f _ src _ => ⟨.aluCopy1, csrSrcOf src, .x, .x, .s, .csr, csrCmdOf f, .x⟩

variable {w : Word} {i : Instr}

/-- The instruction in `i` is built from the fields of `w`. -/
inductive Decoded (w : Word) : Instr → Prop
  | op (f : AluOp) : Decoded w (.op f (rd w) (rs1 w) (rs2 w))
  | opImm (f : AluOp) : Decoded w (.opImm f (rd w) (rs1 w) (immI w))
  | lui : Decoded w (.lui (rd w) (immU w))
  | auipc : Decoded w (.auipc (rd w) (immU w))
  | jal : Decoded w (.jal (rd w) (immJ w))
  | jalr : Decoded w (.jalr (rd w) (rs1 w) (immI w))
  | branch (f : BranchOp) : Decoded w (.branch f (rs1 w) (rs2 w) (immB w))
  | load (f : LoadOp) : Decoded w (.load f (rd w) (rs1 w) (immI w))
  | store (f : StoreOp) : Decoded w (.store f (rs1 w) (rs2 w) (immS w))
  | csrReg (f : CsrOp) (c : Csr) (h : csrOf (w.extractLsb' 20 12) = some c) :
      Decoded w (.csr f (rd w) (.reg (rs1 w)) c)
  | csrImm (f : CsrOp) (c : Csr) (h : csrOf (w.extractLsb' 20 12) = some c) :
      Decoded w (.csr f (rd w) (.imm (rs1 w)) c)

section Rows
variable {f3 : BitVec 3} {f7 : BitVec 7}

theorem regOp_row {f : AluOp} (h : regOp f7 f3 = some f) :
    csignalsOf 0x33 f3 f7 w = ⟨exeFunOf f, .rs1, .rs2, .x, .s, .alu, .x, .x⟩ := by
  unfold regOp at h
  split at h <;> cases h <;> rfl

theorem immOp_row {f : AluOp} (h : immOp f7 f3 = some f) :
    csignalsOf 0x13 f3 f7 w = ⟨exeFunOf f, .rs1, .imi, .x, .s, .alu, .x, .x⟩ := by
  unfold immOp at h
  split at h
  case h_2 =>
    split at h <;> cases h
    subst f7
    rfl
  case h_6 =>
    split at h
    · cases h
      subst f7
      rfl
    · split at h <;> cases h
      subst f7
      rfl
  case h_8 h0 h1 h2 h3 h4 h5 h6 =>
    have hf : f3 = 7 := by
      clear h
      revert f3
      decide
    cases h
    subst hf
    rfl
  all_goals cases h; rfl

theorem branchOp_row {f : BranchOp} (h : branchOp f3 = some f) :
    csignalsOf 0x63 f3 f7 w = ⟨branchFunOf f, .rs1, .rs2, .x, .x, .alu, .x, .x⟩ := by
  unfold branchOp at h
  split at h <;> cases h <;> rfl

theorem loadOp_row {f : LoadOp} (h : loadOp f3 = some f) :
    csignalsOf 0x03 f3 f7 w = ⟨.aluAdd, .rs1, .imi, .x, .s, .mem, .x, loadWidthOf f⟩ := by
  unfold loadOp at h
  split at h <;> cases h <;> rfl

theorem storeOp_row {f : StoreOp} (h : storeOp f3 = some f) :
    csignalsOf 0x23 f3 f7 w = ⟨.aluAdd, .rs1, .ims, .s, .x, .alu, .x, storeWidthOf f⟩ := by
  unfold storeOp at h
  split at h <;> cases h <;> rfl

theorem csrOp_row {r : Reg} {f : CsrOp × CsrOperand} (h : csrOp r f3 = some f) :
    csignalsOf 0x73 f3 f7 w = ⟨.aluCopy1, csrSrcOf f.2, .x, .x, .s, .csr, csrCmdOf f.1, .x⟩ ∧
      (f.2 = .reg r ∨ f.2 = .imm r) := by
  unfold csrOp at h
  split at h <;> cases h <;> exact ⟨rfl, by simp⟩

end Rows

theorem decode_spec (h : decode w = some i) : csignals w = signalsOf i ∧ Decoded w i := by
  rw [csignals_fields]
  unfold decode at h
  split at h
  case h_1 hop =>
    obtain ⟨f, hf, rfl⟩ := Option.map_eq_some_iff.mp h
    exact ⟨hop ▸ regOp_row hf, .op f⟩
  case h_2 hop =>
    obtain ⟨f, hf, rfl⟩ := Option.map_eq_some_iff.mp h
    exact ⟨hop ▸ immOp_row hf, .opImm f⟩
  case h_3 hop =>
    cases h
    exact ⟨hop ▸ rfl, .lui⟩
  case h_4 hop =>
    cases h
    exact ⟨hop ▸ rfl, .auipc⟩
  case h_5 hop =>
    cases h
    exact ⟨hop ▸ rfl, .jal⟩
  case h_6 hop =>
    split at h
    case isTrue hf =>
      cases h
      exact ⟨hop ▸ hf ▸ rfl, .jalr⟩
    case isFalse => contradiction
  case h_7 hop =>
    obtain ⟨f, hf, rfl⟩ := Option.map_eq_some_iff.mp h
    exact ⟨hop ▸ branchOp_row hf, .branch f⟩
  case h_8 hop =>
    obtain ⟨f, hf, rfl⟩ := Option.map_eq_some_iff.mp h
    exact ⟨hop ▸ loadOp_row hf, .load f⟩
  case h_9 hop =>
    obtain ⟨f, hf, rfl⟩ := Option.map_eq_some_iff.mp h
    exact ⟨hop ▸ storeOp_row hf, .store f⟩
  case h_10 hop =>
    obtain ⟨⟨f, src⟩, hf, h⟩ := Option.bind_eq_some_iff.mp h
    obtain ⟨c, hc, rfl⟩ := Option.map_eq_some_iff.mp h
    obtain ⟨hrow, hsrc | hsrc⟩ : csignalsOf 0x73 (funct3 w) (funct7 w) w = _ ∧ _ := csrOp_row hf
    · subst hsrc
      exact ⟨hop ▸ hrow, .csrReg f c hc⟩
    · subst hsrc
      exact ⟨hop ▸ hrow, .csrImm f c hc⟩
  case h_11 => contradiction

end Table

section Immediates
variable (w : Word)

/-- `Cat(Fill(k, sign), x)` is sign extension. -/
theorem fill_append {n k : ℕ} (x : BitVec n) (b : Bool) (hb : b = x.msb) :
    BitVec.fill k b ++ x = x.signExtend (k + n) := by
  subst hb
  ext i hi
  simp only [BitVec.getElem_append, BitVec.getElem_fill, BitVec.getElem_signExtend]

/-- The same with the zero bit that branch and jump distances end in. -/
theorem fill_append_zero {n k : ℕ} (x : BitVec n) (b : Bool) (hb : b = x.msb) (hn : n ≠ 0) :
    BitVec.fill k b ++ x ++ 0#1 = (x ++ 0#1).signExtend (k + n + 1) := by
  have hm : (x ++ 0#1).msb = x.msb := by
    rw [BitVec.msb_append]
    simp [hn]
  have h := fill_append (k := k) (x ++ 0#1) b (hb.trans hm.symm)
  rw [BitVec.append_assoc, h]
  rfl

theorem fill_false_append {n k : ℕ} (x : BitVec n) :
    BitVec.fill k false ++ x = x.setWidth (k + n) := by
  ext i hi
  rw [BitVec.getElem_append, BitVec.getElem_setWidth]
  split
  · exact (BitVec.getLsbD_eq_getElem ‹_›).symm
  · rw [BitVec.getElem_fill, BitVec.getLsbD_of_ge _ _ (by omega)]

theorem idImmISext_eq : idImmISext w = immI w :=
  fill_append (k := 20) _ _ (by simp [BitVec.msb_eq_getLsbD_last])

theorem idImmSSext_eq : idImmSSext w = immS w :=
  fill_append (k := 20) _ _ (BitVec.msb_eq_getLsbD_last _).symm

theorem idImmBSext_eq : idImmBSext w = immB w :=
  fill_append_zero (k := 19) (idImmB w) _ (BitVec.msb_eq_getLsbD_last _).symm (by decide)

theorem idImmJSext_eq : idImmJSext w = immJ w :=
  fill_append_zero (k := 11) (idImmJ w) _ (BitVec.msb_eq_getLsbD_last _).symm (by decide)

theorem idImmUShifted_eq : idImmUShifted w = immU w := rfl

theorem idImmZUext_eq : idImmZUext w = (rs1 w).setWidth 32 := fill_false_append (k := 27) (rs1 w)

end Immediates

section Operations
variable {e : ExeReg}

theorem exeAluOut_eq (f : AluOp) (h : e.exeFun = exeFunOf f) :
    exeAluOut e = f.eval e.op1Data e.op2Data := by
  have hs : (e.op2Data.extractLsb' 0 5).toNat = e.op2Data.toNat % 32 := by
    simp [BitVec.extractLsb'_toNat]
  unfold exeAluOut AluOp.eval
  cases f <;> simp only [h, exeFunOf, hs]
  · cases e.op1Data.slt e.op2Data <;> rfl
  · cases e.op1Data.ult e.op2Data <;> rfl

theorem exeAluOut_add (h : e.exeFun = .aluAdd) : exeAluOut e = e.op1Data + e.op2Data :=
  exeAluOut_eq .add h

theorem exeBranch_eq (f : BranchOp) (h : e.exeFun = branchFunOf f) :
    exeBranch e = f.taken e.op1Data e.op2Data := by
  unfold exeBranch BranchOp.taken
  cases f
  all_goals simp only [h, branchFunOf]
  rfl

/-- Only the branch codes of the ALU branch. -/
theorem exeBranch_alu (f : AluOp) (h : e.exeFun = exeFunOf f) : exeBranch e = false := by
  unfold exeBranch
  cases f <;> simp only [h, exeFunOf]

end Operations

section Bus
variable {m : Memory} {r : MemReg}

/-- The lane shift and the extension give the value the load names. -/
theorem memLoadData_eq (f : LoadOp) (hw : r.memW = loadWidthOf f)
    (ha : f.aligned r.aluOut = true) :
    memLoadData r (busWord m r.aluOut) = f.value m r.aluOut := by
  have hb := busWord_byte m r.aluOut
  unfold memLoadData LoadOp.value
  cases f <;> simp only [hw, loadWidthOf]
  all_goals simp only [LoadOp.aligned] at ha
  case lb =>
    rw [← hb]
    exact fill_append (k := 24) _ _ (by simp [BitVec.msb_eq_getLsbD_last])
  case lh =>
    rw [← busWord_half m (by simpa using ha)]
    exact fill_append (k := 16) _ _ (by simp [BitVec.msb_eq_getLsbD_last])
  case lw =>
    rw [beq_iff_eq] at ha
    rw [ha, busWord_word m ha]
    exact BitVec.ushiftRight_zero _
  case lbu =>
    rw [← hb]
    exact fill_false_append (k := 24) _
  case lhu =>
    rw [← busWord_half m (by simpa using ha)]
    exact fill_false_append (k := 16) _

/-- The bytes a request writes. -/
def requestBytes (q : DmemRequest) : List (Word × Byte) := strobedBytes q.addr q.wstrb q.wdata

theorem requestBytes_eq (e : ExeReg) (f : StoreOp) (hw : e.memW = storeWidthOf f)
    (ha : f.aligned (exeAluOut e) = true) :
    requestBytes (dmemRequest (exeMem e)) = f.bytes (exeAluOut e) e.rs2Data := by
  unfold requestBytes dmemRequest exeMem memWstrb StoreOp.bytes
  cases f <;> simp only [hw, storeWidthOf]
  all_goals simp only [StoreOp.aligned] at ha
  case sb => exact strobed_byte e.rs2Data (exeAluOut e)
  case sh => exact strobed_half e.rs2Data (by simpa using ha)
  case sw => exact strobed_word e.rs2Data (by simpa using ha)

end Bus

section ControlRegisters

/-- The six CSRs the reference knows. -/
def plainCsrs (c : Csrs) : Csr → Word
  | .mscratch => c.mscratch
  | .mtvec => c.trapVector
  | .mepc => c.mepc
  | .mcause => c.mcause
  | .mtval => c.mtval
  | .gpio => c.gpioOut

def csrAddrOf : Csr → BitVec 12
  | .mtvec => 0x305
  | .mscratch => 0x340
  | .mepc => 0x341
  | .mcause => 0x342
  | .mtval => 0x343
  | .gpio => 0x7c0

theorem csrOf_addr {a : BitVec 12} {c : Csr} (h : csrOf a = some c) : a = csrAddrOf c := by
  unfold csrOf at h
  split at h <;> cases h <;> rfl

theorem csrRdata_plain (c : Csrs) (i : Inputs) (n : Csr) :
    csrRdata c i (csrAddrOf n) = plainCsrs c n := by
  cases n <;> rfl

theorem csrWrite_none (c next : Csrs) (i : Inputs) {m : MemReg} (h : m.csrCmd = .x) :
    csrWrite c next i m = next := by
  unfold csrWrite
  rw [if_pos h]

theorem csrWrite_plain (c : Csrs) (i : Inputs) {m : MemReg} {n : Csr} (h : m.csrCmd ≠ .x)
    (ha : m.csrAddr = csrAddrOf n) :
    plainCsrs (csrWrite c c i m) =
      Function.update (plainCsrs c) n (csrWdata m (plainCsrs c n)) := by
  have hr := csrRdata_plain c i n
  unfold csrWrite
  rw [if_neg h, ha, hr]
  funext k
  cases n <;> cases k <;> rfl

end ControlRegisters

section Implements

/-- What WB will write for the instruction in MEM. -/
def memWriteBack (c : Csrs) (i : Inputs) (m : MemReg) : Option (Reg × Word) :=
  if m.rfWen = .s then toReg m.wbAddr (memWbData c i m) else none

/-- How an access of the reference shows in the registers of MEM. -/
inductive Accesses (mem : Memory) (m : MemReg) : Option Access → Prop
  | none : m.wbSel ≠ .mem → m.memWen = .x → Accesses mem m none
  | load : m.wbSel = .mem → m.memWen = .x → m.csrCmd = .x →
      Accesses mem m (some (.load m.aluOut (busWord mem m.aluOut)))
  | store : m.wbSel ≠ .mem → m.memWen = .s →
      Accesses mem m (some (.store (requestBytes (dmemRequest m))))

/-- The registers `e` of EX carry out the outcome `o` in the state `a`. -/
structure Implements (a : ArchState) (o : Outcome) (e : ExeReg) : Prop where
  pc : e.pc = a.pc
  mret : e.mret = false
  branch : exeBranch e = true → o.nextPc = e.pc + e.immBSext
  jump : exeBranch e = false → exeJmpFlg e = true → o.nextPc = exeAluOut e
  fallThrough : exeBranch e = false → exeJmpFlg e = false → o.nextPc = e.pc + 4
  access : Accesses a.mem (exeMem e) o.access
  csrWrite : ∀ c i, plainCsrs c = a.csrs →
    plainCsrs (csrWrite c c i (exeMem e)) = (a.commit o).csrs
  writeBack : ∀ c i, plainCsrs c = a.csrs →
    (e.wbSel = .mem → i.dmemRdata = busWord a.mem (exeAluOut e)) →
    memWriteBack c i (exeMem e) = o.writeBack

section Classes
variable {a : ArchState} {e : ExeReg}

theorem commit_csrs_none {o : Outcome} (h : o.csrWrite = none) : (a.commit o).csrs = a.csrs := by
  unfold ArchState.commit
  simp only [h]

/-- An instruction without a CSR command leaves the CSRs to EX. -/
theorem csrWrite_kept {o : Outcome} (he : e.csrCmd = .x) (ho : o.csrWrite = none) (c : Csrs)
    (i : Inputs) (hc : plainCsrs c = a.csrs) :
    plainCsrs (CorePipeline.csrWrite c c i (exeMem e)) = (a.commit o).csrs := by
  rw [csrWrite_none c c i (by exact he), commit_csrs_none ho, hc]

theorem memWriteBack_eq {c : Csrs} {i : Inputs} {v : Word} (hw : e.rfWen = .s)
    (hv : memWbData c i (exeMem e) = v) : memWriteBack c i (exeMem e) = toReg e.wbAddr v := by
  unfold memWriteBack
  rw [hv]
  exact if_pos hw

theorem memWriteBack_none {c : Csrs} {i : Inputs} (hw : e.rfWen = .x) :
    memWriteBack c i (exeMem e) = none := by
  have h : (exeMem e).rfWen ≠ .s := by
    simp [exeMem, hw]
  exact if_neg h

theorem implements_alu (f : AluOp) (hpc : e.pc = a.pc) (hm : e.mret = false)
    (hf : e.exeFun = exeFunOf f) (hs : e.wbSel = .alu) (hw : e.memWen = .x) (hr : e.rfWen = .s)
    (hc : e.csrCmd = .x) :
    Implements a
      { nextPc := a.pc + 4, writeBack := toReg e.wbAddr (f.eval e.op1Data e.op2Data) } e where
  pc := hpc
  mret := hm
  branch h := by
    rw [exeBranch_alu f hf] at h
    contradiction
  jump _ h := by
    simp [exeJmpFlg, hs] at h
  fallThrough _ _ := by rw [hpc]
  access := by
    apply Accesses.none
    · simp [exeMem, hs]
    · exact hw
  csrWrite := csrWrite_kept hc rfl
  writeBack c i _ _ := by
    apply memWriteBack_eq hr
    rw [← exeAluOut_eq f hf]
    simp only [memWbData, exeMem, hs]

/-- JAL and JALR: the link register gets the pc of the next word. -/
theorem implements_jump (hpc : e.pc = a.pc) (hm : e.mret = false) (hb : exeBranch e = false)
    (hs : e.wbSel = .pc) (hw : e.memWen = .x) (hr : e.rfWen = .s) (hc : e.csrCmd = .x) :
    Implements a { nextPc := exeAluOut e, writeBack := toReg e.wbAddr (a.pc + 4) } e where
  pc := hpc
  mret := hm
  branch h := by
    rw [hb] at h
    contradiction
  jump _ _ := rfl
  fallThrough _ h := by
    simp [exeJmpFlg, hs] at h
  access := by
    apply Accesses.none
    · simp [exeMem, hs]
    · exact hw
  csrWrite := csrWrite_kept hc rfl
  writeBack c i _ _ := by
    apply memWriteBack_eq hr
    simp only [memWbData, exeMem, hs, hpc]

theorem implements_branch (f : BranchOp) (hpc : e.pc = a.pc) (hm : e.mret = false)
    (hf : e.exeFun = branchFunOf f) (hs : e.wbSel = .alu) (hw : e.memWen = .x) (hr : e.rfWen = .x)
    (hc : e.csrCmd = .x) :
    Implements a
      { nextPc := if f.taken e.op1Data e.op2Data then a.pc + e.immBSext else a.pc + 4 } e where
  pc := hpc
  mret := hm
  branch h := by
    rw [exeBranch_eq f hf] at h
    rw [if_pos h, hpc]
  jump _ h := by
    simp [exeJmpFlg, hs] at h
  fallThrough h _ := by
    rw [exeBranch_eq f hf] at h
    rw [if_neg (by simp [h]), hpc]
  access := by
    apply Accesses.none
    · simp [exeMem, hs]
    · exact hw
  csrWrite := csrWrite_kept hc rfl
  writeBack c i _ _ := memWriteBack_none hr

theorem implements_load (f : LoadOp) (hpc : e.pc = a.pc) (hm : e.mret = false)
    (hf : e.exeFun = .aluAdd) (hs : e.wbSel = .mem) (hw : e.memWen = .x) (hr : e.rfWen = .s)
    (hc : e.csrCmd = .x) (hl : e.memW = loadWidthOf f)
    (ha : f.aligned (e.op1Data + e.op2Data) = true) :
    Implements a
      { nextPc := a.pc + 4
        access := some (.load (e.op1Data + e.op2Data) (busWord a.mem (e.op1Data + e.op2Data)))
        writeBack := toReg e.wbAddr (f.value a.mem (e.op1Data + e.op2Data)) } e := by
  rw [← exeAluOut_add hf] at ha ⊢
  exact {
    pc := hpc
    mret := hm
    branch := fun h => by
      rw [exeBranch_alu .add hf] at h
      contradiction
    jump := fun _ h => by
      simp [exeJmpFlg, hs] at h
    fallThrough := fun _ _ => by rw [hpc]
    access := Accesses.load hs hw hc
    csrWrite := csrWrite_kept hc rfl
    writeBack := fun c i _ hd => by
      apply memWriteBack_eq hr
      have h : memLoadData (exeMem e) (busWord a.mem (exeAluOut e)) =
          f.value a.mem (exeAluOut e) := memLoadData_eq f hl ha
      rw [← hd hs] at h
      rw [← h]
      simp only [memWbData, exeMem, hs] }

theorem implements_store (f : StoreOp) (hpc : e.pc = a.pc) (hm : e.mret = false)
    (hf : e.exeFun = .aluAdd) (hs : e.wbSel = .alu) (hw : e.memWen = .s) (hr : e.rfWen = .x)
    (hc : e.csrCmd = .x) (hl : e.memW = storeWidthOf f)
    (ha : f.aligned (e.op1Data + e.op2Data) = true) :
    Implements a
      { nextPc := a.pc + 4
        access := some (.store (f.bytes (e.op1Data + e.op2Data) e.rs2Data)) } e := by
  rw [← exeAluOut_add hf] at ha ⊢
  rw [← requestBytes_eq e f hl ha]
  exact {
    pc := hpc
    mret := hm
    branch := fun h => by
      rw [exeBranch_alu .add hf] at h
      contradiction
    jump := fun _ h => by
      simp [exeJmpFlg, hs] at h
    fallThrough := fun _ _ => by rw [hpc]
    access := by
      apply Accesses.store
      · simp [exeMem, hs]
      · exact hw
    csrWrite := csrWrite_kept hc rfl
    writeBack := fun c i _ _ => memWriteBack_none hr }

theorem and_not_zero (v : Word) : v &&& ~~~0#32 = v := by
  rw [BitVec.not_zero, BitVec.and_allOnes]

/-- Writing back the old value is the same as not writing. -/
theorem csrWdata_result (f : CsrOp) (src : CsrOperand) (old : Word) {m : MemReg}
    (hc : m.csrCmd = csrCmdOf f) (hv : m.op1Data = src.value a) :
    f.result src old (src.value a) = some (csrWdata m old) ∨
      f.result src old (src.value a) = none ∧ csrWdata m old = old := by
  unfold csrWdata
  rw [hc, hv]
  unfold CsrOp.result
  cases f <;> cases src <;> simp only [csrCmdOf, true_or]
  all_goals
    split
    next h =>
      subst h
      refine Or.inr ⟨rfl, ?_⟩
      first
        | exact BitVec.or_zero
        | exact and_not_zero old
    next => exact Or.inl rfl

theorem implements_csr (f : CsrOp) (src : CsrOperand) (n : Csr) (hpc : e.pc = a.pc)
    (hm : e.mret = false) (hf : e.exeFun = .aluCopy1) (hs : e.wbSel = .csr) (hw : e.memWen = .x)
    (hr : e.rfWen = .s) (hc : e.csrCmd = csrCmdOf f) (hn : e.csrAddr = csrAddrOf n)
    (hv : e.op1Data = src.value a) :
    Implements a
      { nextPc := a.pc + 4
        csrWrite := (f.result src (a.csrs n) (src.value a)).map (n, ·)
        writeBack := toReg e.wbAddr (a.csrs n) } e where
  pc := hpc
  mret := hm
  branch h := by
    simp [exeBranch, hf] at h
  jump _ h := by
    simp [exeJmpFlg, hs] at h
  fallThrough _ _ := by rw [hpc]
  access := by
    apply Accesses.none
    · simp [exeMem, hs]
    · exact hw
  csrWrite c i hpl := by
    have hx : (exeMem e).csrCmd ≠ .x := by
      simp only [exeMem, hc]
      exact (csrCmdOf_ne f).1
    rw [csrWrite_plain c i hx hn, hpl]
    unfold ArchState.commit
    obtain h | ⟨h, hold⟩ := csrWdata_result (m := exeMem e) f src (a.csrs n) hc hv
    · simp only [h, Option.map_some]
    · simp only [h, Option.map_none, hold, Function.update_eq_self]
  writeBack c i hpl _ := by
    apply memWriteBack_eq hr
    rw [← hpl, ← csrRdata_plain c i n, ← hn]
    simp only [memWbData, exeMem, hs]

end Classes

section Slots
variable {a : ArchState} {i : Instr}

/-- The word at the pc. -/
def fetched (a : ArchState) : Word := readWord a.mem a.pc

/-- The registers of EX while the instruction at the pc of `a` sits there. -/
def exeSlot (a : ArchState) : ExeReg :=
  decodeExe (fetched a) a.pc (a.reg (idRs1Addr (fetched a))) (a.reg (idRs2Addr (fetched a)))

/-- The operands of the reference behind the selectors of the decode table. -/
def operand1 (a : ArchState) : Op1Sel → Word
  | .rs1 => a.reg (rs1 (fetched a))
  | .pc => a.pc
  | .imz => (rs1 (fetched a)).setWidth 32
  | .x => 0

def operand2 (a : ArchState) : Op2Sel → Word
  | .rs2 => a.reg (rs2 (fetched a))
  | .imi => immI (fetched a)
  | .ims => immS (fetched a)
  | .imj => immJ (fetched a)
  | .imu => immU (fetched a)
  | .x => 0

theorem exeSlot_op1 {sel : Op1Sel} (h : (csignals (fetched a)).op1Sel = sel) :
    (exeSlot a).op1Data = operand1 a sel := by
  simp only [exeSlot, decodeExe, h, idImmZUext_eq]
  rfl

theorem exeSlot_op2 {sel : Op2Sel} (h : (csignals (fetched a)).op2Sel = sel) :
    (exeSlot a).op2Data = operand2 a sel := by
  simp only [exeSlot, decodeExe, h, idImmISext_eq, idImmSSext_eq, idImmJSext_eq, idImmUShifted_eq]
  rfl

theorem exeSlot_csrAddr {n : Csr} (h : (csignals (fetched a)).csrCmd ≠ .e)
    (hn : csrOf ((fetched a).extractLsb' 20 12) = some n) :
    (exeSlot a).csrAddr = csrAddrOf n := by
  simp only [exeSlot, decodeExe, if_neg h]
  exact csrOf_addr hn

theorem exeSlot_immB : (exeSlot a).immBSext = immB (fetched a) := idImmBSext_eq _

theorem exeSlot_mret (h : decode (fetched a) = some i) : (exeSlot a).mret = false := by
  simp only [exeSlot, decodeExe, beq_eq_false_iff_ne]
  intro hw
  rw [hw] at h
  contradiction

/-- The core's datapath carries out every instruction of the reference. -/
theorem exeSlot_implements {o : Outcome} (h : a.outcome = some o) :
    Implements a o (exeSlot a) := by
  obtain ⟨i, hi, h⟩ := Option.bind_eq_some_iff.mp h
  split at h
  case isFalse => contradiction
  case isTrue ha =>
  cases h
  change decode (fetched a) = some i at hi
  have hm := exeSlot_mret hi
  obtain ⟨hs, hd⟩ := decode_spec hi
  have hf := congrArg CSignals.exeFun hs
  have h1 := exeSlot_op1 (congrArg CSignals.op1Sel hs)
  have h2 := exeSlot_op2 (congrArg CSignals.op2Sel hs)
  have hw := congrArg CSignals.memWen hs
  have hr := congrArg CSignals.rfWen hs
  have hb := congrArg CSignals.wbSel hs
  have hc := congrArg CSignals.csrCmd hs
  have hl := congrArg CSignals.memW hs
  cases hd with
  | op f =>
      have h := implements_alu (e := exeSlot a) f rfl hm hf hb hw hr hc
      rw [h1, h2] at h
      exact h
  | opImm f =>
      have h := implements_alu (e := exeSlot a) f rfl hm hf hb hw hr hc
      rw [h1, h2] at h
      exact h
  | lui =>
      have h := implements_alu (e := exeSlot a) .add rfl hm hf hb hw hr hc
      change (exeSlot a).op1Data = 0 at h1
      change (exeSlot a).op2Data = immU (fetched a) at h2
      have hz : AluOp.add.eval 0 (immU (fetched a)) = immU (fetched a) := BitVec.zero_add _
      rw [h1, h2, hz] at h
      exact h
  | auipc =>
      have h := implements_alu (e := exeSlot a) .add rfl hm hf hb hw hr hc
      rw [h1, h2] at h
      exact h
  | jal =>
      have h := implements_jump (e := exeSlot a) rfl hm (exeBranch_alu .add hf) hb hw hr hc
      rw [exeAluOut_add hf, h1, h2] at h
      exact h
  | jalr =>
      have hbr : exeBranch (exeSlot a) = false := by
        unfold exeBranch
        have hf' : (exeSlot a).exeFun = .aluJalr := hf
        rw [hf']
      have hj : exeAluOut (exeSlot a) = ((exeSlot a).op1Data + (exeSlot a).op2Data) &&& ~~~1 := by
        unfold exeAluOut
        have hf' : (exeSlot a).exeFun = .aluJalr := hf
        rw [hf']
      have h := implements_jump (e := exeSlot a) rfl hm hbr hb hw hr hc
      rw [hj, h1, h2] at h
      exact h
  | branch f =>
      have h := implements_branch (e := exeSlot a) f rfl hm hf hb hw hr hc
      rw [h1, h2, exeSlot_immB] at h
      exact h
  | load f =>
      have h := implements_load (e := exeSlot a) f rfl hm hf hb hw hr hc hl
      rw [h1, h2] at h
      exact h ha
  | store f =>
      have h := implements_store (e := exeSlot a) f rfl hm hf hb hw hr hc hl
      rw [h1, h2] at h
      exact h ha
  | csrReg f n hn =>
      have hne : (csignals (fetched a)).csrCmd ≠ .e := by
        rw [hs]
        exact (csrCmdOf_ne f).2
      exact implements_csr (e := exeSlot a) f _ n rfl hm hf hb hw hr hc
        (exeSlot_csrAddr hne hn) h1
  | csrImm f n hn =>
      have hne : (csignals (fetched a)).csrCmd ≠ .e := by
        rw [hs]
        exact (csrCmdOf_ne f).2
      exact implements_csr (e := exeSlot a) f _ n rfl hm hf hb hw hr hc
        (exeSlot_csrAddr hne hn) h1

end Slots

end Implements

end SeccampRiscvCpu.CoreDatapath
