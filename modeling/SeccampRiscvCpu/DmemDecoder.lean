import SeccampRiscvCpu.DmemPort

/-!
# The decoder of the data bus

Every target sees the request, relative to the start of its range, if the address is in its
range, and nothing otherwise. The answer is that of the last target in whose range the
address is; with disjoint ranges there is at most one.
-/
namespace SeccampRiscvCpu.DmemDecoder
open ByteMemory CoreRegisters DmemPort

/-! ## Connections in a sequence -/

section
variable {α β : Type*} {selected : α → Bool} {value : α → β} {d : β} {l : List α}

/-- A wire with a default and a connection for each element; the last selected one wins. -/
def lastConnect (selected : α → Bool) (value : α → β) (d : β) (l : List α) : β :=
  l.foldl (fun r x => if selected x then value x else r) d

theorem lastConnect_none (h : ∀ x ∈ l, selected x = false) :
    lastConnect selected value d l = d := by
  induction l with
  | nil => rfl
  | cons x l ih =>
    rw [lastConnect, List.foldl_cons, h x List.mem_cons_self, if_neg Bool.false_ne_true]
    exact ih fun y hy => h y (List.mem_cons_of_mem x hy)

/-- If all the selected elements have one value and there is one, the wire has it. -/
theorem lastConnect_eq {b : β} (h : ∀ x ∈ l, selected x = true → value x = b)
    (hex : ∃ x ∈ l, selected x = true) : lastConnect selected value d l = b := by
  induction l generalizing d with
  | nil =>
    obtain ⟨x, hx, -⟩ := hex
    cases hx
  | cons x l ih =>
    rw [lastConnect, List.foldl_cons]
    have htail : ∀ y ∈ l, selected y = true → value y = b :=
      fun y hy => h y (List.mem_cons_of_mem x hy)
    by_cases hl : ∃ y ∈ l, selected y = true
    · exact ih htail hl
    · obtain ⟨y, hy, hsel⟩ := hex
      have hyx : y = x := (List.mem_cons.mp hy).resolve_right fun hy => hl ⟨y, hy, hsel⟩
      subst hyx
      have hnone : ∀ z ∈ l, selected z = false :=
        fun z hz => Bool.eq_false_iff.mpr fun hsel => hl ⟨z, hz, hsel⟩
      rw [hsel, if_pos rfl]
      exact (lastConnect_none hnone).trans (h y List.mem_cons_self hsel)

end

/-! ## The decoder -/

structure AddressRange where
  start : ℕ
  length : ℕ
deriving DecidableEq, Repr

/-- `start.U <= addr && addr < (start + length).U` -/
def AddressRange.contains (r : AddressRange) (addr : Word) : Bool :=
  r.start ≤ addr.toNat && addr.toNat < r.start + r.length

/-- What a target with range `r` sees of a request. -/
def targetRequest (r : AddressRange) (q : DmemRequest) : DmemRequest :=
  if r.contains q.addr then
    { addr := q.addr - .ofNat 32 r.start, ren := q.ren, wen := q.wen, wstrb := q.wstrb
      wdata := q.wdata }
  else { addr := 0, ren := false, wen := false, wstrb := 0b1111, wdata := 0xdeadbeef }

/-- What the initiator sees of the targets' answers. -/
def respond (ranges : List AddressRange) (q : DmemRequest) (responses : ℕ → DmemResponse) :
    DmemResponse :=
  lastConnect (fun x => x.1.contains q.addr) (fun x => responses x.2) ⟨true, 0xdeadbeef⟩
    ranges.zipIdx

/-- No address is in two of the ranges. -/
def Disjoint (ranges : List AddressRange) : Prop :=
  ranges.Pairwise fun r r' => ∀ addr, r.contains addr = true → r'.contains addr = false

section
variable {ranges : List AddressRange} {r : AddressRange} {q : DmemRequest}
  {responses : ℕ → DmemResponse}

theorem contains_iff {addr : Word} :
    r.contains addr = true ↔ r.start ≤ addr.toNat ∧ addr.toNat < r.start + r.length := by
  rw [AddressRange.contains, Bool.and_eq_true, decide_eq_true_eq, decide_eq_true_eq]

theorem disjoint_of_sorted (h : ranges.Pairwise fun r r' => r.start + r.length ≤ r'.start) :
    Disjoint ranges := by
  refine h.imp fun {r r'} hle addr hr => Bool.eq_false_iff.mpr fun hr' => ?_
  rw [contains_iff] at hr hr'
  omega

theorem targetRequest_contains (h : r.contains q.addr = true) :
    targetRequest r q = { q with addr := q.addr - .ofNat 32 r.start } := by
  rw [targetRequest, if_pos h]

theorem targetRequest_other (h : r.contains q.addr = false) :
    (targetRequest r q).ren = false ∧ (targetRequest r q).wen = false := by
  rw [targetRequest, h]
  exact ⟨rfl, rfl⟩

theorem relative_toNat (h : r.contains q.addr = true) :
    (targetRequest r q).addr.toNat = q.addr.toNat - r.start := by
  rw [targetRequest_contains h]
  rw [contains_iff] at h
  have hlt := q.addr.isLt
  have hstart : (BitVec.ofNat 32 r.start).toNat = r.start := by
    rw [BitVec.toNat_ofNat, Nat.mod_eq_of_lt (by omega)]
  have hle : BitVec.ofNat 32 r.start ≤ q.addr := by
    rw [BitVec.le_def, hstart]
    exact h.1
  rw [BitVec.toNat_sub_of_le hle, hstart]

theorem respond_none (h : ∀ r ∈ ranges, r.contains q.addr = false) :
    respond ranges q responses = ⟨true, 0xdeadbeef⟩ := by
  refine lastConnect_none fun x hx => h x.1 ?_
  exact List.fst_mem_of_mem_zipIdx hx

/-- The range of an address in disjoint ranges is unique. -/
theorem Disjoint.index_eq (h : Disjoint ranges) {addr : Word} {i j : ℕ} {r r' : AddressRange}
    (hi : ranges[i]? = some r) (hj : ranges[j]? = some r') (hr : r.contains addr = true)
    (hr' : r'.contains addr = true) : i = j := by
  obtain ⟨hilt, rfl⟩ := List.getElem?_eq_some_iff.mp hi
  obtain ⟨hjlt, rfl⟩ := List.getElem?_eq_some_iff.mp hj
  have hpairs := List.pairwise_iff_getElem.mp h
  rcases Nat.lt_trichotomy i j with hlt | heq | hgt
  · exact absurd (hpairs i j hilt hjlt hlt addr hr) (by rw [hr']; decide)
  · exact heq
  · exact absurd (hpairs j i hjlt hilt hgt addr hr') (by rw [hr]; decide)

theorem respond_contains (h : Disjoint ranges) {i : ℕ} (hi : ranges[i]? = some r)
    (hr : r.contains q.addr = true) : respond ranges q responses = responses i := by
  refine lastConnect_eq ?_ ⟨(r, i), List.mk_mem_zipIdx_iff_getElem?.mpr hi, hr⟩
  rintro ⟨r', j⟩ hj hr'
  exact congrArg responses
    (h.index_eq (List.mk_mem_zipIdx_iff_getElem?.mp hj) hi hr' hr)

end

end SeccampRiscvCpu.DmemDecoder
