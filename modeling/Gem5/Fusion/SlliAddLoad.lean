import Gem5.Fusion.Exec
import Gem5.Decode.Fuse

/-!
# Shift-add-load fusion

`SlliAddLoadFusionInst` computes the address of the load from the source of the shift and the other
source of the addition, and writes the destination of the load only.  So the shifted value is never
written to the destination of the shift, and an addition of the shifted value to itself is taken for
an addition of the old register.
-/

namespace Gem5
open FusionInst Inst Bytes Opcode SlliAddLdCreator List

/-! ### The three in order -/

variable {op : Opcode} {b l a : ScalarInst} {n : ℕ} {x y z : Inst}

theorem result_slli (h : deCompress op = .slli) (imm : ℤ) (pc : Addr) (x : RegVal) :
    op.result imm pc [x] = x <<< imm.toNat := by
  rcases class_slli h with rfl | rfl <;> rfl

theorem result_add (h : deCompress op = .add) (imm : ℤ) (pc : Addr) (x y : RegVal) :
    op.result imm pc [x, y] = x + y := by
  rcases class_add h with rfl | rfl <;> rfl

theorem not_illegal_add (h : deCompress b.op = .add) : b.illegal = false := by
  rcases class_add h with hb | hb <;> simp [ScalarInst.illegal, hb, illegal]

theorem illegal_load (hop : op.bytes ≠ 0) {rd : Fin 32} {imm : ℤ} (h : op.illegal rd imm = true) :
    op.format = .loadSp ∧ rd = 0 := by
  cases op <;> simp_all [Opcode.bytes, Opcode.kind, Opcode.illegal, Opcode.format]

theorem not_illegal_of_self (hl : l.op.bytes ≠ 0) (hself : l.rd = l.base) : l.illegal = false := by
  by_contra h
  obtain ⟨hf, hrd⟩ := illegal_load hl (Bool.not_eq_false _ ▸ h : l.illegal = true)
  rw [ScalarInst.base, if_pos hf, hrd] at hself
  exact absurd hself (by decide)

theorem exists_mem_loaded_ne {i : Inst} (h : i.IsLoad l n) {x y : Addr} (hxy : x ≠ y) :
    ∃ mem : Mem, l.loaded (read mem x n) ≠ l.loaded (read mem y n) := by
  refine ⟨fun z => if z = x then 1 else 0, fun heq => ?_⟩
  obtain ⟨signed, hk⟩ := h.kind
  have hn : 0 < n := by rcases l.load_size hk with rfl | rfl | rfl | rfl <;> omega
  have hbytes := (h.loaded_inj (by simp) (by simp)).1 heq
  have hhead := congrArg head? hbytes
  rw [head?_read _ _ hn, head?_read _ _ hn] at hhead
  simp [hxy.symm] at hhead

section
variable {first second third : Inst} {a b l : ScalarInst} {n memsize : ℕ}
  {feed : first.destRegIdx 0 = second.srcRegIdx 0 ∨ first.destRegIdx 0 = second.srcRegIdx 1}
  {base : second.destRegIdx 0 = third.srcRegIdx 1}
  {self : third.destRegIdx 0 = third.srcRegIdx 0}

structure IsTriple (first second third : Inst) (a b l : ScalarInst) (n : ℕ) : Prop where
  slli : first.staticInst = .scalar a
  slli_op : deCompress a.op = .slli
  shamt : 1 ≤ a.imm ∧ a.imm ≤ 8
  add : second.staticInst = .scalar b
  add_op : deCompress b.op = .add
  load : third.IsLoad l n

section
variable (h : IsTriple first second third a b l n)
include h

theorem IsTriple.isAlu_slli : first.IsAlu a :=
  ⟨h.slli, by rcases class_slli h.slli_op with ha | ha <;> rw [ha] <;> rfl⟩

theorem IsTriple.isAlu_add : second.IsAlu b :=
  ⟨h.add, by rcases class_add h.add_op with hb | hb <;> rw [hb] <;> rfl⟩

theorem IsTriple.srcRegs_slli : a.srcRegs = [intReg a.src₁] := srcRegs_unary (by simp [h.slli_op])

theorem IsTriple.srcRegs_add : b.srcRegs = [intReg b.src₁, intReg b.rs2] :=
  srcRegs_binary (by simp [h.add_op])

theorem IsTriple.layout
    (feed : first.destRegIdx 0 = second.srcRegIdx 0 ∨ first.destRegIdx 0 = second.srcRegIdx 1)
    (base : second.destRegIdx 0 = third.srcRegIdx 1)
    (self : third.destRegIdx 0 = third.srcRegIdx 0) :
    (b.src₁ = a.rd ∨ b.rs2 = a.rd) ∧ l.rd = b.rd ∧ l.base = b.rd := by
  have h₀ : second.srcRegIdx 0 = intReg b.src₁ := by
    simp [srcRegIdx, srcRegs_scalar h.add, h.srcRegs_add]
  have h₁ : second.srcRegIdx 1 = intReg b.rs2 := by
    simp [srcRegIdx, srcRegs_scalar h.add, h.srcRegs_add]
  rw [h₀, h₁, h.isAlu_slli.destRegIdx, intReg_inj, intReg_inj] at feed
  rw [h.isAlu_add.destRegIdx, h.load.srcRegIdx_one, intReg_inj] at base
  rw [h.load.destRegIdx, h.load.srcRegIdx_zero, intReg_inj] at self
  exact ⟨feed.imp Eq.symm Eq.symm, base.symm, self.symm.trans base.symm⟩

theorem IsTriple.legal_load (hrd : l.rd = b.rd) (hbase : l.base = b.rd) : l.illegal = false := by
  obtain ⟨signed, hk⟩ := h.load.kind
  refine not_illegal_of_self ?_ (hrd.trans hbase.symm)
  rw [h.load.bytes]
  rcases l.load_size hk with rfl | rfl | rfl | rfl <;> decide
end

def fusedBase (a b : ScalarInst) (regs : RegId → RegVal) : RegVal :=
  (readReg regs (intReg a.src₁) <<< a.imm.toNat) + readReg regs (intReg (otherSrc a b))

theorem FusionInst.slliAddLoad_computes (alu : AluSem) (name : String) (op : OpClass)
    (h : IsTriple first second third a b l n) :
    (slliAddLoad n name op first second third feed base self).Computes alu fun s =>
      .ok { s with
        regs := writeReg s.regs (intReg l.rd)
          (l.loaded (read s.mem (l.effAddr (fusedBase a b s.regs)) n))
        npc := third.getNPC } := by
  intro st st' o pf s hpf hren
  obtain ⟨v, ds, hv, rfl⟩ := FusionInst.renameInst_one rfl hren
  rw [h.load.destRegIdx] at hv
  obtain ⟨-, hrd, hbase⟩ := h.layout feed base self
  have hlegal := h.legal_load hrd hbase
  have hs₀ : first.srcRegIdx 0 = intReg a.src₁ := by
    simp [srcRegIdx, srcRegs_scalar h.slli, h.srcRegs_slli]
  have hs₁ : second.srcRegIdx (baseSrcIdx first second) = intReg (otherSrc a b) := by
    have h₀ : second.srcRegIdx 0 = intReg b.src₁ := by
      simp [srcRegIdx, srcRegs_scalar h.add, h.srcRegs_add]
    simp only [baseSrcIdx, h₀, h.isAlu_slli.destRegIdx, intReg_inj, otherSrc]
    split <;> simp [srcRegIdx, srcRegs_scalar h.add, h.srcRegs_add]
  simp only [run, initiateAcc, srcRegs, hs₀, hs₁, Operands.src, map_cons, getElem?_cons_zero,
    getElem?_cons_succ, bind, Except.bind, hpf a.src₁, hpf (otherSrc a b)]
  simp only [completeAcc, Operands.dest, getElem?_cons_zero, bind, Except.bind,
    h.load.completeAcc v pf (length_read _ _ _), hlegal]
  rw [getImm_scalar h.slli, getImm_scalar h.load.static]
  exact ⟨hpf.setReg_rename hv _, rfl⟩

theorem IsTriple.execInOrder (h : IsTriple first second third a b l n) (hrd : l.rd = b.rd)
    (hbase : l.base = b.rd) (ha : a.illegal = false) (s : ArchState) :
    execInOrder result [first, second, third] s =
      let x := readReg s.regs (intReg a.src₁) <<< a.imm.toNat
      let regs₁ := writeReg s.regs (intReg a.rd) x
      let y := readReg regs₁ (intReg b.src₁) + readReg regs₁ (intReg b.rs2)
      let regs₂ := writeReg regs₁ (intReg b.rd) y
      .ok { s with
        regs := writeReg regs₂ (intReg b.rd)
          (l.loaded (read s.mem (l.effAddr (readReg regs₂ (intReg b.rd))) n))
        npc := third.getNPC } := by
  have hl := h.legal_load hrd hbase
  simp only [Gem5.execInOrder, h.isAlu_slli.exec, h.isAlu_add.exec, h.load.exec, ha, hl,
    not_illegal_add h.add_op, Bool.false_eq_true, if_false, h.srcRegs_slli, h.srcRegs_add,
    map_cons, map_nil, result_slli h.slli_op, result_add h.add_op, hrd, hbase]
end

/-! ### When the two agree -/

/-- The registers of the shift (`s` from `v`) and of the addition (`d` from `p` and `q`) for which
the fused triple does what the three do: the shifted value is overwritten by the load and is added
once, or it is zero and is dropped. -/
def TripleSafe (s v d p q : Fin 32) : Prop :=
  (s = d ∧ (d = 0 ∨ ¬(p = s ∧ q = s))) ∨ (s = 0 ∧ v = 0)

section
variable {s v d p q : Fin 32}

/-- The fused triple and the three leave the same in register `n`. -/
def TripleSame (s v d p q : Fin 32) (k : ℕ) (regs : RegId → RegVal) (load : RegVal → RegVal)
    (n : Fin 32) : Prop :=
  let x := readReg regs (intReg v) <<< k
  let regs₁ := writeReg regs (intReg s) x
  let y := readReg regs₁ (intReg p) + readReg regs₁ (intReg q)
  let regs₂ := writeReg regs₁ (intReg d) y
  readReg (writeReg regs (intReg d)
      (load (x + readReg regs (intReg (if p = s then q else p))))) (intReg n) =
    readReg (writeReg regs₂ (intReg d) (load (readReg regs₂ (intReg d)))) (intReg n)

theorem TripleSafe.regs_eq (h : TripleSafe s v d p q) (hfeed : p = s ∨ q = s) (k : ℕ)
    (regs : RegId → RegVal) (load : RegVal → RegVal) (n : Fin 32) :
    TripleSame s v d p q k regs load n := by
  unfold TripleSame
  intro x regs₁ y regs₂
  simp only [regs₂, y, regs₁, readReg_writeReg_int]
  rcases h with ⟨rfl, hd⟩ | ⟨rfl, rfl⟩
  · by_cases hs : s = 0
    · by_cases hn : n = s <;> simp [hs, hn]
    · have hpq : ¬(p = s ∧ q = s) := hd.resolve_left hs
      by_cases hn : n = s
      · subst hn
        by_cases hp : p = n
        · have hq : q ≠ n := fun hq => hpq ⟨hp, hq⟩
          simp [hs, hp, hq]
        · have hq : q = n := hfeed.resolve_left hp
          simp [hs, hp, hq, add_comm]
      · simp [hn]
  · have hx : x = 0 := by simp [x]
    by_cases hn : n = d ∧ n ≠ 0
    · obtain ⟨rfl, hn⟩ := hn
      by_cases hp : p = 0
      · simp [hn, hp, hx]
      · have hq : q = 0 := hfeed.resolve_left hp
        simp [hn, hp, hq, hx]
    · simp [hn]

theorem tripleSafe_of_regs_eq {i : Inst} {l : ScalarInst} {bytes : ℕ} (hl : i.IsLoad l bytes)
    (hfeed : p = s ∨ q = s) {k : ℕ} (hk : 1 ≤ k ∧ k ≤ 8)
    (h : ∀ (mem : Mem) (n : Fin 32), TripleSame s v d p q k (fun _ => 1)
      (fun b => l.loaded (read mem (l.effAddr b) bytes)) n) : TripleSafe s v d p q := by
  have hshift : (1 : RegVal) <<< k ≠ 0 ∧ (1 : RegVal) <<< k ≠ 1 := by
    obtain ⟨h₁, h₈⟩ := hk
    interval_cases k <;> decide
  -- different bases are told apart by some memory
  have hbase {x y : RegVal} (hxy : x ≠ y) : ∃ mem : Mem,
      l.loaded (read mem (l.effAddr x) bytes) ≠
        l.loaded (read mem (l.effAddr y) bytes) :=
    exists_mem_loaded_ne hl fun heq => hxy (by simpa [ScalarInst.effAddr] using heq)
  simp only [TripleSame, readReg_writeReg_int, readReg_const] at h
  generalize hx : (if v = 0 then (0 : RegVal) else 1) <<< k = x at h
  have hx₁ : x ≠ 1 := by
    rw [← hx]
    by_cases hv : v = 0
    · simp [hv]
    · simpa [hv] using hshift.2
  by_contra hsafe
  rw [TripleSafe, not_or] at hsafe
  obtain ⟨hA, hB⟩ := hsafe
  by_cases hs : s = 0
  · -- the shift is dropped, but the fused address has it
    have hv : v ≠ 0 := fun hv => hB ⟨hs, hv⟩
    have hd : d ≠ 0 := fun hd => hA ⟨hs.trans hd.symm, .inl hd⟩
    have hx₀ : x ≠ 0 := by rw [← hx]; simpa [hv] using hshift.1
    obtain ⟨mem, hmem⟩ := hbase (x := x + if (if p = s then q else p) = 0 then 0 else 1)
      (y := (if p = 0 then 0 else 1) + if q = 0 then 0 else 1) (by
        by_cases hp : p = 0
        · simpa [hs, hp] using hx₀
        · have hq : q = 0 := hs ▸ hfeed.resolve_left (hs ▸ hp)
          simpa [hs, hp, hq] using hx₀)
    refine hmem ?_
    simpa [hs, hd] using h mem d
  · by_cases hsd : s = d
    · -- the shifted value is added to itself
      subst hsd
      obtain ⟨hp, hq⟩ : p = s ∧ q = s := by
        by_contra hpq
        exact hA ⟨rfl, .inr hpq⟩
      obtain ⟨mem, hmem⟩ := hbase (x := x + 1) (y := x + x) (by simpa using hx₁.symm)
      refine hmem ?_
      simpa [hs, hp, hq] using h mem s
    · -- the fused instruction does not write the shifted value
      have := h (fun _ => 0) s
      simp [hs, hsd] at this
      exact hx₁ this.symm
end

/-- **When shift-add-load fusion preserves meaning.** -/
theorem FusionInst.slliAddLoad_preserves_iff {first second third : Inst}
    (h : IsTriple first second third a b l n) (name : String) (op : OpClass)
    {feed : first.destRegIdx 0 = second.srcRegIdx 0 ∨ first.destRegIdx 0 = second.srcRegIdx 1}
    {base : second.destRegIdx 0 = third.srcRegIdx 1}
    {self : third.destRegIdx 0 = third.srcRegIdx 0} :
    (slliAddLoad n name op first second third feed base self).Preserves
      result ↔ a.illegal = false ∧ TripleSafe a.rd a.src₁ b.rd b.src₁ b.rs2 := by
  obtain ⟨hfeed, hrd, hbase⟩ := h.layout feed base self
  rw [(slliAddLoad_computes result name op h).preserves_iff]
  simp only [parts]
  constructor
  · intro hsame
    have ha : a.illegal = false := by
      cases ha : a.illegal with
      | false => rfl
      | true =>
        have := hsame ⟨fun _ => 0, fun _ => 0, ⟨fun _ _ => 0, fun _ => 0⟩, 0⟩
        simp only [execInOrder, h.isAlu_slli.exec, ha] at this
        exact this.elim
    refine ⟨ha, tripleSafe_of_regs_eq h.load hfeed (k := a.imm.toNat) ?_ fun mem m => ?_⟩
    · have := h.shamt
      omega
    · have := hsame ⟨fun _ => 1, mem, ⟨fun _ _ => 0, fun _ => 0⟩, 0⟩
      rw [h.execInOrder hrd hbase ha, hrd] at this
      exact this.1 m
  · rintro ⟨ha, hsafe⟩ s
    rw [h.execInOrder hrd hbase ha, hrd]
    exact ⟨hsafe.regs_eq hfeed a.imm.toNat s.regs
      fun x => l.loaded (read s.mem (l.effAddr x) n), rfl⟩

theorem SlliAddLdCreator.create_eq_some {c : SlliAddLdCreator} {f : FusionInst}
    (hlook : lookup3 x y z = some c) (hf : c.create x y z = .ok (some f)) :
    ∃ a b l n feed base self, IsTriple x y z a b l n ∧
      f = .slliAddLoad n c.name z.opClass x y z feed base self := by
  obtain ⟨a, b, l, hx, hy, hz, hslli, hshamt, hadd, hbytes, hsize⟩ := lookup3_row hlook
  unfold create at hf
  split_ifs at hf
  · split at hf
    · cases hf
    · rename_i g hg
      cases hf
      simp only [newSlliAddLoad] at hg
      split_ifs at hg with hfeed hbase hself
      cases hg
      rw [hsize]
      exact ⟨a, b, l, l.op.bytes, hfeed, hbase, hself,
        ⟨hx, hslli, hshamt, hy, hadd, isLoad_of_bytes hz hbytes⟩, rfl⟩
  · cases hf

/-! ### The triples that decode fuses -/

/-- The condition on the operands of the shift `x` and the addition `y`. -/
def TripleHolds (x y : Inst) : Prop :=
  ¬(x.typeid = some .cSlli ∧ x.destRegIdx 0 = RegId.invalid) ∧
    ((x.destRegIdx 0 = y.destRegIdx 0 ∧
        (y.destRegIdx 0 = RegId.invalid ∨
          ¬(y.srcRegIdx 0 = x.destRegIdx 0 ∧ y.srcRegIdx 1 = x.destRegIdx 0))) ∨
      (x.destRegIdx 0 = RegId.invalid ∧ x.srcRegIdx 0 = RegId.invalid))

instance (x y : Inst) : Decidable (TripleHolds x y) := inferInstanceAs (Decidable (_ ∧ _))

theorem illegal_slli (hop : deCompress a.op = .slli) (himm : 1 ≤ a.imm) :
    a.illegal = false ↔ ¬(a.op = .cSlli ∧ a.rd = 0) := by
  have h0 : a.imm ≠ 0 := by omega
  rcases class_slli hop with h | h <;> simp [ScalarInst.illegal, illegal, h, h0]

theorem tripleHolds_iff (h : IsTriple x y z a b l n) : TripleHolds x y ↔
      a.illegal = false ∧ TripleSafe a.rd a.src₁ b.rd b.src₁ b.rs2 := by
  have hx₀ : x.srcRegIdx 0 = intReg a.src₁ := by
    simp [srcRegIdx, srcRegs_scalar h.slli, h.srcRegs_slli]
  have hy₀ : y.srcRegIdx 0 = intReg b.src₁ := by
    simp [srcRegIdx, srcRegs_scalar h.add, h.srcRegs_add]
  have hy₁ : y.srcRegIdx 1 = intReg b.rs2 := by
    simp [srcRegIdx, srcRegs_scalar h.add, h.srcRegs_add]
  have hop : x.typeid = some a.op := by simp [typeid, StaticInst.typeid, h.slli]
  rw [illegal_slli h.slli_op h.shamt.1]
  simp only [TripleHolds, TripleSafe, hx₀, hy₀, hy₁, hop, h.isAlu_slli.destRegIdx,
    h.isAlu_add.destRegIdx, intReg_inj, intReg_eq_invalid, Option.some.injEq]

/-- **Triple fusion.**  A triple that decode fuses is executed as its three parts are in order
exactly when the shift and the addition meet `TripleHolds`. -/
theorem triple_preserves_iff {c : DecodeConfig} {vec vec' : List DynInst} {y : Inst}
    {pending pending' : List Inst} {d : DynInst}
    (h : checkAndFuseTriple c vec y pending = .ok (some (vec', d, pending'))) :
    ∃ x z f, vec = vec' ++ [.plain x] ∧ pending = z :: pending' ∧ d = .mkFused x z f ∧
      f.parts = [x, y, z] ∧ (f.Preserves Opcode.result ↔ TripleHolds x y) := by
  obtain ⟨x, z, creator, f, hvec, hpending, hlook, hf, rfl⟩ := checkAndFuseTriple_fused h
  obtain ⟨a, b, l, n, feed, base, self, htriple, rfl⟩ := create_eq_some hlook hf
  refine ⟨x, z, _, hvec, hpending, rfl, rfl, ?_⟩
  rw [slliAddLoad_preserves_iff htriple, tripleHolds_iff htriple]

/-- `slli x5, x6, 3` -/
def slliX5 : Inst := .fetched 0x80000000 1 (.scalar ⟨.slli, 5, 6, 0, 3, by decide⟩)

/-- `add x7, x5, x10` -/
def addX7 : Inst := .fetched 0x80000004 2 (.scalar ⟨.add, 7, 5, 10, 0, Opcode.immOk_zero _⟩)

/-- `add x5, x5, x10` -/
def addX5 : Inst := .fetched 0x80000004 2 (.scalar ⟨.add, 5, 5, 10, 0, Opcode.immOk_zero _⟩)

/-- `ld x7, 0(x7)` -/
def ldX7 : Inst := .fetched 0x80000008 3 (.scalar ⟨.ld, 7, 7, 0, 0, Opcode.immOk_zero _⟩)

/-- `ld x5, 0(x5)` -/
def ldX5 : Inst := .fetched 0x80000008 3 (.scalar ⟨.ld, 5, 5, 0, 0, Opcode.immOk_zero _⟩)

/-- A triple that writes one register all along is fused and preserved. -/
theorem sll3addld_preserves : ∃ d, checkAndFuseTriple .full [.plain slliX5] addX5 [ldX5] =
      .ok (some ([], d, [])) ∧ ∃ info f, d = .fused info f ∧ f.Preserves Opcode.result := by
  obtain ⟨d, hd⟩ : ∃ d, checkAndFuseTriple .full [.plain slliX5] addX5 [ldX5] =
      .ok (some ([], d, [])) := ⟨_, rfl⟩
  obtain ⟨x, z, f, hvec, -, rfl, -, hiff⟩ := triple_preserves_iff hd
  obtain rfl : slliX5 = x := by simpa using hvec
  exact ⟨_, hd, _, f, rfl, hiff.2 (by decide)⟩

/-- `slli x5, x6, 3`, `add x7, x5, x10`, `ld x7, 0(x7)` are fused, but `x5` keeps its old value. -/
theorem triple_not_preserves : ¬∀ (c : DecodeConfig) (vec vec' : List DynInst) (y : Inst)
    (pending pending' : List Inst) (info : DynInfo) (f : FusionInst),
    checkAndFuseTriple c vec y pending = .ok (some (vec', .fused info f, pending')) →
    f.Preserves Opcode.result := by
  intro hall
  obtain ⟨d, hd⟩ : ∃ d, checkAndFuseTriple .full [.plain slliX5] addX7 [ldX7] =
      .ok (some ([], d, [])) := ⟨_, rfl⟩
  obtain ⟨x, z, creator, f, hvec, -, hlook, hf, rfl⟩ := checkAndFuseTriple_fused hd
  obtain rfl : slliX5 = x := by simpa using hvec
  have hpres := hall _ _ _ _ _ _ _ f hd
  obtain ⟨a, b, l, n, feed, base, self, htriple, rfl⟩ := create_eq_some hlook hf
  rw [slliAddLoad_preserves_iff htriple, ← tripleHolds_iff htriple] at hpres
  exact absurd hpres (by decide)

end Gem5
