import Gem5.Fusion.Exec
import Gem5.Decode.Fuse

/-!
# Multiply-add fusion

`MaccFusionInst` runs the multiplication into the temporary and the addition into the destination of
the addition.  The product never reaches the destination of the multiplication, a product that `x0`
drops is still added, and a pair whose addition reads the product twice passes the check of the
table but not the constructor.
-/

namespace Gem5
open List FusionInst FuseCreator Opcode Inst FusionKey

/-! ### The two in order -/

section
variable {op : Opcode}

theorem kind_mul (h : deCompress op ∈ [.mul, .mulw]) : op.kind = .alu := by
  rcases class_mul h with rfl | rfl | rfl <;> rfl

theorem kind_addw (h : deCompress op ∈ [.add, .addw]) : op.kind = .alu := by
  rcases class_addw h with rfl | rfl | rfl | rfl <;> rfl

section
variable (h : deCompress op ∈ [.mul, .mulw]) (imm : ℤ) (pc : Addr)
include h

theorem result_mul_zero_left (y : RegVal) : op.result imm pc [0, y] = 0 := by
  rcases class_mul h with rfl | rfl | rfl <;> simp [result]

theorem result_mul_zero_right (x : RegVal) : op.result imm pc [x, 0] = 0 := by
  rcases class_mul h with rfl | rfl | rfl <;> simp [result]

theorem result_mul_two : op.result imm pc [2, 2] = 4 := by
  rcases class_mul h with rfl | rfl | rfl <;> simp only [result] <;> decide
end

theorem result_add_four (h : deCompress op ∈ [.add, .addw]) (imm : ℤ) (pc : Addr) :
    op.result imm pc [4, 2] ≠ op.result imm pc [0, 2] ∧
      op.result imm pc [2, 4] ≠ op.result imm pc [2, 0] := by
  rcases class_addw h with rfl | rfl | rfl | rfl <;> simp only [result] <;> decide
end

structure IsMac (first second : Inst) (a b : ScalarInst) : Prop where
  mul : first.staticInst = .scalar a
  mul_op : deCompress a.op ∈ [.mul, .mulw]
  add : second.staticInst = .scalar b
  add_op : deCompress b.op ∈ [.add, .addw]

section
variable {first second : Inst} {a b : ScalarInst}

section
variable (h : IsMac first second a b)
include h

theorem IsMac.isAlu_mul : first.IsAlu a := ⟨h.mul, kind_mul h.mul_op⟩

theorem IsMac.isAlu_add : second.IsAlu b := ⟨h.add, kind_addw h.add_op⟩

theorem IsMac.mul_mem : deCompress a.op ∈ [.add, .addw, .mul, .mulw] :=
  mem_append_right [Opcode.add, addw] h.mul_op

theorem IsMac.add_mem : deCompress b.op ∈ [.add, .addw, .mul, .mulw] :=
  mem_append_left [Opcode.mul, mulw] h.add_op

theorem IsMac.srcRegs_mul : a.srcRegs = [intReg a.src₁, intReg a.rs2] := srcRegs_binary h.mul_mem

theorem IsMac.srcRegs_add : b.srcRegs = [intReg b.src₁, intReg b.rs2] := srcRegs_binary h.add_mem

theorem IsMac.srcRegIdx_add :
    second.srcRegIdx 0 = intReg b.src₁ ∧ second.srcRegIdx 1 = intReg b.rs2 := by
  simp [srcRegIdx, srcRegs_scalar h.add, h.srcRegs_add]

theorem IsMac.legal : a.illegal = false ∧ b.illegal = false := by
  constructor
  · rcases class_mul h.mul_op with ha | ha | ha <;> simp [ScalarInst.illegal, illegal, ha]
  · rcases class_addw h.add_op with hb | hb | hb | hb <;>
      simp [ScalarInst.illegal, illegal, hb]

theorem IsMac.used_iff :
    (first.destRegIdx 0 = second.srcRegIdx 0 ∨ first.destRegIdx 0 = second.srcRegIdx 1) ↔
      (b.src₁ = a.rd ∨ b.rs2 = a.rd) := by
  obtain ⟨h₀, h₁⟩ := h.srcRegIdx_add
  rw [h₀, h₁, h.isAlu_mul.destRegIdx, intReg_inj, intReg_inj, eq_comm, @eq_comm _ a.rd b.rs2]

theorem IsMac.accum_iff : second.srcRegs.countP (· = first.destRegIdx 0) ≠ second.srcRegs.length ↔
      ¬(b.src₁ = a.rd ∧ b.rs2 = a.rd) := by
  rw [srcRegs_scalar h.add, h.srcRegs_add, h.isAlu_mul.destRegIdx]
  by_cases hp : b.src₁ = a.rd <;> by_cases hq : b.rs2 = a.rd <;>
    simp [intReg_inj, hp, hq]
end

variable {used : first.destRegIdx 0 = second.srcRegIdx 0 ∨ first.destRegIdx 0 = second.srcRegIdx 1}
  {accum : second.srcRegs.countP (· = first.destRegIdx 0) ≠ second.srcRegs.length}

theorem FusionInst.macc_srcRegs (h : IsMac first second a b) (name : String) (op : OpClass) :
    (macc name op first second used accum).srcRegs =
      [intReg a.src₁, intReg a.rs2, fuseTmpReg, intReg (otherSrc a b)] := by
  have hone := h.accum_iff.1 accum
  simp only [srcRegs, srcRegs_scalar h.mul, srcRegs_scalar h.add,
    h.srcRegs_mul, h.srcRegs_add, h.isAlu_mul.destRegIdx]
  by_cases hp : b.src₁ = a.rd
  · have hq : b.rs2 ≠ a.rd := fun hq => hone ⟨hp, hq⟩
    simp [intReg_inj, hp, hq, otherSrc]
  · simp [intReg_inj, hp, otherSrc]

theorem FusionInst.macc_computes (alu : AluSem) (name : String) (op : OpClass)
    (h : IsMac first second a b) : (macc name op first second used accum).Computes alu fun s =>
      let x := alu a.op a.imm first.getPC (a.srcRegs.map (readReg s.regs))
      let y := readReg s.regs (intReg (otherSrc a b))
      .ok { s with
        regs := writeReg s.regs (intReg b.rd)
          (alu b.op b.imm second.getPC (if b.src₁ = a.rd then [x, y] else [y, x]))
        npc := second.getNPC } := by
  intro st st' o pf s hpf hren
  obtain ⟨v, ds, hv, rfl⟩ := FusionInst.renameInst_one rfl hren
  rw [h.isAlu_add.destRegIdx] at hv
  have hsrcs : (macc name op first second used accum).srcRegs = _ :=
    macc_srcRegs h name op
  have htmp := (macc name op first second used accum).fuseTmp_map st (v :: ds)
  rw [if_pos (by simp [hsrcs])] at htmp
  have hlen : first.srcRegs.length = 2 := by simp [srcRegs_scalar h.mul, h.srcRegs_mul]
  obtain ⟨h₀, -⟩ := h.srcRegIdx_add
  obtain ⟨hla, hlb⟩ := h.legal
  simp only [run, execute, htmp]
  simp only [hsrcs, hlen, h₀, h.isAlu_mul.destRegIdx, intReg_inj, Operands.dest, Operands.src,
    map_cons, getElem?_cons_zero, getElem?_cons_succ, take_succ_cons, take_zero, bind, Except.bind,
    executeBoth]
  rw [h.isAlu_mul.execute alu (by simp [h.srcRegs_mul])]
  simp only [hla, Bool.false_eq_true, if_false]
  rw [h.isAlu_add.execute alu (by split <;> simp [h.srcRegs_add])]
  simp only [hlb]
  have hx : [st.map (intReg a.src₁), st.map (intReg a.rs2)].map pf.getReg =
      a.srcRegs.map (readReg s.regs) := by
    simp [h.srcRegs_mul, hpf a.src₁, hpf a.rs2]
  rw [hx, VirtRegId.of_phyReg]
  generalize alu a.op a.imm first.getPC (a.srcRegs.map (readReg s.regs)) = x
  have hpf₁ := hpf.setReg_fuseTmp x
  have hy : (if b.src₁ = a.rd then [st.map fuseTmpReg, st.map (intReg (otherSrc a b))]
        else [st.map (intReg (otherSrc a b)), st.map fuseTmpReg]).map
          (pf.setReg (st.map fuseTmpReg).phyReg x).getReg =
      if b.src₁ = a.rd then [x, readReg s.regs (intReg (otherSrc a b))]
        else [readReg s.regs (intReg (otherSrc a b)), x] := by
    split <;> simp [st.getReg_setReg_fuseTmp, hpf₁ (otherSrc a b)]
  rw [hy]
  exact ⟨hpf₁.setReg_rename hv _, rfl⟩

theorem IsMac.execInOrder (h : IsMac first second a b) (alu : AluSem) (s : ArchState) :
    execInOrder alu [first, second] s =
      let x := alu a.op a.imm first.getPC (a.srcRegs.map (readReg s.regs))
      let regs₁ := writeReg s.regs (intReg a.rd) x
      .ok { s with
        regs := writeReg regs₁ (intReg b.rd) (alu b.op b.imm second.getPC
          [readReg regs₁ (intReg b.src₁), readReg regs₁ (intReg b.rs2)])
        npc := second.getNPC } := by
  obtain ⟨hla, hlb⟩ := h.legal
  simp only [Gem5.execInOrder, h.isAlu_mul.exec, h.isAlu_add.exec, hla, hlb, Bool.false_eq_true,
    if_false, h.srcRegs_add, map_cons, map_nil]

/-- **When multiply-add fusion preserves meaning**: the addition overwrites the product, or the
product is zero and dropped. -/
theorem FusionInst.macc_preserves_iff (h : IsMac first second a b) (name : String) (op : OpClass) :
    (macc name op first second used accum).Preserves result ↔
      a.rd = b.rd ∨ (a.rd = 0 ∧ (a.src₁ = 0 ∨ a.rs2 = 0)) := by
  rw [(macc_computes result name op h).preserves_iff]
  have hone := h.accum_iff.1 accum
  have hused := h.used_iff.1 used
  simp only [parts, h.execInOrder, SameOutcome, and_true, h.srcRegs_mul, map_cons,
    map_nil, readReg_writeReg_int]
  constructor
  · intro hsame
    -- all registers hold 2, so that the product is 4 or, with a factor `x0`, zero
    replace hsame := hsame ⟨fun _ => 2, fun _ => 0, ⟨fun _ _ => 0, fun _ => 0⟩, 0⟩
    simp only [readReg_const] at hsame
    generalize hx : a.op.result a.imm first.getPC
      [if a.src₁ = 0 then 0 else 2, if a.rs2 = 0 then 0 else 2] = x at hsame
    by_contra hsafe
    rw [not_or] at hsafe
    obtain ⟨hrd, hzero⟩ := hsafe
    by_cases hm : a.rd = 0
    · have hfour : x = 4 := by
        rw [← hx, if_neg fun h₁ => hzero ⟨hm, .inl h₁⟩, if_neg fun h₂ => hzero ⟨hm, .inr h₂⟩,
          result_mul_two h.mul_op]
      have hd : b.rd ≠ 0 := fun hd => hrd (hm.trans hd.symm)
      have hvals := hsame b.rd
      by_cases hp : b.src₁ = 0
      · have hq : b.rs2 ≠ 0 := fun hq => hone ⟨hp.trans hm.symm, hq.trans hm.symm⟩
        refine (result_add_four h.add_op b.imm second.getPC).1 ?_
        simpa [hd, hm, hp, hq, hfour, otherSrc] using hvals
      · have hq : b.rs2 = 0 := (hused.resolve_left fun h => hp (h.trans hm)).trans hm
        refine (result_add_four h.add_op b.imm second.getPC).2 ?_
        simpa [hd, hm, hp, hq, hfour, otherSrc] using hvals
    · have hkept : 2 = x := by simpa [hm, hrd] using hsame a.rd
      have hx₂ : x ≠ 2 := by
        rw [← hx]
        by_cases h₁ : a.src₁ = 0
        · rw [if_pos h₁, result_mul_zero_left h.mul_op]; decide
        · by_cases h₂ : a.rs2 = 0
          · rw [if_pos h₂, result_mul_zero_right h.mul_op]; decide
          · rw [if_neg h₁, if_neg h₂, result_mul_two h.mul_op]; decide
      exact hx₂ hkept.symm
  · intro hsafe s n
    generalize hx : a.op.result a.imm first.getPC
      [readReg s.regs (intReg a.src₁), readReg s.regs (intReg a.rs2)] = x
    rcases hsafe with hrd | ⟨hm, hzero⟩
    · rw [hrd] at hone hused ⊢
      by_cases hn : n = b.rd ∧ n ≠ 0
      · obtain ⟨rfl, hn⟩ := hn
        by_cases hp : b.src₁ = b.rd
        · have hq : b.rs2 ≠ b.rd := fun hq => hone ⟨hp, hq⟩
          simp [hn, hp, hq, hrd, otherSrc]
        · have hq : b.rs2 = b.rd := hused.resolve_left hp
          simp [hn, hp, hq, hrd, otherSrc]
      · simp [hn]
    · have hx₀ : x = 0 := by
        rw [← hx]
        rcases hzero with h₁ | h₂
        · simpa [h₁] using result_mul_zero_left h.mul_op a.imm first.getPC _
        · simpa [h₂] using result_mul_zero_right h.mul_op a.imm first.getPC _
      by_cases hp : b.src₁ = 0
      · have hq : b.rs2 ≠ 0 := fun hq => hone ⟨hp.trans hm.symm, hq.trans hm.symm⟩
        simp [hm, hp, hq, hx₀, otherSrc]
      · have hq : b.rs2 = 0 := (hused.resolve_left fun h => hp (h.trans hm)).trans hm
        simp [hm, hp, hq, hx₀, otherSrc]
end

/-! ### The pairs that decode sees -/

section
variable {x y : Inst} {a b : ScalarInst}

theorem imm_of_mul {i : ScalarInst} (h : deCompress i.op ∈ [.add, .addw, .mul, .mulw]) :
    i.imm = 0 := by
  have hrange (op : Opcode) (h : deCompress op ∈ [.add, .addw, .mul, .mulw]) :
      op.immRange = (0, 0) := by
    cases op <;> revert h <;> decide
  have := i.imm_ok
  rw [ImmOk, hrange i.op h] at this
  exact le_antisymm this.2 this.1

theorem IsMac.lookup (h : IsMac x y a b) :
    ∃ name, Gem5.lookup x y = some (.macc name .dest0EqualSecondSrc0or1) := by
  have hmul := h.mul_op
  have hadd := h.add_op
  simp only [mem_cons, not_mem_nil, or_false] at hmul hadd
  have hx : ofInst x = ⟨some (deCompress a.op), false, 0⟩ := by
    have himm : a.imm = 0 := imm_of_mul h.mul_mem
    simp [ofInst, typeid, getImm, StaticInst.typeid, StaticInst.getImm, h.mul, himm]
  have hy : ofInst y = ⟨some (deCompress b.op), false, 0⟩ := by
    have himm : b.imm = 0 := imm_of_mul h.add_mem
    simp [ofInst, typeid, getImm, StaticInst.typeid, StaticInst.getImm, h.add, himm]
  rw [Gem5.lookup, hx, hy]
  rcases hmul with hmul | hmul <;> rcases hadd with hadd | hadd <;> rw [hmul, hadd] <;>
    exact ⟨_, rfl⟩

theorem IsMac.create (h : IsMac x y a b) (name : String) : (¬(b.src₁ = a.rd ∨ b.rs2 = a.rd) ∧
      (FuseCreator.macc name .dest0EqualSecondSrc0or1).create x y = .ok none) ∨
    ((b.src₁ = a.rd ∧ b.rs2 = a.rd) ∧ (FuseCreator.macc name .dest0EqualSecondSrc0or1).create x y =
        .error "MaccFusionInst: both ADD sources equal the MUL dest — use ChainFusionInst") ∨
    ((b.src₁ = a.rd ∨ b.rs2 = a.rd) ∧ ¬(b.src₁ = a.rd ∧ b.rs2 = a.rd) ∧
      ∃ used accum, (FuseCreator.macc name .dest0EqualSecondSrc0or1).create x y =
        .ok (some (.macc name .intMult x y used accum))) := by
  have hused := h.used_iff
  have haccum := h.accum_iff
  by_cases hu : b.src₁ = a.rd ∨ b.rs2 = a.rd
  · have hcheck : (FuseCreator.macc name .dest0EqualSecondSrc0or1).check.holds x y = true := by
      simpa [check, Check.holds] using hused.2 hu
    by_cases hboth : b.src₁ = a.rd ∧ b.rs2 = a.rd
    · refine .inr (.inl ⟨hboth, ?_⟩)
      rw [FuseCreator.create, if_pos hcheck, build, newMacc,
        dif_pos (hused.2 hu), dif_neg fun hc => haccum.1 hc hboth]
    · refine .inr (.inr ⟨hu, hboth, hused.2 hu, haccum.2 hboth, ?_⟩)
      refine create_of_build hcheck ?_
      rw [build, newMacc, dif_pos (hused.2 hu), dif_pos (haccum.2 hboth)]
  · refine .inl ⟨hu, ?_⟩
    have hcheck : ¬(FuseCreator.macc name .dest0EqualSecondSrc0or1).check.holds x y = true := by
      simpa [check, Check.holds] using fun h => hu (hused.1 h)
    rw [FuseCreator.create, if_neg hcheck]
end

/-- Decode with multiply-add fusion handles the pair `x`, `y`: it does not panic, and what it fuses
is preserved. -/
def MacOk (x y : Inst) : Prop :=
  ∀ (c : DecodeConfig) (now : ℕ) (w : IgnoreWindow) (vec : List DynInst),
    c.enableMACFusion = true → vec.getLast? = some (.plain x) →
    ∃ w' r, checkAndFuseInsts c now w vec y = .ok (w', r) ∧
      ∀ vec' d, r = some (vec', d) →
        ∃ info f, d = .fused info f ∧ f.parts = [x, y] ∧ f.Preserves Opcode.result

/-- The condition on the operands of the multiplication `x` and the addition `y`: the pair is not
fused at all, or one source of the addition is the product, and the addition overwrites the product
or the product is zero and dropped. -/
def MacHolds (x y : Inst) : Prop :=
  x.faulted = true ∨ y.faulted = true ∨
    (x.destRegIdx 0 ≠ y.srcRegIdx 0 ∧ x.destRegIdx 0 ≠ y.srcRegIdx 1) ∨
    (¬(x.destRegIdx 0 = y.srcRegIdx 0 ∧ x.destRegIdx 0 = y.srcRegIdx 1) ∧
      (x.destRegIdx 0 = y.destRegIdx 0 ∨
        (x.destRegIdx 0 = RegId.invalid ∧
          (x.srcRegIdx 0 = RegId.invalid ∨ x.srcRegIdx 1 = RegId.invalid))))

instance (x y : Inst) : Decidable (MacHolds x y) := inferInstanceAs (Decidable (_ ∨ _))

variable {x y : Inst} {a b : ScalarInst}

theorem macHolds_iff (h : IsMac x y a b) : MacHolds x y ↔
    x.faulted = true ∨ y.faulted = true ∨ ¬(b.src₁ = a.rd ∨ b.rs2 = a.rd) ∨
      (¬(b.src₁ = a.rd ∧ b.rs2 = a.rd) ∧
        (a.rd = b.rd ∨ (a.rd = 0 ∧ (a.src₁ = 0 ∨ a.rs2 = 0)))) := by
  have hx : x.srcRegIdx 0 = intReg a.src₁ ∧ x.srcRegIdx 1 = intReg a.rs2 := by
    simp [srcRegIdx, srcRegs_scalar h.mul, h.srcRegs_mul]
  obtain ⟨hy₀, hy₁⟩ := h.srcRegIdx_add
  simp only [MacHolds, hx.1, hx.2, hy₀, hy₁, h.isAlu_mul.destRegIdx, h.isAlu_add.destRegIdx,
    intReg_inj, intReg_eq_invalid, ne_eq, not_or, @eq_comm _ a.rd b.src₁, @eq_comm _ a.rd b.rs2]

theorem macOk_iff (h : IsMac x y a b) : MacOk x y ↔
    x.faulted = true ∨ y.faulted = true ∨ ¬(b.src₁ = a.rd ∨ b.rs2 = a.rd) ∨
      (¬(b.src₁ = a.rd ∧ b.rs2 = a.rd) ∧
        (a.rd = b.rd ∨ (a.rd = 0 ∧ (a.src₁ = 0 ∨ a.rs2 = 0)))) := by
  obtain ⟨name, hlook⟩ := h.lookup
  constructor
  · intro hok
    by_contra hholds
    simp only [not_or, Bool.not_eq_true] at hholds
    obtain ⟨hx, hy, hused, hbad⟩ := hholds
    -- every guard passes
    obtain ⟨w', r, hrun, hr⟩ := hok .full 0 ⟨x.getPC + 1, 0⟩ [.plain x] rfl rfl
    rw [checkAndFuseInsts_full 0 hx hy (IgnoreWindow.not_covers_succ _ _) hlook, fuseWith] at hrun
    rcases h.create name with ⟨hu, -⟩ | ⟨-, hcreate⟩ | ⟨-, hone, used, accum, hcreate⟩
    · exact hused (not_or.1 hu)
    · simp [hcreate] at hrun
    · simp only [hcreate, Except.ok.injEq, Prod.mk.injEq] at hrun
      obtain ⟨info, f, hd, -, hpres⟩ := hr _ _ hrun.2.symm
      cases hd
      exact hbad ⟨hone, (macc_preserves_iff h name _).1 hpres⟩
  · intro hholds c now w vec _ hback
    rcases checkAndFuseInsts_cases c now w vec y with
      ⟨w', -, heq⟩ | ⟨x', creator, hback', hx, hy, -, hlook', heq⟩
    · exact ⟨w', none, heq, fun _ _ h => by cases h⟩
    · rw [hback] at hback'
      cases hback'
      rw [hlook] at hlook'
      cases hlook'
      rw [heq, fuseWith]
      rcases h.create name with ⟨hu, hcreate⟩ | ⟨hboth, -⟩ | ⟨hu, hone, used, accum, hcreate⟩
      · exact ⟨w, none, by rw [hcreate], fun _ _ h => by cases h⟩
      · simp only [hx, hy, Bool.false_eq_true, false_or] at hholds
        rcases hholds with hnone | ⟨hone, -⟩
        · exact absurd (.inl hboth.1) hnone
        · exact absurd hboth hone
      · refine ⟨w, _, by rw [hcreate], fun vec' d hd => ?_⟩
        obtain ⟨-, rfl⟩ := hd
        refine ⟨_, _, rfl, rfl, (macc_preserves_iff h name _).2 ?_⟩
        simp only [hx, hy, Bool.false_eq_true, false_or] at hholds
        rcases hholds with hnone | ⟨-, hsafe⟩
        · exact absurd hu hnone
        · exact hsafe

/-- **Multiply-add fusion.**  Decode handles a pair of a multiplication and an addition exactly when
it meets `MacHolds`. -/
theorem macc_pair_iff {x y : Inst} {a b : ScalarInst} (h : IsMac x y a b) :
    MacOk x y ↔ MacHolds x y :=
  (macOk_iff h).trans (macHolds_iff h).symm

/-- `mul x5, x6, x7` -/
def mulX5 : ScalarInst := ⟨.mul, 5, 6, 7, 0, Opcode.immOk_zero _⟩

/-- `add x5, x5, x9` -/
def addX5X9 : ScalarInst := ⟨.add, 5, 5, 9, 0, Opcode.immOk_zero _⟩

/-- `add x8, x5, x9` -/
def addX8X9 : ScalarInst := ⟨.add, 8, 5, 9, 0, Opcode.immOk_zero _⟩

/-- `mul x5, x6, x7`, `add x5, x5, x9`: the addition overwrites the product. -/
theorem muladd_overwrite_ok :
    MacOk (.fetched 0 1 (.scalar mulX5)) (.fetched 4 2 (.scalar addX5X9)) :=
  (macc_pair_iff ⟨rfl, by decide, rfl, by decide⟩).2 (by decide)

/-- `mul x5, x6, x7`, `add x8, x5, x9`: the fused instruction never writes the product to `x5`. -/
theorem muladd_not_ok : ¬∀ (x y : Inst) (a b : ScalarInst), IsMac x y a b → MacOk x y := by
  intro hall
  have hmac : IsMac (.fetched 0 1 (.scalar mulX5)) (.fetched 4 2 (.scalar addX8X9))
      mulX5 addX8X9 := ⟨rfl, by decide, rfl, by decide⟩
  exact absurd ((macOk_iff hmac).1 (hall _ _ _ _ hmac)) (by decide)

/-- `mul x5, x6, x7`, `add x8, x5, x5` passes the check of the table and panics. -/
example : checkAndFuseInsts .full 0 .closed [.plain (.fetched 0x80000000 1 (.scalar mulX5))]
    (.fetched 0x80000004 2 (.scalar ⟨.add, 8, 5, 5, 0, by decide⟩)) =
    .error "MaccFusionInst: both ADD sources equal the MUL dest — use ChainFusionInst" := rfl

end Gem5
