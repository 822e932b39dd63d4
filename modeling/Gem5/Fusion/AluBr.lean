import Gem5.Fusion.Exec
import Gem5.Fusion.Table

/-!
# ALU-branch fusion

`AluBrFusionInst` runs an ALU instruction with one source and a branch that reads its result.  The
constructor drops every source of the branch that is the result, while `execute` takes it that one
was dropped and reads source index 1 for the other.  When the branch compares the result with
itself there is no index 1.
-/

namespace Gem5
open List FusionInst RenameState Operands

/-- Never reads a source that it does not have. -/
def FusionInst.InBounds (alu : AluSem) (f : FusionInst) : Prop :=
  ∀ (st st' : RenameState) (o : Operands) (pf : PhysRegFile) (mem : Mem),
    st.renameInst f.srcRegs f.destRegs = some (o, st') → f.run alu o pf mem ≠ .error .outOfBounds

theorem FusionInst.Preserves.inBounds {alu : AluSem} {f : FusionInst} (h : f.Preserves alu)
    (hok : ∀ s, ∃ t, execInOrder alu f.parts s = .ok t) : f.InBounds alu := by
  intro st st' o pf mem hren herr
  let s : ArchState := ⟨st.view pf, mem, ⟨fun _ _ => 0, fun _ => 0⟩, 0⟩
  obtain ⟨t, ht⟩ := hok s
  have hagree := h st st' o pf s (st.represents_view pf) hren
  rw [ht, herr] at hagree
  exact hagree

structure IsAluBr (first second : Inst) (a b : ScalarInst) : Prop where
  alu : first.IsAlu a
  legal : a.illegal = false
  unary : a.srcRegs = [intReg a.src₁]
  branch : second.IsBranch b

section
variable {first second : Inst} {a b : ScalarInst}

theorem isAluBr_of_class (ha : first.staticInst = .scalar a)
    (hop : deCompress a.op ∈ [.addi, .andi, .srai, .slti]) (hb : second.IsBranch b) :
    IsAluBr first second a b := by
  have hclass (op : Opcode) (h : deCompress op ∈ [.addi, .andi, .srai, .slti]) :
      op.kind = .alu ∧ ∀ rd imm, op.illegal rd imm = false := by
    cases op <;> first
      | exact ⟨rfl, fun _ _ => rfl⟩
      | (exfalso; revert h; decide)
  exact ⟨⟨ha, (hclass a.op hop).1⟩, (hclass a.op hop).2 a.rd a.imm,
    srcRegs_unary (mem_cons_of_mem _ hop), hb⟩

theorem Inst.IsBranch.srcRegs (h : second.IsBranch b) :
    b.srcRegs = [intReg b.rs1, intReg b.rs2] := by
  have hformat (op : Opcode) (h : op.kind = .branch) : op.format = .b := by
    cases op <;> revert h <;> decide
  simp [ScalarInst.srcRegs, hformat b.op h.kind]

theorem Inst.IsBranch.srcRegIdx (h : second.IsBranch b) :
    second.srcRegIdx 0 = intReg b.rs1 ∧ second.srcRegIdx 1 = intReg b.rs2 := by
  simp [Inst.srcRegIdx, Inst.srcRegs_scalar h.static, h.srcRegs]

variable {pipe : first.destRegIdx 0 = second.srcRegIdx 0 ∨
  first.destRegIdx 0 = second.srcRegIdx 1}

theorem FusionInst.aluBr_srcRegs (name : String) (h : IsAluBr first second a b) :
    (aluBr name first second pipe).srcRegs =
      intReg a.src₁ :: [intReg b.rs1, intReg b.rs2].filter (· ≠ intReg a.rd) := by
  simp [srcRegs, Inst.srcRegs_scalar h.alu.static, h.unary,
    Inst.srcRegs_scalar h.branch.static, h.branch.srcRegs, h.alu.destRegIdx]

section
variable (alu : AluSem) (name : String) (h : IsAluBr first second a b)
include h

theorem FusionInst.aluBr_preserves
    (hone : ¬(b.rs1 = a.rd ∧ b.rs2 = a.rd)) : (aluBr name first second pipe).Preserves alu := by
  intro st st' o pf s hpf hren
  obtain ⟨v, ds, hv, rfl⟩ := FusionInst.renameInst_one rfl hren
  rw [h.alu.destRegIdx] at hv
  obtain ⟨h₀, h₁⟩ := h.branch.srcRegIdx
  have hpipe : b.rs1 = a.rd ∨ b.rs2 = a.rd := by
    rw [h₀, h₁, h.alu.destRegIdx, intReg_inj, intReg_inj] at pipe
    exact pipe.imp Eq.symm Eq.symm
  have hsrcs : (aluBr name first second pipe).srcRegs =
      [intReg a.src₁, intReg (if b.rs1 = a.rd then b.rs2 else b.rs1)] := by
    rw [aluBr_srcRegs name h]
    by_cases hp : b.rs1 = a.rd
    · have hq : b.rs2 ≠ a.rd := fun hq => hone ⟨hp, hq⟩
      simp [intReg_inj, hp, hq]
    · have hq : b.rs2 = a.rd := hpipe.resolve_left hp
      simp [intReg_inj, hp, hq]
  simp only [run, execute, hsrcs, h₀, h.alu.destRegIdx, intReg_inj, dest, src, map_cons,
    getElem?_cons_zero, getElem?_cons_succ, Bind.bind, Except.bind, FusionInst.executeBoth]
  rw [h.alu.execute alu (by simp [h.unary])]
  simp only [h.legal, Bool.false_eq_true, if_false]
  rw [h.branch.execute alu (by split <;> simp [h.branch.srcRegs])]
  simp only [FusionInst.parts, execInOrder, h.alu.exec, h.branch.exec, h.legal, h.unary,
    h.branch.srcRegs, map_cons, map_nil, hpf a.src₁]
  generalize alu a.op a.imm first.getPC [readReg s.regs (intReg a.src₁)] = x
  have hpf₁ := hpf.setReg_rename hv x
  refine ⟨hpf₁, ?_⟩
  -- the result is read back from the fused destination
  have hres : (pf.setReg v.phyReg x).getReg v =
      readReg (writeReg s.regs (intReg a.rd) x) (intReg a.rd) := by
    have hread := hpf₁ a.rd
    rwa [map_rename hv] at hread
  have hother (m : Fin 32) (hm : m ≠ a.rd) : (pf.setReg v.phyReg x).getReg (st.map (intReg m)) =
      readReg (writeReg s.regs (intReg a.rd) x) (intReg m) := by
    rw [hpf.setReg_fresh hv x m, readReg_writeReg_of_ne]
    rwa [ne_eq, intReg_inj]
  by_cases hp : b.rs1 = a.rd
  · have hq : b.rs2 ≠ a.rd := fun hq => hone ⟨hp, hq⟩
    simp only [hp, if_true, map_cons, map_nil, hres, hother b.rs2 hq]
  · have hq : b.rs2 = a.rd := hpipe.resolve_left hp
    simp only [hp, hq, if_false, map_cons, map_nil, hres, hother b.rs1 hp]

theorem FusionInst.aluBr_outOfBounds (hboth : b.rs1 = a.rd ∧ b.rs2 = a.rd) (st : RenameState)
    (v : VirtRegId) (ds : List VirtRegId) (pf : PhysRegFile) (mem : Mem) :
    let f := aluBr name first second pipe
    f.run alu ⟨f.srcRegs.map st.map, v :: ds⟩ pf mem = .error .outOfBounds := by
  intro f
  have hsrcs : f.srcRegs = [intReg a.src₁] := by
    rw [aluBr_srcRegs name h]
    simp [hboth.1, hboth.2]
  have hexec : f.run alu ⟨f.srcRegs.map st.map, v :: ds⟩ pf mem = (do
      let d ← dest ⟨f.srcRegs.map st.map, v :: ds⟩ 0
      let s₀ ← src ⟨f.srcRegs.map st.map, v :: ds⟩ 0
      let s₁ ← src ⟨f.srcRegs.map st.map, v :: ds⟩ 1
      let srcs₂ := if second.srcRegIdx 0 = first.destRegIdx 0 then [d, s₁] else [s₁, d]
      executeBoth alu first second ⟨[s₀], [d]⟩ ⟨srcs₂, []⟩ pf) := rfl
  rw [hsrcs]
  rfl
end
end

/-- **ALU-branch fusion.**  A pair that a row of the table admits is fused; the fused instruction
does what the two do in order and stays inside its sources exactly when the branch does not compare
the result with itself. -/
theorem aluBr_row_iff (alu : AluSem) {k₁ k₂ : FusionKey} {name : String} {check : Check}
    (hrow : IsRow k₁ k₂ (.aluBr name check)) {first second : Inst}
    (h₁ : k₁.admits first = true) (h₂ : k₂.admits second = true)
    (hcheck : check.holds first second = true) :
    ∃ f, (FuseCreator.aluBr name check).create first second = .ok (some f) ∧
      f.parts = [first, second] ∧
      (f.Preserves alu ∧ f.InBounds alu ↔
        ¬(first.destRegIdx 0 = second.srcRegIdx 0 ∧ first.destRegIdx 0 = second.srcRegIdx 1)) := by
  obtain ⟨a, b, ha, hb, hop, hkb, rfl⟩ := hrow.pairs h₁ h₂
  have h := isAluBr_of_class ha hop ⟨hb, deCompress_kind_branch.1 hkb⟩
  have hpipe : first.destRegIdx 0 = second.srcRegIdx 0 ∨
      first.destRegIdx 0 = second.srcRegIdx 1 := by simpa [Check.holds] using hcheck
  refine ⟨.aluBr name first second hpipe, FuseCreator.create_of_build hcheck ?_, rfl, ?_⟩
  · rw [FuseCreator.build, newAluBr, dif_pos hpipe]
  obtain ⟨hs₀, hs₁⟩ := h.branch.srcRegIdx
  rw [hs₀, hs₁, h.alu.destRegIdx, intReg_inj, intReg_inj]
  constructor
  · rintro ⟨-, hbounds⟩ ⟨hp, hq⟩
    obtain ⟨⟨o, st'⟩, hren⟩ :=
      exists_rename (aluBr name first second hpipe)
    obtain ⟨v, ds, -, rfl⟩ := FusionInst.renameInst_one rfl hren
    exact hbounds _ _ _ (fun _ => 0) (fun _ => 0) hren
      (aluBr_outOfBounds alu name h ⟨hp.symm, hq.symm⟩ _ v ds _ _)
  · intro hone
    have hpres : (aluBr name first second hpipe).Preserves alu :=
      aluBr_preserves alu name h fun hb => hone ⟨hb.1.symm, hb.2.symm⟩
    refine ⟨hpres, hpres.inBounds fun s => ?_⟩
    simp only [parts, execInOrder, h.alu.exec, h.branch.exec, h.legal]
    exact ⟨_, rfl⟩

/-- `addi x5, x6, -1` -/
def addiX5 : Inst := .fetched 0x80000000 1 (.scalar ⟨.addi, 5, 6, 0, -1, by decide⟩)

/-- `bne x5, x0, 16` -/
def bneX5 : Inst := .fetched 0x80000004 2 (.scalar ⟨.bne, 0, 5, 0, 16, by decide⟩)

/-- `beq x5, x5, 16` -/
def beqX5X5 : Inst := .fetched 0x80000004 2 (.scalar ⟨.beq, 0, 5, 5, 16, by decide⟩)

theorem isRow_addi {k : FusionKey} {c : FuseCreator} (h : (k, c) ∈ branches "addi") :
    IsRow (.anyImmKey .addi) k c :=
  ⟨(.anyImmKey .addi, farLoads ++ branches "addi"), by simp [fusionMap], rfl,
    mem_append_right _ h⟩

/-- A countdown loop is fused and preserved. -/
theorem addibne_preserves : ∃ f,
    (FuseCreator.aluBr "addibne" .dest0EqualSecondSrc0or1).create addiX5 bneX5 = .ok (some f) ∧
      f.Preserves Opcode.result := by
  obtain ⟨f, hf, -, hiff⟩ := aluBr_row_iff Opcode.result
    (isRow_addi (by decide :
      (.anyImmKey .bne, .aluBr "addibne" .dest0EqualSecondSrc0or1) ∈ branches "addi"))
    (by decide : _ = true) (by decide : FusionKey.admits _ bneX5 = true)
    (by decide : Check.holds _ addiX5 bneX5 = true)
  exact ⟨f, hf, (hiff.2 (by decide)).1⟩

/-- `addi x5, x6, -1` and `beq x5, x5, 16` are fused, and the fused instruction reads source index 1
of one. -/
theorem aluBr_not_inBounds : ¬∀ (k₁ k₂ : FusionKey) (name : String) (check : Check)
    (first second : Inst) (f : FusionInst), IsRow k₁ k₂ (.aluBr name check) →
    k₁.admits first = true → k₂.admits second = true →
    (FuseCreator.aluBr name check).create first second = .ok (some f) →
    f.Preserves Opcode.result ∧ f.InBounds Opcode.result := by
  intro hall
  have hrow : IsRow (.anyImmKey .addi) (.anyImmKey .beq)
      (.aluBr "addibeq" .dest0EqualSecondSrc0or1) := isRow_addi (by decide)
  obtain ⟨-, hbounds⟩ := hall _ _ _ _ addiX5 beqX5X5 (.aluBr _ addiX5 beqX5X5 (Or.inl rfl)) hrow
    (by decide) (by decide) rfl
  have h : IsAluBr addiX5 beqX5X5 _ _ := ⟨⟨rfl, rfl⟩, rfl, rfl, ⟨rfl, rfl⟩⟩
  obtain ⟨⟨o, st'⟩, hren⟩ := exists_rename (.aluBr "addibeq" addiX5 beqX5X5 (Or.inl rfl))
  obtain ⟨v, ds, -, rfl⟩ := FusionInst.renameInst_one rfl hren
  exact hbounds _ _ _ (fun _ => 0) (fun _ => 0) hren
    (aluBr_outOfBounds Opcode.result _ h ⟨rfl, rfl⟩ _ v ds _ _)

end Gem5
