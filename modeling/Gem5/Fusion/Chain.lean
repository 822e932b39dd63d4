import Gem5.Fusion.Exec
import Gem5.Fusion.Table

/-!
# Chain fusion

`ChainFusionInst` runs two ALU instructions with one destination.  The first writes the temporary
when the second reads its result, the fused destination otherwise; the second writes the fused
destination.  It preserves the meaning of any such pair, whatever the two compute: the operands that
the temporary replaces are those that the first instruction has just written, or, when the common
destination is `x0`, operands of a result that is dropped.
-/

namespace Gem5
open List FusionInst

section
variable {first second : Inst} {a b : ScalarInst}

theorem RenameState.Represents.map_getReg_fuseTmp {st : RenameState} {pf : PhysRegFile}
    {regs : RegId → RegVal} (h : st.Represents pf regs) {srcs : List RegId}
    (hsrcs : ∀ r ∈ srcs, ∃ n, r = intReg n) {d : Fin 32} (hd : d ≠ 0) (x : RegVal) :
    ((srcs.map fun r => if r = intReg d then fuseTmpReg else r).map st.map).map
        (pf.setReg (st.map fuseTmpReg).phyReg x).getReg =
      srcs.map (readReg (writeReg regs (intReg d) x)) := by
  have hcls : (intReg d).regClass ≠ .invalid := by simpa [intReg_invalid_class] using hd
  simp only [map_map]
  refine map_congr_left fun r hr => ?_
  obtain ⟨n, rfl⟩ := hsrcs r hr
  by_cases hn : intReg n = intReg d
  · simp only [Function.comp_apply, hn, if_true]
    rw [st.getReg_setReg_fuseTmp, readReg_writeReg_self _ _ hcls]
  · simp only [Function.comp_apply, hn, if_false]
    rw [h.setReg_fuseTmp x n, readReg_writeReg_of_ne _ _ hn]

theorem fuseTmpReg_mem_chain {srcs₁ srcs₂ : List RegId} (h₁ : ∀ r ∈ srcs₁, ∃ n, r = intReg n)
    (h₂ : ∀ r ∈ srcs₂, ∃ n, r = intReg n) (d : RegId) :
    (fuseTmpReg ∈ srcs₁ ++ srcs₂.map fun r => if r = d then fuseTmpReg else r) ↔ d ∈ srcs₂ := by
  rw [mem_append, mem_map]
  constructor
  · rintro (h | ⟨r, hr, hrt⟩)
    · obtain ⟨n, hn⟩ := h₁ _ h
      exact absurd hn.symm (intReg_ne_fuseTmpReg n)
    · by_cases hrd : r = d
      · exact hrd ▸ hr
      · obtain ⟨n, rfl⟩ := h₂ r hr
        rw [if_neg hrd] at hrt
        exact absurd hrt (intReg_ne_fuseTmpReg n)
  · intro hd
    exact .inr ⟨d, hd, if_pos rfl⟩

variable (alu : AluSem) (name : String) (op : OpClass)
  (same : first.destRegIdx 0 = second.destRegIdx 0)

theorem FusionInst.execute_chain (srcs ds : List VirtRegId) (v : VirtRegId)
    (pf : PhysRegFile) :
    let f := chain name op first second same
    let d := (f.fuseTmp ⟨srcs, v :: ds⟩).elim v VirtRegId.of
    f.execute alu ⟨srcs, v :: ds⟩ pf = executeBoth alu first second
      ⟨srcs.take first.srcRegs.length, [d]⟩ ⟨srcs.drop first.srcRegs.length, [v]⟩ pf := by
  intro f d
  simp only [f, d, execute, Operands.dest, bind, Except.bind, getElem?_cons_zero]
  cases fuseTmp _ ⟨srcs, v :: ds⟩ <;> rfl

theorem FusionInst.run_chain (o : Operands) (pf : PhysRegFile) (mem : Mem) :
    let f := chain name op first second same
    f.run alu o pf mem = (do
      let (pf₁, _) ← f.execute alu o pf
      .ok (pf₁, second.getNPC)) := rfl

theorem FusionInst.chain_run (ha : first.IsAlu a) (hb : second.IsAlu b) (st : RenameState)
    (v : VirtRegId) (ds : List VirtRegId) (pf : PhysRegFile) (mem : Mem) :
    let f := chain name op first second same
    let d := if intReg a.rd ∈ b.srcRegs then st.map fuseTmpReg else v
    let x := alu a.op a.imm first.getPC ((a.srcRegs.map st.map).map pf.getReg)
    let srcs := (b.srcRegs.map fun r => if r = intReg a.rd then fuseTmpReg else r).map st.map
    let pf₁ := pf.setReg d.phyReg x
    f.run alu ⟨f.srcRegs.map st.map, v :: ds⟩ pf mem =
      if a.illegal || b.illegal then .error (.fault .illegalInst)
      else .ok (pf₁.setReg v.phyReg (alu b.op b.imm second.getPC (srcs.map pf₁.getReg)),
        second.getNPC) := by
  intro f d x srcs pf₁
  have hsrcs : f.srcRegs = a.srcRegs ++
      b.srcRegs.map fun r => if r = intReg a.rd then fuseTmpReg else r := by
    simp only [f, srcRegs, Inst.srcRegs_scalar ha.static, Inst.srcRegs_scalar hb.static,
      ha.destRegIdx]
  have htmp : (f.fuseTmp ⟨f.srcRegs.map st.map, v :: ds⟩).elim v VirtRegId.of = d := by
    rw [f.fuseTmp_map st (v :: ds), hsrcs]
    simp only [fuseTmpReg_mem_chain (fun r => a.srcRegs_eq_intReg) (fun r => b.srcRegs_eq_intReg)]
    by_cases hd : intReg a.rd ∈ b.srcRegs
    · simp only [d, if_pos hd, Option.elim_some, st.map_fuseTmp_of]
    · simp only [d, if_neg hd, Option.elim_none]
  have htake : (f.srcRegs.map st.map).take first.srcRegs.length = a.srcRegs.map st.map := by
    rw [hsrcs, Inst.srcRegs_scalar ha.static, map_append, take_left' (by simp)]
  have hdrop : (f.srcRegs.map st.map).drop first.srcRegs.length = srcs := by
    rw [hsrcs, Inst.srcRegs_scalar ha.static, map_append, drop_left' (by simp)]
  have hexec : f.execute alu ⟨f.srcRegs.map st.map, v :: ds⟩ pf =
      executeBoth alu first second ⟨a.srcRegs.map st.map, [d]⟩ ⟨srcs, [v]⟩ pf := by
    rw [execute_chain, htmp, htake, hdrop]
  rw [run_chain, hexec, executeBoth, ha.execute alu (by simp)]
  by_cases hla : a.illegal
  · simp [hla, bind, Except.bind]
  · simp only [hla, if_false, bind, Except.bind, Bool.false_eq_true]
    rw [hb.execute alu (by simp [srcs])]
    by_cases hlb : b.illegal <;> simp [hlb, pf₁, x]

/-- **Chain fusion preserves meaning**, for any two ALU instructions. -/
theorem FusionInst.chain_preserves (ha : first.IsAlu a) (hb : second.IsAlu b) :
    (chain name op first second same).Preserves alu := by
  intro st st' o pf s hpf hren
  have hrd : b.rd = a.rd := by
    rw [ha.destRegIdx, hb.destRegIdx, intReg_inj] at same
    exact same.symm
  obtain ⟨v, ds, hv, rfl⟩ := FusionInst.renameInst_one rfl hren
  rw [ha.destRegIdx] at hv
  rw [chain_run alu name op same ha hb st v ds pf s.mem,
    hpf.map_getReg fun r => a.srcRegs_eq_intReg]
  simp only [parts, execInOrder, ha.exec, hb.exec]
  by_cases hla : a.illegal
  · simp [hla, Agrees]
  by_cases hlb : b.illegal
  · simp [hla, hlb, Agrees]
  simp only [hla, hlb, if_false, Agrees, Bool.or_self, Bool.false_eq_true, and_true, hrd]
  generalize alu a.op a.imm first.getPC (a.srcRegs.map (readReg s.regs)) = x
  by_cases hmem : intReg a.rd ∈ b.srcRegs
  · -- the first result goes through the temporary
    rw [if_pos hmem]
    have hpf₁ := hpf.setReg_fuseTmp x
    by_cases hd : a.rd = 0
    · rw [hd] at hv ⊢
      obtain ⟨rfl, rfl⟩ := RenameState.rename_zero hv
      exact hpf₁
    · rw [hpf.map_getReg_fuseTmp (fun r => b.srcRegs_eq_intReg) hd x]
      intro n
      rw [hpf₁.setReg_rename hv _ n, readReg_writeReg, readReg_writeReg, readReg_writeReg]
      split <;> rfl
  · -- nobody reads the first result, and the second overwrites it
    have hsubst : (b.srcRegs.map fun r => if r = intReg a.rd then fuseTmpReg else r) =
        b.srcRegs := by
      refine (map_congr_left fun r hr => ?_).trans (map_id b.srcRegs)
      have hne : r ≠ intReg a.rd := by rintro rfl; exact hmem hr
      simp [hne]
    have hpf₁ := hpf.setReg_fresh hv x
    rw [if_neg hmem, hsubst, hpf₁.map_getReg fun r => b.srcRegs_eq_intReg]
    have hread : b.srcRegs.map (readReg (writeReg s.regs (intReg a.rd) x)) =
        b.srcRegs.map (readReg s.regs) :=
      map_congr_left fun r hr => readReg_writeReg_of_ne _ _ fun h => hmem (h ▸ hr)
    rw [hread]
    intro n
    rw [hpf₁.setReg_rename hv _ n, readReg_writeReg, readReg_writeReg, readReg_writeReg]
    split <;> rfl
end

/-- **Every chain row preserves meaning.**  The pair is fused, and the fused instruction does what
the two do in order, whatever they compute. -/
theorem chain_row_preserves (alu : AluSem) {k₁ k₂ : FusionKey} {name : String} {check : Check}
    (hrow : IsRow k₁ k₂ (.chain name check)) {first second : Inst}
    (h₁ : k₁.admits first = true) (h₂ : k₂.admits second = true)
    (hcheck : check.holds first second = true) :
    ∃ same, (FuseCreator.chain name check).create first second =
        .ok (some (.chain name second.opClass first second same)) ∧
      (FusionInst.chain name second.opClass first second same).Preserves alu := by
  obtain ⟨a, b, ha, hb, hka, hkb, hsame⟩ := hrow.pairs h₁ h₂
  have same := Check.dest_eq_of_sameDest hsame hcheck
  refine ⟨same, FuseCreator.create_of_build hcheck ?_, ?_⟩
  · rw [FuseCreator.build, newChain, dif_pos same]
  · exact chain_preserves alu name second.opClass same
      ⟨ha, deCompress_kind_alu.1 hka⟩ ⟨hb, deCompress_kind_alu.1 hkb⟩

/-- `slli x5, x6, 32` -/
def slliX5X6 : Inst := .fetched 0 1 (.scalar ⟨.slli, 5, 6, 0, 32, by decide⟩)

/-- `srli x5, x5, 32` -/
def srliX5X5 : Inst := .fetched 4 2 (.scalar ⟨.srli, 5, 5, 0, 32, by decide⟩)

/-- The two are fused into `low32`. -/
theorem low32_preserves :
    ∃ same, (FuseCreator.chain "low32" .overwrites).create slliX5X6 srliX5X5 =
        .ok (some (.chain "low32" .intAlu slliX5X6 srliX5X5 same)) ∧
      (FusionInst.chain "low32" .intAlu slliX5X6 srliX5X5 same).Preserves Opcode.result :=
  chain_row_preserves Opcode.result ⟨_, mem_cons_self, rfl, mem_cons_self⟩
    (by decide) (by decide) (by decide)

end Gem5
