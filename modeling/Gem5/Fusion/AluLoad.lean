import Gem5.Fusion.Exec
import Gem5.Fusion.Table

/-!
# Address-plus-load fusion

`AluLoadFusionInst` runs the address computation into the temporary when the access is initiated,
reads the base of the load from there, and completes the load into the fused destination.  The pair
has one common register: the destination of both parts and the base of the load.
-/

namespace Gem5
open FusionInst Operands

section
variable {first second : Inst} {a b : ScalarInst} {n memsize : ℕ}
  {base : first.destRegIdx 0 = second.srcRegIdx 1}
  {self : second.destRegIdx 0 = second.srcRegIdx 0}
  {size : second.staticInst.operWid / 8 = memsize}

theorem aluLoad_layout (ha : first.IsAlu a) (hb : second.IsLoad b n)
    (base : first.destRegIdx 0 = second.srcRegIdx 1)
    (self : second.destRegIdx 0 = second.srcRegIdx 0)
    (size : second.staticInst.operWid / 8 = memsize) :
    b.rd = a.rd ∧ b.base = a.rd ∧ memsize = n := by
  rw [ha.destRegIdx, hb.srcRegIdx_one, intReg_inj] at base
  rw [hb.destRegIdx, hb.srcRegIdx_zero, intReg_inj] at self
  rw [hb.operWid] at size
  exact ⟨base.symm, self.symm.trans base.symm, by omega⟩

variable (alu : AluSem) (name : String) (op : OpClass)

theorem FusionInst.initiateAcc_aluLoad (o : Operands) (pf : PhysRegFile) :
    (aluLoad memsize name op first second base self size).initiateAcc alu o pf = (do
      let tmp ← o.src first.srcRegs.length
      let (pf₁, _) ← first.execute alu ⟨o.srcIdx.take first.srcRegs.length, [tmp]⟩ pf
      let s₀ ← src ⟨o.srcIdx.drop first.srcRegs.length, []⟩ 0
      .ok (pf₁, ⟨pf₁.getReg s₀ + BitVec.ofInt 64 second.getImm, memsize⟩)) := rfl

theorem FusionInst.run_aluLoad (srcs ds : List VirtRegId) (v : VirtRegId) (pf : PhysRegFile)
    (mem : Mem) :
    let f := aluLoad memsize name op first second base self size
    f.run alu ⟨srcs, v :: ds⟩ pf mem = (do
      let (pf₁, req) ← f.initiateAcc alu ⟨srcs, v :: ds⟩ pf
      let pf₂ ← second.completeAcc ⟨[], [v]⟩ pf₁ (Bytes.read mem req.addr req.size)
      .ok (pf₂, second.getNPC)) := rfl

section
variable (ha : first.IsAlu a) (hb : second.IsLoad b n)
include ha hb

theorem FusionInst.aluLoad_initiateAcc (st : RenameState) (ds : List VirtRegId) (pf : PhysRegFile) :
    let f := aluLoad memsize name op first second base self size
    let x := alu a.op a.imm first.getPC ((a.srcRegs.map st.map).map pf.getReg)
    f.initiateAcc alu ⟨f.srcRegs.map st.map, ds⟩ pf =
      if a.illegal then .error (.fault .illegalInst)
      else .ok (pf.setReg (st.map fuseTmpReg).phyReg x, ⟨b.effAddr x, n⟩) := by
  intro f x
  obtain ⟨-, -, hsize⟩ := aluLoad_layout ha hb base self size
  have hsrcs : f.srcRegs.map st.map = a.srcRegs.map st.map ++ [st.map fuseTmpReg] := by
    simp [f, srcRegs, Inst.srcRegs_scalar ha.static]
  have hlen : first.srcRegs.length = (a.srcRegs.map st.map).length := by
    simp [Inst.srcRegs_scalar ha.static]
  have htmp : src ⟨f.srcRegs.map st.map, ds⟩ first.srcRegs.length =
      .ok (st.map fuseTmpReg) := by
    simp [src, hsrcs, hlen]
  have htake : (f.srcRegs.map st.map).take first.srcRegs.length = a.srcRegs.map st.map := by
    rw [hsrcs, hlen, List.take_left]
  have hdrop : (f.srcRegs.map st.map).drop first.srcRegs.length = [st.map fuseTmpReg] := by
    rw [hsrcs, hlen, List.drop_left]
  rw [initiateAcc_aluLoad, htmp, htake, hdrop]
  simp only [bind, Except.bind, ha.execute alu (List.length_map _)]
  by_cases hla : a.illegal
  · simp [hla]
  · simp [hla, src, st.getReg_setReg_fuseTmp, hsize, x, ScalarInst.effAddr,
      Inst.getImm_scalar hb.static]

theorem FusionInst.aluLoad_run (st : RenameState) (v : VirtRegId) (ds : List VirtRegId)
    (pf : PhysRegFile) (mem : Mem) :
    let f := aluLoad memsize name op first second base self size
    let x := alu a.op a.imm first.getPC ((a.srcRegs.map st.map).map pf.getReg)
    f.run alu ⟨f.srcRegs.map st.map, v :: ds⟩ pf mem =
      if a.illegal || b.illegal then .error (.fault .illegalInst)
      else .ok ((pf.setReg (st.map fuseTmpReg).phyReg x).setReg v.phyReg
        (b.loaded (Bytes.read mem (b.effAddr x) n)), second.getNPC) := by
  intro f x
  have hinit : f.initiateAcc alu ⟨f.srcRegs.map st.map, v :: ds⟩ pf =
      if a.illegal then .error (.fault .illegalInst)
      else .ok (pf.setReg (st.map fuseTmpReg).phyReg x, ⟨b.effAddr x, n⟩) :=
    aluLoad_initiateAcc alu name op ha hb st (v :: ds) pf
  rw [run_aluLoad, hinit]
  by_cases hla : a.illegal
  · simp [hla, bind, Except.bind]
  · simp only [hla, if_false, Bool.false_eq_true, bind, Except.bind]
    rw [hb.completeAcc v _ (by simp)]
    by_cases hlb : b.illegal <;> simp [hlb]

/-- **Address-plus-load fusion preserves meaning.**  When the common register is `x0` the read may
start elsewhere, but its result is dropped. -/
theorem FusionInst.aluLoad_preserves :
    (aluLoad memsize name op first second base self size).Preserves alu := by
  intro st st' o pf s hpf hren
  obtain ⟨v, ds, hv, rfl⟩ := FusionInst.renameInst_one rfl hren
  obtain ⟨hrd, hbase, -⟩ := aluLoad_layout ha hb base self size
  rw [hb.destRegIdx, hrd] at hv
  rw [aluLoad_run alu name op ha hb st v ds pf s.mem, hpf.map_getReg fun r => a.srcRegs_eq_intReg]
  simp only [parts, execInOrder, ha.exec, hb.exec]
  by_cases hla : a.illegal
  · simp [hla, Agrees]
  by_cases hlb : b.illegal
  · simp [hla, hlb, Agrees]
  simp only [hla, hlb, if_false, Agrees, Bool.or_self, Bool.false_eq_true, and_true, hrd, hbase]
  generalize alu a.op a.imm first.getPC (a.srcRegs.map (readReg s.regs)) = x
  have hpf₁ := hpf.setReg_fuseTmp x
  by_cases hd : a.rd = 0
  · rw [hd] at hv ⊢
    obtain ⟨rfl, rfl⟩ := RenameState.rename_zero hv
    exact hpf₁
  · have hcls : (intReg a.rd).regClass ≠ .invalid := by simpa [intReg_invalid_class] using hd
    intro m
    rw [hpf₁.setReg_rename hv _ m, readReg_writeReg_self _ _ hcls, readReg_writeReg,
      readReg_writeReg, readReg_writeReg]
    split <;> rfl

theorem FusionInst.aluLoad_loadsSame (hd : a.rd ≠ 0) :
    (aluLoad memsize name op first second base self size).LoadsSame alu := by
  intro st st' o pf s t hpf hren hok
  obtain ⟨v, ds, -, rfl⟩ := FusionInst.renameInst_one rfl hren
  obtain ⟨hrd, hbase, -⟩ := aluLoad_layout ha hb base self size
  have hcls : (intReg a.rd).regClass ≠ .invalid := by simpa [intReg_invalid_class] using hd
  have hla : a.illegal = false := by
    cases hla : a.illegal with
    | true => simp [parts, execInOrder, ha.exec, hla] at hok
    | false => rfl
  refine ⟨_, _, (aluLoad_initiateAcc alu name op ha hb st (v :: ds) pf).trans
    (if_neg (by simp [hla])), ?_⟩
  simp only [parts, loadsInOrder, ha.exec, hb.exec, ha.loadAddrs, hb.loadAddrs, hla,
    Bool.false_eq_true, if_false, hbase, readReg_writeReg_self _ _ hcls,
    hpf.map_getReg fun r => a.srcRegs_eq_intReg]
  split <;> simp
end
end

/-- **Address-plus-load fusion preserves meaning.**  A pair that a row of the table admits is fused;
the fused instruction writes the registers that the two write in order, and reads the bytes that the
load reads after the address computation. -/
theorem aluLd_row_preserves (alu : AluSem) {k₁ k₂ : FusionKey} {name : String} {size : ℕ}
    {check : Check} (hrow : IsRow k₁ k₂ (.aluLd name size check)) {first second : Inst}
    (h₁ : k₁.admits first = true) (h₂ : k₂.admits second = true)
    (hcheck : check.holds first second = true) (hrd : second.destRegIdx 0 ≠ RegId.invalid) :
    ∃ f, (FuseCreator.aluLd name size check).create first second = .ok (some f) ∧
      f.parts = [first, second] ∧ f.Preserves alu ∧ f.LoadsSame alu := by
  obtain ⟨a, b, ha, hb, hka, hkb, hsize, rfl⟩ := hrow.pairs h₁ h₂
  rw [deCompress_bytes] at hkb hsize
  have hla : first.IsAlu a := ⟨ha, kind_of_address hka⟩
  have hlb := Inst.isLoad_of_bytes hb hkb
  obtain ⟨hdest, hself⟩ : first.destRegIdx 0 = second.destRegIdx 0 ∧
      second.destRegIdx 0 = second.srcRegIdx 0 := by
    simpa [Check.overwrites, Check.holds] using hcheck
  have hbase : first.destRegIdx 0 = second.srcRegIdx 1 := by
    rw [hdest, hlb.destRegIdx, hlb.srcRegIdx_one]
  have hwid : second.staticInst.operWid / 8 = size := by rw [hlb.operWid, hsize]
  have hd : a.rd ≠ 0 := by
    rwa [← hdest, hla.destRegIdx, ne_eq, intReg_eq_invalid] at hrd
  refine ⟨.aluLoad size name second.opClass first second hbase hself hwid,
    FuseCreator.create_of_build hcheck ?_, rfl,
    aluLoad_preserves alu name _ hla hlb,
    aluLoad_loadsSame alu name _ hla hlb hd⟩
  rw [FuseCreator.build, newAluLoad, dif_pos hbase, dif_pos hself, dif_pos hwid]

/-- `auipc x5, 4096` -/
def auipcX5 : Inst := .fetched 0x80000000 1 (.scalar ⟨.auipc, 5, 0, 0, 4096, by decide⟩)

/-- `lbu x5, -8(x5)` -/
def lbuX5 : Inst := .fetched 0x80000004 2 (.scalar ⟨.lbu, 5, 5, 0, -8, by decide⟩)

/-- The two are fused into `farlb`. -/
theorem farlb_preserves :
    ∃ f, (FuseCreator.aluLd "farlb" 1 .overwrites).create auipcX5 lbuX5 = .ok (some f) ∧
      f.parts = [auipcX5, lbuX5] ∧ f.Preserves Opcode.result ∧ f.LoadsSame Opcode.result :=
  aluLd_row_preserves Opcode.result
    (⟨(.anyImmKey .auipc, farLoads), by simp [fusionMap], rfl, by simp [farLoads]⟩ :
      IsRow (.anyImmKey .auipc) (.anyImmKey .lb) (.aluLd "farlb" 1 .overwrites))
    (by decide) (by decide) (by decide) (by decide)

end Gem5
