import Gem5.Fusion.Exec
import Gem5.Decode.Fuse

/-!
# Load-load fusion

`SeqLoadFusionInst` reads the bytes of two adjacent loads at once and hands each part its share.  It
preserves the meaning of the pair as long as the first load leaves the common base alone, which
`SeqLoadCheck` asks for.  The order of the two writes, sign extension and equal destinations make no
difference.
-/

namespace Gem5
open FusionInst FuseCreator ScalarInst Bytes Inst

theorem ScalarInst.effAddr_of_next {a b : ScalarInst} {m : ℕ} (hnext : b.imm = a.imm + m)
    (x : RegVal) : b.effAddr x = a.effAddr x + (m : Addr) := by
  unfold effAddr
  rw [hnext, BitVec.ofInt_add, add_assoc]
  simp

section
variable {first second : Inst} {a b : ScalarInst} {m n memsize : ℕ}
  {base : first.srcRegIdx 0 = second.srcRegIdx 0}
  {next : first.getImm + first.staticInst.operWid / 8 = second.getImm}
  {access : first.staticInst.memAccessFlags = second.staticInst.memAccessFlags}
  {size : first.staticInst.operWid / 8 + second.staticInst.operWid / 8 = memsize}

theorem seqLoad_layout (ha : first.IsLoad a m) (hb : second.IsLoad b n)
    (base : first.srcRegIdx 0 = second.srcRegIdx 0)
    (next : first.getImm + first.staticInst.operWid / 8 = second.getImm)
    (size : first.staticInst.operWid / 8 + second.staticInst.operWid / 8 = memsize) :
    b.base = a.base ∧ b.imm = a.imm + m ∧ memsize = m + n := by
  rw [ha.srcRegIdx_zero, hb.srcRegIdx_zero, intReg_inj] at base
  rw [getImm_scalar ha.static, getImm_scalar hb.static, ha.operWid] at next
  rw [ha.operWid, hb.operWid] at size
  exact ⟨base.symm, next.symm, by omega⟩

variable (alu : AluSem) (name : String) (op : OpClass)

theorem FusionInst.seqLoad_initiateAcc (ha : first.IsLoad a m) (hb : second.IsLoad b n)
    (st : RenameState) (ds : List VirtRegId) (pf : PhysRegFile) :
    let f := seqLoad memsize name op first second base next access size
    f.initiateAcc alu ⟨f.srcRegs.map st.map, ds⟩ pf =
      .ok (pf, ⟨a.effAddr (pf.getReg (st.map (intReg a.base))), m + n⟩) := by
  intro f
  obtain ⟨-, -, hsize⟩ := seqLoad_layout ha hb base next size
  simp [f, initiateAcc, srcRegs, Operands.src, bind, Except.bind,
    ha.srcRegIdx_zero, getImm_scalar ha.static, effAddr, hsize]

theorem FusionInst.completeAcc_seqLoad (srcs vs : List VirtRegId) (v₀ v₁ : VirtRegId)
    (pf : PhysRegFile) (pkt : List (BitVec 8)) :
    (seqLoad memsize name op first second base next access size).completeAcc
        ⟨srcs, v₀ :: v₁ :: vs⟩ pf pkt = (do
      let pf₁ ← first.completeAcc ⟨[], [v₀]⟩ pf (pkt.take first.size)
      second.completeAcc ⟨[], [v₁]⟩ pf₁ ((pkt.drop first.size).take second.size)) := rfl

theorem FusionInst.run_seqLoad (o : Operands) (pf : PhysRegFile) (mem : Mem) :
    let f := seqLoad memsize name op first second base next access size
    f.run alu o pf mem = (do
      let (pf₁, req) ← f.initiateAcc alu o pf
      let pf₂ ← f.completeAcc o pf₁ (read mem req.addr req.size)
      .ok (pf₂, second.getNPC)) := rfl

section
variable (ha : first.IsLoad a m) (hb : second.IsLoad b n)
include ha hb

theorem FusionInst.seqLoad_run (st : RenameState) (v₀ v₁ : VirtRegId) (vs : List VirtRegId)
    (pf : PhysRegFile) (mem : Mem) :
    let f := seqLoad memsize name op first second base next access size
    let ea := a.effAddr (pf.getReg (st.map (intReg a.base)))
    f.run alu ⟨f.srcRegs.map st.map, v₀ :: v₁ :: vs⟩ pf mem =
      if a.illegal || b.illegal then .error (.fault .illegalInst)
      else .ok ((pf.setReg v₀.phyReg (a.loaded (read mem ea m))).setReg v₁.phyReg
        (b.loaded (read mem (ea + (m : Addr)) n)), second.getNPC) := by
  intro f ea
  have hinit : f.initiateAcc alu ⟨f.srcRegs.map st.map, v₀ :: v₁ :: vs⟩ pf =
      .ok (pf, ⟨ea, m + n⟩) := seqLoad_initiateAcc alu name op ha hb st (v₀ :: v₁ :: vs) pf
  rw [run_seqLoad, hinit]
  simp only [bind, Except.bind, completeAcc_seqLoad, ha.size, hb.size, take_read_add, drop_read_add]
  rw [List.take_of_length_le (by simp), ha.completeAcc v₀ pf (by simp)]
  by_cases hla : a.illegal
  · simp [hla]
  · simp only [hla, if_false, Bool.false_eq_true]
    rw [hb.completeAcc v₁ _ (by simp)]
    by_cases hlb : b.illegal <;> simp [hlb]

/-- The destinations of a pair: if one of the two is `x0`, the base becomes the third one, and `x0`
as the first one makes the second one invalid. -/
theorem FusionInst.seqLoad_destRegs :
    (seqLoad memsize name op first second base next access size).destRegs =
      if a.rd ≠ 0 ∧ b.rd ≠ 0 then [intReg a.rd, intReg b.rd]
      else intReg a.rd :: RegId.invalid :: intReg a.base ::
        if a.rd = 0 ∧ b.rd = 0 then [RegId.invalid] else [] := by
  simp only [FusionInst.destRegs, operands, setDests, FusionInst.srcRegs, ha.destRegIdx,
    hb.destRegIdx, ha.srcRegIdx_zero, List.foldl_cons, List.foldl_nil, OperandRecord.addSrc]
  have hzero : RegId.invalid.regClass = .invalid := rfl
  have hint {k : Fin 32} (hk : k ≠ 0) : (intReg k).regClass = .int := by simp [intReg, hk]
  by_cases hda : a.rd = 0 <;> by_cases hdb : b.rd = 0 <;>
    simp [hda, hdb, OperandRecord.addDest, OperandRecord.incTyped, OperandRecord.destRegs,
      OperandRecord.empty, List.range_succ, hzero, hint, intReg_zero]

theorem FusionInst.seqLoad_renameInst {st st' : RenameState} {o : Operands}
    (hren : st.renameInst (seqLoad memsize name op first second base next access size).srcRegs
      (seqLoad memsize name op first second base next access size).destRegs = some (o, st')) :
    ∃ v₀ v₁ vs, o = ⟨(seqLoad memsize name op first second base next access size).srcRegs.map
      st.map, v₀ :: v₁ :: vs⟩ := by
  rw [seqLoad_destRegs name op ha hb] at hren
  split_ifs at hren <;>
    obtain ⟨v₀, v₁, st₁, st₂, vs, -, -, -, rfl⟩ := RenameState.renameInst_two hren <;>
    exact ⟨v₀, v₁, vs, rfl⟩

section
variable (hkeep : a.rd ≠ a.base)
include hkeep

theorem seqLoad_inOrder (hla : a.illegal = false) (hlb : b.illegal = false)
    (base : first.srcRegIdx 0 = second.srcRegIdx 0)
    (next : first.getImm + first.staticInst.operWid / 8 = second.getImm) (s : ArchState) :
    let ea := a.effAddr (readReg s.regs (intReg a.base))
    execInOrder alu [first, second] s = .ok { s with
      regs := writeReg (writeReg s.regs (intReg a.rd) (a.loaded (read s.mem ea m))) (intReg b.rd)
        (b.loaded (read s.mem (ea + (m : Addr)) n))
      npc := second.getNPC } := by
  intro ea
  obtain ⟨hbase, hnext, -⟩ := seqLoad_layout ha hb base next
    (show _ = ((m + n : ℕ) : ℤ) by rw [ha.operWid, hb.operWid, Nat.cast_add])
  have hread (x : RegVal) : readReg (writeReg s.regs (intReg a.rd) x) (intReg b.base) =
      readReg s.regs (intReg a.base) := by
    rw [hbase, readReg_writeReg_of_ne]
    rw [ne_eq, intReg_inj]
    exact hkeep.symm
  simp only [execInOrder, ha.exec, hb.exec, hla, hlb, if_false, Bool.false_eq_true, hread,
    effAddr_of_next hnext, ea]

theorem FusionInst.seqLoad_destRegs_of
    (hd : (a.rd ≠ 0 ∧ b.rd ≠ 0) ∨ (b.rd = 0 ∧ a.base = 0)) :
    ∃ ds, (∀ d ∈ ds, d = RegId.invalid) ∧
      (seqLoad memsize name op first second base next access size).destRegs =
        intReg a.rd :: intReg b.rd :: ds := by
  rw [seqLoad_destRegs name op ha hb]
  rcases hd with hd | ⟨hd, hbase⟩
  · exact ⟨[], by simp, if_pos hd⟩
  · have hda : a.rd ≠ 0 := hbase ▸ hkeep
    exact ⟨[RegId.invalid], by simp, by simp [hd, hda, hbase, intReg_zero]⟩

/-- **Load-load fusion preserves meaning**, if the first load keeps the base and both destinations
are renamed, or the only register added to them is `x0`. -/
theorem FusionInst.seqLoad_preserves
    (hd : (a.rd ≠ 0 ∧ b.rd ≠ 0) ∨ (b.rd = 0 ∧ a.base = 0)) :
    (seqLoad memsize name op first second base next access size).Preserves alu := by
  intro st st' o pf s hpf hren
  obtain ⟨ds, hds, hdests⟩ : ∃ ds, (∀ d ∈ ds, d = RegId.invalid) ∧
      (seqLoad memsize name op first second base next access size).destRegs =
        intReg a.rd :: intReg b.rd :: ds := seqLoad_destRegs_of name op ha hb hkeep hd
  rw [hdests] at hren
  obtain ⟨v₀, v₁, st₁, st₂, vs, hv₀, hv₁, hvs, rfl⟩ := RenameState.renameInst_two hren
  obtain rfl := RenameState.renameDests_invalid hds hvs
  rw [seqLoad_run alu name op ha hb st v₀ v₁ vs pf s.mem, hpf a.base]
  by_cases hla : a.illegal
  · simp [parts, execInOrder, ha.exec, hla, Agrees]
  by_cases hlb : b.illegal
  · simp [parts, execInOrder, ha.exec, hb.exec, hla, hlb, Agrees]
  rw [parts, seqLoad_inOrder alu ha hb hkeep (by simpa using hla) (by simpa using hlb) base next s]
  simp only [hla, hlb, if_false, Agrees, Bool.or_self, Bool.false_eq_true, and_true]
  exact (hpf.setReg_rename hv₀ _).setReg_rename hv₁ _

/-- Otherwise the base is named by a register that nobody writes. -/
theorem FusionInst.seqLoad_base_stale {f : FusionInst}
    (hf : f = seqLoad memsize name op first second base next access size)
    (hd : ¬((a.rd ≠ 0 ∧ b.rd ≠ 0) ∨ (b.rd = 0 ∧ a.base = 0))) :
    (intReg a.base).regClass ≠ .invalid ∧ ∃ v₀ v₁ vs st' p,
      (RenameState.identity 4).renameInst f.srcRegs f.destRegs =
        some (⟨f.srcRegs.map (RenameState.identity 4).map, v₀ :: v₁ :: vs⟩, st') ∧
      st'.map (intReg a.base) = .of p ∧ p.regClass ≠ .invalid ∧
      p ∈ (RenameState.identity 4).free (intReg a.base).regClass ∧
      v₀.phyReg ≠ p ∧ v₁.phyReg ≠ p := by
  have hzero : ¬(a.rd ≠ 0 ∧ b.rd ≠ 0) := fun hn => hd (.inl hn)
  have hbase : a.base ≠ 0 := by
    intro hb0
    have hda : a.rd ≠ 0 := hb0 ▸ hkeep
    exact hd (.inr ⟨by_contra fun hdb => hzero ⟨hda, hdb⟩, hb0⟩)
  have hcls : (intReg a.base).regClass ≠ .invalid := by simpa [intReg_invalid_class] using hbase
  obtain ⟨⟨o, st'⟩, hren⟩ := f.exists_rename
  have hren' := hren
  rw [hf, seqLoad_destRegs name op ha hb, if_neg hzero, ← hf] at hren'
  obtain ⟨v₀, v₁, st₁, st₂, vs, hv₀, hv₁, hvs, rfl⟩ := RenameState.renameInst_two hren'
  obtain ⟨w, st₃, ws, hw, hws, rfl⟩ := RenameState.renameDests_cons hvs
  obtain rfl : st' = st₃ := by
    refine RenameState.renameDests_invalid (fun d hd => ?_) hws
    split_ifs at hd
    · exact List.mem_singleton.1 hd
    · cases hd
  have hmap₁ := RenameState.map_rename hv₁
  obtain ⟨-, rfl⟩ := RenameState.rename_zero hv₁
  have hfree := (RenameState.rename_free hw).1 ((intReg_isRenameable _).2 hbase)
  rcases RenameState.rename_cases hw with ⟨hno, -⟩ | ⟨-, p, hp, rfl, hfresh, hmap⟩
  · simp [(intReg_isRenameable _).2 hbase] at hno
  refine ⟨hcls, v₀, v₁, _, st', p, hren, by rw [hmap, Function.update_self], hp ▸ hcls,
    (RenameState.rename_free hv₀).2 _ hfree, ?_, ?_⟩
  · rw [← RenameState.map_rename hv₀]
    exact hfresh _
  · rw [← hmap₁]
    exact hfresh _

theorem FusionInst.seqLoad_not_preserves (hla : a.illegal = false) (hlb : b.illegal = false)
    (hd : ¬((a.rd ≠ 0 ∧ b.rd ≠ 0) ∨ (b.rd = 0 ∧ a.base = 0))) :
    ¬(seqLoad memsize name op first second base next access size).Preserves alu := by
  intro h
  obtain ⟨hcls, v₀, v₁, vs, st', p, hren, hmap, hp, hfree, hne₀, hne₁⟩ :=
    seqLoad_base_stale name op ha hb hkeep rfl hd
  let s : ArchState := ⟨fun _ => 0, fun _ => 0, ⟨fun _ _ => 0, fun _ => 0⟩, 0⟩
  obtain ⟨t, ht⟩ : ∃ t, execInOrder alu [first, second] s = .ok t :=
    ⟨_, seqLoad_inOrder alu ha hb hkeep hla hlb base next s⟩
  -- the register holds something else than the base in order
  let stale : PhysRegFile := fun _ => readReg t.regs (intReg a.base) + 1
  have hagree := h _ _ _ (RenameState.identityFile stale s.regs) s
    (RenameState.represents_identityFile 4 stale s.regs) hren
  rw [seqLoad_run alu name op ha hb _ v₀ v₁ vs _ s.mem, parts, ht] at hagree
  simp only [hla, hlb, Bool.or_self, Bool.false_eq_true, if_false] at hagree
  have hval := hagree.1 a.base
  rw [hmap, PhysRegFile.getReg_setReg_of_ne _ _ hne₁.symm,
    PhysRegFile.getReg_setReg_of_ne _ _ hne₀.symm, PhysRegFile.getReg_of _ hp,
    RenameState.identityFile_of_free _ _ hfree] at hval
  simp [stale] at hval

theorem FusionInst.seqLoad_preserves_iff :
    (seqLoad memsize name op first second base next access size).Preserves alu ↔
      a.illegal = true ∨ b.illegal = true ∨ (a.rd ≠ 0 ∧ b.rd ≠ 0) ∨ (b.rd = 0 ∧ a.base = 0) := by
  constructor
  · intro h
    by_contra hno
    simp only [not_or, Bool.not_eq_true] at hno
    exact seqLoad_not_preserves alu name op ha hb hkeep hno.1 hno.2.1 (not_or.2 hno.2.2) h
  · rintro (hla | hlb | hd)
    · intro st st' o pf s hpf hren
      obtain ⟨v₀, v₁, vs, rfl⟩ := seqLoad_renameInst name op ha hb hren
      rw [seqLoad_run alu name op ha hb st v₀ v₁ vs pf s.mem]
      simp [parts, execInOrder, ha.exec, hla, Agrees]
    · intro st st' o pf s hpf hren
      obtain ⟨v₀, v₁, vs, rfl⟩ := seqLoad_renameInst name op ha hb hren
      rw [seqLoad_run alu name op ha hb st v₀ v₁ vs pf s.mem]
      by_cases hla : a.illegal
      · simp [parts, execInOrder, ha.exec, hla, Agrees]
      · simp [parts, execInOrder, ha.exec, hb.exec, hla, hlb, Agrees]
    · exact seqLoad_preserves alu name op ha hb hkeep hd
end

theorem FusionInst.seqLoad_loadsSame (hkeep : a.rd ≠ a.base) :
    (seqLoad memsize name op first second base next access size).LoadsSame alu := by
  intro st st' o pf s t hpf hren hok
  obtain ⟨v₀, v₁, vs, rfl⟩ := seqLoad_renameInst name op ha hb hren
  obtain ⟨hbase, hnext, -⟩ := seqLoad_layout ha hb base next size
  refine ⟨_, _, seqLoad_initiateAcc alu name op ha hb st _ pf, ?_⟩
  simp only [parts, execInOrder, ha.exec, hb.exec] at hok
  have hla : a.illegal = false := by
    cases hla : a.illegal with
    | true => simp [hla] at hok
    | false => rfl
  simp only [parts, loadsInOrder, ha.exec, hb.exec, ha.loadAddrs, hb.loadAddrs, hla,
    Bool.false_eq_true, if_false, hpf a.base, span_add]
  rw [hbase, readReg_writeReg_of_ne _ _ (by rw [ne_eq, intReg_inj]; exact hkeep.symm),
    effAddr_of_next hnext]
  split <;> simp
end
end

theorem FuseCreator.seqLd_create {name : String} {size : ℕ} {check : Check} {x y : Inst}
    {a b : ScalarInst} {f : FusionInst} (ha : x.staticInst = .scalar a)
    (hb : y.staticInst = .scalar b)
    (hpairs : (seqLd name size check).Pairs (deCompress a.op) (deCompress b.op))
    (hf : (seqLd name size check).create x y = .ok (some f)) :
    x.IsLoad a a.op.bytes ∧ y.IsLoad b b.op.bytes ∧ a.rd ≠ a.base ∧
      ∃ base next access size', f = .seqLoad size name y.opClass x y base next access size' := by
  obtain ⟨hka, hkb, -, rfl⟩ := hpairs
  rw [deCompress_bytes] at hka hkb
  have hla := isLoad_of_bytes ha hka
  have hlb := isLoad_of_bytes hb hkb
  obtain ⟨hcheck, hbuild⟩ := create_eq_some hf
  refine ⟨hla, hlb, ?_, ?_⟩
  · simp only [FuseCreator.check, Check.adjacent, Check.holds, Bool.and_eq_true,
      decide_eq_true_eq] at hcheck
    obtain ⟨⟨-, hkeep, -⟩, -⟩ := hcheck
    rwa [hla.destRegIdx, hla.srcRegIdx_zero, ne_eq, intReg_inj] at hkeep
  · simp only [build, newSeqLoad] at hbuild
    split_ifs at hbuild with hbase hnext haccess hsize
    cases hbuild
    exact ⟨hbase, hnext, haccess, hsize, rfl⟩

/-- **Consecutive load-load fusion.**  Two loads that decode fuses make one read of exactly the
bytes that the two read.  They write the same registers as in order exactly if one of them is
illegal, neither destination is `x0`, or the base is `x0` and so is the second destination. -/
theorem load_pair_preserves_iff (alu : AluSem) {c : DecodeConfig} {now : ℕ} {w w' : IgnoreWindow}
    {vec vec' : List DynInst} {x cur : Inst} {d : DynInst}
    (h : checkAndFuseInsts c now w vec cur = .ok (w', some (vec', d)))
    (hx : vec.getLast? = some (.plain x)) (hload : x.flags.isLoad = true) :
    ∃ f a b, d = .mkFused x cur f ∧ f.parts = [x, cur] ∧ x.staticInst = .scalar a ∧
      cur.staticInst = .scalar b ∧ f.LoadsSame alu ∧
      (f.Preserves alu ↔ a.illegal = true ∨ b.illegal = true ∨ (a.rd ≠ 0 ∧ b.rd ≠ 0) ∨
        (b.rd = 0 ∧ a.base = 0)) := by
  obtain ⟨y, creator, f, hvec, hlook, hf, rfl, -⟩ := checkAndFuseInsts_fused h
  obtain rfl : y = x := by simpa [hvec] using hx
  obtain ⟨k₁, k₂, hrow, h₁, h₂⟩ := lookup_row hlook
  obtain ⟨a, b, ha, hb, hpairs⟩ := hrow.pairs h₁ h₂
  obtain ⟨name, size, check, rfl⟩ := hpairs.seqLd_of_load
    (by simpa using (isLoad_scalar ha).1 hload)
  obtain ⟨hla, hlb, hkeep, base, next, access, size', rfl⟩ :=
    seqLd_create ha hb hpairs hf
  exact ⟨_, a, b, rfl, rfl, ha, hb, seqLoad_loadsSame alu name _ hla hlb hkeep,
    seqLoad_preserves_iff alu name _ hla hlb hkeep⟩

/-- `lw x5, 0(x10)` -/
def lwX5 : Inst := .fetched 0x80000000 1 (.scalar ⟨.lw, 5, 10, 0, 0, Opcode.immOk_zero _⟩)

/-- `lwu x6, 4(x10)` -/
def lwuX6 : Inst := .fetched 0x80000004 2 (.scalar ⟨.lwu, 6, 10, 0, 4, by decide⟩)

/-- The two are fused, and the pair is preserved. -/
theorem lwlw_preserves : ∃ f,
    checkAndFuseInsts .full 0 .closed [.plain lwX5] lwuX6 =
      .ok (.closed, some ([], .mkFused lwX5 lwuX6 f)) ∧
    f.Preserves Opcode.result ∧ f.LoadsSame Opcode.result := by
  obtain ⟨f, hf⟩ : ∃ f, checkAndFuseInsts .full 0 .closed [.plain lwX5] lwuX6 =
      .ok (.closed, some ([], .mkFused lwX5 lwuX6 f)) := ⟨_, rfl⟩
  obtain ⟨g, a, b, hg, -, ha, hb, hloads, hpres⟩ := load_pair_preserves_iff Opcode.result hf rfl rfl
  cases hg
  cases ha
  cases hb
  exact ⟨f, hf, hpres.2 (.inr (.inr (.inl (by decide)))), hloads⟩

/-- `lw x0, 4(x10)` -/
def lwX0 : Inst := .fetched 0x80000004 2 (.scalar ⟨.lw, 0, 10, 0, 4, by decide⟩)

/-- `lw x5, 0(x10)` and `lw x0, 4(x10)`, fused. -/
def lwPair : FusionInst := .seqLoad 8 "lwlw" .memRead lwX5 lwX0 rfl rfl rfl rfl

/-- `lw x5, 0(x10)` and `lw x0, 4(x10)` are fused; the pair has `x10` as its third destination,
which neither load writes. -/
theorem lwPair_not_preserved :
    checkAndFuseInsts .full 0 .closed [.plain lwX5] lwX0 =
      .ok (.closed, some ([], .mkFused lwX5 lwX0 lwPair)) ∧
    lwPair.destRegs = [intReg 5, RegId.invalid, intReg 10] ∧ ¬lwPair.Preserves Opcode.result := by
  refine ⟨rfl, by decide, ?_⟩
  have ha : lwX5.IsLoad ⟨.lw, 5, 10, 0, 0, Opcode.immOk_zero _⟩ 4 := ⟨rfl, true, rfl⟩
  have hb : lwX0.IsLoad ⟨.lw, 0, 10, 0, 4, by decide⟩ 4 := ⟨rfl, true, rfl⟩
  exact seqLoad_not_preserves Opcode.result "lwlw" .memRead ha hb (by decide) rfl rfl (by decide)

end Gem5
