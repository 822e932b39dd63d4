import Gem5.Fusion.SeqLoad

/-!
# Non-consecutive load fusion

`checkAndFuseNonConsec` moves the tail load up to the head, over the instructions between them.  The
checks keep the tail's base and destination out of the gap, so by the frame rule the registers come
out the same: the one exception is the value the tail loads.  Nothing keeps a store in the gap from
writing the bytes that the tail reads.
-/

namespace Gem5
open List RegFile ArchState DynInst RenameState RegId

/-! ### Decoded lists by operands -/

abbrev Data := (RegId → RegVal) × (Mem × SysState)

abbrev ArchInstr := RegFile.Instr RegId RegVal (Mem × SysState) Stop

def ArchState.data (s : ArchState) : Data := (s.regs, (s.mem, s.sys))

def ScalarInst.effect (alu : AluSem) (a : ScalarInst) (pc : Addr) (vals : List RegVal)
    (m : Mem × SysState) : Except Stop (List RegVal × (Mem × SysState)) :=
  if a.illegal then .error (.fault .illegalInst)
  else
    match a.op.kind with
    | .alu => .ok ([alu a.op a.imm pc vals], m)
    | .branch => .ok ([], m)
    | .load n _ => .ok ([a.loaded (Bytes.read m.1 (a.effAddr (vals.getD 0 0)) n)], m)

def Inst.instr (alu : AluSem) (i : Inst) : ArchInstr where
  srcs := i.srcRegs
  dests := i.destRegs
  effect vals m :=
    match i.staticInst with
    | .scalar a => a.effect alu i.getPC vals m
    | .other o =>
      match o.run vals i.getPC m.1 m.2 with
      | .error f => .error (.fault f)
      | .ok e => .ok (e.vals, (e.mem, e.sys))

/-- The registers in which the sources of an instruction hold `vals`. -/
def sourceFile (srcs : List RegId) (vals : List RegVal) : RegId → RegVal :=
  fun r => ((srcs.zip vals).lookup r).getD 0

/-- What a fused instruction computes: it is renamed, its sources hold `vals`, and its destinations
are read back.  A destination that it does not write has what the free register held, in `stale`. -/
def FusionInst.effect (alu : AluSem) (stale : PhysRegFile) (f : FusionInst) (vals : List RegVal)
    (m : Mem × SysState) : Except Stop (List RegVal × (Mem × SysState)) :=
  match (RenameState.identity 4).renameInst f.srcRegs f.destRegs with
  | none => .error .unsupported
  | some (o, st') =>
    match f.run alu o (RenameState.identityFile stale (sourceFile f.srcRegs vals)) m.1 with
    | .error e => .error e
    | .ok (pf', _) => .ok (f.destRegs.map (st'.view pf'), m)

def DynInst.instr (alu : AluSem) (stale : PhysRegFile) : DynInst → ArchInstr
  | plain i => i.instr alu
  | fused _ f => ⟨f.srcRegs, f.destRegs, f.effect alu stale⟩

theorem DynInst.instr_srcs (alu : AluSem) (stale : PhysRegFile) (d : DynInst) :
    (d.instr alu stale).srcs = d.srcRegs := by
  cases d <;> rfl

theorem DynInst.instr_dests (alu : AluSem) (stale : PhysRegFile) (d : DynInst) :
    (d.instr alu stale).dests = d.destRegs := by
  cases d <;> rfl

def execData (alu : AluSem) (stale : PhysRegFile) (d : DynInst) (s : Data) : Except Stop Data :=
  RegFile.exec RegId.IsHard 0 (d.instr alu stale) s

/-- Execution in order; `stale k` is what the free registers hold when the `k`-th instruction is
renamed. -/
def runData (alu : AluSem) (stale : ℕ → PhysRegFile) (l : List DynInst) (s : Data) :
    Except Stop Data :=
  RegFile.run RegId.IsHard 0 (l.mapIdx fun k d => d.instr alu (stale k)) s

theorem execData_plain (alu : AluSem) (stale : PhysRegFile) (i : Inst) (s : ArchState) :
    execData alu stale (.plain i) s.data = (i.exec alu s).map data := by
  have hread (srcs : List RegId) :
      srcs.map (read IsHard 0 s.regs) = srcs.map (readReg s.regs) := rfl
  cases hi : i.staticInst with
  | other o =>
    simp only [execData, instr, exec, Inst.instr, Inst.exec, hi, data,
      Inst.srcRegs, Inst.destRegs, StaticInst.srcRegs, StaticInst.destRegs, hread]
    cases o.run (o.srcRegs.map (readReg s.regs)) i.getPC s.mem s.sys <;> rfl
  | scalar a =>
    simp only [execData, instr, exec, Inst.instr, Inst.exec, hi, data, Inst.srcRegs, Inst.destRegs,
      StaticInst.srcRegs, StaticInst.destRegs, hread, ScalarInst.effect, ScalarInst.exec]
    by_cases hl : a.illegal
    · simp [hl, Except.map]
    · cases hk : a.op.kind with
      | alu =>
        simp [hl, Except.map, a.destRegs_of_ne_branch (by simp [hk]), writes, writeReg,
          data]
      | branch => simp [hl, Except.map, writes, data]
      | load n signed =>
        simp [hl, Except.map, a.destRegs_of_ne_branch (by simp [hk]), writes, writeReg,
          data]

theorem Inst.IsLoad.execData {i : Inst} {a : ScalarInst} {n : ℕ} (h : i.IsLoad a n) (alu : AluSem)
    (stale : PhysRegFile) (s : Data) : execData alu stale (.plain i) s =
      if a.illegal then .error (.fault .illegalInst)
      else .ok (writeReg s.1 (intReg a.rd)
        (a.loaded (Bytes.read s.2.1 (a.effAddr (readReg s.1 (intReg a.base))) n)), s.2) := by
  have := execData_plain alu stale i ⟨s.1, s.2.1, s.2.2, 0⟩
  rw [h.exec] at this
  rw [show s = data ⟨s.1, s.2.1, s.2.2, 0⟩ from rfl, this]
  by_cases hl : a.illegal <;> simp [hl, Except.map, data]

/-! ### The fused load -/

theorem writeReg_readReg_self (regs rs : RegId → RegVal) (d : Fin 32) (x : RegVal) :
    writeReg rs (intReg d) (readReg (writeReg regs (intReg d) x) (intReg d)) =
      writeReg rs (intReg d) x := by
  by_cases hd : d = 0
  · simp [hd]
  · rw [readReg_writeReg_int, if_pos ⟨rfl, hd⟩]

section
variable {first second : Inst} {a b : ScalarInst} {m n memsize : ℕ}
  {base : first.srcRegIdx 0 = second.srcRegIdx 0}
  {next : first.getImm + first.staticInst.operWid / 8 = second.getImm}
  {access : first.staticInst.memAccessFlags = second.staticInst.memAccessFlags}
  {size : first.staticInst.operWid / 8 + second.staticInst.operWid / 8 = memsize}

section
variable (alu : AluSem) (stale : PhysRegFile) (name : String) (op : OpClass)
  (ha : first.IsLoad a m) (hb : second.IsLoad b n)
include ha hb

theorem execData_seqLoad_of_rename (info : DynInfo) {v₀ v₁ : VirtRegId} {vs : List VirtRegId}
    {st' : RenameState} (s : Data) :
    let f := FusionInst.seqLoad memsize name op first second base next access size
    let ea := a.effAddr (readReg s.1 (intReg a.base))
    let pf := (((identityFile stale
      (sourceFile [intReg a.base] [readReg s.1 (intReg a.base)])).setReg
      v₀.phyReg (a.loaded (Bytes.read s.2.1 ea m))).setReg v₁.phyReg
        (b.loaded (Bytes.read s.2.1 (ea + (m : Addr)) n)))
    (identity 4).renameInst f.srcRegs f.destRegs =
      some (⟨f.srcRegs.map (identity 4).map, v₀ :: v₁ :: vs⟩, st') →
    execData alu stale (.fused info f) s =
      if a.illegal || b.illegal then .error (.fault .illegalInst)
      else .ok (writes IsHard s.1 f.destRegs (f.destRegs.map (st'.view pf)), s.2) := by
  intro f ea pf hren
  have hsrcs : f.srcRegs = [intReg a.base] := by
    simp [f, FusionInst.srcRegs, ha.srcRegIdx_zero]
  have hbase : readReg (sourceFile [intReg a.base] [readReg s.1 (intReg a.base)])
      (intReg a.base) = readReg s.1 (intReg a.base) := by
    by_cases h0 : a.base = 0
    · simp [h0]
    · have hcls : ¬RegId.IsHard (intReg a.base) := by simpa [intReg_invalid_class] using h0
      simp [readReg, RegFile.read, hcls, sourceFile]
  have hpf := represents_identityFile 4 stale
    (sourceFile [intReg a.base] [readReg s.1 (intReg a.base)]) a.base
  have hrun : f.run alu ⟨f.srcRegs.map (identity 4).map, v₀ :: v₁ :: vs⟩
      (identityFile stale (sourceFile f.srcRegs [readReg s.1 (intReg a.base)])) s.2.1 = _ :=
    FusionInst.seqLoad_run alu name op ha hb (.identity 4) v₀ v₁ vs _ s.2.1
  rw [hsrcs, hpf, hbase] at hrun
  have hexec : execData alu stale (.fused info f) s =
      (f.effect alu stale [readReg s.1 (intReg a.base)] s.2).map fun p =>
        (writes IsHard s.1 f.destRegs p.1, p.2) := by
    simp only [execData, exec, instr, hsrcs]
    rfl
  rw [hexec, FusionInst.effect, hren]
  simp only [hsrcs, hrun]
  split_ifs <;> rfl

variable (hkeep : a.rd ≠ a.base)
include hkeep

theorem execData_seqLoad (info : DynInfo) (hne : a.rd ≠ b.rd)
    (hd : (a.rd ≠ 0 ∧ b.rd ≠ 0) ∨ (b.rd = 0 ∧ a.base = 0)) (s : Data) :
    let f := FusionInst.seqLoad memsize name op first second base next access size
    let ea := a.effAddr (readReg s.1 (intReg a.base))
    execData alu stale (.fused info f) s =
      if a.illegal || b.illegal then .error (.fault .illegalInst)
      else .ok (writeReg (writeReg s.1 (intReg a.rd) (a.loaded (Bytes.read s.2.1 ea m)))
        (intReg b.rd) (b.loaded (Bytes.read s.2.1 (ea + (m : Addr)) n)), s.2) := by
  intro f ea
  obtain ⟨ds, hds, hdests⟩ : ∃ ds, (∀ d ∈ ds, d = RegId.invalid) ∧
      f.destRegs = intReg a.rd :: intReg b.rd :: ds :=
    FusionInst.seqLoad_destRegs_of name op ha hb hkeep hd
  obtain ⟨⟨o, st'⟩, hren⟩ := f.exists_rename
  have hren' := hren
  rw [hdests] at hren'
  obtain ⟨v₀, v₁, st₁, st₂, vs, hv₀, hv₁, hvs, rfl⟩ := renameInst_two hren'
  obtain rfl := renameDests_invalid hds hvs
  rw [execData_seqLoad_of_rename alu stale name op ha hb info s hren]
  have hpf := ((represents_identityFile 4 stale (sourceFile [intReg a.base]
    [readReg s.1 (intReg a.base)])).setReg_rename hv₀
      (a.loaded (Bytes.read s.2.1 ea m))).setReg_rename hv₁
        (b.loaded (Bytes.read s.2.1 (ea + (m : Addr)) n))
  have hview₀ := hpf a.rd
  rw [readReg_writeReg_of_ne _ _ (by rwa [ne_eq, intReg_inj])] at hview₀
  have hwrites (x y : RegVal) (xs : List RegVal) :
      writes IsHard s.1 (intReg a.rd :: intReg b.rd :: ds) (x :: y :: xs) =
        writeReg (writeReg s.1 (intReg a.rd) x) (intReg b.rd) y :=
    writes_of_hard (fun d hd => by rw [hds d hd]; rfl) _ xs
  split_ifs
  · rfl
  · rw [hdests, map_cons, map_cons, hwrites, view, view, hview₀, hpf b.rd, writeReg_readReg_self,
      writeReg_readReg_self]

theorem execData_seqLoad_stale (info : DynInfo) (hla : a.illegal = false) (hlb : b.illegal = false)
    (hd : ¬((a.rd ≠ 0 ∧ b.rd ≠ 0) ∨ (b.rd = 0 ∧ a.base = 0))) (s : Data) :
    let f := FusionInst.seqLoad memsize name op first second base next access size
    ∃ p regs, execData alu stale (.fused info f) s = .ok (regs, s.2) ∧
      readReg regs (intReg a.base) = stale p := by
  intro f
  obtain ⟨hcls, v₀, v₁, vs, st', p, hren, hmap, hp, hfree, hne₀, hne₁⟩ :=
    FusionInst.seqLoad_base_stale (f := f) name op ha hb hkeep rfl hd
  have hexec := execData_seqLoad_of_rename alu stale name op ha hb info s hren
  simp only [hla, hlb, Bool.or_self, Bool.false_eq_true, if_false] at hexec
  refine ⟨p, _, hexec, ?_⟩
  have hdests : f.destRegs = intReg a.rd :: RegId.invalid :: intReg a.base :: _ :=
    (FusionInst.seqLoad_destRegs name op ha hb).trans (if_neg fun hn => hd (.inl hn))
  have hwrites (x y z : RegVal) (xs : List RegVal) (ds : List RegId) (hds : ∀ d ∈ ds, IsHard d) :
      writes IsHard s.1 (intReg a.rd :: RegId.invalid :: intReg a.base :: ds) (x :: y :: z :: xs) =
        writeReg (writeReg (writeReg s.1 (intReg a.rd) x) RegId.invalid y) (intReg a.base) z :=
    writes_of_hard hds _ xs
  rw [hdests, map_cons, map_cons, map_cons, hwrites _ _ _ _ _ ?_, readReg_writeReg_self _ _ hcls,
    view, hmap, PhysRegFile.getReg_setReg_of_ne _ _ hne₁.symm,
    PhysRegFile.getReg_setReg_of_ne _ _ hne₀.symm, PhysRegFile.getReg_of _ hp,
    identityFile_of_free _ _ hfree]
  intro d hd
  split_ifs at hd
  · rw [mem_singleton.1 hd]
    rfl
  · cases hd
end
end

/-! ### Moving the tail over the gap -/

variable {alu : AluSem} {stale : ℕ → PhysRegFile} {l₁ list pre gap : List DynInst} {s u t : Data}
  {d : DynInst} {cur x : Inst}

theorem runData_append (l₁ l₂ : List DynInst) (s : Data) :
    runData alu stale (l₁ ++ l₂) s =
      match runData alu stale l₁ s with
      | .error e => .error e
      | .ok t => runData alu (fun k => stale (k + l₁.length)) l₂ t := by
  simp only [runData, mapIdx_append, run_append]
  cases run IsHard 0 (l₁.mapIdx fun k d => d.instr alu (stale k)) s <;> rfl

theorem runData_append_of_ok (h : runData alu stale l₁ s = .ok t) (l₂ : List DynInst) :
    runData alu stale (l₁ ++ l₂) s = runData alu (fun k => stale (k + l₁.length)) l₂ t := by
  rw [runData_append, h]

theorem runData_append_ok {l₂ : List DynInst} (h : runData alu stale (l₁ ++ l₂) s = .ok u) :
    ∃ t, runData alu stale l₁ s = .ok t ∧
      runData alu (fun k => stale (k + l₁.length)) l₂ t = .ok u := by
  rw [runData_append] at h
  cases ht : runData alu stale l₁ s with
  | error e => rw [ht] at h; cases h
  | ok t => rw [ht] at h; exact ⟨t, rfl, h⟩

theorem runData_cons_ok {l : List DynInst} (h : runData alu stale (d :: l) s = .ok u) :
    ∃ t, execData alu (stale 0) d s = .ok t ∧ runData alu (fun k => stale (k + 1)) l t = .ok u := by
  rw [runData, mapIdx_cons] at h
  exact run_cons_ok h

theorem runData_cons_of_ok (h : execData alu (stale 0) d s = .ok t) (l : List DynInst) :
    runData alu stale (d :: l) s = runData alu (fun k => stale (k + 1)) l t := by
  rw [execData] at h
  rw [runData, mapIdx_cons, run, h]
  rfl

/-- A plain instruction takes no notice of what the free registers hold. -/
theorem runData_update_plain (file : PhysRegFile) (l : List DynInst) (s : Data) :
    runData alu (Function.update stale pre.length file) (pre ++ .plain x :: l) s =
      runData alu stale (pre ++ .plain x :: l) s := by
  unfold runData
  congr 1
  refine ext_getElem? fun k => ?_
  simp only [getElem?_mapIdx]
  by_cases hk : k = pre.length
  · subst hk
    simp [instr]
  · simp [Function.update_of_ne hk]

theorem DynInst.not_blocks {g : DynInst} (h : g.blocks cur = false) :
    cur.srcRegIdx 0 ∉ g.destRegs ∧ cur.destRegIdx 0 ∉ g.destRegs ∧
      cur.destRegIdx 0 ∉ g.srcRegs := by
  simp only [blocks, Bool.or_eq_false_iff, any_eq_false, decide_eq_true_eq,
    Bool.or_eq_true, not_or] at h
  obtain ⟨⟨-, hd⟩, hs⟩ := h
  exact ⟨fun hm => (hd _ hm).1 rfl, fun hm => (hd _ hm).2 rfl, fun hm => hs _ hm rfl⟩

/-- The two loads that a walk fuses. -/
structure NonConsec.Loads (cur x : Inst) (d : DynInst) (a b : ScalarInst) (m n : ℕ) : Prop where
  head : x.IsLoad a m
  tail : cur.IsLoad b n
  keep : a.rd ≠ a.base
  dests : a.rd ≠ b.rd
  sameBase : b.base = a.base
  baseKept : b.rd ≠ a.base
  fused : ∃ memsize name op base next access size,
    d = .mkFused x cur (.seqLoad memsize name op x cur base next access size)

theorem NonConsec.loads (h : NonConsec cur x list pre gap d) :
    ∃ a b m n, NonConsec.Loads cur x d a b m n := by
  obtain ⟨creator, f, hlook, hf, rfl⟩ := h.created
  obtain ⟨k₁, k₂, hrow, h₁, h₂⟩ := lookup_row hlook
  obtain ⟨a, b, ha, hb, hpairs⟩ := hrow.pairs h₁ h₂
  obtain ⟨name, size, check, rfl⟩ := hpairs.seqLd_of_load
    (by simpa using (Inst.isLoad_scalar ha).1 h.load)
  obtain ⟨hla, hlb, hkeep, base, next, access, size', rfl⟩ :=
    FuseCreator.seqLd_create ha hb hpairs hf
  obtain ⟨hbase, -, -⟩ := seqLoad_layout hla hlb base next size'
  obtain ⟨-, hdest, hsrc⟩ := not_blocks h.head
  have hdests : (DynInst.plain x).destRegs = [intReg a.rd] := hla.destRegs
  have hsrcs : (DynInst.plain x).srcRegs = [intReg a.base] := hla.srcRegs
  rw [hdests, hlb.destRegIdx, mem_singleton, intReg_inj] at hdest
  rw [hsrcs, hlb.destRegIdx, mem_singleton, intReg_inj] at hsrc
  exact ⟨a, b, _, _, hla, hlb, hkeep, fun hrd => hdest hrd.symm, hbase, hsrc, _, _, _, base, next,
    access, size', rfl⟩

section
variable (h : NonConsec cur x list pre gap d)
include h

theorem NonConsec.gap_base (hrun : runData alu stale gap s = .ok t) :
    readReg t.1 (cur.srcRegIdx 0) = readReg s.1 (cur.srcRegIdx 0) := by
  refine run_read_of_not_mem (fun i hi => ?_) hrun
  obtain ⟨k, hk, rfl⟩ := mem_mapIdx.1 hi
  rw [instr_dests]
  exact (not_blocks (h.clear _ (getElem_mem hk))).1

theorem NonConsec.gap_frame (hrun : runData alu stale gap s = .ok t) (v : RegVal) :
    runData alu stale gap (writeReg s.1 (cur.destRegIdx 0) v, s.2) =
      .ok (writeReg t.1 (cur.destRegIdx 0) v, t.2) := by
  have hclear : ∀ i ∈ gap.mapIdx fun k d => d.instr alu (stale k),
      cur.destRegIdx 0 ∉ i.srcs ∧ cur.destRegIdx 0 ∉ i.dests := by
    intro i hi
    obtain ⟨k, hk, rfl⟩ := mem_mapIdx.1 hi
    rw [instr_dests, instr_srcs]
    obtain ⟨-, hd, hs⟩ := not_blocks (h.clear _ (getElem_mem hk))
    exact ⟨hs, hd⟩
  have hframe : runData alu stale gap (writeReg s.1 (cur.destRegIdx 0) v, s.2) =
      (runData alu stale gap s).map fun t => (writeReg t.1 (cur.destRegIdx 0) v, t.2) :=
    run_write_comm hclear v s.1 s.2
  rw [hframe, hrun]
  rfl

/-- The original run: before the head, the head, the gap, the tail. -/
theorem NonConsec.run_cases (hrun : runData alu stale (list ++ [.plain cur]) s = .ok t) :
    ∃ s₀ sh sg, runData alu stale pre s = .ok s₀ ∧
      execData alu (stale pre.length) (.plain x) s₀ = .ok sh ∧
      runData alu (fun k => stale (k + 1 + pre.length)) gap sh = .ok sg ∧
      execData alu (stale list.length) (.plain cur) sg = .ok t := by
  obtain ⟨u, hu, htail⟩ := runData_append_ok hrun
  rw [h.split] at hu
  obtain ⟨s₀, hs₀, hrest⟩ := runData_append_ok hu
  obtain ⟨sh, hsh, hsg⟩ := runData_cons_ok hrest
  obtain ⟨t', ht', hnil⟩ := runData_cons_ok htail
  cases hnil
  exact ⟨s₀, sh, u, hs₀, by simpa using hsh, hsg, by simpa using ht'⟩

end

theorem runData_fused {s₀ s₁ : Data} (hs₀ : runData alu stale pre s = .ok s₀)
    (hd : execData alu (stale pre.length) d s₀ = .ok s₁) (gap : List DynInst) :
    runData alu stale (pre ++ d :: gap) s =
      runData alu (fun k => stale (k + 1 + pre.length)) gap s₁ := by
  rw [runData_append_of_ok hs₀, runData_cons_of_ok (by simpa using hd)]

/-- Neither destination is `x0`, or the base is and the tail's destination is. -/
def RenamesLoads (x cur : Inst) : Prop :=
  (x.destRegIdx 0 ≠ RegId.invalid ∧ cur.destRegIdx 0 ≠ RegId.invalid) ∨
    (cur.destRegIdx 0 = RegId.invalid ∧ cur.srcRegIdx 0 = RegId.invalid)

section
variable {a b : ScalarInst} {m n : ℕ} (hl : NonConsec.Loads cur x d a b m n)
include hl

theorem NonConsec.Loads.renames_iff :
    RenamesLoads x cur ↔ (a.rd ≠ 0 ∧ b.rd ≠ 0) ∨ (b.rd = 0 ∧ a.base = 0) := by
  rw [RenamesLoads, hl.head.destRegIdx, hl.tail.destRegIdx, hl.tail.srcRegIdx_zero, hl.sameBase,
    ne_eq, ne_eq, intReg_eq_invalid, intReg_eq_invalid, intReg_eq_invalid]

theorem NonConsec.Loads.exec (hd : RenamesLoads x cur) {file : PhysRegFile}
    (hhead : execData alu file (.plain x) s = .ok t) (hlb : b.illegal = false) :
    execData alu file d s = .ok (writeReg t.1 (intReg b.rd)
      (b.loaded (Bytes.read t.2.1 (b.effAddr (readReg t.1 (intReg b.base))) n)), t.2) := by
  obtain ⟨memsize, name, op, base, next, access, size, rfl⟩ := hl.fused
  obtain ⟨hbase, hnext, -⟩ := seqLoad_layout hl.head hl.tail base next size
  have hread (y : RegVal) : readReg (writeReg s.1 (intReg a.rd) y) (intReg b.base) =
      readReg s.1 (intReg a.base) := by
    rw [hbase, readReg_writeReg_of_ne _ _ (by rw [ne_eq, intReg_inj]; exact hl.keep.symm)]
  have hfused : execData alu file
      (.mkFused x cur (.seqLoad memsize name op x cur base next access size)) s = _ :=
    execData_seqLoad alu file name op hl.head hl.tail hl.keep _ hl.dests (hl.renames_iff.1 hd) s
  rw [hl.head.execData] at hhead
  split_ifs at hhead with hla
  cases hhead
  rw [hfused, hread, ScalarInst.effAddr_of_next hnext]
  simp [hla, hlb]

theorem NonConsec.Loads.exec_stale (hd : ¬RenamesLoads x cur) {file : PhysRegFile}
    (hhead : execData alu file (.plain x) s = .ok t) (hlb : b.illegal = false) :
    ∃ p u, execData alu file d s = .ok u ∧ readReg u.1 (intReg a.base) = file p := by
  obtain ⟨memsize, name, op, base, next, access, size, rfl⟩ := hl.fused
  rw [hl.head.execData] at hhead
  split_ifs at hhead with hla
  obtain ⟨p, regs, hexec, hread⟩ : ∃ p regs, execData alu file
      (.mkFused x cur (.seqLoad memsize name op x cur base next access size)) s = .ok (regs, s.2) ∧
      readReg regs (intReg a.base) = file p :=
    execData_seqLoad_stale alu file name op hl.head hl.tail hl.keep _ (by simpa using hla) hlb
      (mt hl.renames_iff.2 hd) s
  exact ⟨p, _, hexec, hread⟩
end

/-! ### The same data -/

/-- The same registers and memory. -/
def SameData (s t : Data) : Prop :=
  (∀ n : Fin 32, readReg s.1 (intReg n) = readReg t.1 (intReg n)) ∧ s.2.1 = t.2.1

/-- The gap leaves the bytes alone that the tail loads. -/
def GapKeepsTail (alu : AluSem) (stale : ℕ → PhysRegFile) (pre : List DynInst) (x : Inst)
    (gap : List DynInst) (cur : Inst) (s : Data) : Prop :=
  ∀ sh sg, runData alu stale (pre ++ [.plain x]) s = .ok sh →
    runData alu stale (pre ++ .plain x :: gap) s = .ok sg →
    ∀ p ∈ cur.loadAddrs sh.1, sg.2.1 p = sh.2.1 p

theorem readReg_writeReg_same_iff (regs : RegId → RegVal) (d : Fin 32) (x y : RegVal) :
    (∀ n : Fin 32, readReg (writeReg regs (intReg d) x) (intReg n) =
      readReg (writeReg regs (intReg d) y) (intReg n)) ↔ d = 0 ∨ x = y := by
  constructor
  · intro h
    by_cases hd : d = 0
    · exact .inl hd
    · have := h d
      rw [readReg_writeReg_int, readReg_writeReg_int, if_pos ⟨rfl, hd⟩, if_pos ⟨rfl, hd⟩] at this
      exact .inr this
  · rintro (rfl | rfl) n
    · simp
    · rfl

section
variable (h : NonConsec cur x list pre gap d)
include h

/-- **The tail moves over the gap**, but it loads from the memory at the head. -/
theorem NonConsec.sameData_iff (hd : RenamesLoads x cur)
    (hrun : runData alu stale (list ++ [.plain cur]) s = .ok t) :
    ∃ t', runData alu stale (pre ++ d :: gap) s = .ok t' ∧
      (SameData t t' ↔
        cur.destRegIdx 0 = RegId.invalid ∨ GapKeepsTail alu stale pre x gap cur s) := by
  obtain ⟨a, b, m, n, hl⟩ := h.loads
  obtain ⟨s₀, sh, sg, hs₀, hsh, hsg, htail⟩ := h.run_cases hrun
  have hb := hl.tail
  rw [hb.execData] at htail
  split_ifs at htail with hlb
  cases htail
  have hfused := hl.exec hd hsh (by simpa using hlb)
  have hgap := h.gap_frame hsg
    (b.loaded (Bytes.read sh.2.1 (b.effAddr (readReg sh.1 (intReg b.base))) n))
  rw [hb.destRegIdx] at hgap
  refine ⟨_, (runData_fused hs₀ hfused gap).trans hgap, ?_⟩
  have hbase : readReg sg.1 (intReg b.base) = readReg sh.1 (intReg b.base) := by
    have hkept := h.gap_base hsg
    rwa [hb.srcRegIdx_zero] at hkept
  have hloaded : b.loaded (Bytes.read sg.2.1 (b.effAddr (readReg sh.1 (intReg b.base))) n) =
      b.loaded (Bytes.read sh.2.1 (b.effAddr (readReg sh.1 (intReg b.base))) n) ↔
      ∀ p ∈ cur.loadAddrs sh.1, sg.2.1 p = sh.2.1 p := by
    rw [hb.loaded_inj (by simp) (by simp), hb.loadAddrs]
    exact map_inj_left
  have hkeeps : GapKeepsTail alu stale pre x gap cur s ↔
      ∀ p ∈ cur.loadAddrs sh.1, sg.2.1 p = sh.2.1 p := by
    have hrunh : runData alu stale (pre ++ [.plain x]) s = .ok sh := runData_fused hs₀ hsh []
    have hrung := (runData_fused hs₀ hsh gap).trans hsg
    refine ⟨fun hk => hk sh sg hrunh hrung, fun hk sh' sg' hsh' hsg' => ?_⟩
    rw [hrunh] at hsh'
    cases hsh'
    rw [hrung] at hsg'
    cases hsg'
    exact hk
  rw [hkeeps, ← hloaded, SameData, hb.destRegIdx, intReg_eq_invalid, hbase,
    readReg_writeReg_same_iff]
  exact and_iff_left rfl

/-- With another register as a destination, what it held before becomes the base. -/
theorem NonConsec.not_sameData (hd : ¬RenamesLoads x cur)
    (hrun : runData alu stale (list ++ [.plain cur]) s = .ok t) :
    ∃ stale', runData alu stale' (list ++ [.plain cur]) s = .ok t ∧
      ∀ t', runData alu stale' (pre ++ d :: gap) s = .ok t' → ¬SameData t t' := by
  obtain ⟨a, b, m, n, hl⟩ := h.loads
  let file : PhysRegFile := fun _ => readReg t.1 (intReg a.base) + 1
  have horig : runData alu (Function.update stale pre.length file) (list ++ [.plain cur]) s =
      .ok t := by
    rw [h.split, append_assoc, cons_append, runData_update_plain, ← cons_append, ← append_assoc,
      ← h.split]
    exact hrun
  refine ⟨_, horig, ?_⟩
  intro t' hrun' hsame
  obtain ⟨s₀, sh, sg, hs₀, hsh, -, htail⟩ := h.run_cases horig
  have hlb : b.illegal = false := by
    rw [hl.tail.execData] at htail
    split_ifs at htail with hlb
    simpa using hlb
  obtain ⟨p, u, hu, hbase⟩ := hl.exec_stale hd hsh hlb
  rw [runData_fused hs₀ hu gap] at hrun'
  have hkept := h.gap_base hrun'
  rw [hl.tail.srcRegIdx_zero, hl.sameBase, hbase, Function.update_self, ← hsame.1 a.base] at hkept
  simp [file] at hkept
end

/-- **Non-consecutive load fusion.**  If the original list runs without a fault, then the list that
decode leaves runs too and leaves the same integer registers and memory, whatever the free registers
hold, exactly if no destination is `x0` (or the base is as well), and the gap leaves the bytes alone
that the tail loads. -/
theorem nonConsec_sameData_iff (alu : AluSem) {c : DecodeConfig} {vec pre gap : List DynInst}
    {cur : Inst} {d : DynInst} {s : Data}
    (h : checkAndFuseNonConsec c vec cur = .ok (some (pre, d, gap)))
    (hrun : ∀ stale, ∃ t, runData alu stale (vec ++ [.plain cur]) s = .ok t) :
    ∃ x, vec = pre ++ .plain x :: gap ∧
      ((∀ stale t, runData alu stale (vec ++ [.plain cur]) s = .ok t →
        ∃ t', runData alu stale (pre ++ d :: gap) s = .ok t' ∧ SameData t t') ↔
      RenamesLoads x cur ∧ (cur.destRegIdx 0 = RegId.invalid ∨
        ∀ stale, GapKeepsTail alu stale pre x gap cur s)) := by
  obtain ⟨x, hx, -⟩ := checkAndFuseNonConsec_fused h
  refine ⟨x, hx.split, ⟨fun hsame => ?_, ?_⟩⟩
  · by_cases hd : RenamesLoads x cur
    · refine ⟨hd, or_iff_not_imp_left.2 fun hne stale => ?_⟩
      obtain ⟨t, ht⟩ := hrun stale
      obtain ⟨t', ht', hiff⟩ := hx.sameData_iff hd ht
      obtain ⟨t'', ht'', hs⟩ := hsame stale t ht
      rw [ht'] at ht''
      cases ht''
      exact (hiff.1 hs).resolve_left hne
    · obtain ⟨t, ht⟩ := hrun fun _ _ => 0
      obtain ⟨stale, hstale, hno⟩ := hx.not_sameData hd ht
      obtain ⟨t', ht', hs⟩ := hsame stale t hstale
      exact absurd hs (hno t' ht')
  · rintro ⟨hd, hkeeps⟩ stale t ht
    obtain ⟨t', ht', hiff⟩ := hx.sameData_iff hd ht
    exact ⟨t', ht', hiff.2 (hkeeps.imp_right fun hk => hk stale)⟩

/-! ### A store in the gap -/

/-- `sd rs2, imm(rs1)` -/
def sd (rs1 rs2 : Fin 32) (imm : ℤ) : OtherInst where
  imm := imm
  srcRegs := [intReg rs1, intReg rs2]
  destRegs := []
  flags := {}
  opClass := .other 0
  run vals pc mem sys :=
    let ea := vals.getD 0 0 + BitVec.ofInt 64 imm
    .ok ⟨[], pc + 4, fun p => if (p - ea).toNat < 8
      then ((vals.getD 1 0) >>> (8 * (p - ea).toNat)).setWidth 8 else mem p, sys⟩

/-- `ld x5, 0(x10)` -/
def ldHead : Inst := .fetched 0x80000000 1 (.scalar ⟨.ld, 5, 10, 0, 0, Opcode.immOk_zero _⟩)

/-- `sd x7, 8(x10)` -/
def sdX7 : Inst := .fetched 0x80000004 2 (.other (sd 10 7 8))

/-- `addi x7, x7, 1` -/
def addiX7 : Inst := .fetched 0x80000004 2 (.scalar ⟨.addi, 7, 7, 0, 1, by decide⟩)

/-- `ld x6, 8(x10)` -/
def ldTail : Inst := .fetched 0x80000008 3 (.scalar ⟨.ld, 6, 10, 0, 8, by decide⟩)

def onesData : Data := (fun _ => 1, (fun _ => 0, ⟨fun _ _ => 0, fun _ => 0⟩))

/-- The loads are fused over an addition, and nothing is lost. -/
theorem ld_addi_ld_sameData : ∃ d,
    checkAndFuseNonConsec .full [.plain ldHead, .plain addiX7] ldTail =
      .ok (some ([], d, [.plain addiX7])) ∧
    ∀ stale t, runData Opcode.result stale [.plain ldHead, .plain addiX7, .plain ldTail] onesData =
        .ok t →
      ∃ t', runData Opcode.result stale [d, .plain addiX7] onesData = .ok t' ∧ SameData t t' := by
  obtain ⟨d, hd⟩ : ∃ d, checkAndFuseNonConsec .full [.plain ldHead, .plain addiX7] ldTail =
      .ok (some ([], d, [.plain addiX7])) := ⟨_, rfl⟩
  obtain ⟨x, hx, hiff⟩ := nonConsec_sameData_iff Opcode.result hd
    (fun stale => ⟨_, rfl⟩ : ∀ stale, ∃ t, runData Opcode.result stale
      ([.plain ldHead, .plain addiX7] ++ [.plain ldTail]) onesData = .ok t)
  obtain rfl : ldHead = x := by simpa using hx
  refine ⟨d, hd, hiff.2 ⟨.inl (by decide), .inr fun stale sh sg hsh hsg p _ => ?_⟩⟩
  cases hsh
  cases hsg
  rfl

/-- **A store in the gap breaks it**: the fused load reads what the store overwrites. -/
theorem nonConsec_not_sameData : ¬∀ (vec pre gap : List DynInst) (cur : Inst) (d : DynInst)
    (stale : ℕ → PhysRegFile) (s t : Data),
    checkAndFuseNonConsec .full vec cur = .ok (some (pre, d, gap)) →
      runData Opcode.result stale (vec ++ [.plain cur]) s = .ok t →
      ∃ t', runData Opcode.result stale (pre ++ d :: gap) s = .ok t' ∧ SameData t t' := by
  intro hall
  obtain ⟨d, hd⟩ : ∃ d, checkAndFuseNonConsec .full [.plain ldHead, .plain sdX7] ldTail =
      .ok (some ([], d, [.plain sdX7])) := ⟨_, rfl⟩
  obtain ⟨t, ht⟩ : ∃ t, runData Opcode.result (fun _ _ => 0)
      ([.plain ldHead, .plain sdX7] ++ [.plain ldTail]) onesData = .ok t := ⟨_, rfl⟩
  obtain ⟨t', ht', hsame⟩ := hall _ _ _ _ _ _ _ _ hd ht
  obtain ⟨x, hx, -⟩ := checkAndFuseNonConsec_fused hd
  obtain rfl : ldHead = x := by simpa using hx.split
  obtain ⟨t'', ht'', hiff⟩ := hx.sameData_iff (.inl (by decide)) ht
  rw [ht'] at ht''
  cases ht''
  rcases hiff.1 hsame with hrd | hkeeps
  · exact absurd hrd (by decide)
  · have hbyte := hkeeps _ _ rfl rfl 9 (by decide)
    exact absurd hbyte (by decide)

end Gem5
