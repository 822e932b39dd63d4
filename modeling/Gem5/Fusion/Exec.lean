import Gem5.Fusion.Inst

/-!
# Executing the parts

One lemma per operation of a part: what it does in order (`Inst.exec`), and what it does on renamed
operands (`Inst.execute`, `Inst.completeAcc`).  The preservation proofs of the fused classes use
these and never unfold the operations.

`Inst.IsAlu`, `IsBranch` and `IsLoad` say what kind of scalar instruction a part is.
-/

namespace Gem5
open RenameState Inst Operands List

/-- The instruction is the ALU instruction `a`. -/
structure Inst.IsAlu (i : Inst) (a : ScalarInst) : Prop where
  static : i.staticInst = .scalar a
  kind : a.op.kind = .alu

/-- The instruction is the branch `a`. -/
structure Inst.IsBranch (i : Inst) (a : ScalarInst) : Prop where
  static : i.staticInst = .scalar a
  kind : a.op.kind = .branch

/-- The instruction is the load `a` of `n` bytes. -/
structure Inst.IsLoad (i : Inst) (a : ScalarInst) (n : ℕ) : Prop where
  static : i.staticInst = .scalar a
  kind : ∃ signed, a.op.kind = .load n signed

variable {i : Inst} {a : ScalarInst} {n : ℕ}

/-! ### Scalar operands -/

section
variable (h : i.staticInst = .scalar a)
include h

theorem Inst.srcRegs_scalar : i.srcRegs = a.srcRegs := by
  simp [srcRegs, StaticInst.srcRegs, h]

theorem Inst.getImm_scalar : i.getImm = a.imm := by
  simp [getImm, StaticInst.getImm, h]

theorem Inst.destRegs_scalar (hk : a.op.kind ≠ .branch) : i.destRegs = [intReg a.rd] := by
  simp [destRegs, StaticInst.destRegs, h, a.destRegs_of_ne_branch hk]
end

theorem Inst.IsAlu.destRegs (h : i.IsAlu a) : i.destRegs = [intReg a.rd] :=
  destRegs_scalar h.static (by simp [h.kind])

theorem Inst.IsLoad.destRegs (h : i.IsLoad a n) : i.destRegs = [intReg a.rd] := by
  obtain ⟨signed, hk⟩ := h.kind
  exact destRegs_scalar h.static (by simp [hk])

theorem Inst.IsAlu.destRegIdx (h : i.IsAlu a) : i.destRegIdx 0 = intReg a.rd := by
  simp [Inst.destRegIdx, h.destRegs]

section
variable (h : i.IsLoad a n)
include h

theorem Inst.IsLoad.destRegIdx : i.destRegIdx 0 = intReg a.rd := by
  simp [Inst.destRegIdx, h.destRegs]

theorem Inst.IsLoad.srcRegs : i.srcRegs = [intReg a.base] := by
  obtain ⟨signed, hk⟩ := h.kind
  rw [srcRegs_scalar h.static, a.srcRegs_of_load hk]

theorem Inst.IsLoad.srcRegIdx_zero : i.srcRegIdx 0 = intReg a.base := by
  simp [srcRegIdx, h.srcRegs]

theorem Inst.IsLoad.srcRegIdx_one : i.srcRegIdx 1 = intReg a.rd := by
  simp [srcRegIdx, h.srcRegs, h.destRegs]

theorem Inst.IsLoad.operWid : i.staticInst.operWid / 8 = n := by
  obtain ⟨signed, hk⟩ := h.kind
  have hw : (8 * (n : ℤ)) / 8 = n := by omega
  simp [StaticInst.operWid, h.static, ScalarInst.operWid, hk, hw]

theorem Inst.IsLoad.size : i.size = n := by
  simp [Inst.size, h.operWid]

theorem Inst.IsLoad.bytes : a.op.bytes = n := by
  obtain ⟨signed, hk⟩ := h.kind
  simp [Opcode.bytes, hk]
end

theorem Inst.isLoad_scalar (h : i.staticInst = .scalar a) :
    i.flags.isLoad = true ↔ a.op.bytes ≠ 0 := by
  simp only [flags, StaticInst.flags, h, a.isLoad_flags]

theorem Inst.isLoad_of_bytes (h : i.staticInst = .scalar a) (hb : a.op.bytes ≠ 0) :
    i.IsLoad a a.op.bytes := by
  refine ⟨h, ?_⟩
  unfold Opcode.bytes at hb ⊢
  split at hb
  · rename_i k signed hk
    exact ⟨signed, hk⟩
  · exact absurd rfl hb

theorem Inst.IsLoad.loaded_inj (h : i.IsLoad a n) {bs cs : List (BitVec 8)} (hbs : bs.length = n)
    (hcs : cs.length = n) : a.loaded bs = a.loaded cs ↔ bs = cs := by
  refine ⟨fun heq => ?_, congrArg a.loaded⟩
  obtain ⟨signed, hk⟩ := h.kind
  have hn : n ≤ 8 := by rcases a.load_size hk with rfl | rfl | rfl | rfl <;> omega
  simp only [ScalarInst.loaded, hk] at heq
  rw [take_of_length_le hbs.le, take_of_length_le hcs.le] at heq
  exact extendBytes_inj (hbs.trans hcs.symm) (hbs ▸ hn) heq

/-! ### In order -/

theorem Inst.IsAlu.exec (h : i.IsAlu a) (alu : AluSem) (s : ArchState) : i.exec alu s =
    if a.illegal then .error (.fault .illegalInst)
    else .ok { s with
      regs := writeReg s.regs (intReg a.rd)
        (alu a.op a.imm i.getPC (a.srcRegs.map (readReg s.regs)))
      npc := i.getNPC } := by
  simp [Inst.exec, h.static, ScalarInst.exec, h.kind, a.destRegs_of_ne_branch (by simp [h.kind])]

theorem Inst.IsBranch.not_illegal (h : i.IsBranch a) : a.illegal = false := by
  have hk := h.kind
  unfold ScalarInst.illegal Opcode.illegal
  split <;> simp_all [Opcode.kind]

theorem Inst.IsBranch.exec (h : i.IsBranch a) (alu : AluSem) (s : ArchState) : i.exec alu s =
    .ok { s with npc := a.branchNPC i.getPC i.getNPC (a.srcRegs.map (readReg s.regs)) } := by
  simp [Inst.exec, h.static, ScalarInst.exec, h.kind, h.not_illegal]

theorem Inst.IsLoad.exec (h : i.IsLoad a n) (alu : AluSem) (s : ArchState) : i.exec alu s =
    if a.illegal then .error (.fault .illegalInst)
    else .ok { s with
      regs := writeReg s.regs (intReg a.rd)
        (a.loaded (Bytes.read s.mem (a.effAddr (readReg s.regs (intReg a.base))) n))
      npc := i.getNPC } := by
  obtain ⟨signed, hk⟩ := h.kind
  simp [Inst.exec, h.static, ScalarInst.exec, hk, a.destRegs_of_ne_branch (by simp [hk]),
    a.srcRegs_of_load hk]

theorem Inst.IsLoad.loadAddrs (h : i.IsLoad a n) (regs : RegId → RegVal) :
    i.loadAddrs regs = Bytes.span (a.effAddr (readReg regs (intReg a.base))) n := by
  obtain ⟨signed, hk⟩ := h.kind
  simp [Inst.loadAddrs, h.static, a.srcRegs_of_load hk, h.bytes]

theorem Inst.IsAlu.loadAddrs (h : i.IsAlu a) (regs : RegId → RegVal) : i.loadAddrs regs = [] := by
  simp [Inst.loadAddrs, h.static, Opcode.bytes, h.kind]

/-! ### On renamed operands -/

theorem Operands.read_self (vs ds : List VirtRegId) (pf : PhysRegFile) :
    read ⟨vs, ds⟩ vs.length pf = .ok (vs.map pf.getReg) := by
  simp [read]

variable {vs : List VirtRegId} {st' st : RenameState} {p : Except Stop (PhysRegFile × Addr)}
  {y z : Except Stop ArchState}

theorem Inst.IsAlu.execute (h : i.IsAlu a) (alu : AluSem) (hvs : vs.length = a.srcRegs.length)
    (d : VirtRegId) (pf : PhysRegFile) : i.execute alu ⟨vs, [d]⟩ pf =
      if a.illegal then .error (.fault .illegalInst)
      else .ok (pf.setReg d.phyReg (alu a.op a.imm i.getPC (vs.map pf.getReg)), i.getNPC) := by
  simp [Inst.execute, h.static, h.kind, ← hvs, Operands.read_self, Operands.dest, Bind.bind,
    Except.bind]

theorem Inst.IsBranch.execute (h : i.IsBranch a) (alu : AluSem) (hvs : vs.length = a.srcRegs.length)
    (ds : List VirtRegId) (pf : PhysRegFile) : i.execute alu ⟨vs, ds⟩ pf =
      .ok (pf, a.branchNPC i.getPC i.getNPC (vs.map pf.getReg)) := by
  simp [Inst.execute, h.static, h.kind, h.not_illegal, ← hvs, Operands.read_self, Bind.bind,
    Except.bind]

theorem Inst.IsLoad.completeAcc (h : i.IsLoad a n) (d : VirtRegId) (pf : PhysRegFile)
    {pkt : List (BitVec 8)} (hpkt : pkt.length = n) : i.completeAcc ⟨[], [d]⟩ pf pkt =
      if a.illegal then .error (.fault .illegalInst)
      else .ok (pf.setReg d.phyReg (a.loaded pkt)) := by
  simp [Inst.completeAcc, h.static, h.bytes, hpkt, Operands.dest, Bind.bind, Except.bind]

/-! ### The destinations of a fused instruction -/

namespace OperandRecord

theorem foldl_addSrc (srcs : List RegId) (o : OperandRecord) :
    (srcs.foldl addSrc o).numDestRegs = o.numDestRegs ∧
    (srcs.foldl addSrc o).numTypedDestRegs = o.numTypedDestRegs ∧
    ∀ i < 2, (srcs.foldl addSrc o).regs.getD i RegId.invalid = o.regs.getD i RegId.invalid := by
  induction srcs generalizing o with
  | nil => exact ⟨rfl, rfl, fun i _ => rfl⟩
  | cons r srcs ih =>
    obtain ⟨hnum, htyped, hregs⟩ := ih (o.addSrc r)
    refine ⟨hnum, htyped, ?_⟩
    intro i hi
    rw [foldl_cons, hregs i hi]
    have hne : o.numSrcRegs + 2 ≠ i := by omega
    simp [addSrc, getD_eq_getElem?_getD, getElem?_set_ne hne]

theorem numDestRegs_addDest (o : OperandRecord) (r : RegId) :
    (o.addDest r).numDestRegs ≤ o.numDestRegs + 2 := by
  unfold addDest incTyped
  split <;> simp

theorem numDestRegs_foldl (dests : List RegId) (o : OperandRecord) :
    (dests.foldl addDest o).numDestRegs ≤ o.numDestRegs + 2 * dests.length := by
  induction dests generalizing o with
  | nil => exact le_rfl
  | cons d dests ih =>
    have hd := o.numDestRegs_addDest d
    have hrest := ih (o.addDest d)
    simp only [foldl_cons, length_cons]
    omega

end OperandRecord

namespace FusionInst

theorem length_setDests (f : FusionInst) : f.setDests.length ≤ 2 := by
  cases f <;> simp [setDests]

theorem length_destRegs (f : FusionInst) : f.destRegs.length ≤ 4 := by
  have hset := f.length_setDests
  have hnum := OperandRecord.numDestRegs_foldl f.setDests .empty
  have hsrcs := (OperandRecord.foldl_addSrc f.srcRegs (f.setDests.foldl .addDest .empty)).1
  simp only [destRegs, OperandRecord.destRegs, operands, hsrcs, length_map, length_range]
  simp only [OperandRecord.empty] at hnum ⊢
  omega

/-- A class with one destination has it, and an invalid one behind it if it is `x0`. -/
theorem destRegs_one {f : FusionInst} {d : RegId} (h : f.setDests = [d]) :
    f.destRegs = [d] ∨ (d.regClass = .invalid ∧ f.destRegs = [d, RegId.invalid]) := by
  obtain ⟨hnum, -, hregs⟩ := OperandRecord.foldl_addSrc f.srcRegs (f.setDests.foldl .addDest .empty)
  have h₀ := hregs 0 (by decide)
  have h₁ := hregs 1 (by decide)
  rw [destRegs, OperandRecord.destRegs, operands, hnum]
  simp only [h, foldl_cons, foldl_nil, OperandRecord.addDest] at h₀ h₁ ⊢
  rcases d with ⟨k, i⟩
  cases k <;>
    simp_all [OperandRecord.incTyped, OperandRecord.empty, range_succ]

end FusionInst

/-! ### Renaming a fused instruction -/

namespace RenameState
variable {st st' : RenameState} {srcs : List RegId} {o : Operands}

theorem renameInst_one {d : RegId} (h : st.renameInst srcs [d] = some (o, st')) :
    ∃ v, st.rename d = some (v, st') ∧ o = ⟨srcs.map st.map, [v]⟩ := by
  unfold renameInst renameDests at h
  rcases hd : st.rename d with _ | ⟨v, st₁⟩
  · simp [hd] at h
  · simp only [hd, renameDests, Option.some.injEq, Prod.mk.injEq] at h
    exact ⟨v, by rw [h.2], h.1.symm⟩

theorem renameDests_cons {d : RegId} {ds : List RegId} {vs : List VirtRegId}
    (h : st.renameDests (d :: ds) = some (vs, st')) : ∃ v st₁ ws, st.rename d = some (v, st₁) ∧
      st₁.renameDests ds = some (ws, st') ∧ vs = v :: ws := by
  unfold renameDests at h
  rcases hd : st.rename d with _ | ⟨v, st₁⟩
  · simp [hd] at h
  · rcases hds : st₁.renameDests ds with _ | ⟨ws, st₂⟩
    · simp [hd, hds] at h
    · simp only [hd, hds, Option.some.injEq, Prod.mk.injEq] at h
      obtain ⟨rfl, rfl⟩ := h
      exact ⟨v, st₁, ws, rfl, hds, rfl⟩

theorem renameInst_two {d₀ d₁ : RegId} {ds : List RegId}
    (h : st.renameInst srcs (d₀ :: d₁ :: ds) = some (o, st')) :
    ∃ v₀ v₁ st₁ st₂ vs, st.rename d₀ = some (v₀, st₁) ∧ st₁.rename d₁ = some (v₁, st₂) ∧
      st₂.renameDests ds = some (vs, st') ∧ o = ⟨srcs.map st.map, v₀ :: v₁ :: vs⟩ := by
  unfold renameInst at h
  rcases hds : st.renameDests (d₀ :: d₁ :: ds) with _ | ⟨ws, st₃⟩
  · simp [hds] at h
  · simp only [hds, Option.some.injEq, Prod.mk.injEq] at h
    obtain ⟨rfl, rfl⟩ := h
    obtain ⟨v₀, st₁, ws, hv₀, hws, rfl⟩ := renameDests_cons hds
    obtain ⟨v₁, st₂, vs, hv₁, hvs, rfl⟩ := renameDests_cons hws
    exact ⟨v₀, v₁, st₁, st₂, vs, hv₀, hv₁, hvs, rfl⟩

theorem renameDests_invalid {ds : List RegId} {vs : List VirtRegId}
    (hds : ∀ d ∈ ds, d = RegId.invalid) (h : st.renameDests ds = some (vs, st')) : st' = st := by
  induction ds generalizing st vs with
  | nil =>
    cases h
    rfl
  | cons d ds ih =>
    obtain ⟨v, st₁, ws, hv, hws, rfl⟩ := renameDests_cons h
    rw [hds d mem_cons_self] at hv
    obtain ⟨-, rfl⟩ := rename_zero hv
    exact ih (fun d hd => hds d (mem_cons_of_mem _ hd)) hws

theorem Represents.map_getReg {pf : PhysRegFile} {regs : RegId → RegVal}
    (h : st.Represents pf regs) (hsrcs : ∀ r ∈ srcs, ∃ n, r = intReg n) :
    (srcs.map st.map).map pf.getReg = srcs.map (readReg regs) := by
  rw [map_map]
  refine map_congr_left fun r hr => ?_
  obtain ⟨n, rfl⟩ := hsrcs r hr
  exact h n

end RenameState

theorem FusionInst.renameInst_one {st st' : RenameState} {o : Operands} {f : FusionInst} {d : RegId}
    (hset : f.setDests = [d]) (h : st.renameInst f.srcRegs f.destRegs = some (o, st')) :
    ∃ v ds, st.rename d = some (v, st') ∧ o = ⟨f.srcRegs.map st.map, v :: ds⟩ := by
  rcases destRegs_one hset with hd | ⟨-, hd⟩ <;> rw [hd] at h
  · obtain ⟨v, hv, ho⟩ := RenameState.renameInst_one h
    exact ⟨v, [], hv, ho⟩
  · obtain ⟨v, w, st₁, st₂, vs, hv, hw, hvs, ho⟩ := RenameState.renameInst_two h
    obtain ⟨-, rfl⟩ := RenameState.rename_zero hw
    cases hvs
    exact ⟨v, [w], hv, ho⟩

/-! ### Comparing with the parts -/

def SameOutcome : Except Stop ArchState → Except Stop ArchState → Prop
  | .ok s, .ok t =>
    (∀ n : Fin 32, readReg s.regs (intReg n) = readReg t.regs (intReg n)) ∧ s.npc = t.npc
  | .error e, .error e' => e = e'
  | _, _ => False

theorem Agrees.trans (h : Agrees st' p y) (hyz : SameOutcome y z) : Agrees st' p z := by
  rcases p with e | ⟨pf, npc⟩ <;> rcases y with e' | t <;> rcases z with e'' | u
  · exact Eq.trans h hyz
  all_goals first | exact h.elim | exact hyz.elim | skip
  exact ⟨fun n => (h.1 n).trans (hyz.1 n), h.2.trans hyz.2⟩

theorem Agrees.sameOutcome (hy : Agrees st' p y) (hz : Agrees st' p z) : SameOutcome y z := by
  rcases p with e | ⟨pf, npc⟩ <;> rcases y with e' | t <;> rcases z with e'' | u
  · exact Eq.trans (Eq.symm hy) hz
  all_goals first | exact hy.elim | exact hz.elim | skip
  exact ⟨fun n => (hy.1 n).symm.trans (hz.1 n), hy.2.symm.trans hz.2⟩

theorem RenameState.rename_isSome {d : RegId} (h : st.free d.regClass ≠ []) :
    ∃ v st', st.rename d = some (v, st') ∧ ∀ c, (st.free c).length ≤ (st'.free c).length + 1 := by
  unfold rename
  split
  · split
    · rename_i hp
      exact absurd hp h
    · rename_i p ps hp
      refine ⟨_, _, rfl, fun c => ?_⟩
      by_cases hc : c = d.regClass
      · subst hc
        simp [bind, hp]
      · simp [bind, Function.update_of_ne hc]
  · exact ⟨_, _, rfl, fun c => Nat.le_succ _⟩

theorem RenameState.renameInst_isSome (srcs : List RegId) {ds : List RegId}
    (h : ∀ c, ds.length ≤ (st.free c).length) : ∃ r, st.renameInst srcs ds = some r := by
  have hdests : ∃ r, st.renameDests ds = some r := by
    induction ds generalizing st with
    | nil => exact ⟨_, rfl⟩
    | cons d ds ih =>
      have hne : st.free d.regClass ≠ [] := by
        intro hnil
        have := h d.regClass
        simp [hnil] at this
      obtain ⟨v, st₁, hv, hfree⟩ := rename_isSome hne
      have hrest : ∀ c, ds.length ≤ (st₁.free c).length := fun c => by
        have h₁ := h c
        have h₂ := hfree c
        simp only [length_cons] at h₁
        omega
      obtain ⟨⟨vs, st₂⟩, hvs⟩ := ih hrest
      exact ⟨(v :: vs, st₂), by simp [renameDests, hv, hvs]⟩
  obtain ⟨⟨vs, st'⟩, hvs⟩ := hdests
  exact ⟨(⟨srcs.map st.map, vs⟩, st'), by simp [renameInst, hvs]⟩

theorem FusionInst.exists_rename (f : FusionInst) :
    ∃ r, (identity 4).renameInst f.srcRegs f.destRegs = some r := by
  refine renameInst_isSome f.srcRegs fun c => ?_
  simpa [identity] using f.length_destRegs

theorem FusionInst.Computes.preserves_iff {alu : AluSem} {f : FusionInst}
    {g : ArchState → Except Stop ArchState} (hg : f.Computes alu g) :
    f.Preserves alu ↔ ∀ s, SameOutcome (g s) (execInOrder alu f.parts s) := by
  constructor
  · intro h s
    obtain ⟨⟨o, st'⟩, hren⟩ := f.exists_rename
    have hpf := represents_identityFile 4 (fun _ => 0) s.regs
    exact (hg _ _ _ _ s hpf hren).sameOutcome (h _ _ _ _ s hpf hren)
  · intro h st st' o pf s hpf hren
    exact (hg st st' o pf s hpf hren).trans (h s)

theorem FusionInst.fuseTmp_map (f : FusionInst) (st : RenameState) (ds : List VirtRegId) :
    f.fuseTmp ⟨f.srcRegs.map st.map, ds⟩ =
      if fuseTmpReg ∈ f.srcRegs then some (st.map fuseTmpReg).phyReg else none := by
  unfold FusionInst.fuseTmp
  generalize f.srcRegs = srcs
  induction srcs with
  | nil => rfl
  | cons r rs ih =>
    by_cases hr : r = fuseTmpReg
    · simp [hr]
    · have hr' : fuseTmpReg ≠ r := fun h => hr h.symm
      simpa [hr, hr', find?_cons] using ih

end Gem5
