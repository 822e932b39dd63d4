import Gem5.Rename.Refine

/-!
# Constant folding

An `addi` that is folded adds its immediate to the one that its source already carries.  The
immediate of an `IEOperand` is an `int`, the sum of the immediates has no bound.
-/

namespace Gem5
open List RenameMachine RenameConfig

/-- **Constant folding.**  Along any run every instruction reads what sequential execution gives its
sources, exactly if what is folded into a source that is read always fits. -/
theorem folding_iff {c : RenameConfig} {st : RenameStage 1} (h : c.initial 1 = .ok st)
    (pf : PhysRegFile) (es : List (RenameEvent c)) :
    (RenameMachine.start st pf).Along (RenameMachine.ReadsSeq (RenameMachine.startRegs st pf)) es ↔
      (RenameMachine.start st pf).Along RenameMachine.ReadsFit es :=
  (machineInv_start h pf).along_iff es

def RenameConfig.folding : RenameConfig where
  numArchRegs k := if k = .int then 32 else 0
  numPhysRegs k := if k = .int then 64 else 0
  enableMoveElimination := true
  enableConstantFolding := true
  enableMovImmElimination := true

namespace Chain
def x5 : RegId := ⟨.int, 5⟩

theorem x5_operand : folding.Operand x5 := .inr (mem_archRegs.2 ⟨mem_cons_self, by decide⟩)

/-- `addi x5, x5, 2047`. -/
def addi (seqNum : ℕ) : ArchInst .folding :=
  .addi seqNum x5 x5 2047 x5_operand x5_operand (by decide)

theorem length_reader (xs : List RegVal) :
    ((fun _ => [] : List RegVal → List RegVal) xs).length = ([] : List RegId).length := rfl

/-- An instruction that only reads `x5`. -/
def reader (seqNum : ℕ) : ArchInst .folding :=
  .ordinary seqNum [] [x5] (fun _ => []) (forall_mem_nil _)
    (forall_mem_singleton.2 x5_operand) length_reader

/-- The first `n` instructions of the chain, the last one first. -/
def addis : ℕ → List (ArchInst .folding)
  | 0 => []
  | n + 1 => addi (n + 1) :: addis n

@[irreducible] def events (n : ℕ) : List (RenameEvent .folding) :=
  (List.range n).map fun k => .rename (addi (k + 1))

def readAfter (n : ℕ) : List (RenameEvent .folding) :=
  [.rename (reader (n + 1)), .execute (n + 1)]

theorem foldSum_addis (n : ℕ) : foldSum (addis n) x5 = 2047 * n := by
  induction n with
  | zero => rfl
  | succ n ih =>
    have hdest : x5 ∈ (addi (n + 1)).dests ∧ x5.isRenameable = true :=
      ⟨mem_singleton.2 rfl, by decide⟩
    have hmov : (addi (n + 1)).moves = false := rfl
    have hfold : (addi (n + 1)).folds = true := rfl
    have hsrc : (addi (n + 1)).srcRegIdx 0 = x5 := rfl
    have himm : (addi (n + 1)).imm = 2047 := rfl
    rw [addis, foldSum, if_pos hdest, hmov, if_pos hfold, hsrc, ih, himm]
    push_cast
    ring

/-- The machine after `n` instructions of the chain. -/
structure After (n : ℕ) (m : RenameMachine .folding) : Prop where
  inv : ∃ regs, MachineInv regs m
  insts : m.rob.map InFlight.inst ++ m.committed = addis n
  eliminated : ∀ f ∈ m.rob, f.eliminated = true
  last : m.lastSeq = n

section
variable {n : ℕ} {m : RenameMachine .folding} (h : After n m)
include h

theorem After.rename : ∃ m', m.step (.rename (addi (n + 1))) = some m' ∧ After (n + 1) m' := by
  obtain ⟨regs, hinv⟩ := h.inv
  obtain ⟨ghost, hstaged⟩ := hinv.inOrder
  -- the destination shares the register of the source
  have hbypass : m.stage.bypassReg .folding 0 (addi (n + 1)).toRenameInst =
      (m.stage.lookup 0 x5).fold 2047 := rfl
  obtain ⟨v, hv, hel, -, -⟩ := (hstaged.now.1.folded x5 x5_operand).fold 2047
  obtain ⟨st, hren⟩ : ∃ st, m.stage.renameDestRegs .folding 0 (addi (n + 1)).toRenameInst =
      .ok ([v], true, st) := by
    have hdest : (addi (n + 1)).destRegs = [(x5, 0)] := rfl
    have hx5 : x5.isRenameable = true := by decide
    rw [RenameStage.renameDestRegs, hdest]
    simp [RenameStage.renameDests, RenameStage.rename, hbypass, hv, hel, hx5]
  have hlt : m.lastSeq < (addi (n + 1)).seqNum := by
    rw [h.last]
    exact Nat.lt_succ_self n
  have hstep : m.step (.rename (addi (n + 1))) = some { m with
      stage := st
      rob := ⟨addi (n + 1), m.stage.renameSrcRegs 0 (addi (n + 1)).toRenameInst, [v], true,
        false⟩ :: m.rob } := by
    simp [step, hlt, hren]
  refine ⟨_, hstep, ⟨regs, hinv.step (fun f hf => by cases hf) hstep⟩, ?_, ?_, rfl⟩
  · rw [addis, ← h.insts]
    rfl
  · exact forall_mem_cons.2 ⟨rfl, h.eliminated⟩

theorem After.read : m.Along ReadsFit (readAfter n) ↔ Fits (2047 * n) := by
  obtain ⟨regs, hinv⟩ := h.inv
  have hseq : (reader (n + 1)).seqNum = n + 1 := rfl
  have hlt : m.lastSeq < (reader (n + 1)).seqNum := by
    rw [h.last]
    exact Nat.lt_succ_self n
  let e : InFlight .folding := ⟨reader (n + 1), [m.stage.lookup 0 x5], [], false, false⟩
  have hstep : m.step (.rename (reader (n + 1))) = some { m with rob := e :: m.rob } := by
    simp only [step, hlt]
    rfl
  have hinv' := hinv.step (fun f hf => by cases hf) hstep
  have holder := hinv'.older_eq (nil_append _).symm
  have hexec : executable { m with rob := e :: m.rob } (n + 1) = some e := by
    have hready : ready { m with rob := e :: m.rob } e = true := by
      rw [ready, holder, all_eq_true]
      intro o ho
      simp [InFlight.pending, h.eliminated o ho]
    rw [executable, find?_cons_of_pos (by simp [e, InFlight.seqNum, hseq]),
      Option.filter_some, hready]
    rfl
  have hfit : ReadsFit { m with rob := e :: m.rob } e ↔ Fits (2047 * n) := by
    rw [ReadsFit, program, holder, h.insts, ← foldSum_addis]
    exact forall_mem_singleton
  rw [← hfit]
  constructor
  · intro halong
    exact (halong.2 _ hstep).1 _ hexec
  · intro hreads
    refine ⟨fun f hf => (by cases hf), fun m' hm' => ?_⟩
    cases hstep.symm.trans hm'
    refine ⟨fun f hf => ?_, fun _ _ => trivial⟩
    cases hexec.symm.trans hf
    exact hreads
end

theorem along_events (P : RenameMachine .folding → InFlight .folding → Prop)
    {m₀ : RenameMachine .folding} (h₀ : After 0 m₀) (n : ℕ) (es : List (RenameEvent .folding)) :
    ∃ m, After n m ∧ (m₀.Along P (events n ++ es) ↔ m.Along P es) := by
  induction n generalizing es with
  | zero => exact ⟨m₀, h₀, by rw [events]; rfl⟩
  | succ n ih =>
    obtain ⟨m, hm, hiff⟩ := ih (.rename (addi (n + 1)) :: es)
    obtain ⟨m', hstep, hm'⟩ := hm.rename
    refine ⟨m', hm', ?_⟩
    rw [events, range_succ, map_append, append_assoc]
    rw [events] at hiff
    refine hiff.trans ⟨fun hrest => hrest.2 m' hstep, fun hrest => ?_⟩
    refine ⟨fun f hf => (by cases hf), fun m'' hm'' => ?_⟩
    cases hstep.symm.trans hm''
    exact hrest

section
variable {st : RenameStage 1} (h : folding.initial 1 = .ok st) (pf : PhysRegFile)
include h

theorem readsFit_iff (n : ℕ) : (start st pf).Along ReadsFit (events n ++ readAfter n) ↔
      Fits (2047 * n) := by
  have hstart : After 0 (start st pf) :=
    ⟨⟨_, machineInv_start h pf⟩, rfl, by simp [start], rfl⟩
  obtain ⟨m, hm, hiff⟩ := along_events ReadsFit hstart n (readAfter n)
  exact hiff.trans hm.read

theorem readsFit_of_fits {n : ℕ} (hn : Fits (2047 * n)) :
    (start st pf).Along ReadsFit (events n ++ readAfter n) := (readsFit_iff h pf n).2 hn

theorem not_readsSeq {n : ℕ} (hn : ¬Fits (2047 * n)) :
    ¬(start st pf).Along (ReadsSeq (startRegs st pf)) (events n ++ readAfter n) := by
  intro hread
  exact hn ((readsFit_iff h pf n).1 (((machineInv_start h pf).along_iff _).1 hread))
end
end Chain

/-- A chain of a million is read as it should be. -/
theorem million_chain_fits : ∃ st : RenameStage 1, RenameConfig.folding.initial 1 = .ok st ∧
    ∀ pf : PhysRegFile, (RenameMachine.start st pf).Along
      (RenameMachine.ReadsSeq (RenameMachine.startRegs st pf))
      (Chain.events 1000000 ++ Chain.readAfter 1000000) := by
  obtain ⟨st, h⟩ : ∃ st : RenameStage 1, folding.initial 1 = .ok st := ⟨_, rfl⟩
  have hfits : Fits (2047 * (1000000 : ℕ)) := by
    unfold Fits toInt32
    decide
  refine ⟨st, h, fun pf => (folding_iff h pf _).2 ?_⟩
  exact Chain.readsFit_of_fits h pf hfits

/-- After 1049089 times `addi x5, x5, 2047` the sum exceeds an `int`, and what is read of `x5` is
not its value. -/
theorem long_chain_overflows : ∃ st : RenameStage 1, RenameConfig.folding.initial 1 = .ok st ∧
    ∀ pf : PhysRegFile, ¬(RenameMachine.start st pf).Along
      (RenameMachine.ReadsSeq (RenameMachine.startRegs st pf))
      (Chain.events 1049089 ++ Chain.readAfter 1049089) := by
  obtain ⟨st, h⟩ : ∃ st : RenameStage 1, folding.initial 1 = .ok st := ⟨_, rfl⟩
  have hno : ¬Fits (2047 * (1049089 : ℕ)) := by
    unfold Fits toInt32
    decide
  exact ⟨st, h, fun pf => Chain.not_readsSeq h pf hno⟩

end Gem5
