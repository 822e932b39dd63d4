import Gem5.Rename.RefCount

/-!
# A machine that renames

Instructions of one thread are renamed in program order, execute in any order that respects their
operands, commit in order, and are squashed back to a sequence number; committed history is released
in between.  Sequential execution is the specification.

An instruction executes only after all instructions before it that write one of its sources.  Loads
and stores enter through `eval`, which is the instruction's own.
-/

namespace Gem5
open List

/-- An instruction and what it computes from the values of its sources.  A move copies its source,
an add-immediate adds its 12-bit immediate; registers are renamed or invalid, and none is pinned. -/
structure ArchInst (c : RenameConfig) extends RenameInst where
  eval : List RegVal → List RegVal
  valid : toRenameInst.Valid c
  src_class : ∀ r ∈ srcRegs, r.regClass ≠ .misc
  dest_class : ∀ d ∈ destRegs, d.1.regClass ≠ .misc
  not_pinned : ∀ d ∈ destRegs, d.2 = 0
  eval_length : ∀ xs, (eval xs).length = destRegs.length
  mov_eval : isMov = true → ∃ s d, srcRegs = [s] ∧ destRegs = [(d, 0)] ∧ ∀ x, eval [x] = [x]
  addImm_eval : isAddImm = true → ∃ s d, srcRegs = [s] ∧ destRegs = [(d, 0)] ∧
    (∀ x, eval [x] = [x + BitVec.ofInt 64 imm]) ∧ -2048 ≤ imm ∧ imm < 2048

def RenameConfig.Operand (c : RenameConfig) (r : RegId) : Prop :=
  r.regClass = .invalid ∨ r ∈ c.archRegs

namespace RenameConfig.Operand
variable {c : RenameConfig} {r : RegId}

theorem mem_archRegs (h : c.Operand r) (hr : r.isRenameable = true) : r ∈ c.archRegs :=
  h.resolve_left fun hinv => by simp [RegId.isRenameable, hinv] at hr

theorem class_ne (h : c.Operand r) : r.regClass ≠ .misc := by
  rcases h with hinv | hmem
  · simp [hinv]
  · intro hmisc
    have hren := isRenameable_of_mem hmem
    simp [RegId.isRenameable, hmisc] at hren

end RenameConfig.Operand

/-! ### Sequential execution -/

section
variable {c : RenameConfig}

theorem RenameInst.valid_of_operands {i : RenameInst} (hs : ∀ r ∈ i.srcRegs, c.Operand r)
    (hd : ∀ w ∈ i.destRegs, c.Operand w.1) : i.Valid c where
  srcs r hr := (hs r hr).mem_archRegs
  dests w hw := (hd w hw).mem_archRegs
  bypass _ := by
    unfold RenameInst.srcRegIdx
    cases hsrcs : i.srcRegs with
    | nil => simp [RegId.invalid]
    | cons r rs => exact (hs r (by simp [hsrcs])).class_ne

def ArchInst.mv (seqNum : ℕ) (d s : RegId) (hd : c.Operand d) (hs : c.Operand s) : ArchInst c where
  seqNum := seqNum
  isMov := true
  isAddImm := false
  imm := 0
  srcRegs := [s]
  destRegs := [(d, 0)]
  eval xs := [xs.headD 0]
  valid := RenameInst.valid_of_operands (forall_mem_singleton.2 hs)
    (forall_mem_singleton.2 hd)
  src_class := forall_mem_singleton.2 hs.class_ne
  dest_class := forall_mem_singleton.2 hd.class_ne
  not_pinned := forall_mem_singleton.2 rfl
  eval_length _ := rfl
  mov_eval _ := ⟨s, d, rfl, rfl, fun _ => rfl⟩
  addImm_eval h := absurd h Bool.false_ne_true

def ArchInst.addi (seqNum : ℕ) (d s : RegId) (imm : ℤ) (hd : c.Operand d) (hs : c.Operand s)
    (himm : -2048 ≤ imm ∧ imm < 2048) : ArchInst c where
  seqNum := seqNum
  isMov := false
  isAddImm := true
  imm := imm
  srcRegs := [s]
  destRegs := [(d, 0)]
  eval xs := [xs.headD 0 + BitVec.ofInt 64 imm]
  valid := RenameInst.valid_of_operands (forall_mem_singleton.2 hs)
    (forall_mem_singleton.2 hd)
  src_class := forall_mem_singleton.2 hs.class_ne
  dest_class := forall_mem_singleton.2 hd.class_ne
  not_pinned := forall_mem_singleton.2 rfl
  eval_length _ := rfl
  mov_eval h := absurd h Bool.false_ne_true
  addImm_eval _ := ⟨s, d, rfl, rfl, fun _ => rfl, himm⟩

def ArchInst.ordinary (seqNum : ℕ) (dests srcs : List RegId) (eval : List RegVal → List RegVal)
    (hd : ∀ d ∈ dests, c.Operand d) (hs : ∀ s ∈ srcs, c.Operand s)
    (hlen : ∀ xs, (eval xs).length = dests.length) : ArchInst c where
  seqNum := seqNum
  isMov := false
  isAddImm := false
  imm := 0
  srcRegs := srcs
  destRegs := dests.map (·, 0)
  eval := eval
  valid := RenameInst.valid_of_operands hs (forall_mem_map.2 hd)
  src_class s h := (hs s h).class_ne
  dest_class := forall_mem_map.2 fun d h => (hd d h).class_ne
  not_pinned := forall_mem_map.2 fun _ _ => rfl
  eval_length xs := (hlen xs).trans (length_map _).symm
  mov_eval h := absurd h Bool.false_ne_true
  addImm_eval h := absurd h Bool.false_ne_true

def ArchInst.dests (i : ArchInst c) : List RegId := i.destRegs.map Prod.fst

def ArchInst.values (i : ArchInst c) (regs : RegId → RegVal) : List RegVal :=
  i.eval (i.srcRegs.map (readReg regs))

def ArchInst.seq (i : ArchInst c) (regs : RegId → RegVal) : RegId → RegVal :=
  (i.dests.zip (i.values regs)).foldl (fun regs w => writeReg regs w.1 w.2) regs

def seqRegs (regs : RegId → RegVal) (program : List (ArchInst c)) : RegId → RegVal :=
  program.foldr ArchInst.seq regs

def ArchInst.moves (i : ArchInst c) : Bool := c.enableMoveElimination && i.isMov

def ArchInst.folds (i : ArchInst c) : Bool :=
  !i.moves && (i.isAddImm && (c.enableConstantFolding ||
    (c.enableMovImmElimination && (i.srcRegIdx 0).regClass = .invalid)))

/-- The exact sum of the immediates folded into the mapping of a register, after a program whose
last instruction comes first. -/
def foldSum : List (ArchInst c) → RegId → ℤ
  | [], _ => 0
  | i :: program, r =>
    if r ∈ i.dests ∧ r.isRenameable then
      if i.moves then foldSum program (i.srcRegIdx 0)
      else if i.folds then foldSum program (i.srcRegIdx 0) + i.imm
      else 0
    else foldSum program r

/-- The sum is not changed by its conversion to the `int` of an `IEOperand`. -/
def Fits (sum : ℤ) : Prop := BitVec.ofInt 64 (toInt32 sum) = BitVec.ofInt 64 sum
end

/-! ### The machine -/

/-- An instruction in flight: its renamed operands, whether rename has eliminated it and whether it
has executed. -/
structure InFlight (c : RenameConfig) where
  inst : ArchInst c
  srcs : List VirtRegId
  dests : List VirtRegId
  eliminated : Bool
  executed : Bool

namespace InFlight
variable {c : RenameConfig}

def seqNum (f : InFlight c) : ℕ := f.inst.seqNum

def pending (f : InFlight c) : Bool := !f.eliminated && !f.executed

def writes (f : InFlight c) (p : PhysRegId) : Bool := (f.dests.map VirtRegId.phyReg).contains p

def markExecuted (seqNum : ℕ) (f : InFlight c) : InFlight c :=
  if f.seqNum = seqNum then { f with executed := true } else f

end InFlight

/-- The rename stage of one thread, the physical registers, the instructions in flight and the
committed ones; in both lists the newest comes first. -/
structure RenameMachine (c : RenameConfig) where
  stage : RenameStage 1
  regFile : PhysRegFile
  rob : List (InFlight c)
  committed : List (ArchInst c)
  lastCommitted : ℕ

inductive RenameEvent (c : RenameConfig)
  | rename (inst : ArchInst c)
  | execute (seqNum : ℕ)
  | squash (seqNum : ℕ)
  | commit
  | release (seqNum : ℕ)

def PhysRegFile.writes (pf : PhysRegFile) (l : List (VirtRegId × RegVal)) : PhysRegFile :=
  l.foldl (fun pf w => pf.setReg w.1.phyReg w.2) pf

namespace RenameMachine
variable {c : RenameConfig}

def start (st : RenameStage 1) (pf : PhysRegFile) : RenameMachine c := ⟨st, pf, [], [], 0⟩

/-- The instructions before `seqNum` that are in flight. -/
def older (m : RenameMachine c) (seqNum : ℕ) : List (InFlight c) :=
  m.rob.filter (·.seqNum < seqNum)

/-- The instructions before `seqNum` that have not been squashed. -/
def program (m : RenameMachine c) (seqNum : ℕ) : List (ArchInst c) :=
  (m.older seqNum).map InFlight.inst ++ m.committed

def ready (m : RenameMachine c) (f : InFlight c) : Bool :=
  (m.older f.seqNum).all fun o => !o.pending || f.srcs.all fun v => !o.writes v.phyReg

def read (m : RenameMachine c) (f : InFlight c) : List RegVal := f.srcs.map m.regFile.getReg

def lastSeq (m : RenameMachine c) : ℕ :=
  match m.rob with
  | [] => m.lastCommitted
  | f :: _ => f.seqNum

def executable (m : RenameMachine c) (seqNum : ℕ) : Option (InFlight c) :=
  (m.rob.find? (·.seqNum = seqNum)).filter fun f => f.pending && m.ready f

def step (m : RenameMachine c) : RenameEvent c → Option (RenameMachine c)
  | .rename i =>
    if m.lastSeq < i.seqNum then
      match m.stage.renameDestRegs c 0 i.toRenameInst with
      | .error _ => none
      | .ok (news, eliminated, st) => some { m with
          stage := st
          rob := ⟨i, m.stage.renameSrcRegs 0 i.toRenameInst, news, eliminated, false⟩ :: m.rob }
    else none
  | .execute seqNum =>
    match m.executable seqNum with
    | none => none
    | some f => some { m with
        regFile := m.regFile.writes (f.dests.zip (f.inst.eval (m.read f)))
        rob := m.rob.map (InFlight.markExecuted seqNum) }
  | .squash seqNum =>
    if m.lastCommitted ≤ seqNum then some { m with
      stage := m.stage.doSquash seqNum 0
      rob := m.rob.dropWhile (seqNum < ·.seqNum) }
    else none
  | .commit =>
    match m.rob.getLast? with
    | none => none
    | some f =>
      if f.pending then none
      else some { m with
        rob := m.rob.dropLast
        committed := f.inst :: m.committed
        lastCommitted := f.seqNum }
  | .release seqNum =>
    if seqNum ≤ m.lastCommitted then some { m with stage := m.stage.removeFromHistory seqNum 0 }
    else none

def executes (m : RenameMachine c) : RenameEvent c → Option (InFlight c)
  | .execute seqNum => m.executable seqNum
  | _ => none

/-- `P` holds of every instruction that executes along a run, when it executes. -/
def Along (P : RenameMachine c → InFlight c → Prop) (m : RenameMachine c) :
    List (RenameEvent c) → Prop
  | [] => True
  | e :: es => (∀ f ∈ m.executes e, P m f) ∧ ∀ m' ∈ m.step e, Along P m' es

/-- The sources are read as in sequential execution. -/
def ReadsSeq (regs : RegId → RegVal) (m : RenameMachine c) (f : InFlight c) : Prop :=
  m.read f = f.inst.srcRegs.map (readReg (seqRegs regs (m.program f.seqNum)))

/-- The immediates folded into the sources fit. -/
def ReadsFit (m : RenameMachine c) (f : InFlight c) : Prop :=
  ∀ r ∈ f.inst.srcRegs, Fits (foldSum (m.program f.seqNum) r)

def startRegs (st : RenameStage 1) (pf : PhysRegFile) : RegId → RegVal :=
  fun r => pf.getReg (st.lookup 0 r)

end RenameMachine
end Gem5
