import Gem5.Rename.Stage

/-!
# Faults of eliminated instructions

An instruction that rename eliminates is never executed, so a fault that its execution returns is
lost.  The instructions that can be eliminated are the six that `decoder.isa` declares with `IsMov`
or `IsAddImm`; three of them return a fault for some encodings.
-/

namespace Gem5
open RenameStage Bypass

def field (machInst : BitVec 32) (first last : ℕ) : ℕ :=
  machInst.toNat / 2 ^ last % 2 ^ (first + 1 - last)

/-- The instruction classes with `IsMov` or `IsAddImm`. -/
inductive ElimOp
  | mv
  | addi
  | cMv
  | cAddi
  | cAddi4spn
  | cAddi16sp
  deriving DecidableEq

def ElimOp.decodes (op : ElimOp) (i : BitVec 32) : Bool :=
  match op with
  | .mv => field i 1 0 == 3 && field i 6 2 == 4 && field i 14 12 == 0 && field i 31 20 == 0
  | .addi => field i 1 0 == 3 && field i 6 2 == 4 && field i 14 12 == 0 && field i 31 20 != 0
  | .cMv => field i 31 16 == 0 && field i 1 0 == 2 && field i 15 13 == 4 && field i 12 12 == 0 &&
      field i 6 2 != 0
  | .cAddi => field i 31 16 == 0 && field i 1 0 == 1 && field i 15 13 == 0
  | .cAddi4spn => field i 31 16 == 0 && field i 1 0 == 0 && field i 15 13 == 0
  | .cAddi16sp => field i 31 16 == 0 && field i 1 0 == 1 && field i 15 13 == 3 &&
      field i 11 7 == 2

structure ElimInst where
  op : ElimOp
  machInst : BitVec 32
  decodes : op.decodes machInst = true

namespace ElimInst
variable (i : ElimInst)

def reg (n : ℕ) : RegId :=
  if n = 0 then .invalid else ⟨.int, n⟩

/-- `sext<n>`. -/
def sext (n x : ℕ) : ℤ :=
  if x < 2 ^ (n - 1) then x else (x : ℤ) - 2 ^ n

def imm : ℤ :=
  let f := field i.machInst
  match i.op with
  | .mv | .cMv => 0
  | .addi => sext 12 (f 31 20)
  | .cAddi => sext 6 (32 * f 12 12 + f 6 2)
  -- `CIMM8` are the bits from 12 to 5
  | .cAddi4spn => 4 * f 6 6 + 8 * f 5 5 + 16 * f 12 11 + 64 * f 10 7
  -- `CIMM5` are the bits from 6 to 2, and `CIMM1` is the sign
  | .cAddi16sp => sext 10 (512 * f 12 12 + 16 * f 6 6 + 32 * f 2 2 + 64 * f 5 5 + 128 * f 4 3)

def srcReg : RegId :=
  let f := field i.machInst
  match i.op with
  | .mv | .addi => reg (f 19 15)
  | .cMv => reg (f 6 2)
  | .cAddi => reg (f 11 7)
  | .cAddi4spn | .cAddi16sp => reg 2

def destReg : RegId :=
  let f := field i.machInst
  match i.op with
  | .mv | .addi | .cMv | .cAddi => reg (f 11 7)
  | .cAddi4spn => reg (f 4 2 + 8)
  | .cAddi16sp => reg 2

def isMov : Bool :=
  match i.op with
  | .mv | .cMv => true
  | _ => false

def isAddImm : Bool :=
  match i.op with
  | .addi | .cAddi | .cAddi4spn | .cAddi16sp => true
  | _ => false

/-- Whether `execute` returns a fault. -/
def execFaults : Bool :=
  match i.op with
  -- "source reg x0"
  | .cMv => field i.machInst 11 7 == 0
  -- "zero instruction"
  | .cAddi4spn => i.machInst == 0
  -- "immediate = 0"
  | .cAddi16sp => i.imm == 0
  | .mv | .addi | .cAddi => false

def toRenameInst (seqNum : ℕ) : RenameInst where
  seqNum := seqNum
  isMov := i.isMov
  isAddImm := i.isAddImm
  imm := i.imm
  srcRegs := [i.srcReg]
  destRegs := [(i.destReg, 0)]

/-- The elimination that rename would use is off, or the stack pointer holds the result of a `lui`
that was folded. -/
def Spared {n : ℕ} (c : RenameConfig) (st : RenameStage n) (tid : Fin n) : Prop :=
  match i.op with
  | .cMv => c.enableMoveElimination = false
  | .cAddi4spn | .cAddi16sp =>
    c.enableConstantFolding = false ∨ ∃ k, (st.lookup tid (reg 2)).ieop = some (.lui k)
  | .mv | .addi | .cAddi => True

variable {i}

theorem renameDestRegs_eliminated {n : ℕ} {c : RenameConfig} {st st' : RenameStage n}
    {tid : Fin n} {seqNum : ℕ} {news : List VirtRegId} {eliminated : Bool}
    (h : st.renameDestRegs c tid (i.toRenameInst seqNum) = .ok (news, eliminated, st')) :
    eliminated = (st.bypassReg c tid (i.toRenameInst seqNum)).isEliminated := by
  rw [renameDestRegs, toRenameInst, renameDests] at h
  split at h
  · cases h
  · obtain ⟨-, heliminated, -⟩ := Prod.mk.inj (Except.ok.inj h) |>.imp id Prod.mk.inj
    rw [← heliminated, Bool.or_false]
    rfl

theorem fold_isEliminated (v : VirtRegId) (imm : ℤ) :
    (v.fold imm).isEliminated = true ↔ ¬ ∃ k, v.ieop = some (.lui k) := by
  unfold VirtRegId.fold
  cases v.ieop with
  | none => simp [isEliminated]
  | some op => cases op <;> simp [isEliminated]

section
variable {n : ℕ} (c : RenameConfig) (st : RenameStage n) (tid : Fin n) (seqNum : ℕ)

theorem bypassReg_sp (hmov : i.isMov = false) (hadd : i.isAddImm = true) (hsrc : i.srcReg = reg 2) :
    (st.bypassReg c tid (i.toRenameInst seqNum)).isEliminated = false ↔
      c.enableConstantFolding = false ∨ ∃ k, (st.lookup tid (reg 2)).ieop = some (.lui k) := by
  have hsp : (reg 2).regClass ≠ .invalid := by decide
  have hlookup : (i.toRenameInst seqNum).srcRegIdx 0 = reg 2 := hsrc
  rw [bypassReg, if_neg (by simp [toRenameInst, hmov]), hlookup]
  cases hfold : c.enableConstantFolding with
  | false =>
    rw [if_neg (by simp [hsp])]
    simp [isEliminated]
  | true =>
    rw [if_pos (by simp [toRenameInst, hadd]), ← Bool.not_eq_true, fold_isEliminated, not_not]
    simp

theorem bypassReg_eliminated_iff (h : i.execFaults = true) :
    (st.bypassReg c tid (i.toRenameInst seqNum)).isEliminated = false ↔ i.Spared c st tid := by
  obtain ⟨op, machInst, hdecodes⟩ := i
  cases op with
  | mv => cases h
  | addi => cases h
  | cAddi => cases h
  | cMv =>
    cases hmov : c.enableMoveElimination with
    | false =>
      simp [bypassReg, toRenameInst, isMov, isAddImm, Spared, hmov, isEliminated]
    | true =>
      simp [bypassReg, toRenameInst, isMov, Spared, hmov, isEliminated]
  | cAddi4spn => exact bypassReg_sp c st tid seqNum rfl rfl rfl
  | cAddi16sp => exact bypassReg_sp c st tid seqNum rfl rfl rfl
end

/-- Whatever the encoding, the switches and the state: rename leaves an instruction whose execution
returns a fault to be executed exactly if it is spared. -/
theorem keeps_fault_iff {n : ℕ} {c : RenameConfig} {st st' : RenameStage n} {tid : Fin n}
    {seqNum : ℕ} {news : List VirtRegId} {eliminated : Bool}
    (h : st.renameDestRegs c tid (i.toRenameInst seqNum) = .ok (news, eliminated, st')) :
    (i.execFaults = true → eliminated = false) ↔ (i.execFaults = true → i.Spared c st tid) := by
  rw [renameDestRegs_eliminated h]
  exact imp_congr_right fun hfault => bypassReg_eliminated_iff c st tid seqNum hfault

end ElimInst

def RenameConfig.intOnly (fold : Bool) : RenameConfig where
  numArchRegs k := if k = .int then 32 else 0
  numPhysRegs k := if k = .int then 64 else 0
  enableMoveElimination := false
  enableConstantFolding := fold
  enableMovImmElimination := false

theorem addi16sp_decodes : ElimOp.cAddi16sp.decodes 0x6101 = true := by
  decide

/-- `c.addi16sp sp, 0`, which is reserved. -/
def addi16spZero : ElimInst :=
  ⟨.cAddi16sp, 0x6101, addi16sp_decodes⟩

def firstStage (fold : Bool) : Except String (RenameStage 1) :=
  (RenameConfig.intOnly fold).initial 1

/-- Without folding the fault is kept. -/
theorem addi16sp_kept : ∃ st news eliminated st', firstStage false = .ok st ∧
    st.renameDestRegs (.intOnly false) 0 (addi16spZero.toRenameInst 1) =
      .ok (news, eliminated, st') ∧ addi16spZero.execFaults = true ∧ eliminated = false := by
  obtain ⟨st, hst⟩ : ∃ st, firstStage false = .ok st := ⟨_, rfl⟩
  obtain ⟨news, eliminated, st', h⟩ : ∃ news eliminated st', st.renameDestRegs (.intOnly false) 0
      (addi16spZero.toRenameInst 1) = .ok (news, eliminated, st') := by
    cases hst
    exact ⟨_, _, _, rfl⟩
  exact ⟨st, news, eliminated, st', hst, h, rfl,
    (ElimInst.keeps_fault_iff h).mpr (fun _ => Or.inl rfl) rfl⟩

/-- With folding, the instruction is eliminated and its fault is lost. -/
theorem addi16sp_eliminated : addi16spZero.execFaults = true ∧
    (firstStage true).toOption.bind (fun st =>
      (st.renameDestRegs (.intOnly true) 0 (addi16spZero.toRenameInst 1)).toOption.map
        fun r => r.2.1) = some true :=
  ⟨rfl, rfl⟩

end Gem5
