import Mathlib.Data.BitVec
import Gem5.Lib.RegFile

/-!
# Registers and renaming

The register names of `cpu/reg_class.hh`, the physical register file of `cpu/o3/regfile.hh` and
the part of `cpu/o3/rename_map.hh` that gives an instruction its physical registers.
-/

namespace Gem5
open List Function RegFile

abbrev Addr := BitVec 64
abbrev RegVal := BitVec 64
abbrev Mem := Addr → BitVec 8

inductive RegClassType
  | int
  | float
  | vec
  | vecElem
  | vecPred
  | cc
  | rmisc
  | misc
  | invalid
  deriving DecidableEq, Repr

structure RegId where
  regClass : RegClassType
  regIdx : ℕ
  deriving DecidableEq, Repr

/-- The default-constructed `RegId()`. -/
def RegId.invalid : RegId := ⟨.invalid, 0⟩

def RegId.isRenameable (r : RegId) : Bool := r.regClass != .misc && r.regClass != .invalid

/-- There are 32 integer registers, so `0`, `1`, … are register numbers. -/
instance neZero_numIntRegs : NeZero 32 := ⟨by decide⟩

/-- The integer operand with register number `n`. -/
def intReg (n : Fin 32) : RegId := if n = 0 then RegId.invalid else ⟨.int, n⟩

def fuseTmpReg : RegId := ⟨.rmisc, 2⟩

@[simp] theorem intReg_zero : intReg 0 = RegId.invalid := rfl

variable {n : Fin 32} {d : RegId}

theorem intReg_inj {m : Fin 32} : intReg m = intReg n ↔ m = n := by
  revert m n; decide

theorem intReg_eq_invalid : intReg n = RegId.invalid ↔ n = 0 := by
  revert n; decide

theorem intReg_class_ne_rmisc (n : Fin 32) : (intReg n).regClass ≠ .rmisc := by
  revert n; decide

theorem intReg_ne_fuseTmpReg (n : Fin 32) : intReg n ≠ fuseTmpReg := by
  revert n; decide

theorem intReg_isRenameable (n : Fin 32) : (intReg n).isRenameable = true ↔ n ≠ 0 := by
  revert n; decide

theorem intReg_invalid_class : (intReg n).regClass = .invalid ↔ n = 0 := by
  revert n; decide

/-! ### Architectural register files -/

abbrev RegId.IsHard (r : RegId) : Prop := r.regClass = .invalid

def readReg (regs : RegId → RegVal) (r : RegId) : RegVal := RegFile.read RegId.IsHard 0 regs r

def writeReg (regs : RegId → RegVal) (r : RegId) (x : RegVal) : RegId → RegVal :=
  RegFile.write RegId.IsHard regs r x

@[simp] theorem readReg_invalid (regs : RegId → RegVal) : readReg regs RegId.invalid = 0 := rfl

@[simp] theorem writeReg_invalid (regs : RegId → RegVal) (x : RegVal) :
    writeReg regs RegId.invalid x = regs := rfl

theorem readReg_const (x : RegVal) (n : Fin 32) :
    readReg (fun _ => x) (intReg n) = if n = 0 then 0 else x := by
  simp [readReg, RegFile.read, intReg_invalid_class]

section
variable (regs : RegId → RegVal)

theorem readReg_writeReg (d r : RegId) (x : RegVal) : readReg (writeReg regs d x) r =
      if r = d ∧ r.regClass ≠ .invalid then x else readReg regs r :=
  read_write RegId.IsHard 0 regs d r x

theorem readReg_writeReg_int (d n : Fin 32) (x : RegVal) :
    readReg (writeReg regs (intReg d) x) (intReg n) =
      if n = d ∧ n ≠ 0 then x else readReg regs (intReg n) := by
  simp [readReg_writeReg, intReg_inj, intReg_invalid_class]

theorem readReg_writeReg_of_ne {r : RegId} (x : RegVal) (h : r ≠ d) :
    readReg (writeReg regs d x) r = readReg regs r := read_write_of_ne regs x h

theorem readReg_writeReg_self (x : RegVal) (h : d.regClass ≠ .invalid) :
    readReg (writeReg regs d x) d = x := read_write_self regs x h
end

/-! ### Physical registers -/

structure PhysRegId where
  regClass : RegClassType
  index : ℕ
  deriving DecidableEq, Repr

inductive IEOperand
  | lui (imm : ℤ)
  | add (imm : ℤ)
  deriving DecidableEq, Repr

def IEOperand.calculate : IEOperand → RegVal → RegVal
  | .lui imm, _ => BitVec.ofInt 64 imm
  | .add imm, val => val + BitVec.ofInt 64 imm

structure VirtRegId where
  phyReg : PhysRegId
  ieop : Option IEOperand
  deriving DecidableEq, Repr

/-- `VirtRegId(ptr)`: a physical register with nothing folded in. -/
def VirtRegId.of (p : PhysRegId) : VirtRegId := ⟨p, none⟩

@[simp] theorem VirtRegId.of_phyReg (p : PhysRegId) : (VirtRegId.of p).phyReg = p := rfl

/-- `VirtRegId(&invalidPhysRegId)`. -/
def VirtRegId.invalid : VirtRegId := .of ⟨.invalid, 0⟩

def VirtRegId.correct (v : VirtRegId) (val : RegVal) : RegVal :=
  match v.ieop with
  | some op => op.calculate val
  | none => val

abbrev PhysRegFile := PhysRegId → RegVal

namespace PhysRegFile
def getReg (pf : PhysRegFile) (v : VirtRegId) : RegVal :=
  v.correct (if v.phyReg.regClass = .invalid then 0 else pf v.phyReg)

/-- `DynInst::setRegOperand` on a physical register: the invalid one is left alone. -/
def setReg (pf : PhysRegFile) (p : PhysRegId) (x : RegVal) : PhysRegFile :=
  if p.regClass = .invalid then pf else Function.update pf p x

variable {p : PhysRegId}

section
variable (pf : PhysRegFile)

@[simp] theorem getReg_invalid : pf.getReg VirtRegId.invalid = 0 := rfl

theorem getReg_of (h : p.regClass ≠ .invalid) : pf.getReg (.of p) = pf p := by
  simp [getReg, VirtRegId.of, VirtRegId.correct, h]

theorem getReg_setReg_of_ne (x : RegVal) {v : VirtRegId} (h : v.phyReg ≠ p) :
    (pf.setReg p x).getReg v = pf.getReg v := by
  unfold getReg setReg
  by_cases hp : p.regClass = .invalid
  · simp [hp]
  · simp [hp, update_of_ne h]

theorem getReg_setReg_self (x : RegVal) (h : p.regClass ≠ .invalid) :
    (pf.setReg p x).getReg (.of p) = x := by
  simp [getReg, setReg, VirtRegId.of, VirtRegId.correct, h]
end
end PhysRegFile

open PhysRegFile

/-! ### Renaming -/

structure RenameState where
  map : RegId → VirtRegId
  free : RegClassType → List PhysRegId
  /-- The invalid register is mapped to the invalid physical register. -/
  map_invalid : ∀ r, r.regClass = .invalid → map r = VirtRegId.invalid
  /-- A move from `x0` may leave a register mapped to the invalid physical register. -/
  map_class : ∀ r, (map r).phyReg.regClass = r.regClass ∨ (map r).phyReg.regClass = .invalid
  /-- The fusion temporary is never the target of a move. -/
  map_fuseTmp : ∃ p : PhysRegId, p.regClass = .rmisc ∧ map fuseTmpReg = .of p
  free_class : ∀ c, ∀ p ∈ free c, p.regClass = c
  free_unmapped : ∀ c, ∀ p ∈ free c, ∀ r, (map r).phyReg ≠ p
  free_nodup : ∀ c, (free c).Nodup

namespace RenameState
def bind (st : RenameState) (d : RegId) (p : PhysRegId) (ps : List PhysRegId)
    (hd : d.isRenameable) (hp : st.free d.regClass = p :: ps) : RenameState where
  map := Function.update st.map d (.of p)
  free := Function.update st.free d.regClass ps
  map_invalid r hr := by
    have hne : r ≠ d := by rintro rfl; simp [RegId.isRenameable, hr] at hd
    rw [update_of_ne hne, st.map_invalid r hr]
  map_class r := by
    by_cases hr : r = d
    · subst hr
      have := st.free_class r.regClass p (by simp [hp])
      simp [this]
    · rw [update_of_ne hr]; exact st.map_class r
  map_fuseTmp := by
    by_cases hf : fuseTmpReg = d
    · subst hf
      exact ⟨p, st.free_class .rmisc p (by simpa [fuseTmpReg] using hp ▸ mem_cons_self),
        by simp⟩
    · rw [update_of_ne hf]; exact st.map_fuseTmp
  free_class c q hq := by
    by_cases hc : c = d.regClass
    · subst hc
      rw [update_self] at hq
      exact st.free_class _ q (by simp [hp, hq])
    · rw [update_of_ne hc] at hq; exact st.free_class c q hq
  free_unmapped c q hq r := by
    have hnd := st.free_nodup d.regClass
    rw [hp, nodup_cons] at hnd
    have hqfree : q ∈ st.free c := by
      by_cases hc : c = d.regClass
      · subst hc; rw [update_self] at hq; simp [hp, hq]
      · rwa [update_of_ne hc] at hq
    by_cases hr : r = d
    · subst hr
      rw [update_self]
      rintro rfl
      by_cases hc : c = r.regClass
      · subst hc; rw [update_self] at hq; exact hnd.1 hq
      · have h1 := st.free_class c _ hqfree
        have h2 := st.free_class r.regClass p (by simp [hp])
        exact hc (h1.symm.trans h2)
    · rw [update_of_ne hr]; exact st.free_unmapped c q hqfree r
  free_nodup c := by
    by_cases hc : c = d.regClass
    · subst hc
      have hnd := st.free_nodup d.regClass
      rw [hp, nodup_cons] at hnd
      rw [update_self]; exact hnd.2
    · rw [update_of_ne hc]; exact st.free_nodup c

/-- `UnifiedRenameMap::rename` without a bypass register; `none` when the free list is empty. -/
def rename (st : RenameState) (d : RegId) : Option (VirtRegId × RenameState) :=
  if hd : d.isRenameable then
    match hp : st.free d.regClass with
    | [] => none
    | p :: ps => some (.of p, st.bind d p ps hd hp)
  else some (st.map d, st)

def renameDests (st : RenameState) : List RegId → Option (List VirtRegId × RenameState)
  | [] => some ([], st)
  | d :: ds =>
    match st.rename d with
    | none => none
    | some (v, st₁) =>
      match renameDests st₁ ds with
      | none => none
      | some (vs, st₂) => some (v :: vs, st₂)

def view (st : RenameState) (pf : PhysRegFile) : RegId → RegVal := fun r => pf.getReg (st.map r)

variable {st st' : RenameState} {d : RegId} {v : VirtRegId} {pf : PhysRegFile}
  {regs : RegId → RegVal}

theorem rename_cases (h : st.rename d = some (v, st')) :
    (d.isRenameable = false ∧ v = st.map d ∧ st' = st) ∨
    (d.isRenameable = true ∧ ∃ p : PhysRegId, p.regClass = d.regClass ∧ v = .of p ∧
      (∀ r, (st.map r).phyReg ≠ p) ∧ st'.map = update st.map d (.of p)) := by
  unfold rename at h
  split at h
  · rename_i hd
    split at h
    · cases h
    · rename_i p ps hp
      cases h
      have hmem : p ∈ st.free d.regClass := by simp [hp]
      exact .inr ⟨hd, p, st.free_class _ p hmem, rfl, st.free_unmapped _ p hmem, rfl⟩
  · rename_i hd
    cases h
    exact .inl ⟨by simpa using hd, rfl, rfl⟩

theorem rename_free (h : st.rename d = some (v, st')) :
    (d.isRenameable = true → v.phyReg ∈ st.free d.regClass) ∧ ∀ c, st'.free c ⊆ st.free c := by
  unfold rename at h
  split at h
  · split at h
    · cases h
    · rename_i p ps hp
      cases h
      refine ⟨fun _ => by simp [hp], fun c q hq => ?_⟩
      change q ∈ update st.free d.regClass ps c at hq
      by_cases hc : c = d.regClass
      · subst hc
        rw [update_self] at hq
        simp [hp, hq]
      · rwa [update_of_ne hc] at hq
  · rename_i hd
    cases h
    exact ⟨fun hd' => absurd hd' hd, fun c => Subset.refl _⟩

theorem readReg_view (st : RenameState) (pf : PhysRegFile) (r : RegId) :
    readReg (st.view pf) r = st.view pf r := by
  unfold readReg RegFile.read
  split
  · rename_i hr; simp [view, st.map_invalid r hr]
  · rfl

/-- The physical registers stand for the integer registers `regs`. -/
def Represents (st : RenameState) (pf : PhysRegFile) (regs : RegId → RegVal) : Prop :=
  ∀ n : Fin 32, pf.getReg (st.map (intReg n)) = readReg regs (intReg n)

theorem represents_view (st : RenameState) (pf : PhysRegFile) : st.Represents pf (st.view pf) :=
  fun n => (readReg_view st pf (intReg n)).symm

theorem Represents.setReg_fuseTmp (h : st.Represents pf regs) (x : RegVal) :
    st.Represents (pf.setReg (st.map fuseTmpReg).phyReg x) regs := by
  intro n
  obtain ⟨p, hp, hmap⟩ := st.map_fuseTmp
  rw [← h n, hmap]
  refine getReg_setReg_of_ne pf x ?_
  rintro rfl
  rcases st.map_class (intReg n) with hc | hc
  · exact intReg_class_ne_rmisc n (hc.symm.trans hp)
  · simp [hc] at hp

theorem getReg_setReg_fuseTmp (st : RenameState) (pf : PhysRegFile) (x : RegVal) :
    (pf.setReg (st.map fuseTmpReg).phyReg x).getReg (st.map fuseTmpReg) = x := by
  obtain ⟨p, hp, hmap⟩ := st.map_fuseTmp
  rw [hmap]
  exact getReg_setReg_self pf x (by simp [hp])

theorem map_fuseTmp_of (st : RenameState) :
    VirtRegId.of (st.map fuseTmpReg).phyReg = st.map fuseTmpReg := by
  obtain ⟨p, -, hmap⟩ := st.map_fuseTmp
  rw [hmap, VirtRegId.of_phyReg]

theorem rename_zero (h : st.rename (intReg 0) = some (v, st')) :
    v = VirtRegId.invalid ∧ st' = st := by
  rcases rename_cases h with ⟨-, rfl, rfl⟩ | ⟨hd, -⟩
  · exact ⟨st'.map_invalid _ rfl, rfl⟩
  · exact absurd hd (by decide)

theorem Represents.setReg_rename {d : Fin 32} (h : st.Represents pf regs)
    (hv : st.rename (intReg d) = some (v, st')) (x : RegVal) :
    st'.Represents (pf.setReg v.phyReg x) (writeReg regs (intReg d) x) := by
  intro n
  rcases rename_cases hv with ⟨hd, rfl, rfl⟩ | ⟨hd, p, hp, rfl, hfresh, hmap⟩
  · have hd0 : d = 0 := by by_contra hd0; simp [(intReg_isRenameable d).2 hd0] at hd
    subst hd0
    rw [intReg_zero, writeReg_invalid, st'.map_invalid _ rfl]
    exact h n
  · have hd0 : d ≠ 0 := (intReg_isRenameable d).1 hd
    have hcls : (intReg d).regClass ≠ .invalid := by simpa [intReg_invalid_class] using hd0
    rw [hmap]
    by_cases hn : intReg n = intReg d
    · rw [hn, update_self, readReg_writeReg_self _ _ hcls]
      exact getReg_setReg_self pf x (hp ▸ hcls)
    · rw [update_of_ne hn, readReg_writeReg_of_ne _ _ hn, ← h n]
      exact getReg_setReg_of_ne pf x (hfresh _)

theorem getReg_setReg_rename {n : Fin 32} (h : st.rename (intReg n) = some (v, st'))
    (pf : PhysRegFile) (x : RegVal) (r : RegId) :
    (pf.setReg v.phyReg x).getReg (st.map r) = pf.getReg (st.map r) := by
  rcases rename_cases h with ⟨hd, rfl, rfl⟩ | ⟨-, p, -, rfl, hfresh, -⟩
  · have hn : n = 0 := by by_contra hn; simp [(intReg_isRenameable n).2 hn] at hd
    subst hn
    rw [intReg_zero, st'.map_invalid _ rfl]
    rfl
  · exact getReg_setReg_of_ne pf x (hfresh r)

theorem Represents.setReg_fresh {d : Fin 32} (h : st.Represents pf regs)
    (hv : st.rename (intReg d) = some (v, st')) (x : RegVal) :
    st.Represents (pf.setReg v.phyReg x) regs :=
  fun n => (getReg_setReg_rename hv pf x (intReg n)).trans (h n)

theorem map_rename (h : st.rename d = some (v, st')) : st'.map d = v := by
  rcases rename_cases h with ⟨-, rfl, rfl⟩ | ⟨-, p, -, rfl, -, hmap⟩
  · rfl
  · rw [hmap, update_self]

/-! ### The identity renaming -/

/-- Every register in a physical register of its own index, with `n` free ones per class behind
them. -/
def identity (n : ℕ) : RenameState where
  map r := if r.regClass = .invalid then VirtRegId.invalid else .of ⟨r.regClass, 2 * r.regIdx⟩
  free c := (List.range n).map fun i => ⟨c, 2 * i + 1⟩
  map_invalid r hr := by simp [hr]
  map_class r := by
    by_cases hr : r.regClass = .invalid <;> simp [hr, VirtRegId.invalid, VirtRegId.of]
  map_fuseTmp := ⟨⟨.rmisc, 4⟩, rfl, rfl⟩
  free_class c p hp := by
    obtain ⟨i, -, rfl⟩ := mem_map.1 hp
    rfl
  free_unmapped c p hp r := by
    obtain ⟨i, -, rfl⟩ := mem_map.1 hp
    by_cases hr : r.regClass = .invalid
    · simp only [hr, if_true, VirtRegId.invalid, VirtRegId.of, ne_eq, PhysRegId.mk.injEq]
      omega
    · simp only [hr, if_false, VirtRegId.of, ne_eq, PhysRegId.mk.injEq]
      omega
  free_nodup c := by
    refine List.Nodup.map ?_ nodup_range
    intro i j h
    simp only [PhysRegId.mk.injEq, true_and] at h
    omega

/-- The physical register file that the identity renaming sees as `regs`; the free registers hold
what is left in them. -/
def identityFile (stale : PhysRegFile) (regs : RegId → RegVal) : PhysRegFile :=
  fun p => if p.index % 2 = 0 then regs ⟨p.regClass, p.index / 2⟩ else stale p

theorem identityFile_of_free (stale : PhysRegFile) (regs : RegId → RegVal) {n : ℕ}
    {c : RegClassType} {p : PhysRegId} (hp : p ∈ (identity n).free c) :
    identityFile stale regs p = stale p := by
  obtain ⟨i, -, rfl⟩ := mem_map.1 hp
  simp [identityFile]

theorem represents_identityFile (n : ℕ) (stale : PhysRegFile) (regs : RegId → RegVal) :
    (identity n).Represents (identityFile stale regs) regs := by
  intro m
  by_cases hm : m = 0
  · subst hm
    rfl
  · have hcls : (intReg m).regClass ≠ .invalid := by simpa [intReg_invalid_class] using hm
    simp [identity, hcls, PhysRegFile.getReg, VirtRegId.of, VirtRegId.correct, identityFile,
      readReg, RegFile.read]

end RenameState
end Gem5
