import Gem5.Lib.Count
import Gem5.Lib.UndoLog
import Gem5.Arch.Reg

/-!
# The rename stage

The rename maps of all threads, the free lists that they share, the reference counters of the
physical registers and the history buffers: `SimpleRenameMap`, `UnifiedRenameMap`, `SimpleFreeList`,
and the part of `Rename` that works on them.

The counters are natural numbers, statistics and the scoreboard are left out, and `flattenRegId` is
the identity.
-/

namespace Gem5
open List Function RegClassType

/-- The parameters of the stage: the sizes of the maps and of the register files, and the
eliminations that are switched on. -/
structure RenameConfig where
  numArchRegs : RegClassType → ℕ
  numPhysRegs : RegClassType → ℕ
  enableMoveElimination : Bool
  enableConstantFolding : Bool
  enableMovImmElimination : Bool

def RegClassType.renamed : List RegClassType :=
  [.int, .float, .vec, .vecElem, .vecPred, .cc, .rmisc]

namespace RenameConfig

/-- The registers that have an entry in a rename map, in the order in which they get their first
physical register. -/
def archRegs (c : RenameConfig) : List RegId :=
  RegClassType.renamed.flatMap fun k => (List.range (c.numArchRegs k)).map (⟨k, ·⟩)

def entries (c : RenameConfig) (n : ℕ) : List (Fin n × RegId) :=
  (List.finRange n).flatMap fun tid => c.archRegs.map (tid, ·)

def IsPhys (c : RenameConfig) (p : PhysRegId) : Prop :=
  p.regClass ∈ RegClassType.renamed ∧ p.index < c.numPhysRegs p.regClass

variable {c : RenameConfig}

theorem mem_archRegs {r : RegId} :
    r ∈ c.archRegs ↔ r.regClass ∈ renamed ∧ r.regIdx < c.numArchRegs r.regClass := by
  simp only [archRegs, mem_flatMap, mem_map, mem_range]
  constructor
  · rintro ⟨k, hk, i, hi, rfl⟩
    exact ⟨hk, hi⟩
  · rintro ⟨hk, hi⟩
    exact ⟨r.regClass, hk, r.regIdx, hi, rfl⟩

theorem mem_entries {n : ℕ} {e : Fin n × RegId} : e ∈ c.entries n ↔ e.2 ∈ c.archRegs := by
  simp only [entries, mem_flatMap, mem_finRange, mem_map, true_and]
  constructor
  · rintro ⟨tid, r, hr, rfl⟩
    exact hr
  · intro hr
    exact ⟨e.1, e.2, hr, rfl⟩

theorem nodup_archRegs (c : RenameConfig) : c.archRegs.Nodup := by
  refine nodup_flatMap.2 ⟨fun k _ => ?_, ?_⟩
  · exact nodup_range.map fun i j h => (RegId.mk.injEq .. ▸ h).2
  · have hne : renamed.Pairwise (· ≠ ·) := by decide
    refine hne.imp fun {k k'} hk r hr hr' => hk ?_
    obtain ⟨i, -, rfl⟩ := mem_map.1 hr
    obtain ⟨j, -, hj⟩ := mem_map.1 hr'
    exact (congrArg RegId.regClass hj).symm

theorem nodup_entries (c : RenameConfig) (n : ℕ) : (c.entries n).Nodup := by
  refine nodup_flatMap.2 ⟨fun tid _ => ?_, ?_⟩
  · exact c.nodup_archRegs.map fun r r' h => congrArg Prod.snd h
  · refine (nodup_finRange n).imp fun {t t'} ht e he he' => ht ?_
    obtain ⟨r, -, rfl⟩ := mem_map.1 he
    obtain ⟨r', -, h⟩ := mem_map.1 he'
    exact (congrArg Prod.fst h).symm

end RenameConfig

variable {r : RegId} {c : RenameConfig}

theorem isRenameable_iff : r.isRenameable = true ↔ r.regClass ∈ renamed := by
  obtain ⟨k, i⟩ := r
  cases k <;> simp [RegId.isRenameable, renamed]

theorem isRenameable_of_mem (h : r ∈ c.archRegs) : r.isRenameable = true :=
  isRenameable_iff.2 (RenameConfig.mem_archRegs.1 h).1

structure RenameHistory where
  instSeqNum : ℕ
  archReg : RegId
  newPhysReg : VirtRegId
  prevPhysReg : VirtRegId
  deriving DecidableEq, Repr

instance : UndoLog.Entry RenameHistory RegId VirtRegId where
  key := RenameHistory.archReg
  new := RenameHistory.newPhysReg
  old := RenameHistory.prevPhysReg

namespace RenameHistory
@[simp] theorem key_eq (h : RenameHistory) : UndoLog.Entry.key h = h.archReg := rfl

@[simp] theorem new_eq (h : RenameHistory) : UndoLog.Entry.new h = h.newPhysReg := rfl

end RenameHistory

@[simp] theorem old_eq (h : RenameHistory) : UndoLog.Entry.old h = h.prevPhysReg := rfl

/-- The stage with `n` threads; the newest entry of a history is its first. -/
structure RenameStage (n : ℕ) where
  map : Fin n × RegId → VirtRegId
  freeRegs : RegClassType → List PhysRegId
  numRef : PhysRegId → ℕ
  numPinnedWrites : PhysRegId → ℕ
  historyBuffer : Fin n → List RenameHistory

/-- What rename reads of an instruction; a destination comes with its number of pinned writes. -/
structure RenameInst where
  seqNum : ℕ
  isMov : Bool
  isAddImm : Bool
  imm : ℤ
  srcRegs : List RegId
  destRegs : List (RegId × ℕ)

def RenameInst.srcRegIdx (i : RenameInst) (k : ℕ) : RegId := i.srcRegs.getD k RegId.invalid

/-- Rename shares the register of the first source instead of taking a new one. -/
def RenameInst.bypassed (c : RenameConfig) (i : RenameInst) : Bool :=
  (c.enableMoveElimination && i.isMov) ||
    (i.isAddImm && (c.enableConstantFolding ||
      (c.enableMovImmElimination && (i.srcRegIdx 0).regClass = .invalid)))

/-- The registers of the instruction exist, and what is moved or added to is no misc register. -/
structure RenameInst.Valid (c : RenameConfig) (i : RenameInst) : Prop where
  srcs : ∀ r ∈ i.srcRegs, r.isRenameable = true → r ∈ c.archRegs
  dests : ∀ d ∈ i.destRegs, d.1.isRenameable = true → d.1 ∈ c.archRegs
  bypass : i.isMov = true ∨ i.isAddImm = true → (i.srcRegIdx 0).regClass ≠ .misc

theorem RenameInst.Valid.src {i : RenameInst} (h : i.Valid c)
    (hb : i.isMov = true ∨ i.isAddImm = true) :
    (i.srcRegIdx 0).regClass = .invalid ∨ i.srcRegIdx 0 ∈ c.archRegs := by
  by_cases hinv : (i.srcRegIdx 0).regClass = .invalid
  · exact .inl hinv
  · right
    have hmem : i.srcRegIdx 0 ∈ i.srcRegs := by
      unfold RenameInst.srcRegIdx at hinv ⊢
      cases hsrcs : i.srcRegs with
      | nil => simp [hsrcs, RegId.invalid] at hinv
      | cons r rs => simp
    exact h.srcs _ hmem (by simp [RegId.isRenameable, h.bypass hb, hinv])

/-- The conversion to `int`. -/
def toInt32 (x : ℤ) : ℤ := (BitVec.ofInt 32 x).toInt

/-- `IEOperand(ADD, imm)`: the immediate is an `int`. -/
def IEOperand.ofAdd (imm : ℤ) : IEOperand := .add (toInt32 imm)

structure Bypass where
  reg : Option VirtRegId
  emptyMov : Bool
  constantFolded : Bool

/-- Constant folding into a mapping; with `LUI` there it is used as it is. -/
def VirtRegId.fold (v : VirtRegId) (imm : ℤ) : Bypass :=
  match v.ieop with
  | some (.lui _) => ⟨some v, false, false⟩
  | some (.add old) => ⟨some ⟨v.phyReg, some (.ofAdd (old + imm))⟩, false, true⟩
  | none => ⟨some ⟨v.phyReg, some (.ofAdd imm)⟩, false, true⟩

theorem VirtRegId.fold_phyReg {v w : VirtRegId} {imm : ℤ} (h : (v.fold imm).reg = some w) :
    w.phyReg = v.phyReg := by
  unfold VirtRegId.fold at h
  split at h <;> cases h <;> rfl

def Bypass.isEliminated (b : Bypass) : Bool := b.emptyMov || b.constantFolded

namespace RenameStage
variable {n : ℕ}

/-! ### Maps, counters and free lists -/

def lookup (st : RenameStage n) (tid : Fin n) (r : RegId) : VirtRegId :=
  if r.regClass = .invalid then .invalid
  else if r.regClass = .misc then .of ⟨.misc, r.regIdx⟩
  else st.map (tid, r)

/-- `UnifiedRenameMap::setEntry`: the entries of other registers are not changed. -/
def setEntry (st : RenameStage n) (tid : Fin n) (r : RegId) (v : VirtRegId) : RenameStage n :=
  if r.isRenameable then { st with map := update st.map (tid, r) v } else st

def setHistory (st : RenameStage n) (tid : Fin n) (hs : List RenameHistory) : RenameStage n :=
  { st with historyBuffer := update st.historyBuffer tid hs }

def setFree (st : RenameStage n) (k : RegClassType) (ps : List PhysRegId) : RenameStage n :=
  { st with freeRegs := update st.freeRegs k ps }

def incRef (st : RenameStage n) (p : PhysRegId) : RenameStage n :=
  { st with numRef := update st.numRef p (st.numRef p + 1) }

def decRef (st : RenameStage n) (p : PhysRegId) : RenameStage n :=
  { st with numRef := update st.numRef p (st.numRef p - 1) }

def addReg (st : RenameStage n) (p : PhysRegId) : RenameStage n :=
  st.setFree p.regClass (st.freeRegs p.regClass ++ [p])

def setNumPinnedWrites (st : RenameStage n) (p : PhysRegId) (k : ℕ) : RenameStage n :=
  { st with numPinnedWrites := update st.numPinnedWrites p k }

def getReg (st : RenameStage n) (k : RegClassType) : Except String (PhysRegId × RenameStage n) :=
  match st.freeRegs k with
  | [] => .error "assert(!freeRegs.empty())"
  | p :: ps => .ok (p, (st.setFree k ps).incRef p)

def tryFreePReg (st : RenameStage n) (p : PhysRegId) : RenameStage n :=
  if st.numRef p = 0 ∨ p.regClass = .invalid then st
  else
    let st₁ := st.decRef p
    if st₁.numRef p = 0 then st₁.addReg p else st₁

/-! ### Renaming -/

/-- `UnifiedRenameMap::rename`: the new mapping and the previous one; `pins` is the number of pinned
writes of the destination. -/
def rename (st : RenameStage n) (tid : Fin n) (d : RegId) (pins : ℕ) (bypass : Option VirtRegId) :
    Except String (VirtRegId × VirtRegId × RenameStage n) :=
  if !d.isRenameable then .ok (st.lookup tid d, st.lookup tid d, st)
  else
    let prev := st.map (tid, d)
    match bypass with
    | some v =>
      let st₁ := st.setEntry tid d v
      .ok (v, prev, if prev.phyReg ≠ v.phyReg then st₁.incRef v.phyReg else st₁)
    | none =>
      if 0 < st.numPinnedWrites prev.phyReg then
        if pins ≠ 0 then .error "assert(arch_reg.getNumPinnedWrites() == 0)"
        else .ok (prev, prev,
          st.setNumPinnedWrites prev.phyReg (st.numPinnedWrites prev.phyReg - 1))
      else
        match st.getReg d.regClass with
        | .error e => .error e
        | .ok (p, st₁) =>
          .ok (.of p, prev, (st₁.setEntry tid d (.of p)).setNumPinnedWrites p pins)

def bypassReg (c : RenameConfig) (st : RenameStage n) (tid : Fin n) (inst : RenameInst) : Bypass :=
  if c.enableMoveElimination && inst.isMov then
    ⟨some (st.lookup tid (inst.srcRegIdx 0)), true, false⟩
  else if inst.isAddImm && (c.enableConstantFolding ||
      (c.enableMovImmElimination && (inst.srcRegIdx 0).regClass = .invalid)) then
    (st.lookup tid (inst.srcRegIdx 0)).fold inst.imm
  else ⟨none, false, false⟩

/-- The loop of `renameDestRegs`: the new mappings, and whether the instruction was eliminated. -/
def renameDests (c : RenameConfig) (tid : Fin n) (inst : RenameInst) :
    List (RegId × ℕ) → RenameStage n → Except String (List VirtRegId × Bool × RenameStage n)
  | [], st => .ok ([], false, st)
  | (d, pins) :: ds, st =>
    let b := st.bypassReg c tid inst
    match st.rename tid d pins b.reg with
    | .error e => .error e
    | .ok (new, prev, st₁) =>
      let st₂ := st₁.setHistory tid (⟨inst.seqNum, d, new, prev⟩ :: st₁.historyBuffer tid)
      match renameDests c tid inst ds st₂ with
      | .error e => .error e
      | .ok (news, eliminated, st₃) => .ok (new :: news, b.isEliminated || eliminated, st₃)

def renameDestRegs (c : RenameConfig) (st : RenameStage n) (tid : Fin n) (inst : RenameInst) :
    Except String (List VirtRegId × Bool × RenameStage n) :=
  renameDests c tid inst inst.destRegs st

def renameSrcRegs (st : RenameStage n) (tid : Fin n) (inst : RenameInst) : List VirtRegId :=
  inst.srcRegs.map (st.lookup tid)

/-! ### Squash and release -/

/-- What `doSquash` does about an entry before it erases it. -/
def undoMapping (st : RenameStage n) (tid : Fin n) (h : RenameHistory) : RenameStage n :=
  if h.newPhysReg ≠ h.prevPhysReg then
    let st₁ := st.setEntry tid h.archReg h.prevPhysReg
    if h.newPhysReg.phyReg ≠ h.prevPhysReg.phyReg then st₁.tryFreePReg h.newPhysReg.phyReg else st₁
  else st

/-- The loop of `doSquash`, over the history from its newest entry on. -/
def squashEntries (seqNum : ℕ) (tid : Fin n) : List RenameHistory → RenameStage n → RenameStage n
  | [], st => st
  | h :: hs, st =>
    if seqNum < h.instSeqNum then
      squashEntries seqNum tid hs ((st.undoMapping tid h).setHistory tid hs)
    else st

def doSquash (st : RenameStage n) (seqNum : ℕ) (tid : Fin n) : RenameStage n :=
  squashEntries seqNum tid (st.historyBuffer tid) st

/-- What `removeFromHistory` does about an entry before it erases it. -/
def releasePrev (st : RenameStage n) (h : RenameHistory) : RenameStage n :=
  if h.newPhysReg.phyReg ≠ h.prevPhysReg.phyReg then st.tryFreePReg h.prevPhysReg.phyReg else st

/-- The loop of `removeFromHistory`, over the history from its oldest entry on. -/
def releaseEntries (seqNum : ℕ) (tid : Fin n) : List RenameHistory → RenameStage n → RenameStage n
  | [], st => st
  | h :: hs, st =>
    if h.instSeqNum ≤ seqNum then
      releaseEntries seqNum tid hs ((st.releasePrev h).setHistory tid hs.reverse)
    else st

def removeFromHistory (st : RenameStage n) (seqNum : ℕ) (tid : Fin n) : RenameStage n :=
  releaseEntries seqNum tid (st.historyBuffer tid).reverse st

/-! ### What the operations do -/

variable {r d : RegId} {tid : Fin n} {st st' : RenameStage n} {pins : ℕ} {c : RenameConfig}
  {inst : RenameInst}

section
variable (st : RenameStage n) (tid : Fin n) (hr : r.isRenameable = true)
include hr

theorem lookup_of_renameable : st.lookup tid r = st.map (tid, r) := by
  have h : r.regClass ≠ .misc ∧ r.regClass ≠ .invalid := by
    simpa [RegId.isRenameable] using hr
  simp [lookup, h]

theorem setEntry_of_renameable (v : VirtRegId) :
    st.setEntry tid r v = { st with map := update st.map (tid, r) v } := by
  simp [setEntry, hr]
end

section
variable (st : RenameStage n) (tid : Fin n) (r : RegId) (v : VirtRegId)

@[simp] theorem historyBuffer_setEntry :
    (st.setEntry tid r v).historyBuffer = st.historyBuffer := by
  unfold setEntry
  split_ifs <;> rfl

@[simp] theorem numRef_setEntry : (st.setEntry tid r v).numRef = st.numRef := by
  unfold setEntry
  split_ifs <;> rfl

@[simp] theorem freeRegs_setEntry : (st.setEntry tid r v).freeRegs = st.freeRegs := by
  unfold setEntry
  split_ifs <;> rfl

@[simp] theorem numPinnedWrites_setEntry :
    (st.setEntry tid r v).numPinnedWrites = st.numPinnedWrites := by
  unfold setEntry
  split_ifs <;> rfl

@[simp] theorem lookup_setHistory (t : Fin n) (hs : List RenameHistory) :
    (st.setHistory tid hs).lookup t = st.lookup t := rfl

@[simp] theorem historyBuffer_setHistory_self (hs : List RenameHistory) :
    (st.setHistory tid hs).historyBuffer tid = hs := update_self ..

theorem historyBuffer_setHistory_of_ne {t : Fin n} (ht : t ≠ tid) (hs : List RenameHistory) :
    (st.setHistory tid hs).historyBuffer t = st.historyBuffer t := update_of_ne ht ..

theorem tryFreePReg_setHistory (p : PhysRegId) (hs : List RenameHistory) :
    (st.setHistory tid hs).tryFreePReg p = (st.tryFreePReg p).setHistory tid hs := by
  unfold tryFreePReg
  split_ifs with h₁ h₂ h₂
  · rfl
  · exact absurd h₁ h₂
  · exact absurd h₂ h₁
  · dsimp only
    split_ifs <;> first | rfl | contradiction
end

theorem lookup_setEntry (st : RenameStage n) (tid : Fin n) (hr : r.isRenameable = true)
    (v : VirtRegId) : (st.setEntry tid r v).lookup tid = update (st.lookup tid) r v := by
  funext s
  rw [setEntry_of_renameable st tid hr]
  by_cases hs : s = r
  · subst hs
    rw [lookup_of_renameable _ _ hr, update_self]
    exact update_self ..
  · simp [lookup, hs]

theorem lookup_setEntry_of_ne (st : RenameStage n) {tid' : Fin n} (h : tid' ≠ tid) (r : RegId)
    (v : VirtRegId) : (st.setEntry tid r v).lookup tid' = st.lookup tid' := by
  funext s
  unfold setEntry
  split_ifs
  · simp [lookup, h]
  · rfl

inductive RenamedBy (st : RenameStage n) (tid : Fin n) (d : RegId) (pins : ℕ) :
    Option VirtRegId → VirtRegId → VirtRegId → RenameStage n → Prop
  | fixed (bypass : Option VirtRegId) (hd : d.isRenameable = false) :
      RenamedBy st tid d pins bypass (st.lookup tid d) (st.lookup tid d) st
  | shared (v : VirtRegId) (hd : d.isRenameable = true) :
      RenamedBy st tid d pins (some v) v (st.map (tid, d))
        ((if (st.map (tid, d)).phyReg ≠ v.phyReg then st.incRef v.phyReg else st).setEntry tid d v)
  | pinned (hd : d.isRenameable = true) (k : ℕ)
      (hpin : 0 < st.numPinnedWrites (st.map (tid, d)).phyReg) :
      RenamedBy st tid d pins none (st.map (tid, d)) (st.map (tid, d))
        (st.setNumPinnedWrites (st.map (tid, d)).phyReg k)
  | fresh (hd : d.isRenameable = true) {p : PhysRegId} {ps : List PhysRegId}
      (hfree : st.freeRegs d.regClass = p :: ps) :
      RenamedBy st tid d pins none (.of p) (st.map (tid, d))
        ((((st.setFree d.regClass ps).incRef p).setEntry tid d (.of p)).setNumPinnedWrites p pins)

theorem rename_renamedBy {bypass : Option VirtRegId} {new prev : VirtRegId}
    (h : st.rename tid d pins bypass = .ok (new, prev, st')) :
    RenamedBy st tid d pins bypass new prev st' := by
  by_cases hd : d.isRenameable = true
  · simp only [rename, hd, Bool.not_true, Bool.false_eq_true, if_false] at h
    cases bypass with
    | some v =>
      have heq : (if (st.map (tid, d)).phyReg ≠ v.phyReg
          then (st.setEntry tid d v).incRef v.phyReg else st.setEntry tid d v) =
          (if (st.map (tid, d)).phyReg ≠ v.phyReg then st.incRef v.phyReg else st).setEntry
            tid d v := by
        simp only [setEntry_of_renameable _ tid hd]
        split_ifs <;> rfl
      dsimp only at h
      rw [heq] at h
      cases h
      exact .shared _ hd
    | none =>
      by_cases hpin : 0 < st.numPinnedWrites (st.map (tid, d)).phyReg
      · split_ifs at h
        cases h
        exact .pinned hd _ hpin
      · simp only [hpin, getReg] at h
        cases hfree : st.freeRegs d.regClass with
        | nil => simp [hfree] at h
        | cons p ps =>
          simp only [hfree] at h
          cases h
          exact .fresh hd hfree
  · simp only [rename, hd] at h
    cases h
    exact .fixed bypass (by simpa using hd)

theorem rename_fresh (tid : Fin n) (d : RegId) (pins : ℕ) {p : PhysRegId} {ps : List PhysRegId}
    (hd : d.isRenameable = true) (hpin : st.numPinnedWrites (st.map (tid, d)).phyReg = 0)
    (hfree : st.freeRegs d.regClass = p :: ps) :
    st.rename tid d pins none = .ok (.of p, st.map (tid, d),
      (((st.setFree d.regClass ps).incRef p).setEntry tid d (.of p)).setNumPinnedWrites p
        pins) := by
  simp [rename, hd, hpin, getReg, hfree]

theorem bypassReg_phyReg {v : VirtRegId} (h : (st.bypassReg c tid inst).reg = some v) :
    v.phyReg = (st.lookup tid (inst.srcRegIdx 0)).phyReg ∧
      (inst.isMov = true ∨ inst.isAddImm = true) := by
  unfold bypassReg at h
  split_ifs at h with hmov hadd
  · cases h
    exact ⟨rfl, .inl (Bool.and_eq_true_iff.1 hmov).2⟩
  · exact ⟨VirtRegId.fold_phyReg h, .inr (Bool.and_eq_true_iff.1 hadd).1⟩

theorem renameDests_cons {ds : List (RegId × ℕ)} {news : List VirtRegId} {eliminated : Bool}
    (h : renameDests c tid inst ((d, pins) :: ds) st = .ok (news, eliminated, st')) :
    ∃ new prev st₁ news' eliminated',
      RenamedBy st tid d pins (st.bypassReg c tid inst).reg new prev st₁ ∧ renameDests c tid inst ds
        (st₁.setHistory tid (⟨inst.seqNum, d, new, prev⟩ :: st₁.historyBuffer tid)) =
          .ok (news', eliminated', st') ∧ news = new :: news' ∧
      eliminated = ((st.bypassReg c tid inst).isEliminated || eliminated') := by
  unfold renameDests at h
  dsimp only at h
  split at h
  · cases h
  · rename_i new prev st₁ hren
    split at h
    · cases h
    · rename_i news' eliminated' st₃ hds
      cases h
      exact ⟨new, prev, st₁, news', eliminated', rename_renamedBy hren, hds, rfl, rfl⟩

end RenameStage

/-! ### The initial mapping -/

namespace RenameConfig
variable {n : ℕ}

def allFree (c : RenameConfig) (n : ℕ) : RenameStage n where
  map := fun _ => .invalid
  freeRegs k :=
    if k ∈ RegClassType.renamed then (List.range (c.numPhysRegs k)).map (⟨k, ·⟩) else []
  numRef := fun _ => 0
  numPinnedWrites := fun _ => 0
  historyBuffer := fun _ => []

def assign : List (Fin n × RegId) → RenameStage n → Except String (RenameStage n)
  | [], st => .ok st
  | (tid, r) :: es, st =>
    match st.getReg r.regClass with
    | .error e => .error e
    | .ok (p, st₁) => assign es (st₁.setEntry tid r (.of p))

/-- The state after the constructor of the CPU, with `n` active threads. -/
def initial (c : RenameConfig) (n : ℕ) : Except String (RenameStage n) :=
  assign (c.entries n) (c.allFree n)

end RenameConfig
end Gem5
