import Mathlib.Algebra.BigOperators.Fin
import Mathlib.Data.Rat.Floor

/-!
# The reorder buffer

Each thread has a list of instructions, oldest first, and a list of group sizes.  An instruction
enters at the back and either opens a group or joins the last one; `retireHead` takes the oldest
instruction and shrinks the first group; a squash walks from the back and shrinks the last group, a
few instructions in a cycle.
-/

namespace Gem5
inductive ROBCompressPolicy
  | none
  | kmhv2
  | MohBoE
  | kmhv3
  deriving DecidableEq, Repr

inductive ROBWalkPolicy
  | Rollback
  | Replay
  | ConstCycle
  deriving DecidableEq, Repr

structure RobParams where
  numEntries : ℕ
  instPerGroup : ℕ
  compressPolicy : ROBCompressPolicy
  walkPolicy : ROBWalkPolicy
  squashWidth : ℕ
  constSquashCycle : ℕ
  instPerGroup_pos : 1 ≤ instPerGroup

namespace RobParams
def instsPerGroup (p : RobParams) : ℕ :=
  match p.compressPolicy with
  | .none => 1
  | _ => p.instPerGroup

theorem instsPerGroup_pos (p : RobParams) : 1 ≤ p.instsPerGroup := by
  unfold instsPerGroup
  split
  · exact le_rfl
  · exact p.instPerGroup_pos

def computeDynSquashWidth (p : RobParams) (uncommitted toSquash : ℕ) : ℕ :=
  match p.walkPolicy with
  | .Rollback => p.squashWidth
  | .Replay =>
    let expectedCycles : ℚ := max 2 (uncommitted / p.squashWidth)
    max ⌈toSquash / expectedCycles⌉₊ 1
  | .ConstCycle => max ⌈(toSquash / p.constSquashCycle : ℚ)⌉₊ p.squashWidth

end RobParams

structure RobInst (n : ℕ) where
  seqNum : ℕ
  threadNumber : Fin n
  isMemRef : Bool
  isControl : Bool
  isNonSpeculative : Bool
  ftqId : ℕ
  deriving DecidableEq

/-- `squashIt` names the instruction that the iterator points to, `none` being `end()`;
`squashedInsts` are the instructions that `doSquash` has called `setSquashed` on. -/
structure RobState (n : ℕ) where
  instList : Fin n → List (RobInst n)
  threadGroups : Fin n → List ℕ
  numInstsInROB : ℕ
  lastInsertCycle : ℕ
  squashIt : Fin n → Option ℕ
  squashedSeqNum : Fin n → ℕ
  doneSquashing : Fin n → Bool
  dynSquashWidth : ℕ
  squashedInsts : Fin n → List ℕ

def commitGroup : List ℕ → Except String (List ℕ)
  | [] => .error "assert(!threadGroups[tid].empty())"
  | g :: gs => .ok (if g = 1 then gs else (g - 1) :: gs)

def squashGroup (gs : List ℕ) : Except String (List ℕ) :=
  match gs.getLast? with
  | none => .error "assert(!threadGroups[tid].empty())"
  | some g => .ok (if g = 1 then gs.dropLast else gs.dropLast ++ [g - 1])

def growGroup (instsPerGroup : ℕ) (alloc : Bool) (gs : List ℕ) : Except String (List ℕ) :=
  if alloc then .ok (gs ++ [1])
  else
    match gs.getLast? with
    | none => .error "back() of an empty list"
    | some g =>
      if g < instsPerGroup then .ok (gs.dropLast ++ [g + 1])
      else .error "assert(threadGroups[tid].back() < instsPerGroup)"

namespace RobState
variable {n : ℕ} (p : RobParams)

def start : RobState n where
  instList := fun _ => []
  threadGroups := fun _ => []
  numInstsInROB := 0
  lastInsertCycle := 0
  squashIt := fun _ => none
  squashedSeqNum := fun _ => 0
  doneSquashing := fun _ => true
  dynSquashWidth := 6
  squashedInsts := fun _ => []

section
variable (s : RobState n) (cycle : ℕ) (inst : RobInst n)

def groupFull (tid : Fin n) : Bool :=
  (s.threadGroups tid).getLast?.any (p.instsPerGroup ≤ ·)

def allocateGroupNone : Bool := true

def allocateGroupKmhv2 : Bool :=
  let tid := inst.threadNumber
  let prev := (s.instList tid).getLast?
  if (s.threadGroups tid).isEmpty then true
  else if inst.isMemRef || inst.isControl || inst.isNonSpeculative then true
  else if prev.any fun i => i.isMemRef || i.isControl || i.isNonSpeculative then true
  else if prev.any (·.ftqId ≠ inst.ftqId) then true
  else if s.lastInsertCycle ≠ cycle then true
  else s.groupFull p tid

def allocateGroupMohBoE : Bool :=
  let tid := inst.threadNumber
  let prev := (s.instList tid).getLast?
  if (s.threadGroups tid).isEmpty then true
  else if inst.isMemRef || inst.isNonSpeculative then true
  else if prev.any (·.isControl) then true
  else if s.lastInsertCycle ≠ cycle then true
  else s.groupFull p tid

def allocateGroupKmhv3 : Bool :=
  let tid := inst.threadNumber
  if (s.threadGroups tid).isEmpty then true
  else if s.lastInsertCycle ≠ cycle then true
  else s.groupFull p tid

def allocateNewGroup : Bool :=
  match p.compressPolicy with
  | .none => allocateGroupNone
  | .kmhv2 => s.allocateGroupKmhv2 p cycle inst
  | .MohBoE => s.allocateGroupMohBoE p cycle inst
  | .kmhv3 => s.allocateGroupKmhv3 p cycle inst

/-- The state with `inst` at the back of its thread's list and the groups `gs`. -/
def pushed (gs : List ℕ) : RobState n :=
  { s with
    instList := Function.update s.instList inst.threadNumber
      (s.instList inst.threadNumber ++ [inst])
    threadGroups := Function.update s.threadGroups inst.threadNumber gs
    numInstsInROB := s.numInstsInROB + 1
    lastInsertCycle := cycle }

def insertInst : Except String (RobState n) :=
  if s.numInstsInROB ≤ p.numEntries * p.instsPerGroup then
    match growGroup p.instsPerGroup (s.allocateNewGroup p cycle inst)
        (s.threadGroups inst.threadNumber) with
    | .error e => .error e
    | .ok gs => .ok (s.pushed cycle inst gs)
  else .error "assert(numInstsInROB <= numEntries * instsPerGroup)"
end

variable (tid : Fin n)

/-- The state with the list `l` and the groups `gs` for the thread, and one instruction less. -/
def shrunk (l : List (RobInst n)) (gs : List ℕ) (s : RobState n) : RobState n :=
  { s with
    instList := Function.update s.instList tid l
    threadGroups := Function.update s.threadGroups tid gs
    numInstsInROB := s.numInstsInROB - 1 }

/-- `readyToCommit` and `isSquashed` are what the oldest instruction answers. -/
def retireHead (readyToCommit isSquashed : Bool) (s : RobState n) : Except String (RobState n) :=
  if s.numInstsInROB = 0 then .error "assert(numInstsInROB > 0)"
  else
    match s.instList tid with
    | [] => .error "begin() of an empty list"
    | _ :: rest =>
      if !readyToCommit then .error "assert(head_inst->readyToCommit())"
      else if isSquashed then .error "assert(!head_inst->isSquashed())"
      else
        match commitGroup (s.threadGroups tid) with
        | .error e => .error e
        | .ok gs => .ok (s.shrunk tid rest gs)

/-- Starts a squash of the instructions younger than `squashNum`. -/
def squash (squashNum : ℕ) (s : RobState n) : RobState n :=
  if (s.threadGroups tid).isEmpty then s
  else
    let toSquash := (s.instList tid).countP (squashNum < ·.seqNum)
    { s with
      doneSquashing := Function.update s.doneSquashing tid false
      squashedSeqNum := Function.update s.squashedSeqNum tid squashNum
      dynSquashWidth := p.computeDynSquashWidth ((s.instList tid).length - toSquash) toSquash
      squashIt := match (s.instList tid).getLast? with
        | some x => Function.update s.squashIt tid (some x.seqNum)
        | none => s.squashIt }

def endSquash (s : RobState n) : RobState n :=
  { s with
    squashIt := Function.update s.squashIt tid none
    doneSquashing := Function.update s.doneSquashing tid true }

def beforeIt (seqNum : ℕ) (s : RobState n) : List (RobInst n) :=
  (s.instList tid).takeWhile (·.seqNum ≠ seqNum)

/-- The round of `doSquash` that marks and erases the instruction `*squashIt`. -/
def squashInst (seqNum : ℕ) (s : RobState n) : Except String (RobState n) :=
  match (s.instList tid).dropWhile (·.seqNum ≠ seqNum) with
  | [] => .error "squashIt points to no listed instruction"
  | _ :: after =>
    match squashGroup (s.threadGroups tid) with
    | .error e => .error e
    | .ok gs =>
      let before := s.beforeIt tid seqNum
      let t := { s.shrunk tid (before ++ after) gs with
        squashedInsts := Function.update s.squashedInsts tid (seqNum :: s.squashedInsts tid) }
      match before.getLast? with
      | none => .ok (t.endSquash tid)
      | some prev => .ok { t with squashIt := Function.update s.squashIt tid (some prev.seqNum) }

/-- At most `k` rounds.  A round that reaches the head of the list sets the iterator to `end()`. -/
def squashLoop : ℕ → RobState n → Except String (RobState n)
  | 0, s => .ok s
  | k + 1, s =>
    match s.squashIt tid with
    | none => .ok s
    | some seqNum =>
      if s.squashedSeqNum tid < seqNum then
        match s.squashInst tid seqNum with
        | .error e => .error e
        | .ok t => squashLoop k t
      else .ok s

/-- The check after the loop; `doSquash` has returned before it if the head was reached. -/
def checkDone (s : RobState n) : RobState n :=
  if (s.squashIt tid).any (· ≤ s.squashedSeqNum tid) then s.endSquash tid else s

def numInstsToSquash (isThreadExiting : Bool) (s : RobState n) : ℕ :=
  if isThreadExiting then p.numEntries * p.instsPerGroup else s.dynSquashWidth

def doSquash (isThreadExiting : Bool) (s : RobState n) : Except String (RobState n) :=
  match s.squashIt tid with
  | none => .error "assert(squashIt[tid] != instList[tid].end())"
  | some seqNum =>
    if (s.instList tid).all (·.seqNum ≠ seqNum) then
      .error "squashIt points to no listed instruction"
    else if seqNum < s.squashedSeqNum tid then .ok (s.endSquash tid)
    else if s.dynSquashWidth = 0 then .error "assert(dynSquashWidth)"
    else
      match s.squashLoop tid (s.numInstsToSquash p isThreadExiting) with
      | .error e => .error e
      | .ok t => .ok (t.checkDone tid)

end RobState

inductive RobCall (n : ℕ)
  | insertInst (cycle : ℕ) (inst : RobInst n)
  | retireHead (tid : Fin n) (readyToCommit isSquashed : Bool)
  | squash (squashNum : ℕ) (tid : Fin n)
  | doSquash (tid : Fin n) (isThreadExiting : Bool)

namespace RobState
variable {n : ℕ} (p : RobParams)

def call (s : RobState n) : RobCall n → Except String (RobState n)
  | .insertInst cycle inst => s.insertInst p cycle inst
  | .retireHead tid ready squashed => s.retireHead tid ready squashed
  | .squash squashNum tid => .ok (s.squash p tid squashNum)
  | .doSquash tid exiting => s.doSquash p tid exiting

def run : List (RobCall n) → RobState n → Except String (RobState n)
  | [], s => .ok s
  | c :: calls, s => (s.call p c).bind (run calls)

theorem run_append_singleton (calls : List (RobCall n)) (c : RobCall n) (s : RobState n) :
    run p (calls ++ [c]) s = (run p calls s).bind fun t => t.call p c := by
  induction calls generalizing s with
  | nil =>
    change (s.call p c).bind (run p []) = s.call p c
    cases s.call p c <;> rfl
  | cons d calls ih =>
    rw [List.cons_append, run, run]
    cases s.call p d with
    | error e => rfl
    | ok t => exact ih t

end RobState

/-- What a call other than `insertInst` does to the lists: the oldest instruction of a thread leaves
with a place in the first group, some instruction of a thread is squashed and leaves with a place in
the last group, or the lists stay as they are. -/
inductive RobShrink {n : ℕ} : RobState n → RobState n → Prop
  | retire {s : RobState n} {tid : Fin n} {x : RobInst n} {rest : List (RobInst n)} {gs : List ℕ}
      (hl : s.instList tid = x :: rest) (hgs : commitGroup (s.threadGroups tid) = .ok gs) :
      RobShrink s (s.shrunk tid rest gs)
  | erase {s t : RobState n} {tid : Fin n} {x : RobInst n} {before after : List (RobInst n)}
      {gs : List ℕ} (hl : s.instList tid = before ++ x :: after)
      (hgs : squashGroup (s.threadGroups tid) = .ok gs)
      (ht : t = { s.shrunk tid (before ++ after) gs with
        squashedInsts := Function.update s.squashedInsts tid (x.seqNum :: s.squashedInsts tid)
        squashIt := t.squashIt
        doneSquashing := t.doneSquashing }) : RobShrink s t
  | aside {s t : RobState n}
      (ht : t = { s with
        squashIt := t.squashIt
        squashedSeqNum := t.squashedSeqNum
        doneSquashing := t.doneSquashing
        dynSquashWidth := t.dynSquashWidth }) : RobShrink s t

namespace RobState
open Relation (ReflTransGen)
variable {n : ℕ} {p : RobParams} {s t : RobState n} {tid : Fin n}

theorem insertInst_ok {cycle : ℕ} {inst : RobInst n} (h : s.insertInst p cycle inst = .ok t) :
    s.numInstsInROB ≤ p.numEntries * p.instsPerGroup ∧
      ∃ gs, growGroup p.instsPerGroup (s.allocateNewGroup p cycle inst)
          (s.threadGroups inst.threadNumber) = .ok gs ∧ t = s.pushed cycle inst gs := by
  unfold insertInst at h
  split at h
  · rename_i hnum
    refine ⟨hnum, ?_⟩
    split at h
    · cases h
    · rename_i gs hgs
      cases h
      exact ⟨gs, hgs, rfl⟩
  · cases h

theorem retireHead_ok {ready squashed : Bool} (h : s.retireHead tid ready squashed = .ok t) :
    RobShrink s t := by
  unfold retireHead at h
  split at h
  · cases h
  · split at h
    · cases h
    · rename_i x rest hl
      split_ifs at h
      split at h
      · cases h
      · rename_i gs hgs
        cases h
        exact .retire hl hgs

theorem squash_shrink (squashNum : ℕ) (s : RobState n) :
    RobShrink s (s.squash p tid squashNum) := by
  apply RobShrink.aside
  unfold squash
  split <;> rfl

theorem endSquash_shrink (s : RobState n) : RobShrink s (s.endSquash tid) := .aside rfl

theorem squashInst_ok {seqNum : ℕ} (h : s.squashInst tid seqNum = .ok t) : RobShrink s t := by
  unfold squashInst at h
  split at h
  · cases h
  · rename_i x after hafter
    split at h
    · cases h
    · rename_i gs hgs
      -- the iterator points to the first instruction that the search does not pass over
      have hx : x.seqNum = seqNum := by
        have hhead := List.head?_dropWhile_not (fun y : RobInst n => decide (y.seqNum ≠ seqNum))
          (s.instList tid)
        rw [hafter] at hhead
        simpa using hhead
      have hl : s.instList tid = s.beforeIt tid seqNum ++ x :: after := by
        rw [← hafter]
        exact (List.takeWhile_append_dropWhile ..).symm
      subst hx
      dsimp only at h
      split at h <;> cases h <;> exact .erase hl hgs rfl

theorem squashLoop_ok {k : ℕ} (h : s.squashLoop tid k = .ok t) : ReflTransGen RobShrink s t := by
  induction k generalizing s with
  | zero =>
    cases h
    exact .refl
  | succ k ih =>
    rw [squashLoop] at h
    split at h
    · cases h
      exact .refl
    · split at h
      · split at h
        · cases h
        · rename_i u hu
          exact .head (squashInst_ok hu) (ih h)
      · cases h
        exact .refl

theorem doSquash_ok {exiting : Bool} (h : s.doSquash p tid exiting = .ok t) :
    ReflTransGen RobShrink s t := by
  unfold doSquash at h
  split at h
  · cases h
  · split_ifs at h
    · cases h
      exact .single (endSquash_shrink s)
    · split at h
      · cases h
      · rename_i u hu
        cases h
        refine (squashLoop_ok hu).tail ?_
        unfold checkDone
        split
        · exact endSquash_shrink u
        · exact .aside rfl

theorem call_ok {c : RobCall n} (h : s.call p c = .ok t) :
    (∃ cycle inst, c = .insertInst cycle inst ∧ s.insertInst p cycle inst = .ok t) ∨
      (∀ cycle inst, c ≠ .insertInst cycle inst) ∧ ReflTransGen RobShrink s t := by
  cases c with
  | insertInst cycle inst => exact .inl ⟨cycle, inst, rfl, h⟩
  | retireHead tid ready squashed => exact .inr ⟨by simp, .single (retireHead_ok h)⟩
  | squash squashNum tid =>
    cases h
    exact .inr ⟨by simp, .single (squash_shrink squashNum s)⟩
  | doSquash tid exiting => exact .inr ⟨by simp, doSquash_ok h⟩

end RobState
end Gem5
