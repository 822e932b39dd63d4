import Gem5.Issue.Queue
import Gem5.Lib.Count

/-!
# The squash of a thread in the instruction queue

When the instructions of a thread after a sequence number are squashed, four structures are
filtered: the lists of the queues by the sequence number, the stages and the waiting instructions by
a mark, and the instructions that wait for commit by sequence number and kind; a fifth, the replayed
loads, by thread and sequence number.
-/

namespace Gem5
open List Function Sched
variable {c : SchedConfig}

/-- The instruction queue: the issue queues, the loads that wait for a store, and the instructions
that wait for commit, by their sequence numbers. -/
structure InstructionQueue (c : SchedConfig) where
  scheduler : Sched c
  mdpAddrReplayLdInsts : List (Option ℕ)
  nonSpecInsts : List (ℕ × ℕ)

/-- An instruction of the thread after the sequence number. -/
def IqInst.victim (tid seqNum : ℕ) (i : IqInst c) : Bool :=
  decide (i.thread = tid) && decide (i.seqNum > seqNum)

def IqInst.isAcqRel (i : IqInst c) : Bool :=
  i.isFullMemBarrier && (i.isLoad || (i.isStore && !i.isStoreConditional))

/-- The kinds of instructions that wait for commit. -/
def IqInst.waits (i : IqInst c) : Bool :=
  i.isNonSpeculative || i.isStoreConditional || i.isAtomic || i.isReadBarrier || i.isWriteBarrier

/-- The instructions that leave `nonSpecInsts`, which has them under `key`. -/
def IqInst.leavesNonSpec (seqNum key : ℕ) (i : IqInst c) : Bool :=
  decide (key > seqNum) && (!i.issued || (i.isMemRef && !i.memOpDone)) &&
    !(i.isAcqRel || !i.waits) && (!i.isStoreConditional || !i.isCompleted)

namespace InstructionQueue
def doSquash (tid seqNum : ℕ) (u : InstructionQueue c) : InstructionQueue c :=
  let s := u.scheduler.doSquash seqNum
  { scheduler := s
    mdpAddrReplayLdInsts := u.mdpAddrReplayLdInsts.filter fun e =>
      e.any fun x => !(s.insts x).victim tid seqNum
    nonSpecInsts := u.nonSpecInsts.filter fun e => !(s.insts e.2).leavesNonSpec seqNum e.1 }
end InstructionQueue

/-! ### What the issue queues keep -/

namespace Sched
variable (seqNum : ℕ) (s : Sched c)

/-- The instruction is marked as squashed after the queues `qs` have been gone through. -/
def markedBy (qs : List (Fin c.numQueues)) (x : ℕ) : Bool :=
  (s.insts x).squashed ||
    (decide ((s.insts x).seqNum > seqNum) && qs.any fun q => decide (x ∈ (s.queues q).instList))

/-- An instruction after the queues `qs` have been gone through. -/
def instAfter (qs : List (Fin c.numQueues)) (x : ℕ) : IqInst c :=
  if decide ((s.insts x).seqNum > seqNum) &&
      qs.any (fun q => decide (x ∈ (s.queues q).instList)) then
    squashInst (s.insts x)
  else s.insts x

/-- A queue after its squash, where `marked` are the squashed instructions. -/
def queueAfter (marked : ℕ → Bool) (q : Fin c.numQueues) : IssueQue c :=
  { s.queues q with
    instList := (s.queues q).instList.filter fun x => !decide ((s.insts x).seqNum > seqNum)
    subDepGraph := fun p => ((s.queues q).subDepGraph p).filter fun e => !marked e.2
    inflight := fun k => if k ≤ c.issueStages q then
        ((s.queues q).inflight k).map fun x => x.filter fun x => !marked x
      else (s.queues q).inflight k }

theorem squashQueue_insts (q : Fin c.numQueues) (x : ℕ) :
    (squashQueue seqNum s q).insts x = s.instAfter seqNum [q] x := by
  simp [squashQueue, dropInflight, modQueue, instAfter]

section
variable (qs : List (Fin c.numQueues)) (x : ℕ)

theorem instAfter_squashed : (s.instAfter seqNum qs x).squashed = s.markedBy seqNum qs x := by
  unfold instAfter markedBy
  split_ifs with h
  · rw [h]
    simp [squashInst]
  · rw [Bool.eq_false_iff.2 h, Bool.or_false]

theorem instAfter_seqNum : (s.instAfter seqNum qs x).seqNum = (s.insts x).seqNum := by
  unfold instAfter
  split_ifs <;> rfl

theorem instAfter_thread : (s.instAfter seqNum qs x).thread = (s.insts x).thread := by
  unfold instAfter
  split_ifs <;> rfl
end

theorem squashQueue_self (q : Fin c.numQueues) :
    (squashQueue seqNum s q).queues q = s.queueAfter seqNum (s.markedBy seqNum [q]) q := by
  have hmark (x : ℕ) : (if (decide ((s.insts x).seqNum > seqNum) &&
      decide (x ∈ (s.queues q).instList)) = true then squashInst (s.insts x)
      else s.insts x).squashed = s.markedBy seqNum [q] x := by
    rw [← instAfter_squashed]
    simp [instAfter]
  unfold squashQueue dropInflight modQueue queueAfter
  simp only [update_self, hmark]

variable {q : Fin c.numQueues} {qs : List (Fin c.numQueues)}

theorem squashQueue_other {q' : Fin c.numQueues} (hq : q' ≠ q) :
    (squashQueue seqNum s q).queues q' = s.queues q' := by
  simp [squashQueue, dropInflight, modQueue, hq]

theorem any_squashQueue (hq : q ∉ qs) (x : ℕ) :
    (qs.any fun q' => decide (x ∈ ((squashQueue seqNum s q).queues q').instList)) =
      qs.any fun q' => decide (x ∈ (s.queues q').instList) := by
  rw [Bool.eq_iff_iff]
  simp only [any_eq_true]
  refine exists_congr fun q' => and_congr_right fun hq' => ?_
  rw [squashQueue_other]
  rintro rfl
  exact hq hq'

theorem markedBy_cons (hq : q ∉ qs) (x : ℕ) :
    (squashQueue seqNum s q).markedBy seqNum qs x = s.markedBy seqNum (q :: qs) x := by
  unfold markedBy
  rw [any_squashQueue seqNum s hq, squashQueue_insts, instAfter_squashed, instAfter_seqNum]
  simp [markedBy, Bool.or_assoc, Bool.and_or_distrib_left]

theorem instAfter_cons (hq : q ∉ qs) (x : ℕ) :
    (squashQueue seqNum s q).instAfter seqNum qs x = s.instAfter seqNum (q :: qs) x := by
  unfold instAfter
  rw [any_squashQueue seqNum s hq, squashQueue_insts, instAfter_seqNum]
  by_cases hrest : (qs.any fun q' => decide (x ∈ (s.queues q').instList)) = true
  · by_cases hyoung : (s.insts x).seqNum > seqNum
    · -- an instruction that is squashed twice is squashed
      simp only [instAfter, hrest, hyoung, decide_true, Bool.and_self, any_cons, Bool.or_true]
      split_ifs <;> rfl
    · simp [instAfter, hyoung]
  · simp [instAfter, hrest]

theorem foldl_squashQueue_insts (hqs : qs.Nodup) (x : ℕ) :
    (qs.foldl (squashQueue seqNum) s).insts x = s.instAfter seqNum qs x := by
  induction qs generalizing s with
  | nil => simp [instAfter]
  | cons q qs ih =>
    obtain ⟨hq, hqs⟩ := nodup_cons.1 hqs
    rw [foldl_cons, ih _ hqs, instAfter_cons seqNum s hq]

theorem foldl_squashQueue_other (hq : q ∉ qs) :
    (qs.foldl (squashQueue seqNum) s).queues q = s.queues q := by
  induction qs generalizing s with
  | nil => rfl
  | cons q' qs ih =>
    obtain ⟨hne, hq⟩ := not_or.1 (mt mem_cons.2 hq)
    rw [foldl_cons, ih _ hq, squashQueue_other seqNum s hne]

theorem foldl_squashQueue_queue (hqs : qs.Pairwise (· < ·)) (hq : q ∈ qs) :
    (qs.foldl (squashQueue seqNum) s).queues q =
      s.queueAfter seqNum (s.markedBy seqNum (qs.filter fun q' => decide (q' ≤ q))) q := by
  induction qs generalizing s with
  | nil => cases hq
  | cons a qs ih =>
    obtain ⟨hlt, hqs⟩ := pairwise_cons.1 hqs
    have hnot : a ∉ qs := fun ha => lt_irrefl a (hlt a ha)
    rw [foldl_cons]
    rcases mem_cons.1 hq with rfl | hq
    · have hself : ((q :: qs).filter fun q' => decide (q' ≤ q)) = [q] := by
        rw [filter_cons_of_pos (by simp), filter_eq_nil_iff.2]
        intro q' hq'
        simpa using hlt q' hq'
      rw [foldl_squashQueue_other _ _ hnot, squashQueue_self, hself]
    · have hle : ((a :: qs).filter fun q' => decide (q' ≤ q)) =
          a :: qs.filter fun q' => decide (q' ≤ q) :=
        filter_cons_of_pos (decide_eq_true (hlt q hq).le)
      have hnot' : a ∉ qs.filter fun q' => decide (q' ≤ q) :=
        fun ha => hnot (mem_of_mem_filter ha)
      rw [ih _ hqs hq, hle]
      have hqueue := squashQueue_other seqNum s (hlt q hq).ne'
      simp only [queueAfter, hqueue, squashQueue_insts, instAfter_seqNum, markedBy_cons _ _ hnot']

theorem doSquash_insts (x : ℕ) :
    (s.doSquash seqNum).insts x = s.instAfter seqNum (List.finRange c.numQueues) x :=
  foldl_squashQueue_insts seqNum s (nodup_finRange _) x

def upTo (q : Fin c.numQueues) : List (Fin c.numQueues) :=
  (List.finRange c.numQueues).filter fun q' => decide (q' ≤ q)

theorem doSquash_queue (q : Fin c.numQueues) :
    (s.doSquash seqNum).queues q = s.queueAfter seqNum (s.markedBy seqNum (upTo q)) q :=
  foldl_squashQueue_queue seqNum s (pairwise_lt_finRange _) (mem_finRange q)

theorem doSquash_victim (tid : ℕ) (x : ℕ) :
    ((s.doSquash seqNum).insts x).victim tid seqNum = (s.insts x).victim tid seqNum := by
  unfold IqInst.victim
  rw [doSquash_insts, instAfter_thread, instAfter_seqNum]
end Sched

/-! ### Isolation -/

namespace InstructionQueue

/-- From `u` to `v`, the instructions of the thread after the sequence number are gone from all
structures, and all other instructions are as they were.  (Loads that were dropped before leave
empty places in `mdpAddrReplayLdInsts`; these go, too.) -/
structure Isolated (tid seqNum : ℕ) (u v : InstructionQueue c) : Prop where
  insts (x : ℕ) : (u.scheduler.insts x).victim tid seqNum = false →
    v.scheduler.insts x = u.scheduler.insts x
  instList (q : Fin c.numQueues) : (v.scheduler.queues q).instList =
    (u.scheduler.queues q).instList.filter fun x => !(u.scheduler.insts x).victim tid seqNum
  inflight (q : Fin c.numQueues) (k : ℕ) : k ≤ c.issueStages q →
    (v.scheduler.queues q).inflight k = ((u.scheduler.queues q).inflight k).map fun e =>
      e.filter fun x => !(u.scheduler.insts x).victim tid seqNum
  subDepGraph (q : Fin c.numQueues) (p : Fin c.numRegs) : (v.scheduler.queues q).subDepGraph p =
    ((u.scheduler.queues q).subDepGraph p).filter fun e =>
      !(u.scheduler.insts e.2).victim tid seqNum
  mdpAddrReplayLdInsts : v.mdpAddrReplayLdInsts = u.mdpAddrReplayLdInsts.filter fun e =>
    e.any fun x => !(u.scheduler.insts x).victim tid seqNum
  nonSpecInsts : v.nonSpecInsts = u.nonSpecInsts.filter fun e =>
    !(u.scheduler.insts e.2).victim tid seqNum

/-- How the structures hold their instructions: what is in a stage or waits for a register is in the
list of its queue, nothing there is squashed, and what waits for commit is in no list, not issued,
and under its own sequence number. -/
structure Filed (u : InstructionQueue c) : Prop where
  inflight (q : Fin c.numQueues) (k : ℕ) : k ≤ c.issueStages q →
    ∀ x, some x ∈ (u.scheduler.queues q).inflight k → x ∈ (u.scheduler.queues q).instList
  subDepGraph (q : Fin c.numQueues) (p : Fin c.numRegs) :
    ∀ e ∈ (u.scheduler.queues q).subDepGraph p, e.2 ∈ (u.scheduler.queues q).instList
  unsquashed (q : Fin c.numQueues) : ∀ x ∈ (u.scheduler.queues q).instList,
    (u.scheduler.insts x).squashed = false
  unlisted (q : Fin c.numQueues) : ∀ e ∈ u.nonSpecInsts, e.2 ∉ (u.scheduler.queues q).instList
  waiting : ∀ e ∈ u.nonSpecInsts, (u.scheduler.insts e.2).seqNum = e.1 ∧
    (u.scheduler.insts e.2).issued = false ∧ (u.scheduler.insts e.2).waits = true ∧
    (u.scheduler.insts e.2).isCompleted = false

/-- What isolation needs: every younger instruction in the lists is of the thread, and the younger
ones that wait for commit are of the thread exactly if they do not acquire or release. -/
structure Separated (tid seqNum : ℕ) (u : InstructionQueue c) : Prop where
  instList (q : Fin c.numQueues) : ∀ x ∈ (u.scheduler.queues q).instList,
    (u.scheduler.insts x).seqNum > seqNum → (u.scheduler.insts x).thread = tid
  nonSpecInsts : ∀ e ∈ u.nonSpecInsts, (u.scheduler.insts e.2).seqNum > seqNum →
    ((u.scheduler.insts e.2).thread = tid ↔ (u.scheduler.insts e.2).isAcqRel = false)

namespace Filed
variable {u : InstructionQueue c} (h : u.Filed) {tid seqNum : ℕ}
include h

/-- The instructions that the squash of the lists marks are the younger ones. -/
theorem markedBy_eq {q : Fin c.numQueues} {x : ℕ} (hx : x ∈ (u.scheduler.queues q).instList) :
    u.scheduler.markedBy seqNum (Sched.upTo q) x =
      decide ((u.scheduler.insts x).seqNum > seqNum) := by
  have hany : ((Sched.upTo q).any fun q' => decide (x ∈ (u.scheduler.queues q').instList)) = true :=
    any_eq_true.2 ⟨q, mem_filter.2 ⟨mem_finRange q, by simp⟩, by simpa using hx⟩
  rw [markedBy, h.unsquashed q x hx, hany, Bool.false_or, Bool.and_true]

theorem markedBy_eq_victim (hs : u.Separated tid seqNum) {q : Fin c.numQueues} {x : ℕ}
    (hx : x ∈ (u.scheduler.queues q).instList) :
    u.scheduler.markedBy seqNum (Sched.upTo q) x = (u.scheduler.insts x).victim tid seqNum := by
  rw [h.markedBy_eq hx, IqInst.victim]
  by_cases hyoung : (u.scheduler.insts x).seqNum > seqNum
  · simp [hyoung, hs.instList q x hx hyoung]
  · simp [hyoung]

/-- What leaves `nonSpecInsts` are the younger ones that do not acquire or release. -/
theorem leavesNonSpec_eq {e : ℕ × ℕ} (he : e ∈ u.nonSpecInsts) :
    (u.scheduler.instAfter seqNum (List.finRange c.numQueues) e.2).leavesNonSpec seqNum e.1 =
      (decide ((u.scheduler.insts e.2).seqNum > seqNum) &&
        !(u.scheduler.insts e.2).isAcqRel) := by
  obtain ⟨hkey, hissued, hwaits, hcompleted⟩ := h.waiting e he
  have hnone : ((List.finRange c.numQueues).any fun q =>
      decide (e.2 ∈ (u.scheduler.queues q).instList)) = false :=
    any_eq_false.2 fun q _ => by simpa using h.unlisted q e he
  rw [instAfter, hnone, Bool.and_false, if_neg Bool.false_ne_true, IqInst.leavesNonSpec, ← hkey,
    hissued, hwaits, hcompleted]
  simp

theorem nonSpecInsts_iff :
    (∀ e ∈ u.nonSpecInsts, (u.scheduler.instAfter seqNum (List.finRange c.numQueues)
      e.2).leavesNonSpec seqNum e.1 = (u.scheduler.insts e.2).victim tid seqNum) ↔
      ∀ e ∈ u.nonSpecInsts, (u.scheduler.insts e.2).seqNum > seqNum →
        ((u.scheduler.insts e.2).thread = tid ↔ (u.scheduler.insts e.2).isAcqRel = false) := by
  refine forall₂_congr fun e he => ?_
  rw [h.leavesNonSpec_eq he, IqInst.victim]
  by_cases hyoung : (u.scheduler.insts e.2).seqNum > seqNum
  · cases (u.scheduler.insts e.2).isAcqRel <;> simp [hyoung, eq_comm]
  · simp [hyoung]
end Filed

theorem instList_isolated_iff {tid seqNum : ℕ} {insts : ℕ → IqInst c} {l : List ℕ} :
    (l.filter fun x => !decide ((insts x).seqNum > seqNum)) =
        (l.filter fun x => !(insts x).victim tid seqNum) ↔
      ∀ x ∈ l, (insts x).seqNum > seqNum → (insts x).thread = tid := by
  rw [filter_eq_filter_iff]
  refine forall_congr' fun x => imp_congr_right fun _ => ?_
  by_cases hyoung : (insts x).seqNum > seqNum
  · simp [IqInst.victim, hyoung]
  · simp [IqInst.victim, hyoung]

theorem map_filter_eq_iff {l : List (Option ℕ)} {q r : ℕ → Bool} :
    (l.map fun e => e.filter fun x => !q x) = (l.map fun e => e.filter fun x => !r x) ↔
      ∀ x, some x ∈ l → q x = r x := by
  rw [map_inj_left]
  constructor
  · intro h x hx
    have hx' := h _ hx
    cases hq : q x <;> cases hr : r x <;> simp [Option.filter_some, hq, hr] at hx' ⊢
  · intro h e he
    cases e with
    | none => rfl
    | some x => simp [Option.filter_some, h x he]

theorem filter_not_eq_iff {α : Type} {l : List α} {q r : α → Bool} :
    (l.filter fun e => !q e) = (l.filter fun e => !r e) ↔ ∀ e ∈ l, q e = r e := by
  rw [filter_eq_filter_iff]
  simp

def twoThreads (x : ℕ) : IqInst oneQueue :=
  { plainIqInst x [] [] with thread := if x = 1 then 1 else 0, canIssue := true }

/-- An instruction of thread 1, inserted first, and one of thread 0. -/
theorem twoThreads_inserted : ∃ s : Sched oneQueue, SchedReachable s ∧
    (s.queues theQueue).instList = [1, 2] ∧ (∀ p, (s.queues theQueue).subDepGraph p = []) ∧
    (∀ k, (s.queues theQueue).inflight k = []) ∧ ∀ x ∈ [1, 2], (s.insts x).squashed = false ∧
      (s.insts x).seqNum = x ∧ (s.insts x).thread = if x = 1 then 1 else 0 := by
  have habsent {s : Sched oneQueue} {x : ℕ} (hlist : x ∉ (s.queues theQueue).instList)
      (hgraph : ∀ p, (s.queues theQueue).subDepGraph p = []) : s.Absent x := by
    intro q
    rw [eq_theQueue q]
    exact ⟨hlist, fun p i he => by rw [hgraph p] at he; cases he⟩
  have hstart : SchedReachable (start twoThreads) := .start _
  have hfirst := hstart.step (e := .insert theQueue 1 theQueue 3)
    ⟨habsent not_mem_nil fun _ => rfl, habsent not_mem_nil fun _ => rfl, by decide⟩ rfl
  have hsecond := hfirst.step (e := .insert theQueue 2 theQueue 3)
    ⟨habsent (show 2 ∉ [1] by decide) fun _ => rfl, habsent (show 3 ∉ [1] by decide) fun _ => rfl,
      by decide⟩ rfl
  refine ⟨_, hsecond, rfl, fun _ => rfl, fun _ => rfl, ?_⟩
  rw [forall_mem_cons, forall_mem_singleton]
  exact ⟨⟨rfl, rfl, rfl⟩, rfl, rfl, rfl⟩

end InstructionQueue
end Gem5
