import Gem5.Rename.RefCount

/-!
# Committed registers and their release

Rename keeps the history of an instruction until commit has reported it, and then gives the replaced
registers back, `releaseWidth` sequence numbers at a time.  The two counters that pace this,
`releaseSeq` and `finalCommitSeq`, are shared by all threads.

With one thread the history above the committed instructions is a stack of open transactions
(`UndoLog.Staged`), whose bottom is the commit rename map.  With two, one call reports the commit of
a younger instruction of one thread and removes an older one of the other.
-/

namespace Gem5
open List Function RenameStage RenameConfig
open UndoLog (Staged rollback)

structure Renamed where
  seqNum : ℕ
  dests : List (RegId × VirtRegId)

def Renamed.commit (t : Renamed) (m : RegId → VirtRegId) : RegId → VirtRegId :=
  t.dests.foldl RenameStage.bindEntry m

/-- What commit reports about a thread: the last sequence number that it has committed, or zero, and
whether it squashes. -/
structure CommitInfo where
  doneSeqNum : ℕ
  squash : Bool

/-- The rename stage with the commit rename maps, the instructions in flight (newest first), the
sequence numbers renamed and committed so far, and the two counters. -/
structure ReleaseState (n : ℕ) where
  stage : RenameStage n
  commitMap : Fin n → RegId → VirtRegId
  rob : Fin n → List Renamed
  renamed : Fin n → List ℕ
  committed : Fin n → List ℕ
  releaseSeq : ℕ
  finalCommitSeq : ℕ

namespace ReleaseState
variable {n : ℕ}

/-- `historyBuffer->empty() ? 0 : historyBuffer[tid].back().instSeqNum`: the test is about the first
thread. -/
def oldestSeq (st : RenameStage n) (tid : Fin n) : Except String ℕ :=
  if (st.historyBuffer ⟨0, tid.pos⟩).isEmpty then .ok 0
  else
    match (st.historyBuffer tid).getLast? with
    | some h => .ok h.instSeqNum
    | none => .error "back() of an empty list"

/-- The loop of `releasePhysRegs` over the active threads. -/
def releaseThreads (info : Fin n → CommitInfo) :
    List (Fin n) → ReleaseState n → Except String (ReleaseState n)
  | [], s => .ok s
  | tid :: active, s =>
    let st := s.stage.removeFromHistory s.releaseSeq tid
    if (info tid).doneSeqNum ≠ 0 && !(info tid).squash then
      match oldestSeq st tid with
      | .error e => .error e
      | .ok seq => releaseThreads info active
          { s with stage := st, finalCommitSeq := (info tid).doneSeqNum, releaseSeq := seq }
    else releaseThreads info active { s with stage := st }

def nextReleaseSeq (releaseWidth : ℕ) (s : ReleaseState n) : ℕ :=
  if s.releaseSeq + releaseWidth < s.finalCommitSeq then s.releaseSeq + releaseWidth
  else s.finalCommitSeq

def releasePhysRegs (releaseWidth : ℕ) (active : List (Fin n)) (info : Fin n → CommitInfo)
    (s : ReleaseState n) : Except String (ReleaseState n) :=
  releaseThreads info active { s with releaseSeq := s.nextReleaseSeq releaseWidth }

def start (st : RenameStage n) : ReleaseState n :=
  ⟨st, st.lookup, fun _ => [], fun _ => [], fun _ => [], 0, 0⟩

def Reports (s : ReleaseState n) (info : Fin n → CommitInfo) : Prop :=
  ∀ tid, (info tid).doneSeqNum = 0 ∨ (info tid).doneSeqNum ∈ s.committed tid

end ReleaseState

open ReleaseState

/-- A step of rename or commit.  The sequence numbers of a thread increase, and no two threads use
the same; only instructions that have not committed are squashed. -/
inductive ReleaseStep {n : ℕ} (c : RenameConfig) (releaseWidth : ℕ) :
    ReleaseState n → ReleaseState n → Prop
  | rename {s : ReleaseState n} {tid : Fin n} {inst : RenameInst} {news : List VirtRegId}
      {eliminated : Bool} {st : RenameStage n} (hv : inst.Valid c) (hpos : 0 < inst.seqNum)
      (hnext : ∀ k ∈ s.renamed tid, k < inst.seqNum) (hnew : ∀ t, inst.seqNum ∉ s.renamed t)
      (h : s.stage.renameDestRegs c tid inst = .ok (news, eliminated, st)) :
      ReleaseStep c releaseWidth s
        { s with
          stage := st
          rob := update s.rob tid
            (⟨inst.seqNum, (inst.destRegs.map Prod.fst).zip news⟩ :: s.rob tid)
          renamed := update s.renamed tid (inst.seqNum :: s.renamed tid) }
  | commit {s : ReleaseState n} {tid : Fin n} {t : Renamed} {rob : List Renamed}
      (h : s.rob tid = rob ++ [t]) :
      ReleaseStep c releaseWidth s
        { s with
          commitMap := update s.commitMap tid (t.commit (s.commitMap tid))
          rob := update s.rob tid rob
          committed := update s.committed tid (t.seqNum :: s.committed tid) }
  | squash {s : ReleaseState n} {tid : Fin n} {seqNum : ℕ}
      (h : ∀ k ∈ s.committed tid, k ≤ seqNum) :
      ReleaseStep c releaseWidth s
        { s with
          stage := s.stage.doSquash seqNum tid
          rob := update s.rob tid ((s.rob tid).dropWhile (seqNum < ·.seqNum)) }
  | release {s s' : ReleaseState n} {active : List (Fin n)} {info : Fin n → CommitInfo}
      (hactive : active.Nodup) (hinfo : s.Reports info)
      (h : s.releasePhysRegs releaseWidth active info = .ok s') : ReleaseStep c releaseWidth s s'

def ReleaseState.CommitSafe {n : ℕ} (c : RenameConfig) (s : ReleaseState n) : Prop :=
  ∀ tid, ∀ r ∈ c.archRegs, ∀ k, (s.commitMap tid r).phyReg ∉ s.stage.freeRegs k

/-- The entries of instructions that have not committed are still in the histories of `s'`. -/
def ReleaseState.KeepsUncommitted {n : ℕ} (s s' : ReleaseState n) : Prop :=
  ∀ tid, ∀ h ∈ s.stage.historyBuffer tid, h.instSeqNum ∉ s.committed tid →
    h ∈ s'.stage.historyBuffer tid

/-- Committed state is never freed with `n` threads, whatever the configuration and the run. -/
def NeverFreed (n : ℕ) : Prop :=
  ∀ (c : RenameConfig) (releaseWidth : ℕ) (st : RenameStage n) (s : ReleaseState n),
    1 ≤ releaseWidth → c.initial n = .ok st →
    Relation.ReflTransGen (ReleaseStep c releaseWidth) (.start st) s →
      s.CommitSafe c ∧
      ∀ (active : List (Fin n)) (info : Fin n → CommitInfo) (s' : ReleaseState n),
        active.Nodup → s.Reports info → s.releasePhysRegs releaseWidth active info = .ok s' →
          s.KeepsUncommitted s'

/-! ### The invariant -/

namespace ReleaseState
variable {n : ℕ}

def lastCommitted (s : ReleaseState n) (tid : Fin n) : ℕ := (s.committed tid).foldr max 0

theorem le_lastCommitted (s : ReleaseState n) {tid : Fin n} {k : ℕ} (hk : k ∈ s.committed tid) :
    k ≤ s.lastCommitted tid := by
  unfold lastCommitted
  generalize s.committed tid = l at hk
  induction l with
  | nil => cases hk
  | cons a l ih =>
    rcases mem_cons.1 hk with rfl | hk
    · exact le_max_left _ _
    · exact (ih hk).trans (le_max_right _ _)

theorem lastCommitted_cases (s : ReleaseState n) (tid : Fin n) :
    s.lastCommitted tid = 0 ∨ s.lastCommitted tid ∈ s.committed tid := by
  unfold lastCommitted
  induction s.committed tid with
  | nil => exact .inl rfl
  | cons a l ih =>
    rw [foldr_cons]
    rcases max_choice a (l.foldr max 0) with h | h <;> rw [h]
    · exact .inr mem_cons_self
    · exact ih.imp_right (mem_cons_of_mem a)

def MapsTo (cm : RegId → VirtRegId) (m : RegId → VirtRegId) (rob : List Renamed) : Prop :=
  m = rob.foldr Renamed.commit cm

structure ThreadInv (s : ReleaseState n) (tid : Fin n) : Prop where
  staged : Staged RenameHistory.instSeqNum Renamed.seqNum (MapsTo (s.commitMap tid))
    (fun _ _ _ _ => True) (s.lastCommitted tid) (s.stage.lookup tid) (s.stage.historyBuffer tid)
    (s.rob tid)
  owned : ∀ h ∈ s.stage.historyBuffer tid,
    h.instSeqNum ∈ s.committed tid ∨ ∃ t ∈ s.rob tid, h.instSeqNum = t.seqNum
  rob_renamed : ∀ t ∈ s.rob tid, t.seqNum ∈ s.renamed tid
  committed_renamed : ∀ k ∈ s.committed tid, k ∈ s.renamed tid

structure ReleaseInv (c : RenameConfig) (s : ReleaseState n) : Prop where
  refs : s.stage.RefInv c none
  threads : ∀ tid, s.ThreadInv tid
  final : ∀ tid, s.finalCommitSeq ≤ s.lastCommitted tid

section
variable {c : RenameConfig} {s : ReleaseState n} {tid : Fin n}

section
variable (h : s.ThreadInv tid)
include h

theorem ThreadInv.lastCommitted_lt {k : ℕ} (hpos : 0 < k)
    (hnext : ∀ j ∈ s.renamed tid, j < k) : s.lastCommitted tid < k := by
  rcases s.lastCommitted_cases tid with hzero | hmem
  · omega
  · exact hnext _ (h.committed_renamed _ hmem)

theorem ThreadInv.rename {inst : RenameInst} {news : List VirtRegId}
    {eliminated : Bool} {st : RenameStage n} (hpos : 0 < inst.seqNum)
    (hnext : ∀ k ∈ s.renamed tid, k < inst.seqNum)
    (hren : s.stage.renameDestRegs c tid inst = .ok (news, eliminated, st)) : ThreadInv { s with
      stage := st
      rob := update s.rob tid
        (⟨inst.seqNum, (inst.destRegs.map Prod.fst).zip news⟩ :: s.rob tid)
      renamed := update s.renamed tid (inst.seqNum :: s.renamed tid) } tid := by
  obtain ⟨batch, hhist, hseq, -, hroll, hlook, -⟩ := renameDests_spec hren
  refine ⟨?_, fun e he => ?_, fun t ht => ?_, fun k hk => ?_⟩
  · simp only [update_self]
    refine ⟨?_, h.lastCommitted_lt hpos hnext, fun u hu => hnext _ (h.rob_renamed u hu), batch, _,
      hhist, hseq, trivial, ?_⟩
    · have hnow : s.stage.lookup tid = (s.rob tid).foldr Renamed.commit (s.commitMap tid) :=
        h.staged.now
      rw [MapsTo, foldr_cons, ← hnow]
      exact hlook
    · rw [hroll]
      exact h.staged
  · simp only [update_self] at he ⊢
    rw [hhist] at he
    rcases mem_append.1 he with he | he
    · exact .inr ⟨_, mem_cons_self, hseq e he⟩
    · exact (h.owned e he).imp_right fun ⟨t, ht, heq⟩ => ⟨t, mem_cons_of_mem _ ht, heq⟩
  · simp only [update_self] at ht ⊢
    rcases mem_cons.1 ht with rfl | ht
    · exact mem_cons_self
    · exact mem_cons_of_mem _ (h.rob_renamed t ht)
  · simp only [update_self]
    exact mem_cons_of_mem _ (h.committed_renamed k hk)

theorem ThreadInv.commit {t : Renamed} {rob : List Renamed} (hrob : s.rob tid = rob ++ [t]) :
    ThreadInv { s with
      commitMap := update s.commitMap tid (t.commit (s.commitMap tid))
      rob := update s.rob tid rob
      committed := update s.committed tid (t.seqNum :: s.committed tid) } tid := by
  have hstaged := h.staged
  rw [hrob] at hstaged
  have hlast : (t.seqNum :: s.committed tid).foldr max 0 = t.seqNum :=
    max_eq_left (hstaged.bound_lt (by simp)).le
  refine ⟨?_, fun e he => ?_, fun u hu => ?_, fun k hk => ?_⟩
  · simp only [lastCommitted, update_self, hlast]
    refine hstaged.commit (fun m us hm => ?_) (fun _ _ _ _ _ => trivial)
    rw [MapsTo, foldr_append] at hm
    exact hm
  · simp only [update_self]
    rcases h.owned e he with hcom | ⟨u, hu, heq⟩
    · exact .inl (mem_cons_of_mem _ hcom)
    · rw [hrob] at hu
      rcases mem_append.1 hu with hu | hu
      · exact .inr ⟨u, hu, heq⟩
      · rw [mem_singleton.1 hu] at heq
        exact .inl (heq ▸ mem_cons_self)
  · simp only [update_self] at hu
    exact h.rob_renamed u (by simp [hrob, hu])
  · simp only [update_self] at hk
    rcases mem_cons.1 hk with rfl | hk
    · exact h.rob_renamed t (by simp [hrob])
    · exact h.committed_renamed k hk

theorem ThreadInv.squash {seqNum : ℕ}
    (hok : HistoryOk c (s.stage.lookup tid) (s.stage.historyBuffer tid))
    (hseq : ∀ k ∈ s.committed tid, k ≤ seqNum) : ThreadInv { s with
      stage := s.stage.doSquash seqNum tid
      rob := update s.rob tid ((s.rob tid).dropWhile (seqNum < ·.seqNum)) } tid := by
  obtain ⟨hlook, hhist, -⟩ := doSquash_spec hok seqNum
  have hlast : s.lastCommitted tid ≤ seqNum := by
    rcases s.lastCommitted_cases tid with hzero | hmem
    · omega
    · exact hseq _ hmem
  have hstaged := h.staged.squash hlast
  refine ⟨?_, fun e he => ?_, fun t ht => ?_, h.committed_renamed⟩
  · simp only [update_self, hlook, hhist]
    exact hstaged
  · simp only [update_self, hhist] at he ⊢
    rcases hstaged.tag_cases he with hle | hopen
    · refine (h.owned e (dropWhile_subset _ he)).imp_right ?_
      rintro ⟨t, ht, heq⟩
      have := h.staged.bound_lt ht
      omega
    · exact .inr hopen
  · simp only [update_self] at ht
    exact h.rob_renamed t (dropWhile_subset _ ht)

theorem ThreadInv.release {seq final rel : ℕ} (hseq : seq ≤ s.lastCommitted tid) :
    ThreadInv { s with
      stage := s.stage.removeFromHistory seq tid
      finalCommitSeq := final
      releaseSeq := rel } tid := by
  obtain ⟨hlook, hhist, -⟩ := s.stage.removeFromHistory_spec seq tid
  refine ⟨?_, fun e he => ?_, h.rob_renamed, h.committed_renamed⟩
  · simp only [hlook, hhist]
    exact h.staged.release hseq
  · simp only [hhist] at he
    refine h.owned e ?_
    rw [← rdropWhile_append_rtakeWhile (p := (·.instSeqNum ≤ seq)) (l := s.stage.historyBuffer tid)]
    exact mem_append_left _ he
end
end

theorem ReleaseInv.commitSafe {c : RenameConfig} {s : ReleaseState n} (h : s.ReleaseInv c) :
    s.CommitSafe c := by
  intro tid r hr k hfree
  obtain ⟨l₁, l₂, hhist, hbase⟩ := (h.threads tid).staged.base
  have hmap : rollback (s.stage.lookup tid) l₁ = s.commitMap tid := hbase
  rw [← hmap] at hfree
  have hphys := (h.refs.free.phys k _ hfree).2.class_ne
  exact h.refs.ref_ne_zero_of_rollback hhist hr hphys (h.refs.free.ref_of_mem hfree)

section
variable {c : RenameConfig} {releaseWidth : ℕ} {s s' : ReleaseState n} [Subsingleton (Fin n)]

theorem releasePhysRegs_single {active : List (Fin n)} {info : Fin n → CommitInfo}
    (hactive : active.Nodup) (h : s.releasePhysRegs releaseWidth active info = .ok s') :
    ∃ seq final rel st, seq ≤ s.finalCommitSeq ∧
      (st = s.stage ∨ ∃ tid, st = s.stage.removeFromHistory seq tid) ∧ (final = s.finalCommitSeq ∨
        ∃ tid, final = (info tid).doneSeqNum ∧ (info tid).doneSeqNum ≠ 0) ∧
      s' = { s with stage := st, finalCommitSeq := final, releaseSeq := rel } := by
  have hseq : s.nextReleaseSeq releaseWidth ≤ s.finalCommitSeq := by
    unfold nextReleaseSeq
    split_ifs <;> omega
  unfold releasePhysRegs at h
  cases active with
  | nil =>
    cases h
    exact ⟨_, _, _, _, hseq, .inl rfl, .inl rfl, rfl⟩
  | cons tid active =>
    have hnil : active = [] := by
      refine eq_nil_iff_forall_not_mem.2 fun t ht => (nodup_cons.1 hactive).1 ?_
      rwa [Subsingleton.elim tid t]
    subst hnil
    unfold releaseThreads at h
    dsimp only at h
    split_ifs at h with hdone
    · split at h
      · cases h
      · cases h
        have hne : (info tid).doneSeqNum ≠ 0 := by
          simpa using (Bool.and_eq_true_iff.1 hdone).1
        exact ⟨_, _, _, _, hseq, .inr ⟨tid, rfl⟩, .inr ⟨tid, rfl, hne⟩, rfl⟩
    · cases h
      exact ⟨_, _, _, _, hseq, .inr ⟨tid, rfl⟩, .inl rfl, rfl⟩

theorem mem_of_rdropWhile {l : List RenameHistory} {h : RenameHistory} {seq : ℕ} (hmem : h ∈ l)
    (hlt : seq < h.instSeqNum) : h ∈ l.rdropWhile (·.instSeqNum ≤ seq) := by
  have hsplit := rdropWhile_append_rtakeWhile (p := (·.instSeqNum ≤ seq)) (l := l)
  rw [← hsplit] at hmem
  rcases mem_append.1 hmem with hmem | hmem
  · exact hmem
  · have := mem_rtakeWhile_imp hmem
    simp only [decide_eq_true_eq] at this
    omega

/-- **One thread removes nothing uncommitted.** -/
theorem ReleaseInv.keepsUncommitted (h : s.ReleaseInv c) {active : List (Fin n)}
    {info : Fin n → CommitInfo} (hactive : active.Nodup)
    (hrel : s.releasePhysRegs releaseWidth active info = .ok s') : s.KeepsUncommitted s' := by
  obtain ⟨seq, final, rel, st, hseq, hst, -, rfl⟩ := releasePhysRegs_single hactive hrel
  intro tid e he hun
  obtain ⟨t, ht, heq⟩ := ((h.threads tid).owned e he).resolve_left hun
  have hlt := (h.threads tid).staged.bound_lt ht
  have hle := h.final tid
  rcases hst with rfl | ⟨tid', rfl⟩
  · exact he
  · rw [Subsingleton.elim tid' tid]
    rw [(s.stage.removeFromHistory_spec seq tid).2.1]
    exact mem_of_rdropWhile he (by omega)

theorem ReleaseInv.step (h : s.ReleaseInv c) (hstep : ReleaseStep c releaseWidth s s') :
    s'.ReleaseInv c := by
  cases hstep with
  | @rename tid inst news eliminated st hv hpos hnext hnew hren =>
    refine ⟨h.refs.renameDestRegs hv hren, fun t => ?_, h.final⟩
    rw [Subsingleton.elim t tid]
    exact (h.threads tid).rename hpos hnext hren
  | @commit tid u rob hrob =>
    refine ⟨h.refs, fun t => ?_, fun t => ?_⟩
    · rw [Subsingleton.elim t tid]
      exact (h.threads tid).commit hrob
    · rw [Subsingleton.elim t tid]
      simp only [lastCommitted, update_self]
      exact (h.final tid).trans (le_max_right _ _)
  | @squash tid seqNum hseq =>
    refine ⟨h.refs.doSquash seqNum tid, fun t => ?_, h.final⟩
    rw [Subsingleton.elim t tid]
    exact (h.threads tid).squash (h.refs.history tid) hseq
  | @release _ active info hactive hinfo hrel =>
    obtain ⟨seq, final, rel, st, hseq, hst, hfinal, rfl⟩ := releasePhysRegs_single hactive hrel
    have hlast (t : Fin n) : final ≤ s.lastCommitted t := by
      rcases hfinal with rfl | ⟨tid, rfl, hne⟩
      · exact h.final t
      · rw [Subsingleton.elim t tid]
        exact s.le_lastCommitted ((hinfo tid).resolve_left hne)
    rcases hst with rfl | ⟨tid, rfl⟩
    · refine ⟨h.refs, fun t => ?_, hlast⟩
      exact ⟨(h.threads t).staged, (h.threads t).owned, (h.threads t).rob_renamed,
        (h.threads t).committed_renamed⟩
    · refine ⟨h.refs.removeFromHistory seq tid, fun t => ?_, hlast⟩
      rw [Subsingleton.elim t tid]
      exact (h.threads tid).release (hseq.trans (h.final tid))
end

theorem start_inv {c : RenameConfig} {st : RenameStage n} (h : c.initial n = .ok st) :
    (start st).ReleaseInv c := by
  have hhist := initial_history h
  refine ⟨initial_refInv h, fun tid => ⟨⟨rfl, ?_⟩, ?_, ?_, ?_⟩, fun _ => le_rfl⟩ <;>
    simp [start, hhist]

theorem neverFreed_of_le_one (hn : n ≤ 1) : NeverFreed n := by
  intro c releaseWidth st s _ hst hrun
  have : Subsingleton (Fin n) := Fin.subsingleton_iff_le_one.2 hn
  have hinv : s.ReleaseInv c := by
    induction hrun with
    | refl => exact start_inv hst
    | tail _ hstep ih => exact ih.step hstep
  exact ⟨hinv.commitSafe, fun active info s' hactive _ hrel => hinv.keepsUncommitted hactive hrel⟩

end ReleaseState

/-! ### Two threads -/

namespace RenameConfig
theorem assign_ok {n : ℕ} (es : List (Fin n × RegId)) (st : RenameStage n)
    (h : ∀ k, es.countP (fun e => e.2.regClass = k) ≤ (st.freeRegs k).length) :
    ∃ st', assign es st = .ok st' ∧
      (∀ k, (st'.freeRegs k).length + es.countP (fun e => e.2.regClass = k) =
        (st.freeRegs k).length) ∧ st'.numPinnedWrites = st.numPinnedWrites := by
  induction es generalizing st with
  | nil => exact ⟨st, rfl, fun _ => rfl, rfl⟩
  | cons e es ih =>
    obtain ⟨tid, r⟩ := e
    have hr := h r.regClass
    cases hfree : st.freeRegs r.regClass with
    | nil => simp [hfree] at hr
    | cons p ps =>
      obtain ⟨st₁, hst₁⟩ : ∃ st₁, st₁ =
          ((st.setFree r.regClass ps).incRef p).setEntry tid r (.of p) := ⟨_, rfl⟩
      have hlen (k : RegClassType) : (st₁.freeRegs k).length + (if r.regClass = k then 1 else 0) =
          (st.freeRegs k).length := by
        rw [hst₁, freeRegs_setEntry]
        by_cases hk : r.regClass = k
        · subst hk
          simp [incRef, setFree, hfree]
        · simp [incRef, setFree, hk, Ne.symm hk]
      have hpins : st₁.numPinnedWrites = st.numPinnedWrites := by
        rw [hst₁, setEntry]
        split_ifs <;> rfl
      obtain ⟨st', hassign, hst', hpins'⟩ := ih st₁ fun k => by
        have hk := h k
        have := hlen k
        simp only [countP_cons, decide_eq_true_eq] at hk
        omega
      refine ⟨st', ?_, fun k => ?_, hpins'.trans hpins⟩
      · simp only [assign, getReg, hfree, ← hst₁]
        exact hassign
      · have := hlen k
        have := hst' k
        simp only [countP_cons, decide_eq_true_eq]
        omega

def oneReg (n : ℕ) : RenameConfig where
  numArchRegs k := if k = .int then 1 else 0
  numPhysRegs k := if k = .int then n + 2 else 0
  enableMoveElimination := false
  enableConstantFolding := false
  enableMovImmElimination := false

theorem oneReg_initial (n : ℕ) : ∃ st, (oneReg n).initial n = .ok st ∧
    (st.freeRegs .int).length = 2 ∧ st.numPinnedWrites = fun _ => 0 := by
  have harch : (oneReg n).archRegs = [⟨.int, 0⟩] := rfl
  have hcount (k : RegClassType) : ((oneReg n).entries n).countP (fun e => e.2.regClass = k) =
      if k = .int then n else 0 := by
    rw [entries, harch]
    simp only [map_cons, map_nil, ← map_eq_flatMap, countP_map]
    by_cases hk : k = .int
    · subst hk
      simp [comp_def]
    · simp [comp_def, hk, Ne.symm hk]
  obtain ⟨st, hst, hlen, hpins⟩ := assign_ok ((oneReg n).entries n)
    ((oneReg n).allFree n) fun k => by
      rw [hcount k]
      by_cases hk : k = .int
      · subst hk
        simp [allFree, RegClassType.renamed, oneReg]
      · simp [hk]
  refine ⟨st, hst, ?_, hpins⟩
  have hint := hlen .int
  rw [hcount .int] at hint
  simp only [allFree, RegClassType.renamed, oneReg, mem_cons, true_or, if_true,
    length_map, length_range] at hint
  omega

def writeReg0 (seqNum : ℕ) : RenameInst := ⟨seqNum, false, false, 0, [], [(⟨.int, 0⟩, 0)]⟩

theorem writeReg0_valid (n seqNum : ℕ) : (writeReg0 seqNum).Valid (oneReg n) := by
  refine ⟨by simp [writeReg0], fun d hd _ => ?_, by simp [writeReg0]⟩
  rw [mem_singleton.1 hd]
  exact mem_singleton.2 rfl

theorem rename_writeReg0 {n : ℕ} {c : RenameConfig} {st : RenameStage n} (tid : Fin n) (seqNum : ℕ)
    {p : PhysRegId} {ps : List PhysRegId} (hfree : st.freeRegs .int = p :: ps)
    (hpins : st.numPinnedWrites = fun _ => 0) :
    ∃ news eliminated st' h, st.renameDestRegs c tid (writeReg0 seqNum) =
        .ok (news, eliminated, st') ∧ h.instSeqNum = seqNum ∧
      st'.historyBuffer = update st.historyBuffer tid (h :: st.historyBuffer tid) ∧
      st'.freeRegs .int = ps ∧ st'.numPinnedWrites = fun _ => 0 := by
  have hren := rename_fresh tid ⟨.int, 0⟩ 0 rfl
    (congrFun hpins _) hfree
  obtain ⟨st₁, hst₁⟩ : ∃ st₁, st₁ = (((st.setFree .int ps).incRef p).setEntry tid ⟨.int, 0⟩
    (.of p)).setNumPinnedWrites p 0 := ⟨_, rfl⟩
  have hhist : st₁.historyBuffer = st.historyBuffer := by
    rw [hst₁]
    exact historyBuffer_setEntry ..
  have hfree₁ : st₁.freeRegs .int = ps := by
    rw [hst₁, setNumPinnedWrites, freeRegs_setEntry]
    simp [incRef, setFree]
  have hpins₁ : st₁.numPinnedWrites = fun _ => 0 := by
    rw [hst₁]
    change update st.numPinnedWrites p 0 = _
    rw [hpins]
    exact update_eq_self p _
  rw [← hst₁] at hren
  obtain ⟨h, hh⟩ : ∃ h : RenameHistory,
      h = ⟨seqNum, ⟨.int, 0⟩, .of p, st.map (tid, ⟨.int, 0⟩)⟩ := ⟨_, rfl⟩
  refine ⟨[.of p], false, st₁.setHistory tid (h :: st₁.historyBuffer tid), h, ?_, by rw [hh], ?_,
    hfree₁, hpins₁⟩
  · simp [renameDestRegs, writeReg0, renameDests, bypassReg, hren, Bypass.isEliminated, hh]
  · rw [← hhist]
    rfl

end RenameConfig

theorem ReleaseState.releasePhysRegs_two {n : ℕ} {s : ReleaseState n} {t₀ t₁ : Fin n}
    (hne : t₁ ≠ t₀) (hzero : t₀ = ⟨0, t₀.pos⟩) (hfinal : s.finalCommitSeq = 0)
    {h₀ h₁ : RenameHistory} (hhist₀ : s.stage.historyBuffer t₀ = [h₀])
    (hhist₁ : s.stage.historyBuffer t₁ = [h₁]) (hlt : h₁.instSeqNum < h₀.instSeqNum)
    {done : ℕ} (hdone : done ≠ 0) :
    ∃ s', s.releasePhysRegs 1 [t₀, t₁] (fun t => ⟨if t = t₀ then done else 0, false⟩) = .ok s' ∧
      s'.stage.historyBuffer t₁ = [] := by
  have hnext : s.nextReleaseSeq 1 = 0 := by simp [nextReleaseSeq, hfinal]
  obtain ⟨st, hst⟩ : ∃ st, st = s.stage.removeFromHistory 0 t₀ := ⟨_, rfl⟩
  obtain ⟨-, hself, hother⟩ := s.stage.removeFromHistory_spec 0 t₀
  have hpos : ¬h₀.instSeqNum ≤ 0 := by omega
  have hst₀ : st.historyBuffer t₀ = [h₀] := by
    rw [hst, hself, hhist₀, rdropWhile_singleton, if_neg (by simpa using hpos)]
  have hst₁ : st.historyBuffer t₁ = [h₁] := by
    rw [hst, hother t₁ hne, hhist₁]
  have holdest : oldestSeq st t₀ = .ok h₀.instSeqNum := by
    simp [oldestSeq, ← hzero, hst₀]
  refine ⟨{ s with
    stage := st.removeFromHistory h₀.instSeqNum t₁
    finalCommitSeq := done
    releaseSeq := h₀.instSeqNum }, ?_, ?_⟩
  · simp only [releasePhysRegs, releaseThreads, hnext, ← hst, if_true, hdone, holdest, hne,
      if_false, ne_eq, not_false_eq_true, decide_true, Bool.not_false, Bool.and_self,
      not_true_eq_false, decide_false, Bool.false_and, Bool.false_eq_true]
  · rw [(st.removeFromHistory_spec h₀.instSeqNum t₁).2.1, hst₁, rdropWhile_singleton,
      if_pos (by simpa using hlt.le)]

/-- **Two threads free committed state**: the report of an instruction of the first thread removes
an older instruction of the second, which has not committed. -/
theorem not_neverFreed {n : ℕ} (hn : 2 ≤ n) : ¬NeverFreed n := by
  intro hsafe
  obtain ⟨t₀, t₁, hne, hzero⟩ : ∃ t₀ t₁ : Fin n, t₁ ≠ t₀ ∧ t₀ = ⟨0, t₀.pos⟩ :=
    ⟨⟨0, by omega⟩, ⟨1, by omega⟩, by simp, rfl⟩
  obtain ⟨st₀, hinit, hlen, hpins₀⟩ := oneReg_initial n
  obtain ⟨p, q, hfree₀⟩ := length_eq_two.1 hlen
  have hhist₀ := initial_history hinit
  obtain ⟨news₁, elim₁, st₁, h₁, hren₁, hseq₁, hhist₁, hfree₁, hpins₁⟩ :=
    rename_writeReg0 (c := .oneReg n) t₁ 1 hfree₀ hpins₀
  obtain ⟨news₂, elim₂, st₂, h₂, hren₂, hseq₂, hhist₂, -, -⟩ :=
    rename_writeReg0 (c := .oneReg n) t₀ 2 hfree₁ hpins₁
  have hyoung : st₂.historyBuffer t₀ = [h₂] := by
    simp [hhist₂, hhist₁, hhist₀, hne.symm]
  have hold : st₂.historyBuffer t₁ = [h₁] := by
    simp [hhist₂, hhist₁, hhist₀, hne]
  -- the younger instruction of the first thread commits, the older one of the second does not
  have hstep₁ : ReleaseStep (.oneReg n) 1 (.start st₀) _ :=
    .rename (writeReg0_valid n 1) Nat.one_pos (by simp [start])
      (by simp [start]) hren₁
  have hrun₂ := (Relation.ReflTransGen.single hstep₁).tail
    (.rename (writeReg0_valid n 2) Nat.two_pos (by simp [start, hne.symm])
      (fun t => by by_cases ht : t = t₁ <;> simp [start, ht, RenameConfig.writeReg0])
      hren₂)
  have hrun₃ := hrun₂.tail (.commit (show rob _ t₀ = [] ++ [_] by
    simp [start, hne.symm]; rfl))
  obtain ⟨s, hrun, hstage, hfinal, hcom⟩ : ∃ s,
      Relation.ReflTransGen (ReleaseStep (.oneReg n) 1) (.start st₀) s ∧ s.stage = st₂ ∧
        s.finalCommitSeq = 0 ∧ s.committed = update (fun _ => []) t₀ [2] :=
    ⟨_, hrun₃, rfl, rfl, rfl⟩
  rw [← hstage] at hyoung hold
  obtain ⟨s', hrel, hgone⟩ := releasePhysRegs_two hne hzero hfinal hyoung hold
    (by omega) Nat.two_pos.ne'
  have hkeep := (hsafe (.oneReg n) 1 st₀ s le_rfl hinit hrun).2 [t₀, t₁] _ s'
    (by simp [hne.symm]) (fun t => by by_cases ht : t = t₀ <;> simp [hcom, ht]) hrel t₁ h₁
    (by simp [hold]) (by simp [hcom, hne])
  rw [hgone] at hkeep
  cases hkeep

/-- **Committed state is never freed** exactly if there is no second thread. -/
theorem neverFreed_iff (n : ℕ) : NeverFreed n ↔ n ≤ 1 := by
  constructor
  · intro hsafe
    by_contra hn
    exact not_neverFreed (by omega) hsafe
  · exact neverFreed_of_le_one

/-- Two threads are enough. -/
theorem two_threads_free_committed : ¬NeverFreed 2 := not_neverFreed le_rfl

end Gem5
