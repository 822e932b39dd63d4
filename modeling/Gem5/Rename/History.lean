import Gem5.Rename.Stage

/-!
# What renaming does to a thread

The rename map of a thread, as `lookup` reads it, and its history form an undo log.  For each
operation of the stage: what it does to the two, and that it leaves the other threads alone.
-/

namespace Gem5
open List Function
open UndoLog (Consistent rollback)

namespace RenameStage
variable {n : ℕ}

/-- The history of a thread undoes the entries of its map; what is not renamed stays as it is. -/
structure HistoryOk (c : RenameConfig) (m : RegId → VirtRegId) (hs : List RenameHistory) :
    Prop where
  consistent : Consistent m hs
  arch : ∀ h ∈ hs, h.archReg.isRenameable = true → h.archReg ∈ c.archRegs
  fixed : ∀ h ∈ hs, h.archReg.isRenameable = false → h.newPhysReg = h.prevPhysReg

section
variable {c : RenameConfig} {st : RenameStage n} {tid : Fin n} {hs : List RenameHistory}

theorem historyOk_setHistory (h : ∀ t, HistoryOk c (st.lookup t) (st.historyBuffer t))
    (hnew : HistoryOk c (st.lookup tid) hs) (t : Fin n) :
    HistoryOk c ((st.setHistory tid hs).lookup t) ((st.setHistory tid hs).historyBuffer t) := by
  by_cases ht : t = tid
  · subst ht
    rwa [lookup_setHistory, historyBuffer_setHistory_self]
  · rw [lookup_setHistory, historyBuffer_setHistory_of_ne _ _ ht]
    exact h t

variable {d : RegId} {m : RegId → VirtRegId} {h : RenameHistory}

theorem historyOk_setEntry_setHistory {v : VirtRegId}
    (h : ∀ t, HistoryOk c (st.lookup t) (st.historyBuffer t)) (hd : d.isRenameable = true)
    (hnew : HistoryOk c (update (st.lookup tid) d v) hs) (t : Fin n) :
    HistoryOk c (((st.setEntry tid d v).setHistory tid hs).lookup t)
      (((st.setEntry tid d v).setHistory tid hs).historyBuffer t) := by
  by_cases ht : t = tid
  · subst ht
    rwa [lookup_setHistory, historyBuffer_setHistory_self, lookup_setEntry st t hd v]
  · rw [lookup_setHistory, historyBuffer_setHistory_of_ne _ _ ht, historyBuffer_setEntry,
      lookup_setEntry_of_ne st ht d v]
    exact h t

theorem HistoryOk.push_same (h : HistoryOk c m hs) (hd : d.isRenameable = true → d ∈ c.archRegs)
    (seqNum : ℕ) : HistoryOk c m (⟨seqNum, d, m d, m d⟩ :: hs) := by
  refine ⟨⟨rfl, ?_⟩, forall_mem_cons.2 ⟨hd, h.arch⟩, forall_mem_cons.2 ⟨fun _ => rfl, h.fixed⟩⟩
  simpa using h.consistent

theorem HistoryOk.pop (hok : HistoryOk c m (h :: hs)) :
    m h.archReg = h.newPhysReg ∧ HistoryOk c (update m h.archReg h.prevPhysReg) hs :=
  ⟨hok.consistent.1, hok.consistent.2, (forall_mem_cons.1 hok.arch).2,
    (forall_mem_cons.1 hok.fixed).2⟩

theorem HistoryOk.dropLast (hok : HistoryOk c m (hs ++ [h])) : HistoryOk c m hs :=
  ⟨(UndoLog.consistent_append.1 hok.consistent).1, (forall_mem_append.1 hok.arch).1,
    (forall_mem_append.1 hok.fixed).1⟩

theorem HistoryOk.mem_archRegs (hok : HistoryOk c m (h :: hs))
    (hdiff : h.newPhysReg ≠ h.prevPhysReg) : h.archReg ∈ c.archRegs := by
  refine hok.arch h mem_cons_self ?_
  by_contra hfix
  exact hdiff (hok.fixed h mem_cons_self (by simpa using hfix))
end

/-! ### Renaming -/

def bindEntry (m : RegId → VirtRegId) (b : RegId × VirtRegId) : RegId → VirtRegId :=
  if b.1.isRenameable then Function.update m b.1 b.2 else m

structure RenameSpec (tid : Fin n) (d : RegId) (new prev : VirtRegId) (st st' : RenameStage n) :
    Prop where
  prev_eq : prev = st.lookup tid d
  lookup_eq : st'.lookup tid = bindEntry (st.lookup tid) (d, new)
  fixed : d.isRenameable = false → new = prev
  lookup_other : ∀ t, t ≠ tid → st'.lookup t = st.lookup t
  history : st'.historyBuffer = st.historyBuffer

variable {st st' : RenameStage n} {tid : Fin n} {d : RegId} {new prev : VirtRegId}
  {c : RenameConfig} {inst : RenameInst} {ds : List (RegId × ℕ)} {news : List VirtRegId}
  {eliminated : Bool}

theorem RenamedBy.spec {pins : ℕ} {bypass : Option VirtRegId}
    (h : RenamedBy st tid d pins bypass new prev st') : RenameSpec tid d new prev st st' := by
  cases h with
  | fixed _ hd =>
    exact ⟨rfl, by simp [bindEntry, hd], fun _ => rfl, fun _ _ => rfl, rfl⟩
  | shared _ hd =>
    have hfix : ¬d.isRenameable = false := by simp [hd]
    refine ⟨(lookup_of_renameable st tid hd).symm, ?_, fun h => absurd h hfix, fun t ht => ?_, ?_⟩
    · rw [lookup_setEntry _ tid hd, bindEntry]
      split_ifs <;> rfl
    · rw [lookup_setEntry_of_ne _ ht]
      split_ifs <;> rfl
    · rw [historyBuffer_setEntry]
      split_ifs <;> rfl
  | pinned hd k =>
    have hmap := lookup_of_renameable st tid hd
    refine ⟨hmap.symm, ?_, fun _ => rfl, fun _ _ => rfl, rfl⟩
    rw [bindEntry, if_pos hd]
    simp only [← hmap, update_eq_self]
    rfl
  | fresh hd hfree =>
    have hfix : ¬d.isRenameable = false := by simp [hd]
    refine ⟨(lookup_of_renameable st tid hd).symm, ?_, fun h => absurd h hfix, fun t ht => ?_, ?_⟩
    · rw [bindEntry, if_pos hd]
      exact lookup_setEntry _ tid hd _
    · exact lookup_setEntry_of_ne _ ht d _
    · exact historyBuffer_setEntry ..

theorem RenameSpec.undo (h : RenameSpec tid d new prev st st') :
    update (st'.lookup tid) d prev = st.lookup tid := by
  rw [h.lookup_eq, h.prev_eq, bindEntry]
  split_ifs
  · rw [update_idem, update_eq_self]
  · rw [update_eq_self]

section
variable (h : renameDests c tid inst ds st = .ok (news, eliminated, st'))
include h

/-- **Renaming an instruction** puts an entry for each destination on the history, the last one on
top, and maps the destinations one after the other. -/
theorem renameDests_spec :
    ∃ batch : List RenameHistory, st'.historyBuffer tid = batch ++ st.historyBuffer tid ∧
      (∀ e ∈ batch, e.instSeqNum = inst.seqNum) ∧
      batch.reverse.map (fun e => (e.archReg, e.newPhysReg)) = (ds.map Prod.fst).zip news ∧
      rollback (st'.lookup tid) batch = st.lookup tid ∧
      st'.lookup tid = ((ds.map Prod.fst).zip news).foldl bindEntry (st.lookup tid) ∧
      ∀ t, t ≠ tid → st'.lookup t = st.lookup t ∧ st'.historyBuffer t = st.historyBuffer t := by
  induction ds generalizing st news eliminated with
  | nil =>
    cases h
    exact ⟨[], rfl, by simp, rfl, rfl, rfl, fun _ _ => ⟨rfl, rfl⟩⟩
  | cons d ds ih =>
    obtain ⟨new, prev, st₁, news', eliminated', hby, hrest, rfl, -⟩ := renameDests_cons h
    have hspec := hby.spec
    obtain ⟨batch, hhist, hseq, hnews, hroll, hlook, hother⟩ := ih hrest
    refine ⟨batch ++ [⟨inst.seqNum, d.1, new, prev⟩], ?_, ?_, ?_, ?_, ?_, fun t ht => ?_⟩
    · rw [hhist, historyBuffer_setHistory_self, hspec.history, append_assoc]
      rfl
    · intro e he
      rcases mem_append.1 he with he | he
      · exact hseq e he
      · rw [mem_singleton.1 he]
    · rw [reverse_append, map_append, hnews]
      rfl
    · rw [UndoLog.rollback_append, hroll, lookup_setHistory]
      exact hspec.undo
    · rw [hlook, lookup_setHistory, hspec.lookup_eq]
      rfl
    · obtain ⟨hlook', hhist'⟩ := hother t ht
      rw [hlook', hhist', lookup_setHistory, hspec.lookup_other t ht,
        historyBuffer_setHistory_of_ne _ _ ht, hspec.history]
      exact ⟨rfl, rfl⟩

theorem renameDests_news : news.length = ds.length ∧ ∀ w ∈ (ds.map Prod.fst).zip news,
      w.1.regClass = .invalid → w.2 = .invalid := by
  induction ds generalizing st news eliminated with
  | nil =>
    cases h
    exact ⟨rfl, by simp⟩
  | cons d ds ih =>
    obtain ⟨new, prev, st₁, news', eliminated', hby, hrest, rfl, -⟩ := renameDests_cons h
    obtain ⟨hlen, hinv⟩ := ih hrest
    refine ⟨by simp [hlen], forall_mem_cons.2 ⟨fun (hd : d.1.regClass = _) => ?_, hinv⟩⟩
    have hfix : d.1.isRenameable = false := by simp [RegId.isRenameable, hd]
    rw [hby.spec.fixed hfix, hby.spec.prev_eq, lookup, if_pos hd]
end

/-! ### Squash and release -/

section
variable (st : RenameStage n) (p : PhysRegId)

theorem map_tryFreePReg : (st.tryFreePReg p).map = st.map := by
  unfold tryFreePReg
  split_ifs
  · rfl
  · dsimp only
    split_ifs <;> rfl

theorem lookup_tryFreePReg (tid : Fin n) : (st.tryFreePReg p).lookup tid = st.lookup tid := by
  funext r
  simp only [lookup, map_tryFreePReg]

theorem historyBuffer_tryFreePReg : (st.tryFreePReg p).historyBuffer = st.historyBuffer := by
  unfold tryFreePReg
  split_ifs
  · rfl
  · dsimp only
    split_ifs <;> rfl

theorem numPinnedWrites_tryFreePReg : (st.tryFreePReg p).numPinnedWrites = st.numPinnedWrites := by
  unfold tryFreePReg
  split_ifs
  · rfl
  · dsimp only
    split_ifs <;> rfl
end

theorem lookup_undoMapping {h : RenameHistory} {hs : List RenameHistory}
    (hok : HistoryOk c (st.lookup tid) (h :: hs)) : (st.undoMapping tid h).lookup tid =
      update (st.lookup tid) h.archReg h.prevPhysReg := by
  unfold undoMapping
  by_cases hdiff : h.newPhysReg = h.prevPhysReg
  · rw [if_neg (not_not.2 hdiff), ← hdiff, ← hok.pop.1, update_eq_self]
  · have hren := isRenameable_of_mem (hok.mem_archRegs hdiff)
    rw [if_pos hdiff, ← lookup_setEntry st tid hren]
    split_ifs
    · exact lookup_tryFreePReg ..
    · rfl

section
variable (st : RenameStage n) (tid : Fin n) (h : RenameHistory)
include h

theorem undoMapping_other {t : Fin n}
    (ht : t ≠ tid) : (st.undoMapping tid h).lookup t = st.lookup t := by
  unfold undoMapping
  split_ifs
  · rw [lookup_tryFreePReg, lookup_setEntry_of_ne st ht]
  · rw [lookup_setEntry_of_ne st ht]
  · rfl

theorem historyBuffer_undoMapping : (st.undoMapping tid h).historyBuffer = st.historyBuffer := by
  unfold undoMapping
  split_ifs
  · rw [historyBuffer_tryFreePReg, historyBuffer_setEntry]
  · rw [historyBuffer_setEntry]
  · rfl
end

/-- **A squash** rolls the map back over the newest entries, and these leave the history. -/
theorem doSquash_spec (hok : HistoryOk c (st.lookup tid) (st.historyBuffer tid)) (seqNum : ℕ) :
    (st.doSquash seqNum tid).lookup tid = rollback (st.lookup tid)
        ((st.historyBuffer tid).takeWhile (seqNum < ·.instSeqNum)) ∧
      (st.doSquash seqNum tid).historyBuffer tid =
        (st.historyBuffer tid).dropWhile (seqNum < ·.instSeqNum) ∧
      ∀ t, t ≠ tid → (st.doSquash seqNum tid).lookup t = st.lookup t ∧
        (st.doSquash seqNum tid).historyBuffer t = st.historyBuffer t := by
  unfold doSquash
  generalize hhs : st.historyBuffer tid = hs at hok
  induction hs generalizing st with
  | nil => exact ⟨rfl, hhs, fun _ _ => ⟨rfl, rfl⟩⟩
  | cons h hs ih =>
    unfold squashEntries
    by_cases hlt : seqNum < h.instSeqNum
    · have hlook := lookup_undoMapping hok
      have hnext := ih (historyBuffer_setHistory_self (st.undoMapping tid h) tid hs)
        (by rw [lookup_setHistory, hlook]; exact hok.pop.2)
      rw [lookup_setHistory, hlook] at hnext
      obtain ⟨h₁, h₂, h₃⟩ := hnext
      rw [if_pos hlt, takeWhile_cons_of_pos (by simpa using hlt),
        dropWhile_cons_of_pos (by simpa using hlt)]
      refine ⟨h₁, h₂, fun t ht => ?_⟩
      rw [(h₃ t ht).1, (h₃ t ht).2, lookup_setHistory, undoMapping_other st tid h ht,
        historyBuffer_setHistory_of_ne _ _ ht, historyBuffer_undoMapping]
      exact ⟨rfl, rfl⟩
    · rw [if_neg hlt, takeWhile_cons_of_neg (by simpa using hlt),
        dropWhile_cons_of_neg (by simpa using hlt)]
      exact ⟨rfl, hhs, fun _ _ => ⟨rfl, rfl⟩⟩

section
variable (st : RenameStage n)

theorem releasePrev_frame (h : RenameHistory) : (∀ t, (st.releasePrev h).lookup t = st.lookup t) ∧
      (st.releasePrev h).historyBuffer = st.historyBuffer := by
  unfold releasePrev
  split_ifs
  · exact ⟨fun t => lookup_tryFreePReg .., historyBuffer_tryFreePReg ..⟩
  · exact ⟨fun _ => rfl, rfl⟩

section
variable (seqNum : ℕ) (tid : Fin n)

theorem numPinnedWrites_doSquash :
    (st.doSquash seqNum tid).numPinnedWrites = st.numPinnedWrites := by
  unfold doSquash
  generalize st.historyBuffer tid = hs
  induction hs generalizing st with
  | nil => rfl
  | cons h hs ih =>
    unfold squashEntries
    split_ifs
    · rw [ih]
      change (st.undoMapping tid h).numPinnedWrites = st.numPinnedWrites
      unfold undoMapping
      split_ifs
      · rw [numPinnedWrites_tryFreePReg, numPinnedWrites_setEntry]
      · exact numPinnedWrites_setEntry ..
      · rfl
    · rfl

theorem numPinnedWrites_removeFromHistory :
    (st.removeFromHistory seqNum tid).numPinnedWrites = st.numPinnedWrites := by
  unfold removeFromHistory
  generalize (st.historyBuffer tid).reverse = hs
  induction hs generalizing st with
  | nil => rfl
  | cons h hs ih =>
    unfold releaseEntries
    split_ifs
    · rw [ih]
      unfold releasePrev
      split_ifs
      · exact numPinnedWrites_tryFreePReg ..
      · rfl
    · rfl

/-- **A release** drops the oldest entries of a history and maps nothing anew. -/
theorem removeFromHistory_spec : (∀ t, (st.removeFromHistory seqNum tid).lookup t = st.lookup t) ∧
      (st.removeFromHistory seqNum tid).historyBuffer tid =
        (st.historyBuffer tid).rdropWhile (·.instSeqNum ≤ seqNum) ∧
      ∀ t, t ≠ tid → (st.removeFromHistory seqNum tid).historyBuffer t = st.historyBuffer t := by
  unfold removeFromHistory
  rw [List.rdropWhile]
  generalize hhs : (st.historyBuffer tid).reverse = hs
  induction hs generalizing st with
  | nil => exact ⟨fun _ => rfl, reverse_eq_nil_iff.1 hhs, fun _ _ => rfl⟩
  | cons h hs ih =>
    unfold releaseEntries
    by_cases hle : h.instSeqNum ≤ seqNum
    · obtain ⟨hlook, hhist⟩ := st.releasePrev_frame h
      obtain ⟨h₁, h₂, h₃⟩ := ih ((st.releasePrev h).setHistory tid hs.reverse)
        (by rw [historyBuffer_setHistory_self, reverse_reverse])
      rw [if_pos hle, dropWhile_cons_of_pos (by simpa using hle)]
      refine ⟨fun t => ?_, h₂, fun t ht => ?_⟩
      · rw [h₁ t, lookup_setHistory, hlook t]
      · rw [h₃ t ht, historyBuffer_setHistory_of_ne _ _ ht, hhist]
    · rw [if_neg hle, dropWhile_cons_of_neg (by simpa using hle)]
      exact ⟨fun _ => rfl, by rw [← hhs, reverse_reverse], fun _ _ => rfl⟩
end
end
end RenameStage
end Gem5
