import Gem5.Rename.History

/-!
# Reference counts

The counter of a physical register is the number of its uses: the entries of the rename maps that
are mapped to it, and the entries of the histories that keep it for a squash.  A register without a
use is on its free list once, a register in use is not on it.

`RefInv c excess st` is the invariant with one reference too many on `excess`: a register is first
counted and then mapped, and first unmapped and then given back.  Every operation is a composition
of such half steps.
-/

namespace Gem5
open List Function RenameHistory RenameStage VirtRegId RenameConfig UndoLog

/-- An entry of a history that keeps `p`: its previous register is `p`, its new one is not. -/
def RenameHistory.keeps (p : PhysRegId) (h : RenameHistory) : Bool :=
  h.prevPhysReg.phyReg = p && h.newPhysReg.phyReg ≠ p

variable {p : PhysRegId} {c : RenameConfig} {n : ℕ}

theorem RenameHistory.keeps_iff {h : RenameHistory} :
    h.keeps p = true ↔ h.prevPhysReg.phyReg = p ∧ h.newPhysReg.phyReg ≠ p := by
  simp [keeps]

theorem RenameConfig.IsPhys.class_ne (h : c.IsPhys p) : p.regClass ≠ .invalid := by
  intro hinv
  have hmem := h.1
  rw [hinv] at hmem
  exact absurd hmem (by decide)

/-! ### Free lists -/

structure FreeOk (c : RenameConfig) (free : RegClassType → List PhysRegId) (ref : PhysRegId → ℕ) :
    Prop where
  count : ∀ p, c.IsPhys p → (free p.regClass).count p = if ref p = 0 then 1 else 0
  phys : ∀ k, ∀ p ∈ free k, p.regClass = k ∧ c.IsPhys p
  ref_phys : ∀ p : PhysRegId, p.regClass ≠ .invalid → ref p ≠ 0 → c.IsPhys p

namespace FreeOk
variable {c : RenameConfig} {free : RegClassType → List PhysRegId} {ref : PhysRegId → ℕ}
  {p : PhysRegId}

variable {k : RegClassType}

section
variable (h : FreeOk c free ref)
include h

theorem ref_of_mem (hp : p ∈ free k) : ref p = 0 := by
  obtain ⟨rfl, hphys⟩ := h.phys k p hp
  have hcount := h.count p hphys
  have hpos := count_pos_iff.2 hp
  by_contra hne
  rw [if_neg hne] at hcount
  omega

theorem update_ref {k : ℕ} (hp : p.regClass ≠ .invalid → ref p ≠ 0)
    (hk : k ≠ 0) : FreeOk c free (update ref p k) where
  count q hq := by
    by_cases hqp : q = p
    · subst hqp
      rw [h.count q hq, update_self, if_neg (hp hq.class_ne), if_neg hk]
    · rw [h.count q hq, update_of_ne hqp]
  phys := h.phys
  ref_phys q hq hne := by
    by_cases hqp : q = p
    · subst hqp
      exact h.ref_phys q hq (hp hq)
    · rw [update_of_ne hqp] at hne
      exact h.ref_phys q hq hne

theorem take {ps : List PhysRegId} (hfree : free k = p :: ps) :
    FreeOk c (update free k ps) (update ref p (ref p + 1)) := by
  have hmem : p ∈ free k := by simp [hfree]
  obtain ⟨hclass, hphys⟩ := h.phys k p hmem
  subst hclass
  refine ⟨fun q hq => ?_, fun k' q hq => ?_, fun q hq hne => ?_⟩
  · have hcount := h.count q hq
    by_cases hqp : q = p
    · subst hqp
      rw [hfree, count_cons_self, if_pos (h.ref_of_mem hmem)] at hcount
      rw [update_self, update_self, if_neg (Nat.succ_ne_zero _)]
      omega
    · rw [update_of_ne hqp, ← hcount]
      by_cases hk : q.regClass = p.regClass
      · rw [hk, update_self, hfree, count_cons_of_ne (Ne.symm hqp)]
      · rw [update_of_ne hk]
  · by_cases hk : k' = p.regClass
    · subst hk
      rw [update_self] at hq
      exact h.phys _ q (by simp [hfree, hq])
    · rw [update_of_ne hk] at hq
      exact h.phys k' q hq
  · by_cases hqp : q = p
    · exact hqp ▸ hphys
    · rw [update_of_ne hqp] at hne
      exact h.ref_phys q hq hne

theorem give (hp : p.regClass ≠ .invalid) (href : ref p ≠ 0) :
    FreeOk c (update free p.regClass (free p.regClass ++ [p])) (update ref p 0) := by
  have hphys := h.ref_phys p hp href
  refine ⟨fun q hq => ?_, fun k q hq => ?_, fun q hq hne => ?_⟩
  · have hcount := h.count q hq
    by_cases hqp : q = p
    · subst hqp
      rw [if_neg href] at hcount
      rw [update_self, update_self, count_append, hcount]
      simp
    · rw [update_of_ne hqp, ← hcount]
      by_cases hk : q.regClass = p.regClass
      · rw [hk, update_self, count_append, count_singleton]
        simp [Ne.symm hqp]
      · rw [update_of_ne hk]
  · by_cases hk : k = p.regClass
    · subst hk
      rw [update_self, mem_append, mem_singleton] at hq
      rcases hq with hq | rfl
      · exact h.phys _ q hq
      · exact ⟨rfl, hphys⟩
    · rw [update_of_ne hk] at hq
      exact h.phys k q hq
  · by_cases hqp : q = p
    · exact hqp ▸ hphys
    · rw [update_of_ne hqp] at hne
      exact h.ref_phys q hq hne
end
end FreeOk

namespace RenameStage
variable {n : ℕ}

/-! ### Counting uses -/

/-- The number of entries of the rename maps that are mapped to `p`. -/
def mapCount (c : RenameConfig) (st : RenameStage n) (p : PhysRegId) : ℕ :=
  ((c.entries n).toFinset.filter fun e => (st.map e).phyReg = p).card

/-- The number of entries of the histories that keep `p`. -/
def histCount (st : RenameStage n) (p : PhysRegId) : ℕ :=
  ∑ tid, (st.historyBuffer tid).countP (RenameHistory.keeps p)

section
variable {c : RenameConfig} (st : RenameStage n) (tid : Fin n)

variable {r : RegId}

theorem mapCount_setEntry (hr : r ∈ c.archRegs) (v : VirtRegId) (p : PhysRegId) :
    (st.setEntry tid r v).mapCount c p + (if (st.map (tid, r)).phyReg = p then 1 else 0) =
      st.mapCount c p + if v.phyReg = p then 1 else 0 := by
  have hmem : (tid, r) ∈ (c.entries n).toFinset :=
    mem_toFinset.2 (mem_entries.2 hr)
  rw [setEntry_of_renameable st tid (isRenameable_of_mem hr)]
  exact Finset.card_filter_update_add _ hmem st.map v fun w => w.phyReg = p

theorem histCount_setHistory (hs : List RenameHistory) (p : PhysRegId) :
    (st.setHistory tid hs).histCount p + (st.historyBuffer tid).countP (keeps p) =
      st.histCount p + hs.countP (keeps p) :=
  Finset.sum_update_add Finset.univ (Finset.mem_univ tid) st.historyBuffer hs
    (List.countP (keeps p))

theorem uses_setEntry_setHistory (hr : r ∈ c.archRegs) (v : VirtRegId) (hs : List RenameHistory)
    (p : PhysRegId) : ((st.setEntry tid r v).setHistory tid hs).mapCount c p +
        ((st.setEntry tid r v).setHistory tid hs).histCount p +
        ((if (st.map (tid, r)).phyReg = p then 1 else 0) +
          (st.historyBuffer tid).countP (keeps p)) = st.mapCount c p + st.histCount p +
        ((if v.phyReg = p then 1 else 0) + hs.countP (keeps p)) := by
  have hmap := st.mapCount_setEntry tid hr v p
  have hhist := (st.setEntry tid r v).histCount_setHistory tid hs p
  have hframe : (st.setEntry tid r v).histCount p = st.histCount p := by
    simp only [histCount, historyBuffer_setEntry]
  rw [historyBuffer_setEntry] at hhist
  have hset : ((st.setEntry tid r v).setHistory tid hs).mapCount c p =
      (st.setEntry tid r v).mapCount c p := rfl
  omega

theorem mapCount_pos (hr : r ∈ c.archRegs) : 0 < st.mapCount c (st.map (tid, r)).phyReg := by
  have hmem : (tid, r) ∈ c.entries n := mem_entries.2 hr
  exact Finset.card_pos.2 ⟨(tid, r), by simp [hmem]⟩

theorem histCount_pos {h : RenameHistory} {p : PhysRegId} (hh : h ∈ st.historyBuffer tid)
    (hp : h.keeps p = true) : 0 < st.histCount p :=
  Finset.sum_pos' (fun _ _ => Nat.zero_le _)
    ⟨tid, Finset.mem_univ tid, countP_pos_iff.2 ⟨h, hh, hp⟩⟩
end

/-! ### The invariant -/

/-- The counters are right but for one reference to `excess`. -/
structure RefInv (c : RenameConfig) (excess : Option PhysRegId) (st : RenameStage n) : Prop where
  ref_eq : ∀ p : PhysRegId, p.regClass ≠ .invalid →
    st.numRef p = st.mapCount c p + st.histCount p + if excess = some p then 1 else 0
  free : FreeOk c st.freeRegs st.numRef
  history : ∀ tid, HistoryOk c (st.lookup tid) (st.historyBuffer tid)

namespace RefInv
variable {c : RenameConfig} {excess : Option PhysRegId} {st : RenameStage n} {tid : Fin n}

theorem setNumPinnedWrites (h : RefInv c excess st) (p : PhysRegId) (k : ℕ) :
    RefInv c excess (st.setNumPinnedWrites p k) := ⟨h.ref_eq, h.free, h.history⟩

variable {r d : RegId} {l₁ l₂ hs : List RenameHistory} {p : PhysRegId} {v : VirtRegId}
  {e : RenameHistory} {st' : RenameStage n} {inst : RenameInst}

theorem ref_ne_zero (h : RefInv c excess st) (hr : r ∈ c.archRegs)
    (hp : (st.map (tid, r)).phyReg.regClass ≠ .invalid) :
    st.numRef (st.map (tid, r)).phyReg ≠ 0 := by
  have hpos := st.mapCount_pos tid hr
  rw [h.ref_eq _ hp]
  omega

section
variable (h : RefInv c excess st) (hhist : st.historyBuffer tid = l₁ ++ l₂) (hr : r ∈ c.archRegs)
include h hhist hr

theorem ref_ne_zero_of_held (hp : p.regClass ≠ .invalid)
    (hheld : Held phyReg (st.lookup tid) l₁ r p) : st.numRef p ≠ 0 := by
  rcases hheld with hmap | ⟨e, he, hkeeps⟩
  · rw [lookup_of_renameable st tid (isRenameable_of_mem hr)] at hmap
    subst hmap
    exact h.ref_ne_zero hr hp
  · have hmem : e ∈ st.historyBuffer tid := by simp [hhist, he]
    have hpos := st.histCount_pos tid hmem (keeps_iff.2 hkeeps)
    rw [h.ref_eq p hp]
    omega

theorem ref_ne_zero_of_rollback (hp : (rollback (st.lookup tid) l₁ r).phyReg.regClass ≠ .invalid) :
    st.numRef (rollback (st.lookup tid) l₁ r).phyReg ≠ 0 := by
  have hcons := (h.history tid).consistent
  rw [hhist] at hcons
  have hheld := held_rollback (φ := phyReg) (k := r)
    (consistent_append.1 hcons).1 rfl
  exact h.ref_ne_zero_of_held hhist hr hp hheld
end

theorem ref_eq_incRef (h : RefInv c none st) {q : PhysRegId} (hq : q.regClass ≠ .invalid) :
    (st.incRef p).numRef q =
      st.mapCount c q + st.histCount q + if some p = some q then 1 else 0 := by
  have hq' := h.ref_eq q hq
  by_cases hqp : q = p
  · subst hqp
    simpa [RenameStage.incRef] using hq'
  · simpa [RenameStage.incRef, hqp, Ne.symm hqp] using hq'

theorem incRef (h : RefInv c none st) (hp : p.regClass ≠ .invalid → st.numRef p ≠ 0) :
    RefInv c (some p) (st.incRef p) :=
  ⟨fun _ hq => h.ref_eq_incRef hq, h.free.update_ref hp (Nat.succ_ne_zero _), h.history⟩

theorem take (h : RefInv c none st) {k : RegClassType} {ps : List PhysRegId}
    (hfree : st.freeRegs k = p :: ps) : RefInv c (some p) ((st.setFree k ps).incRef p) :=
  ⟨fun _ hq => h.ref_eq_incRef hq, h.free.take hfree, h.history⟩

theorem tryFreePReg (h : RefInv c (some p) st) : RefInv c none (st.tryFreePReg p) := by
  unfold RenameStage.tryFreePReg
  by_cases hp : p.regClass = .invalid
  · rw [if_pos (.inr hp)]
    refine ⟨fun q hq => ?_, h.free, h.history⟩
    have hne : p ≠ q := by
      rintro rfl
      exact hq hp
    simpa [hne] using h.ref_eq q hq
  · have href : st.numRef p = st.mapCount c p + st.histCount p + 1 := by
      simpa using h.ref_eq p hp
    have hne : st.numRef p ≠ 0 := by omega
    have heq (q : PhysRegId) (hq : q.regClass ≠ .invalid) :
        (st.decRef p).numRef q =
          st.mapCount c q + st.histCount q + if none = some q then 1 else 0 := by
      have hq' := h.ref_eq q hq
      by_cases hqp : q = p
      · subst hqp
        simp [decRef, href]
      · simpa [decRef, hqp, Ne.symm hqp] using hq'
    rw [if_neg (not_or.2 ⟨hne, hp⟩)]
    dsimp only
    split_ifs with hlast
    · refine ⟨heq, ?_, h.history⟩
      have hlast : st.numRef p - 1 = 0 := by simpa [decRef] using hlast
      have hgive := h.free.give hp hne
      rw [← hlast] at hgive
      exact hgive
    · refine ⟨heq, ?_, h.history⟩
      have hlast : st.numRef p - 1 ≠ 0 := by simpa [decRef] using hlast
      exact h.free.update_ref (fun _ => hne) hlast

/-- **An entry is mapped anew** and the history keeps what it was mapped to: if the register
changes, the new one has been counted before. -/
theorem bind (h : RefInv c (if (st.map (tid, d)).phyReg ≠ v.phyReg then some v.phyReg else none) st)
    (hd : d ∈ c.archRegs) (seqNum : ℕ) : RefInv c none ((st.setEntry tid d v).setHistory tid
      (⟨seqNum, d, v, st.map (tid, d)⟩ :: st.historyBuffer tid)) := by
  have hren := isRenameable_of_mem hd
  refine ⟨fun q hq => ?_, ?_, fun t => ?_⟩
  · have href := h.ref_eq q hq
    have huses := st.uses_setEntry_setHistory tid hd v
      (⟨seqNum, d, v, st.map (tid, d)⟩ :: st.historyBuffer tid) q
    simp only [countP_cons, keeps_iff] at huses
    simp only [setHistory, numRef_setEntry] at huses ⊢
    -- the old register loses its entry and is kept by the history
    grind
  · rw [setHistory, freeRegs_setEntry, numRef_setEntry]
    exact h.free
  · have hhist := h.history tid
    have hprev := (lookup_of_renameable st tid hren).symm
    refine historyOk_setEntry_setHistory h.history hren ⟨?_, ?_, ?_⟩ t
    · exact hhist.consistent.push (e := ⟨seqNum, d, v, st.map (tid, d)⟩) hprev
    · exact forall_mem_cons.2 ⟨fun _ => hd, hhist.arch⟩
    · exact forall_mem_cons.2 ⟨fun hfix => absurd hren (by simp [hfix]), hhist.fixed⟩

theorem push_same (h : RefInv c none st) (hd : d.isRenameable = true → d ∈ c.archRegs)
    (seqNum : ℕ) :
    RefInv c none (st.setHistory tid
      (⟨seqNum, d, st.lookup tid d, st.lookup tid d⟩ :: st.historyBuffer tid)) := by
  refine ⟨fun q hq => ?_, h.free,
    historyOk_setHistory h.history ((h.history tid).push_same hd seqNum)⟩
  have huses := st.histCount_setHistory tid
    (⟨seqNum, d, st.lookup tid d, st.lookup tid d⟩ :: st.historyBuffer tid) q
  simp only [countP_cons, keeps_iff, and_not_self, if_false] at huses
  have hmap : (st.setHistory tid
      (⟨seqNum, d, st.lookup tid d, st.lookup tid d⟩ :: st.historyBuffer tid)).mapCount c q =
      st.mapCount c q := rfl
  have href := h.ref_eq q hq
  simp only [setHistory] at *
  omega

/-! ### Undo and release -/

theorem unmap (h : RefInv c none st) (hd : e.archReg ∈ c.archRegs)
    (hhist : st.historyBuffer tid = e :: hs) (hnew : st.lookup tid e.archReg = e.newPhysReg)
    (hpop : HistoryOk c (update (st.lookup tid) e.archReg e.prevPhysReg) hs) :
    RefInv c (if e.newPhysReg.phyReg ≠ e.prevPhysReg.phyReg then some e.newPhysReg.phyReg else none)
      ((st.setEntry tid e.archReg e.prevPhysReg).setHistory tid hs) := by
  have hren := isRenameable_of_mem hd
  refine ⟨fun q hq => ?_, ?_, historyOk_setEntry_setHistory h.history hren hpop⟩
  · have href := h.ref_eq q hq
    have huses := st.uses_setEntry_setHistory tid hd e.prevPhysReg hs q
    rw [← lookup_of_renameable st tid hren, hhist] at huses
    simp only [countP_cons, keeps_iff] at huses
    simp only [setHistory, numRef_setEntry] at huses ⊢
    grind
  · rw [setHistory, freeRegs_setEntry, numRef_setEntry]
    exact h.free

theorem undo (h : RefInv c none st) (hhist : st.historyBuffer tid = e :: hs) :
    RefInv c none ((st.undoMapping tid e).setHistory tid hs) := by
  have hok := h.history tid
  rw [hhist] at hok
  obtain ⟨hnew, hpop⟩ := hok.pop
  unfold undoMapping
  split_ifs with hdiff hphys
  · have hd := hok.mem_archRegs hdiff
    have hundone := h.unmap hd hhist hnew hpop
    rw [if_pos hphys] at hundone
    rw [← tryFreePReg_setHistory]
    exact hundone.tryFreePReg
  · have hd := hok.mem_archRegs hdiff
    have hundone := h.unmap hd hhist hnew hpop
    rwa [if_neg hphys] at hundone
  · have hsame : e.newPhysReg = e.prevPhysReg := not_not.1 hdiff
    rw [← hsame, ← hnew, update_eq_self] at hpop
    refine ⟨fun q hq => ?_, h.free, historyOk_setHistory h.history hpop⟩
    have huses := st.histCount_setHistory tid hs q
    simp only [hhist, countP_cons, keeps_iff, hsame, and_not_self, if_false] at huses
    have href := h.ref_eq q hq
    have hmap : (st.setHistory tid hs).mapCount c q = st.mapCount c q := rfl
    simp only [setHistory] at *
    omega

theorem release (h : RefInv c none st) (hhist : st.historyBuffer tid = hs ++ [e]) :
    RefInv c none ((st.releasePrev e).setHistory tid hs) := by
  have hok := h.history tid
  rw [hhist] at hok
  have hdropped : RefInv c
      (if e.newPhysReg.phyReg ≠ e.prevPhysReg.phyReg then some e.prevPhysReg.phyReg else none)
      (st.setHistory tid hs) := by
    refine ⟨fun q hq => ?_, h.free, historyOk_setHistory h.history hok.dropLast⟩
    have huses := st.histCount_setHistory tid hs q
    have href := h.ref_eq q hq
    have hmap : (st.setHistory tid hs).mapCount c q = st.mapCount c q := rfl
    simp only [hhist, countP_append, countP_cons, countP_nil, keeps_iff] at huses
    simp only [setHistory] at *
    grind
  unfold releasePrev
  split_ifs with hphys
  · rw [if_pos hphys] at hdropped
    rw [← tryFreePReg_setHistory]
    exact hdropped.tryFreePReg
  · rwa [if_neg hphys] at hdropped

/-! ### The operations -/

section
variable (h : RefInv c none st)
include h

theorem doSquash (seqNum : ℕ) (tid : Fin n) : RefInv c none (st.doSquash seqNum tid) := by
  -- the loop runs over the history that is still there
  have hloop (hs : List RenameHistory) : ∀ {st : RenameStage n}, RefInv c none st →
      st.historyBuffer tid = hs → RefInv c none (squashEntries seqNum tid hs st) := by
    induction hs with
    | nil => exact fun h _ => h
    | cons e hs ih =>
      intro st h hhist
      unfold squashEntries
      split_ifs
      · exact ih (h.undo hhist) (historyBuffer_setHistory_self ..)
      · exact h
  exact hloop _ h rfl

theorem removeFromHistory (seqNum : ℕ) (tid : Fin n) :
    RefInv c none (st.removeFromHistory seqNum tid) := by
  have hloop (hs : List RenameHistory) : ∀ {st : RenameStage n}, RefInv c none st →
      st.historyBuffer tid = hs.reverse → RefInv c none (releaseEntries seqNum tid hs st) := by
    induction hs with
    | nil => exact fun h _ => h
    | cons e hs ih =>
      intro st h hhist
      rw [reverse_cons] at hhist
      unfold releaseEntries
      split_ifs
      · exact ih (h.release hhist) (historyBuffer_setHistory_self ..)
      · exact h
  exact hloop _ h (reverse_reverse _).symm

theorem renamedBy {pins : ℕ} {bypass : Option VirtRegId}
    {new prev : VirtRegId} (hr : RenamedBy st tid d pins bypass new prev st')
    (hd : d.isRenameable = true → d ∈ c.archRegs)
    (hbypass : ∀ v, bypass = some v → v.phyReg.regClass ≠ .invalid → st.numRef v.phyReg ≠ 0)
    (seqNum : ℕ) :
    RefInv c none (st'.setHistory tid (⟨seqNum, d, new, prev⟩ :: st'.historyBuffer tid)) := by
  cases hr with
  | fixed bypass hfix => exact h.push_same hd seqNum
  | shared v hren =>
    obtain ⟨st₁, hst₁⟩ : ∃ st₁, st₁ =
        if (st.map (tid, d)).phyReg ≠ new.phyReg then st.incRef new.phyReg else st := ⟨_, rfl⟩
    have hmap : st₁.map = st.map := by rw [hst₁]; split_ifs <;> rfl
    have hcounted : RefInv c
        (if (st₁.map (tid, d)).phyReg ≠ new.phyReg then some new.phyReg else none) st₁ := by
      rw [hmap, hst₁]
      split_ifs
      · exact h.incRef (hbypass new rfl)
      · exact h
    rw [← hst₁, ← hmap, historyBuffer_setEntry]
    exact hcounted.bind (hd hren) seqNum
  | pinned hren k hpin =>
    rw [← lookup_of_renameable st tid hren]
    exact (h.setNumPinnedWrites _ k).push_same hd seqNum
  | @fresh hren p ps hfree =>
    have hne : (((st.setFree d.regClass ps).incRef p).map (tid, d)).phyReg ≠
        (of p).phyReg := by
      change (st.map (tid, d)).phyReg ≠ p
      rintro rfl
      have hmem : (st.map (tid, d)).phyReg ∈ st.freeRegs d.regClass := by simp [hfree]
      exact h.ref_ne_zero (hd hren) (h.free.phys _ _ hmem).2.class_ne (h.free.ref_of_mem hmem)
    have hcounted : RefInv c (if (((st.setFree d.regClass ps).incRef p).map (tid, d)).phyReg ≠
        (of p).phyReg then some (of p).phyReg else none)
        ((st.setFree d.regClass ps).incRef p) := by
      rw [if_pos hne]
      exact h.take hfree
    have hbound := hcounted.bind (hd hren) seqNum
    have hpinned := hbound.setNumPinnedWrites p pins
    rw [← historyBuffer_setEntry _ tid d (.of p)] at hpinned
    exact hpinned

theorem bypassReg_ref_ne_zero (hv : inst.Valid c)
    (hbypass : (st.bypassReg c tid inst).reg = some v) (hclass : v.phyReg.regClass ≠ .invalid) :
    st.numRef v.phyReg ≠ 0 := by
  obtain ⟨hphys, hflag⟩ := bypassReg_phyReg hbypass
  rcases hv.src hflag with hinv | hsrc
  · rw [hphys, lookup, if_pos hinv] at hclass
    exact absurd rfl hclass
  · rw [hphys, lookup_of_renameable _ _ (isRenameable_of_mem hsrc)] at hclass ⊢
    exact h.ref_ne_zero hsrc hclass

theorem renameDestRegs {news : List VirtRegId} {eliminated : Bool}
    (hv : inst.Valid c) (hren : st.renameDestRegs c tid inst = .ok (news, eliminated, st')) :
    RefInv c none st' := by
  have hloop (ds : List (RegId × ℕ)) (hds : ∀ d ∈ ds, d.1.isRenameable = true → d.1 ∈ c.archRegs) :
      ∀ {st : RenameStage n} {news : List VirtRegId} {eliminated : Bool}, RefInv c none st →
        renameDests c tid inst ds st = .ok (news, eliminated, st') → RefInv c none st' := by
    induction ds with
    | nil =>
      intro st news eliminated h hren
      cases hren
      exact h
    | cons d ds ih =>
      intro st news eliminated h hren
      obtain ⟨new, prev, st₁, news', eliminated', hby, hrest, -, -⟩ := renameDests_cons hren
      obtain ⟨hd, hds⟩ := forall_mem_cons.1 hds
      exact ih hds (h.renamedBy hby hd (fun v => h.bypassReg_ref_ne_zero hv) inst.seqNum) hrest
  exact hloop inst.destRegs hv.dests h hren
end
end RefInv
end RenameStage

/-! ### Runs -/

namespace RenameConfig
open RenameStage
variable {c : RenameConfig} {n : ℕ}

theorem allFree_refInv : RefInv c none (c.allFree n) := by
  refine ⟨fun p hp => ?_, ⟨fun p hp => ?_, fun k p hp => ?_, fun p _ hne => absurd rfl hne⟩,
    fun tid => ⟨trivial, by simp [allFree], by simp [allFree]⟩⟩
  · have hmap : (c.allFree n).mapCount c p = 0 := by
      refine Finset.card_eq_zero.2 (Finset.filter_eq_empty_iff.2 fun e _ he => hp ?_)
      rw [← he]
      rfl
    have hhist : (c.allFree n).histCount p = 0 := Finset.sum_eq_zero fun _ _ => rfl
    rw [hmap, hhist]
    rfl
  · have hnodup : ((List.range (c.numPhysRegs p.regClass)).map (PhysRegId.mk p.regClass)).Nodup :=
      nodup_range.map fun i j h => (PhysRegId.mk.injEq .. ▸ h).2
    have hmem : p ∈ (List.range (c.numPhysRegs p.regClass)).map (PhysRegId.mk p.regClass) :=
      mem_map.2 ⟨p.index, mem_range.2 hp.2, rfl⟩
    simp only [allFree, hp.1]
    exact count_eq_one_of_mem hnodup hmem
  · simp only [allFree] at hp
    split_ifs at hp with hk
    · obtain ⟨i, hi, rfl⟩ := mem_map.1 hp
      exact ⟨rfl, hk, mem_range.1 hi⟩
    · cases hp

variable {st : RenameStage n}

theorem assign_refInv {tid : Fin n} {r : RegId} {p : PhysRegId} (h : RefInv c (some p) st)
    (hr : r ∈ c.archRegs) (hmap : (st.map (tid, r)).phyReg.regClass = .invalid)
    (hhist : ∀ t, st.historyBuffer t = []) : RefInv c none (st.setEntry tid r (.of p)) := by
  refine ⟨fun q hq => ?_, ?_, fun t => ?_⟩
  · have href := h.ref_eq q hq
    have huses := st.mapCount_setEntry tid hr (.of p) q
    have hframe : (st.setEntry tid r (.of p)).histCount q = st.histCount q := by
      simp only [histCount, historyBuffer_setEntry]
    have hne : (st.map (tid, r)).phyReg ≠ q := by
      rintro rfl
      exact hq hmap
    rw [numRef_setEntry]
    rw [of_phyReg] at huses
    grind
  · rw [freeRegs_setEntry, numRef_setEntry]
    exact h.free
  · rw [historyBuffer_setEntry, hhist t]
    exact ⟨trivial, by simp, by simp⟩

theorem initial_refInv (h : c.initial n = .ok st) : RefInv c none st := by
  have hloop (es : List (Fin n × RegId)) (hnodup : es.Nodup) (harch : ∀ e ∈ es, e.2 ∈ c.archRegs) :
      ∀ {st st' : RenameStage n}, RefInv c none st → (∀ t, st.historyBuffer t = []) →
        (∀ e ∈ es, (st.map e).phyReg.regClass = .invalid) → assign es st = .ok st' →
          RefInv c none st' := by
    induction es with
    | nil =>
      intro st st' h _ _ hassign
      cases hassign
      exact h
    | cons e es ih =>
      intro st st' h hhist hmap hassign
      obtain ⟨tid, r⟩ := e
      obtain ⟨hfresh, hnodup⟩ := nodup_cons.1 hnodup
      obtain ⟨hr, harch⟩ := forall_mem_cons.1 harch
      obtain ⟨hinv, hmap⟩ := forall_mem_cons.1 hmap
      cases hfree : st.freeRegs r.regClass with
      | nil => simp [assign, getReg, hfree] at hassign
      | cons p ps =>
        simp only [assign, getReg, hfree] at hassign
        refine ih hnodup harch (assign_refInv (h.take hfree) hr hinv hhist) (fun t => ?_)
          (fun e he => ?_) hassign
        · rw [historyBuffer_setEntry]
          exact hhist t
        · have hne : e ≠ (tid, r) := by
            rintro rfl
            exact hfresh he
          rw [setEntry_of_renameable _ tid (isRenameable_of_mem hr)]
          change (update st.map (tid, r) (.of p) e).phyReg.regClass = .invalid
          rw [update_of_ne hne]
          exact hmap e he
  exact hloop (c.entries n) (c.nodup_entries n) (fun e he => mem_entries.1 he) allFree_refInv
    (fun _ => rfl) (fun _ _ => rfl) h

theorem assign_history {es : List (Fin n × RegId)} {st' : RenameStage n}
    (h : assign es st = .ok st') : st'.historyBuffer = st.historyBuffer := by
  induction es generalizing st with
  | nil =>
    cases h
    rfl
  | cons e es ih =>
    cases hfree : st.freeRegs e.2.regClass with
    | nil => simp [assign, getReg, hfree] at h
    | cons p ps =>
      simp only [assign, getReg, hfree] at h
      rw [ih h, historyBuffer_setEntry]
      rfl

theorem initial_history (h : c.initial n = .ok st) (tid : Fin n) : st.historyBuffer tid = [] := by
  rw [assign_history h]
  rfl

end RenameConfig

/-- A step of the stage.  The pinned writes of a register may also change outside it: they are
counted down as the writes complete and restored when an instruction is squashed. -/
inductive RenameStep {n : ℕ} (c : RenameConfig) : RenameStage n → RenameStage n → Prop
  | rename {st st' : RenameStage n} {tid : Fin n} {inst : RenameInst} {news : List VirtRegId}
      {eliminated : Bool} (hv : inst.Valid c)
      (h : st.renameDestRegs c tid inst = .ok (news, eliminated, st')) : RenameStep c st st'
  | doSquash (st : RenameStage n) (seqNum : ℕ) (tid : Fin n) :
      RenameStep c st (st.doSquash seqNum tid)
  | removeFromHistory (st : RenameStage n) (seqNum : ℕ) (tid : Fin n) :
      RenameStep c st (st.removeFromHistory seqNum tid)
  | pinnedWrites (st : RenameStage n) (p : PhysRegId) (k : ℕ) :
      RenameStep c st (st.setNumPinnedWrites p k)

theorem RenameStep.refInv {st st' : RenameStage n} (hstep : RenameStep c st st')
    (h : st.RefInv c none) : st'.RefInv c none := by
  cases hstep with
  | rename hv hren => exact h.renameDestRegs hv hren
  | doSquash seqNum tid => exact h.doSquash seqNum tid
  | removeFromHistory seqNum tid => exact h.removeFromHistory seqNum tid
  | pinnedWrites p k => exact h.setNumPinnedWrites p k

theorem refInv_of_run {st₀ st : RenameStage n} (h₀ : c.initial n = .ok st₀)
    (hrun : Relation.ReflTransGen (RenameStep c) st₀ st) : st.RefInv c none := by
  induction hrun with
  | refl => exact initial_refInv h₀
  | tail _ hstep ih => exact hstep.refInv ih

/-- **Reference counting.**  In every state of every run, with any number of threads, the counter of
a physical register is the number of map entries mapped to it and of history entries that keep it;
it is on its free list once if the counter is zero, and not at all otherwise. -/
theorem refCount {n : ℕ} {c : RenameConfig} {st₀ st : RenameStage n}
    (h₀ : c.initial n = .ok st₀) (hrun : Relation.ReflTransGen (RenameStep c) st₀ st)
    (p : PhysRegId) (hp : p.regClass ≠ .invalid) :
    st.numRef p = st.mapCount c p + st.histCount p ∧
      (c.IsPhys p → (st.freeRegs p.regClass).count p = if st.numRef p = 0 then 1 else 0) := by
  have h := refInv_of_run h₀ hrun
  exact ⟨h.ref_eq p hp, h.free.count p⟩

def RenameConfig.twoRegs : RenameConfig where
  numArchRegs k := if k = .int then 2 else 0
  numPhysRegs k := if k = .int then 4 else 0
  enableMoveElimination := true
  enableConstantFolding := false
  enableMovImmElimination := false

def RenameInst.move : RenameInst := ⟨1, true, false, 0, [⟨.int, 0⟩], [(⟨.int, 1⟩, 0)]⟩

/-- After an eliminated move one register has two entries, and the other is kept by the history. -/
theorem move_refCount : ∃ st₀ st : RenameStage 1, RenameConfig.twoRegs.initial 1 = .ok st₀ ∧
    Relation.ReflTransGen (RenameStep .twoRegs) st₀ st ∧
    st.numRef ⟨.int, 0⟩ = 2 ∧ st.mapCount .twoRegs ⟨.int, 0⟩ + st.histCount ⟨.int, 0⟩ = 2 ∧
    (st.freeRegs .int).count ⟨.int, 1⟩ = 0 := by
  obtain ⟨st₀, h₀⟩ : ∃ st₀ : RenameStage 1, twoRegs.initial 1 = .ok st₀ := ⟨_, rfl⟩
  obtain ⟨r, hr⟩ : ∃ r, st₀.renameDestRegs .twoRegs 0 .move = .ok r := by
    cases h₀
    exact ⟨_, rfl⟩
  have hv : RenameInst.move.Valid .twoRegs := ⟨by decide, by decide, by decide⟩
  have hrun : Relation.ReflTransGen (RenameStep .twoRegs) st₀ r.2.2 := .single (.rename hv hr)
  have href : r.2.2.numRef ⟨.int, 0⟩ = 2 ∧ r.2.2.numRef ⟨.int, 1⟩ ≠ 0 := by
    cases h₀
    cases hr
    decide
  refine ⟨st₀, r.2.2, h₀, hrun, href.1, ?_, ?_⟩
  · rw [← (refCount h₀ hrun ⟨.int, 0⟩ (by decide)).1, href.1]
  · rw [(refCount h₀ hrun ⟨.int, 1⟩ (by decide)).2 ⟨by decide, by decide⟩, if_neg href.2]

end Gem5
