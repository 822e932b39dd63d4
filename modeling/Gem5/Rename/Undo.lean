import Gem5.Rename.RefCount

/-!
# A squash as an undo

A squash at `s` is compared with a stage that never saw the instructions above `s`: the same
renames, releases and squashes of a thread, without the renames above `s`.  The two stages map the
same registers, count the same references, and have the same registers free.  They need not have
them free in the same order, since a register that was taken and given back has moved to the end of
its list.
-/

namespace Gem5
open List UndoLog RenameConfig
open UndoLog (rollback)

inductive StageEvent
  | rename (inst : RenameInst)
  | release (seqNum : ℕ)
  | squash (seqNum : ℕ)

/-- Not a rename above `s`. -/
def StageEvent.upTo (s : ℕ) : StageEvent → Bool
  | .rename inst => inst.seqNum ≤ s
  | .release _ | .squash _ => true

def renamedNums (evs : List StageEvent) : List ℕ :=
  evs.filterMap fun
    | .rename inst => some inst.seqNum
    | .release _ | .squash _ => none

theorem FreeOk.mem_iff {c : RenameConfig} {free : RegClassType → List PhysRegId}
    {ref : PhysRegId → ℕ} (h : FreeOk c free ref) {k : RegClassType} {p : PhysRegId} :
    p ∈ free k ↔ p.regClass = k ∧ c.IsPhys p ∧ ref p = 0 := by
  constructor
  · intro hp
    obtain ⟨hk, hphys⟩ := h.phys k p hp
    exact ⟨hk, hphys, h.ref_of_mem hp⟩
  · rintro ⟨rfl, hphys, hzero⟩
    have hcount := h.count p hphys
    rw [if_pos hzero] at hcount
    exact count_pos_iff.1 (by omega)

namespace RenameStage
variable {n : ℕ} {c : RenameConfig} {tid : Fin n} {s : ℕ}

def event (c : RenameConfig) (tid : Fin n) (st : RenameStage n) :
    StageEvent → Except String (RenameStage n)
  | .rename inst => (st.renameDestRegs c tid inst).map fun r => r.2.2
  | .release k => .ok (st.removeFromHistory k tid)
  | .squash k => .ok (st.doSquash k tid)

def exec (c : RenameConfig) (tid : Fin n) : List StageEvent → RenameStage n →
    Except String (RenameStage n)
  | [], st => .ok st
  | e :: evs, st =>
    match st.event c tid e with
    | .error err => .error err
    | .ok st' => exec c tid evs st'

variable {e : StageEvent} {st st' a a' b : RenameStage n} {evs : List StageEvent}
  {inst : RenameInst}

theorem exec_cons (h : st.event c tid e = .ok st') (evs : List StageEvent) :
    exec c tid (e :: evs) st = exec c tid evs st' := by
  rw [exec, h]

theorem exec_cons_ok (h : exec c tid (e :: evs) st = .ok a) :
    ∃ st', st.event c tid e = .ok st' ∧ exec c tid evs st' = .ok a := by
  rw [exec] at h
  cases he : st.event c tid e with
  | error err =>
    rw [he] at h
    cases h
  | ok st' =>
    rw [he] at h
    exact ⟨st', rfl, h⟩

theorem event_rename_ok (h : st.event c tid (.rename inst) = .ok st') :
    ∃ news eliminated, st.renameDestRegs c tid inst = .ok (news, eliminated, st') := by
  cases hren : st.renameDestRegs c tid inst with
  | error err => simp [event, hren, Except.map] at h
  | ok r =>
    obtain ⟨news, eliminated, st₁⟩ := r
    simp only [event, hren, Except.map, Except.ok.injEq] at h
    subst h
    exact ⟨news, eliminated, rfl⟩

theorem RefInv.event (h : RefInv c none st) (hv : ∀ inst, e = .rename inst → inst.Valid c)
    (he : st.event c tid e = .ok st') : RefInv c none st' := by
  cases e with
  | rename inst =>
    obtain ⟨news, eliminated, hren⟩ := event_rename_ok he
    exact h.renameDestRegs (hv inst rfl) hren
  | release k =>
    cases he
    exact h.removeFromHistory k tid
  | squash k =>
    cases he
    exact h.doSquash k tid

/-! ### The two stages -/

/-- The stage `b` is what `a` would be without the renames above `s` of a thread. -/
structure Undoes (c : RenameConfig) (tid : Fin n) (s : ℕ) (a b : RenameStage n) : Prop where
  left : RefInv c none a
  right : RefInv c none b
  young : ∃ young, a.historyBuffer tid = young ++ b.historyBuffer tid ∧
    (∀ e ∈ young, s < e.instSeqNum) ∧ rollback (a.lookup tid) young = b.lookup tid
  old : ∀ e ∈ b.historyBuffer tid, e.instSeqNum ≤ s
  others : ∀ t, t ≠ tid → a.lookup t = b.lookup t ∧ a.historyBuffer t = b.historyBuffer t

theorem Undoes.refl (h : RefInv c none st) (hold : ∀ e ∈ st.historyBuffer tid, e.instSeqNum ≤ s) :
    Undoes c tid s st st := ⟨h, h, ⟨[], rfl, by simp, rfl⟩, hold, fun _ _ => ⟨rfl, rfl⟩⟩

section
variable (h : Undoes c tid s a b)
include h

theorem Undoes.rename (hv : inst.Valid c) (hs : s < inst.seqNum)
    {news : List VirtRegId} {eliminated : Bool}
    (hren : a.renameDestRegs c tid inst = .ok (news, eliminated, a')) : Undoes c tid s a' b := by
  obtain ⟨young, hhist, hyoung, hroll⟩ := h.young
  obtain ⟨batch, hbatch, hnum, -, hback, -, hother⟩ := renameDests_spec hren
  refine ⟨h.left.renameDestRegs hv hren, h.right, ⟨batch ++ young, ?_, ?_, ?_⟩, h.old, ?_⟩
  · rw [hbatch, hhist, append_assoc]
  · intro e he
    rcases mem_append.1 he with he | he
    · rw [hnum e he]
      exact hs
    · exact hyoung e he
  · rw [rollback_append, hback, hroll]
  · intro t ht
    rw [(hother t ht).1, (hother t ht).2]
    exact h.others t ht

theorem Undoes.release {k : ℕ} (hk : k ≤ s) :
    Undoes c tid s (a.removeFromHistory k tid) (b.removeFromHistory k tid) := by
  obtain ⟨young, hhist, hyoung, hroll⟩ := h.young
  obtain ⟨hlook, hdrop, hother⟩ := a.removeFromHistory_spec k tid
  obtain ⟨hlook', hdrop', hother'⟩ := b.removeFromHistory_spec k tid
  have hkeep : ∀ e ∈ young, ¬decide (e.instSeqNum ≤ k) = true := by
    intro e he
    have := hyoung e he
    rw [decide_eq_true_eq]
    omega
  refine ⟨h.left.removeFromHistory k tid, h.right.removeFromHistory k tid,
    ⟨young, ?_, hyoung, ?_⟩, ?_, ?_⟩
  · rw [hdrop, hdrop', hhist, rdropWhile_append _ hkeep]
  · rw [hlook tid, hlook' tid, hroll]
  · intro e he
    rw [hdrop'] at he
    refine h.old e (IsPrefix.subset ?_ he)
    exact rdropWhile_prefix _ _
  · intro t ht
    rw [hlook t, hlook' t, hother t ht, hother' t ht]
    exact h.others t ht

theorem Undoes.squash (k : ℕ) : Undoes c tid s (a.doSquash k tid) (b.doSquash k tid) := by
  obtain ⟨young, hhist, hyoung, hroll⟩ := h.young
  obtain ⟨hlook, hdrop, hother⟩ := doSquash_spec (h.left.history tid) k
  obtain ⟨hlook', hdrop', hother'⟩ := doSquash_spec (h.right.history tid) k
  refine ⟨h.left.doSquash k tid, h.right.doSquash k tid, ?_, ?_, ?_⟩
  · rw [hhist] at hlook hdrop
    by_cases hk : k < s
    · -- every entry above `s` is squashed
      have hall : ∀ e ∈ young, decide (k < e.instSeqNum) = true := by
        intro e he
        have := hyoung e he
        rw [decide_eq_true_eq]
        omega
      rw [takeWhile_append_of_pos hall, rollback_append, hroll] at hlook
      rw [dropWhile_append_of_pos hall] at hdrop
      exact ⟨[], by rw [hdrop, hdrop']; rfl, by simp, by rw [hlook, hlook']; rfl⟩
    · -- no entry up to `s` is squashed
      have hnone : ∀ e ∈ b.historyBuffer tid, ¬decide (k < e.instSeqNum) = true := by
        intro e he
        have := h.old e he
        rw [decide_eq_true_eq]
        omega
      obtain ⟨htake, hkeep⟩ := takeWhile_dropWhile_of_not hnone
      rw [htake] at hlook'
      rw [hkeep] at hdrop'
      refine ⟨young.dropWhile (k < ·.instSeqNum), ?_, ?_, ?_⟩
      · rw [hdrop, hdrop', dropWhile_append]
        split_ifs with hnil
        · rw [hkeep, List.isEmpty_iff.1 hnil]
          rfl
        · rfl
      · intro e he
        exact hyoung e ((dropWhile_suffix _).subset he)
      · have htakes : (young ++ b.historyBuffer tid).takeWhile (k < ·.instSeqNum) =
            young.takeWhile (k < ·.instSeqNum) := by
          rw [takeWhile_append]
          split_ifs with hlen
          · have hpre := takeWhile_prefix (l := young) (k < ·.instSeqNum)
            rw [htake, append_nil]
            exact (hpre.eq_of_length hlen).symm
          · rfl
        rw [hlook, htakes, ← rollback_append, takeWhile_append_dropWhile, hroll, hlook']
        rfl
  · intro e he
    rw [hdrop'] at he
    exact h.old e ((dropWhile_suffix _).subset he)
  · intro t ht
    rw [(hother t ht).1, (hother t ht).2, (hother' t ht).1, (hother' t ht).2]
    exact h.others t ht
end

/-! ### Runs -/

/-- The conditions on the events: valid instructions with increasing numbers, and no release above
`s`. -/
structure Undoable (c : RenameConfig) (s : ℕ) (evs : List StageEvent) : Prop where
  valid : ∀ inst, .rename inst ∈ evs → inst.Valid c
  increasing : (renamedNums evs).Pairwise (· < ·)
  released : ∀ k, .release k ∈ evs → k ≤ s

theorem Undoable.tail (h : Undoable c s (e :: evs)) : Undoable c s evs := by
  refine ⟨fun inst hi => h.valid inst (mem_cons_of_mem _ hi), ?_,
    fun k hk => h.released k (mem_cons_of_mem _ hk)⟩
  have hinc := h.increasing
  cases e with
  | rename inst => exact (pairwise_cons.1 hinc).2
  | release k => exact hinc
  | squash k => exact hinc

theorem Undoable.above (h : Undoable c s (.rename inst :: evs)) {i : RenameInst}
    (hi : .rename i ∈ evs) : inst.seqNum < i.seqNum := by
  apply (pairwise_cons.1 h.increasing).1
  exact mem_filterMap.2 ⟨.rename i, hi, rfl⟩

theorem exec_undoes_above (hu : Undoable c s evs)
    (habove : ∀ inst, .rename inst ∈ evs → s < inst.seqNum) (h : Undoes c tid s a b)
    (hexec : exec c tid evs a = .ok a') :
    ∃ b', exec c tid (evs.filter (·.upTo s)) b = .ok b' ∧ Undoes c tid s a' b' := by
  induction evs generalizing a b with
  | nil =>
    cases hexec
    exact ⟨b, rfl, h⟩
  | cons e evs ih =>
    obtain ⟨a₁, he, hrest⟩ := exec_cons_ok hexec
    have habove' : ∀ inst, .rename inst ∈ evs → s < inst.seqNum :=
      fun inst hi => habove inst (mem_cons_of_mem _ hi)
    cases e with
    | rename inst =>
      have hs := habove inst mem_cons_self
      obtain ⟨news, eliminated, hren⟩ := event_rename_ok he
      have hskip : StageEvent.upTo s (.rename inst) = false := by
        simp only [StageEvent.upTo, decide_eq_false_iff_not]
        omega
      rw [filter_cons_of_neg (by simp [hskip])]
      exact ih hu.tail habove' (h.rename (hu.valid inst mem_cons_self) hs hren) hrest
    | release k =>
      cases he
      exact ih hu.tail habove' (h.release (hu.released k mem_cons_self)) hrest
    | squash k =>
      cases he
      exact ih hu.tail habove' (h.squash k) hrest

theorem event_old (hinv : RefInv c none st) (hold : ∀ e ∈ st.historyBuffer tid, e.instSeqNum ≤ s)
    (hup : e.upTo s = true) (he : st.event c tid e = .ok st') :
    ∀ x ∈ st'.historyBuffer tid, x.instSeqNum ≤ s := by
  intro x hx
  cases e with
  | rename inst =>
    obtain ⟨news, eliminated, hren⟩ := event_rename_ok he
    obtain ⟨batch, hbatch, hnum, -⟩ := renameDests_spec hren
    rw [hbatch] at hx
    rcases mem_append.1 hx with hx | hx
    · rw [hnum x hx]
      simpa [StageEvent.upTo] using hup
    · exact hold x hx
  | release k =>
    cases he
    rw [(st.removeFromHistory_spec k tid).2.1] at hx
    refine hold x (IsPrefix.subset ?_ hx)
    exact rdropWhile_prefix _ _
  | squash k =>
    cases he
    rw [(doSquash_spec (hinv.history tid) k).2.1] at hx
    exact hold x ((dropWhile_suffix _).subset hx)

theorem exec_undoes (hu : Undoable c s evs) (hinv : RefInv c none st)
    (hold : ∀ e ∈ st.historyBuffer tid, e.instSeqNum ≤ s) (hexec : exec c tid evs st = .ok a) :
    ∃ b, exec c tid (evs.filter (·.upTo s)) st = .ok b ∧ Undoes c tid s a b := by
  induction evs generalizing st with
  | nil =>
    cases hexec
    exact ⟨_, rfl, .refl hinv hold⟩
  | cons e evs ih =>
    obtain ⟨st₁, he, hrest⟩ := exec_cons_ok hexec
    by_cases hup : e.upTo s = true
    · have hv : ∀ inst, e = .rename inst → inst.Valid c := by
        rintro inst rfl
        exact hu.valid inst mem_cons_self
      rw [filter_cons_of_pos hup, exec_cons he]
      exact ih hu.tail (hinv.event hv he) (event_old hinv hold hup he) hrest
    · cases e with
      | rename inst =>
        have hs : s < inst.seqNum := by
          simpa [StageEvent.upTo] using hup
        have habove : ∀ i, .rename i ∈ StageEvent.rename inst :: evs → s < i.seqNum := by
          intro i hi
          rcases mem_cons.1 hi with heq | hi
          · cases heq
            exact hs
          · have := hu.above hi
            omega
        exact exec_undoes_above hu habove (.refl hinv hold) hexec
      | release k => exact absurd rfl hup
      | squash k => exact absurd rfl hup

/-! ### What the two stages have in common -/

structure SameAs (c : RenameConfig) (a b : RenameStage n) : Prop where
  map : ∀ e ∈ c.entries n, a.map e = b.map e
  numRef : ∀ p : PhysRegId, p.regClass ≠ .invalid → a.numRef p = b.numRef p
  freeRegs : ∀ k p, p ∈ a.freeRegs k ↔ p ∈ b.freeRegs k

theorem sameAs_of_lookup (ha : RefInv c none a) (hb : RefInv c none b)
    (hlook : ∀ t, a.lookup t = b.lookup t) (hhist : ∀ t, a.historyBuffer t = b.historyBuffer t) :
    SameAs c a b := by
  have hmap : ∀ e ∈ c.entries n, a.map e = b.map e := by
    intro e he
    have hr := isRenameable_of_mem (mem_entries.1 he)
    rw [← lookup_of_renameable a e.1 hr, ← lookup_of_renameable b e.1 hr, hlook]
  have href : ∀ p : PhysRegId, p.regClass ≠ .invalid → a.numRef p = b.numRef p := by
    intro p hp
    have hm : a.mapCount c p = b.mapCount c p := by
      unfold mapCount
      congr 1
      apply Finset.filter_congr
      intro e he
      rw [hmap e (mem_toFinset.1 he)]
    have hh : a.histCount p = b.histCount p := by
      exact Finset.sum_congr rfl fun t _ => by rw [hhist t]
    rw [ha.ref_eq p hp, hb.ref_eq p hp, hm, hh]
  refine ⟨hmap, href, ?_⟩
  intro k p
  rw [ha.free.mem_iff, hb.free.mem_iff]
  constructor
  · rintro ⟨hk, hphys, hzero⟩
    exact ⟨hk, hphys, by rw [← href p hphys.class_ne]; exact hzero⟩
  · rintro ⟨hk, hphys, hzero⟩
    exact ⟨hk, hphys, by rw [href p hphys.class_ne]; exact hzero⟩

theorem Undoes.sameAs (h : Undoes c tid s a b) : SameAs c (a.doSquash s tid) b := by
  obtain ⟨young, hhist, hyoung, hroll⟩ := h.young
  obtain ⟨hlook, hdrop, hother⟩ := doSquash_spec (h.left.history tid) s
  have hall : ∀ e ∈ young, decide (s < e.instSeqNum) = true := by
    intro e he
    exact decide_eq_true (hyoung e he)
  have hnone : ∀ e ∈ b.historyBuffer tid, ¬decide (s < e.instSeqNum) = true := by
    intro e he
    have := h.old e he
    rw [decide_eq_true_eq]
    omega
  obtain ⟨htake, hkeep⟩ := takeWhile_dropWhile_of_not hnone
  rw [hhist, takeWhile_append_of_pos hall, htake, append_nil, hroll] at hlook
  rw [hhist, dropWhile_append_of_pos hall, hkeep] at hdrop
  apply sameAs_of_lookup (h.left.doSquash s tid) h.right
  · intro t
    by_cases ht : t = tid
    · subst ht
      exact hlook
    · rw [(hother t ht).1, (h.others t ht).1]
  · intro t
    by_cases ht : t = tid
    · subst ht
      exact hdrop
    · rw [(hother t ht).2, (h.others t ht).2]

end RenameStage

open RenameStage

/-- **A squash is an exact undo.**  From any state of any run in which the thread has nothing above
`s` in its history, through any renames with increasing numbers, releases up to `s` and squashes:
a squash at `s` leaves the mappings, the reference counts and the free registers that the same
events leave without the renames above `s`. -/
theorem squash_exact_undo {n : ℕ} {c : RenameConfig} {st₀ st a : RenameStage n}
    (h₀ : c.initial n = .ok st₀) (hrun : Relation.ReflTransGen (RenameStep c) st₀ st)
    (tid : Fin n) (s : ℕ) (hold : ∀ e ∈ st.historyBuffer tid, e.instSeqNum ≤ s)
    {evs : List StageEvent} (hu : Undoable c s evs) (hexec : exec c tid evs st = .ok a) :
    ∃ b, exec c tid (evs.filter (·.upTo s)) st = .ok b ∧ SameAs c (a.doSquash s tid) b := by
  obtain ⟨b, hb, hundo⟩ := exec_undoes hu (refInv_of_run h₀ hrun) hold hexec
  exact ⟨b, hb, hundo.sameAs⟩

/-- The move of `RenameInst.move`, and a write of the same register behind it. -/
def moveThenWrite : List StageEvent :=
  [.rename .move, .rename ⟨2, false, false, 0, [], [(⟨.int, 1⟩, 0)]⟩]

/-- The write is undone and the eliminated move stays. -/
theorem moveThenWrite_undone : ∃ st₀ a b : RenameStage 1,
    RenameConfig.twoRegs.initial 1 = .ok st₀ ∧ exec .twoRegs 0 moveThenWrite st₀ = .ok a ∧
    exec .twoRegs 0 [.rename .move] st₀ = .ok b ∧ SameAs .twoRegs (a.doSquash 1 0) b := by
  obtain ⟨st₀, h₀⟩ : ∃ st₀ : RenameStage 1, twoRegs.initial 1 = .ok st₀ := ⟨_, rfl⟩
  obtain ⟨a, ha⟩ : ∃ a, exec .twoRegs 0 moveThenWrite st₀ = .ok a := by
    cases h₀
    exact ⟨_, rfl⟩
  have hold : ∀ e ∈ st₀.historyBuffer 0, e.instSeqNum ≤ 1 := by
    simp [initial_history h₀]
  have hu : Undoable .twoRegs 1 moveThenWrite := by
    refine ⟨?_, by decide, ?_⟩
    · intro inst hi
      rcases mem_cons.1 hi with hi | hi
      · cases hi
        exact ⟨by decide, by decide, by decide⟩
      · cases mem_singleton.1 hi
        exact ⟨by decide, by decide, by decide⟩
    · intro k hk
      simp [moveThenWrite] at hk
  obtain ⟨b, hb, hsame⟩ := squash_exact_undo h₀ .refl 0 1 hold hu ha
  exact ⟨st₀, a, b, h₀, ha, hb, hsame⟩

end Gem5
