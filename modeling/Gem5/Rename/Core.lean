import Gem5.Rename.RefCount

/-!
# The rename state of one thread

`RenameState`, against which the fused classes are proved, is what one thread sees of the rename
stage: its map and the free lists.
-/

namespace Gem5
open List Function RenameStage VirtRegId

/-- A mapping that the register may have: a physical register of its class, or the invalid one after
a move from `x0`; nothing creates the operand `LUI`. -/
structure VirtRegId.Suits (v : VirtRegId) (r : RegId) : Prop where
  regClass : v.phyReg.regClass = r.regClass ∨ v.phyReg.regClass = .invalid
  ieop : ∀ imm, v.ieop ≠ some (.lui imm)

theorem VirtRegId.suits_of {p : PhysRegId} {r : RegId} (h : p.regClass = r.regClass) :
    (of p).Suits r := ⟨.inl h, fun _ h => by cases h⟩

theorem VirtRegId.suits_invalid (r : RegId) : invalid.Suits r := ⟨.inr rfl, fun _ h => by cases h⟩

theorem VirtRegId.Suits.congr {v : VirtRegId} {r r' : RegId} (h : v.Suits r)
    (hr : r.regClass = r'.regClass ∨ r.regClass = .invalid) : v.Suits r' := by
  refine ⟨?_, h.ieop⟩
  rcases hr with hr | hr
  · exact hr ▸ h.regClass
  · exact .inr (h.regClass.elim (·.trans hr) id)

theorem VirtRegId.Suits.fold {v w : VirtRegId} {r : RegId} (h : v.Suits r) {imm : ℤ}
    (hw : (v.fold imm).reg = some w) : w.Suits r := by
  refine ⟨?_, ?_⟩
  · rw [fold_phyReg hw]
    exact h.regClass
  · unfold VirtRegId.fold at hw
    split at hw
    · rename_i k hk
      exact absurd hk (h.ieop k)
    · cases hw
      exact fun _ h => by cases h
    · cases hw
      exact fun _ h => by cases h

/-- What is asked of an instruction: no pinned writes, the temporary of fused instructions is no
destination of its own, and if it shares the register of its source, that is of the class of the
destination.  The last is not so for a fused `lui` and `addi` that is folded: its first source is
the temporary. -/
structure RenameInst.Scalar (c : RenameConfig) (i : RenameInst) : Prop where
  pins : ∀ d ∈ i.destRegs, d.2 = 0
  not_fuseTmp : ∀ d ∈ i.destRegs, d.1 ≠ fuseTmpReg
  same_class : i.bypassed c = true → ∀ d ∈ i.destRegs, d.1.isRenameable = true →
    (i.srcRegIdx 0).regClass = d.1.regClass ∨ (i.srcRegIdx 0).regClass = .invalid

variable {n : ℕ} {c : RenameConfig}

/-- The invariant of the stage: references are counted, nothing is pinned, and every register that
is mapped, now or after a squash, is mapped to one of its class. -/
structure ScalarInv (c : RenameConfig) (st : RenameStage n) : Prop where
  refs : st.RefInv c none
  pins : ∀ p, st.numPinnedWrites p = 0
  suits : ∀ tid r, (st.lookup tid r).Suits r
  unmapped : ∀ tid r, r.isRenameable = true → r ∉ c.archRegs → st.lookup tid r = .invalid
  fuseTmp : ∀ tid, ∃ p : PhysRegId, p.regClass = .rmisc ∧ st.lookup tid fuseTmpReg = .of p
  kept : ∀ tid, ∀ e ∈ st.historyBuffer tid,
    e.prevPhysReg.Suits e.archReg ∧ e.archReg ≠ fuseTmpReg

namespace ScalarInv
variable {st : RenameStage n} {tid : Fin n}

section
variable (h : ScalarInv c st)
include h

theorem bypassReg_suits {inst : RenameInst} {d : RegId}
    (hd : inst.bypassed c = true →
      (inst.srcRegIdx 0).regClass = d.regClass ∨ (inst.srcRegIdx 0).regClass = .invalid)
    {v : VirtRegId} (hv : (st.bypassReg c tid inst).reg = some v) : v.Suits d := by
  unfold bypassReg at hv
  split_ifs at hv with hmov hadd
  · cases hv
    exact (h.suits tid (inst.srcRegIdx 0)).congr (hd (Bool.or_eq_true_iff.2 (.inl hmov)))
  · exact ((h.suits tid (inst.srcRegIdx 0)).congr (hd (Bool.or_eq_true_iff.2 (.inr hadd)))).fold hv

theorem renamedBy {st' : RenameStage n} {d : RegId}
    {bypass : Option VirtRegId} {new prev : VirtRegId}
    (hby : st.RenamedBy tid d 0 bypass new prev st')
    (hd : d.isRenameable = true → d ∈ c.archRegs) (htmp : d ≠ fuseTmpReg)
    (hbypass : d.isRenameable = true → ∀ v, bypass = some v → v.Suits d) {seqNum : ℕ}
    (hrefs : (st'.setHistory tid (⟨seqNum, d, new, prev⟩ :: st'.historyBuffer tid)).RefInv c none) :
    ScalarInv c (st'.setHistory tid (⟨seqNum, d, new, prev⟩ :: st'.historyBuffer tid)) := by
  have hspec := hby.spec
  have hpins (p : PhysRegId) : st'.numPinnedWrites p = 0 := by
    cases hby with
    | fixed => exact h.pins p
    | shared =>
      rw [numPinnedWrites_setEntry]
      split_ifs <;> exact h.pins p
    | pinned _ _ hpos => simp [h.pins] at hpos
    | @fresh _ q =>
      change update (setEntry _ tid d _).numPinnedWrites q 0 p = 0
      rw [numPinnedWrites_setEntry]
      by_cases hp : p = q
      · rw [hp, update_self]
      · rw [update_of_ne hp]
        exact h.pins p
  have hnew : new.Suits d := by
    cases hby with
    | fixed => exact h.suits tid d
    | shared _ hren => exact hbypass hren _ rfl
    | pinned hren =>
      rw [← lookup_of_renameable st tid hren]
      exact h.suits tid d
    | @fresh _ q qs hfree =>
      exact suits_of (h.refs.free.phys _ q (by simp [hfree])).1
  have hlook {t : Fin n} {r : RegId} (hr : t = tid → r ≠ d) : st'.lookup t r = st.lookup t r := by
    by_cases ht : t = tid
    · subst ht
      rw [hspec.lookup_eq, bindEntry]
      split_ifs
      · exact update_of_ne (hr rfl) ..
      · rfl
    · rw [hspec.lookup_other t ht]
  refine ⟨hrefs, hpins, fun t r => ?_, fun t r hren hr => ?_, fun t => ?_, fun t e he => ?_⟩
  · rw [lookup_setHistory]
    by_cases hr : t = tid ∧ r = d
    · obtain ⟨rfl, rfl⟩ := hr
      rw [hspec.lookup_eq, bindEntry]
      split_ifs
      · rwa [update_self]
      · exact h.suits t r
    · rw [hlook fun ht hrd => hr ⟨ht, hrd⟩]
      exact h.suits t r
  · rw [lookup_setHistory, hlook]
    · exact h.unmapped t r hren hr
    · rintro - rfl
      exact hr (hd hren)
  · rw [lookup_setHistory, hlook fun _ => htmp.symm]
    exact h.fuseTmp t
  · by_cases ht : t = tid
    · subst ht
      rw [historyBuffer_setHistory_self, hspec.history] at he
      rcases mem_cons.1 he with rfl | he
      · exact ⟨hspec.prev_eq ▸ h.suits t d, htmp⟩
      · exact h.kept t e he
    · rw [historyBuffer_setHistory_of_ne _ _ ht, hspec.history] at he
      exact h.kept t e he

theorem renameDestRegs {st' : RenameStage n} {inst : RenameInst}
    {news : List VirtRegId} {eliminated : Bool} (hv : inst.Valid c) (hs : inst.Scalar c)
    (hren : st.renameDestRegs c tid inst = .ok (news, eliminated, st')) : ScalarInv c st' := by
  have hloop (ds : List (RegId × ℕ)) (hds : ∀ d ∈ ds, d ∈ inst.destRegs) :
      ∀ {st : RenameStage n} {news : List VirtRegId} {eliminated : Bool}, ScalarInv c st →
        renameDests c tid inst ds st = .ok (news, eliminated, st') →
          ScalarInv c st' := by
    induction ds with
    | nil =>
      intro st news eliminated h hren
      cases hren
      exact h
    | cons d ds ih =>
      intro st news eliminated h hren
      obtain ⟨new, prev, st₁, news', eliminated', hby, hrest, -, -⟩ :=
        renameDests_cons hren
      obtain ⟨hd, hds⟩ := forall_mem_cons.1 hds
      have hrefs := h.refs.renamedBy hby (hv.dests d hd)
        (fun v => h.refs.bypassReg_ref_ne_zero hv) inst.seqNum
      rw [hs.pins d hd] at hby
      exact ih hds (h.renamedBy hby (hv.dests d hd) (hs.not_fuseTmp d hd)
        (fun hren v => h.bypassReg_suits fun hby => hs.same_class hby d hd hren) hrefs) hrest
  exact hloop inst.destRegs (fun _ hd => hd) h hren

theorem doSquash (seqNum : ℕ) (tid : Fin n) : ScalarInv c (st.doSquash seqNum tid) := by
  obtain ⟨hlook, hhist, hother⟩ := doSquash_spec (h.refs.history tid) seqNum
  -- a mapping that is restored is the previous one of an entry that is undone
  have hcases (t : Fin n) (r : RegId) : (st.doSquash seqNum tid).lookup t r = st.lookup t r ∨
      ∃ e ∈ st.historyBuffer t, e.archReg = r ∧
        (st.doSquash seqNum tid).lookup t r = e.prevPhysReg := by
    by_cases ht : t = tid
    · subst ht
      rw [hlook]
      refine (UndoLog.rollback_cases _ _ r).imp_right fun ⟨e, he, hk, hr⟩ => ?_
      exact ⟨e, takeWhile_subset _ he, hk, hr⟩
    · exact .inl (congrFun (hother t ht).1 r)
  refine ⟨h.refs.doSquash seqNum tid, fun p => ?_, fun t r => ?_, fun t r hren hr => ?_,
    fun t => ?_, fun t e he => ?_⟩
  · rw [numPinnedWrites_doSquash]
    exact h.pins p
  · rcases hcases t r with heq | ⟨e, he, rfl, heq⟩
    · rw [heq]
      exact h.suits t r
    · rw [heq]
      exact (h.kept t e he).1
  · rcases hcases t r with heq | ⟨e, he, rfl, -⟩
    · rw [heq]
      exact h.unmapped t r hren hr
    · exact absurd ((h.refs.history t).arch e he hren) hr
  · rcases hcases t fuseTmpReg with heq | ⟨e, he, harch, -⟩
    · rw [heq]
      exact h.fuseTmp t
    · exact absurd harch (h.kept t e he).2
  · refine h.kept t e ?_
    by_cases ht : t = tid
    · subst ht
      rw [hhist] at he
      exact dropWhile_subset _ he
    · rwa [(hother t ht).2] at he

theorem removeFromHistory (seqNum : ℕ) (tid : Fin n) :
    ScalarInv c (st.removeFromHistory seqNum tid) := by
  obtain ⟨hlook, hhist, hother⟩ := st.removeFromHistory_spec seqNum tid
  refine ⟨h.refs.removeFromHistory seqNum tid, fun p => ?_, fun t r => ?_, fun t r hren hr => ?_,
    fun t => ?_, fun t e he => h.kept t e ?_⟩
  · rw [numPinnedWrites_removeFromHistory]
    exact h.pins p
  · rw [hlook]
    exact h.suits t r
  · rw [hlook]
    exact h.unmapped t r hren hr
  · rw [hlook]
    exact h.fuseTmp t
  · by_cases ht : t = tid
    · subst ht
      rw [hhist] at he
      refine IsPrefix.subset ?_ he
      exact rdropWhile_prefix _ _
    · rwa [hother t ht] at he
end
end ScalarInv

/-! ### Runs -/

namespace RenameConfig
theorem assign_spec {es : List (Fin n × RegId)} {st st' : RenameStage n}
    (h : assign es st = .ok st') (hren : ∀ e ∈ es, e.2.isRenameable = true)
    (hfree : ∀ k, ∀ p ∈ st.freeRegs k, p.regClass = k) :
    (∀ e ∈ es, ∃ p : PhysRegId, p.regClass = e.2.regClass ∧ st'.map e = .of p) ∧
      (∀ e, e ∉ es → st'.map e = st.map e) ∧ st'.numPinnedWrites = st.numPinnedWrites := by
  induction es generalizing st with
  | nil =>
    cases h
    exact ⟨by simp, fun _ _ => rfl, rfl⟩
  | cons e es ih =>
    obtain ⟨hre, hren⟩ := forall_mem_cons.1 hren
    cases hp : st.freeRegs e.2.regClass with
    | nil => simp [assign, getReg, hp] at h
    | cons p ps =>
      simp only [assign, getReg, hp] at h
      have hclass := hfree e.2.regClass p (by simp [hp])
      have hset := setEntry_of_renameable
        ((st.setFree e.2.regClass ps).incRef p) e.1 hre (.of p)
      obtain ⟨h₁, h₂, h₃⟩ := ih h hren fun k q hq => hfree k q (by
        rw [freeRegs_setEntry] at hq
        change q ∈ update st.freeRegs e.2.regClass ps k at hq
        by_cases hk : k = e.2.regClass
        · subst hk
          rw [update_self] at hq
          simp [hp, hq]
        · rwa [update_of_ne hk] at hq)
      refine ⟨fun e' he' => ?_, fun e' he' => ?_, ?_⟩
      · by_cases hmem : e' ∈ es
        · exact h₁ e' hmem
        · obtain rfl := (mem_cons.1 he').resolve_right hmem
          refine ⟨p, hclass, ?_⟩
          rw [h₂ e' hmem, hset]
          exact update_self ..
      · obtain ⟨hne, hmem⟩ := not_or.1 (mt mem_cons.2 he')
        rw [h₂ e' hmem, hset]
        exact update_of_ne hne ..
      · rw [h₃, numPinnedWrites_setEntry]
        rfl

theorem initial_scalarInv {st : RenameStage n} (h : c.initial n = .ok st)
    (htmp : fuseTmpReg ∈ c.archRegs) : ScalarInv c st := by
  have hrefs := initial_refInv h
  obtain ⟨hmapped, hother, hpins⟩ := assign_spec h
    (fun e he => isRenameable_of_mem (mem_entries.1 he))
    (fun k p hp => (allFree_refInv.free.phys k p hp).1)
  have harch (tid : Fin n) {r : RegId} (hr : r ∈ c.archRegs) :
      ∃ p : PhysRegId, p.regClass = r.regClass ∧ st.lookup tid r = .of p := by
    rw [lookup_of_renameable st tid (isRenameable_of_mem hr)]
    exact hmapped (tid, r) (mem_entries.2 hr)
  have hunmapped (tid : Fin n) {r : RegId} (hren : r.isRenameable = true) (hr : r ∉ c.archRegs) :
      st.lookup tid r = .invalid := by
    rw [lookup_of_renameable st tid hren]
    exact hother (tid, r) (mt mem_entries.1 hr)
  refine ⟨hrefs, fun p => congrFun hpins p, fun tid r => ?_, fun tid r => hunmapped tid,
    fun tid => harch tid htmp, fun tid e he => ?_⟩
  · by_cases hr : r ∈ c.archRegs
    · obtain ⟨p, hp, hlook⟩ := harch tid hr
      rw [hlook]
      exact suits_of hp
    · by_cases hren : r.isRenameable = true
      · rw [hunmapped tid hren hr]
        exact suits_invalid r
      · rw [RenameStage.lookup]
        split_ifs with hinv hmisc
        · exact suits_invalid r
        · exact suits_of hmisc.symm
        · simp [RegId.isRenameable, hinv, hmisc] at hren
  · rw [initial_history h tid] at he
    cases he

end RenameConfig

/-- What the stage does: rename such an instruction, squash, and drop committed history. -/
inductive ScalarStep (c : RenameConfig) : RenameStage n → RenameStage n → Prop
  | rename {st st' : RenameStage n} {tid : Fin n} {inst : RenameInst} {news : List VirtRegId}
      {eliminated : Bool} (hv : inst.Valid c) (hs : inst.Scalar c)
      (h : st.renameDestRegs c tid inst = .ok (news, eliminated, st')) : ScalarStep c st st'
  | doSquash (st : RenameStage n) (seqNum : ℕ) (tid : Fin n) :
      ScalarStep c st (st.doSquash seqNum tid)
  | removeFromHistory (st : RenameStage n) (seqNum : ℕ) (tid : Fin n) :
      ScalarStep c st (st.removeFromHistory seqNum tid)

/-- **The rename stage keeps its invariant** over all runs from the initial mapping, with move
elimination and folding switched on or off. -/
theorem scalarInv_of_run {st₀ st : RenameStage n} (h₀ : c.initial n = .ok st₀)
    (htmp : fuseTmpReg ∈ c.archRegs) (hrun : Relation.ReflTransGen (ScalarStep c) st₀ st) :
    ScalarInv c st := by
  induction hrun with
  | refl => exact RenameConfig.initial_scalarInv h₀ htmp
  | tail _ hstep ih =>
    cases hstep with
    | rename hv hs hren => exact ih.renameDestRegs hv hs hren
    | doSquash seqNum tid => exact ih.doSquash seqNum tid
    | removeFromHistory seqNum tid => exact ih.removeFromHistory seqNum tid

/-- Three registers of each class for the program and two more, all eliminations on. -/
def spareRegs : RenameConfig := ⟨fun _ => 3, fun _ => 5, true, true, true⟩

/-- `addi r1, r2, 4`. -/
def addiInst : RenameInst := ⟨1, false, true, 4, [⟨.int, 2⟩], [(⟨.int, 1⟩, 0)]⟩

/-- An instruction that writes `r2`. -/
def writeInst : RenameInst := ⟨2, false, false, 0, [⟨.int, 1⟩], [(⟨.int, 2⟩, 0)]⟩

/-- The `addi` is folded, the other instruction gets a new register and is squashed: then `r1` and
`r2` share a register, and differ by the immediate. -/
theorem folded_scalarInv : ∃ st : RenameStage 1, ScalarInv spareRegs st ∧
    (st.lookup 0 ⟨.int, 1⟩).phyReg = (st.lookup 0 ⟨.int, 2⟩).phyReg ∧
    st.lookup 0 ⟨.int, 1⟩ ≠ st.lookup 0 ⟨.int, 2⟩ := by
  obtain ⟨st₀, h₀⟩ : ∃ st, spareRegs.initial 1 = .ok st := ⟨_, rfl⟩
  obtain ⟨r₁, h₁⟩ : ∃ r, st₀.renameDestRegs spareRegs 0 addiInst = .ok r := by
    cases h₀
    exact ⟨_, rfl⟩
  obtain ⟨r₂, h₂⟩ : ∃ r, r₁.2.2.renameDestRegs spareRegs 0 writeInst = .ok r := by
    cases h₀
    cases h₁
    exact ⟨_, rfl⟩
  have hfirst : ScalarStep spareRegs st₀ r₁.2.2 :=
    .rename ⟨by decide, by decide, by decide⟩ ⟨by decide, by decide, by decide⟩ h₁
  have hsecond : ScalarStep spareRegs r₁.2.2 r₂.2.2 :=
    .rename ⟨by decide, by decide, by decide⟩ ⟨by decide, by decide, by decide⟩ h₂
  refine ⟨_, scalarInv_of_run h₀ (by decide)
    (((Relation.ReflTransGen.single hfirst).tail hsecond).tail (.doSquash _ 1 0)), ?_⟩
  cases h₀
  cases h₁
  cases h₂
  decide

/-! ### What a thread sees -/

namespace ScalarInv
variable {st : RenameStage n}

theorem not_free (h : ScalarInv c st) (tid : Fin n) (r : RegId) {k : RegClassType} {p : PhysRegId}
    (hp : p ∈ st.freeRegs k) : (st.lookup tid r).phyReg ≠ p := by
  rintro rfl
  obtain ⟨-, hphys⟩ := h.refs.free.phys k _ hp
  by_cases hr : r ∈ c.archRegs
  · rw [lookup_of_renameable st tid (isRenameable_of_mem hr)] at hp hphys
    exact h.refs.ref_ne_zero hr hphys.class_ne (h.refs.free.ref_of_mem hp)
  · by_cases hren : r.isRenameable = true
    · rw [h.unmapped tid r hren hr] at hphys
      exact hphys.class_ne rfl
    · rw [RenameStage.lookup] at hphys
      split_ifs at hphys with hinv hmisc
      · exact hphys.class_ne rfl
      · have hmem : RegClassType.misc ∈ RegClassType.renamed := hphys.1
        exact absurd hmem (by decide)
      · simp [RegId.isRenameable, hinv, hmisc] at hren

def core (h : ScalarInv c st) (tid : Fin n) : RenameState where
  map := st.lookup tid
  free := st.freeRegs
  map_invalid r hr := if_pos hr
  map_class r := (h.suits tid r).regClass
  map_fuseTmp := h.fuseTmp tid
  free_class k p hp := (h.refs.free.phys k p hp).1
  free_unmapped k p hp r := h.not_free tid r hp
  free_nodup k := by
    refine nodup_iff_count_le_one.2 fun p => ?_
    by_cases hp : p ∈ st.freeRegs k
    · obtain ⟨rfl, hphys⟩ := h.refs.free.phys k p hp
      rw [h.refs.free.count p hphys]
      split_ifs <;> omega
    · rw [count_eq_zero.2 hp]
      exact Nat.zero_le 1

theorem rename_core (h : ScalarInv c st) {tid : Fin n} {st' : RenameStage n} {d : RegId}
    {new prev : VirtRegId} (hby : st.RenamedBy tid d 0 none new prev st') :
    ∃ core', (h.core tid).rename d = some (new, core') ∧ core'.map = st'.lookup tid := by
  have hspec := hby.spec
  cases hby with
  | fixed _ hd =>
    refine ⟨h.core tid, ?_, ?_⟩
    · rw [RenameState.rename, dif_neg (by simp [hd])]
      rfl
    · rfl
  | pinned _ _ hpos => simp [h.pins] at hpos
  | @fresh hd p ps hfree =>
    rw [hspec.lookup_eq, bindEntry, if_pos hd, RenameState.rename, dif_pos hd]
    split
    · rename_i hnil
      cases hnil.symm.trans hfree
    · rename_i q qs hq
      cases hq.symm.trans hfree
      exact ⟨_, rfl, rfl⟩

end ScalarInv
end Gem5
