import Gem5.Rob.Groups

/-!
# The walk of a squash

`squash` points an iterator to the youngest instruction, and `doSquash` is then called in every
cycle until `isDoneSquashing`: it erases a few instructions and moves the iterator.

The width of a call is a ratio that may be anything from one on: it says how many calls there are,
not what they leave.
-/

namespace Gem5
open List

namespace RobState
variable {n : ℕ} (p : RobParams) (tid : Fin n)

/-- `doSquash`, cycle by cycle until the squash is done; `exiting` has what `isThreadExiting`
answers in each of them. -/
def walk : List Bool → RobState n → Except String (RobState n)
  | [], s => .ok s
  | exiting :: rest, s =>
    if s.doneSquashing tid then .ok s else (s.doSquash p tid exiting).bind (walk rest)

def squashes : List (ℕ × List Bool) → RobState n → Except String (RobState n)
  | [], s => .ok s
  | q :: rest, s => ((s.squash p tid q.1).walk p tid q.2).bind (squashes rest)

def younger (s : RobState n) : ℕ :=
  (s.instList tid).countP (s.squashedSeqNum tid < ·.seqNum)

def Phase (s : RobState n) : Prop :=
  (s.doneSquashing tid = true ∧ s.squashIt tid = none) ∨
    s.doneSquashing tid = false ∧ 1 ≤ s.dynSquashWidth ∧
      ∃ l x, s.instList tid = l ++ [x] ∧ s.squashIt tid = some x.seqNum

/-- The list of the thread is in order, the buffer has room for an instruction, and the iterator is
where it should be. -/
structure WalkInv (s : RobState n) : Prop where
  groups : GroupInv p s
  sorted : (s.instList tid).Pairwise (·.seqNum < ·.seqNum)
  room : s.instList tid ≠ [] → 1 ≤ p.numEntries * p.instsPerGroup
  phase : s.Phase tid

/-- Instructions younger than `bound` have been erased from the end of the list, and marked. -/
structure Cut (bound : ℕ) (s t : RobState n) : Prop where
  erased : ∃ gone, s.instList tid = t.instList tid ++ gone ∧
    ∀ x ∈ gone, bound < x.seqNum ∧ x.seqNum ∈ t.squashedInsts tid
  marked : ∀ k ∈ s.squashedInsts tid, k ∈ t.squashedInsts tid

variable {p : RobParams} {tid : Fin n} {s t u : RobState n} {bound : ℕ}

theorem Cut.refl (bound : ℕ) (s : RobState n) : Cut tid bound s s :=
  ⟨⟨[], by simp, by simp⟩, fun _ h => h⟩

section
variable (h : Cut tid bound s t)
include h

theorem Cut.trans (h' : Cut tid bound t u) : Cut tid bound s u := by
  obtain ⟨gone, hs, hgone⟩ := h.erased
  obtain ⟨gone', ht, hgone'⟩ := h'.erased
  refine ⟨⟨gone' ++ gone, by rw [hs, ht, append_assoc], ?_⟩,
    fun k hk => h'.marked k (h.marked k hk)⟩
  intro x hx
  rcases mem_append.mp hx with hx | hx
  · exact hgone' x hx
  · exact ⟨(hgone x hx).1, h'.marked _ (hgone x hx).2⟩

theorem Cut.mono {bound' : ℕ} (hle : bound' ≤ bound) : Cut tid bound' s t := by
  obtain ⟨gone, hs, hgone⟩ := h.erased
  exact ⟨⟨gone, hs, fun x hx => ⟨hle.trans_lt (hgone x hx).1, (hgone x hx).2⟩⟩, h.marked⟩

theorem Cut.filter_eq (hold : ∀ x ∈ t.instList tid, x.seqNum ≤ bound) :
    t.instList tid = (s.instList tid).filter (·.seqNum ≤ bound) := by
  obtain ⟨gone, hs, hgone⟩ := h.erased
  rw [hs, filter_append, filter_eq_self.mpr (by simpa using hold),
    filter_eq_nil_iff.mpr (by simpa using fun x hx => (hgone x hx).1), append_nil]
end

theorem younger_eq_zero_iff :
    s.younger tid = 0 ↔ ∀ x ∈ s.instList tid, x.seqNum ≤ s.squashedSeqNum tid := by
  simp [younger, countP_eq_zero]

/-! ### A round -/

theorem split_last {l : List (RobInst n)} {x : RobInst n} (hl : s.instList tid = l ++ [x])
    (hsorted : (s.instList tid).Pairwise (·.seqNum < ·.seqNum)) : s.beforeIt tid x.seqNum = l ∧
      (s.instList tid).dropWhile (·.seqNum ≠ x.seqNum) = [x] := by
  have hlt : ∀ y ∈ l, decide (y.seqNum ≠ x.seqNum) = true := by
    intro y hy
    rw [hl, pairwise_append] at hsorted
    have := hsorted.2.2 y hy x (mem_singleton_self x)
    simp only [decide_eq_true_eq]
    omega
  rw [beforeIt, hl]
  constructor
  · rw [takeWhile_append_of_pos hlt]
    simp
  · rw [dropWhile_append_of_pos hlt]
    simp

theorem squashInst_last (h : WalkInv p tid s) (hactive : s.doneSquashing tid = false)
    {l : List (RobInst n)} {x : RobInst n} (hl : s.instList tid = l ++ [x])
    (hwidth : 1 ≤ s.dynSquashWidth) :
    ∃ t, s.squashInst tid x.seqNum = .ok t ∧ WalkInv p tid t ∧ t.instList tid = l ∧
      t.squashedInsts tid = x.seqNum :: s.squashedInsts tid ∧
      t.squashedSeqNum = s.squashedSeqNum ∧ (t.doneSquashing tid = false ∨ l = []) := by
  obtain ⟨hbefore, hafter⟩ := split_last hl h.sorted
  obtain ⟨t, ht⟩ := h.groups.squashInst (x := x) (by rw [hl]; simp)
  have hgroups : GroupInv p t := h.groups.shrink (squashInst_ok ht)
  have hsorted : l.Pairwise (·.seqNum < ·.seqNum) := by
    have := h.sorted
    rw [hl, pairwise_append] at this
    exact this.1
  have ht' := ht
  unfold squashInst at ht'
  rw [hafter] at ht'
  cases hgs : squashGroup (s.threadGroups tid) with
  | error e =>
    rw [hgs] at ht'
    cases ht'
  | ok gs =>
    rw [hgs, hbefore] at ht'
    dsimp only at ht'
    have hroom : 1 ≤ p.numEntries * p.instsPerGroup := h.room (by rw [hl]; simp)
    refine ⟨t, ht, ?_⟩
    rcases eq_nil_or_concat l with rfl | ⟨l', y, rfl⟩
    · -- the head of the list is erased
      simp only [getLast?_nil, Except.ok.injEq] at ht'
      subst ht'
      refine ⟨⟨hgroups, by simp [endSquash, shrunk], fun _ => hroom, .inl ?_⟩,
        by simp [endSquash, shrunk], by simp [endSquash], rfl, .inr rfl⟩
      simp [endSquash]
    · rw [concat_eq_append, getLast?_concat] at ht'
      simp only [Except.ok.injEq] at ht'
      subst ht'
      refine ⟨⟨hgroups, by simpa [shrunk] using hsorted, fun _ => hroom, .inr ?_⟩, by simp [shrunk],
        by simp, rfl, .inl hactive⟩
      exact ⟨hactive, hwidth, l', y, by simp [shrunk], by simp⟩

/-! ### A call -/

structure Walked (p : RobParams) (tid : Fin n) (s t : RobState n) : Prop where
  inv : WalkInv p tid t
  cut : Cut tid (s.squashedSeqNum tid) s t
  bound_eq : t.squashedSeqNum tid = s.squashedSeqNum tid

theorem Walked.trans (h : Walked p tid s t) (h' : Walked p tid t u) : Walked p tid s u :=
  ⟨h'.inv, h.cut.trans (h.bound_eq ▸ h'.cut), h'.bound_eq.trans h.bound_eq⟩

theorem WalkInv.active (h : WalkInv p tid s) (hactive : s.doneSquashing tid = false) :
    1 ≤ s.dynSquashWidth ∧ ∃ l x, s.instList tid = l ++ [x] ∧ s.squashIt tid = some x.seqNum := by
  rcases h.phase with ⟨hdone, -⟩ | ⟨-, hphase⟩
  · rw [hactive] at hdone
    cases hdone
  · exact hphase

theorem younger_of_last (h : WalkInv p tid s) {l : List (RobInst n)} {x : RobInst n}
    (hl : s.instList tid = l ++ [x]) (hx : x.seqNum ≤ s.squashedSeqNum tid) :
    s.younger tid = 0 := by
  rw [younger_eq_zero_iff]
  intro y hy
  have hsorted := h.sorted
  rw [hl, pairwise_append] at hsorted
  rw [hl] at hy
  rcases mem_append.mp hy with hy | hy
  · exact (hsorted.2.2 y hy x (mem_singleton_self x)).le.trans hx
  · rw [mem_singleton.mp hy]
    exact hx

theorem squashLoop_walked (k : ℕ) (s : RobState n) (h : WalkInv p tid s)
    (hphase : s.doneSquashing tid = false ∨ s.instList tid = []) :
    ∃ t, s.squashLoop tid k = .ok t ∧ Walked p tid s t ∧
      (t.doneSquashing tid = false ∨ t.instList tid = []) ∧
      (t.younger tid = 0 ∨ t.younger tid + k ≤ s.younger tid) := by
  induction k generalizing s with
  | zero => exact ⟨s, rfl, ⟨h, Cut.refl _ s, rfl⟩, hphase, .inr le_rfl⟩
  | succ k ih =>
    rw [squashLoop]
    rcases h.phase with ⟨hdone, hit⟩ | ⟨hactive, hwidth, l, x, hl, hit⟩
    · have hnil : s.instList tid = [] := by
        rcases hphase with hactive | hnil
        · rw [hdone] at hactive
          cases hactive
        · exact hnil
      rw [hit]
      exact ⟨s, rfl, ⟨h, Cut.refl _ s, rfl⟩, hphase,
        .inl (younger_eq_zero_iff.mpr (by rw [hnil]; simp))⟩
    · rw [hit]
      dsimp only
      by_cases hyoung : s.squashedSeqNum tid < x.seqNum
      · obtain ⟨u, hu, huinv, hulist, humarks, hubound, huphase⟩ :=
          squashInst_last h hactive hl hwidth
        rw [if_pos hyoung, hu]
        obtain ⟨t, ht, hwalked, htphase, htyounger⟩ :=
          ih u huinv (huphase.imp id fun hnil => by rw [hulist, hnil])
        have hstep : Walked p tid s u := by
          refine ⟨huinv, ⟨⟨[x], by rw [hl, hulist], ?_⟩, ?_⟩, by rw [hubound]⟩
          · intro y hy
            rw [mem_singleton.mp hy, humarks]
            exact ⟨hyoung, mem_cons_self⟩
          · intro m hm
            rw [humarks]
            exact mem_cons_of_mem _ hm
        have hcount : s.younger tid = u.younger tid + 1 := by
          rw [younger, younger, hubound, hl, hulist, countP_append,
            countP_singleton, if_pos (by simpa using hyoung)]
        exact ⟨t, ht, hstep.trans hwalked, htphase, htyounger.imp id fun hle => by omega⟩
      · rw [if_neg hyoung]
        exact ⟨s, rfl, ⟨h, Cut.refl _ s, rfl⟩, hphase,
          .inl (younger_of_last h hl (Nat.le_of_not_lt hyoung))⟩

theorem endSquash_walked (h : WalkInv p tid s) : Walked p tid s (s.endSquash tid) :=
  ⟨⟨⟨h.groups.sum_eq, h.groups.within, h.groups.num_eq⟩, h.sorted, h.room,
    .inl ⟨by simp [endSquash], by simp [endSquash]⟩⟩, ⟨⟨[], by simp [endSquash], by simp⟩,
    fun _ hk => hk⟩, rfl⟩

theorem checkDone_walked (h : WalkInv p tid s)
    (hphase : s.doneSquashing tid = false ∨ s.instList tid = []) :
    Walked p tid s (s.checkDone tid) ∧ (s.checkDone tid).younger tid = s.younger tid ∧
      ((s.checkDone tid).doneSquashing tid = true ↔ s.younger tid = 0) := by
  unfold checkDone
  rcases h.phase with ⟨hdone, hit⟩ | ⟨hactive, -, l, x, hl, hit⟩
  · have hnil : s.instList tid = [] := by
      rcases hphase with hactive | hnil
      · rw [hdone] at hactive
        cases hactive
      · exact hnil
    rw [hit, Option.any_none]
    refine ⟨⟨h, Cut.refl _ s, rfl⟩, rfl, fun _ => ?_, fun _ => hdone⟩
    rw [younger_eq_zero_iff, hnil]
    simp
  · rw [hit, Option.any_some]
    by_cases hold : x.seqNum ≤ s.squashedSeqNum tid
    · rw [if_pos (by simpa using hold)]
      refine ⟨endSquash_walked h, rfl, fun _ => younger_of_last h hl hold, fun _ => ?_⟩
      simp [endSquash]
    · rw [if_neg (by simpa using hold)]
      refine ⟨⟨h, Cut.refl _ s, rfl⟩, rfl, fun hdone => ?_, fun hzero => ?_⟩
      · rw [hactive] at hdone
        cases hdone
      · exact absurd (younger_eq_zero_iff.mp hzero x (by rw [hl]; simp)) hold

theorem doSquash_walked (h : WalkInv p tid s) (hactive : s.doneSquashing tid = false)
    (exiting : Bool) : ∃ t, s.doSquash p tid exiting = .ok t ∧ Walked p tid s t ∧
      ((t.doneSquashing tid = true ∧ t.younger tid = 0) ∨
        t.doneSquashing tid = false ∧ t.younger tid < s.younger tid) := by
  obtain ⟨hwidth, l, x, hl, hit⟩ := h.active hactive
  have hlisted : ¬ (s.instList tid).all (·.seqNum ≠ x.seqNum) = true := by
    rw [hl]
    simp
  unfold doSquash
  rw [hit]
  dsimp only
  rw [if_neg hlisted]
  by_cases hbelow : x.seqNum < s.squashedSeqNum tid
  · rw [if_pos hbelow]
    refine ⟨_, rfl, endSquash_walked h, .inl ⟨by simp [endSquash], ?_⟩⟩
    show s.younger tid = 0
    exact younger_of_last h hl hbelow.le
  · rw [if_neg hbelow, if_neg (by omega)]
    -- also a thread that exits squashes at least one instruction
    have hrounds : 1 ≤ s.numInstsToSquash p exiting := by
      unfold numInstsToSquash
      split
      · exact h.room (by rw [hl]; simp)
      · exact hwidth
    obtain ⟨u, hu, hwalked, huphase, hyounger⟩ :=
      squashLoop_walked (s.numInstsToSquash p exiting) s h (.inl hactive)
    rw [hu]
    obtain ⟨hdone, hsame, hiff⟩ := checkDone_walked hwalked.inv huphase
    refine ⟨_, rfl, hwalked.trans hdone, ?_⟩
    cases hd : (u.checkDone tid).doneSquashing tid with
    | true => exact .inl ⟨rfl, hsame.trans (hiff.mp hd)⟩
    | false =>
      right
      refine ⟨rfl, ?_⟩
      have hne : u.younger tid ≠ 0 := by
        intro hzero
        rw [hiff.mpr hzero] at hd
        cases hd
      have := hyounger.resolve_left hne
      omega

/-! ### The walk -/

theorem walk_walked (exiting : List Bool) (s : RobState n) (h : WalkInv p tid s)
    (hdone : s.doneSquashing tid = true → s.younger tid = 0) :
    ∃ t, s.walk p tid exiting = .ok t ∧ Walked p tid s t ∧
      (t.doneSquashing tid = true → t.younger tid = 0) ∧
      (s.younger tid < exiting.length → t.doneSquashing tid = true) := by
  induction exiting generalizing s with
  | nil => exact ⟨s, rfl, ⟨h, Cut.refl _ s, rfl⟩, hdone, fun hlt => absurd hlt (Nat.not_lt_zero _)⟩
  | cons e rest ih =>
    rw [walk]
    cases hd : s.doneSquashing tid with
    | true => exact ⟨s, rfl, ⟨h, Cut.refl _ s, rfl⟩, hdone, fun _ => hd⟩
    | false =>
      obtain ⟨u, hu, hwalked, hend⟩ := doSquash_walked h hd e
      obtain ⟨t, ht, htwalked, htdone, htfuel⟩ := ih u hwalked.inv (by
        intro hud
        rcases hend with ⟨-, hzero⟩ | ⟨hnot, -⟩
        · exact hzero
        · rw [hud] at hnot
          cases hnot)
      refine ⟨t, ?_, hwalked.trans htwalked, htdone, ?_⟩
      · rw [hu]
        exact ht
      · intro hlt
        rw [length_cons] at hlt
        rcases hend with ⟨hud, -⟩ | ⟨-, hless⟩
        · -- the walk is over already
          cases rest with
          | nil =>
            rw [← Except.ok.inj ht]
            exact hud
          | cons e' rest' =>
            rw [walk, if_pos hud] at ht
            rw [← Except.ok.inj ht]
            exact hud
        · exact htfuel (by omega)

theorem computeDynSquashWidth_pos (hwidth : 1 ≤ p.squashWidth) (uncommitted toSquash : ℕ) :
    1 ≤ p.computeDynSquashWidth uncommitted toSquash := by
  unfold RobParams.computeDynSquashWidth
  cases p.walkPolicy with
  | Rollback => exact hwidth
  | Replay => exact le_max_right _ _
  | ConstCycle => exact hwidth.trans (le_max_right _ _)

section
variable (h : WalkInv p tid s) (hwidth : 1 ≤ p.squashWidth)
include h hwidth

theorem squash_walkInv (squashNum : ℕ) : WalkInv p tid (s.squash p tid squashNum) ∧
      (s.squash p tid squashNum).instList = s.instList ∧
      (s.squash p tid squashNum).squashedInsts = s.squashedInsts ∧
      (s.instList tid = [] ∨ (s.squash p tid squashNum).squashedSeqNum tid = squashNum ∧
        (s.squash p tid squashNum).doneSquashing tid = false) := by
  have hgroups : GroupInv p (s.squash p tid squashNum) :=
    h.groups.shrink (squash_shrink squashNum s)
  rcases eq_nil_or_concat (s.instList tid) with hnil | ⟨l, x, hl⟩
  · have hempty : s.threadGroups tid = [] := by
      have hsum := h.groups.sum_eq tid
      rw [hnil, length_nil, sum_eq_zero_iff] at hsum
      rw [eq_nil_iff_forall_not_mem]
      intro g hg
      have hpos := (h.groups.within tid g hg).1
      have hzero := hsum g hg
      omega
    rw [squash, hempty, isEmpty_nil]
    exact ⟨h, rfl, rfl, .inl hnil⟩
  · rw [concat_eq_append] at hl
    have hne : ¬ (s.threadGroups tid).isEmpty = true := by
      rw [List.isEmpty_iff]
      exact h.groups.threadGroups_ne_nil (by rw [hl]; simp)
    have hlast : (s.instList tid).getLast? = some x := by
      rw [hl, List.getLast?_concat]
    rw [squash, if_neg hne, hlast] at hgroups ⊢
    refine ⟨⟨hgroups, h.sorted, h.room, .inr ?_⟩, rfl, rfl, .inr ⟨by simp, by simp⟩⟩
    exact ⟨by simp, computeDynSquashWidth_pos hwidth _ _, l, x, hl, by simp⟩

theorem squash_walk (squashNum : ℕ) (exiting : List Bool) :
    ∃ t, (s.squash p tid squashNum).walk p tid exiting = .ok t ∧ WalkInv p tid t ∧
      Cut tid squashNum s t ∧ ((s.instList tid).countP (squashNum < ·.seqNum) < exiting.length →
        t.doneSquashing tid = true ∧ ∀ x ∈ t.instList tid, x.seqNum ≤ squashNum) := by
  obtain ⟨hinv, hlist, hmarks, hstart⟩ := squash_walkInv h hwidth squashNum
  have hdone : (s.squash p tid squashNum).doneSquashing tid = true →
      (s.squash p tid squashNum).younger tid = 0 := by
    intro hd
    rw [younger_eq_zero_iff, hlist]
    rcases hstart with hnil | ⟨-, hnot⟩
    · rw [hnil]
      simp
    · rw [hd] at hnot
      cases hnot
  obtain ⟨t, ht, hwalked, htdone, htfuel⟩ := walk_walked exiting _ hinv hdone
  obtain ⟨gone, hgone, hall⟩ := hwalked.cut.erased
  rw [hlist] at hgone
  refine ⟨t, ht, hwalked.inv, ⟨⟨gone, hgone, ?_⟩, fun k hk => hwalked.cut.marked k (hmarks ▸ hk)⟩,
    ?_⟩
  · rcases hstart with hnil | ⟨hbound, -⟩
    · rw [hnil] at hgone
      obtain ⟨-, rfl⟩ := append_eq_nil_iff.mp hgone.symm
      simp
    · rw [hbound] at hall
      exact hall
  · intro hfuel
    rcases hstart with hnil | ⟨hbound, -⟩
    · have htnil : t.instList tid = [] := by
        rw [hnil] at hgone
        exact (append_eq_nil_iff.mp hgone.symm).1
      have hd : t.doneSquashing tid = true := by
        rcases hwalked.inv.phase with ⟨hd, -⟩ | ⟨-, -, l, x, hl, -⟩
        · exact hd
        · rw [htnil] at hl
          simp at hl
      exact ⟨hd, by rw [htnil]; simp⟩
    · have hd := htfuel (by rw [younger, hbound, hlist]; exact hfuel)
      refine ⟨hd, ?_⟩
      have hold := younger_eq_zero_iff.mp (htdone hd)
      rw [hwalked.bound_eq, hbound] at hold
      exact hold

theorem squashes_cut (earlier : List (ℕ × List Bool)) (hbound : ∀ q ∈ earlier, bound ≤ q.1) :
    ∃ t, s.squashes p tid earlier = .ok t ∧ WalkInv p tid t ∧ Cut tid bound s t := by
  induction earlier generalizing s with
  | nil => exact ⟨s, rfl, h, Cut.refl bound s⟩
  | cons q rest ih =>
    obtain ⟨u, hu, huinv, hucut, -⟩ := squash_walk h hwidth q.1 q.2
    obtain ⟨t, ht, htinv, htcut⟩ := ih huinv fun q' hq' => hbound q' (mem_cons_of_mem _ hq')
    refine ⟨t, ?_, htinv, (hucut.mono (hbound q mem_cons_self)).trans htcut⟩
    rw [squashes, hu]
    exact ht
end

theorem squashes_append (p : RobParams) (tid : Fin n) (earlier later : List (ℕ × List Bool))
    (s : RobState n) : s.squashes p tid (earlier ++ later) =
      (s.squashes p tid earlier).bind (squashes p tid later) := by
  induction earlier generalizing s with
  | nil => rfl
  | cons q rest ih =>
    rw [cons_append, squashes, squashes]
    cases (s.squash p tid q.1).walk p tid q.2 with
    | error e => rfl
    | ok t => exact ih t

theorem Cut.countP_le (h : Cut tid bound s t) (squashNum : ℕ) :
    (t.instList tid).countP (squashNum < ·.seqNum) ≤
      (s.instList tid).countP (squashNum < ·.seqNum) := by
  obtain ⟨gone, hs, -⟩ := h.erased
  rw [hs, countP_append]
  exact Nat.le_add_right _ _

end RobState

open RobState in
/-- A squash, after any others to instructions that are not older and whose walks may have been
broken off, is done after at most one cycle more than there are instructions to erase.  No call
fails; what is left are the instructions up to `squashNum` in their old order, and all others have
been marked. -/
theorem squashes_complete {n : ℕ} (p : RobParams) (tid : Fin n) (s : RobState n)
    (hwidth : 1 ≤ p.squashWidth) (h : WalkInv p tid s)
    (earlier : List (ℕ × List Bool)) (squashNum : ℕ) (exiting : List Bool)
    (hsmaller : ∀ q ∈ earlier, squashNum ≤ q.1)
    (hfuel : (s.instList tid).countP (squashNum < ·.seqNum) < exiting.length) :
    ∃ t, s.squashes p tid (earlier ++ [(squashNum, exiting)]) = .ok t ∧
      t.doneSquashing tid = true ∧
      t.instList tid = (s.instList tid).filter (·.seqNum ≤ squashNum) ∧
      ∀ x ∈ s.instList tid, x ∉ t.instList tid → x.seqNum ∈ t.squashedInsts tid := by
  obtain ⟨u, hu, huinv, hucut⟩ := squashes_cut h hwidth earlier hsmaller
  obtain ⟨t, ht, -, htcut, hend⟩ := squash_walk huinv hwidth squashNum exiting
  obtain ⟨hdone, hold⟩ := hend ((hucut.countP_le squashNum).trans_lt hfuel)
  have hcut := hucut.trans htcut
  refine ⟨t, ?_, hdone, hcut.filter_eq hold, ?_⟩
  · rw [squashes_append, hu]
    show ((u.squash p tid squashNum).walk p tid exiting).bind (squashes p tid []) = .ok t
    rw [ht]
    rfl
  · intro x hx hnot
    obtain ⟨gone, hs, hgone⟩ := hcut.erased
    rw [hs] at hx
    rcases mem_append.mp hx with hkept | herased
    · exact absurd hkept hnot
    · exact (hgone x herased).2

section

open RobState

def fiveInsts : List (RobCall 2) :=
  [1, 2, 3, 4, 5].map fun k => .insertInst k (plainInst walkThread k)

/-- A squash to the third instruction is broken off by one to the first. -/
theorem fiveInsts_squashed :
    ∃ s t, run threeGroups fiveInsts start = .ok s ∧
      s.squashes threeGroups walkThread
        [(3, [false]), (1, [false, false, false, false, false])] = .ok t ∧
      t.instList walkThread = [plainInst walkThread 1] := by
  have hrun : run threeGroups fiveInsts start = .ok _ := rfl
  have hinv : WalkInv threeGroups walkThread _ :=
    ⟨(inv_of_run (by unfold Increasing; decide) hrun).1,
      (inv_of_run (by unfold Increasing; decide) hrun).2.sorted walkThread, fun _ => by decide,
      .inl ⟨rfl, rfl⟩⟩
  obtain ⟨t, ht, -, hlist, -⟩ := squashes_complete threeGroups walkThread _ (by decide) hinv
    [(3, [false])] 1 [false, false, false, false, false] (by decide) (by decide)
  exact ⟨_, t, hrun, ht, hlist⟩
end
end Gem5
