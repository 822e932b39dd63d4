import Gem5.Lib.Count
import Gem5.Rob.State
import Mathlib.Data.List.TakeWhile

/-!
# Group accounting of the reorder buffer

Two invariants of the reorder buffer, each with one lemma for an insert and one for a shrink.

The first needs nothing of the caller.  The second needs that every inserted instruction is younger
than those that the thread has inserted before, retired and squashed ones included.

`robAccounting` puts the two together for every sequence of calls.
-/

namespace Gem5
open List Function

/-! ### Groups -/

/-- No group is empty and none is larger than `b`. -/
def GroupsWithin (b : ℕ) (gs : List ℕ) : Prop :=
  ∀ g ∈ gs, 1 ≤ g ∧ g ≤ b

variable {b : ℕ} {gs gs' : List ℕ}

theorem GroupsWithin.sum_le (h : GroupsWithin b gs) : gs.sum ≤ gs.length * b := by
  have hle := sum_le_card_nsmul gs b fun g hg => (h g hg).2
  rwa [smul_eq_mul] at hle

theorem commitGroup_ok (h : commitGroup gs = .ok gs') :
    ∃ g rest, gs = g :: rest ∧ gs' = if g = 1 then rest else (g - 1) :: rest := by
  cases gs with
  | nil => cases h
  | cons g rest =>
    cases h
    exact ⟨g, rest, rfl, rfl⟩

theorem squashGroup_ok (h : squashGroup gs = .ok gs') :
    ∃ init g, gs = init ++ [g] ∧ gs' = if g = 1 then init else init ++ [g - 1] := by
  unfold squashGroup at h
  split at h
  · cases h
  · rename_i g hg
    obtain ⟨init, rfl⟩ := getLast?_eq_some_iff.1 hg
    cases h
    exact ⟨init, g, rfl, by rw [dropLast_concat]⟩

theorem growGroup_ok {alloc : Bool} (h : growGroup b alloc gs = .ok gs') :
    gs' = gs ++ [1] ∨ ∃ init g, gs = init ++ [g] ∧ g < b ∧ gs' = init ++ [g + 1] := by
  unfold growGroup at h
  split at h
  · cases h
    exact .inl rfl
  · split at h
    · cases h
    · rename_i g hg
      obtain ⟨init, rfl⟩ := getLast?_eq_some_iff.1 hg
      split at h
      · rename_i hlt
        cases h
        exact .inr ⟨init, g, rfl, hlt, by rw [dropLast_concat]⟩
      · cases h

section
variable {b : ℕ} {gs gs' : List ℕ}

theorem commitGroup_spec (hw : GroupsWithin b gs) (h : commitGroup gs = .ok gs') :
    gs'.sum + 1 = gs.sum ∧ GroupsWithin b gs' := by
  obtain ⟨g, rest, rfl, rfl⟩ := commitGroup_ok h
  have hg := hw g mem_cons_self
  have hrest : GroupsWithin b rest := fun k hk => hw k (mem_cons_of_mem g hk)
  split
  · rename_i h1
    subst h1
    exact ⟨by rw [sum_cons, add_comm], hrest⟩
  · refine ⟨by rw [sum_cons, sum_cons]; omega, ?_⟩
    intro k hk
    rcases mem_cons.1 hk with rfl | hk
    · omega
    · exact hrest k hk

theorem squashGroup_spec (hw : GroupsWithin b gs) (h : squashGroup gs = .ok gs') :
    gs'.sum + 1 = gs.sum ∧ GroupsWithin b gs' := by
  obtain ⟨init, g, rfl, rfl⟩ := squashGroup_ok h
  have hg := hw g mem_concat_self
  have hinit : GroupsWithin b init := fun k hk => hw k (mem_append_left [g] hk)
  split
  · rename_i h1
    subst h1
    exact ⟨by rw [sum_append, sum_singleton], hinit⟩
  · refine ⟨?_, ?_⟩
    · rw [sum_append, sum_append, sum_singleton, sum_singleton]
      omega
    · intro k hk
      rcases mem_append.1 hk with hk | hk
      · exact hinit k hk
      · rw [mem_singleton] at hk
        omega

theorem growGroup_spec {alloc : Bool} (hb : 1 ≤ b) (hw : GroupsWithin b gs)
    (h : growGroup b alloc gs = .ok gs') : gs'.sum = gs.sum + 1 ∧ GroupsWithin b gs' := by
  rcases growGroup_ok h with rfl | ⟨init, g, rfl, hlt, rfl⟩
  · refine ⟨by rw [sum_append, sum_singleton], ?_⟩
    intro k hk
    rcases mem_append.1 hk with hk | hk
    · exact hw k hk
    · rw [mem_singleton] at hk
      omega
  · refine ⟨?_, ?_⟩
    · rw [sum_append, sum_append, sum_singleton, sum_singleton]
      omega
    · intro k hk
      rcases mem_append.1 hk with hk | hk
      · exact hw k (mem_append_left [g] hk)
      · rw [mem_singleton] at hk
        omega
end

namespace RobState
open Relation (ReflTransGen)
variable {n : ℕ} {p : RobParams} {s t : RobState n}

/-! ### The accounting -/

/-- The groups account for the instructions, thread by thread, and the counter for all of them. -/
structure GroupInv (p : RobParams) (s : RobState n) : Prop where
  sum_eq (tid : Fin n) : (s.threadGroups tid).sum = (s.instList tid).length
  within (tid : Fin n) : GroupsWithin p.instsPerGroup (s.threadGroups tid)
  num_eq : s.numInstsInROB = ∑ tid, (s.instList tid).length

theorem groupInv_start : GroupInv p (start : RobState n) where
  sum_eq _ := rfl
  within _ _ hg := absurd hg not_mem_nil
  num_eq := by simp [start]

variable {tid : Fin n} {l : List (RobInst n)} {gs : List ℕ} {cycle : ℕ} {inst : RobInst n}
  {known : Fin n → List ℕ}

section
variable (hs : GroupInv p s)
include hs

theorem GroupInv.update (hl : t.instList = Function.update s.instList tid l)
    (hg : t.threadGroups = Function.update s.threadGroups tid gs) (hsum : gs.sum = l.length)
    (hw : GroupsWithin p.instsPerGroup gs)
    (hnum : t.numInstsInROB + (s.instList tid).length = s.numInstsInROB + l.length) :
    GroupInv p t where
  sum_eq u := by
    rw [hl, hg]
    by_cases hu : u = tid
    · subst hu
      rw [update_self, update_self, hsum]
    · rw [update_of_ne hu, update_of_ne hu, hs.sum_eq u]
  within u := by
    rw [hg]
    by_cases hu : u = tid
    · subst hu
      rwa [update_self]
    · rw [update_of_ne hu]
      exact hs.within u
  num_eq := by
    have hcount := Finset.sum_update_add Finset.univ (Finset.mem_univ tid) s.instList l List.length
    have hold := hs.num_eq
    rw [hl]
    omega

theorem GroupInv.length_le (tid : Fin n) : (s.instList tid).length ≤ s.numInstsInROB := by
  rw [hs.num_eq]
  exact Finset.single_le_sum (f := fun u => (s.instList u).length) (fun _ _ => Nat.zero_le _)
    (Finset.mem_univ tid)

theorem GroupInv.insertInst (h : s.insertInst p cycle inst = .ok t) : GroupInv p t := by
  obtain ⟨_, gs, hgs, rfl⟩ := insertInst_ok h
  obtain ⟨hsum, hw⟩ := growGroup_spec p.instsPerGroup_pos (hs.within inst.threadNumber) hgs
  have hold := hs.sum_eq inst.threadNumber
  refine hs.update rfl rfl ?_ hw ?_
  · rw [length_append, length_singleton]
    omega
  · rw [length_append, length_singleton]
    simp only [pushed]
    omega

theorem GroupInv.shrunk (hlen : l.length + 1 = (s.instList tid).length)
    (hgs : gs.sum + 1 = (s.threadGroups tid).sum ∧ GroupsWithin p.instsPerGroup gs)
    (hl : t.instList = Function.update s.instList tid l)
    (hg : t.threadGroups = Function.update s.threadGroups tid gs)
    (hnum : t.numInstsInROB = s.numInstsInROB - 1) : GroupInv p t := by
  have hold := hs.sum_eq tid
  have hle := hs.length_le tid
  refine hs.update hl hg ?_ hgs.2 ?_
  · omega
  · omega

theorem GroupInv.shrink (h : RobShrink s t) : GroupInv p t := by
  cases h with
  | retire hl hgs =>
    exact hs.shrunk (by rw [hl, length_cons]) (commitGroup_spec (hs.within _) hgs) rfl rfl rfl
  | erase hl hgs ht =>
    rw [ht]
    refine hs.shrunk ?_ (squashGroup_spec (hs.within _) hgs) rfl rfl rfl
    rw [hl, length_append, length_append, length_cons, Nat.add_assoc]
  | aside ht =>
    rw [ht]
    exact ⟨hs.sum_eq, hs.within, hs.num_eq⟩

theorem GroupInv.shrinks (h : ReflTransGen RobShrink s t) : GroupInv p t := by
  induction h with
  | refl => exact hs
  | tail _ hstep ih => exact ih.shrink hstep

theorem GroupInv.call {c : RobCall n} (h : s.call p c = .ok t) : GroupInv p t := by
  rcases call_ok h with ⟨cycle, inst, _, hins⟩ | ⟨_, hshrinks⟩
  · exact hs.insertInst hins
  · exact hs.shrinks hshrinks
end

/-! ### No assert about groups fails -/

theorem room_of_not_allocateNewGroup (h : s.allocateNewGroup p cycle inst = false) :
    ∃ g, (s.threadGroups inst.threadNumber).getLast? = some g ∧ g < p.instsPerGroup := by
  have hroom : (s.threadGroups inst.threadNumber).isEmpty = false ∧
      s.groupFull p inst.threadNumber = false := by
    unfold allocateNewGroup at h
    split at h
    · simp [allocateGroupNone] at h
    · simp only [allocateGroupKmhv2] at h
      split_ifs at h with h₁
      exact ⟨by simpa using h₁, h⟩
    · simp only [allocateGroupMohBoE] at h
      split_ifs at h with h₁
      exact ⟨by simpa using h₁, h⟩
    · simp only [allocateGroupKmhv3] at h
      split_ifs at h with h₁
      exact ⟨by simpa using h₁, h⟩
  obtain ⟨hne, hfull⟩ := hroom
  cases hlast : (s.threadGroups inst.threadNumber).getLast? with
  | none => simp_all
  | some g => exact ⟨g, rfl, by simpa [groupFull, hlast] using hfull⟩

theorem insertInst_of_le (cycle : ℕ) (inst : RobInst n)
    (h : s.numInstsInROB ≤ p.numEntries * p.instsPerGroup) :
    ∃ gs, s.insertInst p cycle inst = .ok (s.pushed cycle inst gs) ∧
      growGroup p.instsPerGroup (s.allocateNewGroup p cycle inst)
        (s.threadGroups inst.threadNumber) = .ok gs := by
  obtain ⟨gs, hgs⟩ : ∃ gs, growGroup p.instsPerGroup (s.allocateNewGroup p cycle inst)
      (s.threadGroups inst.threadNumber) = .ok gs := by
    cases halloc : s.allocateNewGroup p cycle inst with
    | true => exact ⟨_, rfl⟩
    | false =>
      obtain ⟨g, hlast, hlt⟩ := room_of_not_allocateNewGroup halloc
      exact ⟨(s.threadGroups inst.threadNumber).dropLast ++ [g + 1], by
        simp [growGroup, hlast, hlt]⟩
  refine ⟨gs, ?_, hgs⟩
  rw [RobState.insertInst, if_pos h, hgs]

theorem GroupInv.threadGroups_ne_nil (hs : GroupInv p s) (h : s.instList tid ≠ []) :
    s.threadGroups tid ≠ [] := by
  intro hnil
  have hsum := hs.sum_eq tid
  rw [hnil, sum_nil] at hsum
  exact h (length_eq_zero_iff.1 hsum.symm)

theorem GroupInv.squashInst (hs : GroupInv p s) {x : RobInst n} (hx : x ∈ s.instList tid) :
    ∃ t, s.squashInst tid x.seqNum = .ok t := by
  have hne : s.threadGroups tid ≠ [] := hs.threadGroups_ne_nil (ne_nil_of_mem hx)
  have hg := getLast?_eq_some_getLast hne
  cases hdrop : (s.instList tid).dropWhile (·.seqNum ≠ x.seqNum) with
  | nil =>
    have hall := dropWhile_eq_nil_iff.1 hdrop x hx
    simp at hall
  | cons y after =>
    simp only [RobState.squashInst, hdrop, squashGroup, hg]
    split <;> exact ⟨_, rfl⟩

/-! ### The order -/

/-- The lists are in program order, no listed instruction has been squashed, and `known` has every
instruction that is listed or has been squashed. -/
structure OrderInv (known : Fin n → List ℕ) (s : RobState n) : Prop where
  sorted (tid : Fin n) : (s.instList tid).Pairwise (·.seqNum < ·.seqNum)
  unsquashed (tid : Fin n) : ∀ x ∈ s.instList tid, x.seqNum ∉ s.squashedInsts tid
  listed (tid : Fin n) : ∀ x ∈ s.instList tid, x.seqNum ∈ known tid
  squashed (tid : Fin n) : ∀ k ∈ s.squashedInsts tid, k ∈ known tid

theorem orderInv_start (known : Fin n → List ℕ) : OrderInv known (start : RobState n) where
  sorted _ := List.Pairwise.nil
  unsquashed _ _ hx := absurd hx not_mem_nil
  listed _ _ hx := absurd hx not_mem_nil
  squashed _ _ hk := absurd hk not_mem_nil

theorem OrderInv.pushed {known' : Fin n → List ℕ} (hs : OrderInv known s)
    (hnew : ∀ k ∈ known inst.threadNumber, k < inst.seqNum) (hsub : ∀ tid, known tid ⊆ known' tid)
    (hinst : inst.seqNum ∈ known' inst.threadNumber) :
    OrderInv known' (s.pushed cycle inst gs) where
  sorted tid := by
    by_cases ht : tid = inst.threadNumber
    · subst ht
      simp only [RobState.pushed, update_self]
      refine pairwise_append.2 ⟨hs.sorted _, pairwise_singleton _ _, ?_⟩
      intro x hx y hy
      rw [mem_singleton] at hy
      subst hy
      exact hnew _ (hs.listed _ x hx)
    · simp only [RobState.pushed, update_of_ne ht]
      exact hs.sorted tid
  unsquashed tid x hx := by
    by_cases ht : tid = inst.threadNumber
    · subst ht
      simp only [RobState.pushed, update_self, mem_append, mem_singleton] at hx ⊢
      rcases hx with hx | rfl
      · exact hs.unsquashed _ x hx
      · intro hsq
        exact lt_irrefl _ (hnew _ (hs.squashed _ _ hsq))
    · simp only [RobState.pushed, update_of_ne ht] at hx ⊢
      exact hs.unsquashed tid x hx
  listed tid x hx := by
    by_cases ht : tid = inst.threadNumber
    · subst ht
      simp only [RobState.pushed, update_self, mem_append, mem_singleton] at hx
      rcases hx with hx | rfl
      · exact hsub _ (hs.listed _ x hx)
      · exact hinst
    · simp only [RobState.pushed, update_of_ne ht] at hx
      exact hsub tid (hs.listed tid x hx)
  squashed tid k hk := hsub tid (hs.squashed tid k hk)

theorem OrderInv.sublist (hs : OrderInv known s)
    (hl : ∀ tid, (t.instList tid).Sublist (s.instList tid))
    (hsq : ∀ tid, ∀ k ∈ t.squashedInsts tid, k ∈ s.squashedInsts tid ∨
      (∃ x ∈ s.instList tid, x.seqNum = k) ∧ ∀ x ∈ t.instList tid, x.seqNum ≠ k) :
    OrderInv known t where
  sorted tid := (hs.sorted tid).sublist (hl tid)
  unsquashed tid x hx hmem := by
    rcases hsq tid _ hmem with hold | ⟨_, hne⟩
    · exact hs.unsquashed tid x ((hl tid).subset hx) hold
    · exact hne x hx rfl
  listed tid x hx := hs.listed tid x ((hl tid).subset hx)
  squashed tid k hk := by
    rcases hsq tid k hk with hold | ⟨⟨x, hx, rfl⟩, _⟩
    · exact hs.squashed tid k hold
    · exact hs.listed tid x hx

theorem OrderInv.shrink (hs : OrderInv known s) (h : RobShrink s t) : OrderInv known t := by
  cases h with
  | @retire tid x rest gs hl hgs =>
    refine hs.sublist ?_ fun u k hk => .inl hk
    intro u
    by_cases hu : u = tid
    · subst hu
      simp [RobState.shrunk, hl]
    · simp [RobState.shrunk, hu]
  | @erase _ tid x before after gs hl hgs ht =>
    have hsorted := hs.sorted tid
    rw [hl] at hsorted
    have hlist (u : Fin n) : t.instList u = Function.update s.instList tid (before ++ after) u := by
      rw [ht]
      rfl
    have hmarked (u : Fin n) : t.squashedInsts u =
        Function.update s.squashedInsts tid (x.seqNum :: s.squashedInsts tid) u := by
      rw [ht]
    refine hs.sublist ?_ ?_
    · intro u
      rw [hlist]
      by_cases hu : u = tid
      · subst hu
        rw [update_self, hl]
        exact (sublist_cons_self x after).append_left before
      · rw [update_of_ne hu]
    · intro u k hk
      rw [hmarked] at hk
      rw [hlist]
      by_cases hu : u = tid
      · subst hu
        rw [update_self, mem_cons] at hk
        rw [update_self]
        refine hk.symm.imp_right ?_
        rintro rfl
        refine ⟨⟨x, by rw [hl]; simp, rfl⟩, ?_⟩
        -- the sequence numbers of a sorted list are distinct
        obtain ⟨_, hafter, hbefore⟩ := pairwise_append.1 hsorted
        intro y hy
        rcases mem_append.1 hy with hy | hy
        · exact (hbefore y hy x mem_cons_self).ne
        · exact ((pairwise_cons.1 hafter).1 y hy).ne'
      · rw [update_of_ne hu] at hk
        exact .inl hk
  | aside ht =>
    rw [ht]
    exact ⟨hs.sorted, hs.unsquashed, hs.listed, hs.squashed⟩

theorem OrderInv.shrinks (hs : OrderInv known s) (h : ReflTransGen RobShrink s t) :
    OrderInv known t := by
  induction h with
  | refl => exact hs
  | tail _ hstep ih => exact ih.shrink hstep

end RobState

/-! ### Sequences of calls -/

def inserted {n : ℕ} (tid : Fin n) (calls : List (RobCall n)) : List ℕ :=
  calls.filterMap fun
    | .insertInst _ inst => if inst.threadNumber = tid then some inst.seqNum else none
    | _ => none

def Increasing {n : ℕ} (calls : List (RobCall n)) : Prop :=
  ∀ tid, (inserted tid calls).Pairwise (· < ·)

theorem inserted_append {n : ℕ} (tid : Fin n) (calls calls' : List (RobCall n)) :
    inserted tid (calls ++ calls') = inserted tid calls ++ inserted tid calls' := filterMap_append

namespace RobState
variable {n : ℕ} {p : RobParams} {s t : RobState n}

variable {calls : List (RobCall n)}

theorem OrderInv.call (hs : OrderInv (inserted · calls) s) {c : RobCall n}
    (hinc : Increasing (calls ++ [c])) (h : s.call p c = .ok t) :
    OrderInv (inserted · (calls ++ [c])) t := by
  have hsub (tid : Fin n) : inserted tid calls ⊆ inserted tid (calls ++ [c]) := by
    rw [inserted_append]
    exact subset_append_left _ _
  rcases call_ok h with ⟨cycle, inst, rfl, hins⟩ | ⟨_, hshrinks⟩
  · obtain ⟨_, gs, _, rfl⟩ := insertInst_ok hins
    have hone : inserted inst.threadNumber [.insertInst cycle inst] = [inst.seqNum] := by
      simp [inserted]
    have hsorted := hinc inst.threadNumber
    rw [inserted_append, hone] at hsorted
    refine hs.pushed ?_ hsub ?_
    · intro k hk
      exact (pairwise_append.1 hsorted).2.2 k hk inst.seqNum (mem_singleton_self _)
    · rw [inserted_append, hone]
      exact mem_append_right _ (mem_singleton_self _)
  · have hkept := hs.shrinks hshrinks
    exact ⟨hkept.sorted, hkept.unsquashed, fun tid x hx => hsub tid (hkept.listed tid x hx),
      fun tid k hk => hsub tid (hkept.squashed tid k hk)⟩

theorem inv_of_run (hinc : Increasing calls) (h : run p calls start = .ok s) :
    GroupInv p s ∧ OrderInv (inserted · calls) s := by
  induction calls using List.reverseRecOn generalizing s with
  | nil =>
    cases h
    exact ⟨groupInv_start, orderInv_start _⟩
  | append_singleton calls c ih =>
    rw [run_append_singleton] at h
    cases hrun : run p calls start with
    | error e =>
      rw [hrun] at h
      cases h
    | ok t =>
      rw [hrun] at h
      have hinc' : Increasing calls := by
        intro tid
        have hall := hinc tid
        rw [inserted_append] at hall
        exact (pairwise_append.1 hall).1
      obtain ⟨hgroup, horder⟩ := ih hinc' hrun
      exact ⟨hgroup.call h, horder.call hinc h⟩

/-- The groups of each thread account for its list, no group is empty or too large, the counter
counts all instructions, and the lists are in program order with no squashed instruction. -/
structure Accounted (p : RobParams) (s : RobState n) : Prop where
  sum_eq (tid : Fin n) : (s.threadGroups tid).sum = (s.instList tid).length
  within (tid : Fin n) : ∀ g ∈ s.threadGroups tid, 1 ≤ g ∧ g ≤ p.instsPerGroup
  num_eq : s.numInstsInROB = ∑ tid, (s.instList tid).length
  sorted (tid : Fin n) : (s.instList tid).Pairwise (·.seqNum < ·.seqNum)
  unsquashed (tid : Fin n) : ∀ x ∈ s.instList tid, x.seqNum ∉ s.squashedInsts tid

end RobState

open RobState in
/-- The accounting of the reorder buffer, for every policy, any number of threads and any calls
whose inserts have increasing sequence numbers in each thread. -/
theorem robAccounting {n : ℕ} (p : RobParams) (calls : List (RobCall n)) (s : RobState n)
    (hinc : Increasing calls) (h : run p calls start = .ok s) : s.Accounted p := by
  obtain ⟨hgroup, horder⟩ := inv_of_run hinc h
  exact ⟨hgroup.sum_eq, hgroup.within, hgroup.num_eq, horder.sorted, horder.unsquashed⟩

section
def threeGroups : RobParams where
  numEntries := 4
  instPerGroup := 3
  compressPolicy := .kmhv3
  walkPolicy := .Rollback
  squashWidth := 2
  constSquashCycle := 1
  instPerGroup_pos := Nat.succ_pos 2

def plainInst (tid : Fin 2) (seqNum : ℕ) : RobInst 2 :=
  ⟨seqNum, tid, false, false, false, 0⟩

def walkThread : Fin 2 :=
  ⟨0, Nat.two_pos⟩

def otherThread : Fin 2 :=
  ⟨1, Nat.one_lt_two⟩

/-- A group is filled by one thread, retired from in front, squashed from behind and filled again,
with an instruction of the other thread in between. -/
def groupWalk : List (RobCall 2) :=
  [.insertInst 1 (plainInst walkThread 1), .insertInst 1 (plainInst walkThread 2),
    .insertInst 1 (plainInst walkThread 4), .insertInst 2 (plainInst otherThread 5),
    .retireHead walkThread true false, .squash 2 walkThread, .doSquash walkThread false,
    .insertInst 2 (plainInst walkThread 7)]

open RobState in
theorem groupWalk_accounted :
    ∃ s, run threeGroups groupWalk start = .ok s ∧
      s.threadGroups walkThread = [2] ∧ (s.instList walkThread).map (·.seqNum) = [2, 7] ∧
      s.squashedInsts walkThread = [4] ∧ s.Accounted threeGroups := by
  have hinc : Increasing groupWalk := by
    unfold Increasing
    decide
  exact ⟨_, rfl, rfl, rfl, rfl, robAccounting _ _ _ hinc rfl⟩
end
end Gem5
