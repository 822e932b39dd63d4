import Gem5.Rob.Groups

/-!
# The capacity of the reorder buffer

Commit takes the renamed instructions into a buffer per thread and moves one thread's buffer into
the reorder buffer in a cycle.  The guard compares the buffer with the free groups of *that* thread:
its maximum, which the sharing policy sets, less its groups.
-/

namespace Gem5
open List Function Finset RobState Relation

inductive SMTQueuePolicy
  | Dynamic
  | Partitioned
  | Threshold
  deriving DecidableEq, Repr

structure SmtRobParams extends RobParams where
  smtROBPolicy : SMTQueuePolicy
  smtROBThreshold : ℕ

/-- The groups that a thread of `numThreads` may have, as the constructor sets them. -/
def SmtRobParams.maxEntries (p : SmtRobParams) (numThreads : ℕ) : ℕ :=
  match p.smtROBPolicy with
  | .Dynamic => p.numEntries
  | .Partitioned => p.numEntries / numThreads
  | .Threshold => p.smtROBThreshold

structure CommitState (n : ℕ) where
  rob : RobState n
  fixedbuffer : Fin n → List (RobInst n)

/-- What commit does to the reorder buffer.  `robblock` says which threads squash or wait for a
trap, and `isSquashed` which instructions are squashed at the time of the call. -/
inductive CommitEvent (n : ℕ)
  | moveInstsToBuffer (cycle : ℕ) (robblock : Fin n → Bool) (isSquashed : RobInst n → Bool)
      (fromRename : List (RobInst n))
  | clearBuffer (tid : Fin n)
  | retireHead (tid : Fin n) (readyToCommit isSquashed : Bool)
  | squash (squashNum : ℕ) (tid : Fin n)
  | doSquash (tid : Fin n) (isThreadExiting : Bool)

namespace CommitState
variable {n : ℕ} (p : SmtRobParams)

def start : CommitState n :=
  ⟨.start, fun _ => []⟩

def receive (isSquashed : RobInst n → Bool) (fromRename : List (RobInst n)) (s : CommitState n) :
    Except String (CommitState n) :=
  match fromRename with
  | [] => .ok s
  | inst :: _ =>
    let tid := inst.threadNumber
    if s.fixedbuffer tid ≠ [] then .error "assert(fixedbuffer[tid].empty())"
    else if fromRename.any (·.threadNumber ≠ tid) then .error "assert(inst->threadNumber == tid)"
    else .ok { s with
      fixedbuffer := Function.update s.fixedbuffer tid (fromRename.filter (!isSquashed ·)) }

def threadEntries (s : CommitState n) (tid : Fin n) : ℕ :=
  (s.rob.threadGroups tid).length

def block (robblock : Fin n → Bool) (s : CommitState n) (tid : Fin n) : Bool :=
  p.maxEntries n - s.threadEntries tid < (s.fixedbuffer tid).length || robblock tid

def active (robblock : Fin n → Bool) (s : CommitState n) (tid : Fin n) : Bool :=
  !s.block p robblock tid && !(s.fixedbuffer tid).isEmpty

/-- The loop that moves the buffer of `tid` into the reorder buffer. -/
def insertInsts (cycle : ℕ) (robblock : Bool) (isSquashed : RobInst n → Bool) (tid : Fin n) :
    List (RobInst n) → RobState n → Except String (RobState n)
  | [], r => .ok r
  | inst :: insts, r =>
    if isSquashed inst || robblock then insertInsts cycle robblock isSquashed tid insts r
    else
      match r.insertInst p.toRobParams cycle inst with
      | .error e => .error e
      | .ok r' =>
        if (r'.threadGroups tid).length ≤ p.maxEntries n then
          insertInsts cycle robblock isSquashed tid insts r'
        else .error "assert(rob->getThreadEntries(tid) <= rob->getMaxEntries(tid))"

def moveActive (cycle : ℕ) (robblock : Fin n → Bool) (isSquashed : RobInst n → Bool)
    (s : CommitState n) : Except String (CommitState n) :=
  match (List.finRange n).find? (s.active p robblock) with
  | none => .ok s
  | some tid =>
    match insertInsts p cycle (robblock tid) isSquashed tid (s.fixedbuffer tid) s.rob with
    | .error e => .error e
    | .ok r => .ok ⟨r, Function.update s.fixedbuffer tid []⟩

def moveInstsToBuffer (cycle : ℕ) (robblock : Fin n → Bool) (isSquashed : RobInst n → Bool)
    (fromRename : List (RobInst n)) (s : CommitState n) : Except String (CommitState n) :=
  (s.receive isSquashed fromRename).bind (moveActive p cycle robblock isSquashed)

def callRob (s : CommitState n) (c : RobCall n) : Except String (CommitState n) :=
  (s.rob.call p.toRobParams c).map fun r => { s with rob := r }

def step (s : CommitState n) : CommitEvent n → Except String (CommitState n)
  | .moveInstsToBuffer cycle robblock isSquashed fromRename =>
    s.moveInstsToBuffer p cycle robblock isSquashed fromRename
  | .clearBuffer tid => .ok { s with fixedbuffer := Function.update s.fixedbuffer tid [] }
  | .retireHead tid ready squashed => s.callRob p (.retireHead tid ready squashed)
  | .squash squashNum tid => s.callRob p (.squash squashNum tid)
  | .doSquash tid exiting => s.callRob p (.doSquash tid exiting)

/-- Some event leads from `s` to `t`. -/
def Steps (s t : CommitState n) : Prop :=
  ∃ e, s.step p e = .ok t

def numGroups (s : CommitState n) : ℕ :=
  ∑ tid, s.threadEntries tid

end CommitState

open CommitState in
/-- With `n` threads no run has more groups than entries, and none fails the bound of
`insertInst`. -/
def WithinCapacity (p : SmtRobParams) (n : ℕ) : Prop :=
  ∀ s : CommitState n, Relation.ReflTransGen (Steps p) start s →
    s.numGroups ≤ p.numEntries ∧
      ∀ cycle robblock isSquashed fromRename,
        s.moveInstsToBuffer p cycle robblock isSquashed fromRename ≠
          .error "assert(numInstsInROB <= numEntries * instsPerGroup)"

/-! ### Group counts -/

theorem commitGroup_length_le {gs gs' : List ℕ} (h : commitGroup gs = .ok gs') :
    gs'.length ≤ gs.length := by
  obtain ⟨g, rest, rfl, rfl⟩ := commitGroup_ok h
  split <;> simp

theorem squashGroup_length_le {gs gs' : List ℕ} (h : squashGroup gs = .ok gs') :
    gs'.length ≤ gs.length := by
  obtain ⟨init, g, rfl, rfl⟩ := squashGroup_ok h
  split <;> simp

theorem growGroup_length_le {b : ℕ} {alloc : Bool} {gs gs' : List ℕ}
    (h : growGroup b alloc gs = .ok gs') : gs'.length ≤ gs.length + 1 := by
  rcases growGroup_ok h with rfl | ⟨init, g, rfl, _, rfl⟩ <;> simp

theorem RobState.allocateNewGroup_of_ne {n : ℕ} (p : RobParams) {r : RobState n} {cycle : ℕ}
    (inst : RobInst n) (h : r.lastInsertCycle ≠ cycle) :
    r.allocateNewGroup p cycle inst = true := by
  unfold allocateNewGroup
  split
  · rfl
  · simp [allocateGroupKmhv2, h]
  · simp [allocateGroupMohBoE, h]
  · simp [allocateGroupKmhv3, h]

namespace RobState
variable {n : ℕ} {p : SmtRobParams} {r r' : RobState n}

/-- The accounting, and no thread has more than `m` groups. -/
structure BoundInv (p : RobParams) (m : ℕ) (r : RobState n) : Prop where
  groups : GroupInv p r
  length_le (tid : Fin n) : (r.threadGroups tid).length ≤ m

section
variable {p : RobParams} {m : ℕ} (hr : BoundInv p m r)
include hr

theorem BoundInv.shrink (h : RobShrink r r') : BoundInv p m r' := by
  refine ⟨hr.groups.shrink h, ?_⟩
  intro u
  have hu := hr.length_le u
  cases h with
  | @retire tid x rest gs hl hgs =>
    by_cases heq : u = tid
    · subst heq
      simp only [shrunk, update_self]
      exact (commitGroup_length_le hgs).trans hu
    · simpa only [shrunk, update_of_ne heq] using hu
  | @erase _ tid x before after gs hl hgs ht =>
    rw [ht]
    by_cases heq : u = tid
    · subst heq
      simp only [shrunk, update_self]
      exact (squashGroup_length_le hgs).trans hu
    · simpa only [shrunk, update_of_ne heq] using hu
  | aside ht =>
    rw [ht]
    exact hu

theorem BoundInv.shrinks (h : ReflTransGen RobShrink r r') : BoundInv p m r' := by
  induction h with
  | refl => exact hr
  | tail _ hstep ih => exact ih.shrink hstep

theorem BoundInv.sum_length_le
    (hm : n * m ≤ p.numEntries) : ∑ tid, (r.threadGroups tid).length ≤ p.numEntries := by
  have hsum := sum_le_card_nsmul Finset.univ (fun tid => (r.threadGroups tid).length) m
    fun tid _ => hr.length_le tid
  rw [card_univ, Fintype.card_fin, smul_eq_mul] at hsum
  exact hsum.trans hm
end

theorem GroupInv.numInsts_le {p : RobParams} (hr : GroupInv p r) :
    r.numInstsInROB ≤ (∑ tid, (r.threadGroups tid).length) * p.instsPerGroup := by
  rw [hr.num_eq, sum_mul]
  refine Finset.sum_le_sum fun tid _ => ?_
  rw [← hr.sum_eq tid]
  exact (hr.within tid).sum_le

theorem BoundInv.numInsts_le {p : RobParams} {m : ℕ} (hr : BoundInv p m r)
    (hm : n * m ≤ p.numEntries) : r.numInstsInROB ≤ p.numEntries * p.instsPerGroup :=
  hr.groups.numInsts_le.trans (Nat.mul_le_mul_right _ (hr.sum_length_le hm))

end RobState

namespace CommitState
open RobState (BoundInv GroupInv)
variable {n : ℕ} {p : SmtRobParams} {s t : CommitState n}

/-! ### The maxima fit together -/

structure CommitInv (p : SmtRobParams) (s : CommitState n) : Prop where
  bound : BoundInv p.toRobParams (p.maxEntries n) s.rob
  own (tid : Fin n) : ∀ inst ∈ s.fixedbuffer tid, inst.threadNumber = tid

theorem commitInv_start : CommitInv p (start : CommitState n) where
  bound := ⟨groupInv_start, fun _ => Nat.zero_le _⟩
  own _ _ h := absurd h not_mem_nil

theorem insertInsts_ok (hm : n * p.maxEntries n ≤ p.numEntries) (cycle : ℕ) (robblock : Bool)
    (isSquashed : RobInst n → Bool) {tid : Fin n} {insts : List (RobInst n)} {r : RobState n}
    (hr : BoundInv p.toRobParams (p.maxEntries n) r) (hown : ∀ i ∈ insts, i.threadNumber = tid)
    (hroom : (r.threadGroups tid).length + insts.length ≤ p.maxEntries n) :
    ∃ r', insertInsts p cycle robblock isSquashed tid insts r = .ok r' ∧
      BoundInv p.toRobParams (p.maxEntries n) r' := by
  induction insts generalizing r with
  | nil => exact ⟨r, rfl, hr⟩
  | cons inst insts ih =>
    rw [length_cons] at hroom
    have hown' : ∀ i ∈ insts, i.threadNumber = tid :=
      fun i hi => hown i (mem_cons_of_mem _ hi)
    rw [insertInsts]
    split
    · exact ih hr hown' (by omega)
    · obtain ⟨gs, hins, hgs⟩ := insertInst_of_le cycle inst (hr.numInsts_le hm)
      have htid : inst.threadNumber = tid := hown inst mem_cons_self
      have hlen := growGroup_length_le hgs
      rw [htid] at hlen
      -- only the groups of `tid` grow, by at most one
      have hgroups : (r.pushed cycle inst gs).threadGroups =
          update r.threadGroups tid gs := by
        rw [← htid]
        rfl
      have hself : ((r.pushed cycle inst gs).threadGroups tid).length = gs.length := by
        rw [hgroups, update_self]
      have hbound : BoundInv p.toRobParams (p.maxEntries n) (r.pushed cycle inst gs) := by
        refine ⟨hr.groups.insertInst hins, ?_⟩
        intro u
        by_cases hu : u = tid
        · subst hu
          omega
        · rw [hgroups, update_of_ne hu]
          exact hr.length_le u
      rw [hins]
      dsimp only
      rw [if_pos (by omega)]
      exact ih hbound hown' (by omega)

theorem own_update {f : Fin n → List (RobInst n)}
    (hf : ∀ tid, ∀ inst ∈ f tid, inst.threadNumber = tid) {tid : Fin n} {l : List (RobInst n)}
    (hl : ∀ inst ∈ l, inst.threadNumber = tid) (u : Fin n) :
    ∀ inst ∈ update f tid l u, inst.threadNumber = u := by
  by_cases hu : u = tid
  · subst hu
    rwa [update_self]
  · rw [update_of_ne hu]
    exact hf u

theorem receive_ok {isSquashed : RobInst n → Bool} {fromRename : List (RobInst n)}
    (hs : CommitInv p s) (h : s.receive isSquashed fromRename = .ok t) : CommitInv p t := by
  unfold receive at h
  split at h
  · cases h
    exact hs
  · dsimp only at h
    split_ifs at h with hne hall
    cases h
    refine ⟨hs.bound, own_update hs.own ?_⟩
    intro i hi
    by_contra hi'
    refine hall (any_eq_true.2 ⟨i, mem_of_mem_filter hi, ?_⟩)
    simpa using hi'

theorem active_iff {robblock : Fin n → Bool} {tid : Fin n} : s.active p robblock tid = true ↔
      (s.fixedbuffer tid).length ≤ p.maxEntries n - s.threadEntries tid ∧
        robblock tid = false ∧ s.fixedbuffer tid ≠ [] := by
  simp [active, block, and_assoc]

theorem moveActive_ok (hm : n * p.maxEntries n ≤ p.numEntries) (hs : CommitInv p s) (cycle : ℕ)
    (robblock : Fin n → Bool) (isSquashed : RobInst n → Bool) :
    ∃ t, s.moveActive p cycle robblock isSquashed = .ok t ∧ CommitInv p t := by
  unfold moveActive
  split
  · exact ⟨s, rfl, hs⟩
  · rename_i tid hfind
    have hactive : s.active p robblock tid = true := find?_some hfind
    have hle := hs.bound.length_le tid
    obtain ⟨hguard, _, _⟩ := active_iff.1 hactive
    have hroom :
        (s.rob.threadGroups tid).length + (s.fixedbuffer tid).length ≤ p.maxEntries n := by
      rw [threadEntries] at hguard
      omega
    obtain ⟨r, hr, hinv⟩ :=
      insertInsts_ok hm cycle (robblock tid) isSquashed hs.bound (hs.own tid) hroom
    refine ⟨⟨r, update s.fixedbuffer tid []⟩, by rw [hr], hinv, ?_⟩
    exact own_update hs.own (by simp)

theorem callRob_ok (hs : CommitInv p s) {c : RobCall n}
    (hc : ∀ cycle inst, c ≠ .insertInst cycle inst) (h : s.callRob p c = .ok t) :
    CommitInv p t := by
  unfold callRob at h
  cases hcall : s.rob.call p.toRobParams c with
  | error e =>
    rw [hcall] at h
    cases h
  | ok r =>
    rw [hcall] at h
    cases h
    rcases call_ok hcall with ⟨cycle, inst, hins, _⟩ | ⟨_, hshrinks⟩
    · exact absurd hins (hc cycle inst)
    · exact ⟨hs.bound.shrinks hshrinks, hs.own⟩

section
variable (hm : n * p.maxEntries n ≤ p.numEntries)
include hm

theorem step_inv (hs : CommitInv p s)
    {e : CommitEvent n} (h : s.step p e = .ok t) : CommitInv p t := by
  cases e with
  | moveInstsToBuffer cycle robblock isSquashed fromRename =>
    rw [step, moveInstsToBuffer] at h
    cases hrec : s.receive isSquashed fromRename with
    | error e =>
      rw [hrec] at h
      cases h
    | ok u =>
      rw [hrec] at h
      obtain ⟨v, hv, hinv⟩ := moveActive_ok hm (receive_ok hs hrec) cycle robblock isSquashed
      rw [Except.bind, hv] at h
      cases h
      exact hinv
  | clearBuffer tid =>
    cases h
    exact ⟨hs.bound, own_update hs.own (by simp)⟩
  | retireHead tid ready squashed => exact callRob_ok hs (by simp) h
  | squash squashNum tid => exact callRob_ok hs (by simp) h
  | doSquash tid exiting => exact callRob_ok hs (by simp) h

theorem commitInv_of_run (h : ReflTransGen (Steps p) start s) : CommitInv p s := by
  induction h with
  | refl => exact commitInv_start
  | tail _ hstep ih =>
    obtain ⟨e, he⟩ := hstep
    exact step_inv hm ih he

theorem moveInstsToBuffer_ne_error (hs : CommitInv p s)
    (cycle : ℕ) (robblock : Fin n → Bool) (isSquashed : RobInst n → Bool)
    (fromRename : List (RobInst n)) : s.moveInstsToBuffer p cycle robblock isSquashed fromRename ≠
      .error "assert(numInstsInROB <= numEntries * instsPerGroup)" := by
  intro h
  rw [moveInstsToBuffer] at h
  cases hrec : s.receive isSquashed fromRename with
  | error e =>
    rw [hrec] at h
    unfold receive at hrec
    split at hrec
    · cases hrec
    · dsimp only at hrec
      split_ifs at hrec <;> cases hrec <;> simp [Except.bind] at h
  | ok u =>
    rw [hrec] at h
    obtain ⟨v, hv, _⟩ := moveActive_ok hm (receive_ok hs hrec) cycle robblock isSquashed
    rw [Except.bind, hv] at h
    cases h

theorem withinCapacity_of_le : WithinCapacity p n := by
  intro s hrun
  have hinv := commitInv_of_run hm hrun
  exact ⟨hinv.bound.sum_length_le hm, moveInstsToBuffer_ne_error hm hinv⟩
end

/-! ### They do not -/

/-- The next instruction of `tid` arrives alone, in a cycle of its own. -/
def feed (s : CommitState n) (tid : Fin n) : CommitEvent n :=
  .moveInstsToBuffer (s.rob.lastInsertCycle + 1) (fun _ => false) (fun _ => false)
    [⟨s.rob.numInstsInROB + 1, tid, false, false, false, 0⟩]

theorem feed_ok {tid : Fin n} (hbuf : s.fixedbuffer = fun _ => [])
    (hnum : s.rob.numInstsInROB ≤ p.numEntries * p.instsPerGroup)
    (hroom : s.threadEntries tid < p.maxEntries n) :
    ∃ t, s.step p (s.feed tid) = .ok t ∧ t.fixedbuffer = (fun _ => []) ∧
      t.rob.numInstsInROB = s.rob.numInstsInROB + 1 ∧ t.rob.threadGroups =
        update s.rob.threadGroups tid (s.rob.threadGroups tid ++ [1]) := by
  obtain ⟨inst, hinst⟩ : ∃ inst : RobInst n,
      inst = ⟨s.rob.numInstsInROB + 1, tid, false, false, false, 0⟩ := ⟨_, rfl⟩
  have htid : inst.threadNumber = tid := by rw [hinst]
  obtain ⟨u, hu⟩ : ∃ u : CommitState n,
      u = { s with fixedbuffer := update s.fixedbuffer tid [inst] } := ⟨_, rfl⟩
  have hrec : s.receive (fun _ => false) [inst] = .ok u := by
    simp [receive, hbuf, htid, hu]
  -- `tid` is the only active thread
  have hactive : u.active p (fun _ => false) tid = true := by
    refine active_iff.2 ⟨?_, rfl, by simp [hu]⟩
    simp only [hu, update_self, length_singleton, threadEntries] at hroom ⊢
    omega
  have honly {v : Fin n} (hv : u.active p (fun _ => false) v = true) : v = tid := by
    by_contra hne
    exact (active_iff.1 hv).2.2 (by simp [hu, hne, hbuf])
  have hfind : (List.finRange n).find? (u.active p fun _ => false) = some tid := by
    cases hf : (List.finRange n).find? (u.active p fun _ => false) with
    | none => exact absurd hactive (find?_eq_none.1 hf tid (mem_finRange tid))
    | some v => rw [honly (find?_some hf)]
  obtain ⟨gs, hins, hgs⟩ := insertInst_of_le (s.rob.lastInsertCycle + 1) inst hnum
  have hgs' : gs = s.rob.threadGroups tid ++ [1] := by
    rw [allocateNewGroup_of_ne _ _ (Nat.succ_ne_self _).symm, htid] at hgs
    cases hgs
    rfl
  have hgroups : (s.rob.pushed (s.rob.lastInsertCycle + 1) inst gs).threadGroups =
      update s.rob.threadGroups tid (s.rob.threadGroups tid ++ [1]) := by
    rw [← hgs', ← htid]
    rfl
  refine ⟨⟨s.rob.pushed (s.rob.lastInsertCycle + 1) inst gs, fun _ => []⟩, ?_, rfl, rfl, hgroups⟩
  have hlen : ((s.rob.pushed (s.rob.lastInsertCycle + 1) inst gs).threadGroups tid).length ≤
      p.maxEntries n := by
    rw [hgroups, update_self, length_append, length_singleton]
    exact hroom
  have hempty : update u.fixedbuffer tid [] = fun _ => [] := by
    funext v
    by_cases hv : v = tid <;> simp [hu, hbuf, hv]
  rw [feed, step, moveInstsToBuffer, ← hinst, hrec]
  simp only [Except.bind, moveActive, hfind]
  have hbuf_tid : u.fixedbuffer tid = [inst] := by simp [hu]
  have hrob : u.rob = s.rob := by rw [hu]
  simp [hbuf_tid, hrob, insertInsts, hins, hlen, hempty]

theorem exists_numGroups (hm : p.numEntries < n * p.maxEntries n) {k : ℕ}
    (hk : k ≤ p.numEntries + 1) : ∃ s : CommitState n, ReflTransGen (Steps p) start s ∧
      s.fixedbuffer = (fun _ => []) ∧ s.rob.numInstsInROB = k ∧ s.numGroups = k := by
  induction k with
  | zero =>
    exact ⟨start, .refl, rfl, rfl, by simp [numGroups, threadEntries, start, RobState.start]⟩
  | succ k ih =>
    obtain ⟨s, hrun, hbuf, hnum, hgroups⟩ := ih (by omega)
    -- not every thread is at its maximum
    obtain ⟨tid, htid⟩ : ∃ tid, s.threadEntries tid < p.maxEntries n := by
      by_contra hall
      push Not at hall
      have hsum := card_nsmul_le_sum Finset.univ s.threadEntries (p.maxEntries n)
        fun tid _ => hall tid
      rw [card_univ, Fintype.card_fin, smul_eq_mul] at hsum
      change n * p.maxEntries n ≤ s.numGroups at hsum
      omega
    have hroom : s.rob.numInstsInROB ≤ p.numEntries * p.instsPerGroup := by
      have hle := Nat.mul_le_mul_left p.numEntries p.instsPerGroup_pos
      omega
    obtain ⟨t, hstep, hbuf', hnum', hgroups'⟩ := feed_ok hbuf hroom htid
    refine ⟨t, hrun.tail ⟨_, hstep⟩, hbuf', by rw [hnum', hnum], ?_⟩
    have hcount := sum_update_add Finset.univ (mem_univ tid) s.rob.threadGroups
      (s.rob.threadGroups tid ++ [1]) List.length
    rw [length_append, length_singleton, ← hgroups'] at hcount
    simp only [numGroups, threadEntries] at hgroups ⊢
    omega

end CommitState

section
def sharedRob : SmtRobParams where
  numEntries := 2
  instPerGroup := 1
  compressPolicy := .none
  walkPolicy := .Rollback
  squashWidth := 1
  constSquashCycle := 1
  instPerGroup_pos := le_rfl
  smtROBPolicy := .Dynamic
  smtROBThreshold := 0

end
end Gem5
