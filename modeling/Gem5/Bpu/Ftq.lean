import Mathlib.Tactic

/-!
# The fetch target queue

An instruction holds the number of its target in 32 bits, and `commit` and `handleSquash` take such
a number; the queue itself has 64 bits, which are not exhausted here.  `ℕ` stands for them.
-/

namespace Gem5
open List Function

structure FetchTargetEntry (β : Type) where
  targetId : ℕ
  target : β

structure TargetQueue (β : Type) where
  cap : List (FetchTargetEntry β)
  baseTargetId : ℕ
  fetchptr : ℕ

/-- What a 32-bit `unsigned` keeps of a target's number. -/
def toUnsigned (targetId : ℕ) : ℕ :=
  targetId % 2 ^ 32

theorem toUnsigned_le (targetId : ℕ) : toUnsigned targetId ≤ targetId := Nat.mod_le _ _

namespace TargetQueue
variable {β : Type}

def init : TargetQueue β :=
  ⟨[], 1, 1⟩

def backId (q : TargetQueue β) : ℕ :=
  q.baseTargetId + q.cap.length - 1

def hasTarget (q : TargetQueue β) (targetId : ℕ) : Bool :=
  decide (q.baseTargetId ≤ targetId) && decide (targetId < q.baseTargetId + q.cap.length)

def get (q : TargetQueue β) (targetId : ℕ) : Except String (FetchTargetEntry β) :=
  if q.hasTarget targetId then
    match q.cap[targetId - q.baseTargetId]? with
    | some e => .ok e
    | none => .error "targetId < queue[tid].baseTargetId + queue[tid].cap.size()"
  else .error "targetId >= queue[tid].baseTargetId"

def front (q : TargetQueue β) : Except String (FetchTargetEntry β) :=
  match q.cap.head? with
  | some e => .ok e
  | none => .error "front of an empty deque"

def back (q : TargetQueue β) : Except String (FetchTargetEntry β) :=
  match q.cap.getLast? with
  | some e => .ok e
  | none => .error "back of an empty deque"

def full (ftqSize : ℕ) (q : TargetQueue β) : Bool :=
  decide (ftqSize ≤ q.cap.length)

def insert (ftqSize : ℕ) (q : TargetQueue β) (e : FetchTargetEntry β) :
    Except String (TargetQueue β) :=
  if q.cap.length < ftqSize then .ok { q with cap := q.cap ++ [e] }
  else .error "queue[tid].cap.size() < ftqSize[tid]"

def finishTarget (q : TargetQueue β) : TargetQueue β :=
  { q with fetchptr := q.fetchptr + 1 }

def commitTarget (q : TargetQueue β) : TargetQueue β :=
  { q with cap := q.cap.tail, baseTargetId := q.baseTargetId + 1 }

/-- The loop of `squashAfter`; it runs at most once for each target. -/
def popBack (squashId : ℕ) : ℕ → TargetQueue β → TargetQueue β
  | 0, q => q
  | n + 1, q =>
    if !q.cap.isEmpty && decide (squashId < q.backId) then
      popBack squashId n { q with cap := q.cap.dropLast }
    else q

def squashAfter (q : TargetQueue β) (squashId : ℕ) : TargetQueue β :=
  { popBack squashId q.cap.length q with fetchptr := squashId + 1 }

/-- The loop of `DecoupledBPUWithBTB::commit`. -/
def commitLoop (targetId : ℕ) : ℕ → TargetQueue β → Except String (TargetQueue β)
  | 0, q => .ok q
  | n + 1, q =>
    if !q.cap.isEmpty && decide (q.baseTargetId ≤ targetId) then do
      let _ ← q.front
      commitLoop targetId n q.commitTarget
    else .ok q

def commit (q : TargetQueue β) (targetId : ℕ) : Except String (TargetQueue β) :=
  if q.cap.isEmpty then .ok q else commitLoop (toUnsigned targetId) q.cap.length q

def commitInst (q : TargetQueue β) (targetId : ℕ) : Except String (TargetQueue β) :=
  if 1 < toUnsigned targetId then q.commit (toUnsigned targetId - 1) else .ok q

def modify (q : TargetQueue β) (targetId : ℕ) (mark : β → β) : TargetQueue β where
  cap := q.cap.modify (targetId - q.baseTargetId) fun e => { e with target := mark e.target }
  baseTargetId := q.baseTargetId
  fetchptr := q.fetchptr

/-- `consumeFetchTarget`; `mark` sets the number of fetched instructions. -/
def consumeFetchTarget (q : TargetQueue β) (mark : β → β) : Except String (TargetQueue β) := do
  let _ ← q.get q.fetchptr
  return (q.modify q.fetchptr mark).finishTarget

/-- `handleSquash`; `mark` sets the outcome of the branch. -/
def handleSquash (q : TargetQueue β) (targetId : ℕ) (mark : β → β) :
    Except String (TargetQueue β) :=
  if q.hasTarget (toUnsigned targetId) then do
    let _ ← q.get (toUnsigned targetId)
    return (q.modify (toUnsigned targetId) mark).squashAfter (toUnsigned targetId)
  else if q.cap.isEmpty then .error "!ftq.empty(tid)"
  else .ok q

/-- `processNewPrediction` gives the next number to the new target. -/
def processNewPrediction (ftqSize : ℕ) (q : TargetQueue β) (target : β) :
    Except String (TargetQueue β) :=
  if q.full ftqSize then .ok q else q.insert ftqSize ⟨q.backId + 1, target⟩

def previousBlock (q : TargetQueue β) : Except String (Option β) :=
  if q.backId ≠ 0 then return some (← q.back).target else return none

/-! ### The loops -/

theorem hasTarget_iff (q : TargetQueue β) (i : ℕ) :
    q.hasTarget i = true ↔ q.baseTargetId ≤ i ∧ i < q.baseTargetId + q.cap.length := by
  rw [hasTarget, Bool.and_eq_true, decide_eq_true_iff, decide_eq_true_iff]

section
variable {q : TargetQueue β}

theorem get_ok {i : ℕ} (h : q.hasTarget i = true) :
    ∃ e, q.get i = .ok e ∧ q.cap[i - q.baseTargetId]? = some e := by
  have hlt : i - q.baseTargetId < q.cap.length := by
    have := (q.hasTarget_iff i).mp h
    omega
  refine ⟨q.cap[i - q.baseTargetId], ?_, getElem?_eq_getElem hlt⟩
  rw [get, if_pos h, getElem?_eq_getElem hlt]

theorem front_ok (h : q.cap ≠ []) : ∃ e, q.front = .ok e := by
  cases hcap : q.cap with
  | nil => exact absurd hcap h
  | cons e es => exact ⟨e, by rw [front, hcap]; rfl⟩

theorem back_ok (h : q.cap ≠ []) : ∃ e, q.back = .ok e := by
  refine ⟨q.cap.getLast h, ?_⟩
  rw [back, getLast?_eq_some_getLast h]
end

theorem popBack_eq (squashId n : ℕ) (q : TargetQueue β) (hn : q.cap.length ≤ n)
    (hbase : q.baseTargetId ≤ squashId) :
    popBack squashId n q = { q with cap := q.cap.take (squashId + 1 - q.baseTargetId) } := by
  induction n generalizing q with
  | zero =>
    obtain ⟨cap, base, fetchptr⟩ := q
    obtain rfl : cap = [] := eq_nil_of_length_eq_zero (Nat.le_zero.mp hn)
    simp only [popBack, take_nil]
  | succ n ih =>
    rw [popBack]
    by_cases hstop : (!q.cap.isEmpty && decide (squashId < q.backId)) = true
    · rw [if_pos hstop]
      rw [Bool.and_eq_true, decide_eq_true_iff, backId] at hstop
      rw [ih { q with cap := q.cap.dropLast } (by rw [length_dropLast]; omega) hbase]
      dsimp only
      rw [dropLast_eq_take, take_take, Nat.min_eq_left (by omega)]
    · -- the youngest target is not younger than the squash
      rw [if_neg hstop]
      have hshort : q.cap.length ≤ squashId + 1 - q.baseTargetId := by
        rw [Bool.and_eq_true, decide_eq_true_iff, backId, not_and_or] at hstop
        rcases hstop with hempty | hle
        · rw [Bool.not_eq_true', Bool.not_eq_false, List.isEmpty_iff] at hempty
          rw [hempty]
          exact Nat.zero_le _
        · omega
      rw [take_of_length_le hshort]

theorem squashAfter_eq (q : TargetQueue β) {squashId : ℕ} (h : q.baseTargetId ≤ squashId) :
    q.squashAfter squashId =
      ⟨q.cap.take (squashId + 1 - q.baseTargetId), q.baseTargetId, squashId + 1⟩ := by
  rw [squashAfter, popBack_eq squashId _ q le_rfl h]

theorem commitLoop_ok (targetId n : ℕ) (q : TargetQueue β) (hn : targetId + 1 - q.baseTargetId ≤ n)
    (hlen : targetId + 1 - q.baseTargetId ≤ q.cap.length) : commitLoop targetId n q = .ok { q with
        cap := q.cap.drop (targetId + 1 - q.baseTargetId)
        baseTargetId := q.baseTargetId + (targetId + 1 - q.baseTargetId) } := by
  induction n generalizing q with
  | zero =>
    obtain ⟨cap, base, fetchptr⟩ := q
    simp only [Nat.le_zero.mp hn]
    rfl
  | succ n ih =>
    rw [commitLoop]
    by_cases hbase : q.baseTargetId ≤ targetId
    · have hne : q.cap ≠ [] := by
        rintro hnil
        rw [hnil, length_nil] at hlen
        omega
      obtain ⟨e, he⟩ := front_ok hne
      rw [if_pos (by simp [hne, hbase]), he]
      have hcut : targetId + 1 - q.baseTargetId = targetId + 1 - (q.baseTargetId + 1) + 1 := by
        omega
      show commitLoop targetId n q.commitTarget = _
      rw [ih q.commitTarget]
      · simp only [commitTarget, drop_tail, hcut, Except.ok.injEq, mk.injEq, true_and, and_true]
        omega
      · simp only [commitTarget]
        omega
      · simp only [commitTarget, length_tail]
        omega
    · rw [if_neg (by simp [hbase])]
      have hzero : targetId + 1 - q.baseTargetId = 0 := by omega
      simp only [hzero, drop_zero, Nat.add_zero]

theorem commit_ok (q : TargetQueue β) {targetId : ℕ}
    (h : toUnsigned targetId + 1 - q.baseTargetId ≤ q.cap.length) : q.commit targetId = .ok { q with
        cap := q.cap.drop (toUnsigned targetId + 1 - q.baseTargetId)
        baseTargetId := q.baseTargetId + (toUnsigned targetId + 1 - q.baseTargetId) } := by
  unfold commit
  by_cases hempty : q.cap.isEmpty = true
  · have hnil := List.isEmpty_iff.mp hempty
    rw [if_pos hempty]
    rw [hnil, length_nil] at h
    simp only [Nat.le_zero.mp h, drop_zero, Nat.add_zero]
  · rw [if_neg hempty]
    exact commitLoop_ok _ _ q h h

/-! ### The protocol of one thread -/

structure Ok (ftqSize : ℕ) (q : TargetQueue β) : Prop where
  base_pos : 1 ≤ q.baseTargetId
  contiguous : ∀ k e, q.cap[k]? = some e → e.targetId = q.baseTargetId + k
  base_le : q.baseTargetId ≤ q.fetchptr
  le_end : q.fetchptr ≤ q.baseTargetId + q.cap.length
  size_le : q.cap.length ≤ ftqSize
  fresh : q.cap = [] → q.baseTargetId = 1

variable {ftqSize : ℕ} {q : TargetQueue β}

theorem init_ok (ftqSize : ℕ) : (init : TargetQueue β).Ok ftqSize where
  base_pos := le_rfl
  contiguous k e h := by cases h
  base_le := le_rfl
  le_end := le_rfl
  size_le := Nat.zero_le _
  fresh _ := rfl

inductive FtqEvent (β : Type)
  | insert (target : β)
  | finish (mark : β → β)
  | commit (targetId : ℕ)
  | squash (targetId : ℕ) (mark : β → β)

/-- When it happens: a prediction is inserted if there is room, fetch finishes the target that it is
at if it is there, an instruction of a target that fetch has reached commits or squashes. -/
def Allowed (ftqSize : ℕ) (q : TargetQueue β) : FtqEvent β → Prop
  | .insert _ => q.full ftqSize = false
  | .finish _ => q.hasTarget q.fetchptr = true
  | .commit f => q.baseTargetId ≤ f ∧ f ≤ q.fetchptr ∧ q.hasTarget f = true
  | .squash t _ => q.hasTarget t = true ∧ t ≤ q.fetchptr

def step (ftqSize : ℕ) (q : TargetQueue β) : FtqEvent β → Except String (TargetQueue β)
  | .insert target => q.processNewPrediction ftqSize target
  | .finish mark => q.consumeFetchTarget mark
  | .commit f => q.commitInst f
  | .squash t mark => q.handleSquash t mark

section
variable (hq : q.Ok ftqSize)
include hq

theorem modify_ok (i : ℕ) (mark : β → β) : (q.modify i mark).Ok ftqSize where
  base_pos := hq.base_pos
  contiguous k e he := by
    rw [modify, getElem?_modify] at he
    obtain ⟨e', he', rfl⟩ := Option.map_eq_some_iff.mp he
    have hid := hq.contiguous k e' he'
    split_ifs <;> exact hid
  base_le := hq.base_le
  le_end := by
    simp only [modify, length_modify]
    exact hq.le_end
  size_le := by
    simp only [modify, length_modify]
    exact hq.size_le
  fresh hnil := by
    apply hq.fresh
    apply eq_nil_of_length_eq_zero
    have hlen := congrArg List.length hnil
    simpa only [modify, length_modify, length_nil] using hlen

theorem insert_ok (target : β) (hfull : q.full ftqSize = false) :
    ∃ q', q.processNewPrediction ftqSize target = .ok q' ∧ q'.Ok ftqSize ∧ q'.cap ≠ [] := by
  have hlt : q.cap.length < ftqSize := by
    simpa [full] using hfull
  refine ⟨_, by rw [processNewPrediction, hfull, if_neg (by simp), insert, if_pos hlt], ?_, by simp⟩
  refine ⟨hq.base_pos, ?_, hq.base_le, ?_, ?_, fun h => by simp at h⟩
  · intro k e he
    rcases Nat.lt_trichotomy k q.cap.length with hlt | heq | hgt
    · rw [getElem?_append_left hlt] at he
      exact hq.contiguous k e he
    · -- the new target is the next one after the youngest
      rw [heq, getElem?_concat_length, Option.some.injEq] at he
      have := hq.base_pos
      rw [← he, backId]
      dsimp only
      omega
    · rw [getElem?_eq_none (by simp; omega)] at he
      cases he
  · have := hq.le_end
    simp only [length_append]
    omega
  · simp only [length_append, length_singleton]
    omega

theorem finish_ok (mark : β → β) (h : q.hasTarget q.fetchptr = true) :
    ∃ q', q.consumeFetchTarget mark = .ok q' ∧ q'.Ok ftqSize ∧ q'.cap.length = q.cap.length := by
  obtain ⟨e, he, -⟩ := get_ok h
  have hmod := modify_ok hq q.fetchptr mark
  refine ⟨(q.modify q.fetchptr mark).finishTarget, by rw [consumeFetchTarget, he]; rfl, ?_,
    length_modify _ _ _⟩
  refine ⟨hmod.base_pos, hmod.contiguous, Nat.le_succ_of_le hmod.base_le, ?_, hmod.size_le,
    hmod.fresh⟩
  have hlt := ((q.hasTarget_iff _).mp h).2
  simp only [finishTarget, modify, length_modify]
  omega

theorem drop_ok {n : ℕ} (hn : n < q.cap.length) (hfetch : q.baseTargetId + n ≤ q.fetchptr) :
    ({ q with cap := q.cap.drop n, baseTargetId := q.baseTargetId + n } : TargetQueue β).Ok
      ftqSize where
  base_pos := Nat.le_add_right_of_le hq.base_pos
  contiguous k e he := by
    dsimp only at he ⊢
    rw [getElem?_drop] at he
    have := hq.contiguous (n + k) e he
    omega
  base_le := hfetch
  le_end := by
    have := hq.le_end
    simp only [length_drop]
    omega
  size_le := by
    have := hq.size_le
    simp only [length_drop]
    omega
  fresh hnil := by
    have := drop_eq_nil_iff.mp hnil
    omega

theorem commitInst_ok {f : ℕ} (hbase : q.baseTargetId ≤ f)
    (hfetch : f ≤ q.fetchptr) (hthere : q.hasTarget f = true) :
    ∃ q', q.commitInst f = .ok q' ∧ q'.Ok ftqSize ∧ q'.cap ≠ [] := by
  have hend := ((q.hasTarget_iff f).mp hthere).2
  have hne : q.cap ≠ [] := by
    rintro hnil
    rw [hnil, length_nil] at hend
    omega
  unfold commitInst
  by_cases hone : 1 < toUnsigned f
  · rw [if_pos hone]
    -- the number that is passed on is less than the one of the target, also if it was cut
    have hcut : toUnsigned (toUnsigned f - 1) + 1 ≤ f := by
      have h1 := toUnsigned_le (toUnsigned f - 1)
      have h2 := toUnsigned_le f
      omega
    have hn : toUnsigned (toUnsigned f - 1) + 1 - q.baseTargetId < q.cap.length := by
      omega
    refine ⟨_, commit_ok q hn.le, drop_ok hq hn (by omega), ?_⟩
    rw [ne_eq, drop_eq_nil_iff]
    omega
  · exact ⟨q, by rw [if_neg hone], hq, hne⟩

theorem squashAfter_ok {t : ℕ} (hthere : q.hasTarget t = true) :
    (q.squashAfter t).Ok ftqSize ∧ (q.squashAfter t).cap ≠ [] := by
  obtain ⟨hbase, hend⟩ := (q.hasTarget_iff t).mp hthere
  rw [squashAfter_eq q hbase]
  have hlen : (q.cap.take (t + 1 - q.baseTargetId)).length = t + 1 - q.baseTargetId := by
    rw [length_take]
    omega
  have hne : q.cap.take (t + 1 - q.baseTargetId) ≠ [] := by
    rintro hnil
    rw [hnil, length_nil] at hlen
    omega
  refine ⟨⟨hq.base_pos, ?_, by dsimp only; omega, by dsimp only; omega, ?_,
    fun hnil => absurd hnil hne⟩, hne⟩
  · intro k e he
    rw [getElem?_take] at he
    split_ifs at he
    exact hq.contiguous k e he
  · have := hq.size_le
    dsimp only
    omega

theorem handleSquash_ok {t : ℕ} (mark : β → β) (hthere : q.hasTarget t = true) :
    ∃ q', q.handleSquash t mark = .ok q' ∧ q'.Ok ftqSize ∧ q'.cap ≠ [] := by
  unfold handleSquash
  by_cases hcut : q.hasTarget (toUnsigned t) = true
  · obtain ⟨e, he, -⟩ := get_ok hcut
    rw [if_pos hcut, he]
    have hmod : (q.modify (toUnsigned t) mark).hasTarget (toUnsigned t) = true := by
      rw [hasTarget_iff] at hcut ⊢
      simp only [modify, length_modify]
      exact hcut
    obtain ⟨hok, hne⟩ := squashAfter_ok (modify_ok hq (toUnsigned t) mark) hmod
    exact ⟨_, rfl, hok, hne⟩
  · -- the number was cut, and names no target
    have hne : q.cap ≠ [] := by
      rintro hnil
      have := (q.hasTarget_iff t).mp hthere
      rw [hnil, length_nil] at this
      omega
    exact ⟨q, by rw [if_neg hcut, if_neg (by simpa using hne)], hq, hne⟩

theorem step_ok {e : FtqEvent β} (he : q.Allowed ftqSize e) :
    ∃ q', q.step ftqSize e = .ok q' ∧ q'.Ok ftqSize ∧
      ((q.cap ≠ [] ∨ ∃ target, e = .insert target) → q'.cap ≠ []) := by
  cases e with
  | insert target =>
    obtain ⟨q', h, hok, hne⟩ := insert_ok hq target he
    exact ⟨q', h, hok, fun _ => hne⟩
  | finish mark =>
    obtain ⟨q', h, hok, hlen⟩ := finish_ok hq mark he
    refine ⟨q', h, hok, ?_⟩
    rintro (hne | ⟨target, htarget⟩)
    · rwa [ne_eq, ← length_eq_zero_iff, hlen, length_eq_zero_iff]
    · cases htarget
  | commit f =>
    obtain ⟨q', h, hok, hne⟩ := commitInst_ok hq he.1 he.2.1 he.2.2
    exact ⟨q', h, hok, fun _ => hne⟩
  | squash t mark =>
    obtain ⟨q', h, hok, hne⟩ := handleSquash_ok hq mark he.1
    exact ⟨q', h, hok, fun _ => hne⟩

theorem previousBlock_ok : ∃ o, q.previousBlock = .ok o := by
  unfold previousBlock
  by_cases hback : q.backId ≠ 0
  · have hne : q.cap ≠ [] := by
      intro hnil
      apply hback
      rw [backId, hq.fresh hnil, hnil, length_nil]
    obtain ⟨e, he⟩ := back_ok hne
    exact ⟨some e.target, by rw [if_pos hback, he]; rfl⟩
  · exact ⟨none, by rw [if_neg hback]; rfl⟩
end
end TargetQueue

/-! ### All threads -/

/-- The queues of all threads; each may hold `ftqSize` targets. -/
structure FetchTargetQueue (β : Type) where
  numThreads : ℕ
  ftqSize : ℕ
  queue : ℕ → TargetQueue β
  roundRobinPtr : ℕ

namespace FetchTargetQueue
variable {β : Type}

open TargetQueue

def new (numThreads ftqSize : ℕ) : FetchTargetQueue β :=
  ⟨numThreads, ftqSize, fun _ => TargetQueue.init, 0⟩

/-- The loop of `getTargetTid` over the threads, from `roundRobinPtr` on. -/
def findTarget (s : FetchTargetQueue β) :
    List ℕ → Except String (Option ℕ × FetchTargetQueue β)
  | [] => .ok (none, s)
  | i :: rest =>
    let tid := i % s.numThreads
    if !(s.queue tid).cap.isEmpty && (s.queue tid).hasTarget (s.queue tid).fetchptr then do
      let _ ← (s.queue tid).get (s.queue tid).fetchptr
      return (some tid, { s with roundRobinPtr := (tid + 1) % s.numThreads })
    else s.findTarget rest

def getTargetTid (s : FetchTargetQueue β) : Except String (Option ℕ × FetchTargetQueue β) :=
  s.findTarget (List.range' s.roundRobinPtr s.numThreads)

def step (s : FetchTargetQueue β) (tid : ℕ) (e : FtqEvent β) :
    Except String (FetchTargetQueue β) := do
  let q ← (s.queue tid).step s.ftqSize e
  return { s with queue := Function.update s.queue tid q }

/-- Steps of the threads, in any order, each when it may happen; `events` has the latest first. -/
inductive Run (numThreads ftqSize : ℕ) : List (ℕ × FtqEvent β) → FetchTargetQueue β → Prop
  | nil : Run numThreads ftqSize [] (new numThreads ftqSize)
  | step {events : List (ℕ × FtqEvent β)} {s t : FetchTargetQueue β} {tid : ℕ} {e : FtqEvent β} :
      Run numThreads ftqSize events s → (s.queue tid).Allowed s.ftqSize e → s.step tid e = .ok t →
      Run numThreads ftqSize ((tid, e) :: events) t
  | choose {events : List (ℕ × FtqEvent β)} {s t : FetchTargetQueue β} {o : Option ℕ} :
      Run numThreads ftqSize events s → s.getTargetTid = .ok (o, t) →
      Run numThreads ftqSize events t

theorem findTarget_ok (s : FetchTargetQueue β) (l : List ℕ) :
    ∃ o t, s.findTarget l = .ok (o, t) ∧ t.queue = s.queue ∧ t.ftqSize = s.ftqSize := by
  induction l with
  | nil => exact ⟨none, s, rfl, rfl, rfl⟩
  | cons i rest ih =>
    rw [findTarget]
    by_cases hthere : (!(s.queue (i % s.numThreads)).cap.isEmpty &&
        (s.queue (i % s.numThreads)).hasTarget (s.queue (i % s.numThreads)).fetchptr) = true
    · obtain ⟨e, he, -⟩ := get_ok (Bool.and_eq_true _ _ ▸ hthere).2
      simp only [hthere, he]
      exact ⟨_, _, rfl, rfl, rfl⟩
    · simp only [if_neg hthere]
      exact ih

theorem step_allowed (s : FetchTargetQueue β) {tid : ℕ} {e : FtqEvent β}
    (hok : (s.queue tid).Ok s.ftqSize) (he : (s.queue tid).Allowed s.ftqSize e) :
    ∃ q, s.step tid e = .ok { s with queue := update s.queue tid q } ∧ q.Ok s.ftqSize ∧
      (((s.queue tid).cap ≠ [] ∨ ∃ target, e = .insert target) → q.cap ≠ []) := by
  obtain ⟨q, hstep, hq, hne⟩ := TargetQueue.step_ok hok he
  exact ⟨q, by rw [step, hstep]; rfl, hq, hne⟩

theorem Run.inv {numThreads ftqSize : ℕ} {events : List (ℕ × FtqEvent β)}
    {s : FetchTargetQueue β} (h : Run numThreads ftqSize events s) :
    s.ftqSize = ftqSize ∧ ∀ tid, (s.queue tid).Ok ftqSize ∧
      ((∃ target, (tid, .insert target) ∈ events) → (s.queue tid).cap ≠ []) := by
  induction h with
  | nil => exact ⟨rfl, fun tid => ⟨init_ok ftqSize, by rintro ⟨target, htarget⟩; cases htarget⟩⟩
  | @step events s t tid e _ he hstep ih =>
    obtain ⟨hsize, hinv⟩ := ih
    rw [hsize] at he
    obtain ⟨q, hq, hok, hne⟩ := s.step_allowed (hsize ▸ (hinv tid).1) (hsize ▸ he)
    obtain rfl := Except.ok.inj (hq.symm.trans hstep)
    refine ⟨hsize, fun tid' => ?_⟩
    by_cases htid : tid' = tid
    · subst htid
      dsimp only
      rw [update_self]
      refine ⟨hsize ▸ hok, fun hinserted => hne ?_⟩
      obtain ⟨target, htarget⟩ := hinserted
      rcases mem_cons.mp htarget with hnow | hearlier
      · exact .inr ⟨target, (Prod.mk.inj hnow).2.symm⟩
      · exact .inl ((hinv tid').2 ⟨target, hearlier⟩)
    · dsimp only
      rw [update_of_ne htid]
      refine ⟨(hinv tid').1, fun hinserted => (hinv tid').2 ?_⟩
      obtain ⟨target, htarget⟩ := hinserted
      rcases mem_cons.mp htarget with hnow | hearlier
      · exact absurd (Prod.mk.inj hnow).1 htid
      · exact ⟨target, hearlier⟩
  | @choose events s t o _ hget ih =>
    obtain ⟨o', t', hfind, hqueue, hsize⟩ :=
      s.findTarget_ok (List.range' s.roundRobinPtr s.numThreads)
    obtain ⟨-, rfl⟩ := Prod.mk.inj (Except.ok.inj (hfind.symm.trans hget))
    rw [hqueue, hsize]
    exact ih

/-- After any steps: the targets of each thread have successive numbers from the base on, fetch is
between the base and the end, the queue is not longer than it may be and not empty once a target has
been inserted, the youngest target is there if it has a number, and every step that may happen
succeeds, so that no target is asked for that is not there. -/
theorem run_ok (numThreads ftqSize : ℕ) (events : List (ℕ × FtqEvent β)) (s : FetchTargetQueue β)
    (h : Run numThreads ftqSize events s) :
    (∀ tid, (s.queue tid).Ok ftqSize ∧
      ((∃ target, (tid, .insert target) ∈ events) → (s.queue tid).cap ≠ []) ∧
      (∃ o, (s.queue tid).previousBlock = .ok o) ∧
      ∀ e, (s.queue tid).Allowed s.ftqSize e → ∃ t, s.step tid e = .ok t) ∧
    ∃ o t, s.getTargetTid = .ok (o, t) := by
  obtain ⟨hsize, hinv⟩ := h.inv
  refine ⟨fun tid => ⟨(hinv tid).1, (hinv tid).2, previousBlock_ok (hinv tid).1, ?_⟩, ?_⟩
  · intro e he
    obtain ⟨q, hq, -⟩ := s.step_allowed (hsize ▸ (hinv tid).1) he
    exact ⟨_, hq⟩
  · obtain ⟨o, t, hfind, -⟩ := s.findTarget_ok (List.range' s.roundRobinPtr s.numThreads)
    exact ⟨o, t, hfind⟩

/-- A prediction is inserted, and fetched. -/
theorem run_fetched :
    ∃ s : FetchTargetQueue Bool,
      Run 1 2 [(0, .finish id), (0, .insert true)] s ∧ (s.queue 0).cap ≠ [] := by
  have hrun : Run 1 2 [(0, .finish id), (0, .insert true)] _ :=
    .step (.step .nil (by rfl) rfl) (by rfl) rfl
  exact ⟨_, hrun, ((run_ok 1 2 _ _ hrun).1 0).2.1 ⟨true, by simp⟩⟩

end FetchTargetQueue
end Gem5
