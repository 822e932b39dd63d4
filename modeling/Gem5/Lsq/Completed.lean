import Mathlib.Tactic

/-!
# The completed indices of the load and store queues

Both queues are rings: an index addresses the slot with its remainder modulo the capacity.  The
completed index of a queue says up to where its entries are finished; `updateCompletedIdx` moves it
on slot by slot, and a squash takes it back.

Indices begin at one and have 64 bits, which are not exhausted here.
-/

namespace Gem5
open List Function Nat Option

/-! ### The ring -/

/-- `CircularQueue`, for entries that can be cleared. -/
structure CircularQueue (α : Type) where
  data : ℕ → Option α
  capacity : ℕ
  head : ℕ
  size : ℕ

namespace CircularQueue
variable {α : Type}

def new (capacity : ℕ) : CircularQueue α :=
  ⟨fun _ => none, capacity, 1, 0⟩

def tail (q : CircularQueue α) : ℕ :=
  q.head + q.size - 1

def slot (q : CircularQueue α) (idx : ℕ) : Option α :=
  q.data (idx % q.capacity)

def isValidIdx (q : CircularQueue α) (idx : ℕ) : Bool :=
  decide (q.head ≤ idx) && decide (idx < q.head + q.size)

def full (q : CircularQueue α) : Bool :=
  q.size == q.capacity

def setSlot (q : CircularQueue α) (idx : ℕ) (x : Option α) : CircularQueue α :=
  { q with data := Function.update q.data (idx % q.capacity) x }

/-- `advance_tail` of a queue that is not full, and `set` of the entry there. -/
def pushBack (q : CircularQueue α) (x : α) : CircularQueue α :=
  { q.setSlot (q.tail + 1) (some x) with size := q.size + 1 }

/-- `clear` of the first entry, and `pop_front`. -/
def popFront (q : CircularQueue α) : CircularQueue α :=
  { q.setSlot q.head none with head := q.head + 1, size := q.size - 1 }

/-- `clear` of the last entry, and `pop_back`. -/
def popBack (q : CircularQueue α) : CircularQueue α :=
  { q.setSlot q.tail none with size := q.size - 1 }

structure Holds (q : CircularQueue α) (l : List α) : Prop where
  size_eq : q.size = l.length
  size_le : q.size ≤ q.capacity
  head_pos : 1 ≤ q.head
  entries : ∀ i < q.capacity, q.data ((q.head + i) % q.capacity) = l[i]?

variable {q : CircularQueue α} {l : List α}

theorem new_holds (capacity : ℕ) : (new capacity : CircularQueue α).Holds [] :=
  ⟨rfl, Nat.zero_le _, le_rfl, fun _ _ => rfl⟩

theorem offset_inj {head capacity i j : ℕ} (hi : i < capacity) (hj : j < capacity)
    (h : (head + i) % capacity = (head + j) % capacity) : i = j := by
  have hmod : i % capacity = j % capacity := ModEq.add_left_cancel' head h
  rwa [mod_eq_of_lt hi, mod_eq_of_lt hj] at hmod

theorem Holds.slot_eq (h : q.Holds l) {idx : ℕ} (hidx : q.head ≤ idx) (hcap : 0 < q.capacity) :
    q.slot idx = l[(idx - q.head) % q.capacity]? := by
  rw [← h.entries _ (mod_lt _ hcap), slot, add_mod_mod, Nat.add_sub_cancel' hidx]

theorem Holds.slot_of_lt (h : q.Holds l) {i : ℕ} (hi : i < l.length) :
    q.slot (q.head + i) = l[i]? := by
  have hlt : i < q.capacity := hi.trans_le (h.size_eq ▸ h.size_le)
  rw [h.slot_eq (Nat.le_add_right _ _) (zero_lt_of_lt hlt), Nat.add_sub_cancel_left,
    mod_eq_of_lt hlt]

theorem Holds.pushBack (h : q.Holds l) (hfull : q.size < q.capacity) (x : α) :
    (q.pushBack x).Holds (l ++ [x]) := by
  have hpos := h.head_pos
  refine ⟨?_, hfull, h.head_pos, fun i hi => ?_⟩
  · simp only [CircularQueue.pushBack, length_append, length_singleton, h.size_eq]
  · show update q.data ((q.tail + 1) % q.capacity) (some x)
      ((q.head + i) % q.capacity) = (l ++ [x])[i]?
    have htail : q.tail + 1 = q.head + q.size := by
      rw [tail]
      omega
    have hlt : i < q.capacity := hi
    rw [htail]
    by_cases hi' : i = q.size
    · rw [hi', update_self, h.size_eq, getElem?_concat_length]
    · rw [update_of_ne (fun heq => hi' (offset_inj hlt hfull heq)), h.entries i hlt]
      rcases Nat.lt_or_gt_of_ne hi' with hlt | hgt
      · rw [getElem?_append_left (h.size_eq ▸ hlt)]
      · have hsize := h.size_eq
        rw [getElem?_eq_none (by omega), getElem?_eq_none (by simp; omega)]

theorem Holds.popFront {x : α} (h : q.Holds (x :: l)) : q.popFront.Holds l := by
  have hsize := h.size_eq
  rw [length_cons] at hsize
  have hle := h.size_le
  refine ⟨?_, (sub_le _ _).trans hle, Nat.le_add_left _ _, fun i hi => ?_⟩
  · simp only [CircularQueue.popFront]
    omega
  · show update q.data (q.head % q.capacity) none ((q.head + 1 + i) % q.capacity) = l[i]?
    have hi' : i < q.capacity := hi
    rw [Nat.add_assoc, Nat.add_comm 1 i]
    by_cases hlast : i + 1 = q.capacity
    · -- the slot of the old head is the one after the longest possible queue
      rw [hlast, add_mod_right, update_self, getElem?_eq_none (by omega)]
    · have hlt : i + 1 < q.capacity := by omega
      have hne : (q.head + (i + 1)) % q.capacity ≠ q.head % q.capacity := by
        intro heq
        have hzero : 0 < q.capacity := by omega
        exact succ_ne_zero i (offset_inj hlt hzero heq)
      rw [update_of_ne hne, h.entries (i + 1) hlt, getElem?_cons_succ]

theorem Holds.popBack {x : α} (h : q.Holds (l ++ [x])) : q.popBack.Holds l := by
  have hsize := h.size_eq
  rw [length_append, length_singleton] at hsize
  have hle := h.size_le
  have hpos := h.head_pos
  refine ⟨?_, (sub_le _ _).trans hle, hpos, fun i hi => ?_⟩
  · simp only [CircularQueue.popBack]
    omega
  · show update q.data (q.tail % q.capacity) none ((q.head + i) % q.capacity) = l[i]?
    have hi' : i < q.capacity := hi
    have htail : q.tail = q.head + l.length := by
      rw [tail]
      omega
    rw [htail]
    by_cases hlast : i = l.length
    · rw [hlast, update_self, getElem?_eq_none le_rfl]
    · rw [update_of_ne (fun heq => hlast (offset_inj hi' (by omega) heq)), h.entries i hi']
      rcases Nat.lt_or_gt_of_ne hlast with hlt | hgt
      · rw [getElem?_append_left hlt]
      · rw [getElem?_eq_none (by simp; omega), getElem?_eq_none (by omega)]

theorem Holds.set (h : q.Holds l) {i : ℕ} (hi : i < l.length) (x : α) :
    (q.setSlot (q.head + i) (some x)).Holds (l.set i x) := by
  have hlt : i < q.capacity := hi.trans_le (h.size_eq ▸ h.size_le)
  refine ⟨?_, h.size_le, h.head_pos, fun j hj => ?_⟩
  · simp only [setSlot, length_set, h.size_eq]
  · show update q.data ((q.head + i) % q.capacity) (some x)
      ((q.head + j) % q.capacity) = (l.set i x)[j]?
    have hj' : j < q.capacity := hj
    by_cases hij : j = i
    · rw [hij, update_self, getElem?_set_self hi]
    · rw [update_of_ne (fun heq => hij (offset_inj hj' hlt heq)), h.entries j hj',
        getElem?_set_ne (Ne.symm hij)]

end CircularQueue

/-! ### Loads and stores -/

/-- An entry: `ready` is `isExecuted` of a load and `addrReady` of a store; a load is never
`canWB`. -/
structure LsqEntry where
  seqNum : ℕ
  ready : Bool
  canWB : Bool

def LsqEntry.finished (e : LsqEntry) : Bool :=
  e.ready || e.canWB

structure CompletedQueue where
  queue : CircularQueue LsqEntry
  completedIdx : ℕ

namespace CompletedQueue
def new (capacity : ℕ) : CompletedQueue :=
  ⟨.new capacity, 0⟩

def insert (c : CompletedQueue) (e : LsqEntry) : Except String CompletedQueue :=
  if c.queue.full then .error "assert(!queue.full())"
  else .ok { c with queue := c.queue.pushBack e }

def modify (c : CompletedQueue) (idx : ℕ) (f : LsqEntry → LsqEntry) : CompletedQueue :=
  if c.queue.isValidIdx idx then
    { c with queue := c.queue.setSlot idx ((c.queue.slot idx).map f) }
  else c

def popFront (c : CompletedQueue) : Except String CompletedQueue :=
  if c.queue.size = 0 then .error "assert(num_elem <= size())"
  else .ok { c with queue := c.queue.popFront }

def popSquashed (squashedNum : ℕ) : ℕ → CircularQueue LsqEntry → CircularQueue LsqEntry
  | 0, q => q
  | n + 1, q =>
    match q.slot q.tail with
    | none => q
    | some e =>
      if q.size ≠ 0 ∧ squashedNum < e.seqNum ∧ e.canWB = false then
        popSquashed squashedNum n q.popBack
      else q

/-- The search of `rewindCompletedIdx` from the end of the queue on: how many entries there are up
to the last one that is not younger. -/
def searchBack (q : CircularQueue LsqEntry) (squashedNum : ℕ) : ℕ → ℕ
  | 0 => 0
  | n + 1 =>
    if (q.slot (q.head + n)).any (·.seqNum ≤ squashedNum) then n + 1
    else searchBack q squashedNum n

def rewindCompletedIdx (q : CircularQueue LsqEntry) (squashedNum completedIdx : ℕ) : ℕ :=
  if q.size = 0 then q.head - 1
  else if q.isValidIdx completedIdx = false then q.head - 1
  else if (q.slot completedIdx).any (·.seqNum ≤ squashedNum) then completedIdx
  else q.head + searchBack q squashedNum q.size - 1

def squash (c : CompletedQueue) (squashedNum : ℕ) : CompletedQueue :=
  let q := popSquashed squashedNum c.queue.size c.queue
  ⟨q, rewindCompletedIdx q squashedNum c.completedIdx⟩

def clamp (c : CompletedQueue) : ℕ :=
  if c.queue.size = 0 then c.queue.head - 1
  else if c.completedIdx < c.queue.head - 1 ∨ c.queue.tail < c.completedIdx then c.queue.head - 1
  else c.completedIdx

/-- The loop of `updateCompletedIdx`. -/
def advance (q : CircularQueue LsqEntry) : ℕ → ℕ → ℕ
  | 0, idx => idx
  | width + 1, idx =>
    if (q.slot (idx + 1)).any LsqEntry.finished then advance q width (idx + 1) else idx

def update (width : ℕ) (c : CompletedQueue) : CompletedQueue :=
  { c with completedIdx :=
      if c.queue.size = 0 then c.clamp else advance c.queue width c.clamp }

def Completed (c : CompletedQueue) : Prop :=
  ∀ idx, c.queue.isValidIdx idx = true → idx ≤ c.completedIdx →
    (c.queue.slot idx).any LsqEntry.finished = true

/-! ### What a queue holds -/

structure Good (c : CompletedQueue) (l : List LsqEntry) : Prop where
  holds : c.queue.Holds l
  sorted : l.Pairwise (·.seqNum < ·.seqNum)

variable {c : CompletedQueue} {l : List LsqEntry}

theorem isValidIdx_iff (q : CircularQueue LsqEntry) (idx : ℕ) :
    q.isValidIdx idx = true ↔ q.head ≤ idx ∧ idx < q.head + q.size := by
  rw [CircularQueue.isValidIdx, Bool.and_eq_true, decide_eq_true_iff, decide_eq_true_iff]

theorem Good.index (h : c.Good l) {idx : ℕ} (hvalid : c.queue.isValidIdx idx = true) :
    idx - c.queue.head < l.length ∧ idx = c.queue.head + (idx - c.queue.head) := by
  rw [isValidIdx_iff, h.holds.size_eq] at hvalid
  omega

theorem Good.completed_iff_forall (h : c.Good l) :
    c.Completed ↔ ∀ i e, l[i]? = some e → c.queue.head + i ≤ c.completedIdx →
      e.finished = true := by
  constructor
  · intro hc i e he hle
    have hi : i < l.length := (List.getElem?_eq_some_iff.mp he).1
    have hslot := hc (c.queue.head + i) ((isValidIdx_iff _ _).mpr
      ⟨Nat.le_add_right _ _, by rw [h.holds.size_eq]; omega⟩) hle
    rw [h.holds.slot_of_lt hi, he] at hslot
    exact hslot
  · intro hl idx hvalid hle
    obtain ⟨hi, hidx⟩ := h.index hvalid
    rw [hidx, h.holds.slot_of_lt hi, getElem?_eq_getElem hi]
    exact hl _ _ (getElem?_eq_getElem hi) (hidx ▸ hle)

theorem new_good (capacity : ℕ) : (new capacity).Good [] :=
  ⟨CircularQueue.new_holds capacity, List.Pairwise.nil⟩

theorem new_completed (capacity : ℕ) : (new capacity).Completed := by
  rw [(new_good capacity).completed_iff_forall]
  intro i e he
  cases he

section
variable (h : c.Good l) (hc : c.Completed)
include h hc

theorem insert_completed {e : LsqEntry}
    {c' : CompletedQueue} (hinsert : c.insert e = .ok c') (horder : ∀ x ∈ l, x.seqNum < e.seqNum) :
    c'.Good (l ++ [e]) ∧ (c'.Completed ↔ (e.finished = true ∨ c.completedIdx ≤ c.queue.tail)) := by
  unfold insert at hinsert
  split at hinsert
  · cases hinsert
  · rename_i hfull
    cases hinsert
    have hlt : c.queue.size < c.queue.capacity := by
      rw [CircularQueue.full, beq_iff_eq] at hfull
      exact lt_of_le_of_ne h.holds.size_le hfull
    have hgood : Good { c with queue := c.queue.pushBack e } (l ++ [e]) := by
      refine ⟨h.holds.pushBack hlt e, pairwise_append.mpr
        ⟨h.sorted, pairwise_singleton _ _, fun x hx y hy => ?_⟩⟩
      rw [mem_singleton.mp hy]
      exact horder x hx
    refine ⟨hgood, ?_⟩
    have hpos := h.holds.head_pos
    have htail : c.queue.tail + 1 = c.queue.head + l.length := by
      rw [CircularQueue.tail, h.holds.size_eq]
      omega
    rw [hgood.completed_iff_forall]
    constructor
    · intro hall
      by_cases hle : c.completedIdx ≤ c.queue.tail
      · exact .inr hle
      · left
        apply hall l.length e getElem?_concat_length
        show c.queue.head + l.length ≤ c.completedIdx
        omega
    · intro hcond i x hx hle
      have hle' : c.queue.head + i ≤ c.completedIdx := hle
      rcases Nat.lt_trichotomy i l.length with hi | rfl | hi
      · rw [getElem?_append_left hi] at hx
        exact h.completed_iff_forall.mp hc i x hx hle'
      · rw [getElem?_concat_length] at hx
        rw [← some.inj hx]
        rcases hcond with hfin | hidx
        · exact hfin
        · omega
      · rw [getElem?_eq_none (by simp; omega)] at hx
        cases hx

theorem modify_completed (idx : ℕ) {f : LsqEntry → LsqEntry}
    (hseq : ∀ e, (f e).seqNum = e.seqNum) (hfin : ∀ e, e.finished = true → (f e).finished = true) :
    ∃ l', (c.modify idx f).Good l' ∧ l'.map LsqEntry.seqNum = l.map LsqEntry.seqNum ∧
      (c.modify idx f).Completed := by
  unfold modify
  by_cases hvalid : c.queue.isValidIdx idx = true
  · rw [if_pos hvalid]
    obtain ⟨hi, hidx⟩ := h.index hvalid
    have hslot : c.queue.slot idx = some (l[idx - c.queue.head]) := by
      conv_lhs => rw [hidx]
      rw [h.holds.slot_of_lt hi, getElem?_eq_getElem hi]
    have hholds := h.holds.set hi (f l[idx - c.queue.head])
    rw [← hidx] at hholds
    have hmap : (l.set (idx - c.queue.head) (f l[idx - c.queue.head])).map LsqEntry.seqNum =
        l.map LsqEntry.seqNum := by
      rw [map_set, hseq]
      apply ext_getElem?
      intro j
      rw [getElem?_set]
      split_ifs with hj hlen
      · rw [← hj, getElem?_map, getElem?_eq_getElem hi]
        rfl
      · rw [length_map] at hlen
        exact absurd (hj ▸ hi) hlen
      · rfl
    have hgood : Good { c with queue := c.queue.setSlot idx ((c.queue.slot idx).map f) }
        (l.set (idx - c.queue.head) (f l[idx - c.queue.head])) := by
      refine ⟨by rw [hslot]; exact hholds, ?_⟩
      rw [← pairwise_map (f := LsqEntry.seqNum) (R := (· < ·)), hmap, pairwise_map]
      exact h.sorted
    refine ⟨_, hgood, hmap, hgood.completed_iff_forall.mpr ?_⟩
    intro i e he hle
    have hold := h.completed_iff_forall.mp hc
    by_cases hij : idx - c.queue.head = i
    · subst hij
      rw [getElem?_set_self hi, Option.some.injEq] at he
      rw [← he]
      exact hfin _ (hold _ _ (getElem?_eq_getElem hi) hle)
    · rw [getElem?_set_ne hij] at he
      exact hold i e he hle
  · rw [if_neg hvalid]
    exact ⟨l, h, rfl, hc⟩

theorem popFront_completed {c' : CompletedQueue}
    (hpop : c.popFront = .ok c') : c'.Good l.tail ∧ c'.Completed := by
  unfold popFront at hpop
  split at hpop
  · cases hpop
  · rename_i hsize
    cases hpop
    cases l with
    | nil => exact absurd h.holds.size_eq hsize
    | cons x l =>
      have hgood : Good { c with queue := c.queue.popFront } l :=
        ⟨h.holds.popFront, (pairwise_cons.mp h.sorted).2⟩
      refine ⟨hgood, hgood.completed_iff_forall.mpr fun i e he hle => ?_⟩
      have hle' : c.queue.head + 1 + i ≤ c.completedIdx := hle
      exact h.completed_iff_forall.mp hc (i + 1) e he (by omega)
end

theorem popSquashed_holds (squashedNum n : ℕ) (q : CircularQueue LsqEntry) (l : List LsqEntry)
    (h : q.Holds l) : ∃ k, (popSquashed squashedNum n q).Holds (l.take k) ∧
      (popSquashed squashedNum n q).head = q.head := by
  induction n generalizing q l with
  | zero => exact ⟨l.length, by rw [take_length]; exact h, rfl⟩
  | succ n ih =>
    rw [popSquashed]
    cases q.slot q.tail with
    | none => exact ⟨l.length, by rw [take_length]; exact h, rfl⟩
    | some e =>
      dsimp only
      by_cases hpop : q.size ≠ 0 ∧ squashedNum < e.seqNum ∧ e.canWB = false
      · rw [if_pos hpop]
        rcases eq_nil_or_concat l with rfl | ⟨l', x, rfl⟩
        · exact absurd h.size_eq hpop.1
        · rw [concat_eq_append] at h ⊢
          obtain ⟨k, hk, hhead⟩ := ih q.popBack l' h.popBack
          refine ⟨min k l'.length, ?_, hhead⟩
          rw [take_append_of_le_length (Nat.min_le_right _ _), ← take_take, take_length]
          exact hk
      · rw [if_neg hpop]
        exact ⟨l.length, by rw [take_length]; exact h, rfl⟩

theorem searchBack_spec (q : CircularQueue LsqEntry) (squashedNum n : ℕ) :
    searchBack q squashedNum n = 0 ∨ ∃ i < n, searchBack q squashedNum n = i + 1 ∧
      (q.slot (q.head + i)).any (·.seqNum ≤ squashedNum) = true := by
  induction n with
  | zero => exact .inl rfl
  | succ n ih =>
    rw [searchBack]
    split_ifs with hfound
    · exact .inr ⟨n, lt_succ_self n, rfl, hfound⟩
    · rcases ih with hzero | ⟨i, hi, heq, hslot⟩
      · exact .inl hzero
      · exact .inr ⟨i, hi.trans (lt_succ_self n), heq, hslot⟩

theorem rewindCompletedIdx_le {q : CircularQueue LsqEntry} (h : q.Holds l)
    (hsorted : l.Pairwise (·.seqNum < ·.seqNum)) (squashedNum completedIdx : ℕ) :
    rewindCompletedIdx q squashedNum completedIdx < q.head ∨
      rewindCompletedIdx q squashedNum completedIdx ≤ completedIdx := by
  have hpos := h.head_pos
  have hbefore : q.head - 1 < q.head := by omega
  unfold rewindCompletedIdx
  split_ifs with hempty hvalid hkeep
  · exact .inl hbefore
  · exact .inl hbefore
  · exact .inr le_rfl
  · rw [Bool.not_eq_false, isValidIdx_iff] at hvalid
    rcases searchBack_spec q squashedNum q.size with hzero | ⟨i, hi, heq, hslot⟩
    · rw [hzero]
      exact .inl hbefore
    · right
      -- the entry at the completed index is younger than the one that was found
      have hlen := h.size_eq
      have hi' : i < l.length := by omega
      have hj : completedIdx - q.head < l.length := by omega
      rw [h.slot_of_lt hi', getElem?_eq_getElem hi', any_some, decide_eq_true_iff] at hslot
      have hidx : completedIdx = q.head + (completedIdx - q.head) := by omega
      rw [hidx, h.slot_of_lt hj, getElem?_eq_getElem hj, any_some, decide_eq_true_iff] at hkeep
      by_contra hgt
      have hlt : completedIdx - q.head < i := by omega
      have := pairwise_iff_getElem.mp hsorted _ _ hj hi' hlt
      omega

theorem squash_completed (h : c.Good l) (hc : c.Completed) (squashedNum : ℕ) :
    ∃ k, (c.squash squashedNum).Good (l.take k) ∧ (c.squash squashedNum).Completed := by
  obtain ⟨k, hholds, hhead⟩ := popSquashed_holds squashedNum c.queue.size c.queue l h.holds
  have hsorted : (l.take k).Pairwise (·.seqNum < ·.seqNum) :=
    h.sorted.sublist (take_sublist k l)
  have hgood : (c.squash squashedNum).Good (l.take k) := ⟨hholds, hsorted⟩
  refine ⟨k, hgood, hgood.completed_iff_forall.mpr fun i e he hle => ?_⟩
  have hold : l[i]? = some e := by
    rw [getElem?_take] at he
    split_ifs at he
    exact he
  have hle' : (popSquashed squashedNum c.queue.size c.queue).head + i ≤
      rewindCompletedIdx (popSquashed squashedNum c.queue.size c.queue) squashedNum
        c.completedIdx := hle
  have hrewind := rewindCompletedIdx_le hholds hsorted squashedNum c.completedIdx
  exact h.completed_iff_forall.mp hc i e hold (by omega)

theorem clamp_le (c : CompletedQueue) : c.clamp = c.queue.head - 1 ∨ c.clamp = c.completedIdx := by
  unfold clamp
  split_ifs
  · exact .inl rfl
  · exact .inl rfl
  · exact .inr rfl

theorem advance_completed (h : c.Good l) (width idx : ℕ) (hidx : c.queue.head ≤ idx + 1)
    (hall : ∀ i e, l[i]? = some e → c.queue.head + i ≤ idx → e.finished = true) :
    ∀ i e, l[i]? = some e → c.queue.head + i ≤ advance c.queue width idx → e.finished = true := by
  induction width generalizing idx with
  | zero => exact hall
  | succ width ih =>
    rw [advance]
    split_ifs with hslot
    · apply ih (idx + 1) (by omega)
      intro i e he hle
      by_cases heq : c.queue.head + i = idx + 1
      · have hi : i < l.length := (List.getElem?_eq_some_iff.mp he).1
        rw [← heq, h.holds.slot_of_lt hi, he] at hslot
        exact hslot
      · exact hall i e he (by omega)
    · exact hall

theorem update_completed (h : c.Good l) (hc : c.Completed) (width : ℕ) :
    (c.update width).Good l ∧ (c.update width).Completed := by
  have hgood : (c.update width).Good l := ⟨h.holds, h.sorted⟩
  refine ⟨hgood, hgood.completed_iff_forall.mpr ?_⟩
  have hpos := h.holds.head_pos
  have hclamp : ∀ i e, l[i]? = some e → c.queue.head + i ≤ c.clamp → e.finished = true := by
    intro i e he hle
    rcases c.clamp_le with hbefore | hold
    · omega
    · exact h.completed_iff_forall.mp hc i e he (hold ▸ hle)
  show ∀ i e, l[i]? = some e → c.queue.head + i ≤
    (if c.queue.size = 0 then c.clamp else advance c.queue width c.clamp) → e.finished = true
  split_ifs with hsize
  · exact hclamp
  · apply advance_completed h width c.clamp ?_ hclamp
    unfold clamp
    split_ifs with hrange
    · omega
    · omega

end CompletedQueue

/-! ### Runs -/

/-- Both queues, with the widths of `updateCompletedIdx`. -/
structure LsqIndices where
  loads : CompletedQueue
  stores : CompletedQueue
  loadCompletionWidth : ℕ
  storeCompletionWidth : ℕ

inductive LsqEvent
  | insertLoad (seqNum : ℕ) (executed : Bool)
  | insertStore (seqNum : ℕ) (addrReady : Bool)
  | executed (idx : ℕ)
  | addrReady (idx : ℕ)
  | canWB (idx : ℕ)
  | commitLoad
  | completeStore
  | squash (squashedNum : ℕ)
  | updateCompletedIdx

namespace LsqIndices
open CompletedQueue

def new (lqEntries sqEntries loadCompletionWidth storeCompletionWidth : ℕ) : LsqIndices :=
  ⟨.new lqEntries, .new sqEntries, loadCompletionWidth, storeCompletionWidth⟩

def step (s : LsqIndices) : LsqEvent → Except String LsqIndices
  | .insertLoad seqNum executed => do
    return { s with loads := ← s.loads.insert ⟨seqNum, executed, false⟩ }
  | .insertStore seqNum addrReady => do
    return { s with stores := ← s.stores.insert ⟨seqNum, addrReady, false⟩ }
  | .executed idx =>
    .ok { s with loads := s.loads.modify idx fun e => { e with ready := true } }
  | .addrReady idx =>
    .ok { s with stores := s.stores.modify idx fun e => { e with ready := true } }
  | .canWB idx =>
    .ok { s with stores := s.stores.modify idx fun e => { e with canWB := true } }
  | .commitLoad => do return { s with loads := ← s.loads.popFront }
  | .completeStore => do return { s with stores := ← s.stores.popFront }
  | .squash squashedNum =>
    .ok { s with loads := s.loads.squash squashedNum, stores := s.stores.squash squashedNum }
  | .updateCompletedIdx =>
    .ok { s with
      loads := s.loads.update s.loadCompletionWidth
      stores := s.stores.update s.storeCompletionWidth }

def InOrder (c : CompletedQueue) (seqNum : ℕ) : Prop :=
  ∀ idx, c.queue.isValidIdx idx = true → (c.queue.slot idx).all (·.seqNum < seqNum) = true

def Allowed (s : LsqIndices) : LsqEvent → Prop
  | .insertLoad seqNum _ => InOrder s.loads seqNum
  | .insertStore seqNum _ => InOrder s.stores seqNum
  | _ => True

inductive Run (lqEntries sqEntries loadWidth storeWidth : ℕ) : List LsqEvent → LsqIndices → Prop
  | nil : Run lqEntries sqEntries loadWidth storeWidth []
      (new lqEntries sqEntries loadWidth storeWidth)
  | cons {events : List LsqEvent} {s t : LsqIndices} {e : LsqEvent} :
      Run lqEntries sqEntries loadWidth storeWidth events s → s.Allowed e → s.step e = .ok t →
      Run lqEntries sqEntries loadWidth storeWidth (e :: events) t

def Completed (s : LsqIndices) : Prop :=
  s.loads.Completed ∧ s.stores.Completed

def Fits (s : LsqIndices) : LsqEvent → Prop
  | .insertLoad _ executed => executed = true ∨ s.loads.completedIdx ≤ s.loads.queue.tail
  | .insertStore _ addrReady => addrReady = true ∨ s.stores.completedIdx ≤ s.stores.queue.tail
  | _ => True

def Good (s : LsqIndices) : Prop :=
  (∃ l, s.loads.Good l) ∧ ∃ l, s.stores.Good l

theorem inOrder_list {c : CompletedQueue} {l : List LsqEntry} (h : c.Good l) {seqNum : ℕ}
    (horder : InOrder c seqNum) : ∀ x ∈ l, x.seqNum < seqNum := by
  intro x hx
  obtain ⟨i, hi, rfl⟩ := mem_iff_getElem.mp hx
  have hslot := horder (c.queue.head + i)
    ((isValidIdx_iff _ _).mpr ⟨Nat.le_add_right _ _, by rw [h.holds.size_eq]; omega⟩)
  rw [h.holds.slot_of_lt hi, getElem?_eq_getElem hi, all_some, decide_eq_true_iff] at hslot
  exact hslot

theorem bind_pure_ok {α β : Type} {x : Except String α} {f : α → β} {t : β}
    (h : (do return f (← x)) = Except.ok t) : ∃ c, x = .ok c ∧ f c = t := by
  cases x with
  | error e => cases h
  | ok c => exact ⟨c, rfl, Except.ok.inj h⟩

theorem step_completed {s t : LsqIndices} {e : LsqEvent} (h : s.Good) (hc : s.Completed)
    (he : s.Allowed e) (hstep : s.step e = .ok t) : t.Good ∧ (t.Completed ↔ s.Fits e) := by
  obtain ⟨⟨l, hl⟩, ⟨k, hk⟩⟩ := h
  obtain ⟨hcl, hck⟩ := hc
  cases e with
  | insertLoad seqNum executed =>
    obtain ⟨c, hinsert, rfl⟩ := bind_pure_ok hstep
    obtain ⟨hgood, hiff⟩ := insert_completed hl hcl hinsert (inOrder_list hl he)
    refine ⟨⟨⟨_, hgood⟩, ⟨k, hk⟩⟩, ?_⟩
    simp only [Completed, Fits, hiff, hck, and_true, LsqEntry.finished, Bool.or_false]
  | insertStore seqNum addrReady =>
    obtain ⟨c, hinsert, rfl⟩ := bind_pure_ok hstep
    obtain ⟨hgood, hiff⟩ := insert_completed hk hck hinsert (inOrder_list hk he)
    refine ⟨⟨⟨l, hl⟩, ⟨_, hgood⟩⟩, ?_⟩
    simp only [Completed, Fits, hiff, hcl, true_and, LsqEntry.finished, Bool.or_false]
  | executed idx =>
    cases hstep
    obtain ⟨l', hgood, -, hdone⟩ := modify_completed hl hcl idx
      (f := fun e => { e with ready := true }) (fun _ => rfl)
      (fun _ _ => by simp [LsqEntry.finished])
    exact ⟨⟨⟨l', hgood⟩, ⟨k, hk⟩⟩, iff_of_true ⟨hdone, hck⟩ trivial⟩
  | addrReady idx =>
    cases hstep
    obtain ⟨k', hgood, -, hdone⟩ := modify_completed hk hck idx
      (f := fun e => { e with ready := true }) (fun _ => rfl)
      (fun _ _ => by simp [LsqEntry.finished])
    exact ⟨⟨⟨l, hl⟩, ⟨k', hgood⟩⟩, iff_of_true ⟨hcl, hdone⟩ trivial⟩
  | canWB idx =>
    cases hstep
    obtain ⟨k', hgood, -, hdone⟩ := modify_completed hk hck idx
      (f := fun e => { e with canWB := true }) (fun _ => rfl)
      (fun _ _ => by simp [LsqEntry.finished])
    exact ⟨⟨⟨l, hl⟩, ⟨k', hgood⟩⟩, iff_of_true ⟨hcl, hdone⟩ trivial⟩
  | commitLoad =>
    obtain ⟨c, hpop, rfl⟩ := bind_pure_ok hstep
    obtain ⟨hgood, hdone⟩ := popFront_completed hl hcl hpop
    exact ⟨⟨⟨_, hgood⟩, ⟨k, hk⟩⟩, iff_of_true ⟨hdone, hck⟩ trivial⟩
  | completeStore =>
    obtain ⟨c, hpop, rfl⟩ := bind_pure_ok hstep
    obtain ⟨hgood, hdone⟩ := popFront_completed hk hck hpop
    exact ⟨⟨⟨l, hl⟩, ⟨_, hgood⟩⟩, iff_of_true ⟨hcl, hdone⟩ trivial⟩
  | squash squashedNum =>
    cases hstep
    obtain ⟨i, hgood, hdone⟩ := squash_completed hl hcl squashedNum
    obtain ⟨j, hgood', hdone'⟩ := squash_completed hk hck squashedNum
    exact ⟨⟨⟨_, hgood⟩, ⟨_, hgood'⟩⟩, iff_of_true ⟨hdone, hdone'⟩ trivial⟩
  | updateCompletedIdx =>
    cases hstep
    obtain ⟨hgood, hdone⟩ := update_completed hl hcl s.loadCompletionWidth
    obtain ⟨hgood', hdone'⟩ := update_completed hk hck s.storeCompletionWidth
    exact ⟨⟨⟨_, hgood⟩, ⟨_, hgood'⟩⟩, iff_of_true ⟨hdone, hdone'⟩ trivial⟩

section
variable {lqEntries sqEntries loadWidth storeWidth : ℕ} {events : List LsqEvent} {s t : LsqIndices}

section
variable (h : Run lqEntries sqEntries loadWidth storeWidth events s)
include h

theorem Run.unique (h' : Run lqEntries sqEntries loadWidth storeWidth events t) : s = t := by
  induction h generalizing t with
  | nil =>
    cases h'
    rfl
  | cons _ _ hstep ih =>
    cases h' with
    | cons hrun' _ hstep' =>
      rw [ih hrun'] at hstep
      exact Except.ok.inj (hstep.symm.trans hstep')

theorem Run.suffix {earlier : List LsqEvent} (hsuffix : earlier <:+ events) :
    ∃ t, Run lqEntries sqEntries loadWidth storeWidth earlier t := by
  induction h with
  | nil =>
    obtain rfl := suffix_nil.mp hsuffix
    exact ⟨_, .nil⟩
  | @cons events s t e hrun he hstep ih =>
    rcases suffix_cons_iff.mp hsuffix with rfl | hsuffix
    · exact ⟨t, .cons hrun he hstep⟩
    · exact ih hsuffix

theorem Run.completed (hfit : ∀ e earlier t, e :: earlier <:+ events →
      Run lqEntries sqEntries loadWidth storeWidth earlier t → t.Fits e) :
    s.Good ∧ s.Completed := by
  induction h with
  | nil => exact ⟨⟨⟨[], new_good lqEntries⟩, ⟨[], new_good sqEntries⟩⟩, new_completed lqEntries,
      new_completed sqEntries⟩
  | @cons events s t e hrun he hstep ih =>
    obtain ⟨hgood, hdone⟩ := ih fun e' earlier t' hsuffix =>
      hfit e' earlier t' (hsuffix.trans (suffix_cons e events))
    obtain ⟨hgood', hiff⟩ := step_completed hgood hdone he hstep
    exact ⟨hgood', hiff.mpr (hfit e events s suffix_rfl hrun)⟩

theorem Run.good (hdone : ∀ earlier t, earlier <:+ events →
      Run lqEntries sqEntries loadWidth storeWidth earlier t → t.Completed) : s.Good := by
  induction h with
  | nil => exact ⟨⟨[], new_good lqEntries⟩, ⟨[], new_good sqEntries⟩⟩
  | @cons events s t e hrun he hstep ih =>
    have hgood := ih fun earlier t' hsuffix =>
      hdone earlier t' (hsuffix.trans (suffix_cons e events))
    exact (step_completed hgood (hdone events s (suffix_cons e events) hrun) he hstep).1
end
end
end LsqIndices

open LsqIndices in
/-- In every run, all entries of both queues up to the completed indices are finished after each
event exactly if no unfinished entry is ever inserted while the index of its queue is beyond the
tail. -/
theorem completed_iff (lqEntries sqEntries loadWidth storeWidth : ℕ) (events : List LsqEvent)
    (s : LsqIndices) (h : Run lqEntries sqEntries loadWidth storeWidth events s) :
    (∀ earlier t, earlier <:+ events → Run lqEntries sqEntries loadWidth storeWidth earlier t →
      t.Completed) ↔
    ∀ e earlier t, e :: earlier <:+ events →
      Run lqEntries sqEntries loadWidth storeWidth earlier t → t.Fits e := by
  constructor
  · intro hdone e earlier t hsuffix hrun
    obtain ⟨t', hrun'⟩ := h.suffix hsuffix
    have hgood : t.Good := hrun.good fun earlier' u hsuffix' =>
      hdone earlier' u (hsuffix'.trans ((suffix_cons e earlier).trans hsuffix))
    cases hrun' with
    | cons hrun'' he hstep =>
      rw [hrun''.unique hrun] at he hstep
      have hcompleted := hdone earlier t ((suffix_cons e earlier).trans hsuffix) hrun
      have hcompleted' := hdone (e :: earlier) t' hsuffix (.cons hrun he hstep)
      exact (step_completed hgood hcompleted he hstep).2.mp hcompleted'
  · intro hfit earlier t hsuffix hrun
    exact (hrun.completed fun e earlier' u hsuffix' =>
      hfit e earlier' u (hsuffix'.trans hsuffix)).2

theorem LsqIndices.inOrder_of_empty {c : CompletedQueue} (h : c.queue.size = 0) (seqNum : ℕ) :
    LsqIndices.InOrder c seqNum := by
  intro idx hvalid
  have := (CompletedQueue.isValidIdx_iff c.queue idx).mp hvalid
  omega

theorem LsqIndices.Run.fits_cons {lqEntries sqEntries loadWidth storeWidth : ℕ}
    {events : List LsqEvent} {s : LsqIndices} {e : LsqEvent}
    (hrun : Run lqEntries sqEntries loadWidth storeWidth events s) (he : s.Fits e)
    (h : ∀ e earlier t, e :: earlier <:+ events →
      Run lqEntries sqEntries loadWidth storeWidth earlier t → t.Fits e) :
    ∀ e' earlier t, e' :: earlier <:+ e :: events →
      Run lqEntries sqEntries loadWidth storeWidth earlier t → t.Fits e' := by
  intro e' earlier t hsuffix ht
  rcases suffix_cons_iff.mp hsuffix with heq | hsuffix
  · cases heq
    rwa [hrun.unique ht] at he
  · exact h e' earlier t hsuffix ht

open LsqIndices in
/-- Two loads go through a queue of two: the first is executed, the index moves on to it, it is
committed, and the second is inserted behind it and executed in its turn. -/
theorem loads_completed :
    ∃ s, Run 2 1 1 1 [.updateCompletedIdx, .executed 2, .insertLoad 2 false, .commitLoad,
        .updateCompletedIdx, .executed 1, .insertLoad 1 false] s ∧
      s.loads.completedIdx = 2 ∧ s.loads.queue.isValidIdx 2 = true ∧ s.Completed := by
  have h₁ : Run 2 1 1 1 [.insertLoad 1 false] _ := .cons .nil (inOrder_of_empty rfl 1) rfl
  have h₂ : Run 2 1 1 1 [.executed 1, .insertLoad 1 false] _ := .cons h₁ trivial rfl
  have h₃ : Run 2 1 1 1 [.updateCompletedIdx, .executed 1, .insertLoad 1 false] _ :=
    .cons h₂ trivial rfl
  have h₄ : Run 2 1 1 1 [.commitLoad, .updateCompletedIdx, .executed 1, .insertLoad 1 false] _ :=
    .cons h₃ trivial rfl
  have h₅ : Run 2 1 1 1 [.insertLoad 2 false, .commitLoad, .updateCompletedIdx, .executed 1,
      .insertLoad 1 false] _ := .cons h₄ (inOrder_of_empty rfl 2) rfl
  have h₆ : Run 2 1 1 1 [.executed 2, .insertLoad 2 false, .commitLoad, .updateCompletedIdx,
      .executed 1, .insertLoad 1 false] _ := .cons h₅ trivial rfl
  have h₇ : Run 2 1 1 1 [.updateCompletedIdx, .executed 2, .insertLoad 2 false, .commitLoad,
      .updateCompletedIdx, .executed 1, .insertLoad 1 false] _ := .cons h₆ trivial rfl
  refine ⟨_, h₇, rfl, rfl, (completed_iff 2 1 1 1 _ _ h₇).mpr ?_ _ _ suffix_rfl h₇⟩
  refine h₆.fits_cons trivial (h₅.fits_cons trivial (h₄.fits_cons (.inr (by decide))
    (h₃.fits_cons trivial (h₂.fits_cons trivial (h₁.fits_cons trivial
      (Run.nil.fits_cons (.inr le_rfl) fun e earlier t hsuffix => ?_))))))
  exact absurd (suffix_nil.mp hsuffix) (cons_ne_nil _ _)

open LsqIndices in
/-- The only load of a queue is executed; the index moves on to it, and with the next update beyond
it.  The load that is inserted after it has been committed counts as completed at once. -/
theorem load_completed_unexecuted :
    ∃ s, Run 1 1 1 1 [.insertLoad 2 false, .commitLoad, .updateCompletedIdx, .updateCompletedIdx,
        .executed 1, .insertLoad 1 false] s ∧
      s.loads.completedIdx = 2 ∧ s.loads.queue.isValidIdx 2 = true ∧
      s.loads.queue.slot 2 = some ⟨2, false, false⟩ := by
  exact ⟨_, .cons (.cons (.cons (.cons (.cons (.cons .nil (inOrder_of_empty rfl 1) rfl) trivial rfl)
    trivial rfl) trivial rfl) trivial rfl) (inOrder_of_empty rfl 2) rfl, rfl, rfl, rfl⟩

end Gem5
