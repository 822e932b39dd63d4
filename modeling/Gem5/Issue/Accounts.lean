import Mathlib.Data.List.Basic

/-!
# The slots of an issue queue

A queue counts the instructions that are not issued, in all and by ready queue, the latter in eight
bits.  With the selector by age every such instruction has a tag, which comes from a free list and
goes back when the instruction is issued or squashed.
-/

namespace Gem5
open List

/-- `BaseSelector`, or `PAgeSelector` with the size of its groups. -/
inductive Selector
  | base
  | page (numInstperGroup : ℕ)
  deriving DecidableEq

structure IqConfig where
  iqsize : ℕ
  inports : ℕ
  selector : Selector
  groups : ∀ g, selector = .page g → iqsize % g = 0

structure IqEntry where
  seqNum : ℕ
  counter : ℕ
  issued : Bool
  iqtag : Option ℕ

structure IqState where
  instList : List IqEntry
  instNum : ℕ
  instNumInsert : ℕ
  instNumClassify : ℕ → ℕ
  freelist : List ℕ

/-- What happens to the queue; `issue` names a place in the list. -/
inductive IqEvent
  | insert (seqNum counter : ℕ) (replayFull : Bool)
  | issue (i : ℕ)
  | squash (seqNum : ℕ)
  | commit (seqNum : ℕ)
  | tick

namespace IqState
def start (c : IqConfig) : IqState :=
  ⟨[], 0, 0, fun _ => 0, if c.selector = .base then [] else List.range c.iqsize⟩

def ready (c : IqConfig) (replayFull : Bool) (s : IqState) : Bool :=
  !(decide (s.instNum ≥ c.iqsize) || replayFull) && !decide (s.instNumInsert ≥ c.inports)

def allocate (c : IqConfig) (s : IqState) : Except String (Option ℕ × IqState) :=
  if c.selector = .base then .ok (none, s)
  else
    match s.freelist with
    | [] => .error "assert(!freelist.empty())"
    | tag :: rest => .ok (some tag, { s with freelist := rest })

def deallocate (c : IqConfig) (x : IqEntry) (s : IqState) : Except String IqState :=
  if c.selector = .base then .ok s
  else
    match x.iqtag with
    | none => .error "assert(inst->iqtag >= 0 && inst->iqtag < (int)freelist.size())"
    | some tag =>
      if tag < s.freelist.length then .ok { s with freelist := s.freelist ++ [tag] }
      else .error "assert(inst->iqtag >= 0 && inst->iqtag < (int)freelist.size())"

def insert (c : IqConfig) (seqNum counter : ℕ) (s : IqState) : Except String IqState :=
  if s.instNum ≥ c.iqsize then .error "assert(instNum < iqsize)"
  else
    (s.allocate c).map fun r => { r.2 with
      instNumClassify :=
        Function.update s.instNumClassify counter ((s.instNumClassify counter + 1) % 256)
      instNum := s.instNum + 1
      instNumInsert := s.instNumInsert + 1
      instList := s.instList ++ [⟨seqNum, counter, false, r.1⟩] }

def popInst (c : IqConfig) (x : IqEntry) (s : IqState) : Except String IqState :=
  if s.instNum = 0 then .error "assert(instNum != 0)"
  else if s.instNumClassify x.counter = 0 then
    .error "assert((*instNumClassify[x->opClass()]) != 0)"
  else
    { s with
      instNumClassify :=
        Function.update s.instNumClassify x.counter (s.instNumClassify x.counter - 1)
      instNum := s.instNum - 1 }.deallocate c x

def addToFu (c : IqConfig) (i : ℕ) (s : IqState) : Except String IqState :=
  match s.instList[i]? with
  | none => .ok s
  | some x =>
    (s.popInst c x).map fun t =>
      { t with instList := s.instList.set i { x with issued := true, iqtag := none } }

/-- The loop of `doSquash`; the instructions before the iterator are `kept`. -/
def squashLoop (c : IqConfig) (seqNum : ℕ) : List IqEntry → List IqEntry → IqState →
    Except String IqState
  | kept, [], s => .ok { s with instList := kept }
  | kept, x :: rest, s =>
    if x.seqNum > seqNum then
      (if x.issued then .ok s else s.popInst c x).bind fun t =>
        if (kept ++ rest).length < t.instNum then .error "assert(instList.size() >= instNum)"
        else squashLoop c seqNum kept rest t
    else squashLoop c seqNum (kept ++ [x]) rest s

def Possible (c : IqConfig) (s : IqState) : IqEvent → Prop
  | .insert _ _ replayFull => s.ready c replayFull = true
  | .issue i => ∃ x, s.instList[i]? = some x ∧ x.issued = false
  | .commit n => ∀ x ∈ s.instList.takeWhile (·.seqNum ≤ n), x.issued = true
  | .squash _ | .tick => True

def step (c : IqConfig) (s : IqState) : IqEvent → Except String IqState
  | .insert seqNum counter _ => s.insert c seqNum counter
  | .issue i => s.addToFu c i
  | .squash n => s.squashLoop c n [] s.instList
  | .commit n => .ok { s with instList := s.instList.dropWhile (·.seqNum ≤ n) }
  | .tick => .ok { s with instNumInsert := 0 }

inductive Reachable (c : IqConfig) : IqState → Prop
  | start : Reachable c (start c)
  | step {s t : IqState} {e : IqEvent} : Reachable c s → s.Possible c e → s.step c e = .ok t →
      Reachable c t

def unissued (l : List IqEntry) : ℕ :=
  l.countP (!·.issued)

def tags (l : List IqEntry) : List ℕ :=
  (l.filter (!·.issued)).filterMap IqEntry.iqtag

/-- The count is right and within the size; with tags, they are a part of the range and are not
free. -/
def Kept (c : IqConfig) (s : IqState) : Prop :=
  s.instNum = unissued s.instList ∧ s.instNum ≤ c.iqsize ∧
    (c.selector ≠ .base → (tags s.instList ++ s.freelist).Nodup ∧
      (tags s.instList).length = s.instNum ∧ ∀ tag ∈ tags s.instList, tag < c.iqsize)

/-- In every run the books are right and no assertion fails. -/
def Sound (c : IqConfig) : Prop :=
  ∀ s, Reachable c s → s.Kept c ∧ ∀ e, s.Possible c e → ∃ t, s.step c e = .ok t

/-! ### Queues without tags -/

def byCounter (k : ℕ) (l : List IqEntry) : ℕ :=
  l.countP fun x => !x.issued && x.counter == k

structure CountInv (c : IqConfig) (l : List IqEntry) (s : IqState) : Prop where
  num : s.instNum = unissued l
  classify : ∀ k, s.instNumClassify k = byCounter k l
  le : s.instNum ≤ c.iqsize

variable {c : IqConfig} {s t : IqState} {x : IqEntry} {l l' d : List IqEntry}

theorem ready_iff {b : Bool} : s.ready c b = true ↔
    s.instNum < c.iqsize ∧ b = false ∧ s.instNumInsert < c.inports := by
  simp [ready, and_assoc]

theorem byCounter_le (k : ℕ) (l : List IqEntry) : byCounter k l ≤ unissued l :=
  countP_mono_left fun x _ h => by simp_all

theorem countInv_issued (hd : ∀ x ∈ d, x.issued = true) :
    CountInv c (l ++ d ++ l') s ↔ CountInv c (l ++ l') s := by
  have hu : unissued d = 0 := countP_eq_zero.2 fun x hx => by simp [hd x hx]
  have hk (k : ℕ) : byCounter k d = 0 := Nat.eq_zero_of_le_zero (hu ▸ byCounter_le k d)
  have hnum : unissued (l ++ d ++ l') = unissued (l ++ l') := by
    simp only [unissued, countP_append] at hu ⊢
    omega
  have hcls (k : ℕ) : byCounter k (l ++ d ++ l') = byCounter k (l ++ l') := by
    have := hk k
    simp only [byCounter, countP_append] at this ⊢
    omega
  constructor <;> rintro ⟨h, h', hle⟩
  · exact ⟨h.trans hnum, fun k => (h' k).trans (hcls k), hle⟩
  · exact ⟨h.trans hnum.symm, fun k => (h' k).trans (hcls k).symm, hle⟩

section
variable (hbase : c.selector = .base)
include hbase

theorem CountInv.popInst (h : CountInv c (l ++ x :: l') s)
    (hx : x.issued = false) : ∃ t, s.popInst c x = .ok t ∧ CountInv c (l ++ l') t := by
  have hnum : s.instNum = unissued (l ++ l') + 1 := by
    simpa [unissued, hx, Nat.add_assoc] using h.num
  have hcls (k : ℕ) : s.instNumClassify k =
      byCounter k (l ++ l') + if x.counter = k then 1 else 0 := by
    simpa [byCounter, hx, countP_cons, Nat.add_assoc] using h.classify k
  refine ⟨{ s with
      instNumClassify :=
        Function.update s.instNumClassify x.counter (s.instNumClassify x.counter - 1)
      instNum := s.instNum - 1 }, ?_, by simp [hnum], fun k => ?_,
    Nat.le_trans (Nat.sub_le _ _) h.le⟩
  · rw [IqState.popInst, if_neg (by omega), if_neg (by rw [hcls, if_pos rfl]; omega), deallocate,
      if_pos hbase]
  · by_cases hk : k = x.counter
    · subst hk
      simp [hcls]
    · simp [hk, hcls, Ne.symm hk]

theorem CountInv.insert (hsize : c.iqsize ≤ 255)
    (h : CountInv c s.instList s) {b : Bool} (hready : s.ready c b = true) (n k : ℕ) :
    ∃ t, s.insert c n k = .ok t ∧ CountInv c t.instList t := by
  have hlt : s.instNum < c.iqsize := (ready_iff.1 hready).1
  refine ⟨_, by rw [IqState.insert, if_neg (Nat.not_le.2 hlt), allocate, if_pos hbase]; rfl, ?_⟩
  refine ⟨by simp [h.num, unissued], fun j => ?_, hlt⟩
  · have hwrap : byCounter k s.instList + 1 < 256 := by
      have := byCounter_le k s.instList
      have := h.num
      omega
    by_cases hj : j = k
    · subst hj
      simpa [h.classify, byCounter] using Nat.mod_eq_of_lt hwrap
    · simp [hj, h.classify, byCounter, Ne.symm hj]

theorem CountInv.addToFu (h : CountInv c s.instList s) {i : ℕ}
    (hx : s.instList[i]? = some x) (hissued : x.issued = false) :
    ∃ t, s.addToFu c i = .ok t ∧ CountInv c t.instList t := by
  obtain ⟨hi, hget⟩ := List.getElem?_eq_some_iff.1 hx
  obtain ⟨l, l', hl, -, hset⟩ :=
    @List.exists_of_set _ i { x with issued := true, iqtag := none } _ hi
  rw [hget] at hl
  rw [hl] at h
  obtain ⟨t, ht, hinv⟩ := h.popInst hbase hissued
  have hsame : CountInv c (l ++ [{ x with issued := true, iqtag := none }] ++ l') t :=
    (countInv_issued (by simp)).2 hinv
  refine ⟨{ t with instList := l ++ { x with issued := true, iqtag := none } :: l' }, ?_, ?_⟩
  · simp [IqState.addToFu, hx, ht, Except.map, hset]
  · exact ⟨by simpa using hsame.num, by simpa using hsame.classify, hsame.le⟩

theorem CountInv.squashLoop (n : ℕ) (rest kept : List IqEntry) (h : CountInv c (kept ++ rest) s) :
    ∃ t, s.squashLoop c n kept rest = .ok t ∧ CountInv c t.instList t := by
  induction rest generalizing kept s with
  | nil => exact ⟨_, rfl, by simpa using h.num, by simpa using h.classify, h.le⟩
  | cons x rest ih =>
    unfold IqState.squashLoop
    by_cases hyoung : x.seqNum > n
    · rw [if_pos hyoung]
      have hpop : ∃ t, (if x.issued then .ok s else s.popInst c x) = .ok t ∧
          CountInv c (kept ++ rest) t := by
        cases hx : x.issued with
        | true =>
          refine ⟨s, rfl, (countInv_issued (d := [x]) ?_).1 ?_⟩
          · simpa using hx
          · simpa using h
        | false => exact h.popInst hbase hx
      obtain ⟨t, ht, hinv⟩ := hpop
      have hlen : ¬(kept ++ rest).length < t.instNum := by
        rw [hinv.num]
        exact Nat.not_lt.2 countP_le_length
      rw [ht, Except.bind, if_neg hlen]
      exact ih kept hinv
    · rw [if_neg hyoung]
      exact ih (kept ++ [x]) (by simpa using h)

theorem CountInv.step (hsize : c.iqsize ≤ 255)
    (h : CountInv c s.instList s) {e : IqEvent} (he : s.Possible c e) :
    ∃ t, s.step c e = .ok t ∧ CountInv c t.instList t := by
  cases e with
  | insert n k b => exact h.insert hbase hsize he n k
  | issue i =>
    obtain ⟨x, hx, hissued⟩ := he
    exact h.addToFu hbase hx hissued
  | squash n => exact h.squashLoop hbase n s.instList []
  | commit n =>
    have hsplit : CountInv c ([] ++ s.instList.takeWhile (·.seqNum ≤ n) ++
        s.instList.dropWhile (·.seqNum ≤ n)) s := by
      simpa [takeWhile_append_dropWhile] using h
    have hinv := (countInv_issued he).1 hsplit
    exact ⟨_, rfl, hinv.num, hinv.classify, hinv.le⟩
  | tick => exact ⟨_, rfl, h.num, h.classify, h.le⟩

theorem sound_of_base (hsize : c.iqsize ≤ 255) : Sound c := by
  intro s hs
  have hinv : CountInv c s.instList s := by
    induction hs with
    | start => exact ⟨rfl, fun _ => rfl, Nat.zero_le _⟩
    | step _ he ht ih =>
      obtain ⟨t, ht', hinv⟩ := ih.step hbase hsize he
      obtain rfl := Except.ok.inj (ht'.symm.trans ht)
      exact hinv
  refine ⟨⟨hinv.num, hinv.le, fun hne => absurd hbase hne⟩, fun e he => ?_⟩
  exact (hinv.step hbase hsize he).imp fun t ht => ht.1
end

theorem sound_of_closed (hclosed : c.inports = 0 ∨ c.iqsize = 0) : Sound c := by
  have hstep {s : IqState} {e : IqEvent} (hl : s.instList = []) (he : s.Possible c e) :
      ∃ t, s.step c e = .ok t ∧ t.instList = [] ∧ t.instNum = s.instNum ∧
        t.freelist = s.freelist := by
    cases e with
    | insert n k b =>
      have hready := ready_iff.1 he
      omega
    | issue i =>
      obtain ⟨x, hx, -⟩ := he
      simp [hl] at hx
    | squash n =>
      exact ⟨{ s with instList := [] }, by simp [IqState.step, hl, squashLoop], rfl, rfl, rfl⟩
    | commit n => exact ⟨_, rfl, by simp [hl], rfl, rfl⟩
    | tick => exact ⟨_, rfl, hl, rfl, rfl⟩
  intro s hs
  have hinv : s.instList = [] ∧ s.instNum = 0 ∧ s.freelist = (start c).freelist := by
    induction hs with
    | start => exact ⟨rfl, rfl, rfl⟩
    | step _ he ht ih =>
      obtain ⟨t, ht', hl, hn, hf⟩ := hstep ih.1 he
      obtain rfl := Except.ok.inj (ht'.symm.trans ht)
      exact ⟨hl, hn.trans ih.2.1, hf.trans ih.2.2⟩
  obtain ⟨hl, hn, hf⟩ := hinv
  refine ⟨⟨by simp [hl, hn, unissued], by simp [hn], fun hne => ?_⟩, fun e he => ?_⟩
  · simp [hl, hf, hn, tags, start, hne, nodup_range]
  · exact (hstep hl he).imp fun t ht => ht.1

/-! ### Queues that fill -/

theorem exists_filled (hports : 0 < c.inports) {n : ℕ} (hn : n ≤ c.iqsize) :
    ∃ s, Reachable c s ∧ s.instNum = n ∧ s.instNumInsert = 0 ∧ s.instList.length = n ∧
      s.instNumClassify 0 = n % 256 ∧ (∀ x ∈ s.instList, x.issued = false ∧ x.counter = 0) ∧
      (c.selector ≠ .base → s.freelist.length + n = c.iqsize) := by
  induction n with
  | zero => exact ⟨_, .start, rfl, rfl, rfl, rfl, by simp [start], fun h => by simp [start, h]⟩
  | succ n ih =>
    obtain ⟨s, hs, hnum, hins, hlen, hcls, hall, hfree⟩ := ih (Nat.le_of_succ_le hn)
    have hready : s.Possible c (.insert n 0 false) := ready_iff.2 ⟨by omega, rfl, by omega⟩
    have halloc : ∃ tag u, s.allocate c = .ok (tag, u) ∧
        (c.selector ≠ .base → u.freelist.length + (n + 1) = c.iqsize) := by
      unfold allocate
      split_ifs with hbase
      · exact ⟨none, s, rfl, fun h => absurd hbase h⟩
      · have hlong := hfree hbase
        cases hf : s.freelist with
        | nil =>
          rw [hf] at hlong
          simp at hlong
          omega
        | cons tag rest =>
          rw [hf, length_cons] at hlong
          exact ⟨_, _, rfl, fun _ => by dsimp only; omega⟩
    obtain ⟨tag, u, halloc, hfree'⟩ := halloc
    have hroom : ¬s.instNum ≥ c.iqsize := by omega
    have hinsert := hs.step hready (by rw [IqState.step, IqState.insert, if_neg hroom, halloc]; rfl)
    refine ⟨_, hinsert.step (e := .tick) trivial rfl, by simp [hnum], rfl, by simp [hlen], ?_, ?_,
      hfree'⟩
    · simp [hcls]
    · simpa [or_imp, forall_and] using hall

theorem not_sound_of_error {s : IqState} (hs : Reachable c s) (hne : 0 < s.instList.length)
    (hall : ∀ x ∈ s.instList, x.issued = false ∧ x.counter = 0)
    (herr : ∀ x ∈ s.instList, ∀ t, s.popInst c x ≠ .ok t) : ¬Sound c := by
  intro hsound
  have hx : s.instList[0]? = some s.instList[0] := getElem?_eq_getElem hne
  have hmem : s.instList[0] ∈ s.instList := getElem_mem hne
  obtain ⟨t, ht⟩ := (hsound s hs).2 (.issue 0) ⟨_, hx, (hall _ hmem).1⟩
  cases hpop : s.popInst c s.instList[0] with
  | error m => simp [IqState.step, IqState.addToFu, hx, hpop, Except.map] at ht
  | ok u => exact herr _ hmem u hpop

/-- **Which queues keep their accounts.** -/
theorem accounts_iff (c : IqConfig) :
    Sound c ↔ c.inports = 0 ∨ c.iqsize = 0 ∨ c.selector = .base ∧ c.iqsize ≤ 255 := by
  constructor
  · intro hsound
    by_contra hopen
    simp only [not_or, not_and_or] at hopen
    obtain ⟨hports, hsize, hsel⟩ := hopen
    have hpos : 0 < c.inports := Nat.pos_of_ne_zero hports
    by_cases hbase : c.selector = .base
    · -- the counter of eight bits is zero again
      have hbig : 256 ≤ c.iqsize := by
        have := hsel.resolve_left (not_not.2 hbase)
        omega
      obtain ⟨s, hs, hnum, -, hlen, hcls, hall, -⟩ := exists_filled hpos hbig
      refine not_sound_of_error hs (by omega) hall (fun x hx t ht => ?_) hsound
      simp [IqState.popInst, hnum, (hall x hx).2, hcls] at ht
    · -- the free list is empty when the first tag comes back
      obtain ⟨s, hs, hnum, -, hlen, -, hall, hfree⟩ := exists_filled hpos (Nat.le_refl c.iqsize)
      have hempty : s.freelist = [] := length_eq_zero_iff.1 (by have := hfree hbase; omega)
      refine not_sound_of_error hs (by omega) hall (fun x hx t ht => ?_) hsound
      unfold IqState.popInst deallocate at ht
      split_ifs at ht
      split at ht
      · cases ht
      · simp [hempty] at ht
  · rintro (hclosed | hclosed | ⟨hbase, hsize⟩)
    · exact sound_of_closed (Or.inl hclosed)
    · exact sound_of_closed (Or.inr hclosed)
    · exact sound_of_base hbase hsize

theorem one_mod_group (g : ℕ) (h : Selector.page 1 = .page g) : 1 % g = 0 := by
  cases h
  rfl

def oneTag : IqConfig where
  iqsize := 1
  inports := 1
  selector := .page 1
  groups := one_mod_group

/-- The tag of the only instruction cannot be given back. -/
theorem full_queue_asserts :
    ∃ s, Reachable oneTag s ∧ s.Possible oneTag (.issue 0) ∧ s.step oneTag (.issue 0) =
      .error "assert(inst->iqtag >= 0 && inst->iqtag < (int)freelist.size())" :=
  ⟨_, Reachable.start.step (e := .insert 7 0 false) rfl rfl, ⟨_, rfl, rfl⟩, rfl⟩
end IqState
end Gem5
