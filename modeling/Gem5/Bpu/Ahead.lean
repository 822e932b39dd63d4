import Gem5.Bpu.History

/-!
# The ahead branch target buffer

A set is read with the start of one block and searched with the tag of the block that comes
`aheadPipelinedStages` predictions later, so that the training of a block has to find its way back
to the index of an earlier one.
-/

namespace Gem5
open List

/-- The reads on their way through the ahead pipeline; the answer is the one that the new block is
compared with. -/
def aheadRead {α : Type} (stages : ℕ) (reads : List α) (x : α) :
    Except String (Option α × List α) :=
  let reads := reads ++ [x]
  if stages + 1 ≤ reads.length then
    if reads.length = stages + 1 then .ok (reads.head?, reads.tail)
    else .error "aheadReadBtbEntries.size() == aheadPipelinedStages+1"
  else .ok (none, reads)

/-- The sizes; `maxStages` is the largest `aheadPipelinedStages` of all components. -/
structure AheadConfig where
  logSets : ℕ
  stages : ℕ
  stages_pos : 0 < stages
  maxStages : ℕ
  stages_le : stages ≤ maxStages
  usingS3Pred : Bool

def AheadConfig.getIndex (c : AheadConfig) (pc : Addr) : ℕ :=
  pc.toNat / 2 % 2 ^ c.logSets

/-- A target of the queue; `read` is the index that its own lookup has read. -/
structure AheadTarget where
  startPC : Addr
  previousPCs : List Addr
  read : Option ℕ

/-- A thread, its newest target first. -/
structure AheadThread where
  reads : List (Addr × ℕ)
  ftq : List AheadTarget

namespace AheadThread
def fillAheadPipeline (c : AheadConfig) (s : AheadThread) : List Addr :=
  ((s.ftq.take c.maxStages).map (·.startPC)).reverse

/-- A prediction that goes into the target queue. -/
def predict (c : AheadConfig) (s : AheadThread) (startPC : Addr) : Except String AheadThread := do
  let r ← aheadRead c.stages s.reads (startPC, c.getIndex startPC)
  return ⟨r.2, ⟨startPC, s.fillAheadPipeline c, r.1.map (·.2)⟩ :: s.ftq⟩

/-- A squash to a target of the queue, `n` targets older than the newest. -/
def squash (s : AheadThread) (n : ℕ) : AheadThread :=
  ⟨[], s.ftq.drop n⟩

/-- The set written by `updateUsingS3Pred` for the block predicted next. -/
def updateUsingS3Pred (c : AheadConfig) (s : AheadThread) : Option ℕ :=
  let previousPC := (s.ftq.head?.map (·.startPC)).getD 0
  if c.usingS3Pred && previousPC != 0 then some (c.getIndex previousPC) else none

end AheadThread

def AheadTarget.getPreviousPC (c : AheadConfig) (t : AheadTarget) : Addr :=
  if t.previousPCs.length < c.stages then 0
  else (t.previousPCs.drop (t.previousPCs.length - c.stages)).headD 0

/-- The set written by `update`. -/
def AheadTarget.update (c : AheadConfig) (t : AheadTarget) : Option ℕ :=
  if !c.usingS3Pred && t.getPreviousPC c != 0 then some (c.getIndex (t.getPreviousPC c)) else none

namespace AheadThread
variable {c : AheadConfig} {s : AheadThread}

inductive Reachable (c : AheadConfig) : AheadThread → Prop
  | init : Reachable c ⟨[], []⟩
  | predict {s t : AheadThread} {startPC : Addr} (h : Reachable c s) (heven : startPC.toNat % 2 = 0)
      (ht : s.predict c startPC = .ok t) : Reachable c t
  | squash {s : AheadThread} (h : Reachable c s) (n : ℕ) (hn : n < s.ftq.length) :
      Reachable c (s.squash n)

/-- The pipeline never overflows, and training writes the set that the block itself has read. -/
def TrainsItsRead (c : AheadConfig) : Prop :=
  ∀ s, Reachable c s → ∀ startPC, startPC.toNat % 2 = 0 →
    ∃ t, s.predict c startPC = .ok t ∧ ∀ e ∈ t.ftq.head?, ∀ i ∈ e.read,
      (∀ j ∈ s.updateUsingS3Pred c, j = i) ∧ ∀ j ∈ e.update c, j = i

/-- What a target has pushed into the pipeline. -/
def pushed (c : AheadConfig) (t : AheadTarget) : Addr × ℕ :=
  (t.startPC, c.getIndex t.startPC)

structure Aligned (c : AheadConfig) (s : AheadThread) : Prop where
  length_le : s.reads.length ≤ c.stages
  newest : s.reads.reverse <+: s.ftq.map (pushed c)

theorem Aligned.head_reads (h : s.Aligned c) (hfull : s.reads.length = c.stages) :
    s.reads.head? = s.ftq[c.stages - 1]?.map (pushed c) := by
  obtain ⟨older, hqueue⟩ := h.newest
  have hpos := c.stages_pos
  rw [← getElem?_map, ← hqueue, getElem?_append_left (by rw [length_reverse]; omega),
    getElem?_reverse (by omega), head?_eq_getElem?]
  congr 1
  omega

theorem Aligned.predict (h : s.Aligned c) (startPC : Addr) : ∃ t, s.predict c startPC = .ok t ∧
    t.Aligned c ∧ t.reads.length = min (s.reads.length + 1) c.stages ∧
    t.ftq = ⟨startPC, s.fillAheadPipeline c, if s.reads.length = c.stages then
      s.ftq[c.stages - 1]?.map (c.getIndex ·.startPC) else none⟩ :: s.ftq := by
  have hle := h.length_le
  have hpos := c.stages_pos
  have hnewest : (s.reads ++ [(startPC, c.getIndex startPC)]).reverse <+:
      (startPC, c.getIndex startPC) :: s.ftq.map (pushed c) := by
    rw [reverse_concat]
    exact (prefix_cons_inj _).2 h.newest
  by_cases hfull : s.reads.length = c.stages
  · refine ⟨_, by simp only [AheadThread.predict, aheadRead, length_append, length_singleton,
      hfull, le_refl, if_true]; rfl, ⟨?_, ?_⟩, ?_, ?_⟩
    · simp [hfull]
    · rw [← dropLast_reverse]
      refine IsPrefix.trans ?_ hnewest
      exact dropLast_prefix _
    · simp [hfull]
    · rw [if_pos hfull, head?_append_of_ne_nil _ (by rintro hnil; simp [hnil] at hfull; omega),
        h.head_reads hfull, Option.map_map]
      rfl
  · refine ⟨_, by simp only [AheadThread.predict, aheadRead, length_append, length_singleton,
      if_neg (show ¬c.stages + 1 ≤ s.reads.length + 1 by omega)]; rfl, ⟨?_, hnewest⟩, ?_, ?_⟩
    · simp; omega
    · simp; omega
    · rw [if_neg hfull]
      rfl

theorem Reachable.aligned (h : Reachable c s) : s.Aligned c := by
  induction h with
  | init => exact ⟨Nat.zero_le _, nil_prefix⟩
  | predict _ _ ht ih =>
    obtain ⟨t, ht', hinv, -⟩ := ih.predict _
    cases ht.symm.trans ht'
    exact hinv
  | squash _ n hn ih => exact ⟨Nat.zero_le _, nil_prefix⟩

theorem exists_reachable (c : AheadConfig) {starts : List Addr}
    (heven : ∀ a ∈ starts, a.toNat % 2 = 0) : ∃ s, Reachable c s ∧
      s.ftq.map (·.startPC) = starts ∧ s.reads.length = min starts.length c.stages := by
  induction starts with
  | nil => exact ⟨_, .init, rfl, by simp⟩
  | cons a starts ih =>
    obtain ⟨s, hs, hstarts, hlength⟩ := ih fun b hb => heven b (mem_cons_of_mem a hb)
    obtain ⟨t, ht, -, hreads, hftq⟩ := hs.aligned.predict a
    refine ⟨t, hs.predict (heven a mem_cons_self) ht, by rw [hftq, map_cons, hstarts], ?_⟩
    rw [hreads, hlength, length_cons]
    omega

theorem getPreviousPC_eq {old : AheadTarget} (h : s.ftq[c.stages - 1]? = some old) (startPC : Addr)
    (read : Option ℕ) :
    AheadTarget.getPreviousPC c ⟨startPC, s.fillAheadPipeline c, read⟩ = old.startPC := by
  obtain ⟨hlt, -⟩ := List.getElem?_eq_some_iff.1 h
  have hpos := c.stages_pos
  have hmax := c.stages_le
  have hlen : (s.fillAheadPipeline c).length = min c.maxStages s.ftq.length := by
    simp [fillAheadPipeline]
  rw [AheadTarget.getPreviousPC, if_neg (by rw [hlen]; omega), headD_eq_head?_getD, head?_drop,
    hlen, fillAheadPipeline, getElem?_reverse (by simp; omega), getElem?_map, length_map,
    length_take, show min c.maxStages s.ftq.length - 1 -
      (min c.maxStages s.ftq.length - c.stages) = c.stages - 1 by omega,
    getElem?_take_of_lt (by omega), h]
  rfl

/-- **Which tables train the set that they read**: those without a third stage prediction, those
that read one block ahead, and those with a single set. -/
theorem trainsItsRead_iff :
    TrainsItsRead c ↔ c.usingS3Pred = false ∨ c.stages = 1 ∨ c.logSets = 0 := by
  constructor
  · intro h
    by_contra! hnot
    obtain ⟨hs3, hstages, hsets⟩ := hnot
    have hpos := c.stages_pos
    -- the oldest block starts at two, the others at four
    have heven : ∀ a ∈ replicate (c.stages - 1) (4 : Addr) ++ [2], a.toNat % 2 = 0 := by
      intro a ha
      rcases mem_append.1 ha with ha | ha
      · rw [eq_of_mem_replicate ha]; rfl
      · rw [mem_singleton.1 ha]; rfl
    obtain ⟨s, hs, hstarts, hreads⟩ := exists_reachable c heven
    have hold : (s.ftq.map (·.startPC))[c.stages - 1]? = some 2 := by
      rw [hstarts, getElem?_append_right (by simp)]
      simp
    have hhead : s.ftq.head?.map (·.startPC) = some 4 := by
      rw [← head?_map, hstarts, head?_append_of_ne_nil _ (by simp; omega)]
      simp [head?_replicate]
      omega
    obtain ⟨t, ht, hall⟩ := h s hs 4 rfl
    obtain ⟨t', ht', -, -, hftq⟩ := hs.aligned.predict 4
    cases ht.symm.trans ht'
    rw [getElem?_map, Option.map_eq_some_iff] at hold
    obtain ⟨old, hold, hpc⟩ := hold
    rw [hftq, if_pos (by rw [hreads]; simp; omega), hold] at hall
    have heq : c.getIndex 4 = c.getIndex old.startPC :=
      (hall _ rfl _ rfl).1 _ (by simp [updateUsingS3Pred, hhead, hs3])
    rw [hpc] at heq
    have htwo := dvd_pow_self 2 hsets
    have hmod := congrArg (· % 2) heq
    simp only [AheadConfig.getIndex, Nat.mod_mod_of_dvd _ htwo] at hmod
    revert hmod
    decide
  · intro h s hs startPC _
    obtain ⟨t, ht, -, -, hftq⟩ := hs.aligned.predict startPC
    refine ⟨t, ht, ?_⟩
    rw [hftq]
    rintro _ ⟨⟩ i hi
    dsimp only at hi
    split_ifs at hi with hfull
    · obtain ⟨old, hold, rfl⟩ := Option.map_eq_some_iff.1 hi
      constructor
      · intro j hj
        unfold updateUsingS3Pred at hj
        dsimp only at hj
        split_ifs at hj with hwrite
        · cases hj
          obtain hs3 | hstages | hsets := h
          · simp [hs3] at hwrite
          · rw [hstages, Nat.sub_self, ← head?_eq_getElem?] at hold
            rw [hold]
            rfl
          · simp [AheadConfig.getIndex, hsets, Nat.mod_one]
        · cases hj
      · intro j hj
        rw [AheadTarget.update, getPreviousPC_eq hold] at hj
        split_ifs at hj
        · exact (Option.some.inj hj).symm
        · cases hj
    · cases hi

/-- With two stages a prediction has read set 1, and the update goes to set 0. -/
theorem twoStages_misaligned :
    let c : AheadConfig := ⟨1, 2, Nat.two_pos, 2, Nat.le_refl 2, true⟩
    ∃ s t, Reachable c s ∧ s.predict c 4 = .ok t ∧ t.ftq.head?.bind (·.read) = some 1 ∧
      s.updateUsingS3Pred c = some 0 :=
  ⟨_, _, @Reachable.predict _ _ _ 4 (@Reachable.predict _ _ _ 2 .init rfl rfl) rfl rfl, rfl, rfl,
    rfl⟩

end AheadThread

/-! ### Replacement -/

structure AheadEntry extends BTBEntry where
  alwaysTaken : Bool
  ctr : ℤ
  tag : ℕ
  tick : ℕ

/-- The entries by set and way, and the sets on their way through the pipeline.  `lastWrite` and
`lastHit` tell when an update has written a way and when a lookup has found its tag. -/
structure AheadBTB where
  btb : ℕ → ℕ → AheadEntry
  reads : List (Addr × ℕ × (ℕ → AheadEntry))
  now : ℕ
  lastWrite : ℕ → ℕ → ℕ
  lastHit : ℕ → ℕ → ℕ

namespace AheadBTB
def init : AheadBTB :=
  ⟨fun _ _ => ⟨⟨.none, false⟩, false, 0, 0, 0⟩, [], 0, fun _ _ => 0, fun _ _ => 0⟩

def updateCtr (ctr : ℤ) (taken : Bool) : ℤ :=
  if taken && ctr < 1 then ctr + 1 else if !taken && -2 < ctr then ctr - 1 else ctr

/-- The entry that `updateBTBEntry` writes over `old`, or for a branch that it has not found. -/
def entryToWrite (tag now : ℕ) (entry : AheadEntry) (taken : Option BranchInfo)
    (old : Option AheadEntry) : AheadEntry :=
  let e := if entry.isCond then old.getD entry else entry
  let own := taken.any (·.pc == e.pc)
  let always := e.alwaysTaken && (!e.isCond || own)
  { e with
    tag := tag
    tick := now
    alwaysTaken := always
    ctr := if e.isCond && !always then updateCtr e.ctr own else e.ctr
    target := if e.isIndirect && own then (taken.getD .none).target else e.target }

/-- `lookupSingleBlock`.  The set that is searched is a copy, and so are the ticks of its hits. -/
def lookupSingleBlock (c : AheadConfig) (tagBits numWays : ℕ) (s : AheadBTB) (pc : Addr)
    (now : ℕ) : Except String (List AheadEntry × AheadBTB) :=
  if pc.toNat % 2 = 1 then .ok ([], { s with now := now })
  else do
    let r ← aheadRead c.stages s.reads (pc, c.getIndex pc, s.btb (c.getIndex pc))
    let hit e := e.valid && e.tag == pc.toNat / 2 % 2 ^ tagBits
    let res := r.1.elim [] fun x => ((range numWays).map x.2.2).filter hit
    return (res, { s with
      reads := r.2
      now := now
      lastHit := fun i w =>
        if r.1.any fun x => x.2.1 == i && hit (x.2.2 w) then now else s.lastHit i w })

/-- The way of a branch that is in its set. -/
def findWay (numWays : ℕ) (s : AheadBTB) (idx : ℕ) (entry : AheadEntry) : Option ℕ :=
  (range numWays).find? fun w => (s.btb idx w).pc == entry.pc

/-- `updateBTBEntry`; `oldest` is the way at the root of the heap. -/
def updateBTBEntry (numWays : ℕ) (s : AheadBTB) (idx tag : ℕ) (entry : AheadEntry)
    (taken : Option BranchInfo) (oldest now : ℕ) : AheadBTB :=
  let found := s.findWay numWays idx entry
  let e := entryToWrite tag now entry taken (found.map (s.btb idx))
  let way := found.getD oldest
  { s with
    btb := fun i w => if i = idx ∧ w = way then e else s.btb i w
    now := now
    lastWrite := fun i w => if i = idx ∧ w = way then now else s.lastWrite i w }

/-- The root of the heap of a set, which `older` orders by the ticks. -/
structure Oldest (numWays : ℕ) (s : AheadBTB) (idx : ℕ) where
  way : ℕ
  lt : way < numWays
  le : ∀ w < numWays, (s.btb idx way).tick ≤ (s.btb idx w).tick

inductive Reachable (c : AheadConfig) (tagBits numWays : ℕ) : AheadBTB → Prop
  | init : Reachable c tagBits numWays init
  | lookup {s t : AheadBTB} {pc : Addr} {now : ℕ} {res : List AheadEntry}
      (h : Reachable c tagBits numWays s) (hnow : s.now < now)
      (ht : s.lookupSingleBlock c tagBits numWays pc now = .ok (res, t)) :
      Reachable c tagBits numWays t
  | update {s : AheadBTB} (h : Reachable c tagBits numWays s) (idx : ℕ)
      (oldest : s.Oldest numWays idx) (tag : ℕ) (entry : AheadEntry) (taken : Option BranchInfo)
      (now : ℕ) (hnow : s.now < now) : Reachable c tagBits numWays
        (s.updateBTBEntry numWays idx tag entry taken oldest.way now)

def lastUse (s : AheadBTB) (idx way : ℕ) : ℕ :=
  max (s.lastWrite idx way) (s.lastHit idx way)

/-- The way has never been written, or all have been and it is the least recently used one. -/
def LeastRecent (numWays : ℕ) (s : AheadBTB) (idx way : ℕ) : Prop :=
  s.lastWrite idx way = 0 ∨
    ∀ w < numWays, s.lastWrite idx w ≠ 0 ∧ s.lastUse idx way ≤ s.lastUse idx w

section
variable {c : AheadConfig} {tagBits numWays : ℕ}

theorem Reachable.tick_eq {s : AheadBTB} (h : Reachable c tagBits numWays s) (idx way : ℕ) :
    (s.btb idx way).tick = s.lastWrite idx way := by
  induction h with
  | init => rfl
  | lookup _ _ ht ih =>
    unfold lookupSingleBlock at ht
    split_ifs at ht
    · cases ht
      exact ih
    · revert ht
      cases aheadRead _ _ _ with
      | error => exact nofun
      | ok r =>
        rintro ⟨⟩
        exact ih
  | update _ idx oldest tag entry taken now _ ih =>
    simp only [updateBTBEntry]
    split_ifs
    · rfl
    · exact ih

/-- **The way that a new branch replaces** is the least recently used one only as far as the hits of
its lookups do not count: the ticks do not know of them. -/
theorem leastRecent_iff {s : AheadBTB} (hs : Reachable c tagBits numWays s) {idx : ℕ}
    (oldest : s.Oldest numWays idx) {entry : AheadEntry}
    (hmiss : s.findWay numWays idx entry = none) :
    LeastRecent numWays s idx ((s.findWay numWays idx entry).getD oldest.way) ↔
      s.lastWrite idx oldest.way = 0 ∨
        ∀ w < numWays, s.lastHit idx oldest.way ≤ s.lastUse idx w := by
  have hle := oldest.le
  simp only [hs.tick_eq] at hle
  rw [hmiss, Option.getD_none]
  refine or_congr_right' fun hpos => forall₂_congr fun w hw => ?_
  have := hle w hw
  unfold lastUse
  omega
end

/-- One set with two ways. -/
def twoWaySet : AheadConfig :=
  ⟨0, 1, Nat.one_pos, 1, Nat.le_refl 1, true⟩

/-- The entry of a branch. -/
def branchEntry (pc : Addr) : AheadEntry :=
  ⟨⟨⟨pc, 0, false, false, false, false, 4⟩, true⟩, false, 0, 0, 0⟩

theorem reachable_written : Reachable twoWaySet 8 2 ((init.updateBTBEntry 2 0 1 (branchEntry 2)
    none 0 1).updateBTBEntry 2 0 2 (branchEntry 6) none 1 2) :=
  (Reachable.init.update 0 ⟨0, Nat.two_pos, fun _ _ => le_rfl⟩ 1 (branchEntry 2) none 1
    Nat.one_pos).update 0 ⟨1, Nat.one_lt_two, fun _ _ => Nat.zero_le _⟩ 2 (branchEntry 6) none 2
    Nat.one_lt_two

/-- Without lookups a third branch replaces the first one. -/
theorem first_replaced : ∃ s, Reachable twoWaySet 8 2 s ∧ s.lastWrite 0 0 = 1 ∧
    LeastRecent 2 s 0 ((s.findWay 2 0 (branchEntry 10)).getD 0) :=
  ⟨_, reachable_written, rfl, (leastRecent_iff reachable_written
    ⟨0, by decide, by decide +kernel⟩ (by decide +kernel)).2 (.inr (by decide +kernel))⟩

/-- A third branch replaces the way that was hit last. -/
theorem hit_replaced :
    ∃ s, Reachable twoWaySet 8 2 s ∧ ∃ oldest : s.Oldest 2 0,
      (s.findWay 2 0 (branchEntry 10)).getD oldest.way = 0 ∧ s.lastUse 0 0 = 4 ∧
      s.lastUse 0 1 = 2 := by
  have hthird := @Reachable.lookup _ _ _ _ _ 2 3 _ reachable_written (by decide) rfl
  exact ⟨_, @Reachable.lookup _ _ _ _ _ 2 4 _ hthird (by decide) rfl,
    ⟨0, by decide, by decide +kernel⟩, by decide +kernel, by decide +kernel, by decide +kernel⟩

end AheadBTB
end Gem5
