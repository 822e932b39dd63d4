import Mathlib.Data.List.FinRange

/-!
# Dispatch to the issue queues

Dispatch asks whether a queue is ready for an instruction and then inserts it.  A split store
becomes two micro-ops, one for the data and one for the address; the queues for both are asked
before either is inserted.

`IssueQue::insert` asserts that there is room, that a selector with tags has one left, and that an
instruction that waits for no source can issue.  The first is what `ready` asks; the other two hold
of what rename hands over (`DispInst.Renamed`) and of queues that take one tag for each instruction
(`DispState.Tagged`).
-/

namespace Gem5
open List Function

inductive DispOp
  | memWrite
  | storeData
  | other (code : ℕ)
  deriving DecidableEq

/-- The queues with the classes of their units.  `sort` is `std::sort` by some number, which leaves
the order of equals open. -/
structure DispConfig where
  numQueues : ℕ
  iqsize : Fin numQueues → ℕ
  inports : Fin numQueues → ℕ
  ops : Fin numQueues → List DispOp
  /-- The queues whose selector is a `PAgeSelector`. -/
  pAge : Fin numQueues → Bool
  oldDisp : Bool
  sort : (Fin numQueues → ℕ) → List (Fin numQueues) → List (Fin numQueues)
  sort_perm : ∀ key l, (sort key l).Perm l

namespace DispConfig
def dispTable (c : DispConfig) (op : DispOp) : List (Fin c.numQueues) :=
  (List.finRange c.numQueues).flatMap fun q => ((c.ops q).filter (· = op)).map fun _ => q

/-- What the constructor of `Scheduler` asserts. -/
def accepted (c : DispConfig) : Bool :=
  (List.finRange c.numQueues).all (fun q => !(c.ops q).isEmpty) &&
    decide ((c.dispTable .memWrite).length = (c.dispTable .storeData).length)
end DispConfig

/-- The queues and the tables of dispatch; `replayFull` says that too many instructions are to be
replayed, `classify` is `instNumClassify`, and `freelist` has the tags of the selectors. -/
structure DispState (c : DispConfig) where
  instNum : Fin c.numQueues → ℕ
  instNumInsert : Fin c.numQueues → ℕ
  replayFull : Fin c.numQueues → Bool
  classify : Fin c.numQueues → DispOp → ℕ
  freelist : Fin c.numQueues → List ℕ
  scoreboard : ℕ → Bool
  earlyScoreboard : ℕ → Bool
  table : DispOp → List (Fin c.numQueues)
  dispSeqVec : ℕ → ℕ

/-- A renamed source: its register, whether that has a fixed mapping, and whether it is marked
ready. -/
structure DispSrc where
  reg : ℕ
  fixed : Bool
  ready : Bool
  deriving DecidableEq

structure DispInst where
  opClass : DispOp
  isSplitStoreAddr : Bool
  srcs : List DispSrc
  canIssue : Bool

namespace DispInst

/-- What rename hands over: sources with a fixed mapping are ready, an instruction whose sources are
all ready can issue, and a split store has a base and a datum. -/
structure Renamed (x : DispInst) : Prop where
  fixed : ∀ src ∈ x.srcs, src.fixed = true → src.ready = true
  canIssue : (∀ src ∈ x.srcs, src.ready = true) → x.canIssue = true
  split : x.isSplitStoreAddr = true → x.srcs.length = 2

def datum (x : DispInst) : DispSrc := x.srcs.getD 1 ⟨0, true, true⟩

def createStoreDataUop (x : DispInst) : DispInst :=
  ⟨.storeData, false, [x.datum], x.datum.ready⟩

/-- The datum becomes the invalid register, marked ready. -/
def buildStoreAddrUop (x : DispInst) : Except String DispInst :=
  if x.srcs.length = 2 then
    let srcs := x.srcs.set 1 ⟨0, true, true⟩
    .ok { x with
      isSplitStoreAddr := false
      srcs := srcs
      canIssue := x.canIssue || (!x.datum.ready && srcs.all (·.ready)) }
  else .error "assert(numSrcRegs() == 2)"

theorem Renamed.storeData {x : DispInst} (h : x.Renamed) : x.createStoreDataUop.Renamed := by
  have hdatum : x.datum.fixed = true → x.datum.ready = true := by
    unfold datum
    rw [getD_eq_getElem?_getD]
    cases hsrc : x.srcs[1]? with
    | none => exact fun _ => rfl
    | some src => exact h.fixed src (mem_of_getElem? hsrc)
  exact ⟨by simpa [createStoreDataUop] using hdatum, by simp [createStoreDataUop],
    by simp [createStoreDataUop]⟩

theorem Renamed.storeAddr {x : DispInst} (h : x.Renamed) (hsplit : x.isSplitStoreAddr = true) :
    ∃ y, x.buildStoreAddrUop = .ok y ∧ y.opClass = x.opClass ∧ y.Renamed := by
  obtain ⟨base, datum, hsrcs⟩ := length_eq_two.1 (h.split hsplit)
  refine ⟨_, if_pos (h.split hsplit), rfl, ?_, ?_, nofun⟩
  · have hbase := h.fixed base (by simp [hsrcs])
    simpa [hsrcs] using hbase
  · intro hall
    have hissue := h.canIssue
    simp only [hsrcs, mem_cons, not_mem_nil, or_false, forall_eq_or_imp, forall_eq] at hissue
    simp only [hsrcs, set_cons_succ, set_cons_zero, mem_cons, not_mem_nil, or_false,
      forall_eq_or_imp, forall_eq, and_true] at hall
    cases hdatum : datum.ready with
    | true => simp [hissue ⟨hall, hdatum⟩]
    | false => simp [DispInst.datum, hsrcs, hall, hdatum]

end DispInst

namespace DispState
variable {c : DispConfig}

def start (c : DispConfig) : DispState c :=
  ⟨fun _ => 0, fun _ => 0, fun _ => false, fun _ _ => 0, fun q => List.range (c.iqsize q),
    fun _ => true, fun _ => true, c.dispTable, fun _ => 0⟩

/-- The selectors have a tag for each instruction that there is room for: `allocate` takes one with
each instruction that enters, and `POPINST` gives one back. -/
def Tagged (s : DispState c) : Prop :=
  ∀ q, c.pAge q = true → (s.freelist q).length + s.instNum q = c.iqsize q

theorem start_tagged : (start c).Tagged := by
  intro q _
  simp [start]

/-- `IssueQue::ready`. -/
def isReady (s : DispState c) (q : Fin c.numQueues) : Bool :=
  !(decide (s.instNum q ≥ c.iqsize q) || s.replayFull q) &&
    !decide (s.instNumInsert q ≥ c.inports q)

def sortTable (op : DispOp) (s : DispState c) : DispState c :=
  { s with
    table := update s.table op (c.sort (fun q => s.classify q op) (s.table op)) }

/-- One instruction in `lookahead`.  The classes with the same queues share a counter. -/
def lookaheadOne (r : DispState c × (List (Fin c.numQueues) → ℕ)) (x : DispInst × ℕ) :
    DispState c × (List (Fin c.numQueues) → ℕ) :=
  let s := r.1.sortTable x.1.opClass
  let s := if x.1.isSplitStoreAddr then s.sortTable .storeData else s
  let key := c.dispTable x.1.opClass
  ({ s with dispSeqVec :=
      update s.dispSeqVec x.2 (r.2 key % (s.table x.1.opClass).length) },
    update r.2 key (r.2 key + 1))

def lookahead (insts : List DispInst) (s : DispState c) : DispState c :=
  if c.oldDisp then s else (insts.zipIdx.foldl lookaheadOne (s, fun _ => 0)).1

/-- `Scheduler::lookahead` moves no tag. -/
theorem Tagged.lookahead {s : DispState c} (hs : s.Tagged) (insts : List DispInst) :
    (s.lookahead insts).Tagged := by
  unfold DispState.lookahead
  split_ifs
  · exact hs
  · have hstep : ∀ r : DispState c × (List (Fin c.numQueues) → ℕ), r.1.Tagged →
        ∀ x ∈ insts.zipIdx, (lookaheadOne r x).1.Tagged := by
      intro r hr x _
      unfold lookaheadOne
      dsimp only
      split_ifs
      · exact hr
      · exact hr
    exact foldlRecOn insts.zipIdx lookaheadOne (b := (s, fun _ => 0)) hs hstep

/-- `Scheduler::ready` for a class. -/
def readyOp (op : DispOp) (dispSeq : ℕ) (s : DispState c) : Except String Bool :=
  if (s.table op).isEmpty then .error "assert(!iqs.empty())"
  else if c.oldDisp then .ok ((s.table op).any s.isReady)
  else
    match (s.table op)[s.dispSeqVec dispSeq]? with
    | none => .error "index out of range"
    | some q => .ok (s.isReady q)

def ready (x : DispInst) (dispSeq : ℕ) (s : DispState c) : Except String Bool :=
  if x.isSplitStoreAddr then
    (s.readyOp .storeData dispSeq).bind fun b =>
      if b then s.readyOp x.opClass dispSeq else .ok false
  else s.readyOp x.opClass dispSeq

/-- The queue that `Scheduler::insert` takes. -/
def insertQueue (op : DispOp) (dispSeq : ℕ) (s : DispState c) :
    Except String (Fin c.numQueues) :=
  if c.oldDisp then
    match (c.sort (fun q => s.classify q op) (s.table op)).find? s.isReady with
    | none => .error "can't find ready IQ to insert"
    | some q => .ok q
  else
    match (s.table op)[s.dispSeqVec dispSeq]? with
    | none => .error "index out of range"
    | some q =>
      if s.isReady q then .ok q
      else .error "assert(iqs[dispSeqVec.at(disp_seq)]->ready())"

/-- A source that goes into the dependency graph. -/
def waitsFor (s : DispState c) (src : DispSrc) : Bool :=
  !src.ready && !src.fixed && !s.scoreboard src.reg

/-- What the loop over the sources makes of one. -/
def wakeSrc (s : DispState c) (src : DispSrc) : DispSrc :=
  if !src.ready && !src.fixed then
    { src with ready := s.scoreboard src.reg || s.earlyScoreboard src.reg }
  else src

/-- `readyToIssue()` after the loop: the last source that is marked makes it so. -/
def readyToIssue (s : DispState c) (x : DispInst) : Bool :=
  let srcs := x.srcs.map s.wakeSrc
  x.canIssue || (decide (srcs ≠ x.srcs) && srcs.all (·.ready))

/-- `IssueQue::insert`. -/
def enqueue (x : DispInst) (s : DispState c) (q : Fin c.numQueues) : Except String (DispState c) :=
  if s.instNum q ≥ c.iqsize q then .error "assert(instNum < iqsize)"
  else if c.pAge q && (s.freelist q).isEmpty then .error "assert(!freelist.empty())"
  else if !x.srcs.any s.waitsFor && !s.readyToIssue x then .error "assert(inst->readyToIssue())"
  else .ok { s with
    instNum := update s.instNum q (s.instNum q + 1)
    instNumInsert := update s.instNumInsert q (s.instNumInsert q + 1)
    freelist := update s.freelist q (if c.pAge q then (s.freelist q).tail else s.freelist q)
    classify := update s.classify q
      (update (s.classify q) x.opClass ((s.classify q x.opClass + 1) % 256)) }

def insertOp (x : DispInst) (dispSeq : ℕ) (s : DispState c) : Except String (DispState c) :=
  (s.insertQueue x.opClass dispSeq).bind
    (enqueue x (if c.oldDisp then s.sortTable x.opClass else s))

def insert (x : DispInst) (dispSeq : ℕ) (s : DispState c) : Except String (DispState c) :=
  if x.isSplitStoreAddr then
    (s.insertOp x.createStoreDataUop dispSeq).bind fun t =>
      x.buildStoreAddrUop.bind (t.insertOp · dispSeq)
  else s.insertOp x dispSeq

def candidates (op : DispOp) (dispSeq : ℕ) (s : DispState c) : List (Fin c.numQueues) :=
  if c.oldDisp then s.table op else ((s.table op)[s.dispSeqVec dispSeq]?).toList

def readyForTwo (s : DispState c) (q : Fin c.numQueues) : Bool :=
  s.isReady q && decide (s.instNum q + 1 < c.iqsize q ∧ s.instNumInsert q + 1 < c.inports q)

variable {s : DispState c} {op : DispOp} {k : ℕ} {q d : Fin c.numQueues}

theorem isReady_iff : s.isReady q = true ↔ (s.instNum q < c.iqsize q ∧ s.replayFull q = false) ∧
    s.instNumInsert q < c.inports q := by
  simp [isReady]

theorem exists_of_readyOp (h : s.readyOp op k = .ok true) :
    ∃ q ∈ s.candidates op k, s.isReady q = true := by
  unfold readyOp at h
  unfold candidates
  split_ifs at h ⊢
  · exact any_eq_true.1 (Except.ok.inj h)
  · split at h
    · cases h
    · rename_i q hq
      exact ⟨q, by simp [hq], Except.ok.inj h⟩

theorem insertQueue_ok_iff :
    (∃ q, s.insertQueue op k = .ok q) ↔ ∃ q ∈ s.candidates op k, s.isReady q = true := by
  unfold insertQueue candidates
  split_ifs
  · cases hfind : (c.sort (fun q => s.classify q op) (s.table op)).find? s.isReady with
    | none =>
      rw [find?_eq_none] at hfind
      simpa using fun q hq => by simpa using hfind q ((c.sort_perm _ _).mem_iff.2 hq)
    | some q =>
      have hq := (c.sort_perm _ _).mem_iff.1 (mem_of_find?_eq_some hfind)
      exact iff_of_true ⟨q, rfl⟩ ⟨q, hq, find?_some hfind⟩
  · cases (s.table op)[s.dispSeqVec k]? with
    | none => simp
    | some q => cases hq : s.isReady q <;> simp [hq]

theorem isReady_of_insertQueue (h : s.insertQueue op k = .ok q) : s.isReady q = true := by
  unfold insertQueue at h
  split_ifs at h <;> split at h
  · cases h
  · rename_i q' hfind
    cases h
    exact find?_some hfind
  · cases h
  · split_ifs at h with hq
    cases h
    exact hq

/-- An instruction that waits for no source can issue. -/
theorem readyToIssue_of_not_waits {x : DispInst} (hx : x.Renamed)
    (hwaits : x.srcs.any s.waitsFor = false) : s.readyToIssue x = true := by
  have hready : ∀ src ∈ x.srcs, (s.wakeSrc src).ready = true := by
    intro src hsrc
    have hwait : s.waitsFor src = false := by simpa using any_eq_false.1 hwaits src hsrc
    have hfixed := hx.fixed src hsrc
    unfold wakeSrc
    unfold waitsFor at hwait
    cases hr : src.ready <;> cases hf : src.fixed <;> simp_all
  have hall : (x.srcs.map s.wakeSrc).all (·.ready) = true := by simpa using hready
  by_cases hsame : x.srcs.map s.wakeSrc = x.srcs
  · have hissue : x.canIssue = true := hx.canIssue (by simpa [hsame] using hall)
    simp [readyToIssue, hissue]
  · simp only [readyToIssue, hall, hsame, ne_eq, not_false_eq_true, decide_true, Bool.and_self,
      Bool.or_true]

/-- **`IssueQue::insert`** fails nothing if there is room. -/
theorem enqueue_spec {x : DispInst} (hs : s.Tagged) (hx : x.Renamed)
    (hq : s.instNum q < c.iqsize q) :
    ∃ t, s.enqueue x q = .ok t ∧ t.Tagged ∧ t.replayFull = s.replayFull ∧ t.table = s.table ∧
      t.dispSeqVec = s.dispSeqVec ∧ t.instNum = update s.instNum q (s.instNum q + 1) ∧
      t.instNumInsert = update s.instNumInsert q (s.instNumInsert q + 1) := by
  have htag : ¬(c.pAge q && (s.freelist q).isEmpty) = true := by
    intro h
    rw [Bool.and_eq_true, List.isEmpty_iff] at h
    have := hs q h.1
    rw [h.2, length_nil] at this
    omega
  have hissue : ¬(!x.srcs.any s.waitsFor && !s.readyToIssue x) = true := by
    intro h
    rw [Bool.and_eq_true, Bool.not_eq_true', Bool.not_eq_true'] at h
    simp [readyToIssue_of_not_waits hx h.1] at h
  refine ⟨_, (if_neg (Nat.not_le.2 hq)).trans ((if_neg htag).trans (if_neg hissue)), ?_, rfl, rfl,
    rfl, rfl, rfl⟩
  intro r hr
  have htags := hs r hr
  by_cases hrq : r = q
  · subst hrq
    simp only [update_self, hr, if_true, length_tail]
    omega
  · simpa only [update_of_ne hrq] using htags

theorem insertOp_spec {x : DispInst} (hs : s.Tagged) (hx : x.Renamed)
    (h : s.insertQueue x.opClass k = .ok d) :
    ∃ t, s.insertOp x k = .ok t ∧ t.Tagged ∧
      (∀ q, t.isReady q = if q = d then s.readyForTwo q else s.isReady q) ∧
      ∀ op' q, q ∈ t.candidates op' k ↔ q ∈ s.candidates op' k := by
  have hd := (isReady_iff.1 (isReady_of_insertQueue h)).1.1
  obtain ⟨u, hu⟩ : ∃ u, u = if c.oldDisp then s.sortTable x.opClass else s := ⟨_, rfl⟩
  have hsame : u.Tagged ∧ u.instNum = s.instNum ∧ u.instNumInsert = s.instNumInsert ∧
      u.replayFull = s.replayFull := by
    rw [hu]
    split_ifs
    · exact ⟨hs, rfl, rfl, rfl⟩
    · exact ⟨hs, rfl, rfl, rfl⟩
  obtain ⟨htag, hnum, hins, hrep⟩ := hsame
  obtain ⟨t, ht, httag, htrep, httab, htseq, htnum, htins⟩ :=
    enqueue_spec htag hx (by rw [hnum]; exact hd)
  refine ⟨t, by rw [insertOp, h, Except.bind, ← hu, ht], httag, fun q => ?_, fun op' q => ?_⟩
  · by_cases hq : q = d
    · subst hq
      rw [Bool.eq_iff_iff, isReady_iff]
      simp only [htnum, htins, htrep, hnum, hins, hrep, update_self, if_true, readyForTwo,
        Bool.and_eq_true, isReady_iff, decide_eq_true_eq]
      constructor
      · rintro ⟨⟨hsize, hreplay⟩, hports⟩
        exact ⟨⟨⟨by omega, hreplay⟩, by omega⟩, hsize, hports⟩
      · rintro ⟨⟨⟨-, hreplay⟩, -⟩, hsize, hports⟩
        exact ⟨⟨hsize, hreplay⟩, hports⟩
    · simp [isReady, hq, htnum, htins, htrep, hnum, hins, hrep]
  · by_cases hold : c.oldDisp = true
    · simp only [candidates, hold, if_true, httab, hu, sortTable]
      by_cases hop : op' = x.opClass
      · subst hop
        rw [update_self]
        exact (c.sort_perm _ _).mem_iff
      · rw [update_of_ne hop]
    · simp [candidates, hold, httab, htseq, hu]

/-- **When the check before dispatch suffices.**  An instruction that is not split can always be
inserted; of a split store, the address needs a queue other than the one the data has filled. -/
theorem insert_ok_iff {x : DispInst} (hs : s.Tagged) (hx : x.Renamed)
    (hready : s.ready x k = .ok true) :
    (∃ t, s.insert x k = .ok t) ↔ (x.isSplitStoreAddr = true →
      ∃ d, s.insertQueue .storeData k = .ok d ∧ ∃ q ∈ s.candidates x.opClass k,
        s.isReady q = true ∧ (q ≠ d ∨ s.readyForTwo q = true)) := by
  unfold ready at hready
  unfold insert
  cases hsplit : x.isSplitStoreAddr with
  | false =>
    rw [hsplit] at hready
    obtain ⟨q, hq⟩ := insertQueue_ok_iff.2 (exists_of_readyOp (s := s) hready)
    obtain ⟨t, ht, -⟩ := insertOp_spec hs hx hq
    simp [ht]
  | true =>
    rw [hsplit] at hready
    have hboth : s.readyOp .storeData k = .ok true ∧ s.readyOp x.opClass k = .ok true := by
      cases hdata : s.readyOp .storeData k with
      | error m => simp [hdata, Except.bind] at hready
      | ok b => cases b <;> simp_all [Except.bind]
    obtain ⟨d, hd⟩ := insertQueue_ok_iff.2 (exists_of_readyOp hboth.1)
    obtain ⟨t, ht, htag, hnext, hcand⟩ := insertOp_spec hs hx.storeData hd
    obtain ⟨y, hy, hop, hren⟩ := hx.storeAddr hsplit
    have haddr : (∃ u, t.insertOp y k = .ok u) ↔
        ∃ q ∈ t.candidates x.opClass k, t.isReady q = true := by
      rw [← insertQueue_ok_iff, ← hop]
      constructor
      · rintro ⟨u, hu⟩
        cases hq : t.insertQueue y.opClass k with
        | error m => simp [insertOp, hq, Except.bind] at hu
        | ok q => exact ⟨q, rfl⟩
      · rintro ⟨q, hq⟩
        exact (insertOp_spec htag hren hq).imp fun _ h => h.1
    simp only [if_true, ht, hy, Except.bind, haddr, hcand, hnext, hd, Except.ok.injEq,
      exists_eq_left', forall_const]
    refine exists_congr fun q => and_congr_right fun _ => ?_
    by_cases hq : q = d
    · simp only [hq, readyForTwo]
      grind
    · simp [hq]

theorem perm_unsorted {n : ℕ} (_ : Fin n → ℕ) (l : List (Fin n)) : l.Perm l := List.Perm.refl l

def oneQueue : DispConfig where
  numQueues := 1
  iqsize _ := 1
  inports _ := 2
  ops _ := [.memWrite, .storeData]
  pAge _ := true
  oldDisp := false
  sort _ l := l
  sort_perm := perm_unsorted

/-- A store whose base is ready and whose datum, in register 7, is not. -/
def splitStore : DispInst := ⟨.memWrite, true, [⟨5, false, true⟩, ⟨7, false, false⟩], false⟩

/-- A store of two micro-ops passes the check, and its second micro-op finds the queue full. -/
theorem split_store_fails :
    oneQueue.accepted = true ∧
      ((start oneQueue).lookahead [splitStore]).ready splitStore 0 = .ok true ∧
      ((start oneQueue).lookahead [splitStore]).insert splitStore 0 =
        .error "assert(iqs[dispSeqVec.at(disp_seq)]->ready())" :=
  ⟨rfl, rfl, rfl⟩

def twoQueues : DispConfig where
  numQueues := 2
  iqsize _ := 1
  inports _ := 1
  ops q := if q = 0 then [.memWrite] else [.storeData]
  pAge _ := true
  oldDisp := false
  sort _ l := l
  sort_perm := perm_unsorted

/-- With a queue for each micro-op, the store is inserted; its datum is waited for. -/
theorem split_store_inserted :
    twoQueues.accepted = true ∧
      ((start twoQueues).lookahead [splitStore]).ready splitStore 0 = .ok true ∧
      ∃ t, ((start twoQueues).lookahead [splitStore]).insert splitStore 0 = .ok t := by
  have hrenamed : splitStore.Renamed := ⟨by decide, by decide, fun _ => rfl⟩
  refine ⟨rfl, rfl, (insert_ok_iff (start_tagged.lookahead _) hrenamed rfl).2 ?_⟩
  exact fun _ => ⟨⟨1, by decide⟩, rfl, ⟨0, by decide⟩, by decide, rfl, .inl (by decide)⟩

end DispState
end Gem5
