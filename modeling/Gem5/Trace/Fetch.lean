import Gem5.Trace.Seek

/-!
# Fetch from a trace

In trace mode, the fetch stage takes its instructions from the trace reader.  Every instruction is
bound to the record that it was made from, so that a squash can roll the reader back.  After a
misprediction, no-ops are fetched until the branch is resolved: the wrong path.

Three numberings meet here: the sequence numbers of the instructions, the numbers of the records,
from zero, and those of the metadata map and of the reader, from one.

There is one thread, and trace mode is on.  What does not depend on the trace (the decoder, branch
prediction, statistics) is left out.
-/

namespace Gem5
open List Function ChampSimTrace

def traceStreamMinFill : ℕ := 16

def traceMetaGuard : ℕ := 256

structure TraceFetch where
  traceEnableWrongPath : Bool
  traceBPValidation : Bool
  traceReader : TraceReader
  traceExpectedStream : List TraceInstruction
  traceInstMap : ℕ → Option TraceInstruction
  seqNumToTraceIndex : ℕ → Option ℕ
  traceInstrConsumed : ℕ
  traceWrongPathActive : Bool
  traceWrongPathBranchSeqNum : ℕ
  traceWrongPathForceMinStep : Bool
  traceWrongPathPredPC : UInt64
  traceWrongPathCorrectPC : UInt64

namespace TraceFetch

/-- After `initTraceMode` and `resetStage`. -/
def init (traceEnableWrongPath traceBPValidation : Bool) : TraceFetch where
  traceEnableWrongPath := traceEnableWrongPath
  traceBPValidation := traceBPValidation
  traceReader := .init
  traceExpectedStream := []
  traceInstMap _ := none
  seqNumToTraceIndex _ := none
  traceInstrConsumed := 1
  traceWrongPathActive := false
  traceWrongPathBranchSeqNum := 0
  traceWrongPathForceMinStep := false
  traceWrongPathPredPC := 0
  traceWrongPathCorrectPC := 0

variable (tr : ChampSimTrace)

/-! ### Fetch -/

/-- The loop of `ensureTraceStreamFilled`, which gets at most `rounds` instructions. -/
def fillStream : ℕ → TraceFetch → Except String TraceFetch
  | 0, f => .ok f
  | rounds + 1, f =>
    if f.traceExpectedStream.length < traceStreamMinFill then
      match f.traceReader.getNextInstruction tr with
      | .error e => .error e
      | .ok (ti, reader) =>
        if ti.valid then
          fillStream rounds { f with
            traceReader := reader
            traceExpectedStream := f.traceExpectedStream ++ [ti] }
        else .ok { f with traceReader := reader }
    else .ok f

/-- `ensureTraceStreamFilled`; on the wrong path, the reader stays where it is. -/
def ensureTraceStreamFilled (f : TraceFetch) : Except String TraceFetch :=
  if f.traceEnableWrongPath && f.traceWrongPathActive then .ok f
  else f.fillStream tr traceStreamMinFill

/-- `fetchTraceInstruction` on the correct path: the pending instruction.  There may be none at the
end of the trace. -/
def fetchTraceInstruction (f : TraceFetch) :
    Except String (Option TraceInstruction × TraceFetch) :=
  match f.ensureTraceStreamFilled tr with
  | .error e => .error e
  | .ok f =>
    .ok (f.traceExpectedStream.head?.map (·.fetched f.traceEnableWrongPath f.traceBPValidation), f)

def bindTraceMetadata (seqNum : ℕ) (ti : TraceInstruction) (f : TraceFetch) : TraceFetch :=
  { f with
    traceInstMap := Function.update f.traceInstMap seqNum (some ti)
    seqNumToTraceIndex := Function.update f.seqNumToTraceIndex seqNum (some (ti.seqNum + 1))
    traceInstrConsumed := f.traceInstrConsumed + 1 }

def validateAndConsumeTraceStream (pc : UInt64) (f : TraceFetch) : Except String TraceFetch :=
  match f.traceExpectedStream with
  | [] => .error "Trace expected stream unexpectedly empty on correct path"
  | head :: rest =>
    if pc ≠ head.pc then .error "Trace stream PC mismatch"
    else .ok { f with traceExpectedStream := rest }

def bindPendingTraceMetadata (seqNum : ℕ) (pc : UInt64) (ti : TraceInstruction) (f : TraceFetch) :
    Except String TraceFetch :=
  let f := f.bindTraceMetadata seqNum ti
  if f.traceEnableWrongPath && !f.traceWrongPathActive then f.validateAndConsumeTraceStream pc
  else .ok f

/-- One instruction is fetched, at address `pc`; the answer says whether it comes from the trace. -/
def fetchInst (seqNum : ℕ) (pc : UInt64) (f : TraceFetch) : Except String (Bool × TraceFetch) :=
  if f.traceEnableWrongPath && f.traceWrongPathActive then .ok (false, f)
  else
    match f.fetchTraceInstruction tr with
    | .error e => .error e
    | .ok (none, f) => .ok (false, f)
    | .ok (some ti, f) =>
      match f.bindPendingTraceMetadata seqNum pc ti with
      | .error e => .error e
      | .ok f => .ok (true, f)

/-! ### The wrong path -/

def enterTraceWrongPath (branchSeqNum : ℕ) (predPC corrPC : UInt64) (forceMinStep : Bool)
    (f : TraceFetch) : TraceFetch :=
  { f with
    traceWrongPathActive := true
    traceWrongPathBranchSeqNum := branchSeqNum
    traceWrongPathForceMinStep := forceMinStep
    traceWrongPathPredPC := predPC
    traceWrongPathCorrectPC := corrPC }

def exitTraceWrongPath (f : TraceFetch) : TraceFetch :=
  { f with
    traceWrongPathActive := false
    traceWrongPathForceMinStep := false
    traceWrongPathPredPC := 0
    traceWrongPathCorrectPC := 0
    traceWrongPathBranchSeqNum := 0 }

/-! ### Squashes -/

/-- The metadata of the instructions that satisfy `keep`. -/
def keepMetadata (keep : ℕ → Bool) (f : TraceFetch) : TraceFetch :=
  { f with
    traceInstMap := fun sn => if keep sn then f.traceInstMap sn else none
    seqNumToTraceIndex := fun sn => if keep sn then f.seqNumToTraceIndex sn else none }

def cleanupTraceMetadata (seqNum : ℕ) (f : TraceFetch) : TraceFetch :=
  f.keepMetadata fun sn => decide (sn ≤ seqNum)

/-- `cleanupTraceMetadataOnCommit`: metadata stays for some time after the commit. -/
def cleanupTraceMetadataOnCommit (oldestInflight : ℕ) (f : TraceFetch) : TraceFetch :=
  let keepMin := if f.traceWrongPathActive then min oldestInflight f.traceWrongPathBranchSeqNum
    else oldestInflight
  let safeThreshold := if keepMin > traceMetaGuard then keepMin - traceMetaGuard else 0
  f.keepMetadata fun sn => decide (safeThreshold ≤ sn)

/-- `findTraceIndexForSeqNum`: zero if there is none. -/
def findTraceIndexForSeqNum (seqNum : ℕ) (f : TraceFetch) : ℕ :=
  (f.seqNumToTraceIndex seqNum).getD 0

/-- The end of `rollbackTraceReader`. -/
def seekReader (index : ℕ) (f : TraceFetch) : Bool × TraceFetch :=
  let seekCursor := if index > 0 then index - 1 else 0
  let r := f.traceReader.softSeekToInstruction tr seekCursor
  (r.1, { f with traceReader := r.2 })

/-- `rollbackTraceReader`; if the instruction itself is squashed, one record more, unless it is the
instruction before that was found. -/
def rollbackTraceReader (seqNum : ℕ) (squashItself : Bool) (f : TraceFetch) : Bool × TraceFetch :=
  let index := f.findTraceIndexForSeqNum seqNum
  if index = 0 ∧ squashItself = true then
    let earlier := f.findTraceIndexForSeqNum (seqNum - 1)
    if earlier = 0 then (false, f) else f.seekReader tr earlier
  else if squashItself then f.seekReader tr (index - 1)
  else f.seekReader tr index

structure SquashInst where
  seqNum : ℕ
  pc : UInt64
  deriving DecidableEq

/-- A squash: where fetch restarts, the squashing instruction, if there is one, and the last
instruction that stays. -/
structure TraceSquash where
  newPc : UInt64
  squashInst : Option SquashInst
  seqNum : ℕ
  deriving DecidableEq

structure RollbackPlan where
  allowRb : Bool
  squashItself : Bool
  rbSeqNum : ℕ
  fetch : TraceFetch

/-- The first part of `handleTraceSquash`. -/
def rollbackPlan (sq : TraceSquash) (f : TraceFetch) : RollbackPlan :=
  if f.traceWrongPathActive then
    match sq.squashInst with
    | some inst =>
      let squashItself := inst.pc == sq.newPc
      if inst.seqNum = f.traceWrongPathBranchSeqNum then
        ⟨true, squashItself, sq.seqNum,
          if sq.newPc = f.traceWrongPathCorrectPC then f.exitTraceWrongPath else f⟩
      else if inst.seqNum < f.traceWrongPathBranchSeqNum then
        ⟨true, squashItself, sq.seqNum, f.exitTraceWrongPath⟩
      else ⟨false, squashItself, sq.seqNum, f⟩
    | none =>
      if sq.newPc = f.traceWrongPathCorrectPC then
        ⟨true, false, f.traceWrongPathBranchSeqNum, f.exitTraceWrongPath⟩
      else if sq.seqNum ≤ f.traceWrongPathBranchSeqNum then
        ⟨true, true, sq.seqNum + 1, f.exitTraceWrongPath⟩
      else ⟨false, false, sq.seqNum, f⟩
  else
    let f := { f with traceWrongPathForceMinStep := false }
    match sq.squashInst with
    | some inst => ⟨true, inst.pc == sq.newPc, inst.seqNum, f⟩
    | none => ⟨true, true, sq.seqNum + 1, f⟩

def handleTraceSquash (sq : TraceSquash) (f : TraceFetch) : TraceFetch :=
  let plan := f.rollbackPlan sq
  if plan.allowRb then
    let r := (plan.fetch.cleanupTraceMetadata plan.rbSeqNum).rollbackTraceReader tr plan.rbSeqNum
      plan.squashItself
    { r.2 with traceExpectedStream := [] }
  else plan.fetch

/-! ### Where fetch resumes -/

namespace TraceSquash
variable (sq : TraceSquash)

def reference : ℕ :=
  match sq.squashInst with
  | some inst => inst.seqNum
  | none => sq.seqNum

def itself : Bool :=
  sq.squashInst.any fun inst => inst.pc == sq.newPc

/-- The record at which fetch should resume, if record `r` is bound to the reference. -/
def resumeAt (r : ℕ) : ℕ :=
  if sq.itself then r else r + 1

def cursor (r : ℕ) : ℕ :=
  if sq.itself then r - 1 else r

def OnCorrectPath (f : TraceFetch) : Prop :=
  f.traceWrongPathActive = false ∨
    ∃ inst, sq.squashInst = some inst ∧ inst.seqNum = f.traceWrongPathBranchSeqNum ∧
      sq.seqNum = inst.seqNum ∧ sq.newPc = f.traceWrongPathCorrectPC

end TraceSquash

/-- The trace was fetched on the correct path: in the metadata map, the k-th instruction is bound to
the k-th record. -/
structure OnPath (b : ℕ) (fetched : List ℕ) (f : TraceFetch) : Prop where
  reader : ReaderReachable tr b f.traceReader
  increasing : fetched.Pairwise (· < ·)
  bound {sn i : ℕ} : f.seqNumToTraceIndex sn = some i →
    ∃ k, fetched[k]? = some sn ∧ i = k + 1 ∧ k < tr.size

/-- The next instruction that the reader delivers is record `k`; there is none behind the last. -/
def Resumes (k : ℕ) (s : TraceReader) : Prop :=
  ∃ ti t, s.getNextInstruction tr = .ok (ti, t) ∧
    (ti.valid = true ∧ ti.seqNum = k ∨ ti.valid = false ∧ tr.size ≤ k)

variable {tr} {b : ℕ} {fetched : List ℕ} {f : TraceFetch} {sq : TraceSquash} {r : ℕ}

theorem resumes_iff_position {s : TraceReader} {k : ℕ} (hs : s.Ready tr b) (hk : k ≤ tr.size) :
    Resumes tr k s ↔ s.position = k := by
  obtain ⟨t, ht, -, -⟩ := hs.getNextInstruction
  have hle := hs.position_le
  have hvalid : (tr.reading b s.position).valid = true ↔ s.position < tr.size :=
    reading_valid
  constructor
  · rintro ⟨ti, u, hget, hti⟩
    rw [ht] at hget
    cases hget
    rcases hti with ⟨hv, hseq⟩ | ⟨hv, hend⟩
    · rwa [reading_seqNum (hvalid.1 hv)] at hseq
    · have hge : ¬s.position < tr.size := fun hlt => by simp [hvalid.2 hlt] at hv
      omega
  · rintro rfl
    refine ⟨_, t, ht, ?_⟩
    rcases Nat.lt_or_ge s.position tr.size with hlt | hge
    · exact .inl ⟨hvalid.2 hlt, reading_seqNum hlt⟩
    · exact .inr ⟨by rw [reading_of_size_le hge]; rfl, hge⟩

variable {sn : ℕ} {head ti : TraceInstruction} {rest : List TraceInstruction} {pc : UInt64}

theorem OnPath.next_index (h : OnPath tr b fetched f) {j : ℕ}
    (hsn : f.seqNumToTraceIndex sn = some (r + 1)) (hj : f.seqNumToTraceIndex (sn + 1) = some j) :
    j = r + 2 := by
  obtain ⟨k, hk, hkr, -⟩ := h.bound hsn
  obtain ⟨k', hk', rfl, -⟩ := h.bound hj
  obtain rfl : k = r := by omega
  obtain ⟨hlt, hget⟩ := List.getElem?_eq_some_iff.1 hk
  obtain ⟨hlt', hget'⟩ := List.getElem?_eq_some_iff.1 hk'
  have hinc := List.pairwise_iff_getElem.1 h.increasing
  rcases Nat.lt_trichotomy k' (k + 1) with hcmp | hcmp | hcmp
  · -- an earlier one has a number that is not greater
    rcases Nat.lt_or_eq_of_le (Nat.le_of_lt_succ hcmp) with hlt'' | rfl
    · have := hinc k' k hlt' hlt hlt''
      omega
    · omega
  · omega
  · -- there is no number between the two
    have h1 := hinc k (k + 1) hlt (by omega) (by omega)
    have h2 := hinc (k + 1) k' (by omega) hlt' hcmp
    omega

theorem seekReader_succ (i : ℕ) : (f.seekReader tr (i + 1)).2.traceReader =
    (f.traceReader.softSeekToInstruction tr i).2 := rfl

theorem seekReader_pred (i : ℕ) : (f.seekReader tr i).2.traceReader =
    (f.traceReader.softSeekToInstruction tr (i - 1)).2 := by
  cases i with
  | zero => rfl
  | succ i => rfl

theorem rollback_found {squashItself : Bool} (hsn : f.seqNumToTraceIndex sn = some (r + 1)) :
    ((f.cleanupTraceMetadata sn).rollbackTraceReader tr sn squashItself).2.traceReader =
      (f.traceReader.softSeekToInstruction tr (if squashItself then r - 1 else r)).2 := by
  have hfind : (f.cleanupTraceMetadata sn).findTraceIndexForSeqNum sn = r + 1 := by
    simp [findTraceIndexForSeqNum, cleanupTraceMetadata, keepMetadata, hsn]
  unfold rollbackTraceReader
  simp only [hfind]
  cases squashItself with
  | true => exact seekReader_pred r
  | false => exact seekReader_succ r

theorem OnPath.rollback_next (h : OnPath tr b fetched f)
    (hsn : f.seqNumToTraceIndex sn = some (r + 1)) :
    ((f.cleanupTraceMetadata (sn + 1)).rollbackTraceReader tr (sn + 1) true).2.traceReader =
      (f.traceReader.softSeekToInstruction tr r).2 := by
  have hfind : (f.cleanupTraceMetadata (sn + 1)).findTraceIndexForSeqNum sn = r + 1 := by
    simp [findTraceIndexForSeqNum, cleanupTraceMetadata, keepMetadata, hsn]
  unfold rollbackTraceReader
  cases hnext : f.seqNumToTraceIndex (sn + 1) with
  | none =>
    have hfind' : (f.cleanupTraceMetadata (sn + 1)).findTraceIndexForSeqNum (sn + 1) = 0 := by
      simp [findTraceIndexForSeqNum, cleanupTraceMetadata, keepMetadata, hnext]
    simp only [hfind', Nat.add_sub_cancel, hfind]
    exact seekReader_succ r
  | some j =>
    obtain rfl := h.next_index hsn hnext
    have hfind' : (f.cleanupTraceMetadata (sn + 1)).findTraceIndexForSeqNum (sn + 1) = r + 2 := by
      simp [findTraceIndexForSeqNum, cleanupTraceMetadata, keepMetadata, hnext]
    rw [hfind']
    exact seekReader_succ r

theorem squash_of_plan (hallow : (f.rollbackPlan sq).allowRb = true) :
    (f.handleTraceSquash tr sq).traceReader = (((f.rollbackPlan sq).fetch.cleanupTraceMetadata
        (f.rollbackPlan sq).rbSeqNum).rollbackTraceReader tr (f.rollbackPlan sq).rbSeqNum
          (f.rollbackPlan sq).squashItself).2.traceReader := by
  unfold handleTraceSquash
  rw [if_pos hallow]

theorem OnPath.squash_reader (h : OnPath tr b fetched f) (hsq : sq.OnCorrectPath f)
    (href : f.seqNumToTraceIndex sq.reference = some (r + 1)) :
    (f.handleTraceSquash tr sq).traceReader =
      (f.traceReader.softSeekToInstruction tr (sq.cursor r)).2 := by
  unfold TraceSquash.reference at href
  unfold TraceSquash.cursor TraceSquash.itself
  by_cases hoff : f.traceWrongPathActive = false
  · cases hinst : sq.squashInst with
    | some inst =>
      have hplan : f.rollbackPlan sq = ⟨true, inst.pc == sq.newPc, inst.seqNum,
          { f with traceWrongPathForceMinStep := false }⟩ := by
        unfold rollbackPlan
        rw [if_neg (by simp [hoff]), hinst]
      rw [hinst] at href
      rw [squash_of_plan (by rw [hplan]), hplan]
      exact rollback_found (f := { f with traceWrongPathForceMinStep := false }) href
    | none =>
      have hplan : f.rollbackPlan sq = ⟨true, true, sq.seqNum + 1,
          { f with traceWrongPathForceMinStep := false }⟩ := by
        unfold rollbackPlan
        rw [if_neg (by simp [hoff]), hinst]
      rw [hinst] at href
      rw [squash_of_plan (by rw [hplan]), hplan]
      have h' : OnPath tr b fetched { f with traceWrongPathForceMinStep := false } :=
        ⟨h.reader, h.increasing, h.bound⟩
      exact h'.rollback_next href
  · obtain ⟨inst, hinst, hbranch, hseq, hpc⟩ := hsq.resolve_left hoff
    have hplan : f.rollbackPlan sq = ⟨true, inst.pc == sq.newPc, inst.seqNum,
        f.exitTraceWrongPath⟩ := by
      unfold rollbackPlan
      rw [if_pos (by simpa using hoff), hinst]
      dsimp only
      rw [if_pos hbranch, if_pos hpc, hseq]
    rw [hinst] at href ⊢
    rw [squash_of_plan (by rw [hplan]), hplan]
    exact rollback_found (f := f.exitTraceWrongPath) href

theorem cursor_le : sq.cursor r ≤ r := by
  unfold TraceSquash.cursor
  split_ifs <;> omega

theorem resumeAt_le (hr : r < tr.size) : sq.resumeAt r ≤ tr.size := by
  unfold TraceSquash.resumeAt
  split_ifs <;> omega

theorem OnPath.resumes_iff_landing (h : OnPath tr b fetched f) (hsq : sq.OnCorrectPath f)
    (href : f.seqNumToTraceIndex sq.reference = some (r + 1)) :
    Resumes tr (sq.resumeAt r) (f.handleTraceSquash tr sq).traceReader ↔
      TraceReader.landing tr (sq.cursor r) f.traceReader = sq.resumeAt r := by
  obtain ⟨k, -, hk, hlt⟩ := h.bound href
  obtain ⟨hready, hpos, -⟩ := h.reader.ready.softSeekToInstruction (sq.cursor r)
  rw [h.squash_reader hsq href, resumes_iff_position hready (resumeAt_le (by omega)), hpos]

/-! ### Runs on the correct path -/

/-- What is fetched from the start of the trace on, without squashes: the sequence numbers of the
instructions that come from the trace. -/
inductive FetchRun (tr : ChampSimTrace) : List ℕ → TraceFetch → Prop
  | start (traceBPValidation : Bool) : FetchRun tr [] (init true traceBPValidation)
  | fetch {fetched : List ℕ} {f g : TraceFetch} {fromTrace : Bool} (sn : ℕ) (pc : UInt64) :
      FetchRun tr fetched f → (∀ x ∈ fetched, x < sn) →
      f.fetchInst tr sn pc = .ok (fromTrace, g) →
      FetchRun tr (if fromTrace then fetched ++ [sn] else fetched) g
  | enter {fetched : List ℕ} {f : TraceFetch} (branchSeqNum : ℕ) (predPC corrPC : UInt64)
      (forceMinStep : Bool) : FetchRun tr fetched f →
      FetchRun tr fetched (f.enterTraceWrongPath branchSeqNum predPC corrPC forceMinStep)
  | commit {fetched : List ℕ} {f : TraceFetch} (oldestInflight : ℕ) : FetchRun tr fetched f →
      FetchRun tr fetched (f.cleanupTraceMetadataOnCommit oldestInflight)

/-- What holds on the correct path: the expected stream is between what was fetched and what the
reader delivers next. -/
structure FetchInv (tr : ChampSimTrace) (fetched : List ℕ) (f : TraceFetch) : Prop where
  onPath : OnPath tr 0 fetched f
  enabled : f.traceEnableWrongPath = true
  aligned : f.traceReader.Aligned
  off : f.traceReader.replayActive = false
  stream : f.traceExpectedStream =
    tr.stretch 0 fetched.length f.traceExpectedStream.length
  next : f.traceReader.nextRecord = fetched.length + f.traceExpectedStream.length

theorem fetchInv_init (traceBPValidation : Bool) : FetchInv tr [] (init true traceBPValidation) :=
  ⟨⟨.init, .nil, fun h => by cases h⟩, rfl, rfl, rfl, rfl, rfl⟩

theorem FetchInv.fillStream (h : FetchInv tr fetched f) (rounds : ℕ) :
    ∃ g, f.fillStream tr rounds = .ok g ∧ FetchInv tr fetched g ∧
      g.traceWrongPathActive = f.traceWrongPathActive := by
  induction rounds generalizing f with
  | zero => exact ⟨f, rfl, h, rfl⟩
  | succ rounds ih =>
    unfold TraceFetch.fillStream
    by_cases hfew : f.traceExpectedStream.length < traceStreamMinFill
    · rw [if_pos hfew]
      obtain ⟨t, ht, -, hmoved⟩ := h.onPath.reader.ready.getNextInstruction_of_off h.off
      have hreach : ReaderReachable tr 0 t := h.onPath.reader.next ht
      have haligned := hmoved.aligned h.aligned
      have hoff := hmoved.replayActive.trans h.off
      have hnext := hmoved.nextRecord
      simp only [ht]
      by_cases hlt : f.traceReader.nextRecord < tr.size
      · rw [if_pos hlt] at hnext
        rw [if_pos (reading_valid.2 hlt)]
        refine ih (f := { f with
          traceReader := t
          traceExpectedStream :=
            f.traceExpectedStream ++ [tr.reading 0 f.traceReader.nextRecord] }) ?_
        refine ⟨⟨hreach, h.onPath.increasing, h.onPath.bound⟩, h.enabled, haligned, hoff, ?_, ?_⟩
        · rw [length_append, length_singleton, stretch_append, ← h.stream, stretch_one, h.next]
        · rw [length_append, length_singleton, hnext, h.next]
          omega
      · -- the trace has ended
        rw [if_neg hlt] at hnext
        rw [if_neg (mt reading_valid.1 hlt)]
        exact ⟨_, rfl, ⟨⟨hreach, h.onPath.increasing, h.onPath.bound⟩, h.enabled, haligned, hoff,
          h.stream, hnext.trans h.next⟩, rfl⟩
    · rw [if_neg hfew]
      exact ⟨f, rfl, h, rfl⟩

theorem FetchInv.consume (h : FetchInv tr fetched f) (hsn : ∀ x ∈ fetched, x < sn)
    (hstream : f.traceExpectedStream = head :: rest) (hti : ti.seqNum = head.seqNum) :
    FetchInv tr (fetched ++ [sn])
      { f.bindTraceMetadata sn ti with traceExpectedStream := rest } := by
  have hs := h.stream
  have hnext := h.next
  rw [hstream, length_cons] at hs hnext
  obtain ⟨rfl, hrest⟩ := List.cons.inj hs
  have hlt : fetched.length < tr.size := by
    have hadd := h.onPath.reader.ready.nextRecord_add
    have hle := h.onPath.reader.ready.drained_le
    omega
  rw [reading_seqNum hlt] at hti
  refine ⟨⟨h.onPath.reader, ?_, ?_⟩, h.enabled, h.aligned, h.off, ?_, ?_⟩
  · refine pairwise_append.2 ⟨h.onPath.increasing, pairwise_singleton _ _, ?_⟩
    intro x hx y hy
    obtain rfl := mem_singleton.1 hy
    exact hsn x hx
  · intro sn' i hmap
    have hi : update f.seqNumToTraceIndex sn (some (ti.seqNum + 1)) sn' = some i := hmap
    by_cases heq : sn' = sn
    · subst heq
      rw [update_self] at hi
      cases hi
      exact ⟨fetched.length, by simp, by omega, hlt⟩
    · rw [update_of_ne heq] at hi
      obtain ⟨k, hk, hik, hksize⟩ := h.onPath.bound hi
      refine ⟨k, ?_, hik, hksize⟩
      rw [List.getElem?_append_left (List.getElem?_eq_some_iff.1 hk).1]
      exact hk
  · rw [List.length_append, List.length_singleton]
    exact hrest
  · rw [length_append, length_singleton]
    show f.traceReader.nextRecord = fetched.length + 1 + rest.length
    omega

theorem bindPending_head (henabled : f.traceEnableWrongPath = true)
    (hactive : f.traceWrongPathActive = false) (hstream : f.traceExpectedStream = head :: rest) :
    f.bindPendingTraceMetadata sn pc ti =
      if pc ≠ head.pc then .error "Trace stream PC mismatch"
      else .ok { f.bindTraceMetadata sn ti with traceExpectedStream := rest } := by
  have hon : ((f.bindTraceMetadata sn ti).traceEnableWrongPath &&
      !(f.bindTraceMetadata sn ti).traceWrongPathActive) = true := by
    simp [bindTraceMetadata, henabled, hactive]
  have hstream' : (f.bindTraceMetadata sn ti).traceExpectedStream = head :: rest := hstream
  unfold bindPendingTraceMetadata validateAndConsumeTraceStream
  rw [if_pos hon, hstream']

theorem FetchInv.fetchInst (h : FetchInv tr fetched f) (hsn : ∀ x ∈ fetched, x < sn)
    {fromTrace : Bool} {g : TraceFetch} (hfetch : f.fetchInst tr sn pc = .ok (fromTrace, g)) :
    FetchInv tr (if fromTrace then fetched ++ [sn] else fetched) g := by
  unfold TraceFetch.fetchInst at hfetch
  by_cases hactive : f.traceWrongPathActive = true
  · rw [if_pos (by simp [h.enabled, hactive])] at hfetch
    cases hfetch
    exact h
  · rw [if_neg (by simp [hactive])] at hfetch
    obtain ⟨f', hfill, h', hactive'⟩ := h.fillStream traceStreamMinFill
    have hensure : f.ensureTraceStreamFilled tr = .ok f' := by
      unfold ensureTraceStreamFilled
      rw [if_neg (by simp [hactive]), hfill]
    unfold fetchTraceInstruction at hfetch
    rw [hensure] at hfetch
    cases hstream : f'.traceExpectedStream with
    | nil =>
      simp only [hstream, head?_nil] at hfetch
      cases hfetch
      exact h'
    | cons head rest =>
      simp only [hstream, head?_cons, Option.map_some] at hfetch
      rw [bindPending_head h'.enabled (by rw [hactive']; simpa using hactive) hstream] at hfetch
      by_cases hpc : pc ≠ head.pc
      · rw [if_pos hpc] at hfetch
        cases hfetch
      · rw [if_neg hpc] at hfetch
        cases hfetch
        refine h'.consume hsn hstream ?_
        rw [TraceInstruction.fetched]
        split_ifs <;> rfl

theorem keepMetadata_some {keep : ℕ → Bool} {i : ℕ}
    (h : (f.keepMetadata keep).seqNumToTraceIndex sn = some i) :
    f.seqNumToTraceIndex sn = some i := by
  unfold keepMetadata at h
  dsimp only at h
  split_ifs at h
  exact h

theorem FetchRun.inv (h : FetchRun tr fetched f) : FetchInv tr fetched f := by
  induction h with
  | start traceBPValidation => exact fetchInv_init traceBPValidation
  | fetch sn pc _ hsn hfetch ih => exact ih.fetchInst hsn hfetch
  | enter branchSeqNum predPC corrPC forceMinStep _ ih =>
    exact ⟨⟨ih.onPath.reader, ih.onPath.increasing, ih.onPath.bound⟩, ih.enabled, ih.aligned,
      ih.off, ih.stream, ih.next⟩
  | commit oldestInflight _ ih =>
    refine ⟨⟨ih.onPath.reader, ih.onPath.increasing, ?_⟩, ih.enabled, ih.aligned, ih.off,
      ih.stream, ih.next⟩
    intro sn i hi
    exact ih.onPath.bound (keepMetadata_some hi)

/-- A squash leads to the record before the one where fetch must resume. -/
theorem FetchRun.resumes_iff_cursor (h : FetchRun tr fetched f) (hsq : sq.OnCorrectPath f)
    (href : f.seqNumToTraceIndex sq.reference = some (r + 1)) :
    Resumes tr (sq.resumeAt r) (f.handleTraceSquash tr sq).traceReader ↔
      sq.cursor r = sq.resumeAt r := by
  have hinv := h.inv
  obtain ⟨k, -, hk, hlt⟩ := hinv.onPath.bound href
  have hcur : sq.cursor r ≤ r := cursor_le
  rw [hinv.onPath.resumes_iff_landing hsq href,
    TraceReader.landing_of_aligned hinv.aligned hinv.off (by omega)]

/-- **Squashes on the correct path.**  However much of the trace has been fetched, fetch resumes at
the right record exactly if that is the first one of the trace: if the squashing instruction comes
from the first record and fetch restarts at it. -/
theorem squash_resumes_iff (h : FetchRun tr fetched f) (hsq : sq.OnCorrectPath f)
    (href : f.seqNumToTraceIndex sq.reference = some (r + 1)) :
    Resumes tr (sq.resumeAt r) (f.handleTraceSquash tr sq).traceReader ↔
      sq.itself = true ∧ r = 0 := by
  rw [h.resumes_iff_cursor hsq href]
  unfold TraceSquash.cursor TraceSquash.resumeAt
  split_ifs with hitself
  · simp only [hitself, true_and]
    omega
  · simp only [hitself, Bool.false_eq_true, false_and, iff_false]
    omega

/-- Two instructions are fetched, and the first one restarts fetch at its own address. -/
theorem first_resumes :
    ∃ f, FetchRun threeRecords [1, 2] f ∧ Resumes threeRecords 0
      (f.handleTraceSquash threeRecords ⟨16, some ⟨1, 16⟩, 1⟩).traceReader := by
  have hfirst : FetchRun threeRecords [1] _ :=
    .fetch 1 16 (.start false) (forall_mem_nil _) (show _ = Except.ok (true, _) from rfl)
  have hrun : FetchRun threeRecords [1, 2] _ :=
    hfirst.fetch 2 20 (by decide) (show _ = Except.ok (true, _) from rfl)
  exact ⟨_, hrun, (squash_resumes_iff (r := 0) hrun (.inl rfl) rfl).2 ⟨rfl, rfl⟩⟩

/-- The second instruction restarts fetch behind it, where the third record should follow, but its
own record is delivered again.  So it is for a squash without instruction, and when the second one
is a branch that ends the wrong path at its correct target. -/
theorem own_record_again :
    ∃ f g, FetchRun threeRecords [1, 2] f ∧ FetchRun threeRecords [1, 2] g ∧
      ¬Resumes threeRecords 2
        (f.handleTraceSquash threeRecords ⟨24, some ⟨2, 20⟩, 2⟩).traceReader ∧
      ¬Resumes threeRecords 2 (f.handleTraceSquash threeRecords ⟨24, none, 2⟩).traceReader ∧
      ¬Resumes threeRecords 2
        (g.handleTraceSquash threeRecords ⟨24, some ⟨2, 20⟩, 2⟩).traceReader ∧
      Resumes threeRecords 1
        (f.handleTraceSquash threeRecords ⟨24, some ⟨2, 20⟩, 2⟩).traceReader := by
  have hfirst : FetchRun threeRecords [1] _ :=
    .fetch 1 16 (.start false) (forall_mem_nil _) (show _ = Except.ok (true, _) from rfl)
  have hrun : FetchRun threeRecords [1, 2] _ :=
    hfirst.fetch 2 20 (by decide) (show _ = Except.ok (true, _) from rfl)
  have hwrong := hrun.enter 2 40 24 false
  refine ⟨_, _, hrun, hwrong, ?_, ?_, ?_, ⟨_, _, rfl, .inl ⟨rfl, rfl⟩⟩⟩
  · intro h
    exact absurd ((hrun.resumes_iff_cursor (r := 1) (.inl rfl) rfl).1 h) (by decide)
  · intro h
    exact absurd ((hrun.resumes_iff_cursor (r := 1) (.inl rfl) rfl).1 h) (by decide)
  · intro h
    exact absurd ((hwrong.resumes_iff_cursor (r := 1) (.inr ⟨_, rfl, rfl, rfl, rfl⟩) rfl).1 h)
      (by decide)

end TraceFetch
end Gem5
