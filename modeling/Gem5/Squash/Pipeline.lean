import Mathlib.Data.List.FinRange

/-!
# Squashes in the pipeline

Fetch, decode, rename, IEW and commit, as far as a squash is concerned: the buffers that hold the
instructions of each thread, the groups of instructions on the way from stage to stage, and the
signals that commit sends back.

An instruction carries the squash version that fetch had when it was built.  Commit has one version
for all threads and raises it with every squash; the other stages take it over with the signal, each
at its own time, and squash the older instructions that they receive from then on.

How much a stage processes in a cycle is a parameter of its event.  Instructions pass the stages
as they are: what decode makes of a pair or a triple carries the version of one of its parts.
-/

namespace Gem5
namespace SquashVersion
def versionLimit : ℕ := 16

def maxInflightSquash : ℕ := 7

def nextVersion (version : ℕ) : ℕ :=
  (version + 1) % versionLimit

/-- Whether `version` is newer than `other`, at most seven squashes apart. -/
def largerThan (version other : ℕ) : Except String Bool :=
  let larger := decide (other < version ∧ version - other ≤ maxInflightSquash)
  let wrappedLarger := decide (other < version + versionLimit ∧
    version + versionLimit - other ≤ maxInflightSquash)
  if larger || wrappedLarger || version == other then .ok (larger || wrappedLarger)
  else .error s!"SquashVersion: {version}, other: {other}"

end SquashVersion

structure PipeInst (n : ℕ) where
  seqNum : ℕ
  threadNumber : Fin n
  version : ℕ
  deriving DecidableEq

structure SquashInfo where
  doneSeqNum : ℕ
  squashVersion : ℕ

/-- The signals of a cycle, `none` for the threads that are not squashed. -/
abbrev CommitSignals (n : ℕ) := Fin n → Option SquashInfo

structure Stage (n : ℕ) where
  localSquashVer : ℕ
  fixedbuffer : Fin n → List (PipeInst n)

namespace Stage
variable {n : ℕ}

def start : Stage n :=
  ⟨0, fun _ => []⟩

def clear (st : Stage n) (tid : Fin n) : Stage n :=
  { st with fixedbuffer := Function.update st.fixedbuffer tid [] }

def push (st : Stage n) (tid : Fin n) (insts : List (PipeInst n)) : Stage n :=
  { st with fixedbuffer := Function.update st.fixedbuffer tid (st.fixedbuffer tid ++ insts) }

/-- Takes the first `k` instructions out of the buffer of a thread. -/
def pop (st : Stage n) (tid : Fin n) (k : ℕ) : Stage n :=
  { st with fixedbuffer := Function.update st.fixedbuffer tid ((st.fixedbuffer tid).drop k) }

/-- `checkSquash` of decode and rename: every thread that is squashed loses its buffer, and the
version is that of the last. -/
def checkSquash (sig : CommitSignals n) (st : Stage n) : Stage n where
  localSquashVer := (List.finRange n).foldl
    (fun v i => (sig i).elim v SquashInfo.squashVersion) st.localSquashVer
  fixedbuffer i := if (sig i).isSome then [] else st.fixedbuffer i

end Stage

/-- The pipeline.  A list of groups is what is on its way between two stages, the oldest group
first; what rename sends reaches IEW and commit.  `issued` are the lists of the issue queues, and
`done` what has left them after commit.  `squashed` are the instructions that have been marked, and
`fetched` all that fetch has built. -/
structure PipeState (n : ℕ) where
  fetchVer : ℕ
  fetchQueue : Fin n → List (PipeInst n)
  toDecode : List (List (PipeInst n))
  stallBuffer : List (List (PipeInst n))
  decode : Stage n
  toRename : List (List (PipeInst n))
  rename : Stage n
  toIEW : List (List (PipeInst n))
  iew : Stage n
  dispQue : List (PipeInst n)
  issued : List (PipeInst n)
  done : List (PipeInst n)
  toCommit : List (List (PipeInst n))
  commit : Stage n
  rob : Fin n → List (PipeInst n)
  retired : List (PipeInst n)
  fetchSignals : List (CommitSignals n)
  decodeSignals : List (CommitSignals n)
  renameSignals : List (CommitSignals n)
  iewSignals : List (CommitSignals n)
  squashed : List (PipeInst n)
  fetched : List (PipeInst n)

inductive PipeEvent (n : ℕ)
  | buildInst (tid : Fin n)
  | sendToDecode (tid : Fin n) (k : ℕ)
  | fetchSignals
  | fetchDecodeSquash (tid : Fin n) (seqNum : ℕ)
  | decodeMove (arrives : Bool)
  | decodeSignals
  | decodeSelfSquash (tid : Fin n) (seqNum : ℕ)
  | decodeInsts (tid : Fin n) (k : ℕ)
  | renameMove
  | renameSignals
  | renameInsts (tid : Fin n) (k : ℕ)
  | iewMove
  | iewSignals
  | dispatch (tid : Fin n) (k : ℕ)
  | issue (inst : PipeInst n)
  | doCommit (inst : PipeInst n)
  | commitTick (squashes : List (Fin n × ℕ)) (arrives : Bool) (insert : Option (Fin n))
  | robWalk (tid : Fin n) (seqNum : ℕ)
  | retire (tid : Fin n)

def PipeEvent.Squashes {n : ℕ} (tid : Fin n) : PipeEvent n → Prop
  | .fetchDecodeSquash t _ | .decodeSelfSquash t _ | .robWalk t _ => t = tid
  | .commitTick squashes _ _ => ∃ q ∈ squashes, q.1 = tid
  | _ => False

namespace PipeState
variable {n : ℕ}

def start : PipeState n where
  fetchVer := 0
  fetchQueue := fun _ => []
  toDecode := []
  stallBuffer := []
  decode := .start
  toRename := []
  rename := .start
  toIEW := []
  iew := .start
  dispQue := []
  issued := []
  done := []
  toCommit := []
  commit := .start
  rob := fun _ => []
  retired := []
  fetchSignals := []
  decodeSignals := []
  renameSignals := []
  iewSignals := []
  squashed := []
  fetched := []

/-! ### Fetch -/

def newInst (s : PipeState n) (tid : Fin n) : PipeInst n :=
  ⟨s.fetched.length + 1, tid, s.fetchVer⟩

def buildInst (tid : Fin n) (s : PipeState n) : PipeState n :=
  { s with
    fetchQueue := Function.update s.fetchQueue tid (s.fetchQueue tid ++ [s.newInst tid])
    fetched := s.fetched ++ [s.newInst tid] }

def sendToDecode (tid : Fin n) (k : ℕ) (s : PipeState n) : PipeState n :=
  { s with
    fetchQueue := Function.update s.fetchQueue tid ((s.fetchQueue tid).drop k)
    toDecode := s.toDecode ++ [(s.fetchQueue tid).take k] }

/-- `removeInstsNotInROB`: marks what the thread has fetched and not yet in the reorder buffer. -/
def notInROB (s : PipeState n) (tid : Fin n) : List (PipeInst n) :=
  s.fetched.filter fun x => x.threadNumber = tid && x ∉ s.rob tid && x ∉ s.retired

/-- `removeInstsUntil`: marks what the thread has fetched after `seqNum`. -/
def youngerThan (s : PipeState n) (tid : Fin n) (seqNum : ℕ) : List (PipeInst n) :=
  s.fetched.filter fun x => x.threadNumber = tid && seqNum < x.seqNum

/-- `handleCommitSignals` for all threads. -/
def fetchSquash (sig : CommitSignals n) (s : PipeState n) : PipeState n :=
  { s with
    fetchVer := (List.finRange n).foldl
      (fun v i => (sig i).elim v SquashInfo.squashVersion) s.fetchVer
    fetchQueue := fun i => if (sig i).isSome then [] else s.fetchQueue i
    squashed :=
      ((List.finRange n).filter fun i => (sig i).isSome).flatMap s.notInROB ++ s.squashed }

def fetchDecodeSquash (tid : Fin n) (seqNum : ℕ) (s : PipeState n) : PipeState n :=
  { s with
    fetchQueue := Function.update s.fetchQueue tid []
    squashed := s.youngerThan tid seqNum ++ s.squashed }

/-! ### The version check -/

/-- The instructions of a group that are current, and those that are older than `version`. -/
def splitByVersion (version : ℕ) (tid : Fin n) :
    List (PipeInst n) → Except String (List (PipeInst n) × List (PipeInst n))
  | [] => .ok ([], [])
  | x :: xs =>
    if x.threadNumber ≠ tid then .error "assert(inst->threadNumber == tid)"
    else
      match SquashVersion.largerThan version x.version with
      | .error e => .error e
      | .ok older =>
        match splitByVersion version tid xs with
        | .error e => .error e
        | .ok (current, marked) =>
          .ok (if older then (current, x :: marked) else (x :: current, marked))

/-! ### Decode -/

/-- The oldest group leaves the stall buffer once the buffer of its thread is empty.  Instructions
of an older version are marked and kept. -/
def moveStalled (s : PipeState n) : Except String (PipeState n) :=
  match s.stallBuffer with
  | [] => .ok s
  | [] :: rest => .ok { s with stallBuffer := rest }
  | (x :: xs) :: rest =>
    let tid := x.threadNumber
    if s.decode.fixedbuffer tid ≠ [] then .ok s
    else
      match splitByVersion s.decode.localSquashVer tid (x :: xs) with
      | .error e => .error e
      | .ok (_, marked) =>
        .ok { s with
          stallBuffer := rest
          decode := s.decode.push tid (x :: xs)
          squashed := marked ++ s.squashed }

def arrive (arrives : Bool) (s : PipeState n) : PipeState n :=
  match arrives, s.toDecode with
  | true, group :: rest => { s with toDecode := rest, stallBuffer := s.stallBuffer ++ [group] }
  | _, _ => s

/-- `Decode::moveInstsToBuffer`. -/
def decodeMove (arrives : Bool) (s : PipeState n) : Except String (PipeState n) :=
  (s.arrive arrives).moveStalled

def keepGroups (squashes : Fin n → Bool) (groups : List (List (PipeInst n))) :
    List (List (PipeInst n)) :=
  groups.filter fun g => g.head?.all fun x => !squashes x.threadNumber

def decodeSquash (sig : CommitSignals n) (s : PipeState n) : PipeState n :=
  { s with
    decode := s.decode.checkSquash sig
    stallBuffer := keepGroups (fun i => (sig i).isSome) s.stallBuffer }

def decodeSelfSquash (tid : Fin n) (seqNum : ℕ) (s : PipeState n) : PipeState n :=
  { s with
    decode := s.decode.clear tid
    stallBuffer := keepGroups (· = tid) s.stallBuffer
    squashed := s.youngerThan tid seqNum ++ s.squashed }

def taken (s : PipeState n) (st : Stage n) (tid : Fin n) (k : ℕ) : List (PipeInst n) :=
  ((st.fixedbuffer tid).take k).filter (· ∉ s.squashed)

def decodeInsts (tid : Fin n) (k : ℕ) (s : PipeState n) : PipeState n :=
  { s with
    decode := s.decode.pop tid k
    toRename := s.toRename ++ [s.taken s.decode tid k] }

/-! ### Rename -/

/-- `Rename::moveInstsToBuffer`.  Instructions of an older version are marked and dropped. -/
def renameMove (s : PipeState n) : Except String (PipeState n) :=
  match s.toRename with
  | [] => .ok s
  | [] :: rest => .ok { s with toRename := rest }
  | (x :: xs) :: rest =>
    let tid := x.threadNumber
    match splitByVersion s.rename.localSquashVer tid (x :: xs) with
    | .error e => .error e
    | .ok (current, marked) =>
      .ok { s with
        toRename := rest
        rename := s.rename.push tid current
        squashed := marked ++ s.squashed }

def renameSquash (sig : CommitSignals n) (s : PipeState n) : PipeState n :=
  { s with rename := s.rename.checkSquash sig }

def renameInsts (tid : Fin n) (k : ℕ) (s : PipeState n) : PipeState n :=
  { s with
    rename := s.rename.pop tid k
    toIEW := s.toIEW ++ [s.taken s.rename tid k]
    toCommit := s.toCommit ++ [s.taken s.rename tid k] }

/-! ### IEW -/

/-- `IEW::moveInstsToBuffer`: as rename, into an empty buffer. -/
def iewMove (s : PipeState n) : Except String (PipeState n) :=
  match s.toIEW with
  | [] => .ok s
  | [] :: rest => .ok { s with toIEW := rest }
  | (x :: xs) :: rest =>
    let tid := x.threadNumber
    if s.iew.fixedbuffer tid ≠ [] then .error "assert(fixedbuffer[tid].empty())"
    else
      match splitByVersion s.iew.localSquashVer tid (x :: xs) with
      | .error e => .error e
      | .ok (current, marked) =>
        .ok { s with
          toIEW := rest
          iew := s.iew.push tid current
          squashed := marked ++ s.squashed }

/-- `IEW::squash`: the dispatch queues and the issue queues (`IssueQue::doSquash`) are searched by
sequence number, without regard to the thread. -/
def iewSquash (tid : Fin n) (q : SquashInfo) (s : PipeState n) : PipeState n :=
  { s with
    iew := { s.iew.clear tid with localSquashVer := q.squashVersion }
    issued := s.issued.filter fun x => !decide (q.doneSeqNum < x.seqNum)
    squashed := (s.dispQue ++ s.issued).filter (fun x => q.doneSeqNum < x.seqNum) ++ s.squashed }

/-- The thread that `IEW::checkSquash` squashes: it returns after the first. -/
def firstSquash (sig : CommitSignals n) : Option (Fin n × SquashInfo) :=
  (List.finRange n).findSome? fun i => (sig i).map fun q => (i, q)

def iewCheckSquash (sig : CommitSignals n) (s : PipeState n) : PipeState n :=
  match firstSquash sig with
  | none => s
  | some (tid, q) => s.iewSquash tid q

def dispatch (tid : Fin n) (k : ℕ) (s : PipeState n) : PipeState n :=
  { s with
    iew := s.iew.pop tid k
    dispQue := s.dispQue ++ s.taken s.iew tid k }

def issue (inst : PipeInst n) (s : PipeState n) : PipeState n :=
  if inst ∉ s.dispQue then s
  else if inst ∈ s.squashed then { s with dispQue := s.dispQue.erase inst }
  else { s with dispQue := s.dispQue.erase inst, issued := s.issued ++ [inst] }

/-- `IssueQue::doCommit` takes an instruction from the list once one that is no older, of any
thread, has been committed. -/
def doCommit (inst : PipeInst n) (s : PipeState n) : PipeState n :=
  if s.retired.any (inst.seqNum ≤ ·.seqNum) && inst ∈ s.issued then
    { s with issued := s.issued.erase inst, done := s.done ++ [inst] }
  else s

/-! ### Commit -/

/-- `squashInflightAndUpdateVersion`, with the signal for the thread.  `slot` is what arrives from
rename in this cycle. -/
def squashInflight (slot : List (PipeInst n)) (q : Fin n × ℕ)
    (acc : PipeState n × CommitSignals n) : PipeState n × CommitSignals n :=
  let version := SquashVersion.nextVersion acc.1.commit.localSquashVer
  ({ acc.1 with
      squashed := slot ++ acc.1.squashed
      commit := { acc.1.commit.clear q.1 with localSquashVer := version } },
    Function.update acc.2 q.1 (some ⟨q.2, version⟩))

def broadcast (sig : CommitSignals n) (s : PipeState n) : PipeState n :=
  { s with
    fetchSignals := s.fetchSignals ++ [sig]
    decodeSignals := s.decodeSignals ++ [sig]
    renameSignals := s.renameSignals ++ [sig]
    iewSignals := s.iewSignals ++ [sig] }

def commitReceive (slot : List (PipeInst n)) (s : PipeState n) : Except String (PipeState n) :=
  match slot with
  | [] => .ok s
  | x :: _ =>
    let tid := x.threadNumber
    if s.commit.fixedbuffer tid ≠ [] then .error "assert(fixedbuffer[tid].empty())"
    else if slot.any (·.threadNumber ≠ tid) then .error "assert(inst->threadNumber == tid)"
    else .ok { s with commit := s.commit.push tid (slot.filter (· ∉ s.squashed)) }

def insertRob (s : PipeState n) (tid : Fin n) : PipeState n :=
  { s with
    commit := s.commit.clear tid
    rob := Function.update s.rob tid
      (s.rob tid ++ (s.commit.fixedbuffer tid).filter (· ∉ s.squashed)) }

/-- What `fromRename` shows to commit in this cycle. -/
def slot (arrives : Bool) (s : PipeState n) : List (PipeInst n) :=
  if arrives then s.toCommit.headD [] else []

def commitSquashes (squashes : List (Fin n × ℕ)) (arrives : Bool) (s : PipeState n) :
    PipeState n :=
  let acc := squashes.foldl (fun acc q => squashInflight (s.slot arrives) q acc) (s, fun _ => none)
  { acc.1.broadcast acc.2 with toCommit := if arrives then s.toCommit.tail else s.toCommit }

def commitTick (squashes : List (Fin n × ℕ)) (arrives : Bool) (insert : Option (Fin n))
    (s : PipeState n) : Except String (PipeState n) :=
  match (s.commitSquashes squashes arrives).commitReceive (s.slot arrives) with
  | .error e => .error e
  | .ok t => .ok (insert.elim t t.insertRob)

def robWalk (tid : Fin n) (seqNum : ℕ) (s : PipeState n) : PipeState n :=
  { s with
    rob := Function.update s.rob tid ((s.rob tid).filter (·.seqNum ≤ seqNum))
    squashed := (s.rob tid).filter (seqNum < ·.seqNum) ++ s.squashed }

def retire (tid : Fin n) (s : PipeState n) : PipeState n :=
  { s with
    rob := Function.update s.rob tid (s.rob tid).tail
    retired := s.retired ++ (s.rob tid).take 1 }

/-! ### Runs -/

def step (s : PipeState n) : PipeEvent n → Except String (PipeState n)
  | .buildInst tid => .ok (s.buildInst tid)
  | .sendToDecode tid k => .ok (s.sendToDecode tid k)
  | .fetchSignals =>
    match s.fetchSignals with
    | [] => .ok s
    | sig :: rest => .ok { s.fetchSquash sig with fetchSignals := rest }
  | .fetchDecodeSquash tid seqNum => .ok (s.fetchDecodeSquash tid seqNum)
  | .decodeMove arrives => s.decodeMove arrives
  | .decodeSignals =>
    match s.decodeSignals with
    | [] => .ok s
    | sig :: rest => .ok { s.decodeSquash sig with decodeSignals := rest }
  | .decodeSelfSquash tid seqNum => .ok (s.decodeSelfSquash tid seqNum)
  | .decodeInsts tid k => .ok (s.decodeInsts tid k)
  | .renameMove => s.renameMove
  | .renameSignals =>
    match s.renameSignals with
    | [] => .ok s
    | sig :: rest => .ok { s.renameSquash sig with renameSignals := rest }
  | .renameInsts tid k => .ok (s.renameInsts tid k)
  | .iewMove => s.iewMove
  | .iewSignals =>
    match s.iewSignals with
    | [] => .ok s
    | sig :: rest => .ok { s.iewCheckSquash sig with iewSignals := rest }
  | .dispatch tid k => .ok (s.dispatch tid k)
  | .issue inst => .ok (s.issue inst)
  | .doCommit inst => .ok (s.doCommit inst)
  | .commitTick squashes arrives insert => s.commitTick squashes arrives insert
  | .robWalk tid seqNum => .ok (s.robWalk tid seqNum)
  | .retire tid => .ok (s.retire tid)

def run : List (PipeEvent n) → PipeState n → Except String (PipeState n)
  | [], s => .ok s
  | e :: es, s => (s.step e).bind (run es)

end PipeState
end Gem5
