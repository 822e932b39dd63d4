import Mathlib.Algebra.Order.Ring.Int
import Mathlib.Data.Fintype.BigOperators

/-!
# The issue queues

An instruction waits in an issue queue until its sources are ready.  A queue keeps, for each
physical register, the instructions that wait for it.  A source becomes ready when its producer
writes back, or before that by a speculative wake-up; if the producer is late, a depth-first search
over the waiting instructions takes the speculative wake-ups back.

There is no value prediction.  What depends on the sizes of the queues, on ports and on arbitration
between instructions is left open: an event says which instructions are held back by them.  Asserts
and panics are errors.
-/

namespace Gem5

/-- The queues with their delays and ready queues, the physical registers, and which queue wakes
which.  `readyQs` has the ready queue of each port, `readyQclassify` that of each class. -/
structure SchedConfig where
  numQueues : ℕ
  numRegs : ℕ
  issueStages : Fin numQueues → ℕ
  readyQs : Fin numQueues → List ℕ
  readyQclassify : Fin numQueues → ℕ → ℕ
  opPipelined : ℕ → Bool
  wakeMatrix : Fin numQueues → List (Fin numQueues)

variable {c : SchedConfig}

structure IqInst (c : SchedConfig) where
  seqNum : ℕ
  thread : ℕ
  srcs : List (Option (Fin c.numRegs))
  dsts : List (Option (Fin c.numRegs))
  opClass : ℕ
  opLat : ℕ
  isLoad : Bool
  isStore : Bool
  isMemRef : Bool
  isFloatOrVector : Bool
  isSplitStoreAddr : Bool
  isStoreConditional : Bool
  isAtomic : Bool
  isFullMemBarrier : Bool
  isReadBarrier : Bool
  isWriteBarrier : Bool
  isNonSpeculative : Bool
  ready : ℕ → Bool
  readyRegs : ℕ
  canIssue : Bool
  memDepSolved : Bool
  issued : Bool
  squashed : Bool
  canceled : Bool
  scheduled : Bool
  inReadyQ : Bool
  arbFailed : Bool
  canCommit : Bool
  memOpDone : Bool
  isCompleted : Bool
  issueQue : Option (Fin c.numQueues)

namespace IqInst
def markSrcRegReady (i : ℕ) (x : IqInst c) : IqInst c :=
  { x with
    ready := Function.update x.ready i true
    readyRegs := x.readyRegs + 1
    canIssue := x.canIssue || decide (x.readyRegs + 1 = x.srcs.length) }

def clearSrcRegReady (i : ℕ) (x : IqInst c) : IqInst c :=
  { x with
    ready := Function.update x.ready i false
    readyRegs := x.readyRegs - 1
    canIssue := false }

def dstRegs (x : IqInst c) : List (Fin c.numRegs) :=
  x.dsts.filterMap id

/-- `IssueQue::cancel`, before the instruction is issued. -/
def cancel (x : IqInst c) : IqInst c :=
  { x with canceled := true, scheduled := x.scheduled && c.opPipelined x.opClass }
end IqInst

/-- A queue.  `subDepGraph` has the places of the sources with the instructions that wait;
`inflight` the instructions between selection and the functional units, by stage. -/
structure IssueQue (c : SchedConfig) where
  instList : List ℕ
  subDepGraph : Fin c.numRegs → List (ℕ × ℕ)
  readyQ : ℕ → List ℕ
  selectQ : List ℕ
  inflight : ℕ → List (Option ℕ)

structure Sched (c : SchedConfig) where
  insts : ℕ → IqInst c
  queues : Fin c.numQueues → IssueQue c
  scoreboard : Fin c.numRegs → Bool
  earlyScoreboard : Fin c.numRegs → Bool
  bypassScoreboard : Fin c.numRegs → Bool
  specWakeEvents : List (ℕ × Fin c.numQueues)

namespace Sched
def start (insts : ℕ → IqInst c) : Sched c where
  insts := insts
  queues := fun _ => ⟨[], fun _ => [], fun _ => [], [], fun _ => []⟩
  scoreboard := fun _ => true
  earlyScoreboard := fun _ => true
  bypassScoreboard := fun _ => true
  specWakeEvents := []

def modInst (x : ℕ) (f : IqInst c → IqInst c) (s : Sched c) : Sched c :=
  { s with insts := Function.update s.insts x (f (s.insts x)) }

def modQueue (q : Fin c.numQueues) (f : IssueQue c → IssueQue c) (s : Sched c) : Sched c :=
  { s with queues := Function.update s.queues q (f (s.queues q)) }

/-! ### Wake-ups -/

/-- `READYQ_PUSH`: the older instructions come first. -/
def readyQPush (q : Fin c.numQueues) (x : ℕ) (s : Sched c) : Sched c :=
  let older (y : ℕ) : Bool := decide ((s.insts y).seqNum < (s.insts x).seqNum)
  let k := c.readyQclassify q (s.insts x).opClass
  (s.modInst x fun i => { i with inReadyQ := true }).modQueue q fun iq =>
    { iq with
      readyQ := Function.update iq.readyQ k
        ((iq.readyQ k).takeWhile older ++ x :: (iq.readyQ k).dropWhile older) }

def addIfReady (q : Fin c.numQueues) (x : ℕ) (s : Sched c) : Sched c :=
  let i := s.insts x
  if i.issued || !i.canIssue || (i.isMemRef && !i.memDepSolved) then s
  else
    let s := s.modInst x fun i => { i with canceled := false }
    if i.inReadyQ then s else s.readyQPush q x

def wakeEntries (q : Fin c.numQueues) : List (ℕ × ℕ) → Sched c → Sched c
  | [], s => s
  | (i, x) :: rest, s =>
    if (s.insts x).ready i then wakeEntries q rest s
    else wakeEntries q rest ((s.modInst x (·.markSrcRegReady i)).addIfReady q x)

/-- The loop over the destinations.  `pinned` has the writes that are still to come for each
register. -/
def wakeRegs (speculative : Bool) (pinned : Fin c.numRegs → ℕ) (q : Fin c.numQueues) :
    List (Fin c.numRegs) → Sched c → Sched c
  | [], s => s
  | p :: rest, s =>
    if pinned p ≠ 1 then wakeRegs speculative pinned q rest s
    else
      let s := wakeEntries q ((s.queues q).subDepGraph p) s
      let s := if speculative then s else s.modQueue q fun iq =>
        { iq with subDepGraph := Function.update iq.subDepGraph p [] }
      wakeRegs speculative pinned q rest s

def wakeUpDependents (speculative : Bool) (pinned : Fin c.numRegs → ℕ) (x : ℕ)
    (q : Fin c.numQueues) (s : Sched c) : Sched c :=
  if speculative && (s.insts x).canceled then s
  else s.wakeRegs speculative pinned q (s.insts x).dstRegs

def setRegs (rs : List (Fin c.numRegs)) (b : Bool) (board : Fin c.numRegs → Bool) :
    Fin c.numRegs → Bool :=
  fun p => if p ∈ rs then b else board p

def addProducer (x : ℕ) (s : Sched c) : Sched c :=
  let rs := (s.insts x).dstRegs
  { s with
    scoreboard := setRegs rs false s.scoreboard
    bypassScoreboard := setRegs rs false s.bypassScoreboard
    earlyScoreboard := setRegs rs false s.earlyScoreboard }

def writebackWakeup (pinned : Fin c.numRegs → ℕ) (x : ℕ) (s : Sched c) : Sched c :=
  let s := s.modInst x fun i => { i with issueQue := none }
  let s := { s with scoreboard := setRegs (s.insts x).dstRegs true s.scoreboard }
  (List.finRange c.numQueues).foldl (fun s q => s.wakeUpDependents false pinned x q) s

def bypassWriteback (x : ℕ) (s : Sched c) : Sched c :=
  { s with bypassScoreboard := setRegs (s.insts x).dstRegs true s.bypassScoreboard }

def wakeDelay (opLat fromStages toStages : ℕ) : ℤ :=
  let delay : ℤ := opLat - 1
  let diff : ℤ := |(fromStages : ℤ) - toStages|
  if fromStages > toStages then delay + diff
  else if delay ≥ diff then delay - diff
  else delay

def specWakeUpDependents (pinned : Fin c.numRegs → ℕ) (x : ℕ) (q : Fin c.numQueues)
    (s : Sched c) : Sched c :=
  let i := s.insts x
  if !c.opPipelined i.opClass || i.dsts.isEmpty || i.isLoad then s
  else (c.wakeMatrix q).foldl (fun s dep =>
    if wakeDelay i.opLat (c.issueStages q) (c.issueStages dep) = 0 then
      let s := s.wakeUpDependents true pinned x dep
      if i.isFloatOrVector then s
      else { s with earlyScoreboard := setRegs i.dstRegs true s.earlyScoreboard }
    else { s with specWakeEvents := s.specWakeEvents ++ [(x, dep)] }) s

/-- `SpecWakeupCompletion::process`. -/
def specWakeupCompletion (pinned : Fin c.numRegs → ℕ) (x : ℕ) (q : Fin c.numQueues)
    (s : Sched c) : Sched c :=
  let s := s.wakeUpDependents true pinned x q
  { s with specWakeEvents := s.specWakeEvents.erase (x, q) }

def specWakeUpFromLoadPipe (pinned : Fin c.numRegs → ℕ) (x : ℕ) (s : Sched c) :
    Except String (Sched c) :=
  if !(s.insts x).isLoad then .error "assert(inst->isLoad())"
  else
    match (s.insts x).issueQue with
    | none => .error "issueQue is null"
    | some q => .ok ((c.wakeMatrix q).foldl (fun s dep =>
        let s := s.wakeUpDependents true pinned x dep
        { s with earlyScoreboard := setRegs (s.insts x).dstRegs true s.earlyScoreboard }) s)

/-! ### The depth-first search of `loadCancel` -/

/-- One waiting instruction of a canceled producer: if it was woken and is not issued, it is
canceled and its own dependents are to be looked at. -/
def cancelEntry (e : ℕ × ℕ) (w : List ℕ × Sched c) : List ℕ × Sched c :=
  let i := w.2.insts e.2
  if i.ready e.1 && !i.issued then
    (e.2 :: w.1, w.2.modInst e.2 fun i => i.cancel.clearSrcRegReady e.1)
  else w

def cancelReg (w : List ℕ × Sched c) (p : Fin c.numRegs) : List ℕ × Sched c :=
  let w := (w.1, { w.2 with earlyScoreboard := Function.update w.2.earlyScoreboard p false })
  (List.finRange c.numQueues).foldl (fun w q =>
    ((w.2.queues q).subDepGraph p).foldl (fun w e => cancelEntry e w) w) w

def cancelTop (top : ℕ) (stack : List ℕ) (s : Sched c) : List ℕ × Sched c :=
  let pending := s.specWakeEvents.filter fun e => (s.insts e.1).seqNum != (s.insts top).seqNum
  let s := { s with specWakeEvents := pending }
  (s.insts top).dstRegs.foldl cancelReg (stack, s)

def cancelSearch : ℕ → List ℕ × Sched c → List ℕ × Sched c
  | 0, w => w
  | _ + 1, ([], s) => ([], s)
  | n + 1, (top :: stack, s) => cancelSearch n (cancelTop top stack s)

def wokenEntries (s : Sched c) : ℕ :=
  ∑ q, ∑ p, ((s.queues q).subDepGraph p).countP fun e =>
    (s.insts e.2).ready e.1 && !(s.insts e.2).issued

def dropInflight (dropped : IqInst c → Bool) (q : Fin c.numQueues) (s : Sched c) : Sched c :=
  let stages := c.issueStages q
  s.modQueue q fun iq => { iq with
    inflight := fun k => if k ≤ stages then
        (iq.inflight k).map fun x => x.filter fun x => !dropped (s.insts x)
      else iq.inflight k }

/-- `Scheduler::loadCancel`; the search ends within these steps. -/
def loadCancel (x : ℕ) (s : Sched c) : Sched c :=
  (List.finRange c.numQueues).foldl (fun s q => s.dropInflight (·.canceled) q)
    (cancelSearch (s.wokenEntries + 1) ([x], s)).2

/-! ### Insertion -/

def insertSrcs (q : Fin c.numQueues) (x : ℕ) : List (ℕ × Option (Fin c.numRegs)) → Sched c →
    Bool × Sched c
  | [], s => (false, s)
  | (i, src) :: rest, s =>
    match src with
    | none => insertSrcs q x rest s
    | some p =>
      if (s.insts x).ready i then insertSrcs q x rest s
      else if s.scoreboard p then insertSrcs q x rest (s.modInst x (·.markSrcRegReady i))
      else
        let s := if s.earlyScoreboard p then s.modInst x (·.markSrcRegReady i) else s
        let s := s.modQueue q fun iq => { iq with
          subDepGraph := Function.update iq.subDepGraph p (iq.subDepGraph p ++ [(i, x)]) }
        (true, (insertSrcs q x rest s).2)

def srcPlaces (x : ℕ) (s : Sched c) : List (ℕ × Option (Fin c.numRegs)) :=
  (List.range (s.insts x).srcs.length).zip (s.insts x).srcs

/-- `IssueQue::insert`.  A memory reference waits for `markMemDepDone`. -/
def insert (q : Fin c.numQueues) (x : ℕ) (s : Sched c) : Except String (Sched c) :=
  let s := (s.modInst x fun i => { i with issueQue := some q }).modQueue q fun iq =>
    { iq with instList := iq.instList ++ [x] }
  let r := s.insertSrcs q x (s.srcPlaces x)
  if !r.1 && !(r.2.insts x).canIssue then .error "assert(inst->readyToIssue())"
  else .ok (if (s.insts x).isMemRef then r.2 else r.2.addIfReady q x)

/-- `createStoreDataUop`: the data part `std` of the store `x`, with its second source. -/
def createStoreDataUop (x std : ℕ) (s : Sched c) : Sched c :=
  let i := s.insts x
  let data (d : IqInst c) : IqInst c := { d with
    seqNum := i.seqNum
    thread := i.thread
    srcs := [i.srcs.getD 1 none]
    dsts := []
    ready := fun _ => false
    readyRegs := 0
    canIssue := false }
  s.modInst std fun d => if i.ready 1 then (data d).markSrcRegReady 0 else data d

/-- `buildStoreAddrUop`: the store no longer waits for its second source. -/
def buildStoreAddrUop (x : ℕ) (s : Sched c) : Sched c :=
  s.modInst x fun i =>
    let i := if i.ready 1 then i else i.markSrcRegReady 1
    { i with srcs := i.srcs.set 1 none }

/-- `Scheduler::insert`; a store may be split, with its data part in a queue of its own. -/
def schedule (q : Fin c.numQueues) (x : ℕ) (dataQ : Fin c.numQueues) (std : ℕ) (s : Sched c) :
    Except String (Sched c) :=
  if !(s.insts x).isSplitStoreAddr then s.insert q x
  else if (s.insts x).srcs.length ≠ 2 then .error "assert(numSrcRegs() == 2)"
  else
    ((s.createStoreDataUop x std).insert dataQ std).bind fun s =>
      (s.buildStoreAddrUop x).insert q x

def insertNonSpec (q : Fin c.numQueues) (x : ℕ) (s : Sched c) : Sched c :=
  s.modInst x fun i => { i with issueQue := some q }

def markMemDepDone (x : ℕ) (s : Sched c) : Except String (Sched c) :=
  match (s.insts x).issueQue with
  | none => .error "issueQue is null"
  | some q =>
    if !(s.insts x).isMemRef then .error "assert(inst->isMemRef())"
    else .ok ((s.modInst x fun i => { i with memDepSolved := true }).addIfReady q x)

/-! ### Selection and issue -/

structure PortChoice where
  skipped : ℕ → Bool
  busy : ℕ → Bool

/-- The ready instructions for one port: those that stay, the canceled ones that are removed, and
the one that is taken. -/
def pickReady (h : PortChoice) (s : Sched c) : List ℕ → List ℕ × List ℕ × Option ℕ
  | [] => ([], [], none)
  | x :: rest =>
    let r := pickReady h s rest
    if h.skipped x then (x :: r.1, r.2.1, r.2.2)
    else if (s.insts x).canceled then (r.1, x :: r.2.1, r.2.2)
    else if h.busy x then (x :: r.1, r.2.1, r.2.2)
    else (rest, [], some x)

/-- The choice of one port, which has the ready queue `k`. -/
def selectPort (q : Fin c.numQueues) (s : Sched c) (port : ℕ × PortChoice) : Sched c :=
  let r := pickReady port.2 s ((s.queues q).readyQ port.1)
  let s := (r.2.1 ++ r.2.2.toList).foldl
    (fun s x => s.modInst x fun i => { i with inReadyQ := false }) s
  s.modQueue q fun iq => { iq with
    readyQ := Function.update iq.readyQ port.1 r.1
    selectQ := iq.selectQ ++ r.2.2.toList }

/-- `selectInst`, with what holds instructions back at each port; the instructions of `failed` lose
a port of the register file. -/
def selectInst (q : Fin c.numQueues) (ports : List PortChoice) (failed : List ℕ) (s : Sched c) :
    Sched c :=
  let s := s.modQueue q fun iq => { iq with selectQ := [] }
  let s := ((c.readyQs q).zip ports).foldl (selectPort q) s
  failed.foldl (fun s x => s.modInst x fun i => { i with arbFailed := true }) s

def scheduleOne (pinned : Fin c.numRegs → ℕ) (q : Fin c.numQueues) (s : Sched c) (x : ℕ) :
    Except String (Sched c) :=
  let i := s.insts x
  let done (s : Sched c) := s.modInst x fun i => { i with arbFailed := false }
  if i.canceled then .ok (done s)
  else if i.arbFailed then
    if i.canIssue then .ok (done (s.readyQPush q x)) else .error "assert(inst->readyToIssue())"
  else if 8 ≤ ((s.queues q).inflight 0).length then .error "assert(size < 8)"
  else
    let s := s.modInst x fun i => { i with scheduled := true }
    let s := s.modQueue q fun iq =>
      { iq with inflight := Function.update iq.inflight 0 (iq.inflight 0 ++ [some x]) }
    .ok (done (s.specWakeUpDependents pinned x q))

/-- `tick`: the selected instructions are scheduled, and the stages move on. -/
def tick (pinned : Fin c.numRegs → ℕ) (q : Fin c.numQueues) (s : Sched c) :
    Except String (Sched c) :=
  ((s.queues q).selectQ.foldlM (scheduleOne pinned q) s).map fun s => s.modQueue q fun iq =>
    { iq with inflight := fun k => if k = 0 then [] else iq.inflight (k - 1) }

def getInstByDstReg (p : Fin c.numRegs) (s : Sched c) : Option ℕ :=
  (List.finRange c.numQueues).findSome? fun q =>
    (s.queues q).instList.find? fun x => decide (p ∈ (s.insts x).dstRegs)

/-- `checkScoreboard`: a source whose data is not there cancels its dependents. -/
def checkScoreboard (x : ℕ) (s : Sched c) : Except String (Bool × Sched c) :=
  match ((s.insts x).srcs.filterMap id).find? fun p => !s.bypassScoreboard p with
  | none => .ok (true, s)
  | some p =>
    match s.getInstByDstReg p with
    | none => .error "assert(dst_inst)"
    | some d =>
      if (s.insts d).isLoad then .ok (false, s.loadCancel d) else .error "dst is not load"

def issueOne (occupied : ℕ → Bool) (q : Fin c.numQueues) (s : Sched c) (x : Option ℕ) :
    Except String (Sched c) :=
  match x with
  | none => .ok s
  | some x =>
    if occupied x then
      .ok ((s.modInst x fun i => { i with scheduled := false }).readyQPush q x)
    else
      match s.checkScoreboard x with
      | .error e => .error e
      | .ok (false, s) => .ok s
      | .ok (true, s) =>
        if (s.insts x).issued then .error "has alreayd been issued"
        else .ok (s.modInst x fun i => { i with issued := true })

/-- A round of `issueToFu`: the last entry is popped, and the others can still be canceled. -/
def issueNext (occupied : ℕ → Bool) (q : Fin c.numQueues) (s : Sched c) (_round : ℕ) :
    Except String (Sched c) :=
  let stage := c.issueStages q
  let stream := (s.queues q).inflight stage
  match stream.getLast? with
  | none => .error "assert(size > 0)"
  | some x => issueOne occupied q (s.modQueue q fun iq =>
      { iq with inflight := Function.update iq.inflight stage stream.dropLast }) x

/-- `issueToFu`; `occupied` says for which instructions there is no functional unit. -/
def issueToFu (occupied : ℕ → Bool) (q : Fin c.numQueues) (s : Sched c) :
    Except String (Sched c) :=
  (List.range ((s.queues q).inflight (c.issueStages q)).length).foldlM (issueNext occupied q) s

/-! ### Commit and squash -/

def doCommit (seqNum : ℕ) (q : Fin c.numQueues) (s : Sched c) : Except String (Sched c) :=
  let old (x : ℕ) : Bool := decide ((s.insts x).seqNum ≤ seqNum)
  if ((s.queues q).instList.takeWhile old).all (fun x => (s.insts x).issued) then
    .ok (s.modQueue q fun iq => { iq with instList := iq.instList.dropWhile old })
  else .error "assert(instList.front()->isIssued())"

def squashInst (i : IqInst c) : IqInst c :=
  { i with
    issued := true
    squashed := true
    canCommit := true
    scheduled := false
    canceled := true }

/-- `IssueQue::doSquash`: the instructions of the queue that are younger, whatever their thread;
then the stages and the waiting instructions, by the mark. -/
def squashQueue (seqNum : ℕ) (s : Sched c) (q : Fin c.numQueues) : Sched c :=
  let young (x : ℕ) : Bool := decide ((s.insts x).seqNum > seqNum)
  let old := s.queues q
  let s := { s with
    insts := fun x =>
      if young x && decide (x ∈ old.instList) then squashInst (s.insts x) else s.insts x }
  let s := s.modQueue q fun iq => { iq with instList := iq.instList.filter fun x => !young x }
  let s := s.dropInflight (·.squashed) q
  s.modQueue q fun iq => { iq with
    subDepGraph := fun p => (iq.subDepGraph p).filter fun e => !(s.insts e.2).squashed }

def doSquash (seqNum : ℕ) (s : Sched c) : Sched c :=
  (List.finRange c.numQueues).foldl (squashQueue seqNum) s
end Sched

/-- What happens to the scheduler.  `setSquashed` is the mark that the reorder buffer makes. -/
inductive SchedEvent (c : SchedConfig)
  | addProducer (x : ℕ)
  | insert (q : Fin c.numQueues) (x : ℕ) (dataQ : Fin c.numQueues) (std : ℕ)
  | insertNonSpec (q : Fin c.numQueues) (x : ℕ)
  | markMemDepDone (x : ℕ)
  | selectInst (q : Fin c.numQueues) (ports : List Sched.PortChoice) (failed : List ℕ)
  | tick (q : Fin c.numQueues) (pinned : Fin c.numRegs → ℕ)
  | issueToFu (q : Fin c.numQueues) (occupied : ℕ → Bool)
  | specWakeup (x : ℕ) (q : Fin c.numQueues) (pinned : Fin c.numRegs → ℕ)
  | loadPipeWakeup (x : ℕ) (pinned : Fin c.numRegs → ℕ)
  | loadCancel (x : ℕ)
  | bypassWriteback (x : ℕ)
  | writeback (x : ℕ) (pinned : Fin c.numRegs → ℕ)
  | setSquashed (x : ℕ)
  | squash (seqNum : ℕ)
  | commit (q : Fin c.numQueues) (seqNum : ℕ)

namespace Sched
def Absent (s : Sched c) (x : ℕ) : Prop :=
  ∀ q, x ∉ (s.queues q).instList ∧ ∀ p i, (i, x) ∉ (s.queues q).subDepGraph p

/-- The events that can happen: an instruction that comes to a queue is new there, as is the data
part of a store; a wake-up that fires was pending; a destination that is written back has no other
write to come. -/
def Possible (s : Sched c) : SchedEvent c → Prop
  | .insert _ x _ std => s.Absent x ∧ s.Absent std ∧ x ≠ std
  | .insertNonSpec _ x => s.Absent x
  | .specWakeup x q _ => (x, q) ∈ s.specWakeEvents
  | .writeback x pinned => ∀ p ∈ (s.insts x).dstRegs, pinned p = 1
  | _ => True

def step (s : Sched c) : SchedEvent c → Except String (Sched c)
  | .addProducer x => .ok (s.addProducer x)
  | .insert q x dataQ std => s.schedule q x dataQ std
  | .insertNonSpec q x => .ok (s.insertNonSpec q x)
  | .markMemDepDone x => s.markMemDepDone x
  | .selectInst q ports failed => .ok (s.selectInst q ports failed)
  | .tick q pinned => s.tick pinned q
  | .issueToFu q occupied => s.issueToFu occupied q
  | .specWakeup x q pinned => .ok (s.specWakeupCompletion pinned x q)
  | .loadPipeWakeup x pinned => s.specWakeUpFromLoadPipe pinned x
  | .loadCancel x => .ok (s.loadCancel x)
  | .bypassWriteback x => .ok (s.bypassWriteback x)
  | .writeback x pinned => .ok (s.writebackWakeup pinned x)
  | .setSquashed x => .ok (s.modInst x fun i => { i with squashed := true })
  | .squash seqNum => .ok (s.doSquash seqNum)
  | .commit q seqNum => s.doCommit seqNum q
end Sched

inductive SchedReachable : Sched c → Prop
  | start (insts : ℕ → IqInst c) : SchedReachable (.start insts)
  | step {s t : Sched c} {e : SchedEvent c} : SchedReachable s → s.Possible e → s.step e = .ok t →
      SchedReachable t

def oneQueue : SchedConfig where
  numQueues := 1
  numRegs := 1
  issueStages := fun _ => 1
  readyQs := fun _ => [0]
  readyQclassify := fun _ _ => 0
  opPipelined := fun _ => true
  wakeMatrix := fun q => [q]

def plainIqInst (seqNum : ℕ) (srcs dsts : List (Option (Fin c.numRegs))) : IqInst c where
  seqNum := seqNum
  thread := 0
  srcs := srcs
  dsts := dsts
  opClass := 0
  opLat := 1
  isLoad := false
  isStore := false
  isMemRef := false
  isFloatOrVector := false
  isSplitStoreAddr := false
  isStoreConditional := false
  isAtomic := false
  isFullMemBarrier := false
  isReadBarrier := false
  isWriteBarrier := false
  isNonSpeculative := false
  ready := fun _ => false
  readyRegs := 0
  canIssue := false
  memDepSolved := false
  issued := false
  squashed := false
  canceled := false
  scheduled := false
  inReadyQ := false
  arbFailed := false
  canCommit := false
  memOpDone := false
  isCompleted := false
  issueQue := none

/-- The only register of `oneQueue`. -/
def theReg : Fin oneQueue.numRegs := ⟨0, Nat.one_pos⟩

/-- The only queue of `oneQueue`. -/
def theQueue : Fin oneQueue.numQueues := ⟨0, Nat.one_pos⟩

theorem eq_theQueue (q : Fin oneQueue.numQueues) : q = theQueue := Fin.ext (Nat.lt_one_iff.1 q.isLt)
end Gem5
