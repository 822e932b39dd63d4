import Gem5.Trace.Instruction

/-!
# The trace reader

The reader delivers the instructions of a trace one by one.  It reads ahead: the last record that
was read is pending until the one after it is known, instructions that are ready are in a buffer,
and those that were delivered are kept in a window, from which a seek can replay them.

The file is not compressed, and is read record by record; the reader keeps no checkpoints of its own
(nothing is ever put there).  `nextLogicalIndex` and the statistics are not read by anything and are
left out.  Indices are natural numbers: they are far below the bounds of the machine integers.
-/

namespace Gem5
structure ChampSimTrace where
  cfg : AddrMapConfig
  records : List ChampSimInstr

def ChampSimTrace.size (tr : ChampSimTrace) : ℕ :=
  tr.records.length

/-- The state of the reader; `streamPos` is the place in the file. -/
structure TraceReader where
  streamPos : ℕ
  eofReached : Bool
  currentSeqNum : ℕ
  instructionIndex : ℕ
  pendingInstr : Option TraceInstruction
  instrBuffer : List TraceInstruction
  historyWindow : List TraceInstruction
  historyStartIndex : ℕ
  replayActive : Bool
  replayIndex : ℕ

namespace TraceReader
def historyCapacity : ℕ := 4096

def maxBufferSize : ℕ := 1024

/-- `init`, and `reset`: the file is opened again, and nothing was read. -/
def init : TraceReader where
  streamPos := 0
  eofReached := false
  currentSeqNum := 0
  instructionIndex := 0
  pendingInstr := none
  instrBuffer := []
  historyWindow := []
  historyStartIndex := 1
  replayActive := false
  replayIndex := 0

variable (tr : ChampSimTrace)

/-! ### Reading ahead -/

/-- `parseInstruction`: the next record of the file. -/
def parseInstruction (s : TraceReader) : Option TraceInstruction × TraceReader :=
  if s.eofReached then (none, s)
  else
    match tr.records[s.streamPos]? with
    | none => (none, { s with eofReached := true })
    | some r => (some (r.convertInstruction tr.cfg s.currentSeqNum), { s with
        streamPos := s.streamPos + 1
        currentSeqNum := s.currentSeqNum + 1
        instructionIndex := s.instructionIndex + 1 })

def addToBuffer (i : TraceInstruction) (s : TraceReader) : Except String TraceReader :=
  if s.instrBuffer.length ≥ maxBufferSize then
    .error "TraceReader::addToBuffer: buffer overflow"
  else .ok { s with instrBuffer := s.instrBuffer ++ [i] }

/-- The loop of `drainPendingToBuffer`: at most `room` instructions go to the buffer.  Every round
but the first of a reader without pending instruction puts one there, so that one more round than
`room` is enough.  What is left of `room` is returned. -/
def drainLoop : ℕ → ℕ → TraceReader → Except String (ℕ × TraceReader)
  | 0, room, s => .ok (room, s)
  | rounds + 1, room, s =>
    if room = 0 ∨ s.eofReached then .ok (room, s)
    else
      match parseInstruction tr s with
      | (none, s) => .ok (room, { s with eofReached := true })
      | (some current, s) =>
        match s.pendingInstr with
        | none => drainLoop rounds room { s with pendingInstr := some current }
        | some pending =>
          let r := pending.reconcilePendingWithNext current
          match s.addToBuffer r.1 with
          | .error e => .error e
          | .ok s => drainLoop rounds (room - 1) { s with pendingInstr := some r.2 }

/-- `drainPendingToBuffer`: after the last record, the pending instruction is the last one. -/
def drainPendingToBuffer (max : ℕ) (s : TraceReader) : Except String TraceReader :=
  match drainLoop tr (max + 1) max s with
  | .error e => .error e
  | .ok (room, s) =>
    match s.pendingInstr with
    | some pending =>
      if s.eofReached && 0 < room then
        match s.addToBuffer pending.setLastInTrace with
        | .error e => .error e
        | .ok s => .ok { s with pendingInstr := none }
      else .ok s
    | none => .ok s

def fillBuffer (max : ℕ) (s : TraceReader) : Except String TraceReader :=
  if s.eofReached then .ok s else s.drainPendingToBuffer tr max

/-! ### The next instruction -/

def pushHistory (i : TraceInstruction) (s : TraceReader) : TraceReader :=
  let window := s.historyWindow ++ [i]
  if window.length > historyCapacity then
    { s with historyWindow := window.tail, historyStartIndex := s.historyStartIndex + 1 }
  else { s with historyWindow := window }

def replayed (s : TraceReader) : Option TraceInstruction :=
  if s.replayActive && decide (s.historyStartIndex ≤ s.replayIndex) then
    s.historyWindow[s.replayIndex - s.historyStartIndex]?
  else none

def popNext (s : TraceReader) : Except String (TraceInstruction × TraceReader) :=
  let low := decide (s.instrBuffer.length < maxBufferSize / 4) && !s.eofReached
  match if low then s.fillBuffer tr (maxBufferSize / 2) else .ok s with
  | .error e => .error e
  | .ok s =>
    match if s.instrBuffer.isEmpty then s.fillBuffer tr 1 else .ok s with
    | .error e => .error e
    | .ok s =>
      match s.instrBuffer with
      | [] => .ok (.invalid, s)
      | i :: rest => .ok (i, { s with instrBuffer := rest }.pushHistory i)

/-- `getNextInstruction`: a replay goes on to the end of the window. -/
def getNextInstruction (s : TraceReader) : Except String (TraceInstruction × TraceReader) :=
  match s.replayed with
  | some i => .ok (i, { s with replayIndex := s.replayIndex + 1 })
  | none =>
    popNext tr (if s.replayActive then { s with replayActive := false, replayIndex := 0 } else s)

/-! ### Seeks -/

def fastForward (target : ℕ) : ℕ → TraceReader → Bool × TraceReader
  | 0, s => (s.instructionIndex == target, s)
  | rounds + 1, s =>
    if s.instructionIndex < target ∧ s.eofReached = false then
      match parseInstruction tr s with
      | (none, s) => (false, s)
      | (some _, s) => fastForward target rounds s
    else (s.instructionIndex == target, s)

/-- `ChampSimTraceReader::seekToInstruction`: from the start of the file, whatever the position. -/
def seekToInstruction (instrIndex : ℕ) : Bool × TraceReader :=
  if instrIndex = 0 then (true, init) else fastForward tr instrIndex instrIndex init

def resetHistoryWindow (startIndex : ℕ) (s : TraceReader) : TraceReader :=
  { s with
    historyWindow := []
    historyStartIndex := startIndex
    replayActive := false
    replayIndex := 0 }

def dropAhead : ℕ → TraceReader → ℕ × TraceReader
  | 0, s => (0, s)
  | drop + 1, s =>
    match s.instrBuffer with
    | [] => (drop + 1, s)
    | i :: rest => dropAhead drop ({ s with instrBuffer := rest }.pushHistory i)

def hardSeek (instrIndex : ℕ) : Bool × TraceReader :=
  let r := seekToInstruction tr instrIndex
  if r.1 then (true, { r.2 with instrBuffer := [] }.resetHistoryWindow instrIndex) else r

/-- `softSeekToInstruction`: in the window, at its end, in the buffer, or in the file. -/
def softSeekToInstruction (instrIndex : ℕ) (s : TraceReader) : Bool × TraceReader :=
  let want := instrIndex + 1
  let logicalNext := s.historyStartIndex + s.historyWindow.length
  if s.historyStartIndex ≤ want ∧ want < logicalNext then
    (true, { s with replayActive := true, replayIndex := want })
  else if want = logicalNext then (true, s)
  else if want > logicalNext then
    let r := dropAhead (want - logicalNext) s
    if r.1 = 0 then (true, r.2) else hardSeek tr instrIndex
  else hardSeek tr instrIndex

/-- Whether `softSeekToInstruction` goes to the file. -/
def seeksFile (instrIndex : ℕ) (s : TraceReader) : Bool :=
  let want := instrIndex + 1
  let logicalNext := s.historyStartIndex + s.historyWindow.length
  decide (want < s.historyStartIndex ∨ logicalNext + s.instrBuffer.length < want)

end TraceReader

/-- The states of the reader after `init` and any calls.  The number is the record at which reading
began: the first one, or the target of the last seek in the file, where the records before the
target were dropped. -/
inductive ReaderReachable (tr : ChampSimTrace) : ℕ → TraceReader → Prop
  | init : ReaderReachable tr 0 .init
  | next {b : ℕ} {s t : TraceReader} {i : TraceInstruction} : ReaderReachable tr b s →
      s.getNextInstruction tr = .ok (i, t) → ReaderReachable tr b t
  | seek {b : ℕ} {s : TraceReader} (instrIndex : ℕ) : ReaderReachable tr b s →
      ReaderReachable tr (if s.seeksFile instrIndex then min instrIndex tr.size else b)
        (s.softSeekToInstruction tr instrIndex).2

end Gem5
