import Gem5.Trace.Reader

/-!
# The trace reader as a cursor

What the reader holds, in its window, its buffer and as pending instruction, is one stretch of the
trace (`TraceReader.Holds`).  So it delivers the instructions in their order, from its position on.
-/

namespace Gem5
open List ChampSimTrace TraceInstruction

namespace ChampSimTrace
variable (tr : ChampSimTrace)

def raw (i : ℕ) : TraceInstruction :=
  match tr.records[i]? with
  | none => .invalid
  | some r => r.convertInstruction tr.cfg i

/-- The pending instructions of a reading that begins at record `b`. -/
def pend (b : ℕ) : ℕ → TraceInstruction
  | 0 => tr.raw 0
  | i + 1 => if i + 1 ≤ b then tr.raw (i + 1) else (pend b i).correctNext (tr.raw (i + 1))

/-- The instructions of a reading that begins at record `b`. -/
def reading (b i : ℕ) : TraceInstruction :=
  if i + 1 < tr.size then (tr.pend b i).resolve (tr.pend b (i + 1)).pc
  else if i + 1 = tr.size then (tr.pend b i).setLastInTrace
  else .invalid

def plain (i : ℕ) : TraceInstruction :=
  tr.reading 0 i

variable {tr}

variable {i b m : ℕ}

theorem raw_of_lt (hi : i < tr.size) :
    tr.raw i = (tr.records.get ⟨i, hi⟩).convertInstruction tr.cfg i := by
  unfold raw
  rw [getElem?_eq_getElem hi]
  rfl

theorem pend_base (b : ℕ) : tr.pend b b = tr.raw b := by
  cases b with
  | zero => rfl
  | succ b => exact if_pos le_rfl

theorem pend_succ (hi : b ≤ i) : tr.pend b (i + 1) = (tr.pend b i).correctNext (tr.raw (i + 1)) :=
  if_neg (by omega)

theorem reading_of_lt (hb : b ≤ i) (hi : i + 1 < tr.size) :
    tr.reading b i = ((tr.pend b i).reconcilePendingWithNext (tr.raw (i + 1))).1 := by
  rw [reading, if_pos hi, pend_succ hb]
  rfl

theorem reading_last (hi : i + 1 = tr.size) : tr.reading b i = (tr.pend b i).setLastInTrace := by
  rw [reading, if_neg (by omega), if_pos hi]

theorem reading_of_size_le (hi : tr.size ≤ i) : tr.reading b i = .invalid := by
  rw [reading, if_neg (by omega), if_neg (by omega)]

theorem pend_eq_raw (tr : ChampSimTrace) (b i : ℕ) :
    ∃ pc, tr.pend b i = { tr.raw i with pc := pc } := by
  cases i with
  | zero => exact ⟨_, rfl⟩
  | succ i =>
    unfold pend
    split_ifs
    · exact ⟨_, rfl⟩
    · exact correctNext_eq _ _

section
variable (hi : i < tr.size)
include hi

theorem pend_seqNum : (tr.pend b i).seqNum = i := by
  obtain ⟨pc, h⟩ := tr.pend_eq_raw b i
  rw [h, raw_of_lt hi]
  rfl

theorem pend_valid : (tr.pend b i).valid = true := by
  obtain ⟨pc, h⟩ := tr.pend_eq_raw b i
  rw [h, raw_of_lt hi]
  rfl

theorem pend_lastInTrace : (tr.pend b i).lastInTrace = false := by
  obtain ⟨pc, h⟩ := tr.pend_eq_raw b i
  rw [h, raw_of_lt hi]
  rfl

theorem reading_seqNum : (tr.reading b i).seqNum = i := by
  unfold reading
  split_ifs with h1 h2
  · rw [(resolve_same _ _).2.1, pend_seqNum hi]
  · exact pend_seqNum hi
  · omega
end

theorem reading_valid : (tr.reading b i).valid = true ↔ i < tr.size := by
  unfold reading
  split_ifs with h1 h2
  · rw [(resolve_same _ _).2.2.1, pend_valid (by omega)]
    simp only [true_iff]
    omega
  · show (tr.pend b i).valid = true ↔ i < tr.size
    rw [pend_valid (by omega)]
    simp only [true_iff]
    omega
  · simp only [invalid, Bool.false_eq_true, false_iff]
    omega

theorem reading_lastInTrace : (tr.reading b i).lastInTrace = true ↔ i + 1 = tr.size := by
  unfold reading
  split_ifs with h1 h2
  · rw [(resolve_same _ _).2.2.2, pend_lastInTrace (by omega)]
    simp only [Bool.false_eq_true, false_iff]
    omega
  · simp only [setLastInTrace, true_iff]
    exact h2
  · simp only [invalid, Bool.false_eq_true, false_iff]
    exact h2

def stretch (tr : ChampSimTrace) (b i m : ℕ) : List TraceInstruction :=
  (List.range' i m).map (tr.reading b)

@[simp] theorem stretch_length (b i m : ℕ) : (tr.stretch b i m).length = m := by
  simp [stretch]

theorem stretch_succ (b i m : ℕ) :
    tr.stretch b i (m + 1) = tr.reading b i :: tr.stretch b (i + 1) m := by
  simp [stretch, range'_succ]

theorem stretch_append (b i m k : ℕ) :
    tr.stretch b i (m + k) = tr.stretch b i m ++ tr.stretch b (i + m) k := by
  simp [stretch, ← range'_append_1]

theorem stretch_one (b i : ℕ) : tr.stretch b i 1 = [tr.reading b i] := by
  simp [stretch]

theorem stretch_getElem? {j : ℕ} (hj : j < m) :
    (tr.stretch b i m)[j]? = some (tr.reading b (i + j)) := by
  simp [stretch, hj]

theorem stretch_of_size_le (hi : tr.size ≤ i) : tr.stretch b i m = List.replicate m .invalid := by
  refine eq_replicate_iff.2 ⟨stretch_length b i m, fun x hx => ?_⟩
  obtain ⟨j, hj, rfl⟩ := mem_map.1 hx
  exact reading_of_size_le (hi.trans (mem_range'_1.1 hj).1)

end ChampSimTrace

namespace TraceReader
variable (tr : ChampSimTrace) {b : ℕ} {s t : TraceReader}

/-! ### Where the reader is -/

def drained (s : TraceReader) : ℕ :=
  s.instructionIndex - (if s.pendingInstr.isSome then 1 else 0)

def firstRecord (s : TraceReader) : ℕ :=
  s.drained - (s.historyWindow.length + s.instrBuffer.length)

def nextRecord (s : TraceReader) : ℕ :=
  s.firstRecord + s.historyWindow.length

def Replaying (s : TraceReader) : Prop :=
  s.replayActive = true ∧ s.historyStartIndex ≤ s.replayIndex ∧
    s.replayIndex < s.historyStartIndex + s.historyWindow.length

instance (s : TraceReader) : Decidable s.Replaying := by
  unfold Replaying
  infer_instance

def position (s : TraceReader) : ℕ :=
  if s.Replaying then s.firstRecord + (s.replayIndex - s.historyStartIndex) else s.nextRecord

/-- What the reader holds, while it reads ahead: a stretch of the reading begun at record `b`. -/
structure Holds (b : ℕ) (s : TraceReader) : Prop where
  streamPos : s.streamPos = s.instructionIndex
  seqNum : s.currentSeqNum = s.instructionIndex
  le_size : s.instructionIndex ≤ tr.size
  eof : s.eofReached = true → s.instructionIndex = tr.size
  pending {p : TraceInstruction} : s.pendingInstr = some p →
    b < s.instructionIndex ∧ p = tr.pend b (s.instructionIndex - 1)
  fresh : s.pendingInstr = none → s.eofReached = false → s.instructionIndex = b
  first : b + (s.historyWindow.length + s.instrBuffer.length) ≤ s.drained
  held : s.historyWindow ++ s.instrBuffer =
    tr.stretch b s.firstRecord (s.historyWindow.length + s.instrBuffer.length)
  window_le : s.historyWindow.length ≤ historyCapacity

/-- Between the calls, nothing is pending at the end of the file, and the buffer is not too full. -/
structure Ready (b : ℕ) (s : TraceReader) : Prop extends Holds tr b s where
  settled : s.eofReached = true → s.pendingInstr = none
  room : s.instrBuffer.length < 3 * (maxBufferSize / 4)

variable {tr}

theorem ready_init : Ready tr 0 init where
  streamPos := rfl
  seqNum := rfl
  le_size := Nat.zero_le _
  eof h := by cases h
  pending h := by cases h
  fresh _ _ := rfl
  first := le_rfl
  held := rfl
  window_le := Nat.zero_le _
  settled h := by cases h
  room := by decide

/-! ### Reading ahead -/

structure Ahead (s t : TraceReader) : Prop where
  historyWindow : t.historyWindow = s.historyWindow
  historyStartIndex : t.historyStartIndex = s.historyStartIndex
  replayActive : t.replayActive = s.replayActive
  replayIndex : t.replayIndex = s.replayIndex
  firstRecord : t.firstRecord = s.firstRecord

theorem Ahead.refl (s : TraceReader) : Ahead s s := ⟨rfl, rfl, rfl, rfl, rfl⟩

variable {u : TraceReader} {p : TraceInstruction} {k : ℕ}

theorem Ahead.trans {s t : TraceReader} (h : Ahead s t) (h' : Ahead t u) : Ahead s u :=
  ⟨h'.historyWindow.trans h.historyWindow, h'.historyStartIndex.trans h.historyStartIndex,
    h'.replayActive.trans h.replayActive, h'.replayIndex.trans h.replayIndex,
    h'.firstRecord.trans h.firstRecord⟩

def advance (s : TraceReader) : TraceReader :=
  { s with
    streamPos := s.streamPos + 1
    currentSeqNum := s.currentSeqNum + 1
    instructionIndex := s.instructionIndex + 1 }

section
variable (hs : Holds tr b s)
include hs

theorem Holds.parse_lt (heof : s.eofReached = false) (hlt : s.instructionIndex < tr.size) :
    s.parseInstruction tr = (some (tr.raw s.instructionIndex), s.advance) := by
  have hget : tr.records[s.streamPos]? = some (tr.records.get ⟨s.instructionIndex, hlt⟩) := by
    rw [hs.streamPos]
    exact getElem?_eq_getElem hlt
  unfold parseInstruction
  rw [if_neg (by simp [heof]), hget]
  simp only [advance, hs.seqNum, raw_of_lt hlt]

theorem Holds.parse_end (heof : s.eofReached = false) (hend : s.instructionIndex = tr.size) :
    s.parseInstruction tr = (none, { s with eofReached := true }) := by
  have hget : tr.records[s.streamPos]? = none := by
    rw [hs.streamPos, hend]
    exact getElem?_eq_none le_rfl
  unfold parseInstruction
  rw [heof, hget]
  rfl

theorem Holds.begin (hpend : s.pendingInstr = none)
    (heof : s.eofReached = false) (hlt : s.instructionIndex < tr.size) :
    Holds tr b { s.advance with pendingInstr := some (tr.raw s.instructionIndex) } ∧
      Ahead s { s.advance with pendingInstr := some (tr.raw s.instructionIndex) } := by
  have hidx := hs.fresh hpend heof
  have hfirst := hs.first
  have hheld := hs.held
  simp only [drained, firstRecord, hpend]
    at hfirst hheld
  have hdrained : ({ s.advance with pendingInstr := some (tr.raw s.instructionIndex) } :
      TraceReader).drained = s.instructionIndex := rfl
  refine ⟨⟨?_, ?_, hlt, ?_, ?_, ?_, ?_, ?_, hs.window_le⟩, ⟨rfl, rfl, rfl, rfl, ?_⟩⟩
  · simp only [advance, hs.streamPos]
  · simp only [advance, hs.seqNum]
  · intro h
    exact absurd h (by simp [advance, heof])
  · rintro p hp
    cases hp
    refine ⟨by simp only [advance]; omega, ?_⟩
    simp only [advance, hidx]
    exact (pend_base b).symm
  · intro h
    cases h
  · rw [hdrained]
    simpa [advance] using hfirst
  · unfold firstRecord
    rw [hdrained]
    simpa [advance] using hheld
  · unfold firstRecord
    simp [advance, drained, hpend]

theorem Holds.push (hpend : s.pendingInstr = some p) {t : TraceReader}
    (hwin : t.historyWindow = s.historyWindow)
    (hbuf : t.instrBuffer = s.instrBuffer ++ [tr.reading b (s.instructionIndex - 1)])
    (hdrained : t.drained = s.instructionIndex) :
    b + (t.historyWindow.length + t.instrBuffer.length) ≤ t.drained ∧
      t.historyWindow ++ t.instrBuffer =
        tr.stretch b t.firstRecord (t.historyWindow.length + t.instrBuffer.length) ∧
      t.firstRecord = s.firstRecord := by
  have hfirst := hs.first
  have hheld := hs.held
  have hpos := (hs.pending hpend).1
  have hsd : s.drained = s.instructionIndex - 1 := by simp [drained, hpend]
  have hlen : t.historyWindow.length + t.instrBuffer.length =
      s.historyWindow.length + s.instrBuffer.length + 1 := by
    rw [hwin, hbuf, length_append, length_singleton]
    omega
  have hsame : t.firstRecord = s.firstRecord := by
    unfold firstRecord
    omega
  refine ⟨by omega, ?_, hsame⟩
  have hlast : s.firstRecord + (s.historyWindow.length + s.instrBuffer.length) =
      s.instructionIndex - 1 := by
    unfold firstRecord
    omega
  rw [hlen, hsame, stretch_append, ← hheld, hlast, stretch_one, hwin, hbuf, append_assoc]

theorem Holds.shift (hpend : s.pendingInstr = some p)
    (heof : s.eofReached = false) (hlt : s.instructionIndex < tr.size) {t : TraceReader}
    (ht : t = { s.advance with
      instrBuffer := s.instrBuffer ++ [tr.reading b (s.instructionIndex - 1)]
      pendingInstr := some (tr.pend b s.instructionIndex) }) : Holds tr b t ∧ Ahead s t := by
  obtain ⟨hfirst, hheld, hsame⟩ := hs.push hpend (t := t) (ht ▸ rfl) (ht ▸ rfl) (ht ▸ rfl)
  subst ht
  have hpos := (hs.pending hpend).1
  refine ⟨⟨?_, ?_, hlt, ?_, ?_, ?_, hfirst, hheld, hs.window_le⟩, ⟨rfl, rfl, rfl, rfl, hsame⟩⟩
  · simp only [advance, hs.streamPos]
  · simp only [advance, hs.seqNum]
  · intro h
    exact absurd h (by simp [advance, heof])
  · rintro q hq
    cases hq
    exact ⟨by simp only [advance]; omega, rfl⟩
  · intro h
    cases h
end

theorem Holds.drainLoop {rounds room : ℕ} (hs : Holds tr b s) (heof : s.eofReached = false)
    (hroom : s.instrBuffer.length + room < maxBufferSize)
    (hrounds : room + (if s.pendingInstr.isSome then 0 else 1) ≤ rounds) :
    ∃ room' t, drainLoop tr rounds room s = .ok (room', t) ∧ Holds tr b t ∧ Ahead s t ∧
      t.instrBuffer.length + room' = s.instrBuffer.length + room ∧
      (room' = 0 ∧ t.eofReached = false ∨ 0 < room' ∧ t.eofReached = true) := by
  induction rounds generalizing room s with
  | zero => exact ⟨room, s, rfl, hs, .refl s, rfl, .inl ⟨by omega, heof⟩⟩
  | succ rounds ih =>
    unfold TraceReader.drainLoop
    by_cases hroom0 : room = 0
    · rw [if_pos (.inl hroom0)]
      exact ⟨room, s, rfl, hs, .refl s, rfl, .inl ⟨hroom0, heof⟩⟩
    · rw [if_neg (by simp [hroom0, heof])]
      rcases Nat.lt_or_ge s.instructionIndex tr.size with hlt | hge
      · rw [hs.parse_lt heof hlt]
        cases hpend : s.pendingInstr with
        | none =>
          have hadv : s.advance.pendingInstr = none := hpend
          simp only [hadv]
          obtain ⟨hbegin, hahead⟩ := hs.begin hpend heof hlt
          obtain ⟨room', t, ht, hholds, hahead', hlen, hdone⟩ :=
            ih hbegin heof hroom (by simp [hpend] at hrounds ⊢; omega)
          exact ⟨room', t, ht, hholds, hahead.trans hahead', hlen, hdone⟩
        | some p =>
          have hadv : s.advance.pendingInstr = some p := hpend
          obtain ⟨hpos, hp⟩ := hs.pending hpend
          -- what goes to the buffer, and what becomes pending
          have hidx : s.instructionIndex - 1 + 1 = s.instructionIndex := by omega
          have hrec : p.reconcilePendingWithNext (tr.raw s.instructionIndex) =
              (tr.reading b (s.instructionIndex - 1), tr.pend b s.instructionIndex) := by
            refine Prod.ext ?_ ?_
            · rw [reading_of_lt (by omega) (by omega), hidx, hp]
            · rw [← hidx, pend_succ (by omega), Nat.add_sub_cancel, hp]
              rfl
          have hadd : s.advance.addToBuffer (tr.reading b (s.instructionIndex - 1)) =
              .ok { s.advance with
                instrBuffer := s.instrBuffer ++ [tr.reading b (s.instructionIndex - 1)] } :=
            if_neg (by simp only [advance]; omega)
          simp only [hadv, hrec, hadd]
          obtain ⟨hshift, hahead⟩ := hs.shift hpend heof hlt rfl
          have hroom' : (s.instrBuffer ++ [tr.reading b (s.instructionIndex - 1)]).length +
              (room - 1) < maxBufferSize := by
            rw [length_append, length_singleton]
            omega
          obtain ⟨room', t, ht, hholds, hahead', hlen, hdone⟩ :=
            ih hshift heof hroom' (by simp [hpend] at hrounds ⊢; omega)
          refine ⟨room', t, ht, hholds, hahead.trans hahead', ?_, hdone⟩
          rw [hlen]
          simp only [length_append, length_singleton]
          omega
      · have hend : s.instructionIndex = tr.size := le_antisymm hs.le_size hge
        rw [hs.parse_end heof hend]
        exact ⟨room, { s with eofReached := true }, rfl,
          { hs with eof := fun _ => hend, fresh := fun _ h => by cases h },
          ⟨rfl, rfl, rfl, rfl, rfl⟩, rfl, .inr ⟨Nat.pos_of_ne_zero hroom0, rfl⟩⟩

theorem Holds.pushLast (hs : Holds tr b s) (hpend : s.pendingInstr = some p)
    (heof : s.eofReached = true) {t : TraceReader} (ht : t = { s with
      instrBuffer := s.instrBuffer ++ [p.setLastInTrace]
      pendingInstr := none }) : Holds tr b t ∧ Ahead s t := by
  obtain ⟨hpos, hp⟩ := hs.pending hpend
  have hend := hs.eof heof
  have hlast : p.setLastInTrace = tr.reading b (s.instructionIndex - 1) := by
    rw [reading_last (by omega), hp]
  rw [hlast] at ht
  obtain ⟨hfirst, hheld, hsame⟩ := hs.push hpend (t := t) (ht ▸ rfl) (ht ▸ rfl) (ht ▸ rfl)
  subst ht
  refine ⟨⟨hs.streamPos, hs.seqNum, hs.le_size, hs.eof, ?_, ?_, hfirst, hheld, hs.window_le⟩,
    ⟨rfl, rfl, rfl, rfl, hsame⟩⟩
  · intro _ h
    cases h
  · intro _ h
    exact absurd heof (by rw [h]; exact Bool.false_ne_true)

theorem Ready.fillBuffer {max : ℕ} (hs : Ready tr b s) (hmax : 0 < max)
    (hroom : s.instrBuffer.length + max < 3 * (maxBufferSize / 4)) :
    ∃ t, s.fillBuffer tr max = .ok t ∧ Ready tr b t ∧ Ahead s t ∧
      (t.instrBuffer = [] → t.eofReached = true) := by
  unfold TraceReader.fillBuffer
  have hmaxSize : 3 * (maxBufferSize / 4) < maxBufferSize := by decide
  cases heof : s.eofReached with
  | true => exact ⟨s, rfl, hs, .refl s, fun _ => heof⟩
  | false =>
    obtain ⟨room, t, hloop, hholds, hahead, hlen, hdone⟩ := hs.toHolds.drainLoop heof
      (show s.instrBuffer.length + max < maxBufferSize by omega)
      (show max + (if s.pendingInstr.isSome then 0 else 1) ≤ max + 1 by split_ifs <;> omega)
    simp only [Bool.false_eq_true, if_false, drainPendingToBuffer, hloop]
    rcases hdone with ⟨hroom0, hteof⟩ | ⟨hroom0, hteof⟩
    · -- the buffer was filled
      have hne : t.instrBuffer ≠ [] := by
        intro hnil
        rw [hnil, length_nil] at hlen
        omega
      refine ⟨t, ?_, ⟨hholds, fun h => absurd h (by simp [hteof]), by omega⟩, hahead,
        fun h => absurd h hne⟩
      cases hpend : t.pendingInstr with
      | none => rfl
      | some p => simp [hteof]
    · cases hpend : t.pendingInstr with
      | none => exact ⟨t, rfl, ⟨hholds, fun _ => hpend, by omega⟩, hahead, fun _ => hteof⟩
      | some p =>
        obtain ⟨hlast, hahead'⟩ := hholds.pushLast hpend hteof rfl
        have hadd : t.addToBuffer p.setLastInTrace =
            .ok { t with instrBuffer := t.instrBuffer ++ [p.setLastInTrace] } :=
          if_neg (by omega)
        dsimp only
        rw [if_pos (by simp [hteof, hroom0]), hadd]
        refine ⟨_, rfl, ⟨hlast, fun _ => rfl, ?_⟩, hahead.trans hahead', fun _ => hteof⟩
        simp only [length_append, length_singleton]
        omega

/-! ### The next instruction -/

theorem Ahead.nextRecord (h : Ahead s t) : t.nextRecord = s.nextRecord := by
  unfold TraceReader.nextRecord
  rw [h.firstRecord, h.historyWindow]

theorem Holds.nextRecord_add (hs : Holds tr b s) :
    s.nextRecord + s.instrBuffer.length = s.drained := by
  have hfirst := hs.first
  unfold nextRecord firstRecord
  omega

theorem Holds.drained_le (hs : Holds tr b s) : s.drained ≤ tr.size :=
  (Nat.sub_le _ _).trans hs.le_size

theorem Holds.position_le (hs : Holds tr b s) : s.position ≤ tr.size := by
  have hadd := hs.nextRecord_add
  have hle := hs.drained_le
  unfold position
  split_ifs with hre
  · have := hre.2.2
    unfold nextRecord at hadd
    omega
  · omega

theorem Ready.nextRecord_end (hs : Ready tr b s) (heof : s.eofReached = true)
    (hbuf : s.instrBuffer = []) : s.nextRecord = tr.size := by
  have hadd := hs.nextRecord_add
  simp only [drained, hs.settled heof, hs.eof heof, hbuf, Option.isSome_none, Bool.false_eq_true,
    if_false] at hadd
  omega

theorem Holds.window_eq (hs : Holds tr b s) :
    s.historyWindow = tr.stretch b s.firstRecord s.historyWindow.length := by
  have hheld := hs.held
  rw [stretch_append] at hheld
  exact (append_inj hheld (by simp)).1

theorem Holds.buffer_eq (hs : Holds tr b s) :
    s.instrBuffer = tr.stretch b s.nextRecord s.instrBuffer.length := by
  have hheld := hs.held
  rw [stretch_append] at hheld
  exact (append_inj hheld (by simp)).2

/-- The first `k` instructions of the buffer have gone to the window. -/
structure Moved (k : ℕ) (s t : TraceReader) : Prop where
  nextRecord : t.nextRecord = s.nextRecord + k
  logicalNext : t.historyStartIndex + t.historyWindow.length =
    s.historyStartIndex + s.historyWindow.length + k
  historyStartIndex : t.historyStartIndex = max s.historyStartIndex
    (s.historyStartIndex + s.historyWindow.length + k - historyCapacity)
  replayActive : t.replayActive = s.replayActive
  replayIndex : t.replayIndex = s.replayIndex

theorem Holds.moved_zero (hs : Holds tr b s) : Moved 0 s s := by
  have hle := hs.window_le
  exact ⟨rfl, rfl, by omega, rfl, rfl⟩

theorem Moved.trans {m : ℕ} (h : Moved k s t) (h' : Moved m t u) : Moved (k + m) s u := by
  have hlog := h.logicalNext
  have hlog' := h'.logicalNext
  have hstart := h.historyStartIndex
  have hstart' := h'.historyStartIndex
  exact ⟨by rw [h'.nextRecord, h.nextRecord, Nat.add_assoc], by omega, by omega,
    h'.replayActive.trans h.replayActive, h'.replayIndex.trans h.replayIndex⟩

theorem Moved.firstRecord (h : Moved k s t) :
    t.firstRecord = s.firstRecord + (t.historyStartIndex - s.historyStartIndex) := by
  have hnext := h.nextRecord
  have hlog := h.logicalNext
  have hstart := h.historyStartIndex
  unfold TraceReader.nextRecord at hnext
  omega

theorem Moved.of_ahead (h : Ahead s t) (h' : Moved k t u) : Moved k s u := by
  obtain ⟨hnext, hlog, hstart, hactive, hindex⟩ := h'
  rw [h.nextRecord] at hnext
  rw [h.historyWindow, h.historyStartIndex] at hlog hstart
  rw [h.replayActive] at hactive
  rw [h.replayIndex] at hindex
  exact ⟨hnext, hlog, hstart, hactive, hindex⟩

theorem Ready.rewindow (hs : Ready tr b s) {start : ℕ} {window buffer : List TraceInstruction}
    (hfirst : b + (window.length + buffer.length) ≤ s.drained)
    (hheld : window ++ buffer = tr.stretch b (s.drained - (window.length + buffer.length))
      (window.length + buffer.length))
    (hwindow : window.length ≤ historyCapacity) (hroom : buffer.length < 3 * (maxBufferSize / 4)) :
    Ready tr b { s with
      instrBuffer := buffer
      historyWindow := window
      historyStartIndex := start } :=
  ⟨⟨hs.streamPos, hs.seqNum, hs.le_size, hs.eof, hs.pending, hs.fresh, hfirst, hheld, hwindow⟩,
    hs.settled, hroom⟩

theorem Ready.pushHistory (hs : Ready tr b s) {i : TraceInstruction} {rest : List TraceInstruction}
    (hbuf : s.instrBuffer = i :: rest) : i = tr.reading b s.nextRecord ∧
      Ready tr b ({ s with instrBuffer := rest }.pushHistory i) ∧
      Moved 1 s ({ s with instrBuffer := rest }.pushHistory i) := by
  have hi : i = tr.reading b s.nextRecord := by
    have h := hs.buffer_eq
    rw [hbuf, length_cons, stretch_succ] at h
    exact (List.cons.inj h).1
  have hheld := hs.held
  have hfirst := hs.first
  have hroom := hs.room
  have hle := hs.window_le
  have hrec : s.firstRecord = s.drained - (s.historyWindow.length + (rest.length + 1)) := by
    rw [firstRecord, hbuf, length_cons]
  rw [hbuf, length_cons] at hheld hfirst hroom
  refine ⟨hi, ?_⟩
  unfold TraceReader.pushHistory
  dsimp only
  by_cases hfull : (s.historyWindow ++ [i]).length > historyCapacity
  · -- the oldest one leaves the window
    rw [if_pos hfull]
    rw [length_append, length_singleton] at hfull
    cases hwin : s.historyWindow with
    | nil => simp [hwin, historyCapacity] at hfull
    | cons x window =>
      rw [hwin, length_cons] at hheld hfirst hle hfull hrec
      have hlen : (window ++ [i]).length + rest.length = window.length + 1 + rest.length := by
        rw [length_append, length_singleton]
      have hstretch : window ++ [i] ++ rest =
          tr.stretch b (s.firstRecord + 1) (window.length + 1 + rest.length) := by
        rw [append_assoc, singleton_append]
        exact (List.cons.inj hheld).2
      have hrec' : s.drained - (window.length + 1 + rest.length) = s.firstRecord + 1 := by omega
      refine ⟨hs.rewindow ?_ ?_ ?_ (by omega), ⟨?_, ?_, ?_, rfl, rfl⟩⟩
      · simp only [cons_append, tail_cons, hlen]
        omega
      · simp only [cons_append, tail_cons, hlen]
        rw [hrec', hstretch]
      · simp only [cons_append, tail_cons, length_append]
        exact hle
      · show s.drained - ((window ++ [i]).length + rest.length) + (window ++ [i]).length =
          s.firstRecord + s.historyWindow.length + 1
        rw [hwin, length_append, length_singleton, length_cons]
        omega
      · simp only [cons_append, tail_cons, hwin, length_cons]
        omega
      · simp only [hwin, length_cons]
        omega
  · rw [if_neg hfull]
    have hlen : (s.historyWindow ++ [i]).length + rest.length =
        s.historyWindow.length + (rest.length + 1) := by
      rw [length_append, length_singleton]
      omega
    refine ⟨hs.rewindow ?_ ?_ ?_ (by omega), ⟨?_, ?_, ?_, rfl, rfl⟩⟩
    · rw [hlen]
      exact hfirst
    · rw [hlen, ← hrec, ← hheld, append_assoc, singleton_append]
    · omega
    · show s.drained - ((s.historyWindow ++ [i]).length + rest.length) +
        (s.historyWindow ++ [i]).length = s.firstRecord + s.historyWindow.length + 1
      omega
    · simp only
      omega
    · simp only
      omega

theorem Ready.popNext (hs : Ready tr b s) :
    ∃ t, s.popNext tr = .ok (tr.reading b s.nextRecord, t) ∧ Ready tr b t ∧
      Moved (if s.nextRecord < tr.size then 1 else 0) s t := by
  have hquarter : maxBufferSize / 4 + maxBufferSize / 2 ≤ 3 * (maxBufferSize / 4) := by decide
  -- the first fill
  obtain ⟨t, ht, hready, hahead⟩ : ∃ t, (if decide (s.instrBuffer.length < maxBufferSize / 4) &&
      !s.eofReached then s.fillBuffer tr (maxBufferSize / 2) else .ok s) = .ok t ∧ Ready tr b t ∧
      Ahead s t := by
    by_cases hlow : s.instrBuffer.length < maxBufferSize / 4 ∧ s.eofReached = false
    · rw [if_pos (by simp [hlow])]
      obtain ⟨t, ht, hready, hahead, -⟩ := hs.fillBuffer (show 0 < maxBufferSize / 2 by decide)
        (by omega)
      exact ⟨t, ht, hready, hahead⟩
    · rw [if_neg (by simpa using hlow)]
      exact ⟨s, rfl, hs, .refl s⟩
  -- the second one, if nothing came
  obtain ⟨u, hu, hready', hahead', hempty⟩ : ∃ u, (if t.instrBuffer.isEmpty then
      t.fillBuffer tr 1 else .ok t) = .ok u ∧ Ready tr b u ∧ Ahead t u ∧
      (u.instrBuffer = [] → u.eofReached = true) := by
    by_cases hnil : t.instrBuffer = []
    · rw [if_pos (by simp [hnil])]
      exact hready.fillBuffer Nat.one_pos (by rw [hnil]; decide)
    · rw [if_neg (by simp [hnil])]
      exact ⟨t, rfl, hready, .refl t, fun h => absurd h hnil⟩
  have hahead'' : Ahead s u := hahead.trans hahead'
  have hnext : u.nextRecord = s.nextRecord := hahead''.nextRecord
  unfold TraceReader.popNext
  simp only [ht, hu]
  cases hbuf : u.instrBuffer with
  | nil =>
    have hend := hready'.nextRecord_end (hempty hbuf) hbuf
    rw [hnext] at hend
    rw [reading_of_size_le hend.ge, if_neg (by omega)]
    exact ⟨u, rfl, hready', .of_ahead hahead'' hready'.moved_zero⟩
  | cons i rest =>
    obtain ⟨hi, hpush, hmoved⟩ := hready'.pushHistory hbuf
    rw [hnext] at hi
    have hlt : s.nextRecord < tr.size := by
      have hadd := hready'.nextRecord_add
      have hle := hready'.drained_le
      rw [hbuf, length_cons] at hadd
      omega
    rw [if_pos hlt]
    exact ⟨_, congrArg Except.ok (Prod.ext hi rfl), hpush, .of_ahead hahead'' hmoved⟩

theorem position_of_off (h : s.replayActive = false) : s.position = s.nextRecord :=
  if_neg fun hre => by simp [hre.1] at h

theorem replayed_of_not (h : ¬s.Replaying) : s.replayed = none := by
  unfold replayed
  split
  · next hon =>
    simp only [Bool.and_eq_true, decide_eq_true_eq] at hon
    refine getElem?_eq_none (not_lt.1 fun hlt => h ⟨hon.1, hon.2, ?_⟩)
    omega
  · rfl

theorem Holds.replayed (hs : Holds tr b s) (h : s.Replaying) :
    s.replayed = some (tr.reading b s.position) := by
  obtain ⟨hon, hge, hlt⟩ := h
  unfold TraceReader.replayed
  rw [if_pos (by simp [hon, hge]), position, if_pos ⟨hon, hge, hlt⟩, hs.window_eq,
    stretch_getElem? (by omega)]

theorem Ready.getNextInstruction (hs : Ready tr b s) :
    ∃ t, s.getNextInstruction tr = .ok (tr.reading b s.position, t) ∧ Ready tr b t ∧
      t.position = if s.position < tr.size then s.position + 1 else s.position := by
  unfold TraceReader.getNextInstruction
  by_cases hre : s.Replaying
  · rw [hs.replayed hre]
    refine ⟨_, rfl, ⟨{ hs with }, hs.settled, hs.room⟩, ?_⟩
    obtain ⟨hon, hge, hlt⟩ := hre
    have hpos : s.position = s.firstRecord + (s.replayIndex - s.historyStartIndex) :=
      if_pos ⟨hon, hge, hlt⟩
    have hadd := hs.nextRecord_add
    have hle := hs.drained_le
    rw [nextRecord] at hadd
    rw [if_pos (by omega)]
    show (if s.replayActive = true ∧ s.historyStartIndex ≤ s.replayIndex + 1 ∧
        s.replayIndex + 1 < s.historyStartIndex + s.historyWindow.length then
      s.firstRecord + (s.replayIndex + 1 - s.historyStartIndex) else s.nextRecord) = _
    split_ifs with hstill
    · omega
    · -- the replay has come to the end of the window
      rw [nextRecord]
      simp only [hon, true_and, not_and] at hstill
      have := hstill (by omega)
      omega
  · -- a replay that has left the window is turned off
    rw [replayed_of_not hre, position, if_neg hre]
    have hs' : Ready tr b (if s.replayActive then
        { s with replayActive := false, replayIndex := 0 } else s) := by
      split_ifs
      · exact ⟨{ hs with }, hs.settled, hs.room⟩
      · exact hs
    have hnext : (if s.replayActive then { s with replayActive := false, replayIndex := 0 }
        else s).nextRecord = s.nextRecord := by
      split_ifs <;> rfl
    have hoff : (if s.replayActive then { s with replayActive := false, replayIndex := 0 }
        else s).replayActive = false := by
      split_ifs with hon
      · rfl
      · exact Bool.eq_false_of_not_eq_true hon
    obtain ⟨t, ht, hready, hmoved⟩ := hs'.popNext
    rw [hnext] at ht hmoved
    refine ⟨t, ht, hready, ?_⟩
    rw [position_of_off (hmoved.replayActive.trans hoff), hmoved.nextRecord]
    split_ifs <;> rfl

theorem Ready.getNextInstruction_of_off (hs : Ready tr b s) (hoff : s.replayActive = false) :
    ∃ t, s.getNextInstruction tr = .ok (tr.reading b s.nextRecord, t) ∧ Ready tr b t ∧
      Moved (if s.nextRecord < tr.size then 1 else 0) s t := by
  unfold TraceReader.getNextInstruction
  rw [replayed_of_not fun hre => by simp [hre.1] at hoff]
  simp only [hoff]
  exact hs.popNext

/-! ### The next instructions -/

/-- The next `m` instructions. -/
def deliveries (tr : ChampSimTrace) : ℕ → TraceReader → Except String (List TraceInstruction)
  | 0, _ => .ok []
  | m + 1, s =>
    match s.getNextInstruction tr with
    | .error e => .error e
    | .ok (i, s) =>
      match deliveries tr m s with
      | .error e => .error e
      | .ok is => .ok (i :: is)

theorem Ready.deliveries (hs : Ready tr b s) (m : ℕ) :
    s.deliveries tr m = .ok (tr.stretch b s.position m) := by
  induction m generalizing s with
  | zero => rfl
  | succ m ih =>
    obtain ⟨t, ht, hready, hpos⟩ := hs.getNextInstruction
    unfold TraceReader.deliveries
    simp only [ht, ih hready]
    rw [stretch_succ, hpos]
    split_ifs with hlt
    · rfl
    · -- behind the end, all are invalid
      rw [stretch_of_size_le (by omega), stretch_of_size_le (by omega)]

end TraceReader
end Gem5
