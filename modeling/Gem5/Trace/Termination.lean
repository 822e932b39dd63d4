import Gem5.Trace.Reader
import Mathlib.Tactic

/-!
# Which seeks return

`softSeekToInstruction` falls back to the virtual function `seekToInstruction`.  The ChampSim reader
reads the file from its start there; the CBP2025 reader calls `softSeekToInstruction` again, in the
state in which the first call gave up.

The window is any window here, so that sums of indices wrap around at 64 bits.
-/

namespace Gem5
open List

inductive TraceFormat
  | champSim
  | cbp2025
  deriving DecidableEq

inductive SeekCall
  | softSeekToInstruction
  | seekToInstruction
  deriving DecidableEq

namespace TraceReader
def logicalNext (s : TraceReader) : ℕ :=
  (s.historyStartIndex + s.historyWindow.length) % 2 ^ 64

def winEnd (s : TraceReader) : ℕ :=
  (s.historyStartIndex + (s.historyWindow.length - 1)) % 2 ^ 64

def InWindow (want : ℕ) (s : TraceReader) : Prop :=
  s.historyWindow ≠ [] ∧ s.historyStartIndex % 2 ^ 64 ≤ want ∧ want ≤ s.winEnd

instance (want : ℕ) (s : TraceReader) : Decidable (InWindow want s) :=
  inferInstanceAs (Decidable (_ ∧ _))

/-- `softSeekToInstruction` up to the fallback, for the index `want` of the next instruction:
whether it has found it. -/
def softSeekLocal (want : ℕ) (s : TraceReader) : Bool × TraceReader :=
  if s.InWindow want then (true, { s with replayActive := true, replayIndex := want })
  else if want = s.logicalNext then (true, s)
  else if want > s.logicalNext then
    let r := dropAhead (want - s.logicalNext) s
    (r.1 == 0, r.2)
  else (false, s)

/-- The loop of `ChampSimTraceReader::seekToInstruction`, in at most `fuel` rounds. -/
def fastForwardIn (tr : ChampSimTrace) (target : ℕ) :
    ℕ → TraceReader → Option (Bool × TraceReader)
  | 0, _ => none
  | fuel + 1, s =>
    if s.instructionIndex < target ∧ s.eofReached = false then
      match parseInstruction tr s with
      | (none, s) => some (false, s)
      | (some _, s) => fastForwardIn tr target fuel s
    else some (s.instructionIndex == target, s)

/-- A call of a reader; `none` if `fuel` nested calls and rounds are not enough. -/
def seek (format : TraceFormat) (tr : ChampSimTrace) (instrIndex : ℕ) :
    ℕ → SeekCall → TraceReader → Option (Bool × TraceReader)
  | 0, _, _ => none
  | fuel + 1, .softSeekToInstruction, s =>
    match softSeekLocal ((instrIndex + 1) % 2 ^ 64) s with
    | (true, s) => some (true, s)
    | (false, s) =>
      match seek format tr instrIndex fuel .seekToInstruction s with
      | some (true, s) => some (true, { s with instrBuffer := [] }.resetHistoryWindow instrIndex)
      | r => r
  | fuel + 1, .seekToInstruction, s =>
    match format with
    | .cbp2025 => seek format tr instrIndex fuel .softSeekToInstruction s
    | .champSim =>
      if instrIndex = 0 then some (true, init) else fastForwardIn tr instrIndex fuel init

/-- The seek comes to an end. -/
def Returns (format : TraceFormat) (tr : ChampSimTrace) (instrIndex : ℕ) (call : SeekCall)
    (s : TraceReader) : Prop :=
  ∃ fuel, (seek format tr instrIndex fuel call s).isSome

/-- The record is in the window or the buffer. -/
def InReach (want : ℕ) (s : TraceReader) : Prop :=
  s.InWindow want ∨ s.logicalNext ≤ want ∧ want ≤ s.logicalNext + s.instrBuffer.length

variable {format : TraceFormat} {tr : ChampSimTrace} {instrIndex want : ℕ} {call : SeekCall}
  {s : TraceReader}

/-! ### Instructions that are dropped -/

theorem pushHistory_next (i : TraceInstruction) (s : TraceReader) :
    (s.pushHistory i).historyStartIndex + (s.pushHistory i).historyWindow.length =
        s.historyStartIndex + s.historyWindow.length + 1 ∧
      (s.pushHistory i).instrBuffer = s.instrBuffer := by
  unfold pushHistory
  dsimp only
  split_ifs with h
  · refine ⟨?_, rfl⟩
    rw [length_tail, length_append, length_singleton]
    dsimp only
    omega
  · refine ⟨?_, rfl⟩
    rw [length_append, length_singleton, ← Nat.add_assoc]

theorem dropAhead_next (drop : ℕ) (s : TraceReader) :
    (dropAhead drop s).1 = drop - s.instrBuffer.length ∧
      (s.instrBuffer.length ≤ drop → (dropAhead drop s).2.instrBuffer = [] ∧
        (dropAhead drop s).2.historyStartIndex + (dropAhead drop s).2.historyWindow.length =
          s.historyStartIndex + s.historyWindow.length + s.instrBuffer.length) := by
  induction drop generalizing s with
  | zero =>
    refine ⟨(Nat.zero_sub _).symm, fun h => ?_⟩
    have hnil := eq_nil_of_length_eq_zero (Nat.le_zero.1 h)
    simp [dropAhead, hnil]
  | succ drop ih =>
    unfold dropAhead
    cases hbuf : s.instrBuffer with
    | nil => simp [hbuf]
    | cons i rest =>
      obtain ⟨hnext, hrest⟩ := pushHistory_next i { s with instrBuffer := rest }
      obtain ⟨hleft, hdone⟩ := ih ({ s with instrBuffer := rest }.pushHistory i)
      rw [hrest] at hleft hdone
      refine ⟨by simpa using hleft, fun hlen => ?_⟩
      obtain ⟨hnil, hsum⟩ := hdone (by simpa using hlen)
      refine ⟨hnil, hsum.trans ?_⟩
      rw [hnext, length_cons]
      dsimp only
      omega

/-! ### Targets out of reach -/

theorem softSeekLocal_found_iff : (softSeekLocal want s).1 = true ↔ InReach want s := by
  unfold softSeekLocal InReach
  split_ifs with hwin hnext hgt
  · exact iff_of_true rfl (.inl hwin)
  · exact iff_of_true rfl (.inr ⟨hnext.ge, by omega⟩)
  · have hleft := (dropAhead_next (want - s.logicalNext) s).1
    simp only [hwin, false_or, beq_iff_eq, hleft]
    omega
  · simp only [hwin, false_or, false_iff]
    omega

theorem not_inReach_softSeekLocal (hwant : want < 2 ^ 64) (h : ¬ InReach want s) :
    ¬ InReach want (softSeekLocal want s).2 := by
  unfold InReach at h
  rw [not_or] at h
  obtain ⟨hwin, hbuf⟩ := h
  unfold softSeekLocal
  rw [if_neg hwin, if_neg (by omega)]
  split_ifs with hgt
  · have hshort : s.instrBuffer.length < want - s.logicalNext := by omega
    obtain ⟨hnil, hsum⟩ := (dropAhead_next (want - s.logicalNext) s).2 hshort.le
    have hsame : s.instrBuffer = [] → (dropAhead (want - s.logicalNext) s).2 = s := by
      intro hempty
      obtain ⟨d, hd⟩ := Nat.exists_eq_succ_of_ne_zero (show want - s.logicalNext ≠ 0 by omega)
      rw [hd, dropAhead, hempty]
    have hnext : s.logicalNext = (s.historyStartIndex + s.historyWindow.length) % 2 ^ 64 := rfl
    generalize (dropAhead (want - s.logicalNext) s).2 = t at hnil hsum hsame
    -- the window ends before the target
    rintro (hin | ⟨-, hle⟩)
    · by_cases hempty : s.instrBuffer = []
      · rw [hsame hempty] at hin
        exact hwin hin
      · have hpos := length_pos_iff.2 hempty
        have hlen := length_pos_iff.2 hin.1
        have hle := hin.2.2
        unfold winEnd at hle
        omega
    · rw [hnil, length_nil] at hle
      unfold logicalNext at hle
      omega
  · rintro (hin | hin)
    · exact hwin hin
    · exact hbuf hin

theorem seek_eq_none (h : ¬ InReach ((instrIndex + 1) % 2 ^ 64) s) (fuel : ℕ) :
    seek .cbp2025 tr instrIndex fuel call s = none := by
  induction fuel generalizing s call with
  | zero => rfl
  | succ fuel ih =>
    cases call with
    | seekToInstruction => exact ih h
    | softSeekToInstruction =>
      have hmiss := not_inReach_softSeekLocal (Nat.mod_lt _ (Nat.two_pow_pos 64)) h
      rw [← softSeekLocal_found_iff, Bool.not_eq_true] at h
      rw [seek]
      rcases hlocal : softSeekLocal ((instrIndex + 1) % 2 ^ 64) s with ⟨found, t⟩
      rw [hlocal] at h hmiss
      subst h
      dsimp only
      rw [ih hmiss]

/-! ### Seeks that return -/

theorem fastForwardIn_eq {target rounds : ℕ} (h : target ≤ s.instructionIndex + rounds) :
    fastForwardIn tr target (rounds + 1) s = some (fastForward tr target rounds s) := by
  induction rounds generalizing s with
  | zero =>
    unfold fastForwardIn fastForward
    rw [if_neg (by omega)]
  | succ rounds ih =>
    rw [fastForwardIn, fastForward]
    split_ifs with hgo
    · unfold parseInstruction
      rw [if_neg (by simp [hgo.2])]
      cases tr.records[s.streamPos]? with
      | none => rfl
      | some r => exact ih (by dsimp only; omega)
    · rfl

theorem returns_champSim : Returns .champSim tr instrIndex call s := by
  have hhard (t : TraceReader) :
      (seek .champSim tr instrIndex (instrIndex + 2) .seekToInstruction t).isSome := by
    rw [seek]
    split_ifs with hzero
    · rfl
    · rw [fastForwardIn_eq (Nat.le_add_left _ _)]
      rfl
  cases call with
  | seekToInstruction => exact ⟨instrIndex + 2, hhard s⟩
  | softSeekToInstruction =>
    refine ⟨instrIndex + 3, ?_⟩
    rw [seek]
    rcases softSeekLocal ((instrIndex + 1) % 2 ^ 64) s with ⟨found, t⟩
    cases found with
    | true => rfl
    | false =>
      obtain ⟨⟨ok, u⟩, hu⟩ := Option.isSome_iff_exists.1 (hhard t)
      dsimp only
      rw [hu]
      cases ok <;> rfl

/-- **Which seeks return.** -/
theorem seek_returns_iff (format : TraceFormat) (tr : ChampSimTrace) (instrIndex : ℕ)
    (call : SeekCall) (s : TraceReader) :
    Returns format tr instrIndex call s ↔
      format = .champSim ∨ InReach ((instrIndex + 1) % 2 ^ 64) s := by
  cases format with
  | champSim => exact iff_of_true returns_champSim (Or.inl rfl)
  | cbp2025 =>
    constructor
    · rintro ⟨fuel, hfuel⟩
      refine Or.inr (by_contra fun h => ?_)
      rw [seek_eq_none h] at hfuel
      cases hfuel
    · rintro (h | h)
      · cases h
      have hsoft : (seek .cbp2025 tr instrIndex 1 .softSeekToInstruction s).isSome := by
        rw [← softSeekLocal_found_iff] at h
        rw [seek]
        rcases hlocal : softSeekLocal ((instrIndex + 1) % 2 ^ 64) s with ⟨found, t⟩
        rw [hlocal] at h
        subst h
        rfl
      cases call with
      | softSeekToInstruction => exact ⟨1, hsoft⟩
      | seekToInstruction => exact ⟨2, hsoft⟩

/-- A new reader holds nothing, so that the first record but one is out of its reach. -/
theorem cbp2025_never_returns :
    ¬ ∃ tr, Returns .cbp2025 tr 1 .softSeekToInstruction init := by
  rintro ⟨tr, fuel, hfuel⟩
  have hout : ¬ InReach ((1 + 1) % 2 ^ 64) init := by
    simp [InReach, InWindow, logicalNext, init]
  rw [seek_eq_none hout] at hfuel
  cases hfuel

end TraceReader
end Gem5
