import Gem5.Trace.Cursor

/-!
# Where a seek of the trace reader lands

`softSeekToInstruction` finds the record in the window, at its end, in the buffer or in the file.
`TraceReader.landing` says where it lands in each of these cases, which need not be the record that
was asked for:

* a seek to the end of the window or into the buffer does not stop a replay, which goes on;
* after a seek in the file, the window is numbered from one record too early, so that later seeks
  are off by one;
* after a seek behind the end of the file, the window is numbered from the first record.

Also, reading that begins in the middle does not correct the address of its first record.
-/

namespace Gem5
open ChampSimTrace

namespace ChampSimTrace
variable {tr : ChampSimTrace}

/-- A reading that began at record `b` has the right address for record `i`. -/
def SameAddress (tr : ChampSimTrace) (b i : ℕ) : Prop :=
  (tr.pend b i).pc = (tr.pend 0 i).pc

theorem SameAddress.pend_eq {b i : ℕ} (h : tr.SameAddress b i) : tr.pend b i = tr.pend 0 i := by
  obtain ⟨pc, hb⟩ := tr.pend_eq_raw b i
  obtain ⟨pc', h0⟩ := tr.pend_eq_raw 0 i
  unfold SameAddress at h
  rw [hb, h0] at h ⊢
  have hpc : pc = pc' := h
  rw [hpc]

theorem SameAddress.succ {b i : ℕ} (hb : b ≤ i) (h : tr.SameAddress b i) :
    tr.SameAddress b (i + 1) := by
  unfold SameAddress
  rw [pend_succ hb, pend_succ (Nat.zero_le i), h.pend_eq]

theorem SameAddress.mono {b i j : ℕ} (hb : b ≤ i) (h : tr.SameAddress b i) (hj : i ≤ j) :
    tr.SameAddress b j := by
  induction j, hj using Nat.le_induction with
  | base => exact h
  | succ j hj ih => exact ih.succ (hb.trans hj)

/-- No address has to be corrected: a record with an odd address is the first one, or comes after a
branch. -/
def Uncorrected (tr : ChampSimTrace) : Prop :=
  ∀ i, (tr.raw i).isAnyBranch = true ∨ ((tr.raw (i + 1)).pc &&& 1) = 0

theorem Uncorrected.pend_eq (h : tr.Uncorrected) (b i : ℕ) : tr.pend b i = tr.raw i := by
  cases i with
  | zero => rfl
  | succ i =>
    unfold pend
    split_ifs with hb
    · rfl
    · obtain ⟨pc, hpc⟩ := tr.pend_eq_raw b i
      have hbranch : (tr.pend b i).isAnyBranch = (tr.raw i).isAnyBranch := by
        rw [hpc]
        rfl
      rw [TraceInstruction.correctNext, hbranch, if_neg]
      rcases h i with hi | hi <;> simp [hi]

theorem Uncorrected.sameAddress (h : tr.Uncorrected) (b i : ℕ) : tr.SameAddress b i := by
  rw [SameAddress, h.pend_eq, h.pend_eq]

theorem reading_pc {b i : ℕ} (hi : i < tr.size) : (tr.reading b i).pc = (tr.pend b i).pc := by
  unfold reading
  split_ifs with h1 h2
  · exact (TraceInstruction.resolve_same _ _).1
  · rfl
  · omega

theorem reading_eq_plain_iff {b i : ℕ} (hb : b ≤ i) :
    (∀ j, i ≤ j → tr.reading b j = tr.plain j) ↔ tr.size ≤ i ∨ tr.SameAddress b i := by
  constructor
  · intro h
    refine or_iff_not_imp_left.2 fun hi => ?_
    have hpc := congrArg TraceInstruction.pc (h i le_rfl)
    unfold plain at hpc
    rwa [reading_pc (by omega), reading_pc (by omega)] at hpc
  · rintro (hi | hsame) j hj
    · rw [reading_of_size_le (hi.trans hj), plain, reading_of_size_le (hi.trans hj)]
    · have hj' := hsame.mono hb hj
      have hj'' := hj'.succ (hb.trans hj)
      unfold plain reading
      rw [hj'.pend_eq, hj''.pend_eq]

theorem eq_of_reading_eq {b b' i j : ℕ} (h : tr.reading b i = tr.reading b' j) (hj : j < tr.size) :
    i = j := by
  have hi : i < tr.size := by
    rw [← reading_valid (b := b), h, reading_valid]
    exact hj
  rw [← reading_seqNum (b := b) hi, h, reading_seqNum hj]

end ChampSimTrace

namespace TraceReader
variable {tr : ChampSimTrace} {b : ℕ} {s t : TraceReader}

/-! ### In the file -/

def atRecord (i : ℕ) : TraceReader :=
  { init with streamPos := i, currentSeqNum := i, instructionIndex := i }

theorem ready_atRecord {i : ℕ} (hi : i ≤ tr.size) : Ready tr i (atRecord i) where
  streamPos := rfl
  seqNum := rfl
  le_size := hi
  eof h := by cases h
  pending h := by cases h
  fresh _ _ := rfl
  first := le_rfl
  held := rfl
  window_le := Nat.zero_le _
  settled h := by cases h
  room := show 0 < 3 * (maxBufferSize / 4) by decide

theorem fastForward_atRecord {target rounds i : ℕ} (hi : i ≤ tr.size)
    (htarget : i + rounds = target) : fastForward tr target rounds (atRecord i) =
      if target ≤ tr.size then (true, atRecord target)
      else (false, { atRecord tr.size with eofReached := true }) := by
  induction rounds generalizing i with
  | zero =>
    obtain rfl : i = target := by omega
    rw [if_pos hi]
    show (i == i, atRecord i) = _
    rw [beq_self_eq_true]
  | succ rounds ih =>
    unfold fastForward
    rw [if_pos ⟨show i < target by omega, rfl⟩]
    have hholds := (ready_atRecord hi).toHolds
    rcases Nat.lt_or_ge i tr.size with hlt | hge
    · rw [hholds.parse_lt rfl hlt]
      exact ih (i := i + 1) hlt (by omega)
    · obtain rfl : i = tr.size := by omega
      rw [hholds.parse_end rfl rfl, if_neg (by omega)]

section
variable (tr : ChampSimTrace) (instrIndex : ℕ)

theorem hardSeek_eq : hardSeek tr instrIndex =
      if instrIndex ≤ tr.size then
        (true, { atRecord instrIndex with historyStartIndex := instrIndex })
      else (false, { atRecord tr.size with eofReached := true }) := by
  unfold hardSeek seekToInstruction
  cases instrIndex with
  | zero => rfl
  | succ k =>
    have h : fastForward tr (k + 1) (k + 1) init = _ :=
      fastForward_atRecord (Nat.zero_le tr.size) (Nat.zero_add (k + 1))
    by_cases hle : k + 1 ≤ tr.size
    · rw [if_pos hle] at h ⊢
      rw [h]
      rfl
    · rw [if_neg hle] at h ⊢
      rw [h]
      rfl

theorem ready_hardSeek : Ready tr (min instrIndex tr.size) (hardSeek tr instrIndex).2 ∧
      (hardSeek tr instrIndex).2.position = min instrIndex tr.size := by
  rw [hardSeek_eq]
  split_ifs with hle
  · rw [min_eq_left hle]
    refine ⟨?_, rfl⟩
    have h := ready_atRecord hle
    exact ⟨{ h with }, h.settled, h.room⟩
  · rw [min_eq_right (by omega)]
    refine ⟨?_, rfl⟩
    have h := ready_atRecord (le_refl tr.size)
    exact ⟨{ h with eof := fun _ => rfl, fresh := fun _ h => by cases h }, fun _ => rfl, h.room⟩
end

/-! ### In the buffer -/

theorem Ready.dropAhead {drop : ℕ} (hs : Ready tr b s) :
    (drop ≤ s.instrBuffer.length → ∃ t, s.dropAhead drop = (0, t) ∧ Ready tr b t ∧ Moved drop s t) ∧
      (s.instrBuffer.length < drop → (s.dropAhead drop).1 ≠ 0) := by
  induction drop generalizing s with
  | zero => exact ⟨fun _ => ⟨s, rfl, hs, hs.moved_zero⟩, fun h => absurd h (Nat.not_lt_zero _)⟩
  | succ drop ih =>
    unfold TraceReader.dropAhead
    cases hbuf : s.instrBuffer with
    | nil => exact ⟨fun h => absurd h (Nat.not_succ_le_zero _), fun _ => Nat.succ_ne_zero drop⟩
    | cons i rest =>
      obtain ⟨-, hready, hmoved⟩ := hs.pushHistory hbuf
      obtain ⟨henough, hshort⟩ := ih hready
      have hrest : ({ s with instrBuffer := rest }.pushHistory i).instrBuffer = rest := by
        unfold TraceReader.pushHistory
        dsimp only
        split_ifs <;> rfl
      rw [hrest] at henough hshort
      refine ⟨fun h => ?_, fun h => hshort (Nat.lt_of_succ_lt_succ h)⟩
      obtain ⟨t, ht, htready, htmoved⟩ := henough (Nat.le_of_succ_le_succ h)
      refine ⟨t, ht, htready, ?_⟩
      rw [Nat.add_comm]
      exact hmoved.trans htmoved

/-! ### Where a seek lands -/

def landing (tr : ChampSimTrace) (instrIndex : ℕ) (s : TraceReader) : ℕ :=
  let want := instrIndex + 1
  let logicalNext := s.historyStartIndex + s.historyWindow.length
  if s.historyStartIndex ≤ want ∧ want < logicalNext then
    s.firstRecord + (want - s.historyStartIndex)
  else if s.seeksFile instrIndex then min instrIndex tr.size
  -- the seek is done, but a replay goes on if it is still in the window
  else if s.replayActive = true ∧ max s.historyStartIndex (want - historyCapacity) ≤ s.replayIndex ∧
      s.replayIndex < want then
    s.firstRecord + (s.replayIndex - s.historyStartIndex)
  else s.nextRecord + (want - logicalNext)

def baseAfter (tr : ChampSimTrace) (instrIndex b : ℕ) (s : TraceReader) : ℕ :=
  if s.seeksFile instrIndex then min instrIndex tr.size else b

theorem Moved.position {want : ℕ} (hge : s.historyStartIndex + s.historyWindow.length ≤ want)
    (h : Moved (want - (s.historyStartIndex + s.historyWindow.length)) s t) : t.position =
      if s.replayActive = true ∧ max s.historyStartIndex (want - historyCapacity) ≤ s.replayIndex ∧
          s.replayIndex < want then
        s.firstRecord + (s.replayIndex - s.historyStartIndex)
      else s.nextRecord + (want - (s.historyStartIndex + s.historyWindow.length)) := by
  have hlog := h.logicalNext
  have hstart := h.historyStartIndex
  have hfirst := h.firstRecord
  have hwant : s.historyStartIndex + s.historyWindow.length +
      (want - (s.historyStartIndex + s.historyWindow.length)) = want := by omega
  rw [hwant] at hlog hstart
  have hiff : t.Replaying ↔ s.replayActive = true ∧
      max s.historyStartIndex (want - historyCapacity) ≤ s.replayIndex ∧ s.replayIndex < want := by
    unfold Replaying
    rw [h.replayActive, h.replayIndex, hlog, hstart]
  unfold TraceReader.position
  rw [h.nextRecord, h.replayIndex]
  by_cases hre : t.Replaying
  · rw [if_pos hre, if_pos (hiff.1 hre)]
    have := (hiff.1 hre).2.1
    omega
  · rw [if_neg hre, if_neg (mt hiff.2 hre)]

theorem Ready.softSeekToInstruction (hs : Ready tr b s) (instrIndex : ℕ) :
    Ready tr (baseAfter tr instrIndex b s) (s.softSeekToInstruction tr instrIndex).2 ∧
      (s.softSeekToInstruction tr instrIndex).2.position = landing tr instrIndex s ∧
      (instrIndex ≤ tr.size → (s.softSeekToInstruction tr instrIndex).1 = true) := by
  have hfile : s.seeksFile instrIndex = true ↔ instrIndex + 1 < s.historyStartIndex ∨
      s.historyStartIndex + s.historyWindow.length + s.instrBuffer.length < instrIndex + 1 := by
    simp [seeksFile]
  have hhard : instrIndex ≤ tr.size → (hardSeek tr instrIndex).1 = true := by
    intro hle
    rw [hardSeek_eq, if_pos hle]
  unfold TraceReader.softSeekToInstruction landing baseAfter
  by_cases hwin : s.historyStartIndex ≤ instrIndex + 1 ∧
      instrIndex + 1 < s.historyStartIndex + s.historyWindow.length
  · -- a replay begins
    rw [if_pos hwin, if_pos hwin, if_neg (by rw [hfile]; omega)]
    refine ⟨⟨{ hs with }, hs.settled, hs.room⟩, ?_, fun _ => rfl⟩
    exact if_pos ⟨rfl, hwin⟩
  rw [if_neg hwin, if_neg hwin]
  by_cases hsf : s.seeksFile instrIndex = true
  · rw [if_pos hsf, if_pos hsf]
    have hsoft : (if instrIndex + 1 = s.historyStartIndex + s.historyWindow.length then (true, s)
        else if instrIndex + 1 > s.historyStartIndex + s.historyWindow.length then
          if (s.dropAhead
              (instrIndex + 1 - (s.historyStartIndex + s.historyWindow.length))).1 = 0 then
            (true, (s.dropAhead
              (instrIndex + 1 - (s.historyStartIndex + s.historyWindow.length))).2)
          else hardSeek tr instrIndex
        else hardSeek tr instrIndex) = hardSeek tr instrIndex := by
      rw [hfile] at hsf
      rw [if_neg (by omega)]
      split_ifs with hgt hdrop
      · exact absurd hdrop (hs.dropAhead.2 (by omega))
      · rfl
      · rfl
    rw [hsoft]
    obtain ⟨hready, hpos⟩ := ready_hardSeek tr instrIndex
    exact ⟨hready, hpos, hhard⟩
  · rw [if_neg hsf, if_neg hsf]
    rw [hfile] at hsf
    have hge : s.historyStartIndex + s.historyWindow.length ≤ instrIndex + 1 := by omega
    by_cases heq : instrIndex + 1 = s.historyStartIndex + s.historyWindow.length
    · rw [if_pos heq]
      refine ⟨hs, ?_, fun _ => rfl⟩
      refine Moved.position hge ?_
      rw [heq, Nat.sub_self]
      exact hs.moved_zero
    · rw [if_neg heq, if_pos (by omega)]
      obtain ⟨t, ht, hready, hmoved⟩ := hs.dropAhead.1
        (show instrIndex + 1 - (s.historyStartIndex + s.historyWindow.length) ≤ _ by omega)
      rw [ht]
      exact ⟨hready, hmoved.position hge, fun _ => rfl⟩

def Aligned (s : TraceReader) : Prop :=
  s.historyStartIndex = s.firstRecord + 1

theorem Moved.aligned {k : ℕ} (h : Moved k s t) (hs : s.Aligned) : t.Aligned := by
  have hfirst := h.firstRecord
  have hstart := h.historyStartIndex
  unfold Aligned at hs ⊢
  omega

theorem landing_of_aligned {instrIndex : ℕ} (halign : s.Aligned) (hoff : s.replayActive = false)
    (hN : instrIndex ≤ tr.size) : landing tr instrIndex s = instrIndex := by
  unfold Aligned at halign
  unfold landing nextRecord
  dsimp only
  split_ifs with hwin hfile hre
  · omega
  · exact min_eq_left hN
  · rw [hoff] at hre
    exact absurd hre.1 Bool.false_ne_true
  · simp only [seeksFile, decide_eq_true_eq] at hfile
    omega

/-- What a seek needs of the window and of the replay.  A seek in the file always succeeds.  A
record in the window, or behind it if no replay goes on, is found by its number, so the first number
must be that of the first record; if a replay goes on behind the seek, it must be just there. -/
def Finds (s : TraceReader) (instrIndex : ℕ) : Prop :=
  let logicalNext := s.historyStartIndex + s.historyWindow.length
  s.seeksFile instrIndex = true ∨
    if instrIndex + 1 < logicalNext ∨ s.replayActive = false ∨
        s.replayIndex < max s.historyStartIndex (instrIndex + 1 - historyCapacity) ∨
        instrIndex + 1 ≤ s.replayIndex then s.Aligned
    else s.replayIndex = s.historyStartIndex + (instrIndex - s.firstRecord) ∧
      s.firstRecord ≤ instrIndex

theorem landing_eq_iff {instrIndex : ℕ} (hN : instrIndex ≤ tr.size) :
    landing tr instrIndex s = instrIndex ↔ s.Finds instrIndex := by
  unfold landing Finds Aligned nextRecord
  dsimp only
  by_cases hfile : s.seeksFile instrIndex = true
  · simp only [hfile, if_true, true_or, iff_true]
    simp only [seeksFile, decide_eq_true_eq] at hfile
    rw [if_neg (by omega), min_eq_left hN]
  · simp only [hfile, if_false, false_or, Bool.false_eq_true]
    simp only [seeksFile, decide_eq_true_eq] at hfile
    cases s.replayActive <;> simp only [Bool.false_eq_true, true_and, false_and, if_false, if_true,
      true_or, or_true, false_or, Bool.true_eq_false] <;> split_ifs <;> omega

end TraceReader

open TraceReader
variable {tr : ChampSimTrace} {b : ℕ} {s : TraceReader}

theorem ReaderReachable.ready (h : ReaderReachable tr b s) : Ready tr b s := by
  induction h with
  | init => exact ready_init
  | next _ hget ih =>
    obtain ⟨t, ht, hready, -⟩ := ih.getNextInstruction
    rw [ht] at hget
    cases hget
    exact hready
  | seek instrIndex _ ih => exact (ih.softSeekToInstruction instrIndex).1

/-! ### Faithful cursors -/

/-- The reader delivers the instructions of the plain reading, from record `p` on. -/
def CursorAt (tr : ChampSimTrace) (p : ℕ) (s : TraceReader) : Prop :=
  ∀ m, s.deliveries tr m = .ok ((List.range' p m).map tr.plain)

/-- The reader is a faithful cursor: it delivers the instructions of the plain reading in their
order, the last one of them is marked, and a seek succeeds and leads to the record behind the
number. -/
structure FaithfulCursor (tr : ChampSimTrace) (instrIndex : ℕ) (s : TraceReader) : Prop where
  inOrder : ∃ p, CursorAt tr p s
  last (i : ℕ) : (tr.plain i).lastInTrace = true ↔ i + 1 = tr.size
  seek : ∃ t, s.softSeekToInstruction tr instrIndex = (true, t) ∧ CursorAt tr instrIndex t

theorem TraceReader.Ready.cursorAt_iff (hs : Ready tr b s) {p : ℕ} :
    CursorAt tr p s ↔ ∀ j, tr.reading b (s.position + j) = tr.plain (p + j) := by
  constructor
  · intro h j
    have hj := h (j + 1)
    rw [hs.deliveries] at hj
    have hget := congrArg (fun l : List TraceInstruction => l[j]?) (Except.ok.inj hj)
    simpa [stretch] using hget
  · intro h m
    rw [hs.deliveries]
    refine congrArg Except.ok (List.ext_getElem? fun j => ?_)
    rcases Nat.lt_or_ge j m with hj | hj
    · simpa [stretch, hj] using h j
    · simp [stretch, hj]

theorem TraceReader.Holds.base_le_position (hs : Holds tr b s) : b ≤ s.position := by
  have hfirst := hs.first
  have hb : b ≤ s.firstRecord := by
    unfold firstRecord
    omega
  unfold position nextRecord
  split_ifs <;> omega

theorem TraceReader.Ready.cursorAt_position_iff (hs : Ready tr b s) :
    CursorAt tr s.position s ↔ tr.size ≤ s.position ∨ tr.SameAddress b s.position := by
  rw [hs.cursorAt_iff, ← reading_eq_plain_iff hs.base_le_position]
  constructor
  · intro h j hj
    obtain ⟨k, rfl⟩ := Nat.exists_eq_add_of_le hj
    exact h k
  · intro h j
    exact h _ (Nat.le_add_right _ _)

theorem TraceReader.Ready.cursorAt_iff_of_lt (hs : Ready tr b s) {p : ℕ} (hp : p < tr.size) :
    CursorAt tr p s ↔ s.position = p ∧ tr.SameAddress b p := by
  constructor
  · intro h
    have hpos : s.position = p :=
      eq_of_reading_eq ((hs.cursorAt_iff.1 h) 0) hp
    subst hpos
    exact ⟨rfl, (hs.cursorAt_position_iff.1 h).resolve_left (by omega)⟩
  · rintro ⟨rfl, hsame⟩
    exact hs.cursorAt_position_iff.2 (.inr hsame)

theorem TraceReader.Ready.exists_cursorAt_iff (hs : Ready tr b s) :
    (∃ p, CursorAt tr p s) ↔ tr.size ≤ s.position ∨ tr.SameAddress b s.position := by
  constructor
  · rintro ⟨p, hp⟩
    rcases Nat.lt_or_ge p tr.size with hlt | hge
    · obtain ⟨rfl, hsame⟩ := (hs.cursorAt_iff_of_lt hlt).1 hp
      exact .inr hsame
    · -- nothing is delivered any more
      left
      have h := hs.cursorAt_iff.1 hp 0
      rw [plain, reading_of_size_le (i := p + 0) hge] at h
      by_contra hlt
      have hvalid : (tr.reading b (s.position + 0)).valid = true :=
        reading_valid.2 (by omega)
      rw [h] at hvalid
      cases hvalid
  · intro h
    exact ⟨_, hs.cursorAt_position_iff.2 h⟩

theorem not_faithfulCursor {instrIndex : ℕ} {t : TraceReader} {i : TraceInstruction}
    (hseek : s.softSeekToInstruction tr instrIndex = (true, t))
    (hnext : t.deliveries tr 1 = .ok [i]) (hi : i ≠ tr.plain instrIndex) :
    ¬FaithfulCursor tr instrIndex s := by
  rintro ⟨-, -, u, hu, hat⟩
  rw [hseek] at hu
  obtain ⟨-, rfl⟩ := Prod.mk.inj hu
  have h := hat 1
  rw [hnext] at h
  exact hi (List.cons.inj (Except.ok.inj h)).1

theorem pageBytes_ne : pageBytes ≠ 0 := by
  decide

def onePage : AddrMapConfig where
  base := 0
  size := pageBytes
  mode := .linear
  pageAlign := false
  size_ne := pageBytes_ne
  page_le _ h := absurd h Bool.false_ne_true

def nopRecord (ip : UInt64) : ChampSimInstr where
  ip := ip
  isBranch := 0
  branchTaken := 0
  destinationRegisters _ := 0
  sourceRegisters _ := 0
  destinationMemory _ := 0
  sourceMemory _ := 0

def threeRecords : ChampSimTrace where
  cfg := onePage
  records := [nopRecord 16, nopRecord 20, nopRecord 25]

def evenRecords : ChampSimTrace where
  cfg := onePage
  records := [nopRecord 16, nopRecord 20, nopRecord 24]

theorem evenRecords_uncorrected : evenRecords.Uncorrected := by
  intro i
  right
  rcases i with _ | _ | i
  · decide
  · decide
  · simp [raw, evenRecords, TraceInstruction.invalid]

end Gem5
