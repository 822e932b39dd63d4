import Gem5.Arch.Reg
import Gem5.Lib.Count

/-!
# Branch histories

The decoupled predictor keeps three shift registers per thread: the global history, the backward
history and the path history.  A prediction shifts the outcomes of the branches of a block into
them; a squash takes them back to what they were before its block and shifts in what was executed.

The registers have `N` bits, the newest one is bit zero.
-/

namespace Gem5
open List

structure BranchInfo where
  pc : Addr
  target : Addr
  isCond : Bool
  isIndirect : Bool
  isCall : Bool
  isReturn : Bool
  size : BitVec 8

def BranchInfo.none : BranchInfo :=
  ⟨0, 0, false, false, false, false, 0⟩

def BranchInfo.getEnd (bi : BranchInfo) : Addr :=
  bi.pc + bi.size.setWidth 64

structure BTBEntry extends BranchInfo where
  valid : Bool

structure FullBTBPrediction where
  bbStart : Addr
  btbEntries : List BTBEntry
  condTakens : List (Addr × Bool)
  indirectTargets : List (Addr × Addr)
  returnTarget : Addr

namespace FullBTBPrediction

/-- `CondTakens_find`, and the direction that is found. -/
def condTaken (pred : FullBTBPrediction) (pc : Addr) : Bool :=
  match pred.condTakens.find? (·.1 == pc) with
  | some p => p.2
  | none => false

/-- An entry that ends the block: a conditional branch that is predicted taken, or another
branch. -/
def takes (pred : FullBTBPrediction) (e : BTBEntry) : Bool :=
  e.valid && (!e.isCond || pred.condTaken e.pc)

/-- `getTakenEntry`; the empty entry is `none`. -/
def getTakenEntry (pred : FullBTBPrediction) : Option BTBEntry :=
  pred.btbEntries.find? pred.takes

def getEntryTarget (pred : FullBTBPrediction) (e : BTBEntry) : Addr :=
  if e.isIndirect then
    if !e.isReturn then
      match pred.indirectTargets.find? (·.1 == e.pc) with
      | some p => p.2
      | none => e.target
    else pred.returnTarget
  else e.target

/-- The loop of `getHistInfo` and `getBwHistInfo`; `bit` is what a taken conditional branch
shifts in. -/
def histInfoFrom (pred : FullBTBPrediction) (bit : BTBEntry → Bool) :
    List BTBEntry → ℕ → ℕ × Bool
  | [], shamt => (shamt, false)
  | e :: rest, shamt =>
    if e.valid then
      if e.isCond then
        if pred.condTaken e.pc then (shamt + 1, bit e) else pred.histInfoFrom bit rest (shamt + 1)
      else (shamt, false)
    else pred.histInfoFrom bit rest shamt

def getHistInfo (pred : FullBTBPrediction) : ℕ × Bool :=
  pred.histInfoFrom (fun _ => true) pred.btbEntries 0

def getBwHistInfo (pred : FullBTBPrediction) : ℕ × Bool :=
  pred.histInfoFrom (fun e => decide (e.target < e.pc)) pred.btbEntries 0

def getPHistInfo (pred : FullBTBPrediction) : Addr × Addr × Bool :=
  match pred.getTakenEntry with
  | some e => (e.pc, pred.getEntryTarget e, true)
  | none => (0, 0, false)

end FullBTBPrediction

open FullBTBPrediction

structure Histories (N : ℕ) where
  global : BitVec N
  path : BitVec N
  backward : BitVec N
  deriving DecidableEq

/-- What the queue keeps of a block: where it starts, the entries that were predicted in it, and the
registers before it. -/
structure FetchTarget (N : ℕ) where
  startPC : Addr
  predBTBEntries : List BTBEntry
  histories : Histories N

namespace FetchTarget
variable {N : ℕ}

def before (t : FetchTarget N) (squashPC : Addr) : ℕ :=
  t.predBTBEntries.countP fun e =>
    e.valid && decide (t.startPC ≤ e.pc) && decide (e.pc < squashPC)

def getHistInfoDuringSquash (t : FetchTarget N) (squashPC : Addr) (isCond actuallyTaken : Bool) :
    ℕ × Bool :=
  if isCond then (t.before squashPC + 1, actuallyTaken) else (t.before squashPC, false)

def getBwHistInfoDuringSquash (t : FetchTarget N) (squashPC : Addr) (isCond actuallyTaken : Bool)
    (target : Addr) : ℕ × Bool :=
  if isCond then (t.before squashPC + 1, actuallyTaken && decide (target < squashPC))
  else (t.before squashPC, false)

end FetchTarget

open FetchTarget

/-! ### Shifts -/

section
variable {N : ℕ}

def histShiftIn (shamt : ℕ) (taken : Bool) (history : BitVec N) : BitVec N :=
  if shamt = 0 then history
  else history <<< shamt ||| BitVec.ofNat N taken.toNat

def pathHashLength : ℕ := 15

def pathHash (branchPC targetPC : Addr) : Addr :=
  ((((branchPC >>> 1) &&& (((1 : Addr) <<< 9) - 1)) <<< 4) ^^^
    ((targetPC >>> 2) &&& (((1 : Addr) <<< 15) - 1))) &&& (((1 : Addr) <<< pathHashLength) - 1)

def hashBits (N : ℕ) (pc target : Addr) : BitVec N :=
  ((pathHash pc target).setWidth pathHashLength).setWidth N

def pHistShiftIn (shamt : ℕ) (taken : Bool) (history : BitVec N) (pc target : Addr) : BitVec N :=
  if shamt = 0 then history
  else if taken then (history <<< shamt) ^^^ hashBits N pc target
  else history

theorem getLsbD_histShiftIn {shamt : ℕ} (hpos : shamt ≠ 0) (taken : Bool) (h : BitVec N) {i : ℕ}
    (hi : i < N) : (histShiftIn shamt taken h).getLsbD i =
      if i = 0 then taken else decide (shamt ≤ i) && h.getLsbD (i - shamt) := by
  rw [histShiftIn, if_neg hpos, BitVec.getLsbD_or, BitVec.getLsbD_shiftLeft, BitVec.getLsbD_ofNat,
    decide_eq_true hi, Bool.true_and, Bool.true_and]
  by_cases hzero : i = 0
  · subst hzero
    have hlt : 0 < shamt := Nat.pos_of_ne_zero hpos
    rw [decide_eq_true hlt, Bool.not_true, Bool.false_and, Bool.false_or]
    cases taken <;> rfl
  · rw [if_neg hzero]
    have hbit : taken.toNat.testBit i = false := by
      cases taken with
      | false => exact Nat.zero_testBit i
      | true => exact Nat.testBit_one_eq_true_iff_self_eq_zero.not.mpr hzero |> eq_false_of_ne_true
    rw [hbit, Bool.or_false]
    by_cases hle : shamt ≤ i
    · rw [decide_eq_true hle, decide_eq_false (Nat.not_lt.mpr hle), Bool.not_false]
    · rw [decide_eq_false hle, decide_eq_true (Nat.lt_of_not_le hle), Bool.not_true]

theorem histShiftIn_ne {m n : ℕ} (hlt : m < n) (hN : m < N) (taken : Bool) :
    ∃ h : BitVec N, histShiftIn m taken h ≠ histShiftIn n taken h := by
  by_cases hzero : m = 0
  · subst hzero
    refine ⟨BitVec.ofNat N (!taken).toNat, fun heq => ?_⟩
    have hbit := congrArg (fun h => BitVec.getLsbD h 0) heq
    simp only [getLsbD_histShiftIn hlt.ne' taken _ hN] at hbit
    rw [histShiftIn, if_pos rfl, BitVec.getLsbD_ofNat, decide_eq_true hN, Bool.true_and] at hbit
    cases taken <;> simp at hbit
  · refine ⟨BitVec.ofNat N 1, fun heq => ?_⟩
    have hbit := congrArg (fun h => BitVec.getLsbD h m) heq
    simp only [getLsbD_histShiftIn hzero taken _ hN,
      getLsbD_histShiftIn (Nat.ne_zero_of_lt hlt) taken _ hN, if_neg hzero,
      decide_eq_false (Nat.not_le.mpr hlt), Nat.sub_self, BitVec.getLsbD_ofNat,
      decide_eq_true (Nat.zero_lt_of_lt hN)] at hbit
    simp at hbit

theorem histShiftIn_eq_iff (m n : ℕ) (taken : Bool) :
    (∀ h : BitVec N, histShiftIn m taken h = histShiftIn n taken h) ↔ min m N = min n N := by
  constructor
  · intro heq
    rcases Nat.lt_trichotomy m n with hlt | rfl | hgt
    · by_contra hne
      obtain ⟨h, hh⟩ := histShiftIn_ne (N := N) hlt (by omega) taken
      exact hh (heq h)
    · rfl
    · by_contra hne
      obtain ⟨h, hh⟩ := histShiftIn_ne (N := N) hgt (by omega) taken
      exact hh (heq h).symm
  · intro hmin h
    by_cases hmn : m = n
    · rw [hmn]
    · -- both push the whole history out
      apply BitVec.eq_of_getLsbD_eq
      intro i hi
      rw [getLsbD_histShiftIn (by omega) taken h hi, getLsbD_histShiftIn (by omega) taken h hi,
        decide_eq_false (by omega : ¬ m ≤ i), decide_eq_false (by omega : ¬ n ≤ i)]
      simp

theorem pHistShiftIn_eq_self_iff (pc target : Addr) :
    (∀ h : BitVec N, pHistShiftIn 2 true h pc target = h) ↔ N = 0 := by
  constructor
  · intro heq
    by_contra hN
    have hpos : 0 < N := Nat.pos_of_ne_zero hN
    -- bit zero is that of the hash, whatever the history was
    have hbit (h : BitVec N) : h.getLsbD 0 = (hashBits N pc target).getLsbD 0 := by
      have := congrArg (fun h => BitVec.getLsbD h 0) (heq h)
      simp only [pHistShiftIn, if_neg (Nat.succ_ne_zero 1), if_true, BitVec.getLsbD_xor,
        BitVec.getLsbD_shiftLeft, Nat.zero_lt_two, decide_true, Bool.not_true, Bool.and_false,
        Bool.false_and, Bool.false_xor] at this
      exact this.symm
    have hzero := hbit 0
    have hone := hbit (BitVec.ofNat N 1)
    rw [← hzero, BitVec.getLsbD_ofNat, decide_eq_true hpos] at hone
    simp at hone
  · rintro rfl h
    exact (BitVec.eq_nil _).trans (BitVec.eq_nil _).symm
end

/-! ### Prediction and squash -/

section
variable {N : ℕ}

def updateHistoryForPrediction (h : Histories N) (pred : FullBTBPrediction) : Histories N where
  global := histShiftIn pred.getHistInfo.1 pred.getHistInfo.2 h.global
  path := pHistShiftIn 2 pred.getPHistInfo.2.2 h.path pred.getPHistInfo.1 pred.getPHistInfo.2.1
  backward := histShiftIn pred.getBwHistInfo.1 pred.getBwHistInfo.2 h.backward

def recoverHistoryForSquash (t : FetchTarget N) (squashPC : Addr) (isCond actuallyTaken : Bool)
    (redirectPC : Addr) : Histories N :=
  let real := t.getHistInfoDuringSquash squashPC isCond actuallyTaken
  let realBw := t.getBwHistInfoDuringSquash squashPC isCond actuallyTaken redirectPC
  { global := histShiftIn real.1 real.2 t.histories.global
    path := pHistShiftIn 2 real.2 t.histories.path squashPC redirectPC
    backward := histShiftIn realBw.1 realBw.2 t.histories.backward }
end

/-- The prediction of a block that ends as it was executed, with the branch `b` after `pre`: it is
the first taken entry with the target that it had, or it is conditional, not taken and the last
entry. -/
inductive BranchOutcome (pred : FullBTBPrediction) (pre : List BTBEntry) (b : BTBEntry)
    (post : List BTBEntry) : Bool → Addr → Prop
  | taken (hentries : pred.btbEntries = pre ++ b :: post)
      (hb : pred.takes b = true) :
      BranchOutcome pred pre b post true (pred.getEntryTarget b)
  | notTaken (hentries : pred.btbEntries = pre ++ [b]) (hcond : b.isCond = true)
      (hb : pred.takes b = false) (fallThrough : Addr) :
      BranchOutcome pred pre b post false fallThrough

namespace FullBTBPrediction
variable {pred : FullBTBPrediction} {pre : List BTBEntry}

theorem histInfoFrom_append (bit : BTBEntry → Bool) (rest : List BTBEntry) (shamt : ℕ)
    (hcond : ∀ e ∈ pre, e.valid = true → e.isCond = true) (hpre : ∀ e ∈ pre, pred.takes e = false) :
    pred.histInfoFrom bit (pre ++ rest) shamt =
      pred.histInfoFrom bit rest (shamt + pre.countP (·.valid)) := by
  induction pre generalizing shamt with
  | nil => rfl
  | cons e pre ih =>
    have hcond' := fun e' he' => hcond e' (mem_cons_of_mem e he')
    have hpre' := fun e' he' => hpre e' (mem_cons_of_mem e he')
    rw [cons_append, histInfoFrom, countP_cons]
    by_cases hv : e.valid = true
    · have hc := hcond e mem_cons_self hv
      have ht : pred.condTaken e.pc = false := by
        have := hpre e mem_cons_self
        rwa [takes, hv, hc, Bool.not_true, Bool.false_or, Bool.true_and] at this
      rw [if_pos hv, if_pos hc, ht, if_neg Bool.false_ne_true, ih _ hcond' hpre', if_pos hv]
      congr 1
      omega
    · rw [if_neg hv, ih _ hcond' hpre', if_neg hv]
      rfl

theorem getTakenEntry_append {b : BTBEntry} {post : List BTBEntry}
    (hentries : pred.btbEntries = pre ++ b :: post) (hpre : ∀ e ∈ pre, pred.takes e = false)
    (hb : pred.takes b = true) : pred.getTakenEntry = some b := by
  rw [getTakenEntry, hentries, find?_append, find?_eq_none.mpr (by simpa using hpre),
    Option.none_or, find?_cons_of_pos hb]

theorem getTakenEntry_none {b : BTBEntry} (hentries : pred.btbEntries = pre ++ [b])
    (hpre : ∀ e ∈ pre, pred.takes e = false) (hb : pred.takes b = false) :
    pred.getTakenEntry = none := by
  rw [getTakenEntry, hentries, find?_eq_none]
  intro e he
  rcases mem_append.mp he with hin | hlast
  · exact Bool.eq_false_iff.mp (hpre e hin)
  · rw [mem_singleton.mp hlast]
    exact Bool.eq_false_iff.mp hb

end FullBTBPrediction

section
variable {N : ℕ} {pred : FullBTBPrediction} {pre post : List BTBEntry} {b : BTBEntry}
  {taken : Bool} {redirect : Addr}

def predictedShift (pre : List BTBEntry) (b : BTBEntry) : ℕ :=
  pre.countP (·.valid) + b.isCond.toNat

def recoveredShift (startPC : Addr) (pre : List BTBEntry) (b : BTBEntry) : ℕ :=
  (pre.countP fun e => e.valid && decide (startPC ≤ e.pc) && decide (e.pc < b.pc)) +
    b.isCond.toNat

theorem histInfo_of_outcome (ho : BranchOutcome pred pre b post taken redirect)
    (hvalid : b.valid = true) (hcond : ∀ e ∈ pre, e.valid = true → e.isCond = true)
    (hpre : ∀ e ∈ pre, pred.takes e = false) (bit : BTBEntry → Bool) :
    pred.histInfoFrom bit pred.btbEntries 0 =
      (predictedShift pre b, b.isCond && taken && bit b) := by
  cases ho with
  | taken hentries hb =>
    rw [hentries, histInfoFrom_append bit _ 0 hcond hpre,
      histInfoFrom, if_pos hvalid, Nat.zero_add, predictedShift]
    cases hc : b.isCond with
    | true =>
      have ht : pred.condTaken b.pc = true := by
        rwa [takes, hvalid, hc, Bool.not_true, Bool.false_or, Bool.true_and] at hb
      rw [ht]
      simp
    | false => simp
  | notTaken hentries hc hb _ =>
    have ht : pred.condTaken b.pc = false := by
      rwa [takes, hvalid, hc, Bool.not_true, Bool.false_or, Bool.true_and] at hb
    rw [hentries, histInfoFrom_append bit _ 0 hcond hpre, histInfoFrom, if_pos hvalid, ht,
      histInfoFrom, predictedShift, hc]
    simp

theorem before_eq {t : FetchTarget N} (ht : t.predBTBEntries = pre ++ b :: post)
    (hsorted : (pre ++ b :: post).Pairwise (·.pc ≤ ·.pc)) :
    t.before b.pc + b.isCond.toNat = recoveredShift t.startPC pre b := by
  have hafter : (b :: post).countP (fun e => e.valid && decide (t.startPC ≤ e.pc) &&
      decide (e.pc < b.pc)) = 0 := by
    rw [countP_eq_zero]
    intro e he
    have hle : b.pc ≤ e.pc := by
      rcases mem_cons.mp he with rfl | hin
      · exact BitVec.le_refl _
      · exact (pairwise_cons.mp (pairwise_append.mp hsorted).2.1).1 e hin
    rw [decide_eq_false (BitVec.not_lt.mpr hle), Bool.and_false]
    exact Bool.false_ne_true
  rw [before, ht, countP_append, hafter, Nat.add_zero, recoveredShift]

theorem shift_eq_iff (startPC : Addr) (pre : List BTBEntry) (b : BTBEntry) :
    min (recoveredShift startPC pre b) N = min (predictedShift pre b) N ↔
      (∀ e ∈ pre, e.valid = true → startPC ≤ e.pc ∧ e.pc < b.pc) ∨
        N ≤ recoveredShift startPC pre b := by
  have himp (e : BTBEntry) : (e.valid && decide (startPC ≤ e.pc) && decide (e.pc < b.pc)) = true →
      e.valid = true := by
    simp only [Bool.and_eq_true, and_imp]
    exact fun h _ _ => h
  have hle : recoveredShift startPC pre b ≤ predictedShift pre b :=
    Nat.add_le_add_right (countP_mono_left fun e _ => himp e) _
  have hall : recoveredShift startPC pre b = predictedShift pre b ↔
      ∀ e ∈ pre, e.valid = true → startPC ≤ e.pc ∧ e.pc < b.pc := by
    rw [recoveredShift, predictedShift, Nat.add_right_cancel_iff]
    refine ⟨fun heq e he hv => ?_, fun h => countP_congr fun e he => ⟨himp e, fun hv => ?_⟩⟩
    · by_contra hout
      exact (countP_lt_countP himp he hv (by simpa [hv] using hout)).ne heq
    · simp [hv, h e he hv]
  rw [← hall]
  omega

/-- For every block with sorted entries and every branch of it behind conditional ones: the squash
with the outcome of the branch gives the same registers as the prediction with that outcome, from
whatever registers there were, exactly if the branch is conditional and the entries before it are
all counted, or the registers are too short to tell. -/
theorem recover_eq_update_iff (t : FetchTarget N) (ht : t.predBTBEntries = pre ++ b :: post)
    (hsorted : (pre ++ b :: post).Pairwise (·.pc ≤ ·.pc)) (hvalid : b.valid = true)
    (hcond : ∀ e ∈ pre, e.valid = true → e.isCond = true)
    (hdirect : b.isCond = true → b.isIndirect = false)
    (hpre : ∀ e ∈ pre, pred.takes e = false) (ho : BranchOutcome pred pre b post taken redirect) :
    (∀ h : Histories N, recoverHistoryForSquash { t with histories := h } b.pc b.isCond taken
        redirect = updateHistoryForPrediction h pred) ↔
      (b.isCond = true ∨ N = 0) ∧
        ((∀ e ∈ pre, e.valid = true → t.startPC ≤ e.pc ∧ e.pc < b.pc) ∨
          N ≤ recoveredShift t.startPC pre b) := by
  rw [← shift_eq_iff]
  have hglobal : pred.getHistInfo = (predictedShift pre b, b.isCond && taken) := by
    rw [getHistInfo, histInfo_of_outcome ho hvalid hcond hpre, Bool.and_true]
  have hbackward : pred.getBwHistInfo =
      (predictedShift pre b, b.isCond && taken && decide (b.target < b.pc)) :=
    histInfo_of_outcome ho hvalid hcond hpre _
  have hbefore (h : Histories N) : before { t with histories := h } b.pc +
      b.isCond.toNat = recoveredShift t.startPC pre b := before_eq ht hsorted
  have hreal (h : Histories N) : getHistInfoDuringSquash { t with histories := h } b.pc
      b.isCond taken = (recoveredShift t.startPC pre b, b.isCond && taken) := by
    rw [getHistInfoDuringSquash, ← hbefore h]
    cases b.isCond <;> rfl
  -- a conditional branch has the target that its entry has
  have hback : b.isCond = true → taken = true → redirect = b.target := by
    intro hc htaken
    cases ho with
    | taken hentries hb =>
      rw [getEntryTarget, hdirect hc, if_neg Bool.false_ne_true]
    | notTaken hentries _ hb _ => cases htaken
  have hrealBw (h : Histories N) : getBwHistInfoDuringSquash { t with histories := h }
      b.pc b.isCond taken redirect =
        (recoveredShift t.startPC pre b, b.isCond && taken && decide (b.target < b.pc)) := by
    rw [getBwHistInfoDuringSquash, ← hbefore h]
    cases hc : b.isCond with
    | false => rfl
    | true =>
      cases htaken : taken with
      | false => rfl
      | true =>
        rw [hback hc htaken]
        rfl
  -- the path history
  have hpath : pred.getPHistInfo.2.2 = taken ∧
      (taken = true → pred.getPHistInfo.1 = b.pc ∧ pred.getPHistInfo.2.1 = redirect) := by
    cases ho with
    | taken hentries hb =>
      rw [getPHistInfo,
        getTakenEntry_append hentries hpre hb]
      exact ⟨rfl, fun _ => ⟨rfl, rfl⟩⟩
    | notTaken hentries _ hb _ =>
      rw [getPHistInfo, getTakenEntry_none hentries hpre hb]
      exact ⟨rfl, fun h => by cases h⟩
  have hiff (h : Histories N) : recoverHistoryForSquash { t with histories := h } b.pc b.isCond
      taken redirect = updateHistoryForPrediction h pred ↔
        histShiftIn (recoveredShift t.startPC pre b) (b.isCond && taken) h.global =
            histShiftIn (predictedShift pre b) (b.isCond && taken) h.global ∧
          pHistShiftIn 2 (b.isCond && taken) h.path b.pc redirect =
            pHistShiftIn 2 taken h.path b.pc redirect ∧
          histShiftIn (recoveredShift t.startPC pre b)
              (b.isCond && taken && decide (b.target < b.pc)) h.backward =
            histShiftIn (predictedShift pre b)
              (b.isCond && taken && decide (b.target < b.pc)) h.backward := by
    rw [recoverHistoryForSquash, updateHistoryForPrediction, hreal, hrealBw, hglobal, hbackward,
      Histories.mk.injEq, hpath.1]
    cases htaken : taken with
    | false => simp [pHistShiftIn]
    | true =>
      rw [(hpath.2 htaken).1, (hpath.2 htaken).2]
  constructor
  · intro hall
    refine ⟨?_, ?_⟩
    · cases hc : b.isCond with
      | true => exact Or.inl rfl
      | false =>
        right
        have htaken : taken = true := by
          cases ho with
          | taken => rfl
          | notTaken _ hcond' => rw [hc] at hcond'; cases hcond'
        rw [← pHistShiftIn_eq_self_iff (N := N) b.pc redirect]
        intro h
        have := ((hiff ⟨0, h, 0⟩).mp (hall _)).2.1
        rw [hc, htaken, Bool.false_and] at this
        exact this.symm
    · rw [← histShiftIn_eq_iff (N := N) _ _ (b.isCond && taken)]
      intro h
      exact ((hiff ⟨h, 0, 0⟩).mp (hall _)).1
  · rintro ⟨hc, hshift⟩ h
    refine (hiff h).mpr ⟨(histShiftIn_eq_iff _ _ _).mpr hshift h.global, ?_,
      (histShiftIn_eq_iff _ _ _).mpr hshift h.backward⟩
    rcases hc with hc | hN
    · rw [hc, Bool.true_and]
    · subst hN
      exact (BitVec.eq_nil _).trans (BitVec.eq_nil _).symm
end

/-- A branch to `0x2000`. -/
def blockBranch (pc : Addr) (isCond : Bool) : BTBEntry :=
  ⟨⟨pc, 0x2000, isCond, false, false, false, 4⟩, true⟩

/-- The entries of a block: a conditional branch that is not taken, and another branch. -/
def blockEntries (isCond : Bool) : List BTBEntry :=
  [blockBranch 0x1000 true, blockBranch 0x1004 isCond]

/-- The block as fetch knows it. -/
def blockTarget (isCond : Bool) : FetchTarget 8 :=
  ⟨0x1000, blockEntries isCond, ⟨0, 0, 0⟩⟩

/-- The block with the second branch predicted taken. -/
def blockPrediction (isCond : Bool) : FullBTBPrediction :=
  ⟨0x1000, blockEntries isCond, [(0x1000, false), (0x1004, true)], [], 0⟩

/-- A conditional branch that is taken, behind one that is not. -/
theorem cond_recovered :
    recoverHistoryForSquash (blockTarget true) 0x1004 true true 0x2000 =
      updateHistoryForPrediction (blockTarget true).histories (blockPrediction true) :=
  (@recover_eq_update_iff 8 (blockPrediction true) [blockBranch 0x1000 true] []
    (blockBranch 0x1004 true) true 0x2000 (blockTarget true) rfl (by decide) rfl (by decide)
    (fun _ => rfl) (by decide) (BranchOutcome.taken rfl (by decide))).mpr
    ⟨.inl rfl, .inl (by decide)⟩ (blockTarget true).histories

/-- A jump: the squash leaves its target out of the path history. -/
theorem jump_not_recovered :
    recoverHistoryForSquash (blockTarget false) 0x1004 false true 0x2000 = ⟨0, 0, 0⟩ ∧
      updateHistoryForPrediction (blockTarget false).histories (blockPrediction false) =
        ⟨0, 0x20, 0⟩ := by
  decide

end Gem5
