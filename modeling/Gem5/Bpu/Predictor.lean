import Gem5.Bpu.Ftq
import Gem5.Bpu.History

/-!
# The decoupled predictor

What one thread of `DecoupledBPUWithBTB` does to its histories: a prediction is requested, waits for
its override bubbles and enters the queue of targets with the histories before it; commit drops the
oldest targets; a squash goes back to the histories of its target and shifts in what was executed.
-/

namespace Gem5
open List

/-! ### The history manager -/

structure HistoryEntry where
  pc : Addr
  shamt : ℕ
  condTaken : Bool
  isCall : Bool
  isReturn : Bool
  retAddr : Addr
  streamId : ℕ

structure HistoryManager where
  speculativeHists : List HistoryEntry

namespace HistoryManager
def addSpeculativeHist (m : HistoryManager) (addr : Addr) (shamt : ℕ) (condTaken : Bool)
    (bi : BranchInfo) (streamId : ℕ) : HistoryManager :=
  ⟨m.speculativeHists ++
    [⟨addr, shamt, condTaken, bi.isCall, bi.isReturn, bi.getEnd, streamId⟩]⟩

def commit (m : HistoryManager) (streamId : ℕ) : HistoryManager :=
  ⟨m.speculativeHists.filter fun e => !decide (e.streamId ≤ streamId)⟩

def squashEntry (streamId shamt : ℕ) (condTaken : Bool) (bi : BranchInfo) (e : HistoryEntry) :
    Option HistoryEntry :=
  if e.streamId = streamId then
    some { e with
      condTaken := condTaken
      shamt := shamt
      isCall := bi.isCall
      isReturn := bi.isReturn
      retAddr := bi.getEnd }
  else if streamId < e.streamId then none
  else some e

def squash (m : HistoryManager) (streamId shamt : ℕ) (condTaken : Bool) (bi : BranchInfo) :
    HistoryManager :=
  ⟨m.speculativeHists.filterMap (squashEntry streamId shamt condTaken bi)⟩

end HistoryManager

open HistoryManager

def replay {N : ℕ} (entries : List HistoryEntry) (history : BitVec N) : BitVec N :=
  entries.foldl (fun h e => histShiftIn e.shamt e.condTaken h) history

def totalShift (entries : List HistoryEntry) : ℕ :=
  (entries.map (·.shamt)).sum

/-- The loop of `checkHistory`: the shifts, counted in an `unsigned`, and the history from zero. -/
def rebuild (N : ℕ) (entries : List HistoryEntry) : ℕ × BitVec N :=
  entries.foldl
    (fun acc e =>
      if e.shamt ≠ 0 then (toUnsigned (acc.1 + e.shamt), histShiftIn e.shamt e.condTaken acc.2)
      else acc)
    (0, 0)

def checkHistory {N : ℕ} (m : HistoryManager) (history : BitVec N) : Except String Unit :=
  let ideal := rebuild N m.speculativeHists
  let comparableSize := min ideal.1 N
  if ideal.2.setWidth comparableSize = history.setWidth comparableSize then .ok ()
  else .error "ideal_hash_hist == sized_real_hist"

/-! ### Targets and squashes -/

structure QueuedTarget (N : ℕ) (F : Type) extends FetchTarget N where
  predBranchInfo : BranchInfo
  exeBranchInfo : BranchInfo
  resolved : Bool
  predMeta : F

inductive Squash
  | control (pc redirect : Addr) (isCond isIndirect isCall isReturn : Bool) (size : BitVec 8)
      (taken : Bool)
  | other (pc : Addr)
  | trap (pc : Addr)

namespace Squash
def isControl : Squash → Bool
  | control .. => true
  | _ => false

def squashPC : Squash → Addr
  | control pc .. => pc
  | other pc => pc
  | trap pc => pc

def redirectPC : Squash → Addr
  | control _ redirect .. => redirect
  | other pc => pc
  | trap pc => pc

def isConditional : Squash → Bool
  | control _ _ isCond .. => isCond
  | _ => false

def actuallyTaken : Squash → Bool
  | control _ _ _ _ _ _ _ taken => taken
  | _ => false

def branchInfo? : Squash → Option BranchInfo
  | control pc redirect isCond isIndirect isCall isReturn size _ =>
    some ⟨pc, redirect, isCond, isIndirect, isCall, isReturn, size⟩
  | _ => none

end Squash

namespace QueuedTarget
variable {N : ℕ} {F : Type}

def getBranchInfo (t : QueuedTarget N F) : BranchInfo :=
  if t.resolved then t.exeBranchInfo else t.predBranchInfo

def getControlPC (t : QueuedTarget N F) : Addr :=
  t.getBranchInfo.pc

def getTakenTarget (t : QueuedTarget N F) : Addr :=
  t.getBranchInfo.target

def resolve (sq : Squash) (t : QueuedTarget N F) : QueuedTarget N F :=
  { t with
    resolved := true
    exeBranchInfo := sq.branchInfo?.getD t.exeBranchInfo }

end QueuedTarget

/-! ### The predictor -/

def MaxAddr : Addr := BitVec.allOnes 64

namespace FullBTBPrediction
def getFallThrough (pred : FullBTBPrediction) (predictWidth : ℕ) : Addr :=
  (pred.bbStart + BitVec.ofNat 64 predictWidth) &&&
    ~~~(((1 : Addr) <<< (predictWidth.log2 - 1)) - 1)

def getTarget (pred : FullBTBPrediction) (predictWidth : ℕ) : Addr :=
  match pred.getTakenEntry with
  | some e => pred.getEntryTarget e
  | none => pred.getFallThrough predictWidth

end FullBTBPrediction

/-- What a component does with its copy of the path history when a target is predicted and when one
is squashed; the latter starts from the copy in the target. -/
structure Component (N : ℕ) (F : Type) where
  specUpdatePHist : F → BitVec N → FullBTBPrediction → F
  recoverPHist : F → BitVec N → QueuedTarget N F → Bool → F

structure BpuConfig where
  ftqSize : ℕ
  predictWidth : ℕ

/-- A thread of the predictor.  `folded` is the copy of the histories in a component, `predMeta` the
one that it made at the last request. -/
structure Bpu (N : ℕ) (F : Type) where
  s0PC : Addr
  histories : Histories N
  folded : F
  historyManager : HistoryManager
  ftq : TargetQueue (QueuedTarget N F)
  finalPred : FullBTBPrediction
  predMeta : F
  validprediction : Bool
  numOverrideBubbles : ℕ
  squashing : Bool
  blockPredictionPending : Bool

namespace Bpu
variable {N : ℕ} {F : Type}

def init (startPC : Addr) (folded : F) : Bpu N F where
  s0PC := startPC
  histories := ⟨0, 0, 0⟩
  folded := folded
  historyManager := ⟨[]⟩
  ftq := .init
  finalPred := ⟨0, [], [], [], 0⟩
  predMeta := folded
  validprediction := false
  numOverrideBubbles := 0
  squashing := true
  blockPredictionPending := false

/-- The stages have agreed on `pred`, which comes after `bubbles`. -/
def requestNewPrediction (s : Bpu N F) (pred : FullBTBPrediction) (bubbles : ℕ) : Bpu N F :=
  { s with
    finalPred := { pred with bbStart := s.s0PC }
    predMeta := s.folded
    validprediction := true
    numOverrideBubbles := bubbles }

def createFetchTargetEntry (cfg : BpuConfig) (s : Bpu N F) : QueuedTarget N F :=
  let predBranchInfo :=
    match s.finalPred.getTakenEntry with
    | some e => { e.toBranchInfo with target := s.finalPred.getTarget cfg.predictWidth }
    | none => BranchInfo.none
  { startPC := s.s0PC
    predBTBEntries := s.finalPred.btbEntries
    histories := s.histories
    predBranchInfo := predBranchInfo
    exeBranchInfo := predBranchInfo
    resolved := false
    predMeta := s.predMeta }

def updateHistoryForPrediction (C : Component N F) (s : Bpu N F) (entry : QueuedTarget N F) :
    Bpu N F :=
  { s with
    folded := C.specUpdatePHist s.folded s.histories.path s.finalPred
    histories := Gem5.updateHistoryForPrediction s.histories s.finalPred
    historyManager :=
      s.historyManager.addSpeculativeHist entry.startPC s.finalPred.getHistInfo.1
        s.finalPred.getHistInfo.2 entry.predBranchInfo (s.ftq.backId + 1) }

def processNewPrediction (cfg : BpuConfig) (C : Component N F) (s : Bpu N F) :
    Except String (Bpu N F) :=
  if !s.validprediction then .ok s
  else if 0 < s.numOverrideBubbles then .ok s
  else if s.ftq.full cfg.ftqSize then .ok s
  else if s.s0PC = MaxAddr then .ok s
  else do
    let entry := s.createFetchTargetEntry cfg
    let ftq ← s.ftq.insert cfg.ftqSize ⟨s.ftq.backId + 1, entry⟩
    return { s.updateHistoryForPrediction C entry with
      s0PC := s.finalPred.getTarget cfg.predictWidth
      ftq := ftq
      validprediction := false }

def dropPrediction (s : Bpu N F) : Bpu N F :=
  { s with validprediction := false, numOverrideBubbles := 0, squashing := false }

def requestIfIdle (cfg : BpuConfig) (s : Bpu N F) (pred : FullBTBPrediction) (bubbles : ℕ) :
    Bpu N F :=
  if !s.validprediction && !s.ftq.full cfg.ftqSize then
    if s.blockPredictionPending then { s with blockPredictionPending := false }
    else s.requestNewPrediction pred bubbles
  else s

def tick (cfg : BpuConfig) (C : Component N F) (s : Bpu N F) (pred : FullBTBPrediction)
    (bubbles : ℕ) : Except String (Bpu N F) :=
  if s.squashing then .ok s.dropPrediction
  else do
    let s ← (s.requestIfIdle cfg pred bubbles).processNewPrediction cfg C
    return { s with numOverrideBubbles := s.numOverrideBubbles - 1 }

def blockPredictionOnce (s : Bpu N F) : Bpu N F :=
  { s with blockPredictionPending := true }

def commit (s : Bpu N F) (targetId : ℕ) : Except String (Bpu N F) :=
  if s.ftq.cap.isEmpty then .ok s
  else do
    let ftq ← s.ftq.commit targetId
    return { s with ftq := ftq, historyManager := s.historyManager.commit (toUnsigned targetId) }

def recoverHistoryForSquash (C : Component N F) (s : Bpu N F) (target : QueuedTarget N F)
    (targetId : ℕ) (sq : Squash) : Except String (Bpu N F) := do
  let real := target.getHistInfoDuringSquash sq.squashPC sq.isConditional sq.actuallyTaken
  let s :=
    { s with
      folded := C.recoverPHist s.folded target.histories.path target real.2
      histories :=
        Gem5.recoverHistoryForSquash target.toFetchTarget sq.squashPC sq.isConditional
          sq.actuallyTaken sq.redirectPC
      historyManager :=
        s.historyManager.squash targetId real.1 real.2
          (if sq.isControl then target.exeBranchInfo else BranchInfo.none) }
  checkHistory s.historyManager s.histories.global
  return s

def handleSquash (C : Component N F) (s : Bpu N F) (targetId : ℕ) (sq : Squash) :
    Except String (Bpu N F) :=
  let s := { s with squashing := true }
  if s.ftq.hasTarget targetId then do
    let e ← s.ftq.get targetId
    let ftq := (s.ftq.modify targetId (·.resolve sq)).squashAfter targetId
    let s ← recoverHistoryForSquash C { s with ftq := ftq } (e.target.resolve sq) targetId sq
    return { s with s0PC := sq.redirectPC }
  else if s.ftq.cap.isEmpty then .error "!ftq.empty(tid)"
  else .ok s

/-- `controlSquash`, `nonControlSquash` and `trapSquash`, which get the number of the target in an
`unsigned`; the first one ignores a target that is not there. -/
def squash (C : Component N F) (s : Bpu N F) (targetId : ℕ) (sq : Squash) :
    Except String (Bpu N F) :=
  if sq.isControl && !s.ftq.hasTarget (toUnsigned targetId) then .ok s
  else s.handleSquash C (toUnsigned targetId) sq

end Bpu

/-! ### Runs -/

inductive BpuEvent
  | tick (pred : FullBTBPrediction) (bubbles : ℕ)
  | block
  | commit (targetId : ℕ)
  | squash (targetId : ℕ) (sq : Squash)

namespace Bpu
variable {N : ℕ} {F : Type}

/-- The committed targets are the oldest ones of the queue, the squashed target is in the queue. -/
def Allowed (s : Bpu N F) : BpuEvent → Prop
  | .tick .. => True
  | .block => True
  | .commit targetId => toUnsigned targetId < s.ftq.baseTargetId + s.ftq.cap.length
  | .squash targetId _ => s.ftq.hasTarget targetId = true

def step (cfg : BpuConfig) (C : Component N F) (s : Bpu N F) :
    BpuEvent → Except String (Bpu N F)
  | .tick pred bubbles => s.tick cfg C pred bubbles
  | .block => .ok s.blockPredictionOnce
  | .commit targetId => s.commit targetId
  | .squash targetId sq => s.squash C targetId sq

inductive Reachable (cfg : BpuConfig) (C : Component N F) (startPC : Addr) (folded : F) :
    Bpu N F → Prop
  | init : Reachable cfg C startPC folded (init startPC folded)
  | step {s s' : Bpu N F} {e : BpuEvent} (hs : Reachable cfg C startPC folded s)
      (he : s.Allowed e) (hstep : s.step cfg C e = .ok s') : Reachable cfg C startPC folded s'

end Bpu

/-! ### What a list shifts in -/

section
variable {N : ℕ}

theorem replay_append (l l' : List HistoryEntry) (h : BitVec N) :
    replay (l ++ l') h = replay l' (replay l h) := foldl_append

section
variable (l : List HistoryEntry)

theorem replay_concat (e : HistoryEntry) (h : BitVec N) :
    replay (l ++ [e]) h = histShiftIn e.shamt e.condTaken (replay l h) := replay_append l [e] h

theorem totalShift_concat (e : HistoryEntry) : totalShift (l ++ [e]) = totalShift l + e.shamt := by
  simp [totalShift]

theorem getLsbD_replay_congr (h h' : BitVec N) {i : ℕ} (hi : i < N)
    (hshift : i < totalShift l) : (replay l h).getLsbD i = (replay l h').getLsbD i := by
  induction l using reverseRecOn generalizing i with
  | nil => exact absurd hshift (Nat.not_lt_zero i)
  | append_singleton l e ih =>
    rw [replay_concat, replay_concat]
    rw [totalShift_concat] at hshift
    by_cases hzero : e.shamt = 0
    · rw [hzero] at hshift ⊢
      exact ih hi hshift
    · rw [getLsbD_histShiftIn hzero _ _ hi, getLsbD_histShiftIn hzero _ _ hi]
      by_cases hle : e.shamt ≤ i
      · -- an older bit, which has moved up
        rw [ih (show i - e.shamt < N by omega) (by omega)]
      · rw [decide_eq_false hle, Bool.false_and, Bool.false_and]

theorem rebuild_eq : (rebuild N l).2 = replay l 0 ∧ (rebuild N l).1 ≤ totalShift l := by
  induction l using reverseRecOn with
  | nil => exact ⟨rfl, le_rfl⟩
  | append_singleton l e ih =>
    obtain ⟨hreplay, hcount⟩ := ih
    rw [replay_concat, totalShift_concat]
    have hstep : rebuild N (l ++ [e]) =
        if e.shamt ≠ 0 then
          (toUnsigned ((rebuild N l).1 + e.shamt), histShiftIn e.shamt e.condTaken (rebuild N l).2)
        else rebuild N l := foldl_append
    rw [hstep]
    by_cases hzero : e.shamt = 0
    · rw [hzero]
      exact ⟨hreplay, hcount⟩
    · rw [if_pos hzero]
      refine ⟨by rw [hreplay], ?_⟩
      have := toUnsigned_le ((rebuild N l).1 + e.shamt)
      omega
end

theorem checkHistory_ok {m : HistoryManager} {history start : BitVec N}
    (h : history = replay m.speculativeHists start) : checkHistory m history = .ok () := by
  obtain ⟨hreplay, hcount⟩ := rebuild_eq (N := N) m.speculativeHists
  rw [checkHistory, if_pos]
  apply BitVec.eq_of_getLsbD_eq
  intro i hi
  rw [BitVec.getLsbD_setWidth, BitVec.getLsbD_setWidth, hreplay, h,
    getLsbD_replay_congr m.speculativeHists 0 start (by omega) (by omega)]
end

/-! ### The list under commits and squashes -/

namespace HistoryManager

section
variable (l : List HistoryEntry)

theorem filter_committed (base id : ℕ) (hids : l.map (·.streamId) = range' base l.length) :
    (l.filter fun e => !decide (e.streamId ≤ id)) = l.drop (id + 1 - base) := by
  induction l generalizing base with
  | nil => simp
  | cons e l ih =>
    rw [map_cons, length_cons, range'_succ, List.cons.injEq] at hids
    obtain ⟨he, htail⟩ := hids
    rw [filter_cons, ih (base + 1) htail, he]
    by_cases hle : base ≤ id
    · have hcut : id + 1 - base = id + 1 - (base + 1) + 1 := by omega
      rw [decide_eq_true hle, Bool.not_true, if_neg Bool.false_ne_true, hcut, drop_succ_cons]
    · have hcut : id + 1 - base = 0 := by omega
      have hcut' : id + 1 - (base + 1) = 0 := by omega
      rw [decide_eq_false hle, Bool.not_false, if_pos rfl, hcut, hcut', drop_zero, drop_zero]

theorem filterMap_squashEntry_younger {base id : ℕ} (shamt : ℕ)
    (condTaken : Bool) (bi : BranchInfo) (hids : l.map (·.streamId) = range' base l.length)
    (hlt : id < base) : l.filterMap (squashEntry id shamt condTaken bi) = [] := by
  rw [filterMap_eq_nil_iff]
  intro e he
  have hmem : e.streamId ∈ range' base l.length := hids ▸ mem_map_of_mem he
  have hbase := (mem_range'_1.mp hmem).1
  rw [squashEntry, if_neg (by omega), if_pos (by omega)]

theorem filterMap_squashEntry (base id shamt : ℕ) (condTaken : Bool)
    (bi : BranchInfo) (hids : l.map (·.streamId) = range' base l.length) (hbase : base ≤ id)
    (hlt : id < base + l.length) :
    ∃ e : HistoryEntry, e.shamt = shamt ∧ e.condTaken = condTaken ∧ e.streamId = id ∧
      l.filterMap (squashEntry id shamt condTaken bi) = l.take (id - base) ++ [e] := by
  induction l generalizing base with
  | nil =>
    rw [length_nil] at hlt
    omega
  | cons a l ih =>
    rw [map_cons, length_cons, range'_succ, List.cons.injEq] at hids
    obtain ⟨ha, htail⟩ := hids
    rw [length_cons] at hlt
    rcases Nat.eq_or_lt_of_le hbase with rfl | hbelow
    · refine ⟨{ a with
        condTaken := condTaken
        shamt := shamt
        isCall := bi.isCall
        isReturn := bi.isReturn
        retAddr := bi.getEnd }, rfl, rfl, ha, ?_⟩
      rw [filterMap_cons, squashEntry, if_pos ha, Nat.sub_self, take_zero,
        filterMap_squashEntry_younger l shamt condTaken bi htail (Nat.lt_succ_self _)]
      rfl
    · obtain ⟨e, hshamt, htaken, hid, heq⟩ := ih (base + 1) htail hbelow (by omega)
      refine ⟨e, hshamt, htaken, hid, ?_⟩
      have hcut : id - base = id - (base + 1) + 1 := by omega
      rw [filterMap_cons, squashEntry, if_neg (by omega), if_neg (by omega), heq, hcut,
        take_succ_cons, cons_append]
end
end HistoryManager

/-! ### Snapshots, list and register -/

namespace Bpu
variable {N : ℕ} {F : Type} {cfg : BpuConfig} {C : Component N F} {s s' : Bpu N F}

/-- The list has an entry for each target.  From some history on, the entries before a target give
the history in its snapshot, and all entries give the register. -/
structure Synced (s : Bpu N F) : Prop where
  base_pos : 1 ≤ s.ftq.baseTargetId
  ids : s.historyManager.speculativeHists.map (·.streamId) =
    List.range' s.ftq.baseTargetId s.ftq.cap.length
  replays : ∃ start : BitVec N,
    s.histories.global = replay s.historyManager.speculativeHists start ∧
    ∀ k e, s.ftq.cap[k]? = some e →
      e.target.histories.global = replay (s.historyManager.speculativeHists.take k) start

theorem Synced.length (h : s.Synced) :
    s.historyManager.speculativeHists.length = s.ftq.cap.length := by
  have := congrArg List.length h.ids
  rwa [length_map, length_range'] at this

theorem synced_init (startPC : Addr) (folded : F) : (init startPC folded : Bpu N F).Synced where
  base_pos := le_rfl
  ids := rfl
  replays := ⟨0, rfl, fun k e he => by cases he⟩

section
variable (h : s.Synced)
include h

theorem Synced.enqueue (entry : QueuedTarget N F)
    (hentry : entry.histories = s.histories) (pc : Addr) :
    Synced { s.updateHistoryForPrediction C entry with
      s0PC := pc
      ftq := { s.ftq with cap := s.ftq.cap ++ [⟨s.ftq.backId + 1, entry⟩] }
      validprediction := false } := by
  obtain ⟨start, hreg, hsnap⟩ := h.replays
  have hpos := h.base_pos
  have hlen := h.length
  refine ⟨hpos, ?_, start, ?_, ?_⟩
  · have hid : s.ftq.backId + 1 = s.ftq.baseTargetId + s.ftq.cap.length := by
      rw [TargetQueue.backId]
      omega
    simp only [updateHistoryForPrediction, addSpeculativeHist, map_append,
      map_cons, map_nil, length_append, length_singleton, h.ids, hid]
    rw [range'_concat, Nat.one_mul]
  · simp only [updateHistoryForPrediction, addSpeculativeHist, replay_concat,
      Gem5.updateHistoryForPrediction, hreg]
  · intro k e he
    simp only [updateHistoryForPrediction, addSpeculativeHist] at he ⊢
    rcases Nat.lt_trichotomy k s.ftq.cap.length with hlt | rfl | hgt
    · rw [getElem?_append_left hlt] at he
      rw [take_append_of_le_length (by omega)]
      exact hsnap k e he
    · rw [getElem?_concat_length, Option.some.injEq] at he
      rw [← he, ← hlen, take_left, ← hreg]
      exact congrArg Histories.global hentry
    · rw [getElem?_eq_none (by simp; omega)] at he
      cases he

theorem Synced.processNewPrediction : ∃ s', s.processNewPrediction cfg C = .ok s' ∧ s'.Synced := by
  unfold Bpu.processNewPrediction
  split_ifs with hvalid hbubbles hfull hpc
  · exact ⟨s, rfl, h⟩
  · exact ⟨s, rfl, h⟩
  · exact ⟨s, rfl, h⟩
  · exact ⟨s, rfl, h⟩
  · have hlt : s.ftq.cap.length < cfg.ftqSize := by
      simpa [TargetQueue.full] using hfull
    dsimp only [TargetQueue.insert]
    rw [if_pos hlt]
    exact ⟨_, rfl, h.enqueue (s.createFetchTargetEntry cfg) rfl _⟩

section
variable (pred : FullBTBPrediction) (bubbles : ℕ)

theorem Synced.requestIfIdle : (s.requestIfIdle cfg pred bubbles).Synced := by
  unfold Bpu.requestIfIdle
  split_ifs
  · exact ⟨h.base_pos, h.ids, h.replays⟩
  · exact ⟨h.base_pos, h.ids, h.replays⟩
  · exact h

theorem Synced.tick : ∃ s', s.tick cfg C pred bubbles = .ok s' ∧ s'.Synced := by
  unfold Bpu.tick
  split_ifs
  · exact ⟨_, rfl, h.base_pos, h.ids, h.replays⟩
  · have hidle : (s.requestIfIdle cfg pred bubbles).Synced := h.requestIfIdle pred bubbles
    obtain ⟨s₁, hs₁, h₁⟩ := hidle.processNewPrediction
    rw [hs₁]
    exact ⟨_, rfl, h₁.base_pos, h₁.ids, h₁.replays⟩
end

theorem Synced.commit {targetId : ℕ} (hallowed : s.Allowed (.commit targetId)) :
    ∃ s', s.commit targetId = .ok s' ∧ s'.Synced := by
  unfold Bpu.commit
  split_ifs
  · exact ⟨s, rfl, h⟩
  · obtain ⟨start, hreg, hsnap⟩ := h.replays
    have hlen := h.length
    have hcut : toUnsigned targetId + 1 - s.ftq.baseTargetId ≤ s.ftq.cap.length := by
      have : toUnsigned targetId < s.ftq.baseTargetId + s.ftq.cap.length := hallowed
      omega
    rw [TargetQueue.commit_ok s.ftq hcut]
    have hdrop := filter_committed s.historyManager.speculativeHists
      s.ftq.baseTargetId (toUnsigned targetId) (by rw [h.ids, hlen])
    refine ⟨_, rfl, ?_, ?_, ?_⟩
    · show 1 ≤ s.ftq.baseTargetId + (toUnsigned targetId + 1 - s.ftq.baseTargetId)
      omega
    · simp only [HistoryManager.commit, hdrop]
      rw [map_drop, h.ids, drop_range', length_drop, Nat.mul_one]
    · refine ⟨replay (s.historyManager.speculativeHists.take
        (toUnsigned targetId + 1 - s.ftq.baseTargetId)) start, ?_, ?_⟩
      · simp only [HistoryManager.commit, hdrop]
        rw [← replay_append, take_append_drop]
        exact hreg
      · intro k e he
        simp only [HistoryManager.commit, hdrop] at he ⊢
        rw [getElem?_drop] at he
        rw [← replay_append, ← take_add]
        exact hsnap _ e he

theorem Synced.handleSquash {targetId : ℕ} (sq : Squash) (hhas : s.ftq.hasTarget targetId = true) :
    ∃ s', s.handleSquash C targetId sq = .ok s' ∧ s'.Synced := by
  obtain ⟨start, hreg, hsnap⟩ := h.replays
  have hlen := h.length
  obtain ⟨hbase, hlt⟩ := (s.ftq.hasTarget_iff targetId).mp hhas
  obtain ⟨e, hget, he⟩ := TargetQueue.get_ok hhas
  have hold := hsnap _ e he
  unfold Bpu.handleSquash
  rw [if_pos hhas, hget]
  show ∃ s', (recoverHistoryForSquash C _ (e.target.resolve sq) targetId sq >>= _) = _ ∧ _
  unfold recoverHistoryForSquash
  generalize hreal : (e.target.resolve sq).getHistInfoDuringSquash sq.squashPC sq.isConditional
    sq.actuallyTaken = real
  dsimp only
  obtain ⟨x, hshamt, htaken, hid, hlist⟩ := filterMap_squashEntry
    s.historyManager.speculativeHists s.ftq.baseTargetId targetId real.1 real.2
    (if sq.isControl then (e.target.resolve sq).exeBranchInfo else BranchInfo.none)
    (by rw [h.ids, hlen]) hbase (by omega)
  have hnew : (Gem5.recoverHistoryForSquash (e.target.resolve sq).toFetchTarget sq.squashPC
      sq.isConditional sq.actuallyTaken sq.redirectPC).global =
      replay (s.historyManager.squash targetId real.1 real.2
        (if sq.isControl then (e.target.resolve sq).exeBranchInfo
          else BranchInfo.none)).speculativeHists start := by
    rw [HistoryManager.squash, hlist, replay_concat, hshamt, htaken, ← hold, ← hreal]
    rfl
  rw [checkHistory_ok hnew]
  refine ⟨_, rfl, ?_⟩
  have hqueue := TargetQueue.squashAfter_eq (s.ftq.modify targetId (·.resolve sq)) hbase
  have hkept : targetId + 1 - s.ftq.baseTargetId ≤ s.ftq.cap.length := by omega
  refine ⟨?_, ?_, start, hnew, ?_⟩
  · rw [hqueue]
    exact h.base_pos
  · rw [hqueue]
    simp only [HistoryManager.squash, hlist, TargetQueue.modify, map_append, map_take, h.ids,
      map_cons, map_nil, hid, length_take, length_modify, Nat.min_eq_left hkept]
    have hsucc : targetId + 1 - s.ftq.baseTargetId = targetId - s.ftq.baseTargetId + 1 := by omega
    have hlast : targetId = s.ftq.baseTargetId + (targetId - s.ftq.baseTargetId) := by omega
    have htake : (range' s.ftq.baseTargetId s.ftq.cap.length).take
        (targetId - s.ftq.baseTargetId) =
          range' s.ftq.baseTargetId (targetId - s.ftq.baseTargetId) := by
      have hsplit : s.ftq.cap.length =
          targetId - s.ftq.baseTargetId +
            (s.ftq.cap.length - (targetId - s.ftq.baseTargetId)) := by omega
      rw [hsplit, ← range'_append_1, take_left' length_range']
    rw [hsucc, range'_concat, Nat.one_mul, ← hlast, htake]
  · intro k x' hx'
    rw [hqueue] at hx'
    simp only [TargetQueue.modify, HistoryManager.squash, hlist] at hx' ⊢
    rw [getElem?_take] at hx'
    split_ifs at hx' with hk
    rw [getElem?_modify] at hx'
    obtain ⟨y, hy, rfl⟩ := Option.map_eq_some_iff.mp hx'
    have hle : k ≤ targetId - s.ftq.baseTargetId := by omega
    have hhist : (if targetId - s.ftq.baseTargetId = k then
        { y with target := y.target.resolve sq } else y).target.histories =
          y.target.histories := by
      split_ifs <;> rfl
    rw [take_append_of_le_length (by rw [length_take]; omega), take_take,
      Nat.min_eq_left hle, ← hsnap k y hy]
    exact congrArg Histories.global hhist

theorem Synced.squash {targetId : ℕ} (sq : Squash) (hallowed : s.Allowed (.squash targetId sq)) :
    ∃ s', s.squash C targetId sq = .ok s' ∧ s'.Synced := by
  unfold Bpu.squash
  split_ifs with hcontrol
  · exact ⟨s, rfl, h⟩
  · by_cases hhas : s.ftq.hasTarget (toUnsigned targetId) = true
    · exact h.handleSquash sq hhas
    · -- the number has lost its upper bits, and the queue is not empty
      have hne : s.ftq.cap.isEmpty = false := by
        have hold : s.ftq.hasTarget targetId = true := hallowed
        rw [TargetQueue.hasTarget_iff] at hold
        rw [isEmpty_eq_false_iff]
        rintro hnil
        rw [hnil, length_nil] at hold
        omega
      refine ⟨{ s with squashing := true }, ?_, h.base_pos, h.ids, h.replays⟩
      unfold Bpu.handleSquash
      rw [if_neg hhas, hne, if_neg Bool.false_ne_true]

theorem Synced.step {e : BpuEvent} (he : s.Allowed e) :
    ∃ s', s.step cfg C e = .ok s' ∧ s'.Synced := by
  cases e with
  | tick pred bubbles => exact h.tick pred bubbles
  | block => exact ⟨_, rfl, h.base_pos, h.ids, h.replays⟩
  | commit targetId => exact h.commit he
  | squash targetId sq => exact h.squash sq he
end

theorem Reachable.synced {startPC : Addr} {folded : F}
    (hs : Reachable cfg C startPC folded s) : s.Synced := by
  induction hs with
  | init => exact synced_init startPC folded
  | @step u u' e _ he hstep ih =>
    obtain ⟨t, ht, hsynced⟩ : ∃ t, u.step cfg C e = .ok t ∧ t.Synced := ih.step he
    rw [hstep] at ht
    cases ht
    exact hsynced

/-- After every operation of a run the entries of the history manager give the low bits of the
register, as many as they have shifted in or the register has; the comparison succeeds, and so does
the next operation. -/
theorem rebuilt_history {startPC : Addr} {folded : F} (hs : Reachable cfg C startPC folded s) :
    (∀ i < min (totalShift s.historyManager.speculativeHists) N,
      (replay s.historyManager.speculativeHists (0 : BitVec N)).getLsbD i =
        s.histories.global.getLsbD i) ∧
    checkHistory s.historyManager s.histories.global = .ok () ∧
    ∀ e, s.Allowed e → ∃ s', s.step cfg C e = .ok s' := by
  obtain ⟨start, hreg, -⟩ := hs.synced.replays
  refine ⟨fun i hi => ?_, checkHistory_ok hreg, fun e he => ?_⟩
  · rw [hreg]
    exact getLsbD_replay_congr _ 0 start (by omega) (by omega)
  · obtain ⟨s', hs', -⟩ : ∃ s', s.step cfg C e = .ok s' ∧ s'.Synced := hs.synced.step he
    exact ⟨s', hs'⟩

/-- A block that a taken conditional branch ends, and the squash that finds it not taken. -/
theorem mispredicted_rebuilt :
    ∃ s s' : Bpu 8 Unit,
      Reachable ⟨2, 64⟩ ⟨fun _ _ _ => (), fun _ _ _ _ => ()⟩ 0 () s ∧
      s.histories.global = 1 ∧
      s.step ⟨2, 64⟩ ⟨fun _ _ _ => (), fun _ _ _ _ => ()⟩
        (.squash 1 (.control 4 8 true false false false 4 false)) = .ok s' ∧
      checkHistory s'.historyManager s'.histories.global = .ok () := by
  obtain ⟨s, hs, hhas, hglobal⟩ : ∃ s : Bpu 8 Unit,
      Reachable ⟨2, 64⟩ ⟨fun _ _ _ => (), fun _ _ _ _ => ()⟩ 0 () s ∧
      s.ftq.hasTarget 1 = true ∧ s.histories.global = 1 :=
    ⟨_, (Reachable.init.step (e := .tick ⟨0, [], [], [], 0⟩ 0) trivial rfl).step
      (e := .tick ⟨0, [⟨⟨4, 64, true, false, false, false, 4⟩, true⟩], [(4, true)], [], 0⟩ 0)
      trivial rfl, rfl, rfl⟩
  obtain ⟨s', hs'⟩ := (rebuilt_history hs).2.2
    (.squash 1 (.control 4 8 true false false false 4 false)) hhas
  have hsquashed := Reachable.step (e := .squash 1 _) hs hhas hs'
  exact ⟨s, s', hs, hglobal, hs', (rebuilt_history hsquashed).2.1⟩

end Bpu
end Gem5
