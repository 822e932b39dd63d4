import Mathlib.Data.BitVec

/-!
# The result slots of an issue port

`portBusy` has a bit for each coming cycle in which a result of the port is due.  An instruction
that is not pipelined sets all bits, and when it is cancelled, squashed or done they are all
cleared, those of other instructions too.
-/

namespace Gem5
open BitVec List

/-- The operations of a port: `getCorrectedOpLat` and `opPipelined`. -/
structure PortConfig where
  OpClass : Type
  opLat : OpClass → ℕ
  opPipelined : OpClass → Bool
  lat_pos : ∀ op, 1 ≤ opLat op
  lat_le : ∀ op, opLat op ≤ 62

/-- An instruction that was scheduled in some cycle.  `dropped` says that it was cancelled or
squashed, and `under` that it was scheduled while an operation not pipelined was under way. -/
structure PortSlot (c : PortConfig) where
  seqNum : ℕ
  opClass : c.OpClass
  cycle : ℕ
  under : Bool
  scheduled : Bool
  issued : Bool
  dropped : Bool
  bypassed : Bool

/-- A port with the instruction that is selected in this cycle, whether that is cancelled, and all
instructions that were scheduled. -/
structure PortState (c : PortConfig) where
  now : ℕ
  portBusy : BitVec 64
  selected : Option (ℕ × c.OpClass × Bool)
  slots : List (PortSlot c)

inductive PortEvent (c : PortConfig)
  | select (seqNum : ℕ) (op : c.OpClass)
  | tick (arbFailed : Bool)
  | cancel (seqNum : ℕ)
  | issue (seqNum : ℕ)
  | squash (seqNum : ℕ)
  | bypass (seqNum : ℕ)

variable {c : PortConfig}

namespace PortSlot
def completion (x : PortSlot c) : ℕ :=
  x.cycle + c.opLat x.opClass

def holds (x : PortSlot c) : Bool :=
  !c.opPipelined x.opClass && !x.dropped && !x.bypassed

def clears (x : PortSlot c) : Bool :=
  x.scheduled && !c.opPipelined x.opClass
end PortSlot

open PortSlot

namespace PortState
def busyBit (lat : ℕ) : BitVec 64 :=
  if lat > 63 then BitVec.allOnes 64 else 1#64 <<< lat

/-- `IssueQue::selectInst` for an instruction that is ready. -/
def selectInst (seqNum : ℕ) (op : c.OpClass) (s : PortState c) : PortState c :=
  if s.portBusy &&& busyBit (c.opLat op) = 0#64 then { s with selected := some (seqNum, op, false) }
  else s

def schedBusy (op : c.OpClass) (busy : BitVec 64) : BitVec 64 :=
  if !c.opPipelined op then BitVec.allOnes 64
  else if c.opLat op > 1 then busy ||| 1#64 <<< c.opLat op
  else busy

def scheduleInst (arbFailed : Bool) (s : PortState c) : PortState c :=
  match s.selected with
  | none => s
  | some (seqNum, op, canceled) =>
    if canceled || arbFailed then { s with selected := none }
    else
      { s with
        selected := none
        portBusy := schedBusy op s.portBusy
        slots := ⟨seqNum, op, s.now, s.slots.any (·.holds), true, false, false, false⟩ :: s.slots }

/-- `IssueQue::tick`; the bits are a signed number. -/
def tick (arbFailed : Bool) (s : PortState c) : PortState c :=
  let s := s.scheduleInst arbFailed
  { s with portBusy := s.portBusy.sshiftRight 1, now := s.now + 1 }

/-- Marks some instructions, and clears the bits of the port if `clear` says so of one of them. -/
def mark (p : ℕ → Bool) (clear : PortSlot c → Bool) (f : PortSlot c → PortSlot c)
    (s : PortState c) : PortState c :=
  { s with
    portBusy := if s.slots.any fun x => p x.seqNum && clear x then 0#64 else s.portBusy
    slots := s.slots.map fun x => if p x.seqNum then f x else x }

def unselect (p : ℕ → Bool) (s : PortState c) : PortState c :=
  { s with selected := s.selected.map fun r => (r.1, r.2.1, r.2.2 || p r.1) }

def cancel (seqNum : ℕ) (s : PortState c) : PortState c :=
  (s.mark (· == seqNum) (·.clears) fun x =>
    { x with dropped := true, scheduled := x.scheduled && c.opPipelined x.opClass }).unselect
      (· == seqNum)

def addToFu (seqNum : ℕ) (s : PortState c) : PortState c :=
  s.mark (· == seqNum) (fun _ => false) fun x => { x with issued := true }

def doSquash (seqNum : ℕ) (s : PortState c) : PortState c :=
  (s.mark (decide <| seqNum < ·) (·.clears) fun x =>
    { x with issued := true, dropped := true, scheduled := false }).unselect
      (decide <| seqNum < ·)

/-- `Scheduler::bypassWriteback`, also for an instruction that was squashed. -/
def bypassWriteback (seqNum : ℕ) (s : PortState c) : PortState c :=
  s.mark (· == seqNum) (fun x => !c.opPipelined x.opClass) fun x => { x with bypassed := true }

/-- One instruction is selected in a cycle; `loadCancel` cancels what is not issued. -/
def Possible (s : PortState c) : PortEvent c → Prop
  | .select _ _ => s.selected = none
  | .cancel n => (s.slots.any fun x => x.seqNum == n && x.issued) = false
  | .bypass n => (s.slots.any fun x => x.seqNum == n && x.issued) = true
  | .tick _ | .issue _ | .squash _ => True

def step (s : PortState c) : PortEvent c → PortState c
  | .select n op => s.selectInst n op
  | .tick arbFailed => s.tick arbFailed
  | .cancel n => s.cancel n
  | .issue n => s.addToFu n
  | .squash n => s.doSquash n
  | .bypass n => s.bypassWriteback n

inductive Reachable : PortState c → Prop
  | start : Reachable ⟨0, 0#64, none, []⟩
  | step {s : PortState c} {e : PortEvent c} : Reachable s → s.Possible e → Reachable (s.step e)

/-- No two live operations complete at once, and none starts under an unpipelined one. -/
def SlotsOk (s : PortState c) : Prop :=
  s.slots.Pairwise (fun x y => x.dropped = false → y.dropped = false →
    x.completion ≠ y.completion) ∧ ∀ x ∈ s.slots, x.under = false

/-! ### Ports with pipelined operations only -/

variable {s : PortState c} {k : ℕ}

/-- The bits say when results are due, from `k` cycles on. -/
structure PortInv (k : ℕ) (s : PortState c) : Prop where
  past : ∀ x ∈ s.slots, x.cycle ≤ s.now
  busy : ∀ x ∈ s.slots, s.now + k < x.completion →
    s.portBusy.getLsbD (x.completion - s.now) = true
  free : ∀ n op, s.selected = some (n, op, false) → s.portBusy.getLsbD (c.opLat op) = false
  apart : s.slots.Pairwise fun x y => x.completion ≠ y.completion
  under : ∀ x ∈ s.slots, x.under = false

theorem getLsbD_of_and_busyBit {busy : BitVec 64} {lat : ℕ} (hlat : lat ≤ 62)
    (h : busy &&& busyBit lat = 0#64) : busy.getLsbD lat = false := by
  have hbit := congrArg (·.getLsbD lat) h
  have h63 : ¬lat > 63 := by omega
  have hlt : lat < 64 := by omega
  simpa [busyBit, h63, hlt, getLsbD_shiftLeft] using hbit

theorem PortInv.selectInst (h : s.PortInv 0) (n : ℕ) (op : c.OpClass) :
    (s.selectInst n op).PortInv 0 := by
  unfold PortState.selectInst
  split_ifs with hfree
  · refine ⟨h.past, h.busy, fun m op' hsel => ?_, h.apart, h.under⟩
    obtain ⟨-, rfl⟩ : n = m ∧ op = op' := by simpa using hsel
    exact getLsbD_of_and_busyBit (c.lat_le op) hfree
  · exact h

theorem PortInv.shift (h : s.PortInv 1) (hsel : s.selected = none) :
    PortInv 0 { s with portBusy := s.portBusy.sshiftRight 1, now := s.now + 1 } := by
  refine ⟨fun x hx => (h.past x hx).trans (Nat.le_succ _), fun x hx hdue => ?_,
    fun n op hs => by simp [hsel] at hs, h.apart, h.under⟩
  have hbit := h.busy x hx hdue
  have hlat := c.lat_le x.opClass
  have hpast := h.past x hx
  simp only [completion] at hdue hbit ⊢
  have hnext : 1 + (x.cycle + c.opLat x.opClass - (s.now + 1)) =
      x.cycle + c.opLat x.opClass - s.now := by omega
  have hwide : x.cycle + c.opLat x.opClass - s.now < 64 := by omega
  have hnarrow : ¬64 ≤ x.cycle + c.opLat x.opClass - (s.now + 1) := by omega
  rw [getLsbD_sshiftRight, hnext, if_pos hwide, hbit]
  simpa using hnarrow

section
variable (hall : ∀ op, c.opPipelined op = true) (h : s.PortInv 0)
include hall h

theorem PortInv.schedule {n : ℕ}
    {op : c.OpClass} (hsel : s.selected = some (n, op, false)) : PortInv 1 { s with
      selected := none
      portBusy := schedBusy op s.portBusy
      slots := ⟨n, op, s.now, s.slots.any (·.holds), true, false, false, false⟩ :: s.slots } := by
  have hfree := h.free n op hsel
  have hlat := c.lat_le op
  have hpos := c.lat_pos op
  have hold {i : ℕ} (hi : s.portBusy.getLsbD i = true) :
      (schedBusy op s.portBusy).getLsbD i = true := by
    unfold schedBusy
    split_ifs <;> simp_all
  refine ⟨?_, ?_, fun m op' hs => by simp at hs, ?_, ?_⟩
  · simpa using h.past
  · rw [forall_mem_cons]
    refine ⟨fun hdue => ?_, fun x hx hdue => hold (h.busy x hx (Nat.lt_of_succ_lt hdue))⟩
    simp only [completion] at hdue ⊢
    have hlt : c.opLat op < 64 := by omega
    have hlong : 1 < c.opLat op := by omega
    simp [schedBusy, hall op, hlong, hlt]
  · refine pairwise_cons.2 ⟨fun y hy heq => ?_, h.apart⟩
    simp only [completion] at heq
    have hbit := h.busy y hy (by simp only [completion]; omega)
    simp only [completion] at hbit
    rw [← heq, Nat.add_sub_cancel_left, hfree] at hbit
    cases hbit
  · rw [forall_mem_cons]
    exact ⟨by simp [holds, hall], h.under⟩

theorem PortInv.tick (arbFailed : Bool) : (s.tick arbFailed).PortInv 0 := by
  have hlater : s.PortInv 1 := { h with busy := fun x hx hdue => h.busy x hx (by omega) }
  unfold PortState.tick scheduleInst
  cases hsel : s.selected with
  | none => exact hlater.shift hsel
  | some r =>
    obtain ⟨n, op, canceled⟩ := r
    dsimp only
    split_ifs with hskip
    · refine PortInv.shift (s := { s with selected := none }) ?_ rfl
      exact { hlater with free := fun m op' hs => by simp at hs }
    · obtain ⟨rfl, -⟩ : canceled = false ∧ arbFailed = false := by simpa using hskip
      exact (h.schedule hall hsel).shift rfl
end

theorem PortInv.mark (h : s.PortInv 0) {p : ℕ → Bool} {clear : PortSlot c → Bool}
    {f : PortSlot c → PortSlot c} (hclear : ∀ x, clear x = false)
    (hf : ∀ x, (f x).cycle = x.cycle ∧ (f x).opClass = x.opClass ∧ (f x).under = x.under) :
    (s.mark p clear f).PortInv 0 := by
  have hsame (x : PortSlot c) : (if p x.seqNum then f x else x).cycle = x.cycle ∧
      (if p x.seqNum then f x else x).completion = x.completion ∧
      (if p x.seqNum then f x else x).under = x.under := by
    obtain ⟨hcycle, hop, hunder⟩ := hf x
    split_ifs <;> simp [completion, *]
  have hbusy : (s.mark p clear f).portBusy = s.portBusy := by simp [PortState.mark, hclear]
  refine ⟨?_, ?_, fun n op hs => hbusy ▸ h.free n op hs, ?_, ?_⟩
  · simpa [PortState.mark, hsame] using h.past
  · rw [hbusy]
    simpa [PortState.mark, hsame] using h.busy
  · simpa [PortState.mark, pairwise_map, hsame] using h.apart
  · simpa [PortState.mark, hsame] using h.under

theorem PortInv.unselect (h : s.PortInv 0) (p : ℕ → Bool) : (s.unselect p).PortInv 0 := by
  refine { h with free := fun n op hs => ?_ }
  obtain ⟨r, hr, heq⟩ := Option.map_eq_some_iff.1 hs
  obtain ⟨m, op', canceled⟩ := r
  simp only [Prod.mk.injEq, Bool.or_eq_false_iff] at heq
  obtain ⟨rfl, rfl, rfl, -⟩ := heq
  exact h.free _ _ hr

theorem Reachable.portInv (hall : ∀ op, c.opPipelined op = true) (h : Reachable s) :
    s.PortInv 0 := by
  have hclears (x : PortSlot c) : x.clears = false := by simp [clears, hall]
  induction h with
  | start => exact ⟨by simp, by simp, by simp, Pairwise.nil, by simp⟩
  | @step s e _ _ ih =>
    cases e with
    | select n op => exact ih.selectInst n op
    | tick arbFailed => exact ih.tick hall arbFailed
    | cancel n =>
      change (s.cancel n).PortInv 0
      apply PortInv.unselect
      exact ih.mark hclears fun _ => ⟨rfl, rfl, rfl⟩
    | issue n =>
      change (s.addToFu n).PortInv 0
      exact ih.mark (fun _ => rfl) fun _ => ⟨rfl, rfl, rfl⟩
    | squash n =>
      change (s.doSquash n).PortInv 0
      apply PortInv.unselect
      exact ih.mark hclears fun _ => ⟨rfl, rfl, rfl⟩
    | bypass n =>
      change (s.bypassWriteback n).PortInv 0
      exact ih.mark (by simp [hall]) fun _ => ⟨rfl, rfl, rfl⟩

/-! ### An operation that is not pipelined -/

section
variable {op : c.OpClass} (hop : c.opPipelined op = false)
include hop

theorem Reachable.schedule (now : ℕ)
    {slots : List (PortSlot c)} (h : Reachable ⟨now, 0#64, none, slots⟩) (n : ℕ) :
    Reachable ⟨now + 1, allOnes 64, none,
      ⟨n, op, now, slots.any (·.holds), true, false, false, false⟩ :: slots⟩ := by
  have hrun := (h.step (e := .select n op) rfl).step (e := .tick false) trivial
  have hones : (allOnes 64).sshiftRight 1 = allOnes 64 := by decide
  simpa [PortState.step, selectInst, tick, scheduleInst, schedBusy, hop, hones] using hrun

theorem exists_held : ∃ s : PortState c, Reachable s ∧ ¬s.SlotsOk := by
  have hyounger := Reachable.schedule hop 0 .start 2
  have hdone := (hyounger.step (e := .issue 2) trivial).step (e := .bypass 2) rfl
  have holder := Reachable.schedule hop 1 (by
    simpa [step, bypassWriteback, addToFu, mark, hop] using hdone) 1
  have hsquashed := holder.step (e := .squash 1) trivial
  have hlast := Reachable.schedule hop 2 (by
    simpa [step, doSquash, mark, unselect, clears, hop] using hsquashed) 3
  refine ⟨_, hlast, fun hok => ?_⟩
  have hunder := hok.2 _ mem_cons_self
  simp [holds, hop] at hunder
end

/-- **When the result slots of a port never collide.** -/
theorem slotsOk_iff (c : PortConfig) :
    (∀ s : PortState c, Reachable s → s.SlotsOk) ↔ ∀ op, c.opPipelined op = true := by
  refine ⟨fun h op => ?_, fun hall s hs => ?_⟩
  · by_contra hop
    obtain ⟨s, hs, hbad⟩ := exists_held (by simpa using hop)
    exact hbad (h s hs)
  · have hinv := hs.portInv hall
    exact ⟨hinv.apart.imp fun hne _ _ => hne, hinv.under⟩

/-- A pipelined operation of five cycles, one of three that is not pipelined, and one of two. -/
def threeLat (i : ℕ) : ℕ :=
  if i = 0 then 5 else if i = 1 then 3 else 2

theorem threeLat_pos (i : ℕ) : 1 ≤ threeLat i := by
  unfold threeLat
  split_ifs <;> decide

theorem threeLat_le (i : ℕ) : threeLat i ≤ 62 := by
  unfold threeLat
  split_ifs <;> decide

def threeOps : PortConfig where
  OpClass := ℕ
  opLat := threeLat
  opPipelined i := decide (i ≠ 1)
  lat_pos := threeLat_pos
  lat_le := threeLat_le

/-- The second operation is cancelled, and with it the bit of the first is lost: the third gets the
same cycle. -/
theorem cancel_collides :
    ∃ s : PortState threeOps, Reachable s ∧ ¬s.SlotsOk ∧
      s.slots.map PortSlot.completion = [5, 4, 5] ∧
      s.slots.map PortSlot.dropped = [false, true, false] := by
  have hlong := (Reachable.start.step (c := threeOps) (e := .select 1 (0 : ℕ)) rfl).step
    (e := .tick false) trivial
  have hheld := (hlong.step (e := .select 2 (1 : ℕ)) rfl).step (e := .tick false) trivial
  have hcleared := (hheld.step (e := .cancel 2) rfl).step (e := .tick false) trivial
  have hlast := (hcleared.step (e := .select 3 (2 : ℕ)) rfl).step (e := .tick false) trivial
  exact ⟨_, hlast, fun hok => absurd hok.1 (by decide), rfl, rfl⟩
end PortState
end Gem5
