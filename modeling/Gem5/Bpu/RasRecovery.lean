import Gem5.Bpu.History
import Gem5.Bpu.Ras

/-!
# Squashes and the return address stack

A squash brings back the four pointers that were recorded with a prediction, and nothing of the
ring; the entries in flight at that time are all there as long as the ring was not overrun.  A jump
that is both a call and a return pushes first and pops then, so that the stack is what it was.
-/

namespace Gem5
open Nat

namespace BTBRAS
variable {c : RasConfig} {r : BTBRAS} {m : RASMeta} {b : BranchInfo}

/-! ### The code -/

def specUpdateHist (c : RasConfig) (b : BranchInfo) (r : BTBRAS) : BTBRAS :=
  let r := if b.isCall then r.push c b.getEnd else r
  if b.isReturn then r.pop c else r

def recoverPtrs (m : RASMeta) (r : BTBRAS) : BTBRAS :=
  { r with TOSR := m.TOSR, TOSW := m.TOSW, ssp := m.ssp, sctr := m.sctr }

def recoverHist (c : RasConfig) (m : RASMeta) (exeTaken : Bool) (b : BranchInfo) (r : BTBRAS) :
    BTBRAS :=
  if exeTaken then (r.recoverPtrs m).specUpdateHist c b else r.recoverPtrs m

def update (c : RasConfig) (m : RASMeta) (exeTaken : Bool) (b : BranchInfo) (r : BTBRAS) : BTBRAS :=
  if exeTaken then
    let r := r.align m
    let r := if b.isCall then
        { r.pushStack c b.getEnd with BOS := ptrInc c.numInflightEntries m.TOSW }
      else r
    if b.isReturn then r.popStack c else r
  else r

/-! ### Recovery -/

def speculate (c : RasConfig) (r : BTBRAS) : RasOp → BTBRAS
  | .call a => r.push c a
  | .ret => r.pop c

/-- The free slots of the ring, from `TOSW` to `BOS`. -/
def freeSlots (c : RasConfig) (r : BTBRAS) : ℕ :=
  if r.TOSW < r.BOS then r.BOS - r.TOSW else c.numInflightEntries - r.TOSW + r.BOS

/-- The ring `f` has the entries in flight of `r`. -/
def SameRing (r : BTBRAS) (f : ℕ → RASInflightEntry) : Prop :=
  ∀ i, r.inflightInRange i = true → f i = r.inflightStack i

variable {f : ℕ → RASInflightEntry}

theorem SameRing.getTop (h : r.SameRing f) : { r with inflightStack := f }.getTop = r.getTop := by
  change (if r.inflightInRange r.TOSR then (f r.TOSR).data else r.stack r.ssp) =
    if r.inflightInRange r.TOSR then (r.inflightStack r.TOSR).data else r.stack r.ssp
  split_ifs with hin
  · rw [h _ hin]
  · rfl

theorem SameRing.popCtr (h : r.SameRing f) :
    { r with inflightStack := f }.popCtr c = { r.popCtr c with inflightStack := f } := by
  unfold BTBRAS.popCtr
  dsimp only
  split_ifs with hctr
  · rfl
  · have htop := SameRing.getTop (r := { r with ssp := ptrDec c.numEntries r.ssp }) h
    rw [htop]

theorem SameRing.pop (h : r.SameRing f) :
    { r with inflightStack := f }.pop c = { r.pop c with inflightStack := f } := by
  unfold BTBRAS.pop
  change (if r.inflightInRange r.TOSR then _ else _) = _
  split_ifs with hin
  · dsimp only
    rw [h _ hin]
    exact SameRing.popCtr (r := { r with TOSR := (r.inflightStack r.TOSR).nos }) h
  · exact h.popCtr

theorem pop_spec (c : RasConfig) (r : BTBRAS) : ∃ q, r.pop c = { r with
    ssp := if 0 < r.sctr then r.ssp else ptrDec c.numEntries r.ssp
    sctr := q
    TOSR := if r.inflightInRange r.TOSR then (r.inflightStack r.TOSR).nos else r.TOSR } := by
  unfold BTBRAS.pop BTBRAS.popCtr
  split_ifs <;> exact ⟨_, rfl⟩

theorem pop_eq (c : RasConfig) (r : BTBRAS) :
    ∃ p q t, r.pop c = { r with ssp := p, sctr := q, TOSR := t } := by
  obtain ⟨q, h⟩ := r.pop_spec c
  exact ⟨_, q, _, h⟩

theorem push_eq (c : RasConfig) (r : BTBRAS) (a : Addr) : ∃ p q e, r.push c a = { r with
    ssp := p
    sctr := q
    inflightStack := Function.update r.inflightStack r.TOSW e
    TOSR := r.TOSW
    TOSW := ptrInc c.numInflightEntries r.TOSW } := by
  unfold push pushCtr
  split_ifs <;> exact ⟨_, _, _, rfl⟩

theorem SameRing.pops (h : r.SameRing f) (k : ℕ) :
    ((BTBRAS.pop c)^[k] { r with inflightStack := f }).getTop =
      ((BTBRAS.pop c)^[k] r).getTop := by
  induction k generalizing r with
  | zero => exact h.getTop
  | succ k ih =>
    rw [Function.iterate_succ_apply, Function.iterate_succ_apply, h.pop]
    apply ih
    obtain ⟨p, q, t, hpop⟩ := r.pop_eq c
    rw [hpop]
    exact h

/-- The slots that the next pushes write are not in flight. -/
theorem inflightInRange_free {k : ℕ} (hw : r.TOSW < c.numInflightEntries)
    (hb : r.BOS < c.numInflightEntries) (hk : k < r.freeSlots c) :
    r.inflightInRange ((r.TOSW + k) % c.numInflightEntries) = false := by
  unfold freeSlots at hk
  unfold inflightInRange
  by_cases hwrap : r.TOSW + k < c.numInflightEntries
  · rw [mod_eq_of_lt hwrap]
    split_ifs at hk ⊢ <;> simp
    omega
  · rw [mod_eq_sub_mod (by omega), mod_eq_of_lt (by split_ifs at hk <;> omega)]
    split_ifs at hk ⊢ <;> simp <;> omega

/-- What `k` pushes, and pops among them, have left. -/
structure Speculated (c : RasConfig) (r s : BTBRAS) (k : ℕ) : Prop where
  ring : r.SameRing s.inflightStack
  stack : s.stack = r.stack
  nsp : s.nsp = r.nsp
  BOS : s.BOS = r.BOS
  TOSW : s.TOSW = (r.TOSW + k) % c.numInflightEntries

namespace Speculated
variable {s : BTBRAS} {k : ℕ}

theorem pop (h : Speculated c r s k) : Speculated c r (s.pop c) k := by
  obtain ⟨p, q, t, hpop⟩ := s.pop_eq c
  rw [hpop]
  exact ⟨h.ring, h.stack, h.nsp, h.BOS, h.TOSW⟩

section
variable (hw : r.TOSW < c.numInflightEntries) (hb : r.BOS < c.numInflightEntries)
include hw hb

theorem push (hk : k < r.freeSlots c) (h : Speculated c r s k) (a : Addr) :
    Speculated c r (s.push c a) (k + 1) := by
  obtain ⟨p, q, e, hpush⟩ := s.push_eq c a
  rw [hpush]
  refine ⟨fun i hi => ?_, h.stack, h.nsp, h.BOS, ?_⟩
  · -- the slot that is written is not in flight
    have hne : i ≠ s.TOSW := by
      rintro rfl
      rw [h.TOSW, inflightInRange_free hw hb hk] at hi
      cases hi
    exact (Function.update_of_ne hne e s.inflightStack).trans (h.ring i hi)
  · rw [h.TOSW, ptrInc, mod_add_mod, Nat.add_assoc]

theorem foldl (ops : List RasOp) (hops : ops.countP (· ≠ .ret) ≤ r.freeSlots c) :
    Speculated c r (ops.foldl (speculate c) r) (ops.countP (· ≠ .ret)) := by
  induction ops using List.reverseRecOn with
  | nil => exact ⟨fun _ _ => rfl, rfl, rfl, rfl, (mod_eq_of_lt hw).symm⟩
  | append_singleton ops op ih =>
    rw [List.countP_append] at hops ⊢
    rw [List.foldl_append]
    cases op with
    | call a => exact (ih (by omega)).push hw hb hops a
    | ret => exact (ih hops).pop
end
end Speculated

/-- **Recovery is exact.**  After speculation that fits into the free slots of the ring, a squash
without a taken branch gives back what the stack was going to answer. -/
theorem recoverHist_exact (hw : r.TOSW < c.numInflightEntries)
    (hb : r.BOS < c.numInflightEntries) (ops : List RasOp)
    (hops : ops.countP (· ≠ .ret) < r.freeSlots c) (b : BranchInfo) (k : ℕ) :
    ((pop c)^[k] ((ops.foldl (speculate c) r).recoverHist c r.getMeta false b)).getTop =
      ((pop c)^[k] r).getTop := by
  have h := Speculated.foldl hw hb ops hops.le
  have heq : (ops.foldl (speculate c) r).recoverHist c r.getMeta false b =
      { r with inflightStack := (ops.foldl (speculate c) r).inflightStack } := by
    rw [recoverHist, recoverPtrs, h.stack, h.nsp, h.BOS]
    rfl
  rw [heq]
  exact h.ring.pops k

def twoCalls : BTBRAS := ((init ⟨4, 8, 1⟩).push ⟨4, 8, 1⟩ 4).push ⟨4, 8, 1⟩ 8

/-- With two calls in flight, a return and two more calls are squashed. -/
theorem recoverHist_twoCalls : ((pop ⟨4, 8, 1⟩)^[1] (([.ret, .call 12, .call 16].foldl
    (speculate ⟨4, 8, 1⟩) twoCalls).recoverHist ⟨4, 8, 1⟩ twoCalls.getMeta false .none)).getTop =
      ((pop ⟨4, 8, 1⟩)^[1] twoCalls).getTop :=
  recoverHist_exact (by decide) (by decide) [.ret, .call 12, .call 16] (by decide) .none 1

/-! ### Jumps that return and call -/

/-- The return address of the jump is the top, and under it is what was under the old top. -/
def Replaced (c : RasConfig) (b : BranchInfo) (old new : BTBRAS) : Prop :=
  new.getTop.retAddr = b.getEnd ∧ (new.pop c).getTop = (old.pop c).getTop

/-- The same for the stack of the committed calls. -/
def ReplacedStack (c : RasConfig) (b : BranchInfo) (old new : BTBRAS) : Prop :=
  (new.stack new.nsp).retAddr = b.getEnd ∧
    (new.popStack c).stack (new.popStack c).nsp = (old.popStack c).stack (old.popStack c).nsp

/-- The ring has room for another entry, the top is not the slot that is written next nor on it, and
the counter can count one more. -/
structure Settled (c : RasConfig) (r : BTBRAS) : Prop where
  ssp : r.ssp < c.numEntries
  sctr : r.sctr < c.maxCtr
  TOSW : r.TOSW < c.numInflightEntries
  BOS : r.BOS < c.numInflightEntries
  room : 1 < r.freeSlots c
  TOSR : r.TOSR < c.numInflightEntries ∧ r.TOSR ≠ r.TOSW
  nos : r.inflightInRange r.TOSR = true →
    (r.inflightStack r.TOSR).nos < c.numInflightEntries ∧ (r.inflightStack r.TOSR).nos ≠ r.TOSW

theorem ptrDec_ptrInc {size ptr : ℕ} (h : ptr < size) : ptrDec size (ptrInc size ptr) = ptr := by
  unfold ptrDec ptrInc
  rcases Nat.eq_or_lt_of_le (Nat.succ_le_of_lt h) with heq | hlt
  · rw [show ptr + 1 = size from heq, mod_self, if_neg (lt_irrefl 0)]
    omega
  · rw [mod_eq_of_lt hlt, if_pos (Nat.succ_pos ptr)]
    omega

/-- The stack after a push and a pop: a slot of the ring is written, and the counter may be read
anew. -/
def pushedPopped (c : RasConfig) (e : RASInflightEntry) (q : ℕ) (r : BTBRAS) : BTBRAS :=
  { r with
    inflightStack := Function.update r.inflightStack r.TOSW e
    TOSW := ptrInc c.numInflightEntries r.TOSW
    sctr := q }

theorem getTop_congr {s : BTBRAS} (hslot : s.TOSR = r.TOSR ∧ s.ssp = r.ssp ∧ s.stack = r.stack)
    (hring : s.inflightInRange r.TOSR = r.inflightInRange r.TOSR ∧
      s.inflightStack r.TOSR = r.inflightStack r.TOSR) : s.getTop = r.getTop := by
  unfold getTop
  rw [hslot.1, hring.1, hring.2, hslot.2.1, hslot.2.2]

namespace Settled
variable (h : Settled c r)
include h

/-- One more slot is in flight. -/
theorem inflightInRange_succ {s : BTBRAS} (hs : s.BOS = r.BOS ∧
      s.TOSW = ptrInc c.numInflightEntries r.TOSW) {i : ℕ} (hi : i < c.numInflightEntries) :
    s.inflightInRange i = (r.inflightInRange i || decide (i = r.TOSW)) := by
  obtain ⟨hw, hb, hroom⟩ := And.intro h.TOSW (And.intro h.BOS h.room)
  unfold freeSlots at hroom
  unfold inflightInRange
  rw [hs.1, hs.2, ptrInc, Bool.eq_iff_iff]
  rcases Nat.eq_or_lt_of_le (Nat.succ_le_of_lt hw) with heq | hlt
  · rw [show r.TOSW + 1 = c.numInflightEntries from heq, mod_self]
    split_ifs at hroom ⊢ <;> simp <;> omega
  · rw [mod_eq_of_lt hlt]
    split_ifs at hroom ⊢ <;> simp <;> omega

/-- The slots that are not written stay as they are. -/
theorem same_slot (e : RASInflightEntry) (q : ℕ) {i : ℕ}
    (hi : i < c.numInflightEntries ∧ i ≠ r.TOSW) :
    (r.pushedPopped c e q).inflightInRange i = r.inflightInRange i ∧
      (r.pushedPopped c e q).inflightStack i = r.inflightStack i := by
  constructor
  · rw [h.inflightInRange_succ (s := r.pushedPopped c e q) ⟨rfl, rfl⟩ hi.1]
    simp [hi.2]
  · exact Function.update_of_ne hi.2 _ _

theorem getTop_pushedPopped (e : RASInflightEntry) (q : ℕ) :
    (r.pushedPopped c e q).getTop = r.getTop :=
  getTop_congr ⟨rfl, rfl, rfl⟩ (h.same_slot e q h.TOSR)

theorem pop_pushedPopped (e : RASInflightEntry) :
    ((r.pushedPopped c e r.sctr).pop c).getTop = (r.pop c).getTop := by
  obtain ⟨q, hpop⟩ := r.pop_spec c
  obtain ⟨q', hpop'⟩ := (r.pushedPopped c e r.sctr).pop_spec c
  obtain ⟨hin, hentry⟩ := h.same_slot e r.sctr h.TOSR
  rw [hpop, hpop']
  change BTBRAS.getTop { r.pushedPopped c e r.sctr with
    ssp := if 0 < r.sctr then r.ssp else ptrDec c.numEntries r.ssp
    sctr := q'
    TOSR := if (r.pushedPopped c e r.sctr).inflightInRange r.TOSR then
      ((r.pushedPopped c e r.sctr).inflightStack r.TOSR).nos else r.TOSR } = _
  rw [hin, hentry]
  refine getTop_congr ⟨rfl, rfl, rfl⟩ (h.same_slot e r.sctr ?_)
  change (if r.inflightInRange r.TOSR then (r.inflightStack r.TOSR).nos else r.TOSR) <
      c.numInflightEntries ∧
    (if r.inflightInRange r.TOSR then (r.inflightStack r.TOSR).nos else r.TOSR) ≠ r.TOSW
  split_ifs with hr
  · exact h.nos hr
  · exact h.TOSR

/-- The pop of an entry that was pushed just now. -/
theorem pop_pushed {s : BTBRAS} {p k : ℕ} {e : RASInflightEntry} (he : e.nos = r.TOSR)
    (hs : s = { r with
      ssp := p
      sctr := k
      inflightStack := Function.update r.inflightStack r.TOSW e
      TOSR := r.TOSW
      TOSW := ptrInc c.numInflightEntries r.TOSW }) :
    ∃ q, s.pop c = { r.pushedPopped c e q with
      ssp := if 0 < k then p else ptrDec c.numEntries p } ∧ (0 < k → q = k - 1) := by
  have hin : s.inflightInRange s.TOSR = true := by
    rw [h.inflightInRange_succ (by subst hs; exact ⟨rfl, rfl⟩) (by subst hs; exact h.TOSW)]
    subst hs
    simp
  unfold pop
  rw [if_pos hin]
  subst hs
  dsimp only
  rw [Function.update_self, he]
  unfold popCtr
  split_ifs with hk
  · exact ⟨_, rfl, fun _ => rfl⟩
  · exact ⟨_, rfl, fun hk' => absurd hk' hk⟩

/-- A push and the pop that follows it. -/
theorem specUpdateHist_both (hcall : b.isCall = true) (hret : b.isReturn = true) :
    ∃ e q, r.specUpdateHist c b = r.pushedPopped c e q ∧
      (r.getTop.retAddr = b.getEnd → q = r.sctr) := by
  rw [specUpdateHist, if_pos hcall, if_pos hret]
  by_cases heq : b.getEnd = r.getTop.retAddr
  · have hpush : r.pushCtr c b.getEnd = { r with sctr := r.sctr + 1 } := if_pos ⟨heq, h.sctr⟩
    obtain ⟨q, hpop, hq⟩ := h.pop_pushed (s := r.push c b.getEnd)
      (e := ⟨⟨b.getEnd, r.sctr + 1⟩, r.TOSR⟩) rfl (by rw [push, hpush])
    rw [if_pos (Nat.succ_pos _)] at hpop
    exact ⟨_, q, hpop, fun _ => hq (Nat.succ_pos _)⟩
  · have hpush : r.pushCtr c b.getEnd = { r with ssp := ptrInc c.numEntries r.ssp, sctr := 0 } :=
      if_neg (mt And.left heq)
    obtain ⟨q, hpop, -⟩ := h.pop_pushed (s := r.push c b.getEnd)
      (e := ⟨⟨b.getEnd, 0⟩, r.TOSR⟩) rfl (by rw [push, hpush])
    rw [if_neg (lt_irrefl 0), ptrDec_ptrInc h.ssp] at hpop
    exact ⟨_, q, hpop, fun htop => absurd htop.symm heq⟩

/-- A jump that is both leaves the top; so it is right only if its own return address is there. -/
theorem replaced_iff (hcall : b.isCall = true) (hret : b.isReturn = true) :
    Replaced c b r (r.specUpdateHist c b) ↔ r.getTop.retAddr = b.getEnd := by
  obtain ⟨e, q, hspec, hq⟩ := h.specUpdateHist_both hcall hret
  rw [Replaced, hspec, h.getTop_pushedPopped]
  refine and_iff_left_of_imp fun htop => ?_
  rw [hq htop]
  exact h.pop_pushedPopped e

end Settled

/-- The stack of the committed calls is what it was, but for the place above its top. -/
theorem replacedStack_iff (hcall : b.isCall = true) (hret : b.isReturn = true)
    (hsize : 2 ≤ c.numEntries) (hnsp : (r.align m).nsp < c.numEntries)
    (hctr : ((r.align m).stack (r.align m).nsp).ctr < c.maxCtr) :
    ReplacedStack c b (r.align m) (r.update c m true b) ↔
      ((r.align m).stack (r.align m).nsp).retAddr = b.getEnd := by
  have hupdate : r.update c m true b = popStack c { (r.align m).pushStack c b.getEnd with
      BOS := ptrInc c.numInflightEntries m.TOSW } := by
    simp only [update, if_true, hcall, hret]
  rw [hupdate]
  generalize r.align m = t at hnsp hctr ⊢
  unfold pushStack
  by_cases heq : (t.stack t.nsp).retAddr = b.getEnd
  · -- the counter goes up and down again
    have hback : popStack c { t with
        stack := Function.update t.stack t.nsp ⟨(t.stack t.nsp).retAddr, (t.stack t.nsp).ctr + 1⟩
        BOS := ptrInc c.numInflightEntries m.TOSW } =
          { t with BOS := ptrInc c.numInflightEntries m.TOSW } := by
      unfold popStack
      simp
    rw [if_pos ⟨heq, hctr⟩, hback]
    refine iff_of_true ⟨heq, ?_⟩ heq
    unfold popStack
    dsimp only
    split_ifs <;> rfl
  · have hne : t.nsp ≠ ptrInc c.numEntries t.nsp := by
      intro hinc
      have hdec := ptrDec_ptrInc hnsp
      rw [← hinc, ptrDec] at hdec
      split_ifs at hdec <;> omega
    rw [if_neg (mt And.left heq)]
    refine iff_of_false (fun hrep => heq ?_) heq
    have htop := hrep.1
    unfold popStack at htop
    simpa [ptrDec_ptrInc hnsp, hne] using htop

def defaultSizes : RasConfig := ⟨32, 384, 8⟩

/-- A call from the address `pc`. -/
def callAt (pc : Addr) : BranchInfo :=
  { BranchInfo.none with pc := pc, size := 4, isCall := true }

/-- One call, committed. -/
def oneCall (pc : Addr) : BTBRAS :=
  ((init defaultSizes).specUpdateHist defaultSizes (callAt pc)).update defaultSizes
    (init defaultSizes).getMeta true (callAt pc)

/-- A jump with the return address 12. -/
def coroutine : BranchInfo :=
  { BranchInfo.none with pc := 8, size := 4, isCall := true, isReturn := true }

end BTBRAS
end Gem5
