import Gem5.Fusion.SeqLoad
import Gem5.Rename.RefCount

/-!
# The resource check of rename

Before it renames the buffer of a thread, rename adds up, class by class, how many destinations the
instructions say they have, and compares the sums with the free lists.  An instruction says so in an
array of counters that its constructor fills, while the registers are then taken for the
destinations themselves.

`x0` as a destination of a fused instruction adds a destination that was never set or counted.

Statistics, stall reasons and the scoreboard are left out.
-/

namespace Gem5
open List Function RegClassType RenameInst Bool

/-! ### What the constructors count -/

/-- `IsAddImm`, for the classes that the tables name; `IsMov` is set for none of them. -/
def Opcode.isAddImm : Opcode → Bool
  | .addi | .cAddi => true
  | _ => false

/-- What rename reads of a fused instruction: it has the flags of its parts, and inherits
`getImm()`, which returns zero. -/
def FusionInst.renameInst (f : FusionInst) (seqNum : ℕ) : RenameInst :=
  ⟨seqNum, false, f.parts.any fun i => i.typeid.any Opcode.isAddImm, 0, f.srcRegs,
    f.destRegs.map (·, 0)⟩

structure RenameSlot where
  squashed : Bool
  inst : RenameInst
  numTypedDestRegs : RegClassType → ℕ

namespace RenameSlot

/-- An operand of the decoder: the integer register zero is `RegId()`. -/
def regId (r : RegId) : RegId := if r = ⟨.int, 0⟩ then RegId.invalid else r

/-- A plain instruction; a destination is counted under the class of the operand, `x0` too. -/
def plain (squashed : Bool) (inst : RenameInst) (dests : List RegId) : RenameSlot where
  squashed := squashed
  inst := { inst with destRegs := dests.map fun r => (regId r, 0) }
  numTypedDestRegs k := dests.countP (·.regClass = k)

def fused (squashed : Bool) (seqNum : ℕ) (f : FusionInst) : RenameSlot where
  squashed := squashed
  inst := f.renameInst seqNum
  numTypedDestRegs := f.operands.numTypedDestRegs

inductive Built : RenameSlot → Prop
  | plain (squashed : Bool) (inst : RenameInst) (dests : List RegId) :
      Built (.plain squashed inst dests)
  | fused (squashed : Bool) (seqNum : ℕ) (f : FusionInst) : Built (.fused squashed seqNum f)

theorem Built.pins {s : RenameSlot} (h : s.Built) : ∀ d ∈ s.inst.destRegs, d.2 = 0 := by
  intro d hd
  cases h with
  | plain squashed inst dests =>
    obtain ⟨r, -, rfl⟩ := mem_map.1 hd
    rfl
  | fused squashed seqNum f =>
    obtain ⟨r, -, rfl⟩ := mem_map.1 hd
    rfl

end RenameSlot

open RenameSlot

def liveSlots (slots : List RenameSlot) : List RenameSlot := slots.filter (!·.squashed)

/-! ### The check and the loop -/

/-- `demand_phy_regs`, before and after it is raised to the width of rename. -/
def demandPhyRegs (slots : List RenameSlot) (k : RegClassType) : ℕ :=
  ((liveSlots slots).map (·.numTypedDestRegs k)).sum

def raisedDemand (renameWidth : ℕ) (slots : List RenameSlot) (k : RegClassType) : ℕ :=
  match k with
  | .int | .float | .vec | .rmisc => max (demandPhyRegs slots k) renameWidth
  | k => demandPhyRegs slots k

namespace RenameStage
variable {n : ℕ}

def numFreeEntries (st : RenameStage n) (k : RegClassType) : ℕ := (st.freeRegs k).length

def canRename (st : RenameStage n) (renameWidth : ℕ) (slots : List RenameSlot) : Bool :=
  RegClassType.renamed.all fun k => raisedDemand renameWidth slots k ≤ st.numFreeEntries k

/-- `UnifiedRenameMap::canRename`. -/
def canRenameInst (st : RenameStage n) (s : RenameSlot) : Bool :=
  RegClassType.renamed.all fun k => s.numTypedDestRegs k ≤ st.numFreeEntries k

end RenameStage

structure RenamedInst where
  inst : RenameInst
  srcs : List VirtRegId
  dests : List VirtRegId
  eliminated : Bool

/-- `renameInsts`: what it puts into `toIEW`, and the stage behind it. -/
def renameInsts {n : ℕ} (c : RenameConfig) (tid : Fin n) :
    List RenameSlot → RenameStage n → Except String (List RenamedInst × RenameStage n)
  | [], st => .ok ([], st)
  | s :: rest, st =>
    if s.squashed then renameInsts c tid rest st
    else if !st.canRenameInst s then .error "assert(renameMap[tid]->canRename(inst))"
    else
      match st.renameDestRegs c tid s.inst with
      | .error e => .error e
      | .ok (dests, eliminated, st₁) =>
        match renameInsts c tid rest st₁ with
        | .error e => .error e
        | .ok (done, st₂) =>
          .ok (⟨s.inst, st.renameSrcRegs tid s.inst, dests, eliminated⟩ :: done, st₂)

/-! ### What is taken from the free lists -/

/-- The registers of class `k` that the destinations take if none of them is pinned. -/
def RenameInst.allocates (c : RenameConfig) (i : RenameInst) (ds : List (RegId × ℕ))
    (k : RegClassType) : ℕ :=
  if i.bypassed c then 0 else ds.countP (·.1.regClass = k)

/-- The buffer can be renamed with `free k` free registers of each class: every instruction finds
what it has counted and what it takes. -/
def Affords (c : RenameConfig) : (RegClassType → ℕ) → List RenameSlot → Prop
  | _, [] => True
  | free, s :: rest =>
    (∀ k ∈ RegClassType.renamed,
      s.numTypedDestRegs k ≤ free k ∧ s.inst.allocates c s.inst.destRegs k ≤ free k) ∧
    Affords c (fun k => free k - s.inst.allocates c s.inst.destRegs k) rest

theorem Affords.mono {c : RenameConfig} {free free' : RegClassType → ℕ} {slots : List RenameSlot}
    (hle : ∀ k ∈ renamed, free k ≤ free' k) (h : Affords c free slots) : Affords c free' slots := by
  induction slots generalizing free free' with
  | nil => trivial
  | cons s rest ih =>
    obtain ⟨hs, hrest⟩ := h
    refine ⟨?_, ?_⟩
    · intro k hk
      obtain ⟨h₁, h₂⟩ := hs k hk
      have := hle k hk
      exact ⟨by omega, by omega⟩
    · apply ih ?_ hrest
      intro k hk
      have := hle k hk
      omega

theorem VirtRegId.fold_isSome (v : VirtRegId) (imm : ℤ) : (v.fold imm).reg.isSome = true := by
  unfold VirtRegId.fold
  split <;> rfl

namespace RenameStage
variable {n : ℕ} {c : RenameConfig} {tid : Fin n}

theorem bypassReg_isSome (st : RenameStage n) (inst : RenameInst) :
    (st.bypassReg c tid inst).reg.isSome = inst.bypassed c := by
  unfold bypassReg bypassed
  split_ifs with hmov hadd
  · simp [hmov]
  · rw [VirtRegId.fold_isSome, hadd, Bool.or_true]
  · simp only [not_eq_true] at hmov hadd
    rw [hmov, hadd]
    rfl

def taken (bypass : Option VirtRegId) (d : RegId) (k : RegClassType) : ℕ :=
  if bypass.isSome then 0 else if d.regClass = k then 1 else 0

variable {d : RegId} {st st' : RenameStage n} {ds : List (RegId × ℕ)}

theorem renameable_of_class {k : RegClassType} (hk : k ∈ renamed) (hd : d.regClass = k) :
    d.isRenameable = true := isRenameable_iff.2 (hd ▸ hk)

theorem rename_ok (st : RenameStage n) (tid : Fin n) (d : RegId) (bypass : Option VirtRegId)
    (hfree : ∀ k ∈ renamed, taken bypass d k ≤ st.numFreeEntries k) :
    ∃ new prev st', st.rename tid d 0 bypass = .ok (new, prev, st') := by
  by_cases hd : d.isRenameable = true
  · cases bypass with
    | some v => simp [rename, hd]
    | none =>
      by_cases hpin : 0 < st.numPinnedWrites (st.map (tid, d)).phyReg
      · simp [rename, hd, hpin]
      · have hlen := hfree d.regClass (isRenameable_iff.1 hd)
        simp only [taken] at hlen
        cases hps : st.freeRegs d.regClass with
        | nil => simp [numFreeEntries, hps] at hlen
        | cons p ps => exact ⟨_, _, _, rename_fresh tid d 0 hd (by omega) hps⟩
  · simp [rename, hd]

theorem rename_free {bypass : Option VirtRegId} {new prev : VirtRegId}
    (h : st.rename tid d 0 bypass = .ok (new, prev, st')) : (∀ k ∈ renamed,
      st.numFreeEntries k ≤ st'.numFreeEntries k + taken bypass d k) ∧
    ((∀ p, st.numPinnedWrites p = 0) → (∀ p, st'.numPinnedWrites p = 0) ∧ ∀ k ∈ renamed,
        st'.numFreeEntries k + taken bypass d k = st.numFreeEntries k) := by
  cases rename_renamedBy h with
  | fixed bypass hd =>
    refine ⟨fun k _ => Nat.le_add_right _ _, fun hp => ⟨hp, ?_⟩⟩
    intro k hk
    have hne : d.regClass ≠ k := by
      intro hclass
      rw [renameable_of_class hk hclass] at hd
      cases hd
    simp [taken, hne]
  | shared _ hd =>
    simp only [numFreeEntries, taken, freeRegs_setEntry, numPinnedWrites_setEntry,
      Option.isSome_some]
    split_ifs
    · exact ⟨fun k _ => le_rfl, fun hp => ⟨hp, fun k _ => rfl⟩⟩
    · exact ⟨fun k _ => le_rfl, fun hp => ⟨hp, fun k _ => rfl⟩⟩
  | pinned hd j hpin =>
    refine ⟨fun k _ => Nat.le_add_right _ _, fun hp => ?_⟩
    rw [hp] at hpin
    omega
  | fresh hd hfree =>
    rename_i p ps
    have hcount : ∀ k, (update st.freeRegs d.regClass ps k).length + taken none d k =
        (st.freeRegs k).length := by
      intro k
      by_cases hk : d.regClass = k
      · subst hk
        simp [taken, hfree]
      · have hne : k ≠ d.regClass := fun h => hk h.symm
        simp [taken, hk, update_of_ne hne]
    have hlen : ∀ k, (((((st.setFree d.regClass ps).incRef p).setEntry tid d
        (.of p)).setNumPinnedWrites p 0).numFreeEntries k) + taken none d k =
        st.numFreeEntries k := by
      intro k
      simp only [numFreeEntries, setNumPinnedWrites, freeRegs_setEntry, incRef, setFree]
      exact hcount k
    refine ⟨fun k _ => (hlen k).ge, fun hp => ⟨?_, fun k _ => hlen k⟩⟩
    intro q
    simp only [setNumPinnedWrites, numPinnedWrites_setEntry, incRef, setFree]
    by_cases hq : q = p
    · rw [hq, update_self]
    · rw [update_of_ne hq, hp]

theorem allocates_cons (inst : RenameInst) (d : RegId) (ds : List (RegId × ℕ)) (k : RegClassType)
    (st : RenameStage n) (tid : Fin n) : inst.allocates c ((d, 0) :: ds) k =
      taken (st.bypassReg c tid inst).reg d k + inst.allocates c ds k := by
  unfold allocates taken
  rw [bypassReg_isSome]
  cases inst.bypassed c with
  | true => rfl
  | false =>
    simp only [countP_cons, decide_eq_true_eq]
    exact Nat.add_comm _ _

theorem renameDests_ok (tid : Fin n) (inst : RenameInst) (hds : ∀ d ∈ ds, d.2 = 0)
    (st : RenameStage n) (hfree : ∀ k ∈ renamed, inst.allocates c ds k ≤ st.numFreeEntries k) :
    ∃ r, renameDests c tid inst ds st = .ok r := by
  induction ds generalizing st with
  | nil => exact ⟨_, rfl⟩
  | cons d ds ih =>
    obtain ⟨d, pins⟩ := d
    obtain rfl : pins = 0 := hds _ mem_cons_self
    have hcons (k : RegClassType) := allocates_cons (c := c) inst d ds k st tid
    obtain ⟨new, prev, st₁, hren⟩ := rename_ok st tid d (st.bypassReg c tid inst).reg
      (fun k hk => by have := hfree k hk; rw [hcons] at this; omega)
    have hleft := (rename_free hren).1
    obtain ⟨r, hr⟩ := ih (fun e he => hds e (mem_cons_of_mem _ he))
      (st₁.setHistory tid (⟨inst.seqNum, d, new, prev⟩ :: st₁.historyBuffer tid)) (by
        intro k hk
        have h₁ := hfree k hk
        have h₂ := hleft k hk
        rw [hcons] at h₁
        show _ ≤ st₁.numFreeEntries k
        omega)
    rw [renameDests, hren]
    dsimp only
    rw [hr]
    exact ⟨_, rfl⟩

theorem renameDests_free {inst : RenameInst} (hds : ∀ d ∈ ds, d.2 = 0) {news : List VirtRegId}
    {eliminated : Bool} (h : renameDests c tid inst ds st = .ok (news, eliminated, st')) :
    (∀ k ∈ renamed, st.numFreeEntries k ≤ st'.numFreeEntries k + inst.allocates c ds k) ∧
    ((∀ p, st.numPinnedWrites p = 0) → (∀ p, st'.numPinnedWrites p = 0) ∧ ∀ k ∈ renamed,
        st'.numFreeEntries k + inst.allocates c ds k = st.numFreeEntries k) := by
  induction ds generalizing st news eliminated with
  | nil =>
    cases h
    have hnil : ∀ k, inst.allocates c [] k = 0 := by
      intro k
      simp [allocates]
    exact ⟨fun k _ => Nat.le_add_right _ _, fun hp => ⟨hp, fun k _ => by rw [hnil]; rfl⟩⟩
  | cons d ds ih =>
    obtain ⟨d, pins⟩ := d
    obtain rfl : pins = 0 := hds _ mem_cons_self
    have hcons (k : RegClassType) := allocates_cons (c := c) inst d ds k st tid
    rw [renameDests] at h
    cases hren : st.rename tid d 0 (st.bypassReg c tid inst).reg with
    | error e =>
      rw [hren] at h
      cases h
    | ok res =>
      obtain ⟨new, prev, st₁⟩ := res
      rw [hren] at h
      dsimp only at h
      cases hds' : renameDests c tid inst ds
          (st₁.setHistory tid (⟨inst.seqNum, d, new, prev⟩ :: st₁.historyBuffer tid)) with
      | error e =>
        rw [hds'] at h
        cases h
      | ok res' =>
        obtain ⟨news', eliminated', st₃⟩ := res'
        rw [hds'] at h
        cases h
        obtain ⟨hle, hexact⟩ := rename_free hren
        obtain ⟨hle', hexact'⟩ := ih (fun e he => hds e (mem_cons_of_mem _ he)) hds'
        refine ⟨?_, ?_⟩
        · intro k hk
          have h₁ := hle k hk
          have h₂ : st₁.numFreeEntries k ≤ _ := hle' k hk
          rw [hcons]
          omega
        · intro hp
          obtain ⟨hp₁, h₁⟩ := hexact hp
          obtain ⟨hp₂, h₂⟩ := hexact' hp₁
          refine ⟨hp₂, ?_⟩
          intro k hk
          have h₁ := h₁ k hk
          have h₂ : _ = st₁.numFreeEntries k := h₂ k hk
          rw [hcons]
          omega

end RenameStage

/-! ### The loop over the buffer -/

section
variable {n : ℕ} {c : RenameConfig} {tid : Fin n}

variable {slots : List RenameSlot} {st : RenameStage n}

theorem renameInsts_of_fits (hbuilt : ∀ s ∈ slots, s.Built) (st : RenameStage n)
    (h : Affords c st.numFreeEntries (liveSlots slots)) :
    ∃ done st', renameInsts c tid slots st = .ok (done, st') ∧
      done.map RenamedInst.inst = (liveSlots slots).map inst := by
  induction slots generalizing st with
  | nil => exact ⟨[], st, rfl, rfl⟩
  | cons s rest ih =>
    have hrest : ∀ s ∈ rest, s.Built := fun s hs => hbuilt s (mem_cons_of_mem _ hs)
    cases hsq : s.squashed with
    | true =>
      have hlive : liveSlots (s :: rest) = liveSlots rest := by simp [liveSlots, hsq]
      rw [hlive] at h ⊢
      rw [renameInsts, if_pos hsq]
      exact ih hrest st h
    | false =>
      have hlive : liveSlots (s :: rest) = s :: liveSlots rest := by simp [liveSlots, hsq]
      rw [hlive] at h ⊢
      obtain ⟨hs, htail⟩ := h
      have hpins := (hbuilt s mem_cons_self).pins
      obtain ⟨⟨dests, eliminated, st₁⟩, hren⟩ := RenameStage.renameDests_ok tid s.inst hpins
        st (fun k hk => (hs k hk).2)
      have hleft := (RenameStage.renameDests_free hpins hren).1
      have hcan : st.canRenameInst s = true := by
        simp only [RenameStage.canRenameInst, all_eq_true, decide_eq_true_eq]
        exact fun k hk => (hs k hk).1
      obtain ⟨done, st₂, hdone, hmap⟩ := ih hrest st₁ (htail.mono (by
        intro k hk
        have := hleft k hk
        omega))
      refine ⟨⟨s.inst, st.renameSrcRegs tid s.inst, dests, eliminated⟩ :: done, st₂, ?_, ?_⟩
      · rw [renameInsts, hsq, hcan]
        simp only [false_eq_true, if_false, Bool.not_true, RenameStage.renameDestRegs, hren, hdone]
      · rw [map_cons, map_cons, hmap]

theorem fits_of_renameInsts (hbuilt : ∀ s ∈ slots, s.Built) {st' : RenameStage n}
    {done : List RenamedInst} (hp : ∀ p, st.numPinnedWrites p = 0)
    (h : renameInsts c tid slots st = .ok (done, st')) :
    Affords c st.numFreeEntries (liveSlots slots) := by
  induction slots generalizing st st' done with
  | nil => trivial
  | cons s rest ih =>
    have hrest : ∀ s ∈ rest, s.Built := fun s hs => hbuilt s (mem_cons_of_mem _ hs)
    cases hsq : s.squashed with
    | true =>
      have hlive : liveSlots (s :: rest) = liveSlots rest := by simp [liveSlots, hsq]
      rw [renameInsts, if_pos hsq] at h
      rw [hlive]
      exact ih hrest hp h
    | false =>
      have hlive : liveSlots (s :: rest) = s :: liveSlots rest := by simp [liveSlots, hsq]
      rw [hlive]
      rw [renameInsts, hsq] at h
      cases hcan : st.canRenameInst s with
      | false => simp [hcan] at h
      | true =>
        simp only [hcan] at h
        simp only [RenameStage.canRenameInst, all_eq_true, decide_eq_true_eq] at hcan
        cases hren : st.renameDestRegs c tid s.inst with
        | error e => simp [hren] at h
        | ok res =>
          obtain ⟨dests, eliminated, st₁⟩ := res
          simp only [hren] at h
          cases hdone : renameInsts c tid rest st₁ with
          | error e => simp [hdone] at h
          | ok res' =>
            obtain ⟨done', st₂⟩ := res'
            have hpins := (hbuilt s mem_cons_self).pins
            obtain ⟨hp₁, hexact⟩ := (RenameStage.renameDests_free hpins hren).2 hp
            refine ⟨?_, ?_⟩
            · intro k hk
              have := hexact k hk
              exact ⟨hcan k hk, by omega⟩
            · apply (ih hrest hp₁ hdone).mono
              intro k hk
              have := hexact k hk
              omega

def tightStage (n renameWidth : ℕ) (slots : List RenameSlot) : RenameStage n where
  map := fun _ => .invalid
  freeRegs k := (List.range (raisedDemand renameWidth slots k)).map (⟨k, ·⟩)
  numRef := fun _ => 0
  numPinnedWrites := fun _ => 0
  historyBuffer := fun _ => []

theorem numFreeEntries_tightStage (n renameWidth : ℕ) (slots : List RenameSlot) (k : RegClassType) :
    (tightStage n renameWidth slots).numFreeEntries k = raisedDemand renameWidth slots k := by
  simp [tightStage, RenameStage.numFreeEntries]

/-- **When the resource check suffices.**  For a buffer as the constructors fill it: in every state
in which the check passes, every live instruction is renamed, without an empty free list and
without a failed assertion, exactly if the buffer fits what the check asks for. -/
theorem canRename_sufficient_iff (c : RenameConfig) (tid : Fin n) (renameWidth : ℕ)
    (slots : List RenameSlot) (hbuilt : ∀ s ∈ slots, s.Built) :
    (∀ st : RenameStage n, st.canRename renameWidth slots = true →
      ∃ done st', renameInsts c tid slots st = .ok (done, st') ∧
        done.map RenamedInst.inst = (liveSlots slots).map RenameSlot.inst) ↔
    Affords c (raisedDemand renameWidth slots) (liveSlots slots) := by
  constructor
  · intro h
    obtain ⟨done, st', hren, -⟩ := h (tightStage n renameWidth slots) (by
      simp only [RenameStage.canRename, all_eq_true, decide_eq_true_eq,
        numFreeEntries_tightStage]
      exact fun k _ => le_rfl)
    apply (fits_of_renameInsts hbuilt (fun _ => rfl) hren).mono
    intro k _
    exact (numFreeEntries_tightStage n renameWidth slots k).le
  · intro h st hcan
    simp only [RenameStage.canRename, all_eq_true, decide_eq_true_eq] at hcan
    exact renameInsts_of_fits hbuilt st (h.mono hcan)

end

/-! ### A load pair whose second load writes `x0` -/

def lwPairs : List RenameSlot := (List.range 5).map fun i => .fused false i lwPair

def RenameConfig.noElimination : RenameConfig := ⟨fun _ => 32, fun _ => 64, false, false, false⟩

/-- Decode builds the pair; it has counted one destination and takes two registers, the second for
the base of the loads.  With five of them and eight free registers, the check of a rename stage of
width eight passes; no register is left for the fifth, whose own assertion fails. -/
theorem lwPairs_exhaust :
    lookup lwX5 lwX0 = some (.seqLd "lwlw" 8 (.adjacent 4)) ∧
    (FuseCreator.seqLd "lwlw" 8 (.adjacent 4)).create lwX5 lwX0 = .ok (some lwPair) ∧
    lwPair.operands.destRegs = [intReg 5, RegId.invalid, intReg 10] ∧
    (tightStage 1 8 lwPairs).canRename 8 lwPairs = true ∧
    renameInsts .noElimination 0 lwPairs (tightStage 1 8 lwPairs) =
      .error "assert(renameMap[tid]->canRename(inst))" :=
  ⟨rfl, rfl, by decide, by decide, rfl⟩

/-- One of them alone takes two of eight registers. -/
theorem lwPair_alone_renamed :
    (∀ s ∈ [RenameSlot.fused false 0 lwPair], s.Built) ∧
    ∃ done st', renameInsts .noElimination 0 [.fused false 0 lwPair]
        (tightStage 1 8 [.fused false 0 lwPair]) = .ok (done, st') ∧
      done.map RenamedInst.inst = [(RenameSlot.fused false 0 lwPair).inst] := by
  have hbuilt : ∀ s ∈ [fused false 0 lwPair], s.Built := by
    intro s hs
    rw [mem_singleton.1 hs]
    exact .fused false 0 lwPair
  refine ⟨hbuilt, (canRename_sufficient_iff .noElimination 0 8 _ hbuilt).2 ⟨?_, trivial⟩ _ ?_⟩
  · decide
  · decide

end Gem5
