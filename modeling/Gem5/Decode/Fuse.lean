import Gem5.Fusion.Table

/-!
# The fusion paths of decode

`checkAndFuseInsts` (a pair), `checkAndFuseTriple` and `checkAndFuseNonConsec` of
`cpu/o3/decode.cc`.  `vec` is the list of instructions already decoded in this cycle, in program
order; the next instruction from fetch is `cur`.  Statistics and the list of in-flight instructions
are left out.
-/

namespace Gem5
open List

/-! ### Instructions inside decode -/

inductive DynInst
  | plain (i : Inst)
  | fused (info : DynInfo) (f : FusionInst)

namespace DynInst
def info : DynInst → DynInfo
  | plain i => i.toDynInfo
  | fused info _ => info

def parts : DynInst → List Inst
  | plain i => [i]
  | fused _ f => f.parts

def srcRegs : DynInst → List RegId
  | plain i => i.srcRegs
  | fused _ f => f.srcRegs

def destRegs : DynInst → List RegId
  | plain i => i.destRegs
  | fused _ f => f.destRegs

def flags : DynInst → Flags
  | plain i => i.flags
  | fused _ f => f.flags

def opClass : DynInst → OpClass
  | plain i => i.opClass
  | fused _ f => f.opClass

def isFusion : DynInst → Bool
  | plain _ => false
  | fused _ _ => true

def srcRegIdx : DynInst → ℕ → RegId
  | plain i, k => i.srcRegIdx k
  | fused _ f, k => f.srcRegs.getD k RegId.invalid

def destRegIdx (d : DynInst) (k : ℕ) : RegId := d.destRegs.getD k RegId.invalid

def getPC (d : DynInst) : Addr := d.info.pcState.pc
def getNPC (d : DynInst) : Addr := d.info.pcState.npc
def faulted (d : DynInst) : Bool := d.info.faulted
def isLoad (d : DynInst) : Bool := d.flags.isLoad
def isControl (d : DynInst) : Bool := d.flags.isControl

def lookup (d : DynInst) (cur : Inst) : Option (Inst × FuseCreator) :=
  match d with
  | plain x => (Gem5.lookup x cur).map (x, ·)
  | fused _ _ => none

theorem lookup_eq_some {d : DynInst} {cur x : Inst} {c : FuseCreator}
    (h : d.lookup cur = some (x, c)) : d = plain x ∧ Gem5.lookup x cur = some c := by
  cases d with
  | plain i =>
    obtain ⟨c', hc, heq⟩ := Option.map_eq_some_iff.1 h
    cases heq
    exact ⟨rfl, hc⟩
  | fused info f => cases h

/-- The dynamic instruction that decode makes for a fused one: the pc of the first part, the next
pc and the predicted target of the last. -/
def mkFused (first last : Inst) (f : FusionInst) : DynInst :=
  fused
    { pcState := (PCState.empty.set first.getPC).setNPC last.getNPC
      predPC := last.predPC
      predTaken := false
      seqNum := first.seqNum
      threadNumber := last.threadNumber
      squashed := false
      faulted := false
      version := last.version
      ftqId := last.ftqId
      loopIteration := last.loopIteration
      fallThruPC := last.fallThruPC
      traceCtrlFlowChange := false
      traceBranchTarget := none
      traceBranchNextPC := none } f

variable (first last : Inst) (f : FusionInst)

@[simp] theorem getPC_mkFused : (mkFused first last f).getPC = first.getPC := rfl

@[simp] theorem getNPC_mkFused : (mkFused first last f).getNPC = last.getNPC := rfl

@[simp] theorem parts_mkFused : (mkFused first last f).parts = f.parts := rfl

end DynInst

open DynInst

/-! ### Configuration and the ignore window -/

structure DecodeConfig where
  decodeWidth : ℕ
  enableLoadFusion : Bool
  enableAbrFusion : Bool
  enableMACFusion : Bool
  clockPeriod : ℕ
  isTraceMode : Bool

def DecodeConfig.full : DecodeConfig := ⟨8, true, true, true, 500, false⟩

def keepIgnoreFusionCycles : ℕ := 10

/-- `ticksToCycles`: the division rounds up. -/
def DecodeConfig.ticksToCycles (c : DecodeConfig) (t : ℕ) : ℕ :=
  (t + c.clockPeriod - 1) / c.clockPeriod

structure IgnoreWindow where
  ignoreFusionPC : Addr
  lastSetIgnoreTick : ℕ
  deriving DecidableEq, Repr

namespace IgnoreWindow
def closed : IgnoreWindow := ⟨0, 0⟩

/-- `setIgnoreNextFusion(pc)` at tick `now`. -/
def setIgnoreNextFusion (pc : Addr) (now : ℕ) : IgnoreWindow := ⟨pc, now⟩

/-- The test of `checkAndFuseInsts`; the sum wraps around. -/
def covers (w : IgnoreWindow) (pc : Addr) : Bool :=
  w.ignoreFusionPC ≤ pc && pc < w.ignoreFusionPC + 8

def expired (w : IgnoreWindow) (c : DecodeConfig) (now : ℕ) : Bool :=
  keepIgnoreFusionCycles < c.ticksToCycles (now - w.lastSetIgnoreTick)

def hit (w : IgnoreWindow) (c : DecodeConfig) (now : ℕ) : IgnoreWindow :=
  if w.expired c now then { w with ignoreFusionPC := 0 } else w

end IgnoreWindow

/-! ### Pairs -/

def fuseWith (creator : FuseCreator) (w : IgnoreWindow) (vec : List DynInst) (x cur : Inst) :
    Except String (IgnoreWindow × Option (List DynInst × DynInst)) :=
  match creator.create x cur with
  | .error e => .error e
  | .ok none => .ok (w, none)
  | .ok (some f) => .ok (w, some (vec.dropLast, .mkFused x cur f))

/-- `checkAndFuseInsts`: the window, and, if the pair was fused, `vec` without its last
instruction and the fused one. -/
def checkAndFuseInsts (c : DecodeConfig) (now : ℕ) (w : IgnoreWindow) (vec : List DynInst)
    (cur : Inst) : Except String (IgnoreWindow × Option (List DynInst × DynInst)) :=
  match vec.getLast? with
  | none => .ok (w, none)
  | some back =>
    if back.faulted || cur.faulted then .ok (w, none)
    else if !c.enableLoadFusion && (back.isLoad || cur.flags.isLoad) then .ok (w, none)
    -- aggressive param: disables all fusion for a trailing control instruction
    else if !c.enableAbrFusion && cur.flags.isControl then .ok (w, none)
    else if !c.enableMACFusion && back.opClass == .intMult then .ok (w, none)
    -- ignore fusion for this pc range
    else if w.covers back.getPC then .ok (w.hit c now, none)
    else
      match back.lookup cur with
      | none => .ok (w, none)
      | some (x, creator) => fuseWith creator w vec x cur

theorem checkAndFuseInsts_cases (c : DecodeConfig) (now : ℕ) (w : IgnoreWindow)
    (vec : List DynInst) (cur : Inst) :
    (∃ w', (w' = w ∨ w' = w.hit c now) ∧ checkAndFuseInsts c now w vec cur = .ok (w', none)) ∨
    (∃ x creator, vec.getLast? = some (.plain x) ∧ x.faulted = false ∧ cur.faulted = false ∧
      w.covers x.getPC = false ∧ lookup x cur = some creator ∧
      checkAndFuseInsts c now w vec cur = fuseWith creator w vec x cur) := by
  unfold checkAndFuseInsts
  split
  · exact .inl ⟨w, .inl rfl, rfl⟩
  · rename_i back hback
    split_ifs with h₁ h₂ h₃ h₄ h₅
    · exact .inl ⟨w, .inl rfl, rfl⟩
    · exact .inl ⟨w, .inl rfl, rfl⟩
    · exact .inl ⟨w, .inl rfl, rfl⟩
    · exact .inl ⟨w, .inl rfl, rfl⟩
    · exact .inl ⟨_, .inr rfl, rfl⟩
    · split
      · exact .inl ⟨w, .inl rfl, rfl⟩
      · rename_i x creator hlook
        obtain ⟨rfl, hrow⟩ := lookup_eq_some hlook
        rw [Bool.or_eq_true, not_or, Bool.not_eq_true, Bool.not_eq_true] at h₁
        exact .inr ⟨x, creator, hback, h₁.1, h₁.2, Bool.eq_false_iff.2 h₅, hrow, rfl⟩

variable {creator : FuseCreator} {w w' : IgnoreWindow} {vec vec' gap pre : List DynInst}
  {x cur : Inst} {d : DynInst} {c : DecodeConfig} {now : ℕ}

theorem fuseWith_fused (h : fuseWith creator w vec x cur = .ok (w', some (vec', d))) :
    ∃ f, creator.create x cur = .ok (some f) ∧ w' = w ∧ vec' = vec.dropLast ∧
      d = .mkFused x cur f := by
  unfold fuseWith at h
  split at h
  · cases h
  · cases h
  · rename_i f hf
    obtain ⟨rfl, rfl, rfl⟩ := h
    exact ⟨f, hf, rfl, rfl, rfl⟩

theorem checkAndFuseInsts_fused (h : checkAndFuseInsts c now w vec cur = .ok (w', some (vec', d))) :
    ∃ x creator f, vec = vec' ++ [.plain x] ∧ lookup x cur = some creator ∧
      creator.create x cur = .ok (some f) ∧ d = .mkFused x cur f ∧ w' = w ∧
      w.covers x.getPC = false := by
  rcases checkAndFuseInsts_cases c now w vec cur with
    ⟨w'', -, heq⟩ | ⟨x, creator, hback, -, -, hw, hlook, heq⟩
  · rw [heq] at h
    cases h
  · rw [heq] at h
    obtain ⟨f, hf, rfl, rfl, rfl⟩ := fuseWith_fused h
    exact ⟨x, creator, f, (dropLast_append_getLast? _ hback).symm, hlook, hf, rfl, rfl, hw⟩

theorem checkAndFuseInsts_window {r : Option (List DynInst × DynInst)}
    (h : checkAndFuseInsts c now w vec cur = .ok (w', r)) : w' = w ∨ w' = w.hit c now := by
  rcases checkAndFuseInsts_cases c now w vec cur with
    ⟨w'', hw, heq⟩ | ⟨x, creator, -, -, -, -, -, heq⟩
  · rw [heq] at h
    cases h
    exact hw
  · rw [heq] at h
    unfold fuseWith at h
    split at h <;> cases h
    · exact .inl rfl
    · exact .inl rfl

theorem IgnoreWindow.not_covers_succ (pc : Addr) (t : ℕ) :
    IgnoreWindow.covers ⟨pc + 1, t⟩ pc = false := by
  simp only [IgnoreWindow.covers, Bool.and_eq_false_iff, decide_eq_false_iff_not]
  bv_omega

theorem checkAndFuseInsts_full (now : ℕ) (hx : x.faulted = false) (hcur : cur.faulted = false)
    (hw : w.covers x.getPC = false) (hlook : lookup x cur = some creator) :
    checkAndFuseInsts .full now w [.plain x] cur = fuseWith creator w [.plain x] x cur := by
  have hback : (plain x).faulted = false := hx
  have hpc : (plain x).getPC = x.getPC := rfl
  simp [checkAndFuseInsts, hback, hcur, DecodeConfig.full, hpc, hw, DynInst.lookup, hlook]

/-! ### Triples -/

/-- `checkAndFuseTriple`: `vec` without its last instruction, the fused one, and `pending` without
its first. -/
def checkAndFuseTriple (c : DecodeConfig) (vec : List DynInst) (cur : Inst)
    (pending : List Inst) : Except String (Option (List DynInst × DynInst × List Inst)) :=
  match vec.getLast?, pending with
  | some back, third :: pending' =>
    if !c.enableLoadFusion then .ok none
    else if back.faulted || cur.faulted || third.faulted then .ok none
    else
      match back with
      | .fused _ _ => .ok none
      | .plain x =>
        match lookup3 x cur third with
        | none => .ok none
        | some creator =>
          match creator.create x cur third with
          | .error e => .error e
          | .ok none => .ok none
          | .ok (some f) => .ok (some (vec.dropLast, .mkFused x third f, pending'))
  | _, _ => .ok none

theorem checkAndFuseTriple_fused {pending pending' : List Inst}
    (h : checkAndFuseTriple c vec cur pending = .ok (some (vec', d, pending'))) :
    ∃ x z creator f, vec = vec' ++ [.plain x] ∧ pending = z :: pending' ∧
      lookup3 x cur z = some creator ∧ creator.create x cur z = .ok (some f) ∧
      d = .mkFused x z f := by
  unfold checkAndFuseTriple at h
  split at h
  · rename_i back third rest hback
    split_ifs at h with h₁ h₂ <;> try cases h
    cases back with
    | fused info g => cases h
    | plain x =>
      dsimp only at h
      split at h
      · cases h
      · rename_i creator hlook
        split at h
        · cases h
        · cases h
        · rename_i f hf
          obtain ⟨rfl, rfl, rfl⟩ := h
          have hvec := dropLast_append_getLast? _ hback
          exact ⟨x, third, creator, f, hvec.symm, rfl, hlook, hf, rfl⟩
  · cases h

/-! ### Non-consecutive loads -/

/-- The instruction between head and tail that stops the search: control flow, a write of the
tail's base or destination, or a read of the tail's destination. -/
def DynInst.blocks (g : DynInst) (cur : Inst) : Bool :=
  g.isControl ||
    g.destRegs.any (fun r => r = cur.srcRegIdx 0 || r = cur.destRegIdx 0) ||
    g.srcRegs.any (fun r => r = cur.destRegIdx 0)

/-- The walk of `checkAndFuseNonConsec` from the instruction before `gap` backwards (the list is
reversed): the instructions before the head, the fused one, and the gap. -/
def walkNonConsec (cur : Inst) : List DynInst → List DynInst →
    Except String (Option (List DynInst × DynInst × List DynInst))
  | [], _ => .ok none
  | cand :: before, gap =>
    if cand.faulted then .ok none
    else if cand.blocks cur then .ok none
    else if !cand.isLoad then walkNonConsec cur before (cand :: gap)
    -- SeqLoad prerequisite: same base register.
    else if cand.srcRegIdx 0 ≠ cur.srcRegIdx 0 then walkNonConsec cur before (cand :: gap)
    -- Head must not overwrite its own base (prevents ld x2,0(x2) style).
    else if cand.destRegIdx 0 = cand.srcRegIdx 0 then walkNonConsec cur before (cand :: gap)
    else
      match cand.lookup cur with
      | none => walkNonConsec cur before (cand :: gap)
      | some (x, creator) =>
        match creator.create x cur with
        | .error e => .error e
        | .ok none => walkNonConsec cur before (cand :: gap)
        | .ok (some f) => .ok (some (before.reverse, .mkFused x cur f, gap))

def checkAndFuseNonConsec (c : DecodeConfig) (vec : List DynInst) (cur : Inst) :
    Except String (Option (List DynInst × DynInst × List DynInst)) :=
  if !c.enableLoadFusion then .ok none
  else if cur.faulted || !cur.flags.isLoad then .ok none
  else if vec.length < 2 then .ok none
  -- Also reject if tail writes to its own base.
  else if cur.destRegIdx 0 = cur.srcRegIdx 0 then .ok none
  else
    match vec.reverse with
    | [] => .ok none
    | back :: before => if back.blocks cur then .ok none else walkNonConsec cur before [back]

/-- A head `x` for the tail `cur` in a list of decoded instructions: it is a load, the table admits
the pair, and neither the head nor the gap behind it blocks. -/
structure NonConsec (cur x : Inst) (list pre gap : List DynInst) (d : DynInst) : Prop where
  split : list = pre ++ .plain x :: gap
  clear : ∀ g ∈ gap, g.blocks cur = false
  head : (DynInst.plain x).blocks cur = false
  load : x.flags.isLoad = true
  created : ∃ creator f, lookup x cur = some creator ∧ creator.create x cur = .ok (some f) ∧
    d = .mkFused x cur f

theorem walkNonConsec_fused {rev gap' : List DynInst} (hgap : ∀ g ∈ gap, g.blocks cur = false)
    (h : walkNonConsec cur rev gap = .ok (some (pre, d, gap'))) :
    ∃ x, NonConsec cur x (rev.reverse ++ gap) pre gap' d ∧ gap <:+ gap' := by
  induction rev generalizing gap with
  | nil => cases h
  | cons cand before ih =>
    -- going on with `cand` in the gap
    have hnext (hb : ¬cand.blocks cur = true)
        (h : walkNonConsec cur before (cand :: gap) = .ok (some (pre, d, gap'))) :
        ∃ x, NonConsec cur x ((cand :: before).reverse ++ gap) pre gap' d ∧ gap <:+ gap' := by
      have hgap' : ∀ g ∈ cand :: gap, g.blocks cur = false :=
        forall_mem_cons.2 ⟨by simpa using hb, hgap⟩
      obtain ⟨x, hx, hsuf⟩ := ih hgap' h
      exact ⟨x, by simpa using hx, (suffix_cons cand gap).trans hsuf⟩
    unfold walkNonConsec at h
    split_ifs at h with h₁ h₂ h₃ h₄ h₅ <;> try cases h
    · exact hnext h₂ h
    · exact hnext h₂ h
    · exact hnext h₂ h
    · split at h
      · exact hnext h₂ h
      · rename_i x creator hlook
        obtain ⟨rfl, hrow⟩ := lookup_eq_some hlook
        split at h
        · cases h
        · exact hnext h₂ h
        · rename_i f hf
          obtain ⟨rfl, rfl, rfl⟩ := h
          have hload : x.flags.isLoad = true := by
            simpa [isLoad, flags] using h₃
          exact ⟨x, ⟨by simp, hgap, by simpa using h₂, hload, creator, f, hrow, hf, rfl⟩,
            suffix_rfl⟩

theorem checkAndFuseNonConsec_fused
    (h : checkAndFuseNonConsec c vec cur = .ok (some (pre, d, gap))) :
    ∃ x, NonConsec cur x vec pre gap d ∧ gap ≠ [] ∧ cur.destRegIdx 0 ≠ cur.srcRegIdx 0 := by
  unfold checkAndFuseNonConsec at h
  split_ifs at h with h₁ h₂ h₃ h₄ <;> try cases h
  split at h
  · cases h
  · rename_i back before hrev
    split_ifs at h with hb <;> try cases h
    have hgap : ∀ g ∈ [back], g.blocks cur = false := by
      intro g hg
      rw [mem_singleton.1 hg]
      simpa using hb
    obtain ⟨x, hx, hsuf⟩ := walkNonConsec_fused hgap h
    have hvec : vec = before.reverse ++ [back] := by
      rw [← reverse_reverse vec, hrev, reverse_cons]
    refine ⟨x, hvec ▸ hx, ?_, h₄⟩
    rintro rfl
    simpa using hsuf.length_le

end Gem5
