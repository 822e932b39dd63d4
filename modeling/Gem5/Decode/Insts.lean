import Gem5.Lib.Loop
import Gem5.Decode.Fuse

/-!
# `decodeInsts`

The loop of decode over the instructions from fetch.  A round takes the next instruction, tries the
three fusion paths in turn, puts the result into the list for rename, and checks the prediction of
what it has put there; a wrong prediction ends the loop and clears the buffer.

Stall reasons, statistics and the buffers of the other threads are left out.
-/

namespace Gem5
open DynInst List Loop

/-! ### Predictions -/

/-- `start_equals`: the same pc and micro-pc. -/
def PCState.startEquals (s t : PCState) : Bool := s.pc = t.pc && s.upc = t.upc

def PCState.equals (s t : PCState) : Bool :=
  s.startEquals t && s.npc = t.npc && s.nupc = t.nupc

/-- `StaticInst::branchTarget`: the direct branches and jumps override it. -/
def StaticInst.branchTarget (si : StaticInst) (pc : Addr) : Except String PCState :=
  if si.flags.isDirectCtrl then .ok (PCState.empty.set (pc + BitVec.ofInt 64 si.getImm))
  else .error "StaticInst::branchTarget() called on instruction that is not a PC-relative branch."

/-- `getSecondInst()`. -/
def FusionInst.second : FusionInst → Inst
  | chain _ _ _ second _ | aluBr _ _ second _ | macc _ _ _ second _ _ => second
  | aluLoad _ _ _ _ second _ _ _ | seqLoad _ _ _ _ second _ _ _ _ => second
  | slliAddLoad _ _ _ _ second _ _ _ _ => second

namespace DynInst

/-- `setPredTaken` and `setPredTarg`. -/
def setPred (d : DynInst) (taken : Bool) (targ : PCState) : DynInst :=
  match d with
  | plain i => plain { i with predTaken := taken, predPC := targ }
  | fused info f => fused { info with predTaken := taken, predPC := targ } f

def branchTarget (d : DynInst) : Except String PCState :=
  match d.info.traceBranchTarget with
  | some target => .ok (PCState.empty.set target)
  | none =>
    match d with
    | plain i => i.staticInst.branchTarget i.getPC
    | fused _ _ => .error
      "StaticInst::branchTarget() called on instruction that is not a PC-relative branch."

def ctrlInst : DynInst → DynInst
  | plain i => plain i
  | fused _ f => plain f.second

/-- `pcState().set(pcState().getFallThruPC())`. -/
def fallThru (d : DynInst) : PCState := d.info.pcState.set d.info.pcState.getFallThruPC

end DynInst

structure DecodeSquash where
  doneSeqNum : ℕ
  nextPC : PCState
  branchTaken : Bool
  deriving DecidableEq, Repr

def selfSquash (inst : DynInst) : Except String DecodeSquash :=
  let ctrl := inst.ctrlInst
  let nextPC :=
    if ctrl.isControl then
      -- if it is return, the target must have already been set in pred target now
      if !ctrl.flags.isReturn then ctrl.branchTarget else .ok ctrl.info.predPC
    else .ok ctrl.fallThru
  nextPC.map fun pc =>
    ⟨inst.info.seqNum, pc, inst.info.predTaken || inst.flags.isUncondCtrl⟩

def resolvedTarget (c : DecodeConfig) (inst : DynInst) : Except String PCState :=
  inst.branchTarget.map fun target =>
    match inst.info.traceBranchNextPC with
    | some next =>
      if c.isTraceMode && next ≠ target.pc then { target with pc := next, npc := next + 4 }
      else target
    | none => target

/-- The checks on returns and on non-speculative instructions; `ras` is
`getPreservedReturnAddr`. -/
def checkReturn (ras : DynInst → Addr) (inst : DynInst) :
    Except String (DynInst × Option DecodeSquash) :=
  if inst.flags.isReturn && !inst.flags.isNonSpeculative && !inst.info.predTaken then
    let inst' := inst.setPred true (PCState.empty.set (ras inst))
    (selfSquash inst').map fun q => (inst', some q)
  else if inst.flags.isNonSpeculative && inst.info.predTaken then
    .ok (inst.setPred false inst.fallThru, none)
  else .ok (inst, none)

/-- What decode does about the prediction of an instruction: the instruction with its prediction
corrected and, if decode squashes itself, the redirect. -/
def checkPrediction (c : DecodeConfig) (ras : DynInst → Addr) (inst : DynInst) :
    Except String (DynInst × Option DecodeSquash) :=
  if inst.info.predTaken && !inst.isControl then
    (selfSquash inst).map fun q => (inst, some q)
  else if !(c.isTraceMode && inst.info.traceCtrlFlowChange) && inst.flags.isDirectCtrl &&
      (inst.flags.isUncondCtrl || inst.info.predTaken) then
    match resolvedTarget c inst with
    | .error e => .error e
    | .ok target =>
      let pred := inst.info.predPC
      -- override a useless npc
      let inst' :=
        if target.startEquals pred && !target.equals pred then
          inst.setPred inst.info.predTaken target
        else inst
      if !target.equals inst'.info.predPC then
        (selfSquash inst').map fun q => (inst'.setPred inst'.info.predTaken target, some q)
      else checkReturn ras inst'
  else checkReturn ras inst

namespace DynInst
@[simp] theorem setPred_setPred (d : DynInst) (t t' : Bool) (p p' : PCState) :
    (d.setPred t p).setPred t' p' = d.setPred t' p' := by
  cases d <;> rfl

theorem setPred_self (d : DynInst) : d.setPred d.info.predTaken d.info.predPC = d := by
  cases d <;> rfl

variable (d : DynInst) (t : Bool) (p : PCState)

@[simp] theorem getPC_setPred : (d.setPred t p).getPC = d.getPC := by
  cases d <;> rfl

@[simp] theorem getNPC_setPred : (d.setPred t p).getNPC = d.getNPC := by
  cases d <;> rfl

@[simp] theorem isFusion_setPred : (d.setPred t p).isFusion = d.isFusion := by
  cases d <;> rfl

end DynInst

theorem map_eq_ok {ε α β : Type} {f : α → β} {x : Except ε α} {b : β} (h : x.map f = .ok b) :
    ∃ a, x = .ok a ∧ f a = b := by
  cases x with
  | error e => cases h
  | ok a =>
    cases h
    exact ⟨a, rfl, rfl⟩

variable {ras : DynInst → Addr} {d d' : DynInst} {q : Option DecodeSquash} {c : DecodeConfig}
  {now : ℕ} {w : IgnoreWindow} {vec : List DynInst} {inst : Inst} {pending buffer : List Inst}
  {p : Placement}

theorem checkReturn_setPred (h : checkReturn ras d = .ok (d', q)) : ∃ t p, d' = d.setPred t p := by
  unfold checkReturn at h
  split_ifs at h
  · obtain ⟨r, -, hr⟩ := map_eq_ok h
    cases hr
    exact ⟨_, _, rfl⟩
  · cases h
    exact ⟨_, _, rfl⟩
  · cases h
    exact ⟨_, _, d.setPred_self.symm⟩

theorem checkPrediction_setPred (h : checkPrediction c ras d = .ok (d', q)) :
    ∃ t p, d' = d.setPred t p := by
  unfold checkPrediction at h
  split_ifs at h
  · obtain ⟨r, -, hr⟩ := map_eq_ok h
    cases hr
    exact ⟨_, _, d.setPred_self.symm⟩
  · split at h
    · cases h
    · rename_i target _
      have hinst (b : Bool) : ∃ t p,
          (if b then d.setPred d.info.predTaken target else d) = d.setPred t p := by
        cases b
        · exact ⟨_, _, d.setPred_self.symm⟩
        · exact ⟨_, _, rfl⟩
      obtain ⟨t, p, htp⟩ := hinst (target.startEquals d.info.predPC && !target.equals d.info.predPC)
      simp only [htp] at h
      split_ifs at h
      · obtain ⟨r, -, hr⟩ := map_eq_ok h
        cases hr
        exact ⟨_, _, d.setPred_setPred _ _ _ _⟩
      · obtain ⟨t', p', rfl⟩ := checkReturn_setPred h
        exact ⟨t', p', d.setPred_setPred _ _ _ _⟩
  · exact checkReturn_setPred h

/-! ### The three paths -/

inductive FusePath
  | unfused
  | pair
  | triple
  | nonConsec
  deriving DecidableEq, Repr

/-- Where an instruction went: `insts_available` goes down by `consumed`, and the list for rename is
`before`, the instruction, and `gap`. -/
structure Placement where
  path : FusePath
  consumed : ℕ
  pending : List Inst
  before : List DynInst
  inst : DynInst
  gap : List DynInst
  window : IgnoreWindow

/-- The fusion paths of `decodeInsts`, in their order. -/
def placeInst (c : DecodeConfig) (now : ℕ) (w : IgnoreWindow) (vec : List DynInst) (inst : Inst)
    (pending : List Inst) : Except String Placement :=
  match checkAndFuseTriple c vec inst pending with
  | .error e => .error e
  | .ok (some (vec', d, pending')) => .ok ⟨.triple, 2, pending', vec', d, [], w⟩
  | .ok none =>
    match checkAndFuseInsts c now w vec inst with
    | .error e => .error e
    | .ok (w', some (vec', d)) => .ok ⟨.pair, 1, pending, vec', d, [], w'⟩
    | .ok (w', none) =>
      match checkAndFuseNonConsec c vec inst with
      | .error e => .error e
      -- the fused instruction already sits at the slot of the head
      | .ok (some (pre, d, gap)) => .ok ⟨.nonConsec, 1, pending, pre, d, gap, w'⟩
      | .ok none => .ok ⟨.unfused, 1, pending, vec, .plain inst, [], w'⟩

inductive PlacedBy (w : IgnoreWindow) (vec : List DynInst) (inst : Inst) (pending : List Inst) :
    Placement → Prop
  | unfused (w' : IgnoreWindow) :
      PlacedBy w vec inst pending ⟨.unfused, 1, pending, vec, .plain inst, [], w'⟩
  | pair (w' : IgnoreWindow) {pre : List DynInst} {x : Inst} {f : FusionInst}
      (split : vec = pre ++ [.plain x]) (parts : f.parts = [x, inst])
      (outside : w.covers x.getPC = false) :
      PlacedBy w vec inst pending ⟨.pair, 1, pending, pre, .mkFused x inst f, [], w'⟩
  | triple {pre : List DynInst} {x z : Inst} {f : FusionInst} {pending' : List Inst}
      (split : vec = pre ++ [.plain x]) (buffer : pending = z :: pending')
      (parts : f.parts = [x, inst, z]) :
      PlacedBy w vec inst pending ⟨.triple, 2, pending', pre, .mkFused x z f, [], w⟩
  | nonConsec (w' : IgnoreWindow) {pre gap : List DynInst} {x : Inst} {f : FusionInst}
      (split : vec = pre ++ .plain x :: gap) (gap_ne : gap ≠ []) (parts : f.parts = [x, inst]) :
      PlacedBy w vec inst pending ⟨.nonConsec, 1, pending, pre, .mkFused x inst f, gap, w'⟩

section
variable (h : placeInst c now w vec inst pending = .ok p)
include h

theorem placeInst_placedBy : PlacedBy w vec inst pending p := by
  unfold placeInst at h
  split at h
  · cases h
  · rename_i vec' d pending' htriple
    cases h
    obtain ⟨x, z, creator, f, hvec, hpending, -, hf, rfl⟩ := checkAndFuseTriple_fused htriple
    exact .triple hvec hpending (SlliAddLdCreator.create_parts hf)
  · split at h
    · cases h
    · rename_i w' vec' d hpair
      cases h
      obtain ⟨x, creator, f, hvec, -, hf, rfl, -, hw⟩ := checkAndFuseInsts_fused hpair
      exact .pair w' hvec (FuseCreator.create_parts hf) hw
    · rename_i w' hpair
      split at h
      · cases h
      · rename_i pre d gap hnon
        cases h
        obtain ⟨x, hx, hgap, -⟩ := checkAndFuseNonConsec_fused hnon
        obtain ⟨creator, f, -, hf, rfl⟩ := hx.created
        exact .nonConsec w' hx.split hgap (FuseCreator.create_parts hf)
      · cases h
        exact .unfused w'

theorem placeInst_window : p.window = w ∨ p.window = w.hit c now := by
  unfold placeInst at h
  split at h
  · cases h
  · cases h
    exact .inl rfl
  · split at h
    · cases h
    · rename_i hpair
      cases h
      exact checkAndFuseInsts_window hpair
    · rename_i hpair
      split at h <;> cases h
      · exact checkAndFuseInsts_window hpair
      · exact checkAndFuseInsts_window hpair
end

/-! ### The sites of a list -/

def Inst.site (i : Inst) : PCState × StaticInst := (i.pcState, i.staticInst)

def DynInst.sites (d : DynInst) : List (PCState × StaticInst) := d.parts.map Inst.site

@[simp] theorem DynInst.sites_setPred (d : DynInst) (t : Bool) (p : PCState) :
    (d.setPred t p).sites = d.sites := by
  cases d <;> rfl

theorem DynInst.sites_ne_nil (d : DynInst) : d.sites ≠ [] := by
  cases d with
  | plain i => simp [sites, parts]
  | fused info f => cases f <;> simp [sites, parts, FusionInst.parts]

@[simp] theorem DynInst.parts_plain (i : Inst) : (plain i).parts = [i] := rfl

@[simp] theorem DynInst.sites_plain (i : Inst) : (plain i).sites = [i.site] := rfl

@[simp] theorem DynInst.sites_mkFused (first last : Inst) (f : FusionInst) :
    (mkFused first last f).sites = f.parts.map Inst.site := rfl

section
variable {w : IgnoreWindow} {vec : List DynInst} {inst : Inst} {pending : List Inst}
  {p : Placement}

theorem PlacedBy.consumed_eq (h : PlacedBy w vec inst pending p) :
    p.consumed = if p.path = .triple then 2 else 1 := by
  cases h <;> rfl

theorem PlacedBy.parts (h : PlacedBy w vec inst pending p) :
    ∃ consumed, inst :: pending = consumed ++ p.pending ∧ consumed.length = p.consumed ∧
      ((p.before ++ p.inst :: p.gap).flatMap DynInst.parts).Perm
        (vec.flatMap DynInst.parts ++ consumed) ∧
      (p.path ≠ .nonConsec → (p.before ++ p.inst :: p.gap).flatMap DynInst.parts =
        vec.flatMap DynInst.parts ++ consumed) := by
  cases h with
  | unfused w' => exact ⟨[inst], rfl, rfl, by simp, by simp⟩
  | @pair w' pre x f hvec hparts hw =>
    have heq : (pre ++ [mkFused x inst f]).flatMap DynInst.parts =
        vec.flatMap DynInst.parts ++ [inst] := by
      simp [hvec, hparts]
    exact ⟨[inst], rfl, rfl, heq ▸ Perm.refl _, fun _ => heq⟩
  | @triple pre x z f pending' hvec hbuf hparts =>
    have heq : (pre ++ [mkFused x z f]).flatMap DynInst.parts =
        vec.flatMap DynInst.parts ++ [inst, z] := by
      simp [hvec, hparts]
    exact ⟨[inst, z], by simp [hbuf], rfl, heq ▸ Perm.refl _, fun _ => heq⟩
  | @nonConsec w' pre gap x f hvec hne hparts =>
    refine ⟨[inst], rfl, rfl, ?_, fun hpath => absurd rfl hpath⟩
    simp only [hvec, flatMap_append, flatMap_cons, parts_mkFused, parts_plain, hparts, append_assoc]
    exact (perm_append_comm.cons _).append_left _

theorem flatMap_sites (l : List DynInst) : l.flatMap sites = (l.flatMap parts).map Inst.site :=
  map_flatMap.symm

section
variable (h : PlacedBy w vec inst pending p)
include h

theorem PlacedBy.sites : ∃ consumed, inst :: pending = consumed ++ p.pending ∧
      ((p.before ++ p.inst :: p.gap).flatMap DynInst.sites).Perm
        (vec.flatMap DynInst.sites ++ consumed.map Inst.site) ∧
      (p.path ≠ .nonConsec → (p.before ++ p.inst :: p.gap).flatMap DynInst.sites =
        vec.flatMap DynInst.sites ++ consumed.map Inst.site) := by
  obtain ⟨consumed, hsplit, -, hperm, heq⟩ := h.parts
  simp only [flatMap_sites, ← map_append]
  exact ⟨consumed, hsplit, hperm.map _, fun hpath => congrArg _ (heq hpath)⟩

theorem PlacedBy.splice : ∃ m, vec = p.before ++ (m ++ p.gap) ∧ (∀ e ∈ m, e.isFusion = false) ∧
      m.flatMap DynInst.sites ⊆ p.inst.sites := by
  cases h with
  | unfused w' => exact ⟨[], by simp, by simp, by simp⟩
  | @pair w' pre x f hvec hparts _ =>
    exact ⟨[.plain x], by simp [hvec], by simp [DynInst.isFusion], by simp [hparts]⟩
  | @triple pre x z f _ hvec _ hparts =>
    exact ⟨[.plain x], by simp [hvec], by simp [DynInst.isFusion], by simp [hparts]⟩
  | @nonConsec w' pre gap x f hvec _ hparts =>
    exact ⟨[.plain x], by simp [hvec], by simp [DynInst.isFusion], by simp [hparts]⟩

theorem PlacedBy.npc : ∃ l last, p.inst.sites = l ++ [last] ∧ last.1.npc = p.inst.getNPC := by
  cases h with
  | unfused w' => exact ⟨[], inst.site, rfl, rfl⟩
  | @pair w' pre x f _ hparts _ => exact ⟨[x.site], inst.site, by simp [hparts], rfl⟩
  | @triple pre x z f _ _ _ hparts =>
    exact ⟨[x.site, inst.site], z.site, by simp [hparts], rfl⟩
  | @nonConsec w' pre gap x f _ _ hparts => exact ⟨[x.site], inst.site, by simp [hparts], rfl⟩
end
end

/-! ### The loop -/

/-- The state of the loop: `insts_available`, `toRenameIndex`, the buffer, the list for rename and
the ignore window; a squash ends the loop. -/
structure DecodeState where
  instsAvailable : ℕ
  toRenameIndex : ℕ
  pending : List Inst
  fusionInst : List DynInst
  window : IgnoreWindow
  squash : Option DecodeSquash

def DecodeState.advance (s : DecodeState) (p : Placement) (inst : DynInst)
    (q : Option DecodeSquash) : DecodeState where
  instsAvailable := s.instsAvailable - p.consumed
  toRenameIndex := s.toRenameIndex + 1
  pending := if q.isSome then [] else p.pending
  fusionInst := p.before ++ inst :: p.gap
  window := p.window
  squash := q

def DecodeState.skip (s : DecodeState) (pending : List Inst) : DecodeState :=
  { s with instsAvailable := s.instsAvailable - 1, pending := pending }

/-- One round; `vecLimit` is `vec_decode_limit`. -/
def decodeRound (c : DecodeConfig) (now : ℕ) (ras : DynInst → Addr) (vecLimit : Bool)
    (s : DecodeState) : Except String (Loop.Next DecodeState) :=
  if s.instsAvailable = 0 ∨ c.decodeWidth ≤ s.toRenameIndex then .ok (.done s)
  else
    match s.pending with
    | [] => .error "assert(!insts_to_decode.empty())"
    | inst :: pending =>
      if vecLimit && inst.flags.isVector then .ok (.done s)
      else if inst.squashed then .ok (.again (s.skip pending))
      else
        match placeInst c now s.window s.fusionInst inst pending with
        | .error e => .error e
        | .ok p =>
          match checkPrediction c ras p.inst with
          | .error e => .error e
          | .ok (inst', none) => .ok (.again (s.advance p inst' none))
          | .ok (inst', some q) => .ok (.done (s.advance p inst' (some q)))

def roundPlacement (c : DecodeConfig) (now : ℕ) (vecLimit : Bool) (s : DecodeState) :
    Option Placement :=
  if s.instsAvailable = 0 ∨ c.decodeWidth ≤ s.toRenameIndex then none
  else
    match s.pending with
    | [] => none
    | inst :: pending =>
      if (vecLimit && inst.flags.isVector) || inst.squashed then none
      else (placeInst c now s.window s.fusionInst inst pending).toOption

/-- The path that a round takes; `unfused` also where it places nothing. -/
def roundPath (c : DecodeConfig) (now : ℕ) (vecLimit : Bool) (s : DecodeState) : FusePath :=
  match roundPlacement c now vecLimit s with
  | none => .unfused
  | some p => p.path

def DecodeState.start (w : IgnoreWindow) (buffer : List Inst) : DecodeState :=
  ⟨buffer.length, 0, buffer, [], w, none⟩

def vecDecodeLimit (buffer : List Inst) : Bool :=
  match buffer with
  | [] => false
  | front :: _ => !front.flags.isVector

/-- `decodeInsts`: the list for rename is `fusionInst` of the result, `pending` stays in the
buffer. -/
def decodeInsts (c : DecodeConfig) (now : ℕ) (ras : DynInst → Addr) (w : IgnoreWindow)
    (buffer : List Inst) : Except String DecodeState :=
  Loop.iter (decodeRound c now ras (vecDecodeLimit buffer)) buffer.length (.start w buffer)

/-- The states in which `decodeInsts` enters a round. -/
def decodeHeads (c : DecodeConfig) (now : ℕ) (ras : DynInst → Addr) (w : IgnoreWindow)
    (buffer : List Inst) : List DecodeState :=
  Loop.heads (decodeRound c now ras (vecDecodeLimit buffer)) buffer.length (.start w buffer)

section
variable {c : DecodeConfig} {now : ℕ} {ras : DynInst → Addr} {vecLimit : Bool}
  {s t : DecodeState} {r : Loop.Next DecodeState}

variable {p : Placement} {inst : Inst} {pending : List Inst} {q : Option DecodeSquash}

theorem roundPlacement_placedBy (h : roundPlacement c now vecLimit s = some p) :
    ∃ inst pending, PlacedBy s.window s.fusionInst inst pending p := by
  unfold roundPlacement at h
  split_ifs at h
  split at h
  · cases h
  · rename_i inst pending hpending
    split_ifs at h
    refine ⟨inst, pending, ?_⟩
    cases hplace : placeInst c now s.window s.fusionInst inst pending with
    | error e => simp [hplace, Except.toOption] at h
    | ok p' =>
      rw [hplace] at h
      cases h
      exact placeInst_placedBy hplace

structure Advances (c : DecodeConfig) (now : ℕ) (vecLimit : Bool) (s : DecodeState) (inst : Inst)
    (pending : List Inst) (p : Placement) (t : DecodeState) (q : Option DecodeSquash) : Prop where
  available : s.instsAvailable ≠ 0
  buffer : s.pending = inst :: pending
  live : inst.squashed = false
  place : placeInst c now s.window s.fusionInst inst pending = .ok p
  placed : roundPlacement c now vecLimit s = some p
  result : ∃ taken targ, t = s.advance p (p.inst.setPred taken targ) q

section
variable (h : Advances c now vecLimit s inst pending p t q)
include h

theorem Advances.path : roundPath c now vecLimit s = p.path := by
  simp [roundPath, h.placed]

theorem Advances.fusionInst :
    ∃ taken targ, t.fusionInst = p.before ++ p.inst.setPred taken targ :: p.gap := by
  obtain ⟨taken, targ, rfl⟩ := h.result
  exact ⟨taken, targ, rfl⟩
end

theorem decodeRound_cases (h : decodeRound c now ras vecLimit s = .ok r) :
    (r = .done s ∧ roundPlacement c now vecLimit s = none) ∨
    (∃ inst pending, s.instsAvailable ≠ 0 ∧ s.pending = inst :: pending ∧ inst.squashed = true ∧
      r = .again (s.skip pending) ∧ roundPlacement c now vecLimit s = none) ∨
    ∃ inst pending p t q, Advances c now vecLimit s inst pending p t q ∧
      r = if q.isSome then .done t else .again t := by
  unfold decodeRound at h
  split_ifs at h with hguard
  · cases h
    exact .inl ⟨rfl, by simp [roundPlacement, hguard]⟩
  · have hav : s.instsAvailable ≠ 0 := (not_or.1 hguard).1
    split at h
    · cases h
    · rename_i inst pending hpending
      split_ifs at h with hvec hsquashed
      · cases h
        exact .inl ⟨rfl, by simp [roundPlacement, hguard, hpending, hvec]⟩
      · cases h
        exact .inr (.inl ⟨inst, pending, hav, hpending, hsquashed, rfl,
          by simp [roundPlacement, hguard, hpending, hsquashed]⟩)
      · split at h
        · cases h
        · rename_i p hplace
          have hlive : inst.squashed = false := by simpa using hsquashed
          have hplaced : roundPlacement c now vecLimit s = some p := by
            simp [roundPlacement, hguard, hpending, hvec, hlive, hplace, Except.toOption]
          refine .inr (.inr ⟨inst, pending, p, ?_⟩)
          split at h
          · cases h
          · rename_i inst' hpred
            cases h
            obtain ⟨taken, targ, rfl⟩ := checkPrediction_setPred hpred
            exact ⟨_, none, ⟨hav, hpending, hlive, hplace, hplaced, _, _, rfl⟩, rfl⟩
          · rename_i inst' q hpred
            cases h
            obtain ⟨taken, targ, rfl⟩ := checkPrediction_setPred hpred
            exact ⟨_, some q, ⟨hav, hpending, hlive, hplace, hplaced, _, _, rfl⟩, rfl⟩

theorem decodeRound_next (h : decodeRound c now ras vecLimit s = .ok (.again t) ∨
      decodeRound c now ras vecLimit s = .ok (.done t)) :
    (t = s ∧ roundPlacement c now vecLimit s = none) ∨
    (∃ pending, t = s.skip pending ∧ roundPlacement c now vecLimit s = none) ∨
    ∃ inst pending p q, Advances c now vecLimit s inst pending p t q := by
  rcases h with h | h <;> rcases decodeRound_cases h with
    ⟨hr, hnone⟩ | ⟨inst, pending, -, -, -, hr, hnone⟩ | ⟨inst, pending, p, u, q, ha, hr⟩
  · cases hr
  · cases hr
    exact .inr (.inl ⟨pending, rfl, hnone⟩)
  · cases q <;> cases hr
    exact .inr (.inr ⟨inst, pending, p, none, ha⟩)
  · cases hr
    exact .inl ⟨rfl, hnone⟩
  · cases hr
  · cases q <;> cases hr
    exact .inr (.inr ⟨inst, pending, p, _, ha⟩)

theorem decodeRound_again_squash (hs : s.squash = none)
    (h : decodeRound c now ras vecLimit s = .ok (.again t)) : t.squash = none := by
  rcases decodeRound_cases h with
    ⟨h, -⟩ | ⟨inst, pending, -, -, -, h, -⟩ | ⟨inst, pending, p, u, q, ha, h⟩
  · cases h
  · cases h
    exact hs
  · obtain ⟨taken, targ, rfl⟩ := ha.result
    cases q <;> cases h
    rfl

theorem Advances.exists_fused_iff (h : Advances c now vecLimit s inst pending p t q)
    {Q : DynInst → Prop} (hfused : ∀ d, Q d → d.isFusion = true)
    (hpred : ∀ d taken targ, Q (d.setPred taken targ) ↔ Q d) :
    (∃ d ∈ t.fusionInst, Q d) ↔ (∃ d ∈ s.fusionInst, Q d) ∨ Q p.inst := by
  obtain ⟨m, hm, hplain, -⟩ := (placeInst_placedBy h.place).splice
  obtain ⟨taken, targ, ht⟩ := h.fusionInst
  rw [ht, hm]
  simp only [mem_append, mem_cons]
  constructor
  · rintro ⟨d, hd | rfl | hd, hQ⟩
    · exact .inl ⟨d, .inl hd, hQ⟩
    · exact .inr ((hpred _ _ _).1 hQ)
    · exact .inl ⟨d, .inr (.inr hd), hQ⟩
  · rintro (⟨d, hd | hd | hd, hQ⟩ | hQ)
    · exact ⟨d, .inl hd, hQ⟩
    · have := hfused d hQ
      simp [hplain d hd] at this
    · exact ⟨d, .inr (.inr hd), hQ⟩
    · exact ⟨_, .inr (.inl rfl), (hpred _ _ _).2 hQ⟩

/-- `P` relates the list for rename to the rest of the buffer: a dropped instruction keeps it, and
so does an instruction placed in a round that satisfies `C`. -/
structure DecodeInv (c : DecodeConfig) (now : ℕ) (vecLimit : Bool) (C : DecodeState → Prop)
    (P : List DynInst → List Inst → Prop) : Prop where
  skip : ∀ vec inst pending, inst.squashed = true → P vec (inst :: pending) → P vec pending
  place : ∀ s inst pending p t q, C s → Advances c now vecLimit s inst pending p t q →
    P s.fusionInst (inst :: pending) → P t.fusionInst p.pending

namespace DecodeInv
variable {C : DecodeState → Prop} {P : List DynInst → List Inst → Prop}

section
variable (hinv : DecodeInv c now vecLimit C P) (hs : P s.fusionInst s.pending) (hC : C s)
include hinv hs hC

theorem again
    (h : decodeRound c now ras vecLimit s = .ok (.again t)) : P t.fusionInst t.pending := by
  rcases decodeRound_cases h with
    ⟨h, -⟩ | ⟨inst, pending, -, hpend, hsq, h, -⟩ | ⟨inst, pending, p, u, q, ha, h⟩
  · cases h
  · cases h
    exact hinv.skip _ _ _ hsq (hpend ▸ hs)
  · cases q with
    | some q => cases h
    | none =>
      cases h
      have hP := hinv.place s inst pending p _ none hC ha (ha.buffer ▸ hs)
      obtain ⟨taken, targ, rfl⟩ := ha.result
      exact hP

theorem done (h : decodeRound c now ras vecLimit s = .ok (.done t)) : ∃ rest, P t.fusionInst rest ∧
      (s.squash = none → t.pending = if t.squash.isSome then [] else rest) := by
  rcases decodeRound_cases h with
    ⟨h, -⟩ | ⟨inst, pending, -, -, -, h, -⟩ | ⟨inst, pending, p, u, q, ha, h⟩
  · cases h
    exact ⟨_, hs, fun hq => by simp [hq]⟩
  · cases h
  · cases q with
    | none => cases h
    | some q =>
      cases h
      refine ⟨p.pending, hinv.place s inst pending p _ (some q) hC ha (ha.buffer ▸ hs), fun _ => ?_⟩
      obtain ⟨taken, targ, rfl⟩ := ha.result
      rfl
end

variable {n : ℕ}

section
variable (hinv : DecodeInv c now vecLimit C P) {r : DecodeState} (hs : P s.fusionInst s.pending)
include hinv hs

/-- **The invariant rule of decode.** -/
theorem iter (hC : ∀ u ∈ heads (decodeRound c now ras vecLimit) n s, C u)
    (h : Loop.iter (decodeRound c now ras vecLimit) n s = .ok r) : ∃ rest, P r.fusionInst rest :=
  iter_inv_heads (fun s => P s.fusionInst s.pending) (fun s => ∃ rest, P s.fusionInst rest) C
    (fun _ _ hs hC h => hinv.again hs hC h)
    (fun _ _ hs hC h => (hinv.done hs hC h).imp fun _ hr => hr.1)
    (fun _ hs => ⟨_, hs⟩) hs hC h

theorem iter_pending (hq : s.squash = none)
    (hC : ∀ u ∈ heads (decodeRound c now ras vecLimit) n s, C u)
    (h : Loop.iter (decodeRound c now ras vecLimit) n s = .ok r) :
    ∃ rest, P r.fusionInst rest ∧ r.pending = if r.squash.isSome then [] else rest := by
  refine iter_inv_heads (fun s => P s.fusionInst s.pending ∧ s.squash = none)
    (fun s => ∃ rest, P s.fusionInst rest ∧ s.pending = if s.squash.isSome then [] else rest) C
    (fun s t hs hC h => ⟨hinv.again hs.1 hC h, ?_⟩)
    (fun s t hs hC h => (hinv.done hs.1 hC h).imp fun _ hr => ⟨hr.1, hr.2 hs.2⟩)
    (fun s hs => ⟨_, hs.1, by simp [hs.2]⟩) ⟨hs, hq⟩ hC h
  exact decodeRound_again_squash hs.2 h
end
end DecodeInv
end

/-- **What decode fuses**: a fused instruction in the list for rename was placed by some round, and
what a round has fused stays. -/
theorem decodeInsts_exists_fused_iff {r : DecodeState} {Q : DynInst → Prop}
    (hfused : ∀ d, Q d → d.isFusion = true) (hpred : ∀ d taken targ, Q (d.setPred taken targ) ↔ Q d)
    (h : decodeInsts c now ras w buffer = .ok r) :
    (∃ d ∈ r.fusionInst, Q d) ↔ ∃ s ∈ decodeHeads c now ras w buffer,
      ∃ p, roundPlacement c now (vecDecodeLimit buffer) s = some p ∧ Q p.inst := by
  have hstart : ¬∃ d ∈ (DecodeState.start w buffer).fusionInst, Q d := by
    simp [DecodeState.start]
  refine (iter_or_heads (fun s => ∃ d ∈ s.fusionInst, Q d) _ (fun s t hst => ?_) h).trans
    (or_iff_right hstart)
  rcases decodeRound_next hst with ⟨rfl, hnone⟩ | ⟨pending, rfl, hnone⟩ | ⟨inst, pending, p, q, ha⟩
  · simp [hnone]
  · simp [hnone, DecodeState.skip]
  · rw [ha.exists_fused_iff hfused hpred, ha.placed]
    simp

end Gem5
