import Gem5.Decode.Insts
import Gem5.Fusion.SeqLoad
import Gem5.Fusion.SlliAddLoad

/-!
# The ignore window

When a fused instruction faults, commit has it executed again and tells decode not to fuse at its
pc for a while.  Only `checkAndFuseInsts` looks at this window: a triple or a non-consecutive pair
is fused again.  The sum in its test also wraps around, so that a window at the very end of the
address space covers nothing.
-/

namespace Gem5
open IgnoreWindow

/-! ### Commit -/

inductive CommitFault
  | real (f : Fault)
  | reExec
  deriving DecidableEq, Repr

/-- A fault of the instruction at the head, at tick `now`: a fused instruction is to be executed
again without fusion. -/
def commitFault (now : ℕ) (w : IgnoreWindow) (head : DynInst) (f : Fault) :
    CommitFault × IgnoreWindow :=
  if head.isFusion then (.reExec, .setIgnoreNextFusion head.getPC now) else (.real f, w)

@[simp] theorem commitFault_mkFused (now : ℕ) (w : IgnoreWindow) (first last : Inst)
    (g : FusionInst) (f : Fault) : (commitFault now w (.mkFused first last g) f).2 =
      .setIgnoreNextFusion first.getPC now := rfl

/-- The eight bytes from `pc` on. -/
abbrev InWindow (pc a : Addr) : Prop := pc.toNat ≤ a.toNat ∧ a.toNat < pc.toNat + 8

theorem IgnoreWindow.covers_iff {w : IgnoreWindow} (hw : w.ignoreFusionPC.toNat + 8 < 2 ^ 64)
    (a : Addr) : w.covers a = true ↔ InWindow w.ignoreFusionPC a := by
  simp only [covers, InWindow, Bool.and_eq_true, decide_eq_true_eq, BitVec.le_def, BitVec.lt_def,
    BitVec.toNat_add]
  have h8 : (8 : Addr).toNat = 8 := rfl
  rw [h8, Nat.mod_eq_of_lt hw]

/-! ### What a round fuses -/

/-- The round fuses at a pc of the window, on a path that does not look at it (or with a test that
wraps around). -/
def fusesInWindow (c : DecodeConfig) (now : ℕ) (vecLimit : Bool) (pc : Addr) (s : DecodeState) :
    Bool :=
  match roundPlacement c now vecLimit s with
  | none => false
  | some p =>
    InWindow pc p.inst.getPC &&
      (p.path = .triple || p.path = .nonConsec || p.path = .pair && 2 ^ 64 ≤ pc.toNat + 8)

def HasFused (pc : Addr) (vec : List DynInst) : Prop :=
  ∃ d ∈ vec, d.isFusion = true ∧ InWindow pc d.getPC

section
variable {w : IgnoreWindow} {vec : List DynInst} {inst : Inst} {pending : List Inst}
  {p : Placement}

theorem PlacedBy.isFusion (h : PlacedBy w vec inst pending p) :
    p.inst.isFusion = true ↔ p.path ≠ .unfused := by
  cases h <;> simp [DynInst.isFusion, DynInst.mkFused]

theorem PlacedBy.pair_wraps (h : PlacedBy w vec inst pending p) (hpath : p.path = .pair)
    (hin : InWindow w.ignoreFusionPC p.inst.getPC) : 2 ^ 64 ≤ w.ignoreFusionPC.toNat + 8 := by
  cases h with
  | unfused | triple | nonConsec => cases hpath
  | pair w' hvec hparts hout =>
    by_contra hlt
    rw [DynInst.getPC_mkFused, ← covers_iff (by omega), hout] at hin
    cases hin

variable {c : DecodeConfig} {now : ℕ} {vecLimit : Bool} {s : DecodeState}

theorem fusesInWindow_iff : fusesInWindow c now vecLimit s.window.ignoreFusionPC s = true ↔
    ∃ p, roundPlacement c now vecLimit s = some p ∧ p.inst.isFusion = true ∧
      InWindow s.window.ignoreFusionPC p.inst.getPC := by
  unfold fusesInWindow
  cases hp : roundPlacement c now vecLimit s with
  | none => simp
  | some p =>
    obtain ⟨inst, pending, hplaced⟩ := roundPlacement_placedBy hp
    have hpair := hplaced.pair_wraps
    simp only [Option.some.injEq, exists_eq_left', hplaced.isFusion]
    cases hpath : p.path <;> simp_all
end

/-! ### One cycle -/

section
variable {c : DecodeConfig} {now : ℕ} {ras : DynInst → Addr} {vecLimit : Bool}
  {s t r : DecodeState} {w : IgnoreWindow} {group : List Inst}

theorem IgnoreWindow.hit_of_active (hactive : w.expired c now = false) : w.hit c now = w := by
  simp [hit, hactive]

theorem decodeRound_window (hactive : s.window.expired c now = false)
    (h : decodeRound c now ras vecLimit s = .ok (.again t) ∨
      decodeRound c now ras vecLimit s = .ok (.done t)) : t.window = s.window := by
  rcases decodeRound_next h with ⟨rfl, -⟩ | ⟨pending, rfl, -⟩ | ⟨inst, pending, p, q, ha⟩
  · rfl
  · rfl
  · obtain ⟨taken, targ, rfl⟩ := ha.result
    rcases placeInst_window ha.place with hw | hw
    · exact hw
    · exact hw.trans (hit_of_active hactive)

section
variable (hactive : w.expired c now = false)
include hactive

/-- **An active window stays as it is.** -/
theorem decodeInsts_window (h : decodeInsts c now ras w group = .ok r) : r.window = w := by
  refine Loop.iter_inv (fun s => s.window = w) ?_ ?_ rfl h
  · intro s t hs h
    exact (decodeRound_window (hs ▸ hactive) (.inl h)).trans hs
  · intro s t hs h
    exact (decodeRound_window (hs ▸ hactive) (.inr h)).trans hs

theorem decodeHeads_window (hs : s ∈ decodeHeads c now ras w group) : s.window = w := by
  refine (Loop.exists_head (fun s => s.window = w) ?_ rfl hs).1
  intro s t hs h
  exact (decodeRound_window (hs ▸ hactive) (.inl h)).trans hs

theorem decodeInsts_hasFused_iff (h : decodeInsts c now ras w group = .ok r) :
    HasFused w.ignoreFusionPC r.fusionInst ↔ ∃ s ∈ decodeHeads c now ras w group,
      fusesInWindow c now (vecDecodeLimit group) w.ignoreFusionPC s = true := by
  refine (decodeInsts_exists_fused_iff (fun d hd => hd.1) (by simp) h).trans ?_
  refine exists_congr fun s => and_congr_right fun hs => ?_
  rw [← decodeHeads_window hactive hs, fusesInWindow_iff]
end
end

/-! ### Several cycles -/

structure DecodeTick where
  now : ℕ
  ras : DynInst → Addr
  buffer : List Inst

def decodeTicks (c : DecodeConfig) :
    IgnoreWindow → List DecodeTick → Except String (IgnoreWindow × List DynInst)
  | w, [] => .ok (w, [])
  | w, tick :: ticks =>
    match decodeInsts c tick.now tick.ras w tick.buffer with
    | .error e => .error e
    | .ok r => (decodeTicks c r.window ticks).map fun p => (p.1, r.fusionInst ++ p.2)

theorem decodeTicks_hasFused_iff {c : DecodeConfig} {w w' : IgnoreWindow} {ticks : List DecodeTick}
    {out : List DynInst} (hactive : ∀ tick ∈ ticks, w.expired c tick.now = false)
    (h : decodeTicks c w ticks = .ok (w', out)) : HasFused w.ignoreFusionPC out ↔ ∃ tick ∈ ticks,
      ∃ s ∈ decodeHeads c tick.now tick.ras w tick.buffer,
        fusesInWindow c tick.now (vecDecodeLimit tick.buffer) w.ignoreFusionPC s = true := by
  induction ticks generalizing out with
  | nil =>
    cases h
    simp [HasFused]
  | cons tick ticks ih =>
    obtain ⟨hnow, hrest⟩ := List.forall_mem_cons.1 hactive
    unfold decodeTicks at h
    split at h
    · cases h
    · rename_i r hr
      obtain ⟨⟨w₁, out₁⟩, hout, heq⟩ := map_eq_ok h
      cases heq
      rw [decodeInsts_window hnow hr] at hout
      have happend : HasFused w.ignoreFusionPC (r.fusionInst ++ out₁) ↔
          HasFused w.ignoreFusionPC r.fusionInst ∨ HasFused w.ignoreFusionPC out₁ := by
        simp [HasFused, or_and_right, exists_or]
      rw [happend, decodeInsts_hasFused_iff hnow hr, ih hrest hout]
      simp

/-- The cycle after tick 0 in which decode is presented with `buffer`. -/
def nextTick (buffer : List Inst) : DecodeTick := ⟨500, fun _ => 0, buffer⟩

end Gem5
