import Gem5.Decode.Insts
import Gem5.Fusion.Chain

/-!
# Non-branches that were predicted taken

Decode looks at the prediction of the instruction that it has just put into the list for rename:
if it was predicted taken and is no branch, decode squashes itself and sends fetch to the
fall-through.  What is in the list may be a fused instruction, and that one carries a prediction of
its own, which starts as not taken.  So a wrong prediction is caught if the instruction goes into
the list by itself, as it does if the tables have no row for it with others of the buffer.
-/

namespace Gem5
open DynInst List

/-- Predicted taken, and no branch. -/
def Inst.WronglyTaken (i : Inst) : Prop := i.predTaken = true ∧ i.flags.isControl = false

/-- A round of `decodeInsts` that starts in `s` places `p`, and takes `x` out of the buffer to
do so. -/
structure Consumes (c : DecodeConfig) (now : ℕ) (ras : DynInst → Addr) (w : IgnoreWindow)
    (buffer : List Inst) (s : DecodeState) (p : Placement) (x : Inst) : Prop where
  round : s ∈ decodeHeads c now ras w buffer
  placed : roundPlacement c now (vecDecodeLimit buffer) s = some p
  taken : x ∈ s.pending.take p.consumed

/-- The round that starts in `s` is the last one of `decodeInsts`; it squashes to the fall-through
of `x`, and what stands for `x` is the last instruction for rename. -/
def Caught (c : DecodeConfig) (now : ℕ) (ras : DynInst → Addr) (w : IgnoreWindow)
    (buffer : List Inst) (s : DecodeState) (x : Inst) : Prop :=
  ∃ t q, decodeRound c now ras (vecDecodeLimit buffer) s = .ok (.done t) ∧
    decodeInsts c now ras w buffer = .ok t ∧ t.squash = some q ∧
    q.nextPC = (DynInst.plain x).fallThru ∧
    ∃ pre d, t.fusionInst = pre ++ [d] ∧ x ∈ d.parts

/-! ### Fused instructions -/

/-- The tables have no row with instructions of the buffer in which `x` comes behind another. -/
def Unfusable (buffer : List Inst) (x : Inst) : Prop :=
  ∀ y ∈ buffer, lookup y x = none ∧ ∀ z ∈ buffer, lookup3 y x z = none ∧ lookup3 y z x = none

section
variable {c : DecodeConfig} {now : ℕ} {w : IgnoreWindow} {vec : List DynInst} {inst x : Inst}
  {pending buffer : List Inst} {p : Placement}

theorem lookup_congr {y y' : Inst} (h : y.staticInst = y'.staticInst) (x z : Inst) :
    lookup y x = lookup y' x ∧ lookup3 y x z = lookup3 y' x z := by
  have hkey : FusionKey.ofInst y = FusionKey.ofInst y' := by
    simp only [FusionKey.ofInst, Inst.typeid, Inst.getImm, h]
  rw [lookup, lookup, lookup3, lookup3, hkey]
  exact ⟨rfl, rfl⟩

/-- Decode has taken its instructions from the buffer. -/
theorem drawn_inv (vecLimit : Bool) : DecodeInv c now vecLimit (fun _ => True)
    (fun vec rest => vec.flatMap DynInst.sites ⊆ buffer.map Inst.site ∧ rest <:+ buffer) where
  skip vec inst pending _ h := ⟨h.1, (suffix_cons inst pending).trans h.2⟩
  place s inst pending p t q _ ha h := by
    obtain ⟨consumed, hsplit, hperm, -⟩ := (placeInst_placedBy ha.place).sites
    obtain ⟨taken, targ, ht⟩ := ha.fusionInst
    have hrest := h.2
    rw [hsplit] at hrest
    refine ⟨?_, (suffix_append consumed p.pending).trans hrest⟩
    have hsites : (p.before ++ p.inst :: p.gap).flatMap DynInst.sites ⊆ buffer.map Inst.site := by
      intro z hz
      rcases mem_append.1 (hperm.subset hz) with hz | hz
      · exact h.1 hz
      · exact map_subset _ (fun _ hi => hrest.subset (mem_append_left _ hi)) hz
    rw [ht]
    simpa only [flatMap_append, flatMap_cons, sites_setPred] using hsites

/-- What is not fused goes into the list by itself. -/
theorem path_of_unfusable (h : placeInst c now w vec inst pending = .ok p)
    (hvec : vec.flatMap DynInst.sites ⊆ buffer.map Inst.site) (hbuf : inst :: pending ⊆ buffer)
    (htaken : x ∈ (inst :: pending).take p.consumed) (hx : Unfusable buffer x) :
    p.path = .unfused := by
  have hfrom {y : Inst} (hy : DynInst.plain y ∈ vec) :
      ∃ y' ∈ buffer, y.staticInst = y'.staticInst := by
    obtain ⟨y', hy', hsite⟩ := mem_map.1
      (hvec (mem_flatMap.2 ⟨_, hy, by simp⟩ : y.site ∈ vec.flatMap DynInst.sites))
    exact ⟨y', hy', (congrArg Prod.snd hsite).symm⟩
  unfold placeInst at h
  split at h
  · cases h
  · rename_i vec' d pending' htriple
    cases h
    obtain ⟨y, z, creator, f, hsplit, hpending, hlook, -, -⟩ := checkAndFuseTriple_fused htriple
    obtain ⟨y', hy', hstatic⟩ := hfrom (y := y) (by simp [hsplit])
    rw [hpending] at htaken hbuf
    have hinst : inst ∈ buffer := hbuf mem_cons_self
    have hz : z ∈ buffer := hbuf (mem_cons_of_mem _ mem_cons_self)
    rw [(lookup_congr hstatic inst z).2] at hlook
    simp only [take_succ_cons, take_zero, mem_cons, not_mem_nil, or_false] at htaken
    rcases htaken with rfl | rfl
    · simp [((hx y' hy').2 z hz).1] at hlook
    · simp [((hx y' hy').2 inst hinst).2] at hlook
  · split at h
    · cases h
    · rename_i w' vec' d hpair
      cases h
      obtain ⟨y, creator, f, hsplit, hlook, -⟩ := checkAndFuseInsts_fused hpair
      obtain ⟨y', hy', hstatic⟩ := hfrom (y := y) (by simp [hsplit])
      obtain rfl : x = inst := by simpa using htaken
      rw [(lookup_congr hstatic x x).1, (hx y' hy').1] at hlook
      cases hlook
    · split at h
      · cases h
      · rename_i pre d gap hnon
        cases h
        obtain ⟨y, hy, -⟩ := checkAndFuseNonConsec_fused hnon
        obtain ⟨creator, f, hlook, -⟩ := hy.created
        obtain ⟨y', hy', hstatic⟩ := hfrom (y := y) (by simp [hy.split])
        obtain rfl : x = inst := by simpa using htaken
        rw [(lookup_congr hstatic x x).1, (hx y' hy').1] at hlook
        cases hlook
      · cases h
        rfl
end

/-! ### Instructions by themselves -/

theorem checkPrediction_wronglyTaken (c : DecodeConfig) (ras : DynInst → Addr) {x : Inst}
    (hx : x.WronglyTaken) : checkPrediction c ras (.plain x) =
      .ok (.plain x, some ⟨x.seqNum, (plain x).fallThru, true⟩) := by
  obtain ⟨htaken, hcontrol⟩ := hx
  have htaken' : (plain x).info.predTaken = true := htaken
  have hcontrol' : (plain x).isControl = false := hcontrol
  have hself : selfSquash (.plain x) =
      .ok ⟨x.seqNum, (plain x).fallThru, true⟩ := by
    simp [selfSquash, ctrlInst, hcontrol', info, Except.map, htaken]
  simp [checkPrediction, htaken', hcontrol', hself, Except.map]

/-! ### The rounds -/

section
variable {c : DecodeConfig} {now : ℕ} {vecLimit : Bool} {s : DecodeState} {p : Placement}

section
variable (ras : DynInst → Addr) (h : roundPlacement c now vecLimit s = some p)
include h

theorem decodeRound_placed : ∃ inst pending, s.pending = inst :: pending ∧
      placeInst c now s.window s.fusionInst inst pending = .ok p ∧
      ∀ d q, checkPrediction c ras p.inst = .ok (d, q) → decodeRound c now ras vecLimit s =
          .ok (if q.isSome then .done (s.advance p d q) else .again (s.advance p d q)) := by
  unfold roundPlacement at h
  split_ifs at h with hguard
  cases hpending : s.pending with
  | nil =>
    rw [hpending] at h
    cases h
  | cons inst pending =>
    rw [hpending] at h
    dsimp only at h
    split_ifs at h with hskip
    rw [Bool.or_eq_true, not_or] at hskip
    cases hplace : placeInst c now s.window s.fusionInst inst pending with
    | error e =>
      rw [hplace] at h
      cases h
    | ok p' =>
      rw [hplace] at h
      obtain rfl : p' = p := Option.some.inj h
      refine ⟨inst, pending, rfl, hplace, ?_⟩
      intro d q hpred
      rw [decodeRound, if_neg hguard, hpending]
      dsimp only
      rw [if_neg hskip.1, if_neg hskip.2, hplace]
      dsimp only
      rw [hpred]
      cases q <;> rfl

theorem decodeRound_unfused (hpath : p.path = .unfused) {x : Inst}
    (htaken : x ∈ s.pending.take p.consumed) (hx : x.WronglyTaken) :
    ∃ t q, decodeRound c now ras vecLimit s = .ok (.done t) ∧ t.squash = some q ∧
      q.nextPC = (plain x).fallThru ∧ t.fusionInst = s.fusionInst ++ [.plain x] := by
  obtain ⟨inst, pending, hpending, hplace, hround⟩ := decodeRound_placed ras h
  have hby := placeInst_placedBy hplace
  cases hby with
  | unfused w' =>
    have hinst : x = inst := by
      rw [hpending] at htaken
      simpa using htaken
    subst hinst
    exact ⟨_, _, hround _ _ (checkPrediction_wronglyTaken c ras hx), rfl, rfl, rfl⟩
  | pair => cases hpath
  | triple => cases hpath
  | nonConsec => cases hpath
end
end

/-- `slli x5, x6, 32` -/
def slliAt : Inst := .fetched 16 1 slliX5X6.staticInst

/-- `srli x5, x5, 32`, predicted taken. -/
def srliTaken : Inst := { Inst.fetched 20 2 srliX5X5.staticInst with predTaken := true }

/-- `xor x5, x5, x6`, predicted taken. -/
def xorTaken : Inst :=
  { Inst.fetched 20 2 (.scalar ⟨.xor, 5, 5, 6, 0, Opcode.immOk_zero _⟩) with predTaken := true }

end Gem5
