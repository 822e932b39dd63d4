import Gem5.Decode.Restart
import Gem5.Fusion.SlliAddLoad

/-!
# Counting committed instructions

`CPU::instDone` counts a fused instruction twice, whatever it stands for.  So the count is right
for pairs and falls behind by one with every fused triple.
-/

namespace Gem5
open List DynInst

structure ThreadCounts where
  numInst : ℕ
  numOp : ℕ
  deriving DecidableEq, Repr

def instDone (t : ThreadCounts) (d : DynInst) : ThreadCounts where
  numInst :=
    if !d.flags.isMicroop || d.flags.isLastMicroop then
      if d.isFusion then t.numInst + 1 + 1 else t.numInst + 1
    else t.numInst
  numOp := t.numOp + 1

def commitInsts (t : ThreadCounts) (ds : List DynInst) : ThreadCounts := ds.foldl instDone t

namespace DynInst
def numParts : DynInst → ℕ
  | plain _ => 1
  | fused _ f => f.numFusedParts

/-- What `instDone` counts for it. -/
def counted (d : DynInst) : ℕ := if d.isFusion then 2 else 1

def isTriple : DynInst → Bool
  | plain _ => false
  | fused _ f => f.numFusedParts = 3

theorem numParts_eq (d : DynInst) : d.numParts = d.counted + if d.isTriple then 1 else 0 := by
  cases d with
  | plain i => rfl
  | fused info f => cases f <;> rfl

end DynInst

/-! ### Runs of commits -/

section
variable {ds : List DynInst}

theorem instDone_numInst {d : DynInst} (h : d.flags.isMicroop = false) (t : ThreadCounts) :
    (instDone t d).numInst = t.numInst + d.counted := by
  simp only [instDone, counted, h]
  cases d.isFusion <;> rfl

theorem commitInsts_numInst (h : ∀ d ∈ ds, d.flags.isMicroop = false) (t : ThreadCounts) :
    (commitInsts t ds).numInst = t.numInst + (ds.map counted).sum := by
  induction ds generalizing t with
  | nil => rfl
  | cons d ds ih =>
    obtain ⟨hd, hds⟩ := forall_mem_cons.1 h
    have hcons : commitInsts t (d :: ds) = commitInsts (instDone t d) ds := rfl
    rw [hcons, ih hds, instDone_numInst hd, map_cons, sum_cons, add_assoc]

theorem sum_numParts (ds : List DynInst) : (ds.map numParts).sum =
    (ds.map counted).sum + ds.countP isTriple := by
  induction ds with
  | nil => rfl
  | cons d ds ih =>
    rw [map_cons, map_cons, sum_cons, sum_cons, countP_cons, ih, d.numParts_eq]
    omega

/-- **Instruction count.**  After any commits of instructions that are not micro-ops, `numInst` has
grown by the number of instructions of the program exactly if no fused triple was among them. -/
theorem numInst_eq_iff (h : ∀ d ∈ ds, d.flags.isMicroop = false) (t : ThreadCounts) :
    (commitInsts t ds).numInst = t.numInst + (ds.map DynInst.numParts).sum ↔
      ∀ d ∈ ds, d.isTriple = false := by
  rw [commitInsts_numInst h, sum_numParts]
  have hzero : ds.countP isTriple = 0 ↔ ∀ d ∈ ds, d.isTriple = false := by
    simp [countP_eq_zero]
  rw [← hzero]
  omega
end

/-- The fused `lw x5, 0(x10)` and `lwu x6, 4(x10)` count as two. -/
theorem lwlw_counted : ∃ d,
    checkAndFuseInsts .full 0 .closed [.plain lwX5] lwuX6 = .ok (.closed, some ([], d)) ∧
    (commitInsts ⟨0, 0⟩ [d]).numInst = 0 + ([d].map DynInst.numParts).sum := by
  obtain ⟨d, hd⟩ : ∃ d, checkAndFuseInsts .full 0 .closed [.plain lwX5] lwuX6 =
      .ok (.closed, some ([], d)) := ⟨_, rfl⟩
  refine ⟨d, hd, (numInst_eq_iff ?_ ⟨0, 0⟩).2 ?_⟩
  · cases hd
    decide
  · cases hd
    decide

/-- **A fused triple counts as two**: `slli x5, x6, 3`, `add x5, x5, x10` and `ld x5, 0(x5)`. -/
theorem triple_miscounted : ¬∀ (group : List Inst) (r : DecodeState) (t : ThreadCounts),
    decodeInsts .full 0 (fun _ => 0) .closed group = .ok r →
    (∀ d ∈ r.fusionInst, d.flags.isMicroop = false) →
    (commitInsts t r.fusionInst).numInst =
      t.numInst + (r.fusionInst.map DynInst.numParts).sum := by
  intro hall
  obtain ⟨r, hr⟩ : ∃ r, decodeInsts .full 0 (fun _ => 0) .closed [slliX5, addX5, ldX5] = .ok r :=
    ⟨_, rfl⟩
  have hcount := hall _ r ⟨0, 0⟩ hr
  cases hr
  exact absurd (hcount (by decide)) (by decide)

end Gem5
