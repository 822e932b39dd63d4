import Mathlib.Tactic

/-!
# The stride predictor

A stored stride is extended from its width with constants that are shifted in the type `int`.
-/

namespace Gem5
open BitVec Option

/-- A width that the constructor accepts. -/
structure StrideWidth where
  bits : ℕ
  pos : 0 < bits
  lt : bits < 64

/-- `1 << k`; there is no value where the shift leaves the width of `int`. -/
def intShiftLeft (k : ℕ) : Option (BitVec 32) :=
  if k < 32 then some (twoPow 32 k) else none

/-- `x - 1`, where it does not overflow. -/
def intPred (x : BitVec 32) : Option (BitVec 32) :=
  if x = intMin 32 then none else some (x - 1)

def extendStride (w : StrideWidth) (entryStride : BitVec 64) : Option (BitVec 64) := do
  let mask := (← intPred (← intShiftLeft w.bits)).signExtend 64
  let entryStride := entryStride &&& mask
  let signBit := (← intShiftLeft (w.bits - 1)).signExtend 64
  if entryStride &&& signBit ≠ 0 then return entryStride ||| ~~~mask
  else return entryStride &&& mask

theorem extendStride_eq_none {w : StrideWidth} (h : 30 < w.bits) (x : BitVec 64) :
    extendStride w x = none := by
  obtain h | h : w.bits = 31 ∨ 32 ≤ w.bits := by omega
  · have hpred : intPred (twoPow 32 31) = none := rfl
    simp [extendStride, intShiftLeft, h, hpred]
  · simp [extendStride, intShiftLeft, Nat.not_lt.2 h]

/-- Up to thirty bits the constants are those of the wider type. -/
theorem int_constants : ∀ k < 31, 0 < k →
    (intPred (twoPow 32 k)).map (·.signExtend 64) = some (BitVec.ofNat 64 (2 ^ k - 1)) ∧
      (twoPow 32 (k - 1)).signExtend 64 = twoPow 64 (k - 1) ∧ twoPow 64 (k - 1) ≠ 0 := by
  decide

/-- **Strides are extended with their sign** for every width up to 30 bits, and for no other. -/
theorem extendStride_exact_iff (w : StrideWidth) :
    (∀ x, extendStride w x = some ((x.setWidth w.bits).signExtend 64)) ↔ w.bits ≤ 30 := by
  constructor
  · intro h
    by_contra hw
    have hzero := h 0
    rw [extendStride_eq_none (by omega)] at hzero
    cases hzero
  · intro hw x
    have hpos := w.pos
    obtain ⟨hmask, hsign, hne⟩ := int_constants w.bits (by omega) hpos
    obtain ⟨mask, hpred, hmask⟩ := map_eq_some_iff.1 hmask
    have hlow (i : ℕ) : (BitVec.ofNat 64 (2 ^ w.bits - 1)).getLsbD i = decide (i < w.bits) := by
      have := w.lt
      rw [getLsbD_ofNat, Nat.testBit_two_pow_sub_one, ← Bool.decide_and, decide_eq_decide]
      omega
    have hbit : (x &&& BitVec.ofNat 64 (2 ^ w.bits - 1)) &&& twoPow 64 (w.bits - 1) ≠ 0 ↔
        x.getLsbD (w.bits - 1) = true := by
      rw [and_twoPow, getLsbD_and, hlow, decide_eq_true (by omega), Bool.and_true]
      split_ifs with h
      · exact iff_of_true hne h
      · exact iff_of_false (not_not.2 rfl) h
    have hmsb : (x.setWidth w.bits).msb = x.getLsbD (w.bits - 1) := by
      simp [msb_eq_getLsbD_last, hpos]
    simp only [extendStride, intShiftLeft, if_pos (show w.bits < 32 by omega),
      if_pos (show w.bits - 1 < 32 by omega), bind_eq_bind, bind_some, hpred, hmask, hsign, hbit,
      pure_def, ← apply_ite some]
    refine congrArg some (eq_of_getLsbD_eq fun i hi => ?_)
    rw [getLsbD_signExtend, hmsb, getLsbD_setWidth, decide_eq_true hi, Bool.true_and]
    by_cases hi : i < w.bits <;> cases hs : x.getLsbD (w.bits - 1) <;>
      simp_all only [getLsbD_or, getLsbD_and, getLsbD_not, Bool.false_eq_true, if_true, if_false,
        decide_true, decide_false] <;> simp

/-- A stride of 32 bits is shifted out of range. -/
theorem extendStride_width_32 : extendStride ⟨32, by decide, by decide⟩ 1 = none :=
  rfl

end Gem5
