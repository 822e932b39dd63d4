import Mathlib.Tactic

/-!
# Folded bit strings

`foldBits F n h` is the exclusive or of the chunks of `F` bits that the first `n` bits of `h` have:
bit `j` of it collects the bits of `h` at the places `j`, `j + F`, `j + 2 * F` and so on below `n`.

Folding is linear, and makes a shift a rotation.
-/

namespace Fold

/-- Bit `j` of the first `n` bits of `h`, folded to `F` bits. -/
def foldBits (F : ℕ) : ℕ → (ℕ → Bool) → ℕ → Bool
  | 0, _, _ => false
  | n + 1, h, j => foldBits F n h j ^^ (decide (n % F = j) && h n)

variable {F : ℕ}

theorem foldBits_congr {n : ℕ} {g h : ℕ → Bool} (heq : ∀ i < n, g i = h i) (j : ℕ) :
    foldBits F n g j = foldBits F n h j := by
  induction n with
  | zero => rfl
  | succ n ih =>
    rw [foldBits, foldBits, ih fun i hi => heq i (Nat.lt_succ_of_lt hi), heq n (Nat.lt_succ_self n)]

theorem foldBits_xor (n : ℕ) (h h' : ℕ → Bool) (j : ℕ) :
    foldBits F n (fun i => h i ^^ h' i) j = (foldBits F n h j ^^ foldBits F n h' j) := by
  induction n with
  | zero => rfl
  | succ n ih =>
    rw [foldBits, foldBits, foldBits, ih]
    cases decide (n % F = j) <;> cases h n <;> cases h' n <;> cases foldBits F n h j <;>
      cases foldBits F n h' j <;> rfl

theorem foldBits_zero (n j : ℕ) : foldBits F n (fun _ => false) j = false := by
  induction n with
  | zero => rfl
  | succ n ih => rw [foldBits, ih, Bool.and_false, Bool.false_xor]

theorem foldBits_trunc {m n : ℕ} {h : ℕ → Bool} (hzero : ∀ i, m ≤ i → h i = false) (hle : m ≤ n)
    (j : ℕ) : foldBits F n h j = foldBits F m h j := by
  induction n, hle using Nat.le_induction with
  | base => rfl
  | succ n hmn ih => rw [foldBits, ih, hzero n hmn, Bool.and_false, Bool.xor_false]

theorem foldBits_chunk {start : ℕ} (hstart : start % F = 0) {c : ℕ} (hc : c ≤ F) (h : ℕ → Bool)
    (j : ℕ) : foldBits F (start + c) h j =
      (foldBits F start h j ^^ (decide (j < c) && h (start + j))) := by
  induction c with
  | zero => simp
  | succ c ih =>
    have hmod : (start + c) % F = c := by
      rw [Nat.add_mod, hstart, Nat.zero_add, Nat.mod_mod, Nat.mod_eq_of_lt hc]
    rw [← Nat.add_assoc, foldBits, ih (Nat.le_of_succ_le hc), hmod]
    rcases Nat.lt_trichotomy j c with hlt | rfl | hgt
    · rw [decide_eq_true hlt, decide_eq_false (by omega : ¬ c = j),
        decide_eq_true (by omega : j < c + 1), Bool.false_and, Bool.xor_false]
    · rw [decide_eq_false (Nat.lt_irrefl j), decide_eq_true rfl,
        decide_eq_true (Nat.lt_succ_self j), Bool.false_and, Bool.xor_false]
    · rw [decide_eq_false (by omega : ¬ j < c), decide_eq_false (by omega : ¬ c = j),
        decide_eq_false (by omega : ¬ j < c + 1), Bool.false_and, Bool.false_and, Bool.xor_false,
        Bool.xor_false]

theorem foldBits_front (n : ℕ) (h : ℕ → Bool) {j : ℕ} (hj : j < F) :
    foldBits F (F + n) h j = (h j ^^ foldBits F n (fun i => h (i + F)) j) := by
  induction n with
  | zero =>
    have := @foldBits_chunk F 0 (Nat.zero_mod F) F le_rfl h j
    rw [Nat.zero_add, Nat.zero_add, decide_eq_true hj] at this
    rw [Nat.add_zero, this]
    simp [foldBits]
  | succ n ih =>
    rw [← Nat.add_assoc, foldBits, ih, Nat.add_mod_left, foldBits, Bool.xor_assoc, Nat.add_comm F n]

theorem add_mod_eq_iff {k n j : ℕ} (hk : k ≤ F) (hj : j < F) :
    (n + k) % F = j ↔ n % F = (j + (F - k)) % F := by
  have hround : n + k + (F - k) = n + F := by omega
  constructor
  · rintro rfl
    rw [Nat.mod_add_mod, hround, Nat.add_mod_right]
  · intro h
    have hmod : n + F ≡ j + (F - k) [MOD F] := by
      rw [Nat.ModEq, Nat.add_mod_right]
      exact h
    rw [← hround] at hmod
    have := Nat.ModEq.add_right_cancel' (F - k) hmod
    rwa [Nat.ModEq, Nat.mod_eq_of_lt hj] at this

theorem foldBits_shift {k : ℕ} (hk : k ≤ F) (n : ℕ) (h : ℕ → Bool) {j : ℕ} (hj : j < F) :
    foldBits F (n + k) (fun i => decide (k ≤ i) && h (i - k)) j =
      foldBits F n h ((j + (F - k)) % F) := by
  induction n with
  | zero =>
    rw [Nat.zero_add, foldBits]
    rw [foldBits_congr (h := fun _ => false)]
    · exact foldBits_zero k j
    · intro i hi
      rw [decide_eq_false (Nat.not_le.mpr hi), Bool.false_and]
  | succ n ih =>
    rw [Nat.add_right_comm, foldBits, ih, foldBits, Nat.add_sub_cancel,
      decide_eq_true (Nat.le_add_left k n), Bool.true_and,
      decide_eq_decide.mpr (add_mod_eq_iff hk hj)]

end Fold
