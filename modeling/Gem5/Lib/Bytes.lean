import Mathlib.Data.BitVec
import Mathlib.Tactic

/-!
# Byte-addressed memory

A memory is a function from addresses to cells.  Addresses are any additive monoid with a one, so
that a fixed-width address space, where `a + n` wraps around, is an instance.

* reading `n + k` cells is reading `n` and then `k` (`read_add`);
* `leNat` is the number a byte list spells in little-endian order; it determines the list once the
  length is known (`leNat_inj`).
-/

namespace Bytes

section
variable {A B : Type} [AddMonoidWithOne A]

/-- The addresses `a, a + 1, …, a + (n - 1)`. -/
def span (a : A) (n : ℕ) : List A := (List.range n).map fun i : ℕ => a + (i : A)

/-- The contents of `n` consecutive cells, in address order. -/
def read (m : A → B) (a : A) (n : ℕ) : List B := (span a n).map m

@[simp] theorem span_zero (a : A) : span a 0 = [] := rfl

@[simp] theorem length_span (a : A) (n : ℕ) : (span a n).length = n := by simp [span]

@[simp] theorem length_read (m : A → B) (a : A) (n : ℕ) : (read m a n).length = n := by
  simp [read]

theorem span_add (a : A) (n k : ℕ) : span a (n + k) = span a n ++ span (a + n) k := by
  simp only [span, List.range_add, List.map_append, List.map_map]
  congr 1
  apply List.map_congr_left
  intro i _
  simp [add_assoc]

section
variable (m : A → B) (a : A)

theorem read_add (n k : ℕ) : read m a (n + k) = read m a n ++ read m (a + n) k := by
  simp [read, span_add]

theorem take_read_add (n k : ℕ) : (read m a (n + k)).take n = read m a n := by
  rw [read_add, List.take_left' (length_read m a n)]

theorem drop_read_add (n k : ℕ) : (read m a (n + k)).drop n = read m (a + n) k := by
  rw [read_add, List.drop_left' (length_read m a n)]

theorem head?_read {n : ℕ} (hn : 0 < n) : (read m a n).head? = some (m a) := by
  obtain ⟨k, rfl⟩ := Nat.exists_eq_add_of_le hn
  rw [read_add]
  simp [read, span]
end
end

/-! ### Little-endian numbers -/

def leNat : List (BitVec 8) → ℕ
  | [] => 0
  | b :: bs => b.toNat + 256 * leNat bs

theorem leNat_lt (bs : List (BitVec 8)) : leNat bs < 2 ^ (8 * bs.length) := by
  induction bs with
  | nil => simp [leNat]
  | cons b bs ih =>
    have hpow : 2 ^ (8 * (bs.length + 1)) = 256 * 2 ^ (8 * bs.length) := by
      rw [Nat.mul_add, pow_add]; ring
    simp only [leNat, List.length_cons, hpow]
    omega

theorem leNat_inj {bs cs : List (BitVec 8)} (hlen : bs.length = cs.length)
    (h : leNat bs = leNat cs) : bs = cs := by
  induction bs generalizing cs with
  | nil => cases cs with
    | nil => rfl
    | cons c cs => simp at hlen
  | cons b bs ih => cases cs with
    | nil => simp at hlen
    | cons c cs =>
      simp only [leNat] at h
      have hhead : b.toNat = c.toNat := by omega
      have htail : leNat bs = leNat cs := by omega
      rw [BitVec.eq_of_toNat_eq hhead, ih (by simpa using hlen) htail]

end Bytes
