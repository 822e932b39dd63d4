import Gem5.Bpu.Predictor
import Gem5.Lib.Fold

/-!
# Folded path histories

The tables of `BTBTAGE` are indexed and tagged by the path history, folded to a few bits.  A taken
branch changes the folded histories without a look at the whole history; a squash copies them back
from its target.
-/

namespace Gem5
open List Nat TargetQueue
open Fold

/-! ### The code -/

/-- A bit of a bit set, which is an `int`, moved up. -/
def bitShl (b : Bool) (i : ℕ) : BitVec 64 :=
  ((BitVec.ofNat 32 b.toNat) <<< i).signExtend 64

def lowMask (n : ℕ) : BitVec 64 :=
  ((1 : BitVec 64) <<< n) - 1

section
variable {N : ℕ}

/-- The inner loop of `fold`. -/
def foldChunk (ghr : BitVec N) (startBit chunkSize : ℕ) : BitVec 64 :=
  (List.range chunkSize).foldl (fun c i => c ||| bitShl (ghr.getLsbD (startBit + i)) i) 0

def foldFrom (histLen foldedLen : ℕ) (ghr : BitVec N) : ℕ → ℕ → BitVec 64 → BitVec 64
  | 0, _, folded => folded
  | n + 1, startBit, folded =>
    if startBit < histLen then
      foldFrom histLen foldedLen ghr n (startBit + foldedLen)
        (folded ^^^ foldChunk ghr startBit (min foldedLen (histLen - startBit)))
    else folded

def fold (histLen foldedLen : ℕ) (ghr : BitVec N) : BitVec 64 :=
  foldFrom histLen foldedLen ghr histLen 0 0 &&& lowMask foldedLen
end

/-- The loop of `foldHash`, with its number of rounds. -/
def foldHashFrom (foldedLen : ℕ) : ℕ → ℕ → BitVec 64 → BitVec 64 → BitVec 64
  | 0, _, _, foldedHash => foldedHash
  | n + 1, bitsLeft, hash, foldedHash =>
    if 0 < bitsLeft then
      foldHashFrom foldedLen n (bitsLeft - foldedLen) (hash >>> foldedLen) (foldedHash ^^^ hash)
    else foldedHash

def foldHash (hash : BitVec 64) (foldedLen : ℕ) : BitVec 64 :=
  foldHashFrom foldedLen pathHashLength pathHashLength hash 0

structure PathFoldedHist where
  histLen : ℕ
  foldedLen : ℕ
  maxShamt : ℕ
  folded : BitVec 64
  deriving DecidableEq

namespace PathFoldedHist
variable {N : ℕ}

def dropHighest (p : PathFoldedHist) (ghr : BitVec N) (shamt : ℕ) : BitVec 64 :=
  (List.range shamt).foldl
    (fun temp i =>
      temp ^^^ bitShl (ghr.getLsbD (p.histLen - 1 - i)) ((p.histLen - 1 - i) % p.foldedLen))
    p.folded

def copyBack (foldedLen shamt : ℕ) (temp : BitVec 64) : BitVec 64 :=
  (List.range shamt).foldl
    (fun temp i => temp ||| (((temp >>> (foldedLen + i)) &&& 1) <<< i)) temp

def update (p : PathFoldedHist) (ghr : BitVec N) (shamt : ℕ) (taken : Bool) (pc target : Addr) :
    Except String PathFoldedHist :=
  if !taken then .ok p
  else if p.foldedLen < shamt then .error "shamt <= foldedLen"
  else if p.histLen < shamt then .error "shamt <= histLen"
  else if p.histLen ≤ p.foldedLen then
    .ok { p with
      folded := ((p.folded <<< shamt) ^^^ pathHash pc target) &&& lowMask p.histLen }
  else if p.maxShamt < shamt then .error "shamt <= maxShamt"
  else
    let effectiveHash :=
      if p.histLen < pathHashLength then pathHash pc target &&& lowMask p.histLen
      else pathHash pc target
    .ok { p with
      folded :=
        (copyBack p.foldedLen shamt (p.dropHighest ghr shamt <<< shamt) ^^^
          foldHash effectiveHash p.foldedLen) &&& lowMask p.foldedLen }

def recover (p other : PathFoldedHist) : Except String PathFoldedHist :=
  if p.foldedLen ≠ other.foldedLen then .error "foldedLen == other.foldedLen"
  else if p.maxShamt ≠ other.maxShamt then .error "maxShamt == other.maxShamt"
  else if p.histLen ≠ other.histLen then .error "histLen == other.histLen"
  else .ok { p with folded := other.folded }

def check (p : PathFoldedHist) (ghr : BitVec N) : Except String Unit :=
  if p.folded = fold p.histLen p.foldedLen ghr then .ok () else .error "_folded == expected"

end PathFoldedHist

open PathFoldedHist

/-! ### Bits -/

theorem getLsbD_bitShl (b : Bool) {i : ℕ} (hi : i ≤ 30) (j : ℕ) :
    (bitShl b i).getLsbD j = (b && decide (j = i)) := by
  cases b with
  | false => simp [bitShl]
  | true =>
    rw [bitShl, BitVec.getLsbD_signExtend]
    have hbit (k : ℕ) (hk : k < 32) :
        ((BitVec.ofNat 32 true.toNat) <<< i).getLsbD k = decide (k = i) := by
      rw [BitVec.getLsbD_shiftLeft, BitVec.getLsbD_ofNat]
      rcases Nat.lt_trichotomy k i with hlt | rfl | hgt
      · simp [hlt, hlt.ne]
      · simp [hk]
      · have hne : k - i ≠ 0 := by omega
        have hone : testBit 1 (k - i) = false :=
          eq_false_of_ne_true (testBit_one_eq_true_iff_self_eq_zero.not.mpr hne)
        simp [hgt.ne', Nat.not_lt.mpr hgt.le, hone]
    have hmsb : ((BitVec.ofNat 32 true.toNat) <<< i).msb = false := by
      rw [BitVec.msb_eq_getLsbD_last, hbit _ (by omega)]
      exact decide_eq_false (by omega)
    rw [hmsb, Bool.true_and]
    by_cases hj : j < 32
    · rw [if_pos hj, hbit j hj, decide_eq_true (by omega : j < 64), Bool.true_and]
    · rw [if_neg hj, Bool.and_false, decide_eq_false (by omega)]

theorem getLsbD_lowMask {n : ℕ} (hn : n < 64) (j : ℕ) : (lowMask n).getLsbD j = decide (j < n) := by
  have hmask : lowMask n = BitVec.ofNat 64 (2 ^ n - 1) := by
    apply BitVec.eq_of_toNat_eq
    have hlt : 2 ^ n < 2 ^ 64 := Nat.pow_lt_pow_right (by omega) hn
    have hpos : 0 < 2 ^ n := Nat.two_pow_pos n
    have hone : (1 : BitVec 64).toNat = 1 := rfl
    rw [lowMask, BitVec.toNat_sub, BitVec.toNat_shiftLeft, BitVec.toNat_ofNat, hone,
      shiftLeft_eq, Nat.one_mul, mod_eq_of_lt hlt]
    omega
  rw [hmask, BitVec.getLsbD_ofNat, testBit_two_pow_sub_one]
  by_cases hj : j < n
  · simp [hj, Nat.lt_trans hj hn]
  · simp [hj]

variable {j foldedLen : ℕ}

theorem getLsbD_pathHash (pc target : Addr) (hj : pathHashLength ≤ j) :
    (pathHash pc target).getLsbD j = false := by
  have hmask : (((1 : Addr) <<< pathHashLength) - 1).getLsbD j = false :=
    (getLsbD_lowMask (by decide) j).trans (decide_eq_false (Nat.not_lt.mpr hj))
  rw [pathHash, BitVec.getLsbD_and, hmask, Bool.and_false]

section
variable {N : ℕ}

theorem getLsbD_foldChunk (ghr : BitVec N) (startBit : ℕ) {c : ℕ} (hc : c ≤ 31) (j : ℕ) :
    (foldChunk ghr startBit c).getLsbD j = (decide (j < c) && ghr.getLsbD (startBit + j)) := by
  induction c with
  | zero => simp [foldChunk]
  | succ c ih =>
    have hstep : foldChunk ghr startBit (c + 1) =
        foldChunk ghr startBit c ||| bitShl (ghr.getLsbD (startBit + c)) c := by
      rw [foldChunk, range_succ, foldl_append]
      rfl
    rw [hstep, BitVec.getLsbD_or, ih (by omega), getLsbD_bitShl _ (by omega)]
    rcases Nat.lt_trichotomy j c with hlt | rfl | hgt
    · simp [hlt, hlt.ne, lt_succ_of_lt hlt]
    · simp
    · simp [hgt.ne', Nat.not_lt.mpr hgt.le, Nat.not_lt.mpr (succ_le_of_lt hgt)]

variable {histLen foldedLen : ℕ}

section
variable (hpos : 0 < foldedLen) (hF : foldedLen ≤ 31)
include hpos hF

theorem getLsbD_foldFrom (ghr : BitVec N) {j : ℕ}
    (hj : j < foldedLen) (n startBit : ℕ) (folded : BitVec 64) (hn : histLen ≤ startBit + n)
    (hstart : startBit % foldedLen = 0) (hle : startBit ≤ histLen)
    (hfolded : folded.getLsbD j = foldBits foldedLen startBit ghr.getLsbD j) :
    (foldFrom histLen foldedLen ghr n startBit folded).getLsbD j =
      foldBits foldedLen histLen ghr.getLsbD j := by
  induction n generalizing startBit folded with
  | zero =>
    obtain rfl : startBit = histLen := by omega
    exact hfolded
  | succ n ih =>
    rw [foldFrom]
    by_cases hlt : startBit < histLen
    · rw [if_pos hlt]
      have hchunk : (folded ^^^ foldChunk ghr startBit
          (min foldedLen (histLen - startBit))).getLsbD j =
          foldBits foldedLen (startBit + min foldedLen (histLen - startBit)) ghr.getLsbD j := by
        rw [BitVec.getLsbD_xor, hfolded, getLsbD_foldChunk ghr startBit (by omega),
          foldBits_chunk hstart (by omega)]
      by_cases hlast : startBit + foldedLen ≤ histLen
      · rw [Nat.min_eq_left (by omega)] at hchunk ⊢
        exact ih _ _ (by omega) (by rw [add_mod_right, hstart]) hlast hchunk
      · -- a shorter chunk is the last one
        have hend : startBit + min foldedLen (histLen - startBit) = histLen := by omega
        rw [hend] at hchunk
        cases n with
        | zero => exact hchunk
        | succ n =>
          rw [foldFrom, if_neg (by omega)]
          exact hchunk
    · rw [if_neg hlt, hfolded]
      obtain rfl : startBit = histLen := by omega
      rfl

theorem getLsbD_fold (ghr : BitVec N) (j : ℕ) : (fold histLen foldedLen ghr).getLsbD j =
      (decide (j < foldedLen) && foldBits foldedLen histLen ghr.getLsbD j) := by
  rw [fold, BitVec.getLsbD_and, getLsbD_lowMask (by omega)]
  by_cases hj : j < foldedLen
  · rw [getLsbD_foldFrom hpos hF ghr hj histLen 0 0 (by omega) (zero_mod _) (Nat.zero_le _)
      (by simp [foldBits]), Bool.and_comm]
  · rw [decide_eq_false hj, Bool.and_false, Bool.false_and]

theorem fold_zero : fold histLen foldedLen (0 : BitVec N) = 0 := by
  apply BitVec.eq_of_getLsbD_eq
  intro j _
  rw [getLsbD_fold hpos hF, foldBits_congr (h := fun _ => false) (fun i _ => by simp),
    foldBits_zero, Bool.and_false]
  simp
end
end

theorem getLsbD_foldHashFrom (hpos : 0 < foldedLen) (hj : j < foldedLen) (n bitsLeft : ℕ)
    (hash foldedHash : BitVec 64) (hn : bitsLeft ≤ n)
    (hhash : ∀ i, bitsLeft ≤ i → hash.getLsbD i = false) :
    (foldHashFrom foldedLen n bitsLeft hash foldedHash).getLsbD j =
      (foldedHash.getLsbD j ^^ foldBits foldedLen bitsLeft hash.getLsbD j) := by
  induction n generalizing bitsLeft hash foldedHash with
  | zero =>
    obtain rfl : bitsLeft = 0 := by omega
    simp [foldHashFrom, foldBits]
  | succ n ih =>
    rw [foldHashFrom]
    by_cases hleft : 0 < bitsLeft
    · rw [if_pos hleft, ih _ _ _ (by omega)]
      · -- the first chunk goes to the folded hash, the other ones move down
        have hfront := foldBits_front (bitsLeft - foldedLen) hash.getLsbD hj
        rw [foldBits_trunc hhash (by omega : bitsLeft ≤ foldedLen + (bitsLeft - foldedLen))]
          at hfront
        have hmoved : foldBits foldedLen (bitsLeft - foldedLen) (hash >>> foldedLen).getLsbD j =
            foldBits foldedLen (bitsLeft - foldedLen) (fun i => hash.getLsbD (i + foldedLen)) j :=
          foldBits_congr (fun i _ => by rw [BitVec.getLsbD_ushiftRight, Nat.add_comm]) j
        rw [BitVec.getLsbD_xor, hfront, hmoved, Bool.xor_assoc]
      · intro i hi
        rw [BitVec.getLsbD_ushiftRight]
        exact hhash _ (by omega)
    · obtain rfl : bitsLeft = 0 := by omega
      simp [foldBits]

theorem getLsbD_foldHash (hpos : 0 < foldedLen) (hj : j < foldedLen) {hash : BitVec 64}
    (hhash : ∀ i, pathHashLength ≤ i → hash.getLsbD i = false) :
    (foldHash hash foldedLen).getLsbD j = foldBits foldedLen pathHashLength hash.getLsbD j := by
  rw [foldHash, getLsbD_foldHashFrom hpos hj _ _ _ _ le_rfl hhash]
  simp

/-! ### A taken branch -/

section
variable {N : ℕ}

theorem getLsbD_shiftLeft_two (x : BitVec N) {k : ℕ} (hk : k < N) :
    (x <<< 2).getLsbD k = (decide (2 ≤ k) && x.getLsbD (k - 2)) := by
  rw [BitVec.getLsbD_shiftLeft, decide_eq_true hk, Bool.true_and]
  by_cases hle : 2 ≤ k
  · rw [decide_eq_true hle, decide_eq_false (Nat.not_lt.mpr hle), Bool.not_false]
  · rw [decide_eq_false hle, decide_eq_true (Nat.lt_of_not_le hle), Bool.not_true]

theorem getLsbD_pHistShiftIn (h : BitVec N) (pc target : Addr) {i : ℕ} (hi : i < N) :
    (pHistShiftIn 2 true h pc target).getLsbD i =
      ((decide (2 ≤ i) && h.getLsbD (i - 2)) ^^ (pathHash pc target).getLsbD i) := by
  have hhash : (hashBits N pc target).getLsbD i = (pathHash pc target).getLsbD i := by
    rw [hashBits, BitVec.getLsbD_setWidth, BitVec.getLsbD_setWidth, decide_eq_true hi,
      Bool.true_and]
    by_cases hlen : i < pathHashLength
    · rw [decide_eq_true hlen, Bool.true_and]
    · rw [decide_eq_false hlen, Bool.false_and, getLsbD_pathHash pc target (Nat.not_lt.mp hlen)]
  rw [pHistShiftIn, if_neg (succ_ne_zero 1), if_pos rfl, BitVec.getLsbD_xor, hhash,
    getLsbD_shiftLeft_two h hi]

theorem foldBits_pHistShiftIn {n F : ℕ} (hF : 2 ≤ F) (hN : n + 2 ≤ N) (h : BitVec N)
    (pc target : Addr) {j : ℕ} (hj : j < F) :
    foldBits F (n + 2) (pHistShiftIn 2 true h pc target).getLsbD j =
      (foldBits F n h.getLsbD ((j + (F - 2)) % F) ^^
        foldBits F (n + 2) (pathHash pc target).getLsbD j) := by
  rw [foldBits_congr fun i hi => getLsbD_pHistShiftIn h pc target (Nat.lt_of_lt_of_le hi hN),
    foldBits_xor, foldBits_shift hF n h.getLsbD hj]

namespace PathFoldedHist
variable {F j H : ℕ}

theorem getLsbD_dropHighest {n : ℕ} (hpos : 0 < F) (hF : F ≤ 31) (m : ℕ) (h : BitVec N) (j : ℕ) :
    ((⟨n + 2, F, m, fold (n + 2) F h⟩ : PathFoldedHist).dropHighest h 2).getLsbD j =
      (decide (j < F) && foldBits F n h.getLsbD j) := by
  have hone : (n + 1) % F < F := mod_lt _ hpos
  have hzero : n % F < F := mod_lt _ hpos
  show (fold (n + 2) F h ^^^ bitShl (h.getLsbD (n + 1)) ((n + 1) % F) ^^^
    bitShl (h.getLsbD n) (n % F)).getLsbD j = _
  rw [BitVec.getLsbD_xor, BitVec.getLsbD_xor, getLsbD_fold hpos hF, getLsbD_bitShl _ (by omega),
    getLsbD_bitShl _ (by omega), foldBits, foldBits]
  by_cases hj : j < F
  · rw [decide_eq_true hj, decide_eq_decide.mpr (eq_comm (a := j) (b := (n + 1) % F)),
      decide_eq_decide.mpr (eq_comm (a := j) (b := n % F))]
    cases decide ((n + 1) % F = j) <;> cases decide (n % F = j) <;> cases h.getLsbD n <;>
      cases h.getLsbD (n + 1) <;> cases foldBits F n h.getLsbD j <;> rfl
  · rw [decide_eq_false hj, decide_eq_false (by omega : ¬ j = (n + 1) % F),
      decide_eq_false (by omega : ¬ j = n % F)]
    simp

theorem getLsbD_lowBit (x : BitVec 64) (k : ℕ) {i : ℕ} (hi : i < 64) (j : ℕ) :
    (((x >>> k) &&& 1) <<< i).getLsbD j = (decide (j = i) && x.getLsbD k) := by
  have hone (m : ℕ) : (1 : BitVec 64).getLsbD m = decide (m = 0) := by
    rw [show (1 : BitVec 64) = lowMask 1 from rfl, getLsbD_lowMask (by omega)]
    exact decide_eq_decide.mpr lt_one_iff
  rw [BitVec.getLsbD_shiftLeft, BitVec.getLsbD_and, BitVec.getLsbD_ushiftRight]
  rcases Nat.lt_trichotomy j i with hlt | rfl | hgt
  · simp [hlt, hlt.ne]
  · simp [hi]
  · have hne : j - i ≠ 0 := by omega
    simp [hgt.ne', hne]

theorem getLsbD_copyBack (hF : 2 ≤ F) (hF' : F ≤ 31) (x : BitVec 64) (hj : j < F) :
    (copyBack F 2 (x <<< 2)).getLsbD j = x.getLsbD ((j + (F - 2)) % F) := by
  have hshift (k : ℕ) (hk : k < 64) := getLsbD_shiftLeft_two x hk
  have hfirst (k : ℕ) :
      ((x <<< 2) ||| ((((x <<< 2) >>> F) &&& 1) <<< 0)).getLsbD k =
        ((x <<< 2).getLsbD k || (decide (k = 0) && (x <<< 2).getLsbD F)) := by
    rw [BitVec.getLsbD_or, getLsbD_lowBit _ _ (by omega)]
  show (((x <<< 2) ||| ((((x <<< 2) >>> F) &&& 1) <<< 0)) |||
    (((((x <<< 2) ||| ((((x <<< 2) >>> F) &&& 1) <<< 0)) >>> (F + 1)) &&& 1) <<< 1)).getLsbD j = _
  rw [BitVec.getLsbD_or, getLsbD_lowBit _ _ (by omega), hfirst, hfirst, hshift j (by omega),
    hshift F (by omega), hshift (F + 1) (by omega), decide_eq_true hF,
    decide_eq_true (by omega : 2 ≤ F + 1), decide_eq_false (by omega : ¬ F + 1 = 0)]
  rcases Nat.lt_trichotomy j 1 with hlt | rfl | hgt
  · obtain rfl : j = 0 := by omega
    simp
  · rw [mod_eq_of_lt (by omega), show 1 + (F - 2) = F + 1 - 2 by omega]
    simp
  · rw [decide_eq_true (by omega : 2 ≤ j), decide_eq_false (by omega : ¬ j = 0),
      decide_eq_false (by omega : ¬ j = 1), show j + (F - 2) = j - 2 + F by omega,
      add_mod_right, mod_eq_of_lt (by omega)]
    simp

theorem getLsbD_foldHash_effective (hpos : 0 < F) (pc target : Addr) (hj : j < F) :
    (foldHash (if H < pathHashLength then pathHash pc target &&& lowMask H
      else pathHash pc target) F).getLsbD j = foldBits F H (pathHash pc target).getLsbD j := by
  have hzero := fun i (hi : pathHashLength ≤ i) => getLsbD_pathHash pc target hi
  by_cases hH : H < pathHashLength
  · have hmask (i : ℕ) : (pathHash pc target &&& lowMask H).getLsbD i =
        ((pathHash pc target).getLsbD i && decide (i < H)) := by
      rw [BitVec.getLsbD_and, getLsbD_lowMask (Nat.lt_trans hH (by decide))]
    have hhigh : ∀ i, H ≤ i → (pathHash pc target &&& lowMask H).getLsbD i = false := by
      intro i hi
      rw [hmask, decide_eq_false (Nat.not_lt.mpr hi), Bool.and_false]
    rw [if_pos hH, getLsbD_foldHash hpos hj fun i hi => hhigh i (hH.le.trans hi),
      foldBits_trunc hhigh hH.le]
    apply foldBits_congr
    intro i hi
    rw [hmask, decide_eq_true hi, Bool.and_true]
  · rw [if_neg hH, getLsbD_foldHash hpos hj hzero, foldBits_trunc hzero (Nat.not_lt.mp hH)]

theorem getLsbD_fold_short (hpos : 0 < F) (hF : F ≤ 31) (hle : H ≤ F) (h : BitVec N) (j : ℕ) :
    (fold H F h).getLsbD j = (decide (j < H) && h.getLsbD j) := by
  have hchunk := foldBits_chunk (zero_mod F) hle h.getLsbD j
  rw [Nat.zero_add, Nat.zero_add, foldBits, Bool.false_xor] at hchunk
  rw [getLsbD_fold hpos hF, hchunk]
  by_cases hj : j < H
  · rw [decide_eq_true hj, decide_eq_true (by omega : j < F), Bool.true_and]
  · rw [decide_eq_false hj, Bool.false_and, Bool.and_false]

theorem update_fold (hH : 2 ≤ H) (hN : H ≤ N) (hF : 2 ≤ F) (hF' : F ≤ 31) (h : BitVec N)
    (pc target : Addr) : (⟨H, F, 16, fold H F h⟩ : PathFoldedHist).update h 2 true pc target =
      .ok ⟨H, F, 16, fold H F (pHistShiftIn 2 true h pc target)⟩ := by
  have hpos : 0 < F := by omega
  unfold update
  dsimp only
  rw [Bool.not_true, if_neg Bool.false_ne_true, if_neg (by omega), if_neg (by omega)]
  by_cases hle : H ≤ F
  · rw [if_pos hle]
    congr 2
    apply BitVec.eq_of_getLsbD_eq
    intro j hj
    rw [BitVec.getLsbD_and, BitVec.getLsbD_xor, getLsbD_lowMask (by omega),
      getLsbD_fold_short hpos hF' hle, BitVec.getLsbD_shiftLeft, decide_eq_true hj, Bool.true_and,
      Bool.and_comm]
    by_cases hlt : j < H
    · rw [getLsbD_pHistShiftIn h pc target (by omega), getLsbD_fold_short hpos hF' hle]
      by_cases hj2 : 2 ≤ j
      · rw [decide_eq_false (Nat.not_lt.mpr hj2), decide_eq_true hj2,
          decide_eq_true (by omega : j - 2 < H)]
        simp
      · rw [decide_eq_true (Nat.lt_of_not_le hj2), decide_eq_false hj2]
        simp
    · rw [decide_eq_false hlt, Bool.false_and, Bool.false_and]
  · rw [if_neg hle, if_neg (by omega)]
    congr 2
    obtain ⟨n, rfl⟩ : ∃ n, H = n + 2 := ⟨H - 2, by omega⟩
    apply BitVec.eq_of_getLsbD_eq
    intro j _
    rw [BitVec.getLsbD_and, BitVec.getLsbD_xor, getLsbD_lowMask (by omega), getLsbD_fold hpos hF',
      Bool.and_comm]
    by_cases hj : j < F
    · rw [getLsbD_copyBack hF hF' _ hj, getLsbD_dropHighest hpos hF',
        decide_eq_true (mod_lt _ hpos), Bool.true_and, getLsbD_foldHash_effective hpos _ _ hj,
        foldBits_pHistShiftIn hF hN h pc target hj]
    · rw [decide_eq_false hj, Bool.false_and, Bool.false_and]

end PathFoldedHist
end

/-! ### The tables -/

structure TableHists where
  index : PathFoldedHist
  tag : PathFoldedHist
  altTag : PathFoldedHist
  deriving DecidableEq

namespace TableHists
variable {N : ℕ}

def update (t : TableHists) (history : BitVec N) (pc target : Addr) : Except String TableHists := do
  let index ← t.index.update history 2 true pc target
  let tag ← t.tag.update history 2 true pc target
  let altTag ← t.altTag.update history 2 true pc target
  return ⟨index, tag, altTag⟩

def recover (t other : TableHists) : Except String TableHists := do
  let tag ← t.tag.recover other.tag
  let altTag ← t.altTag.recover other.altTag
  let index ← t.index.recover other.index
  return ⟨index, tag, altTag⟩

def check (t : TableHists) (hist : BitVec N) : Except String Unit := do
  t.index.check hist
  t.tag.check hist
  t.altTag.check hist

end TableHists

namespace BTBTAGE
variable {N : ℕ}

def doUpdateHist (ts : List TableHists) (history : BitVec N) (taken : Bool) (pc target : Addr) :
    Except String (List TableHists) :=
  if !taken then .ok ts else ts.mapM (·.update history pc target)

def specUpdatePHist (ts : List TableHists) (history : BitVec N) (pred : FullBTBPrediction) :
    Except String (List TableHists) :=
  doUpdateHist ts history pred.getPHistInfo.2.2 pred.getPHistInfo.1 pred.getPHistInfo.2.1

def recoverPHist {F : Type} (ts snapshot : List TableHists) (history : BitVec N)
    (entry : QueuedTarget N F) (condTaken : Bool) : Except String (List TableHists) := do
  let ts ← (ts.zip snapshot).mapM fun p => p.1.recover p.2
  doUpdateHist ts history condTaken entry.getControlPC entry.getTakenTarget

def checkFoldedHist (ts : List TableHists) (hist : BitVec N) : Except String Unit :=
  ts.forM (·.check hist)

end BTBTAGE

open BTBTAGE

def tage {N : ℕ} : Component N (Except String (List TableHists)) where
  specUpdatePHist folded history pred := do
    let ts ← folded
    BTBTAGE.specUpdatePHist ts history pred
  recoverPHist folded history entry condTaken := do
    let ts ← folded
    let snapshot ← entry.predMeta
    BTBTAGE.recoverPHist ts snapshot history entry condTaken

structure TageTable where
  histLen : ℕ
  tagBits : ℕ
  indexBits : ℕ

namespace TageTable
variable {N : ℕ}

def init (t : TageTable) : TableHists :=
  ⟨⟨t.histLen, t.indexBits, 16, 0⟩, ⟨t.histLen, t.tagBits, 16, 0⟩,
    ⟨t.histLen, t.tagBits - 1, 16, 0⟩⟩

def hists (t : TageTable) (path : BitVec N) : TableHists :=
  ⟨⟨t.histLen, t.indexBits, 16, fold t.histLen t.indexBits path⟩,
    ⟨t.histLen, t.tagBits, 16, fold t.histLen t.tagBits path⟩,
    ⟨t.histLen, t.tagBits - 1, 16, fold t.histLen (t.tagBits - 1) path⟩⟩

/-- The lengths that the table may have with a history of `N` bits. -/
structure Sized (N : ℕ) (t : TageTable) : Prop where
  two_le_histLen : 2 ≤ t.histLen
  histLen_le : t.histLen ≤ N
  two_le_indexBits : 2 ≤ t.indexBits
  indexBits_le : t.indexBits ≤ 31
  two_le_altTagBits : 2 ≤ t.tagBits - 1
  tagBits_le : t.tagBits ≤ 31

variable {t : TageTable}

theorem hists_zero (ht : t.Sized N) : t.hists (0 : BitVec N) = t.init := by
  obtain ⟨-, -, hindex, hindex', htag, htag'⟩ := ht
  rw [hists, init, fold_zero (by omega) hindex', fold_zero (by omega) htag',
    fold_zero (by omega) (by omega)]

theorem update_hists (ht : t.Sized N) (h : BitVec N) (pc target : Addr) :
    (t.hists h).update h pc target = .ok (t.hists (pHistShiftIn 2 true h pc target)) := by
  obtain ⟨hlen, hN, hindex, hindex', htag, htag'⟩ := ht
  simp only [TableHists.update, hists, update_fold hlen hN hindex hindex',
    update_fold hlen hN (by omega : 2 ≤ t.tagBits) htag',
    update_fold hlen hN htag (by omega)]
  rfl

theorem recover_hists (h h' : BitVec N) : (t.hists h).recover (t.hists h') = .ok (t.hists h') := by
  simp only [TableHists.recover, hists, recover, ne_eq]
  rfl

theorem check_hists (h : BitVec N) : (t.hists h).check h = .ok () := by
  simp only [TableHists.check, hists, check]
  rfl

end TageTable

namespace BTBTAGE
variable {N : ℕ} {tables : List TageTable}

theorem mapM_map_ok {α β γ : Type} (f : α → β) (g : β → Except String γ) (k : α → γ) (l : List α)
    (h : ∀ x ∈ l, g (f x) = .ok (k x)) : (l.map f).mapM g = .ok (l.map k) := by
  induction l with
  | nil => rfl
  | cons x l ih =>
    rw [map_cons, mapM_cons, h x mem_cons_self, ih fun y hy => h y (mem_cons_of_mem x hy)]
    rfl

theorem doUpdateHist_hists (hsized : ∀ t ∈ tables, t.Sized N) (h : BitVec N) (taken : Bool)
    (pc target : Addr) : doUpdateHist (tables.map (·.hists h)) h taken pc target =
      .ok (tables.map (·.hists (pHistShiftIn 2 taken h pc target))) := by
  cases taken with
  | false => rfl
  | true =>
    exact mapM_map_ok _ _ _ tables fun t ht => TageTable.update_hists (hsized t ht) h pc target

theorem recover_hists_map (h h' : BitVec N) :
    ((tables.map (·.hists h)).zip (tables.map (·.hists h'))).mapM (fun p => p.1.recover p.2) =
      .ok (tables.map (·.hists h')) := by
  rw [zip_map']
  exact mapM_map_ok _ _ _ tables fun t _ => TageTable.recover_hists h h'

theorem checkFoldedHist_hists (h : BitVec N) :
    checkFoldedHist (tables.map (·.hists h)) h = .ok () := by
  induction tables with
  | nil => rfl
  | cons t tables ih =>
    show ((t.hists h).check h >>= fun _ => checkFoldedHist (tables.map (·.hists h)) h) = .ok ()
    rw [TageTable.check_hists]
    exact ih

end BTBTAGE

/-! ### Runs -/

namespace Bpu
variable {N : ℕ} {cfg : BpuConfig} {tables : List TageTable}
  {s s' : Bpu N (Except String (List TableHists))}

/-- The folded histories are those of the register; the snapshots in the queue are those of the
histories beside them, and so is the one of a prediction that is going to enter it. -/
structure Folded (tables : List TageTable) (s : Bpu N (Except String (List TableHists))) :
    Prop where
  current : s.folded = .ok (tables.map (·.hists s.histories.path))
  snapshots : ∀ e ∈ s.ftq.cap,
    e.target.predMeta = .ok (tables.map (·.hists e.target.histories.path))
  pending : s.validprediction = true → s.squashing = false →
    s.predMeta = .ok (tables.map (·.hists s.histories.path))

theorem folded_init (hsized : ∀ t ∈ tables, t.Sized N) (startPC : Addr) :
    Folded tables (init startPC (.ok (tables.map (·.init))) :
      Bpu N (Except String (List TableHists))) where
  current := by
    rw [map_congr_left fun t ht => (TageTable.hists_zero (hsized t ht)).symm]
    rfl
  snapshots e he := by cases he
  pending h := by cases h

theorem Folded.processNewPrediction (hsized : ∀ t ∈ tables, t.Sized N) (h : s.Folded tables)
    (hquiet : s.squashing = false) (hstep : s.processNewPrediction cfg tage = .ok s') :
    s'.Folded tables := by
  unfold Bpu.processNewPrediction at hstep
  split_ifs at hstep with hvalid hbubbles hfull hpc
  · cases hstep
    exact h
  · cases hstep
    exact h
  · cases hstep
    exact h
  · cases hstep
    exact h
  · have hlt : s.ftq.cap.length < cfg.ftqSize := by
      simpa [full] using hfull
    dsimp only [TargetQueue.insert] at hstep
    rw [if_pos hlt] at hstep
    cases hstep
    refine ⟨?_, ?_, fun hv => by cases hv⟩
    · show (s.folded >>= fun ts => BTBTAGE.specUpdatePHist ts s.histories.path s.finalPred) = _
      rw [h.current]
      exact doUpdateHist_hists hsized _ _ _ _
    · intro e he
      rcases mem_append.mp he with hold | hnew
      · exact h.snapshots e hold
      · obtain rfl := mem_singleton.mp hnew
        exact h.pending (by simpa using hvalid) hquiet

theorem Folded.requestIfIdle (h : s.Folded tables) (pred : FullBTBPrediction) (bubbles : ℕ) :
    (s.requestIfIdle cfg pred bubbles).Folded tables := by
  unfold Bpu.requestIfIdle
  split_ifs
  · exact ⟨h.current, h.snapshots, h.pending⟩
  · exact ⟨h.current, h.snapshots, fun _ _ => h.current⟩
  · exact h

theorem requestIfIdle_squashing (pred : FullBTBPrediction) (bubbles : ℕ) :
    (s.requestIfIdle cfg pred bubbles).squashing = s.squashing := by
  unfold Bpu.requestIfIdle
  split_ifs <;> rfl

theorem Folded.tick (hsized : ∀ t ∈ tables, t.Sized N) (h : s.Folded tables)
    {pred : FullBTBPrediction} {bubbles : ℕ}
    (hstep : s.tick cfg tage pred bubbles = .ok s') : s'.Folded tables := by
  unfold Bpu.tick at hstep
  split_ifs at hstep with hsquashing
  · cases hstep
    exact ⟨h.current, h.snapshots, fun hv => by cases hv⟩
  · cases hnew : (s.requestIfIdle cfg pred bubbles).processNewPrediction cfg tage with
    | error msg =>
      rw [hnew] at hstep
      cases hstep
    | ok s₁ =>
      have h₁ : s₁.Folded tables :=
        (h.requestIfIdle pred bubbles).processNewPrediction hsized
          (by rw [requestIfIdle_squashing, eq_false_of_ne_true hsquashing]) hnew
      rw [hnew] at hstep
      cases hstep
      exact ⟨h₁.current, h₁.snapshots, h₁.pending⟩

theorem Folded.modify (h : s.Folded tables) (i : ℕ) (sq : Squash) :
    ∀ e ∈ (s.ftq.modify i (·.resolve sq)).cap,
      e.target.predMeta = .ok (tables.map (·.hists e.target.histories.path)) := by
  intro e he
  obtain ⟨k, hk⟩ := mem_iff_getElem?.mp he
  rw [TargetQueue.modify, getElem?_modify] at hk
  obtain ⟨y, hy, rfl⟩ := Option.map_eq_some_iff.mp hk
  have hold := h.snapshots y (mem_of_getElem? hy)
  split_ifs <;> exact hold

theorem recover_path (hsized : ∀ t ∈ tables, t.Sized N)
    (target : QueuedTarget N (Except String (List TableHists))) (sq : Squash) :
    doUpdateHist (tables.map (·.hists target.histories.path)) target.histories.path
        ((target.resolve sq).getHistInfoDuringSquash sq.squashPC sq.isConditional
          sq.actuallyTaken).2 (target.resolve sq).getControlPC (target.resolve sq).getTakenTarget =
      .ok (tables.map (·.hists (Gem5.recoverHistoryForSquash (target.resolve sq).toFetchTarget
        sq.squashPC sq.isConditional sq.actuallyTaken sq.redirectPC).path)) := by
  rw [doUpdateHist_hists hsized]
  cases sq with
  | control pc redirect isCond isIndirect isCall isReturn size taken => rfl
  | other pc => rfl
  | trap pc => rfl

variable {targetId : ℕ}

theorem Folded.handleSquash (hsized : ∀ t ∈ tables, t.Sized N) (h : s.Folded tables) {sq : Squash}
    (hstep : s.handleSquash tage targetId sq = .ok s') : s'.Folded tables := by
  unfold Bpu.handleSquash at hstep
  by_cases hhas : s.ftq.hasTarget targetId = true
  · obtain ⟨e, hget, he⟩ := get_ok hhas
    obtain ⟨hbase, hlt⟩ := (s.ftq.hasTarget_iff targetId).mp hhas
    have hmeta := h.snapshots e (mem_of_getElem? he)
    rw [if_pos hhas, hget] at hstep
    unfold recoverHistoryForSquash at hstep
    dsimp only [bind, Except.bind] at hstep
    split at hstep
    · cases hstep
    · next s₁ hs₁ =>
      split at hs₁
      · cases hs₁
      · cases hs₁
        cases hstep
        refine ⟨?_, ?_, fun _ hq => by cases hq⟩
        · show (s.folded >>= fun ts => e.target.predMeta >>= fun snapshot =>
            recoverPHist ts snapshot e.target.histories.path (e.target.resolve sq) _) = _
          rw [h.current, hmeta]
          show recoverPHist _ _ _ _ _ = _
          rw [recoverPHist, recover_hists_map]
          exact recover_path hsized e.target sq
        · intro x hx
          have hqueue := squashAfter_eq (s.ftq.modify targetId (·.resolve sq)) hbase
          rw [hqueue] at hx
          exact h.modify targetId sq x (mem_of_mem_take hx)
  · rw [if_neg hhas] at hstep
    split_ifs at hstep
    cases hstep
    exact ⟨h.current, h.snapshots, fun _ hq => by cases hq⟩

theorem Folded.commit (h : s.Folded tables) (hallowed : s.Allowed (.commit targetId))
    (hstep : s.commit targetId = .ok s') : s'.Folded tables := by
  unfold Bpu.commit at hstep
  split_ifs at hstep
  · cases hstep
    exact h
  · have hcut : toUnsigned targetId + 1 - s.ftq.baseTargetId ≤ s.ftq.cap.length := by
      have : toUnsigned targetId < s.ftq.baseTargetId + s.ftq.cap.length := hallowed
      omega
    rw [commit_ok s.ftq hcut] at hstep
    cases hstep
    exact ⟨h.current, fun e he => h.snapshots e (mem_of_mem_drop he), h.pending⟩

theorem Folded.step (hsized : ∀ t ∈ tables, t.Sized N) (h : s.Folded tables) {e : BpuEvent}
    (he : s.Allowed e) (hstep : s.step cfg tage e = .ok s') : s'.Folded tables := by
  cases e with
  | tick pred bubbles => exact h.tick hsized hstep
  | block =>
    cases hstep
    exact ⟨h.current, h.snapshots, h.pending⟩
  | commit targetId => exact h.commit he hstep
  | squash targetId sq =>
    change s.squash tage targetId sq = .ok s' at hstep
    unfold Bpu.squash at hstep
    split_ifs at hstep
    · cases hstep
      exact h
    · exact h.handleSquash hsized hstep

theorem Reachable.folded (hsized : ∀ t ∈ tables, t.Sized N) {startPC : Addr}
    (hs : Reachable cfg tage startPC (.ok (tables.map (·.init))) s) : s.Folded tables := by
  induction hs with
  | init => exact folded_init hsized startPC
  | step _ he hstep ih => exact ih.step hsized he hstep

/-- After every operation of a run each index, tag and alternative tag history of each table is the
folded path history, so its check succeeds; the next operation succeeds too. -/
theorem folded_histories (hsized : ∀ t ∈ tables, t.Sized N) {startPC : Addr}
    (hs : Reachable cfg tage startPC (.ok (tables.map (·.init))) s) :
    ∃ ts, s.folded = .ok ts ∧ ts = tables.map (·.hists s.histories.path) ∧
      BTBTAGE.checkFoldedHist ts s.histories.path = .ok () ∧
      ∀ e, s.Allowed e → ∃ s', s.step cfg tage e = .ok s' := by
  refine ⟨_, (hs.folded hsized).current, rfl, checkFoldedHist_hists _, fun e he => ?_⟩
  obtain ⟨s', hs', -⟩ : ∃ s', s.step cfg tage e = .ok s' ∧ s'.Synced := hs.synced.step he
  exact ⟨s', hs'⟩

/-- A table that folds its history, and one that does not. -/
theorem takenBranch_folded :
    ∃ s : Bpu 8 (Except String (List TableHists)),
      Reachable ⟨2, 64⟩ tage 0 (.ok ([⟨8, 4, 3⟩, ⟨2, 4, 3⟩].map TageTable.init)) s ∧
      s.histories.path = 0x30 ∧
      ∃ ts, s.folded = .ok ts ∧ BTBTAGE.checkFoldedHist ts s.histories.path = .ok () := by
  obtain ⟨s, hs, hpath⟩ : ∃ s : Bpu 8 (Except String (List TableHists)),
      Reachable ⟨2, 64⟩ tage 0 (.ok ([⟨8, 4, 3⟩, ⟨2, 4, 3⟩].map TageTable.init)) s ∧
      s.histories.path = 0x30 :=
    ⟨_, (Reachable.init.step (e := .tick ⟨0, [], [], [], 0⟩ 0) trivial rfl).step
      (e := .tick ⟨0, [⟨⟨4, 64, true, false, false, false, 4⟩, true⟩], [(4, true)], [], 0⟩ 0)
      trivial rfl, rfl⟩
  have hsized : ∀ t ∈ ([⟨8, 4, 3⟩, ⟨2, 4, 3⟩] : List TageTable), t.Sized 8 := by
    intro t ht
    rcases mem_pair.mp ht with rfl | rfl <;> constructor <;> decide
  obtain ⟨ts, hts, -, hcheck, -⟩ := folded_histories hsized hs
  exact ⟨s, hs, hpath, ts, hts, hcheck⟩

end Bpu
end Gem5
