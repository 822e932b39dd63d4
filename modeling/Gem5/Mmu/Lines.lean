import Gem5.Mmu.Slots

/-!
# Lines of the second level TLB

The eight entries that a walk reads together form a line.  In the arrays of the second level, slots
are used in groups of eight, and a group is free or holds a line.
-/

namespace Gem5
open List TlbSlot TrieNode

/-! ### Keys -/

theorem getLsbD_lineVaddr_eq (v : Addr) {level j : ℕ} (hl : level ≤ 3) (hj : j < 8) (i : ℕ) :
    (lineVaddr v level j).getLsbD i =
      if i < levelShift level then false
      else if i < levelShift level + 3 then j.testBit (i - levelShift level)
      else v.getLsbD i := by
  by_cases hlow : i < levelShift level
  · rw [lineVaddr, BitVec.getLsbD_shiftLeft]
    simp [hlow]
  · rw [if_neg hlow]
    by_cases hmid : i < levelShift level + 3
    · rw [if_pos hmid]
      have hb : i - levelShift level < 3 := by omega
      have hadd : levelShift level + (i - levelShift level) = i := by omega
      rw [← getLsbD_lineVaddr v hl hj hb, hadd]
    · rw [if_neg hmid]
      by_cases h64 : i < 64
      · have hand : ((v >>> (levelShift level + l2tlbBlkOffset)) <<< l2tlbBlkOffset) &&&
            BitVec.ofNat 64 j = 0#64 := by
          apply BitVec.eq_of_getLsbD_eq
          intro b hb
          by_cases hb3 : b < 3
          · simp [l2tlbBlkOffset, hb3]
          · have hj8 : j.testBit b = false := by
              apply Nat.testBit_lt_two_pow
              exact lt_of_lt_of_le hj (Nat.pow_le_pow_right Nat.two_pos (show 3 ≤ b by omega))
            rw [BitVec.getLsbD_and, BitVec.getLsbD_ofNat, hj8, Bool.and_false, Bool.and_false,
              BitVec.getLsbD_zero]
        have hjbit : j.testBit (i - levelShift level) = false := by
          apply Nat.testBit_lt_two_pow
          exact lt_of_lt_of_le hj
            (Nat.pow_le_pow_right Nat.two_pos (show 3 ≤ i - levelShift level by omega))
        have hidx : levelShift level + l2tlbBlkOffset + (i - levelShift level - l2tlbBlkOffset) =
            i := by
          simp only [l2tlbBlkOffset]
          omega
        have hge : ¬ i - levelShift level < l2tlbBlkOffset := by
          simp only [l2tlbBlkOffset]
          omega
        have hlt : i - levelShift level < 64 := by omega
        rw [lineVaddr, BitVec.add_eq_or_of_and_eq_zero _ _ hand, BitVec.getLsbD_shiftLeft,
          BitVec.getLsbD_or, BitVec.getLsbD_shiftLeft, BitVec.getLsbD_ushiftRight,
          BitVec.getLsbD_ofNat, hidx, hjbit]
        simp [h64, hlow, hge, hlt]
      · rw [BitVec.getLsbD_of_ge _ _ (by omega), BitVec.getLsbD_of_ge _ _ (by omega)]

theorem code_bits (m : TlbTranslateMode) :
    (m.code.getLsbD 0 = false ∧ m.code.getLsbD 1 = false) ↔ m = .direct := by
  cases m <;> decide

theorem getLsbD_buildKey_eq (v : Addr) (asid : BitVec 16) (m : TlbTranslateMode) {i : ℕ}
    (h : i < 64) : (buildKey v asid m).getLsbD i =
      if i < 46 then v.getLsbD (12 + i)
      else if i < 48 then m.code.getLsbD (i - 46) else asid.getLsbD (i - 48) := by
  have hcode : ∀ b, 2 ≤ b → m.code.getLsbD b = false := by
    intro b hb
    have hlt : m.code.toNat < 2 ^ b := by
      have h4 : 4 ≤ 2 ^ b := Nat.pow_le_pow_right Nat.two_pos hb
      have hm : m.code.toNat < 4 := by cases m <;> decide
      omega
    exact Nat.testBit_lt_two_pow hlt
  have h46' : 46 < 64 := by decide
  simp only [buildKey, BitVec.getLsbD_or, BitVec.getLsbD_shiftLeft, BitVec.getLsbD_and,
    BitVec.getLsbD_ushiftRight, BitVec.getLsbD_setWidth, getLsbD_bitMask h46', h, decide_true,
    Bool.true_and]
  by_cases h46 : i < 46
  · simp only [h46, show i < 48 by omega, decide_true, Bool.not_true, Bool.false_and, if_true,
      Bool.and_true, Bool.false_or]
  · by_cases h48 : i < 48
    · simp only [h46, h48, decide_true, decide_false, Bool.not_true, Bool.not_false, Bool.false_and,
        Bool.true_and, Bool.and_false, Bool.or_false, Bool.false_or, if_true, if_false]
    · have h16 : i - 48 < 64 := by omega
      simp only [h46, h48, h16, hcode (i - 46) (by omega), decide_true, decide_false,
        Bool.not_false, Bool.true_and, Bool.and_false, Bool.or_false, if_false]

theorem covers_buildKey_iff {u v : Addr} {a b : BitVec 16} {m : TlbTranslateMode} {n : ℕ}
    (h57 : n ≤ 57) : (ofPage (buildKey u a .direct) n).covers (buildKey v b m) = true ↔
      m = .direct ∧ a = b ∧ ∀ i, max n 12 ≤ i → i < 58 → u.getLsbD i = v.getLsbD i := by
  rw [TrieNode.covers, ofPage, beq_iff_eq]
  -- bit by bit, above the page
  have hbits : buildKey v b m &&& nodeMask n = buildKey u a .direct &&& nodeMask n ↔
      ∀ i, i < 64 → n - 12 ≤ i →
        (buildKey v b m).getLsbD i = (buildKey u a .direct).getLsbD i := by
    constructor
    · intro h i hi hn
      have hbit := congrArg (fun x : Addr => x.getLsbD i) h
      simp only [BitVec.getLsbD_and, getLsbD_nodeMask, hi, hn, decide_true, Bool.and_true] at hbit
      exact hbit
    · intro h
      apply BitVec.eq_of_getLsbD_eq
      intro i hi
      rw [BitVec.getLsbD_and, BitVec.getLsbD_and, getLsbD_nodeMask]
      by_cases hn : n - 12 ≤ i
      · rw [h i hi hn]
      · simp [hn]
  rw [hbits]
  constructor
  · intro h
    refine ⟨?_, ?_, fun i hn h58 => ?_⟩
    · have h46 := h 46 (by decide) (by omega)
      have h47 := h 47 (by decide) (by omega)
      rw [getLsbD_buildKey_eq _ _ _ (by decide), getLsbD_buildKey_eq _ _ _ (by decide)] at h46 h47
      exact (code_bits m).mp ⟨h46, h47⟩
    · apply BitVec.eq_of_getLsbD_eq
      intro i hi
      have hkey := h (48 + i) (by omega) (by omega)
      rw [getLsbD_buildKey_eq _ _ _ (by omega), getLsbD_buildKey_eq _ _ _ (by omega),
        if_neg (by omega), if_neg (by omega), if_neg (by omega), if_neg (by omega),
        Nat.add_sub_cancel_left] at hkey
      exact hkey.symm
    · have hkey := h (i - 12) (by omega) (by omega)
      rw [getLsbD_buildKey_eq _ _ _ (by omega), getLsbD_buildKey_eq _ _ _ (by omega),
        if_pos (by omega), if_pos (by omega), show 12 + (i - 12) = i by omega] at hkey
      exact hkey.symm
  · rintro ⟨rfl, rfl, h⟩ i hi hn
    rw [getLsbD_buildKey_eq _ _ _ hi, getLsbD_buildKey_eq _ _ _ hi]
    by_cases h46 : i < 46
    · rw [if_pos h46, if_pos h46]
      exact (h (12 + i) (by omega) (by omega)).symm
    · rw [if_neg h46, if_neg h46]

/-! ### Lines -/

structure L2Line where
  page : L2Page
  vaddr : Addr
  asid : BitVec 16

def posOf (level : ℕ) (v : Addr) : ℕ :=
  ((v >>> levelShift level) &&& 7).toNat

theorem posOf_lt (level : ℕ) (v : Addr) : posOf level v < 8 := by
  have h : (7 : Addr).toNat = 2 ^ 3 - 1 := rfl
  rw [posOf, BitVec.toNat_and, h, Nat.and_two_pow_sub_one_eq_mod]
  exact Nat.mod_lt _ (by decide)

theorem testBit_posOf (level : ℕ) (v : Addr) {b : ℕ} (hb : b < 3) :
    (posOf level v).testBit b = v.getLsbD (levelShift level + b) := by
  have h : (7 : Addr).toNat = 2 ^ 3 - 1 := rfl
  rw [posOf, BitVec.toNat_and, h, Nat.and_two_pow_sub_one_eq_mod, Nat.testBit_mod_two_pow,
    decide_eq_true hb, Bool.true_and, BitVec.testBit_toNat, BitVec.getLsbD_ushiftRight]

theorem levelShift_le {level : ℕ} (h : level ≤ 3) : levelShift level ≤ 39 := by
  simp only [levelShift, levelBits, pageShift]
  omega

theorem le_levelShift (level : ℕ) : 12 ≤ levelShift level := by
  simp only [levelShift, pageShift]
  omega

theorem levelShift_mono {level level' : ℕ} (h : level ≤ level') :
    levelShift level ≤ levelShift level' := by
  simp only [levelShift, levelBits, pageShift]
  omega

namespace L2Line
variable {l l' : L2Line} {u v : Addr} {b : BitVec 16} {m : TlbTranslateMode} {j : ℕ}

def level (l : L2Line) : ℕ :=
  l.page.level

theorem level_le (l : L2Line) : l.level ≤ 3 := l.page.level_le

def node (l : L2Line) (j : ℕ) : TrieNode :=
  lineNode l.vaddr l.asid l.level j

structure Has (l : L2Line) (v : Addr) (b : BitVec 16) : Prop where
  asid : l.asid = b
  bits : ∀ i, levelShift l.level + 3 ≤ i → i < 58 → l.vaddr.getLsbD i = v.getLsbD i

theorem node_covers_iff (hj : j < 8) : (l.node j).covers (buildKey v b m) = true ↔
      m = .direct ∧ l.Has v b ∧ posOf l.level v = j := by
  have hle := levelShift_le l.level_le
  rw [node, lineNode, covers_buildKey_iff (by omega), max_eq_left (le_levelShift _)]
  constructor
  · rintro ⟨rfl, rfl, hbits⟩
    refine ⟨rfl, ⟨rfl, fun i hi h58 => ?_⟩, ?_⟩
    · have hbit := hbits i (by omega) h58
      rwa [getLsbD_lineVaddr_eq _ l.level_le hj, if_neg (by omega), if_neg (by omega)] at hbit
    · apply eq_of_testBit_three (posOf_lt _ _) hj
      intro c hc
      have hbit := hbits (levelShift l.level + c) (by omega) (by omega)
      rw [getLsbD_lineVaddr _ l.level_le hj hc] at hbit
      rw [testBit_posOf _ _ hc, hbit]
  · rintro ⟨rfl, ⟨rfl, hbits⟩, rfl⟩
    refine ⟨rfl, rfl, fun i hi h58 => ?_⟩
    rw [getLsbD_lineVaddr_eq _ l.level_le hj, if_neg (by omega)]
    split_ifs with h3
    · rw [testBit_posOf _ _ (by omega)]
      congr 1
      omega
    · exact hbits i (by omega) h58

theorem has_iff_of_bits (h : ∀ i, levelShift l.level + 3 ≤ i → u.getLsbD i = v.getLsbD i) :
    l.Has u b ↔ l.Has v b := by
  constructor
  · rintro ⟨rfl, hbits⟩
    refine ⟨rfl, fun i hi h58 => ?_⟩
    rw [← h i hi]
    exact hbits i hi h58
  · rintro ⟨rfl, hbits⟩
    refine ⟨rfl, fun i hi h58 => ?_⟩
    rw [h i hi]
    exact hbits i hi h58

theorem has_lineVaddr_iff {level : ℕ} (hlevel : level ≤ l.level) (hj : j < 8) :
    l.Has (lineVaddr v level j) b ↔ l.Has v b := by
  have hle := levelShift_mono hlevel
  apply has_iff_of_bits
  intro i hi
  rw [getLsbD_lineVaddr_eq _ (hlevel.trans l.level_le) hj, if_neg (by omega), if_neg (by omega)]

theorem posOf_lineVaddr {level : ℕ} (hl : level ≤ 3) (hj : j < 8) :
    posOf level (lineVaddr v level j) = j := by
  apply eq_of_testBit_three (posOf_lt _ _) hj
  intro c hc
  rw [testBit_posOf _ _ hc, getLsbD_lineVaddr _ hl hj hc]

theorem has_self (l : L2Line) : l.Has l.vaddr l.asid := ⟨rfl, fun _ _ _ => rfl⟩

theorem has_congr (hlevel : l.level = l'.level) (h : l.Has l'.vaddr l'.asid) :
    l.Has v b ↔ l'.Has v b := by
  constructor
  · rintro ⟨rfl, hbits⟩
    refine ⟨h.asid.symm, fun i hi h58 => ?_⟩
    rw [← hlevel] at hi
    rw [← h.bits i hi h58, hbits i hi h58]
  · rintro ⟨rfl, hbits⟩
    refine ⟨h.asid, fun i hi h58 => ?_⟩
    rw [h.bits i hi h58]
    rw [hlevel] at hi
    exact hbits i hi h58

theorem node_eq_iff {j' : ℕ} (hj : j < 8) (hj' : j' < 8) :
    l.node j = l'.node j' ↔ l.level = l'.level ∧ l.Has l'.vaddr l'.asid ∧ j = j' := by
  constructor
  · intro h
    have hmask : nodeMask (levelShift l.level) = nodeMask (levelShift l'.level) :=
      congrArg mask h
    have hlevel : l.level = l'.level := by
      have hl := l.level_le
      have hl' := l'.level_le
      revert hmask
      generalize l.level = a at *
      generalize l'.level = b at *
      interval_cases a <;> interval_cases b <;> first | exact fun _ => rfl | decide
    have hcovers : (l.node j).covers (buildKey (lineVaddr l'.vaddr l'.level j') l'.asid .direct) =
        true := by
      rw [h, node_covers_iff hj']
      exact ⟨rfl, (has_lineVaddr_iff (le_refl _) hj').mpr l'.has_self,
        posOf_lineVaddr l'.level_le hj'⟩
    rw [node_covers_iff hj, ← hlevel] at hcovers
    obtain ⟨-, hhas, hpos⟩ := hcovers
    rw [posOf_lineVaddr l.level_le hj'] at hpos
    exact ⟨hlevel, (has_lineVaddr_iff (le_refl _) hj').mp hhas, hpos.symm⟩
  · rintro ⟨hlevel, hhas, rfl⟩
    have hcovers : (l.node j).covers (buildKey (lineVaddr l'.vaddr l.level j) l'.asid .direct) =
        true :=
      (node_covers_iff hj).mpr
        ⟨rfl, (has_lineVaddr_iff (le_refl _) hj).mpr hhas, posOf_lineVaddr l.level_le hj⟩
    have hkey : buildKey (lineVaddr l'.vaddr l.level j) l'.asid .direct &&&
        nodeMask (levelShift l.level) = (l.node j).key := eq_of_beq hcovers
    show l.node j = lineNode l'.vaddr l'.asid l'.level j
    rw [lineNode, ofPage, ← hlevel, hkey]
    rfl
end L2Line

open L2Line

/-! ### Whole arrays -/

def L2Array.ways : L2Array → Option ℕ
  | .l1 => some MmuConfig.l2l1LruNum
  | .l0 => some MmuConfig.l2l0LruNum
  | _ => none

def MmuConfig.setOf (cfg : MmuConfig) (k : L2Array) (v : Addr) : Addr :=
  match k with
  | .l1 => cfg.l1Index v
  | .l0 => cfg.l0Index v
  | _ => 0

structure TlbEntry.Fits (e : TlbEntry) (cfg : MmuConfig) (l : L2Line) (j : ℕ) : Prop where
  vaddr : e.vaddr = lineVaddr l.vaddr l.level j
  asid : e.asid = l.asid
  logBytes : e.logBytes = levelShift l.level
  level : e.level = l.level
  index : l.page.array.ways ≠ none → e.index = cfg.setOf l.page.array l.vaddr

namespace TlbArray
variable {cfg : MmuConfig} {k : L2Array} {a b : TlbArray} {g : ℕ} {l l' : L2Line}

structure Holds (cfg : MmuConfig) (k : L2Array) (a : TlbArray) (g : ℕ) (l : L2Line) : Prop where
  array : l.page.array = k
  handle : ∀ j < 8, (a.slot (8 * g + j)).trieHandle = some (l.node j)
  fits : ∀ j < 8, (a.slot (8 * g + j)).entry.Fits cfg l j

def FreeGroup (a : TlbArray) (g : ℕ) : Prop :=
  ∀ j < 8, (a.slot (8 * g + j)).trieHandle = none

def groupSlots (g : ℕ) : List ℕ :=
  (List.range 8).map fun j => 8 * g + j

def groupsOfSet (cfg : MmuConfig) (k : L2Array) (a : TlbArray) (index : Addr) : List ℕ :=
  (List.range (cfg.lines k)).filter fun g =>
    (a.slot (8 * g)).entry.index == index && (a.slot (8 * g)).linked

/-- Every group is free or holds a line, which no other group holds; the free list consists of the
free groups; and no set has more lines than it may have. -/
structure Whole (cfg : MmuConfig) (k : L2Array) (a : TlbArray) : Prop where
  length : a.slots.length = 8 * cfg.lines k
  groups : ∀ g < cfg.lines k, a.FreeGroup g ∨ ∃ l, a.Holds cfg k g l
  free : ∃ gs : List ℕ, a.freeList = gs.flatMap groupSlots ∧ gs.Nodup ∧
    ∀ g, g ∈ gs ↔ g < cfg.lines k ∧ a.FreeGroup g
  distinct : ∀ g < cfg.lines k, ∀ g' < cfg.lines k, ∀ l l', a.Holds cfg k g l →
    a.Holds cfg k g' l' → l.node 0 = l'.node 0 → g = g'
  sets : ∀ ways, k.ways = some ways → ∀ index, (a.groupsOfSet cfg k index).length ≤ ways

/-! ### Groups -/

theorem FreeGroup.not_holds (hg : a.FreeGroup g) : ¬ a.Holds cfg k g l := by
  intro h
  have hhandle := h.handle 0 (by decide)
  rw [hg 0 (by decide)] at hhandle
  cases hhandle

theorem FreeGroup.linked_head (hg : a.FreeGroup g) : (a.slot (8 * g)).linked = false := by
  have hnone := hg 0 (by decide)
  rw [Nat.add_zero] at hnone
  rw [linked, hnone, Option.isSome_none]

theorem Holds.same (h : a.Holds cfg k g l) (h' : a.Holds cfg k g l') :
    l.level = l'.level ∧ l.Has l'.vaddr l'.asid := by
  have hnode : l.node 0 = l'.node 0 := by
    have h0 := h.handle 0 (by decide)
    rw [h'.handle 0 (by decide)] at h0
    exact (Option.some.inj h0).symm
  obtain ⟨hlevel, hhas, -⟩ := (node_eq_iff (by decide) (by decide)).mp hnode
  exact ⟨hlevel, hhas⟩

theorem Holds.linked (h : a.Holds cfg k g l) {j : ℕ} (hj : j < 8) :
    (a.slot (8 * g + j)).linked = true := by
  rw [TlbSlot.linked, h.handle j hj, Option.isSome_some]

theorem mem_groupSlots {i : ℕ} : i ∈ groupSlots g ↔ i / 8 = g := by
  rw [groupSlots, mem_map]
  constructor
  · rintro ⟨j, hj, rfl⟩
    rw [mem_range] at hj
    omega
  · intro h
    exact ⟨i % 8, mem_range.mpr (by omega), by omega⟩

namespace Whole
theorem slot_cases (h : a.Whole cfg k) {i : ℕ} (hi : i < a.slots.length) :
    (a.slot i).trieHandle = none ∨
      ∃ l, a.Holds cfg k (i / 8) l ∧ (a.slot i).trieHandle = some (l.node (i % 8)) := by
  have hdiv : 8 * (i / 8) + i % 8 = i := by omega
  have hg : i / 8 < cfg.lines k := by
    rw [h.length] at hi
    omega
  rcases h.groups _ hg with hfree | ⟨l, hl⟩
  · have hnone := hfree (i % 8) (by omega)
    rw [hdiv] at hnone
    exact .inl hnone
  · have hsome := hl.handle (i % 8) (by omega)
    rw [hdiv] at hsome
    exact .inr ⟨l, hl, hsome⟩

theorem find_cases (h : a.Whole cfg k) {u : Addr} {c : BitVec 16} {m : TlbTranslateMode} {i : ℕ}
    (hfind : a.find (buildKey u c m) = some i) :
    m = .direct ∧ i / 8 < cfg.lines k ∧ ∃ l, a.Holds cfg k (i / 8) l ∧ l.Has u c ∧
      posOf l.level u = i % 8 ∧
      ∀ g' < cfg.lines k, ∀ l', a.Holds cfg k g' l' → l'.Has u c → l'.level ≤ l.level := by
  obtain ⟨hi, hcovers⟩ := covers_of_find hfind
  have hg : i / 8 < cfg.lines k := by
    rw [h.length] at hi
    omega
  rcases h.slot_cases hi with hnone | ⟨l, hl, hhandle⟩
  · rw [covers_of_unlinked hnone] at hcovers
    cases hcovers
  rw [TlbSlot.covers, hhandle] at hcovers
  obtain ⟨rfl, hhas, hpos⟩ := (node_covers_iff (by omega)).mp hcovers
  refine ⟨rfl, hg, l, hl, hhas, hpos, fun g' hg' l' hl' hhas' => ?_⟩
  by_contra hlt
  -- the slot of the larger page matches too, and is nearer to the root
  have hj' := posOf_lt l'.level u
  have hhandle' := hl'.handle _ hj'
  have hcovers' : (a.slot (8 * g' + posOf l'.level u)).covers (buildKey u c .direct) = true := by
    rw [TlbSlot.covers, hhandle']
    exact (node_covers_iff hj').mpr ⟨rfl, hhas', rfl⟩
  have hmem : 8 * g' + posOf l'.level u ∈ (List.range a.slots.length).filter fun i =>
      (a.slot i).covers (buildKey u c .direct) := by
    rw [mem_filter, mem_range, h.length]
    exact ⟨by omega, hcovers'⟩
  have hle := le_of_mem_argmin hmem hfind
  rw [depth, depth, hhandle, hhandle'] at hle
  have hmask : (nodeMask (levelShift l'.level)).toNat < (nodeMask (levelShift l.level)).toNat := by
    have hlevel := l.level_le
    have hlevel' := l'.level_le
    revert hlt
    generalize l.level = x at *
    generalize l'.level = y at *
    interval_cases x <;> interval_cases y <;> decide
  exact absurd hle (not_le_of_gt hmask)

theorem find_of_holds (h : a.Whole cfg k) {u : Addr} {c : BitVec 16} (hg : g < cfg.lines k)
    (hl : a.Holds cfg k g l) (hhas : l.Has u c) : ∃ i, a.find (buildKey u c .direct) = some i := by
  have hj := posOf_lt l.level u
  have hcovers : (a.slot (8 * g + posOf l.level u)).covers (buildKey u c .direct) = true := by
    rw [TlbSlot.covers, hl.handle _ hj]
    exact (node_covers_iff hj).mpr ⟨rfl, hhas, rfl⟩
  cases hfind : a.find (buildKey u c .direct) with
  | some i => exact ⟨i, rfl⟩
  | none =>
    rw [find, argmin_eq_none, filter_eq_nil_iff] at hfind
    refine absurd hcovers (hfind _ (mem_range.mpr ?_))
    rw [h.length]
    omega
end Whole

/-! ### Changes that keep the lines -/

structure Similar (a b : TlbArray) : Prop where
  length : b.slots.length = a.slots.length
  freeList : b.freeList = a.freeList
  handle : ∀ i, (b.slot i).trieHandle = (a.slot i).trieHandle
  fits : ∀ i cfg l j, (a.slot i).entry.Fits cfg l j → (b.slot i).entry.Fits cfg l j
  index : ∀ i, (b.slot i).entry.index = (a.slot i).entry.index

theorem Marked.similar (h : a.Marked b) : a.Similar b where
  length := h.length
  freeList := h.freeList
  handle := h.handle
  fits i cfg l j hfits := by
    obtain ⟨_, _, _, heq⟩ := h.entry i
    rw [heq]
    exact ⟨hfits.vaddr, hfits.asid, hfits.logBytes, hfits.level, hfits.index⟩
  index i := by
    obtain ⟨_, _, _, heq⟩ := h.entry i
    rw [heq]

theorem Similar.refl (a : TlbArray) : a.Similar a :=
  ⟨rfl, rfl, fun _ => rfl, fun _ _ _ _ h => h, fun _ => rfl⟩

theorem Similar.trans {c : TlbArray} (hab : a.Similar b) (hbc : b.Similar c) : a.Similar c where
  length := hbc.length.trans hab.length
  freeList := hbc.freeList.trans hab.freeList
  handle i := (hbc.handle i).trans (hab.handle i)
  fits i cfg l j h := hbc.fits i cfg l j (hab.fits i cfg l j h)
  index i := (hbc.index i).trans (hab.index i)

theorem similar_update_pte (a : TlbArray) (i : ℕ) (pte : PTE) :
    a.Similar (a.update i fun e => { e with pte := pte }) := by
  have hslot (j : ℕ) : (a.update i fun e => { e with pte := pte }).slot j = a.slot j ∨
      (a.update i fun e => { e with pte := pte }).slot j =
        { a.slot j with entry := { (a.slot j).entry with pte := pte } } := by
    rw [update, slot_set_eq _ _ a.freeList]
    split_ifs with hj
    · rw [hj.1]
      exact .inr rfl
    · exact .inl rfl
  refine ⟨length_set, rfl, fun j => ?_, fun j cfg l n h => ?_, fun j => ?_⟩
  · rcases hslot j with h | h <;> rw [h]
  · rcases hslot j with h' | h' <;> rw [h']
    · exact h
    · exact ⟨h.vaddr, h.asid, h.logBytes, h.level, h.index⟩
  · rcases hslot j with h | h <;> rw [h]

theorem Similar.holds (h : a.Similar b) (hl : a.Holds cfg k g l) : b.Holds cfg k g l where
  array := hl.array
  handle j hj := (h.handle _).trans (hl.handle j hj)
  fits j hj := h.fits _ _ _ _ (hl.fits j hj)

theorem Similar.freeGroup_iff (h : a.Similar b) : b.FreeGroup g ↔ a.FreeGroup g := by
  unfold FreeGroup
  simp only [h.handle]

theorem Similar.whole (h : a.Similar b) (ha : a.Whole cfg k) : b.Whole cfg k := by
  have hback {g : ℕ} {l : L2Line} (hg : g < cfg.lines k) (hl : b.Holds cfg k g l) :
      ∃ l', a.Holds cfg k g l' ∧ l'.node 0 = l.node 0 := by
    rcases ha.groups g hg with hfree | ⟨l', hl'⟩
    · exact absurd hl (h.freeGroup_iff.mpr hfree).not_holds
    · refine ⟨l', hl', ?_⟩
      have h0 := hl.handle 0 (by decide)
      rw [h.handle, hl'.handle 0 (by decide)] at h0
      exact Option.some.inj h0
  refine ⟨h.length.trans ha.length, fun g hg => ?_, ?_, ?_, ?_⟩
  · rcases ha.groups g hg with hfree | ⟨l, hl⟩
    · exact .inl (h.freeGroup_iff.mpr hfree)
    · exact .inr ⟨l, h.holds hl⟩
  · obtain ⟨gs, hgs, hnodup, hmem⟩ := ha.free
    refine ⟨gs, h.freeList.trans hgs, hnodup, fun g => ?_⟩
    rw [hmem, h.freeGroup_iff]
  · intro g hg g' hg' l l' hl hl' hnode
    obtain ⟨l₁, hl₁, h₁⟩ := hback hg hl
    obtain ⟨l₂, hl₂, h₂⟩ := hback hg' hl'
    exact ha.distinct g hg g' hg' l₁ l₂ hl₁ hl₂ (by rw [h₁, h₂, hnode])
  · intro ways hways index
    have hsets : b.groupsOfSet cfg k index = a.groupsOfSet cfg k index := by
      unfold groupsOfSet linked
      simp only [h.handle, h.index]
    rw [hsets]
    exact ha.sets ways hways index

/-! ### A line is removed -/

structure Freed (a : TlbArray) (g : ℕ) (b : TlbArray) : Prop where
  length : b.slots.length = a.slots.length
  freeList : b.freeList = a.freeList ++ groupSlots g
  slot : ∀ i, b.slot i = if i / 8 = g then { a.slot i with trieHandle := none } else a.slot i

/-- The same after the first `n` slots of the group. -/
structure Unlinked (a : TlbArray) (g n : ℕ) (b : TlbArray) : Prop where
  length : b.slots.length = a.slots.length
  freeList : b.freeList = a.freeList ++ (List.range n).map fun j => 8 * g + j
  slot : ∀ i, b.slot i =
    if 8 * g ≤ i ∧ i < 8 * g + n then { a.slot i with trieHandle := none } else a.slot i

theorem Unlinked.next {n : ℕ} (h : a.Unlinked g n b) (hl : a.Holds cfg k g l)
    (hlen : 8 * g + 8 ≤ a.slots.length) (hn : n < 8) :
    ∃ c, b.unlink (8 * g + n) = .ok c ∧ a.Unlinked g (n + 1) c := by
  have hlinked : (b.slot (8 * g + n)).linked = true := by
    rw [h.slot, if_neg (by omega)]
    exact hl.linked hn
  have hunlink : b.unlink (8 * g + n) = .ok ⟨b.slots.set (8 * g + n)
      { b.slot (8 * g + n) with trieHandle := none }, b.freeList ++ [8 * g + n]⟩ := by
    rw [unlink, if_pos hlinked]
  refine ⟨_, hunlink, length_set.trans h.length, ?_, fun i => ?_⟩
  · rw [range_succ, map_append, ← append_assoc, ← h.freeList]
    rfl
  · rw [slot_set_eq _ _ b.freeList, h.length]
    by_cases hi : i = 8 * g + n
    · subst hi
      rw [if_pos ⟨rfl, by omega⟩, if_pos (by omega), h.slot, if_neg (by omega)]
    · rw [if_neg (by omega)]
      rw [h.slot]
      by_cases hin : 8 * g ≤ i ∧ i < 8 * g + n
      · rw [if_pos hin, if_pos (by omega)]
      · rw [if_neg hin, if_neg (by omega)]

/-! ### Arrays with the same slots in a group -/

theorem Holds.congr (hl : a.Holds cfg k g l)
    (hslot : ∀ j < 8, b.slot (8 * g + j) = a.slot (8 * g + j)) : b.Holds cfg k g l where
  array := hl.array
  handle j hj := by
    rw [hslot j hj]
    exact hl.handle j hj
  fits j hj := by
    rw [hslot j hj]
    exact hl.fits j hj

theorem FreeGroup.congr (hfree : a.FreeGroup g)
    (hslot : ∀ j < 8, b.slot (8 * g + j) = a.slot (8 * g + j)) : b.FreeGroup g := by
  intro j hj
  rw [hslot j hj]
  exact hfree j hj

theorem FreeGroup.groupsOfSet_eq (hfree : b.FreeGroup g)
    (hslot : ∀ g' ≠ g, ∀ j < 8, b.slot (8 * g' + j) = a.slot (8 * g' + j)) (index : Addr) :
    b.groupsOfSet cfg k index = (a.groupsOfSet cfg k index).filter fun g' => g' != g := by
  unfold groupsOfSet
  rw [filter_filter]
  apply filter_congr
  intro g' _
  by_cases hne : g' = g
  · subst hne
    simp [hfree.linked_head]
  · have hhead := hslot g' hne 0 (by decide)
    simp only [Nat.add_zero] at hhead
    simp [hhead, hne]

theorem Holds.unlinkAll (hl : a.Holds cfg k g l) (hlen : 8 * g + 8 ≤ a.slots.length) :
    ∃ b, (List.range l2tlbLineSize).foldlM (fun a j => a.unlink (8 * g + j)) a = .ok b ∧
      a.Freed g b := by
  have hstart : a.Unlinked g 0 a := by
    refine ⟨rfl, (append_nil _).symm, fun i => ?_⟩
    rw [if_neg (by omega)]
  obtain ⟨b, hb, h⟩ := Loop.foldlM_range_ok (n := 8) (fun n b => a.Unlinked g n b)
    (fun n hn b h => h.next hl hlen hn) hstart
  refine ⟨b, hb, h.length, h.freeList, fun i => ?_⟩
  rw [h.slot]
  by_cases hi : i / 8 = g
  · rw [if_pos hi, if_pos (by omega)]
  · rw [if_neg hi, if_neg (by omega)]

namespace Freed

section
variable (h : a.Freed g b)
include h

theorem slot_of_ne {g' j : ℕ} (hne : g' ≠ g) (hj : j < 8) :
    b.slot (8 * g' + j) = a.slot (8 * g' + j) := by
  rw [h.slot, if_neg (by omega)]

theorem freeGroup : b.FreeGroup g := by
  intro j hj
  rw [h.slot, if_pos (by omega)]

theorem freeGroup_iff {g' : ℕ} (hne : g' ≠ g) : b.FreeGroup g' ↔ a.FreeGroup g' :=
  ⟨fun hfree => hfree.congr fun _ hj => (h.slot_of_ne hne hj).symm,
    fun hfree => hfree.congr fun _ hj => h.slot_of_ne hne hj⟩

theorem freeGroup_of {g' : ℕ} (hfree : a.FreeGroup g') : b.FreeGroup g' := by
  by_cases hne : g' = g
  · subst hne
    exact h.freeGroup
  · exact (h.freeGroup_iff hne).mpr hfree

theorem holds_iff {g' : ℕ} : b.Holds cfg k g' l ↔ g' ≠ g ∧ a.Holds cfg k g' l := by
  constructor
  · intro hl
    have hne : g' ≠ g := by
      rintro rfl
      exact h.freeGroup.not_holds hl
    exact ⟨hne, hl.congr fun _ hj => (h.slot_of_ne hne hj).symm⟩
  · rintro ⟨hne, hl⟩
    exact hl.congr fun _ hj => h.slot_of_ne hne hj

theorem groupsOfSet_eq (index : Addr) :
    b.groupsOfSet cfg k index = (a.groupsOfSet cfg k index).filter fun g' => g' != g :=
  h.freeGroup.groupsOfSet_eq (fun _ hne _ hj => h.slot_of_ne hne hj) index

theorem whole (ha : a.Whole cfg k) (hg : g < cfg.lines k)
    (hl : a.Holds cfg k g l) : b.Whole cfg k := by
  refine ⟨h.length.trans ha.length, fun g' hg' => ?_, ?_, ?_, fun ways hways index => ?_⟩
  · by_cases hne : g' = g
    · subst hne
      exact .inl h.freeGroup
    · rcases ha.groups g' hg' with hfree | ⟨l', hl'⟩
      · exact .inl ((h.freeGroup_iff hne).mpr hfree)
      · exact .inr ⟨l', h.holds_iff.mpr ⟨hne, hl'⟩⟩
  · obtain ⟨gs, hgs, hnodup, hmem⟩ := ha.free
    have hnot : g ∉ gs := fun hin => ((hmem g).mp hin).2.not_holds hl
    refine ⟨gs ++ [g], ?_, ?_, fun g' => ?_⟩
    · rw [h.freeList, hgs, flatMap_append, flatMap_singleton]
    · rw [nodup_append]
      refine ⟨hnodup, nodup_singleton g, fun x hx y hy hxy => ?_⟩
      rw [mem_singleton] at hy
      subst hy
      subst hxy
      exact hnot hx
    · rw [mem_append, mem_singleton, hmem]
      by_cases hne : g' = g
      · subst hne
        simp [hg, h.freeGroup]
      · rw [h.freeGroup_iff hne]
        simp [hne]
  · intro g₁ hg₁ g₂ hg₂ l₁ l₂ hl₁ hl₂ hnode
    exact ha.distinct g₁ hg₁ g₂ hg₂ l₁ l₂ (h.holds_iff.mp hl₁).2 (h.holds_iff.mp hl₂).2 hnode
  · rw [h.groupsOfSet_eq]
    exact (length_filter_le _ _).trans (ha.sets ways hways index)
end
end Freed

/-! ### A line is placed -/

structure Filled (a : TlbArray) (g : ℕ) (x : ℕ → TlbSlot) (b : TlbArray) : Prop where
  length : b.slots.length = a.slots.length
  freeList : a.freeList = groupSlots g ++ b.freeList
  slot : ∀ i, b.slot i = if i / 8 = g then x (i % 8) else a.slot i

namespace Filled
variable {x : ℕ → TlbSlot}

section
variable (h : a.Filled g x b)
include h

theorem slot_of_ne {g' j : ℕ} (hne : g' ≠ g) (hj : j < 8) :
    b.slot (8 * g' + j) = a.slot (8 * g' + j) := by
  rw [h.slot, if_neg (by omega)]

theorem slot_self {j : ℕ} (hj : j < 8) : b.slot (8 * g + j) = x j := by
  rw [h.slot, if_pos (by omega), show (8 * g + j) % 8 = j by omega]

theorem holds_of_ne {g' : ℕ} (hne : g' ≠ g) : b.Holds cfg k g' l ↔ a.Holds cfg k g' l :=
  ⟨fun hl => hl.congr fun _ hj => (h.slot_of_ne hne hj).symm,
    fun hl => hl.congr fun _ hj => h.slot_of_ne hne hj⟩

theorem freeGroup_of_ne {g' : ℕ} (hne : g' ≠ g) : b.FreeGroup g' ↔ a.FreeGroup g' :=
  ⟨fun hfree => hfree.congr fun _ hj => (h.slot_of_ne hne hj).symm,
    fun hfree => hfree.congr fun _ hj => h.slot_of_ne hne hj⟩

theorem groupsOfSet_eq (hfree : a.FreeGroup g) (index : Addr) :
    a.groupsOfSet cfg k index = (b.groupsOfSet cfg k index).filter fun g' => g' != g :=
  hfree.groupsOfSet_eq (fun _ hne _ hj => (h.slot_of_ne hne hj).symm) index
end

variable (hl : l.page.array = k) (hhandle : ∀ j < 8, (x j).trieHandle = some (l.node j))
  (hfits : ∀ j < 8, (x j).entry.Fits cfg l j)
include hl hhandle hfits

theorem holds (h : a.Filled g x b) : b.Holds cfg k g l where
  array := hl
  handle j hj := by
    rw [h.slot_self hj]
    exact hhandle j hj
  fits j hj := by
    rw [h.slot_self hj]
    exact hfits j hj

theorem whole (h : a.Filled g x b) (ha : a.Whole cfg k) (hg : g < cfg.lines k)
    (hfree : a.FreeGroup g)
    (hnew : ∀ g' < cfg.lines k, ∀ l', a.Holds cfg k g' l' → l'.node 0 ≠ l.node 0)
    (hroom : ∀ ways, k.ways = some ways →
      (a.groupsOfSet cfg k (cfg.setOf k l.vaddr)).length < ways) : b.Whole cfg k := by
  have hholds := h.holds hl hhandle hfits
  have hnode0 : (b.slot (8 * g)).linked = true ∧
      (k.ways ≠ none → (b.slot (8 * g)).entry.index = cfg.setOf k l.vaddr) := by
    refine ⟨hholds.linked (show 0 < 8 by decide), fun hways => ?_⟩
    have hindex := (hholds.fits 0 (by decide)).index
    rw [hl] at hindex
    exact hindex hways
  refine ⟨h.length.trans ha.length, fun g' hg' => ?_, ?_, ?_, fun ways hways index => ?_⟩
  · by_cases hne : g' = g
    · subst hne
      exact .inr ⟨l, hholds⟩
    · rcases ha.groups g' hg' with hfree' | ⟨l', hl'⟩
      · exact .inl ((h.freeGroup_of_ne hne).mpr hfree')
      · exact .inr ⟨l', (h.holds_of_ne hne).mpr hl'⟩
  · obtain ⟨gs, hgs, hnodup, hmem⟩ := ha.free
    -- the first group of the free list is the one that is filled
    cases gs with
    | nil =>
      have hlen := congrArg List.length (h.freeList.symm.trans hgs)
      simp [groupSlots] at hlen
    | cons g₀ gs =>
      rw [h.freeList, flatMap_cons] at hgs
      obtain ⟨hhead, htail⟩ := append_inj hgs (by simp [groupSlots])
      have hg₀ : g₀ = g := by
        have hmem₀ : 8 * g ∈ groupSlots g₀ := by
          rw [← hhead, mem_groupSlots]
          omega
        rw [mem_groupSlots] at hmem₀
        omega
      subst hg₀
      obtain ⟨hnot, hnodup'⟩ := nodup_cons.mp hnodup
      refine ⟨gs, htail, hnodup', fun g' => ?_⟩
      by_cases hne : g' = g₀
      · subst hne
        exact iff_of_false hnot fun hfree' => hfree'.2.not_holds hholds
      · rw [h.freeGroup_of_ne hne, ← hmem g', mem_cons]
        exact (or_iff_right hne).symm
  · intro g₁ hg₁ g₂ hg₂ l₁ l₂ hl₁ hl₂ hnode
    by_cases h₁ : g₁ = g
    · by_cases h₂ : g₂ = g
      · rw [h₁, h₂]
      · subst h₁
        have hold := (h.holds_of_ne h₂).mp hl₂
        obtain ⟨hlevel, hhas⟩ := hl₁.same hholds
        have hsame : l₁.node 0 = l.node 0 :=
          (node_eq_iff (by decide) (by decide)).mpr ⟨hlevel, hhas, rfl⟩
        exact absurd (hnode.symm.trans hsame) (hnew g₂ hg₂ l₂ hold)
    · by_cases h₂ : g₂ = g
      · subst h₂
        have hold := (h.holds_of_ne h₁).mp hl₁
        obtain ⟨hlevel, hhas⟩ := hl₂.same hholds
        have hsame : l₂.node 0 = l.node 0 :=
          (node_eq_iff (by decide) (by decide)).mpr ⟨hlevel, hhas, rfl⟩
        exact absurd (hnode.trans hsame) (hnew g₁ hg₁ l₁ hold)
      · exact ha.distinct g₁ hg₁ g₂ hg₂ l₁ l₂ ((h.holds_of_ne h₁).mp hl₁)
          ((h.holds_of_ne h₂).mp hl₂) hnode
  · have hsets : a.groupsOfSet cfg k index =
        (b.groupsOfSet cfg k index).filter fun g' => g' != g := h.groupsOfSet_eq hfree index
    have hnodup : (b.groupsOfSet cfg k index).Nodup := List.Nodup.filter _ nodup_range
    have hold := ha.sets ways hways index
    rw [hsets, ← hnodup.erase_eq_filter] at hold
    by_cases hmem : g ∈ b.groupsOfSet cfg k index
    · -- the set of the new line, which had room
      have hindex : cfg.setOf k l.vaddr = index := by
        rw [groupsOfSet, mem_filter, Bool.and_eq_true, beq_iff_eq] at hmem
        rw [← hnode0.2 (by rw [hways]; exact Option.some_ne_none _)]
        exact hmem.2.1
      have hlt := hroom ways hways
      rw [hindex, hsets, ← hnodup.erase_eq_filter, length_erase_of_mem hmem] at hlt
      omega
    · rwa [erase_of_not_mem hmem] at hold
end Filled
end TlbArray
end Gem5
