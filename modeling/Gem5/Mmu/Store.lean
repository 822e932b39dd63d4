import Gem5.Mmu.Lines

/-!
# The second level TLB on whole arrays
-/

namespace Gem5
open List L2Line TlbArray Loop

section
variable (p : L2Page) (v : Addr)

theorem L2Page.lineOf_eq : p.lineOf v = lineVaddr v p.level 0 := by
  apply BitVec.eq_of_getLsbD_eq
  intro i hi
  rw [getLsbD_lineVaddr_eq _ p.level_le (by decide), lineOf, BitVec.getLsbD_shiftLeft,
    BitVec.getLsbD_ushiftRight]
  simp only [l2tlbBlkOffset, hi]
  by_cases h3 : i < levelShift p.level + 3
  · simp [h3]
  · have hadd : levelShift p.level + 3 + (i - (levelShift p.level + 3)) = i := by omega
    simp [h3, hadd, show ¬ i < levelShift p.level by omega]

theorem L2Page.nthOf_eq {j : ℕ} (hj : j < 8) : p.nthOf v j = lineVaddr v p.level j := by
  have hstep : BitVec.ofNat 64 j * ((1 : Addr) <<< levelShift p.level) =
      BitVec.ofNat 64 j <<< levelShift p.level := by
    rw [BitVec.shiftLeft_eq_mul_twoPow, BitVec.shiftLeft_eq_mul_twoPow, one_mul]
  have hbit {i : ℕ} (h3 : ¬ i < levelShift p.level + 3) :
      j.testBit (i - levelShift p.level) = false :=
    Nat.testBit_lt_two_pow (lt_of_lt_of_le hj
      (Nat.pow_le_pow_right Nat.two_pos (show 3 ≤ i - levelShift p.level by omega)))
  have hdisjoint : (p.lineOf v) &&& (BitVec.ofNat 64 j <<< levelShift p.level) = 0#64 := by
    apply BitVec.eq_of_getLsbD_eq
    intro i hi
    rw [BitVec.getLsbD_and, p.lineOf_eq, getLsbD_lineVaddr_eq _ p.level_le (by decide),
      BitVec.getLsbD_shiftLeft, BitVec.getLsbD_ofNat, BitVec.getLsbD_zero, Nat.zero_testBit]
    by_cases h3 : i < levelShift p.level + 3
    · simp [h3]
    · rw [hbit h3]
      simp
  rw [nthOf, hstep, BitVec.add_eq_or_of_and_eq_zero _ _ hdisjoint, p.lineOf_eq]
  apply BitVec.eq_of_getLsbD_eq
  intro i hi
  rw [BitVec.getLsbD_or, getLsbD_lineVaddr_eq _ p.level_le (by decide),
    getLsbD_lineVaddr_eq _ p.level_le hj, BitVec.getLsbD_shiftLeft, BitVec.getLsbD_ofNat,
    Nat.zero_testBit]
  by_cases hlow : i < levelShift p.level
  · simp [hlow]
  · by_cases h3 : i < levelShift p.level + 3
    · simp [hlow, h3, hi, show i - levelShift p.level < 64 by omega]
    · simp only [hlow, h3, hbit h3, Bool.and_false, Bool.or_false]

theorem L2Page.getLsbD_pageOf {i : ℕ} (hi : levelShift p.level ≤ i) :
    (p.pageOf v).getLsbD i = v.getLsbD i := by
  by_cases h64 : i < 64
  · have hadd : levelShift p.level + (i - levelShift p.level) = i := by omega
    rw [pageOf, BitVec.getLsbD_shiftLeft, BitVec.getLsbD_ushiftRight, hadd]
    simp [h64, show ¬ i < levelShift p.level by omega]
  · rw [BitVec.getLsbD_of_ge _ _ (by omega), BitVec.getLsbD_of_ge _ _ (by omega)]
end

namespace L2Line
variable {l : L2Line} {v : Addr} {b : BitVec 16}

theorem has_pageOf_iff {p : L2Page} (hlevel : p.level ≤ l.level) :
    l.Has (p.pageOf v) b ↔ l.Has v b := by
  have hle := levelShift_mono hlevel
  exact has_iff_of_bits fun i hi => p.getLsbD_pageOf v (by omega)

theorem posOf_pageOf (p : L2Page) (v : Addr) : posOf p.level (p.pageOf v) = posOf p.level v := by
  apply eq_of_testBit_three (posOf_lt _ _) (posOf_lt _ _)
  intro c hc
  rw [testBit_posOf _ _ hc, testBit_posOf _ _ hc, p.getLsbD_pageOf v (Nat.le_add_right _ c)]
end L2Line

variable {p q : L2Page}

theorem L2Page.otherSize_iff (harray : q.array = p.array) :
    p.otherSize q.level = false ↔ q = p := by
  revert harray
  cases p <;> cases q <;> decide

theorem L2Page.eq_of_level (harray : q.array = p.array) (hlevel : q.level = p.level) : q = p := by
  revert harray hlevel
  cases p <;> cases q <;> decide

/-! ### The lines of an array -/

namespace TlbArray
variable {cfg : MmuConfig} {k : L2Array} {a b : TlbArray} {g : ℕ} {l : L2Line} {level : ℕ}
  {v : Addr} {asid : BitVec 16}

def Caches (cfg : MmuConfig) (k : L2Array) (a : TlbArray) (level : ℕ) (v : Addr)
    (asid : BitVec 16) : Prop :=
  ∃ g < cfg.lines k, ∃ l, a.Holds cfg k g l ∧ l.level = level ∧ l.Has v asid

theorem Holds.caches (hl : a.Holds cfg k g l) (hg : g < cfg.lines k) (hhas : l.Has v asid) :
    a.Caches cfg k l.level v asid := ⟨g, hg, l, hl, rfl, hhas⟩

theorem Whole.group_unique (ha : a.Whole cfg k) {g' : ℕ} {l' : L2Line} (hg : g < cfg.lines k)
    (hg' : g' < cfg.lines k) (hl : a.Holds cfg k g l) (hl' : a.Holds cfg k g' l')
    (hlevel : l.level = l'.level) (hhas : l.Has v asid) (hhas' : l'.Has v asid) : g = g' := by
  apply ha.distinct g hg g' hg' l l' hl hl'
  rw [node_eq_iff (by decide) (by decide)]
  refine ⟨hlevel, ⟨hhas.asid.trans hhas'.asid.symm, fun i hi h58 => ?_⟩, rfl⟩
  rw [hhas.bits i hi h58]
  rw [hlevel] at hi
  exact (hhas'.bits i hi h58).symm

theorem Similar.caches_iff (h : a.Similar b) (ha : a.Whole cfg k) :
    b.Caches cfg k level v asid ↔ a.Caches cfg k level v asid := by
  constructor
  · rintro ⟨g, hg, l, hl, rfl, hhas⟩
    rcases ha.groups g hg with hfree | ⟨l', hl'⟩
    · exact absurd hl (h.freeGroup_iff.mpr hfree).not_holds
    · obtain ⟨hlevel, hsame⟩ := (h.holds hl').same hl
      exact ⟨g, hg, l', hl', hlevel, (has_congr hlevel hsame).mpr hhas⟩
  · rintro ⟨g, hg, l, hl, rfl, hhas⟩
    exact (h.holds hl).caches hg hhas

theorem Freed.caches_iff (h : a.Freed g b) (ha : a.Whole cfg k) (hg : g < cfg.lines k)
    (hl : a.Holds cfg k g l) : b.Caches cfg k level v asid ↔
      a.Caches cfg k level v asid ∧ ¬ (level = l.level ∧ l.Has v asid) := by
  constructor
  · rintro ⟨g', hg', l', hl', rfl, hhas'⟩
    obtain ⟨hne, hold⟩ := h.holds_iff.mp hl'
    refine ⟨hold.caches hg' hhas', ?_⟩
    rintro ⟨hlevel, hhas⟩
    exact hne (ha.group_unique hg' hg hold hl hlevel hhas' hhas)
  · rintro ⟨⟨g', hg', l', hl', rfl, hhas'⟩, hnot⟩
    refine (h.holds_iff.mpr ⟨?_, hl'⟩).caches hg' hhas'
    rintro rfl
    obtain ⟨hlevel, hsame⟩ := hl'.same hl
    exact hnot ⟨hlevel, (has_congr hlevel hsame).mp hhas'⟩

theorem caches_lineVaddr_iff {level' j : ℕ} (hlevel : level' ≤ level) (hj : j < 8) :
    a.Caches cfg k level (lineVaddr v level' j) asid ↔ a.Caches cfg k level v asid := by
  constructor
  · rintro ⟨g, hg, l, hl, rfl, hhas⟩
    exact hl.caches hg ((has_lineVaddr_iff hlevel hj).mp hhas)
  · rintro ⟨g, hg, l, hl, rfl, hhas⟩
    exact hl.caches hg ((has_lineVaddr_iff hlevel hj).mpr hhas)

theorem not_caches_of_free (hfree : ∀ g < cfg.lines k, a.FreeGroup g) :
    ¬ a.Caches cfg k level v asid := by
  rintro ⟨g, hg, l, hl, -, -⟩
  exact (hfree g hg).not_holds hl
end TlbArray

namespace L2Tlb
variable {cfg : MmuConfig} {s t : L2Tlb} {page : L2Page} {v : Addr} {asid : BitVec 16}
  {mode : TlbTranslateMode}

def Whole (cfg : MmuConfig) (s : L2Tlb) : Prop :=
  ∀ k, (s.arrays k).Whole cfg k

theorem Marked.whole (h : s.Marked t) (hs : s.Whole cfg) : t.Whole cfg :=
  fun k => (h k).similar.whole (hs k)

variable {k : L2Array} {g : ℕ} {gone gone' : L2Page → Prop}

theorem Whole.setArray (hs : s.Whole cfg) {a : TlbArray} (ha : a.Whole cfg k) :
    (s.setArray k a).Whole cfg := by
  intro j
  by_cases hj : j = k
  · subst hj
    rw [setArray_self]
    exact ha
  · rw [setArray_of_ne _ _ hj]
    exact hs j

theorem init_whole (cfg : MmuConfig) : (init cfg).Whole cfg := by
  have hunused (n i : ℕ) : (TlbArray.init n).slot i = .unused := by
    by_cases hi : i < n <;> simp [slot, TlbArray.init, hi]
  intro k
  show (TlbArray.init (cfg.lines k * l2tlbLineSize)).Whole cfg k
  have hfree (g : ℕ) : (TlbArray.init (cfg.lines k * l2tlbLineSize)).FreeGroup g := by
    intro j _
    rw [hunused]
    rfl
  refine ⟨?_, fun g _ => .inl (hfree g), ⟨List.range (cfg.lines k), ?_, nodup_range,
    fun g => ?_⟩, fun g _ _ _ l _ hl _ _ => absurd hl (hfree g).not_holds, fun ways _ index => ?_⟩
  · simp only [TlbArray.init, length_replicate, l2tlbLineSize]
    omega
  · show List.range (cfg.lines k * l2tlbLineSize) = _
    -- the numbers up to a multiple of eight, group by group
    generalize cfg.lines k = n
    induction n with
    | zero => rfl
    | succ n ih =>
      rw [range_succ, flatMap_append, ← ih, Nat.succ_mul, range_add, flatMap_singleton, groupSlots]
      simp only [l2tlbLineSize, Nat.mul_comm]
  · simp [mem_range, hfree g]
  · have hnone : (TlbArray.init (cfg.lines k * l2tlbLineSize)).groupsOfSet cfg k index = [] := by
      rw [groupsOfSet, filter_eq_nil_iff]
      intro g _
      rw [hunused]
      simp [TlbSlot.unused, TlbSlot.linked]
    rw [hnone]
    exact Nat.zero_le _

section
variable (hs : s.Whole cfg)
include hs

theorem hit_cases {i : ℕ} (h : s.hit page v asid mode = some i) :
    mode = .direct ∧ i / 8 < cfg.lines page.array ∧ ∃ l : L2Line, l.page = page ∧
      (s.arrays page.array).Holds cfg page.array (i / 8) l ∧ l.Has v asid ∧
      posOf page.level v = i % 8 := by
  obtain ⟨hfind, hsize⟩ := Option.filter_eq_some_iff.mp h
  obtain ⟨hmode, hg, l, hl, hhas, hpos, -⟩ := (hs page.array).find_cases hfind
  have hfits := hl.fits (i % 8) (by omega)
  rw [show 8 * (i / 8) + i % 8 = i by omega] at hfits
  have hpage : l.page = page := by
    rw [hfits.level, Bool.not_eq_true'] at hsize
    exact (L2Page.otherSize_iff hl.array).mp hsize
  subst hpage
  refine ⟨hmode, hg, l, rfl, hl, (has_pageOf_iff (le_refl l.level)).mp hhas, ?_⟩
  rw [← hpos]
  exact (posOf_pageOf l.page v).symm

theorem hit_isSome_iff : (s.hit page v asid .direct).isSome = true ↔
      (s.arrays page.array).Caches cfg page.array page.level v asid ∧ ∀ level, page.level < level →
        ¬ (s.arrays page.array).Caches cfg page.array level v asid := by
  constructor
  · intro h
    obtain ⟨i, hi⟩ := Option.isSome_iff_exists.mp h
    obtain ⟨hfind, -⟩ := Option.filter_eq_some_iff.mp hi
    obtain ⟨-, -, l', hl', hhas', -, hmax⟩ := (hs page.array).find_cases hfind
    obtain ⟨-, hg, l, rfl, hl, hhas, -⟩ := hit_cases hs hi
    refine ⟨hl.caches hg hhas, ?_⟩
    rintro level hlevel ⟨g₂, hg₂, l₂, hl₂, rfl, hhas₂⟩
    have hle := hmax g₂ hg₂ l₂ hl₂ ((has_pageOf_iff hlevel.le).mpr hhas₂)
    rw [(hl'.same hl).1] at hle
    exact absurd hlevel (not_lt_of_ge hle)
  · rintro ⟨⟨g, hg, l, hl, hlevel, hhas⟩, hnone⟩
    have hpageOf := (has_pageOf_iff hlevel.ge).mpr hhas
    obtain ⟨i, hi⟩ := (hs page.array).find_of_holds hg hl hpageOf
    obtain ⟨-, hgi, l', hl', hhas', -, hmax⟩ := (hs page.array).find_cases hi
    have hge : page.level ≤ l'.level := hlevel ▸ hmax g hg l hl hpageOf
    have heq : l'.level = page.level := by
      rcases Nat.lt_or_eq_of_le hge with hlt | heq
      · exact absurd (hl'.caches hgi ((has_pageOf_iff hge).mp hhas')) (hnone _ hlt)
      · exact heq.symm
    have hfits := hl'.fits (i % 8) (by omega)
    rw [show 8 * (i / 8) + i % 8 = i by omega] at hfits
    rw [hit, hi, Option.filter_some, hfits.level, heq]
    rw [(L2Page.otherSize_iff (q := page) rfl).mpr rfl]
    rfl

theorem hit_lineVaddr_isSome_iff {j : ℕ} (hj : j < 8) :
    (s.hit page (lineVaddr v page.level j) asid .direct).isSome = true ↔
      (s.hit page v asid .direct).isSome = true := by
  rw [hit_isSome_iff hs, hit_isSome_iff hs, caches_lineVaddr_iff (le_refl _) hj]
  refine and_congr_right fun _ => forall₂_congr fun level hlevel => ?_
  rw [caches_lineVaddr_iff hlevel.le hj]

theorem hit_lineOf_isSome_iff : (s.hit page (page.lineOf v) asid .direct).isSome = true ↔
      (s.hit page v asid .direct).isSome = true := by
  rw [page.lineOf_eq]
  exact hit_lineVaddr_isSome_iff hs (by decide)

theorem hit_of_mode (hmode : mode ≠ .direct) : s.hit page v asid mode = none := by
  cases h : s.hit page v asid mode with
  | none => rfl
  | some i => exact absurd (hit_cases hs h).1 hmode
end

/-! ### Lookups -/

theorem touchLine_ok {message : String} {hidden writeSign : Bool}
    (h : ∀ i < 8, ∃ j, (s.arrays page.array).find (buildKey (page.nthOf v i) asid mode) = some j) :
    ∃ t, s.touchLine message page v asid mode hidden writeSign = .ok t ∧ s.Marked t := by
  apply foldlM_range_ok (fun _ u => s.Marked u)
  · intro i hi u hu
    obtain ⟨j, hj⟩ := h i hi
    -- marks do not change what is found
    rw [← (hu page.array).find] at hj
    refine ⟨u.touch page.array j hidden writeSign, ?_, hu.trans (touch_marked _ _ _ _ _)⟩
    rw [hj]
  · exact .refl s

theorem Whole.lookup (hs : s.Whole cfg) (v : Addr) (asid : BitVec 16) (hidden : Bool)
    (page : L2Page) (signUsed : Bool) (mode : TlbTranslateMode) :
    ∃ t, s.lookupL2TLB v asid hidden page signUsed mode = .ok (s.hit page v asid mode, t) ∧
      s.Marked t ∧ t.Whole cfg := by
  -- the line of a hit is found entry by entry
  have hok : ∃ r, s.lookupL2TLB v asid hidden page signUsed mode = .ok r := by
    unfold lookupL2TLB
    cases hfind : (s.arrays page.array).find (buildKey (page.pageOf v) asid mode) with
    | none => exact ⟨_, rfl⟩
    | some i =>
      simp only
      split_ifs with hsize
      · exact ⟨_, rfl⟩
      · have hhit : s.hit page v asid mode = some i := by
          rw [hit, hfind]
          simp [Option.filter, hsize]
        obtain ⟨rfl, hg, l, rfl, hl, hhas, -⟩ := hit_cases hs hhit
        have hline : ∀ i < 8, ∃ j, (s.arrays l.page.array).find
            (buildKey (l.page.nthOf v i) asid .direct) = some j := by
          intro i hi
          rw [l.page.nthOf_eq v hi]
          exact (hs _).find_of_holds hg hl ((has_lineVaddr_iff (le_refl _) hi).mpr hhas)
        have htouch : ∃ t, s.touchFound l.page v asid .direct hidden signUsed
            ((s.arrays l.page.array).slot i).entry = .ok t ∧ s.Marked t := by
          unfold touchFound updateL2TLBSeq
          split_ifs
          · exact touchLine_ok hline
          · exact ⟨s, rfl, .refl s⟩
          · exact touchLine_ok hline
        obtain ⟨t, ht, -⟩ := htouch
        rw [ht]
        exact ⟨_, rfl⟩
  obtain ⟨⟨found, t⟩, hlookup⟩ := hok
  obtain ⟨rfl, hmarked⟩ := lookupL2TLB_spec hlookup
  exact ⟨t, hlookup, hmarked, hmarked.whole hs⟩

theorem Marked.caches_iff (h : s.Marked t) (hs : s.Whole cfg) {level : ℕ} :
    (t.arrays k).Caches cfg k level v asid ↔ (s.arrays k).Caches cfg k level v asid :=
  (h k).similar.caches_iff (hs k)

theorem Marked.hit_eq (h : s.Marked t) : t.hit page v asid mode = s.hit page v asid mode := by
  have hlevel (i : ℕ) : ((t.arrays page.array).slot i).entry.level =
      ((s.arrays page.array).slot i).entry.level := by
    obtain ⟨_, _, _, heq⟩ := (h page.array).entry i
    rw [heq]
  unfold hit
  rw [(h page.array).find]
  simp only [hlevel]

/-! ### Removals -/

section
variable (hs : s.Whole cfg)
include hs

theorem Whole.l2TLBRemove {l : L2Line} (hg : g < cfg.lines k)
    (hl : (s.arrays k).Holds cfg k g l) : ∃ t, s.l2TLBRemove (8 * g) k = .ok t ∧ t.Whole cfg ∧
      (∀ j ≠ k, t.arrays j = s.arrays j) ∧ (s.arrays k).Freed g (t.arrays k) := by
  have hlen : 8 * g + 8 ≤ (s.arrays k).slots.length := by
    rw [(hs k).length]
    omega
  obtain ⟨b, hb, hfreed⟩ := hl.unlinkAll hlen
  refine ⟨s.setArray k b, ?_, hs.setArray (hfreed.whole (hs k) hg hl),
    fun j hj => setArray_of_ne _ _ hj, ?_⟩
  · rw [L2Tlb.l2TLBRemove, hb]
  · rw [setArray_self]
    exact hfreed

theorem Whole.lineStarts (k : L2Array) :
    (s.arrays k).lineStarts = (List.range (cfg.lines k)).map (8 * ·) := by
  rw [TlbArray.lineStarts, (hs k).length, l2tlbLineSize, Nat.mul_div_cancel_left _ (by decide)]
  simp only [Nat.mul_comm]

theorem Whole.removeLine (p : TlbEntry → Bool) (hg : g < cfg.lines k) :
    ∃ t, (if ((s.arrays k).slot (8 * g)).linked && p ((s.arrays k).slot (8 * g)).entry then
        s.l2TLBRemove (8 * g) k else .ok s) = .ok t ∧ t.Whole cfg ∧
      (∀ j g', (s.arrays j).FreeGroup g' → (t.arrays j).FreeGroup g') ∧
      ((∀ e, p e = true) → (t.arrays k).FreeGroup g) := by
  rcases (hs k).groups g hg with hfree | ⟨l, hl⟩
  · rw [hfree.linked_head]
    exact ⟨s, rfl, hs, fun _ _ h => h, fun _ => hfree⟩
  · have hlinked : ((s.arrays k).slot (8 * g)).linked = true := hl.linked (show 0 < 8 by decide)
    rw [hlinked, Bool.true_and]
    split_ifs with hp
    · obtain ⟨t, ht, hwhole, hother, hfreed⟩ := hs.l2TLBRemove hg hl
      refine ⟨t, ht, hwhole, fun j g' h => ?_, fun _ => hfreed.freeGroup⟩
      by_cases hj : j = k
      · subst hj
        exact hfreed.freeGroup_of h
      · rw [hother j hj]
        exact h
    · exact ⟨s, rfl, hs, fun _ _ h => h, fun h => absurd (h _) hp⟩

theorem Whole.removeLines (p : TlbEntry → Bool) (k : L2Array) :
    ∃ t, s.removeLines p k = .ok t ∧ t.Whole cfg ∧
      (∀ j g, (s.arrays j).FreeGroup g → (t.arrays j).FreeGroup g) ∧
      ((∀ e, p e = true) → ∀ g < cfg.lines k, (t.arrays k).FreeGroup g) := by
  unfold L2Tlb.removeLines
  rw [hs.lineStarts, foldlM_map]
  -- after the first `n` groups
  apply foldlM_range_ok (fun n (u : L2Tlb) => u.Whole cfg ∧
    (∀ j g, (s.arrays j).FreeGroup g → (u.arrays j).FreeGroup g) ∧
    ((∀ e, p e = true) → ∀ g < n, (u.arrays k).FreeGroup g))
  · rintro g hg u ⟨hu, hkeep, hfree⟩
    obtain ⟨t, ht, hwhole, hkeep', hfree'⟩ := hu.removeLine p hg
    refine ⟨t, ht, hwhole, fun j g' h => hkeep' j g' (hkeep j g' h), fun hp g' hg' => ?_⟩
    rcases Nat.lt_succ_iff_lt_or_eq.mp hg' with hlt | rfl
    · exact hkeep' k g' (hfree hp g' hlt)
    · exact hfree' hp
  · exact ⟨hs, fun _ _ h => h, fun _ g hg => absurd hg (Nat.not_lt_zero g)⟩
end

def AllFree (cfg : MmuConfig) (s : L2Tlb) : Prop :=
  ∀ k, ∀ g < cfg.lines k, (s.arrays k).FreeGroup g

theorem mem_storePages (k : L2Array) : ∃ page ∈ storePages, page.array = k := by
  cases k <;> decide

theorem Whole.removeLinesAll (hs : s.Whole cfg) (p : L2Page → TlbEntry → Bool) :
    ∃ t, storePages.foldlM (fun s page => s.removeLines (p page) page.array) s = .ok t ∧
      t.Whole cfg ∧ (∀ j g, (s.arrays j).FreeGroup g → (t.arrays j).FreeGroup g) := by
  apply foldlM_ok (fun u : L2Tlb => u.Whole cfg ∧
    ∀ j g, (s.arrays j).FreeGroup g → (u.arrays j).FreeGroup g)
  · rintro u page - ⟨hu, hkeep⟩
    obtain ⟨t, ht, hwhole, hkeep', -⟩ := hu.removeLines (p page) page.array
    exact ⟨t, ht, hwhole, fun j g h => hkeep' j g (hkeep j g h)⟩
  · exact ⟨hs, fun _ _ h => h⟩

theorem Whole.flushAll (hs : s.Whole cfg) :
    ∃ t, s.flushAll = .ok t ∧ t.Whole cfg ∧ t.AllFree cfg := by
  -- the arrays that have been gone through are free
  have hloop : ∃ t, s.flushAll = .ok t ∧ t.Whole cfg ∧ ∀ page ∈ storePages,
      ∀ g < cfg.lines page.array, (t.arrays page.array).FreeGroup g := by
    apply foldlM_done_ok (fun (done : List L2Page) (u : L2Tlb) => u.Whole cfg ∧
      ∀ page ∈ done, ∀ g < cfg.lines page.array, (u.arrays page.array).FreeGroup g)
    · rintro done page rest - u ⟨hu, hfree⟩
      obtain ⟨t, ht, hwhole, hkeep, hfree'⟩ := hu.removeLines (fun _ => true) page.array
      refine ⟨t, ht, hwhole, forall_mem_append.mpr ⟨?_, ?_⟩⟩
      · exact fun p hp g hg => hkeep _ g (hfree p hp g hg)
      · exact forall_mem_singleton.mpr (hfree' fun _ => rfl)
    · exact ⟨hs, fun _ h => absurd h not_mem_nil⟩
  obtain ⟨t, ht, hwhole, hfree⟩ := hloop
  refine ⟨t, ht, hwhole, fun k => ?_⟩
  obtain ⟨page, hpage, rfl⟩ := mem_storePages k
  exact hfree page hpage

/-! ### Fences -/

theorem Whole.lookupAll (hs : s.Whole cfg) (v : Addr) (asid : BitVec 16) (signUsed : Bool)
    (mode : TlbTranslateMode) : ∃ t, s.lookupAll v asid signUsed mode =
        .ok (L2Page.all.map fun p => (p, (s.hit p (p.lineOf v) asid mode).isSome), t) ∧
      s.Marked t := by
  have hloop : ∃ r : List (L2Page × Bool) × L2Tlb, s.lookupAll v asid signUsed mode = .ok r ∧
      r.1 = L2Page.all.map (fun p => (p, (s.hit p (p.lineOf v) asid mode).isSome)) ∧
      s.Marked r.2 := by
    apply foldlM_done_ok (fun done (r : List (L2Page × Bool) × L2Tlb) =>
      r.1 = done.map (fun p => (p, (s.hit p (p.lineOf v) asid mode).isSome)) ∧ s.Marked r.2)
    · rintro done page rest - ⟨found, u⟩ ⟨hfound, hu⟩
      obtain ⟨t, ht, hmarked, -⟩ :=
        (hu.whole hs).lookup (page.lineOf v) asid true page signUsed mode
      rw [hu.hit_eq] at ht
      refine ⟨(found ++ [(page, (s.hit page (page.lineOf v) asid mode).isSome)], t), ?_, ?_,
        hu.trans hmarked⟩
      · rw [ht]
      · rw [map_append, ← hfound]
        rfl
    · exact ⟨rfl, .refl s⟩
  obtain ⟨⟨found, t⟩, hlookup, rfl, hmarked⟩ := hloop
  exact ⟨t, hlookup, hmarked⟩

def Without (cfg : MmuConfig) (gone : L2Page → Prop) (v : Addr) (asid : BitVec 16)
    (s t : L2Tlb) : Prop :=
  ∀ k level w b, (t.arrays k).Caches cfg k level w b ↔ (s.arrays k).Caches cfg k level w b ∧
    ¬ ∃ p, gone p ∧ p.array = k ∧ p.level = level ∧ (⟨p, v, asid⟩ : L2Line).Has w b

theorem Whole.removeFound (hs : s.Whole cfg) (signUsed : Bool) {found : Bool}
    (hfound : found = true → (s.hit page (page.lineOf v) asid mode).isSome = true) :
    ∃ t, s.removeFound v asid page signUsed mode found = .ok t ∧ t.Whole cfg ∧
      Without cfg (fun p => p = page ∧ found = true) v asid s t := by
  unfold L2Tlb.removeFound
  cases found with
  | false =>
    refine ⟨s, rfl, hs, fun k level w b => ?_⟩
    simp
  | true =>
    obtain ⟨i, hi⟩ := Option.isSome_iff_exists.mp (hfound rfl)
    obtain ⟨u, hu, hmarked, hwhole⟩ := hs.lookup (page.lineOf v) asid true page signUsed mode
    have hiu := hi
    rw [← hmarked.hit_eq] at hiu
    obtain ⟨-, hg, l, rfl, hl, hhas, hpos⟩ := hit_cases hwhole hiu
    rw [l.page.lineOf_eq] at hhas hpos
    have hstart : i = 8 * (i / 8) := by
      rw [posOf_lineVaddr l.page.level_le (by decide)] at hpos
      omega
    obtain ⟨t, ht, hwhole', hother, hfreed⟩ := hwhole.l2TLBRemove hg hl
    refine ⟨t, ?_, hwhole', fun k level w b => ?_⟩
    · rw [← hstart] at ht
      simp only [hu, hi]
      exact ht
    · by_cases hk : k = l.page.array
      · subst hk
        have hsame : l.Has w b ↔ (⟨l.page, v, asid⟩ : L2Line).Has w b :=
          has_congr rfl ((has_lineVaddr_iff (le_refl _) (by decide)).mp hhas)
        rw [hfreed.caches_iff (hwhole _) hg hl, hmarked.caches_iff hs, hsame]
        refine and_congr_right fun _ => not_congr ⟨?_, ?_⟩
        · rintro ⟨rfl, hhas⟩
          exact ⟨l.page, ⟨rfl, rfl⟩, rfl, rfl, hhas⟩
        · rintro ⟨p, ⟨rfl, -⟩, -, rfl, hhas⟩
          exact ⟨rfl, hhas⟩
      · rw [hother k hk, hmarked.caches_iff hs]
        refine (and_iff_left ?_).symm
        rintro ⟨p, ⟨rfl, -⟩, rfl, -⟩
        exact hk rfl

theorem Without.hit_isSome (h : Without cfg gone v asid s t) (hs : s.Whole cfg) (ht : t.Whole cfg)
    (hgone : ¬ gone page) (hhit : (s.hit page v asid .direct).isSome = true) :
    (t.hit page v asid .direct).isSome = true := by
  rw [hit_isSome_iff hs] at hhit
  obtain ⟨hcaches, hlarger⟩ := hhit
  rw [hit_isSome_iff ht]
  refine ⟨(h _ _ _ _).mpr ⟨hcaches, ?_⟩, fun level hlevel hc => hlarger level hlevel ?_⟩
  · rintro ⟨p, hp, harray, hlevel, -⟩
    obtain rfl := L2Page.eq_of_level harray hlevel
    exact hgone hp
  · exact ((h _ _ _ _).mp hc).1

theorem Without.step {u : L2Tlb} (h : Without cfg gone v asid s t)
    (h' : Without cfg gone' v asid t u) : Without cfg (fun p => gone p ∨ gone' p) v asid s u := by
  intro k level w b
  rw [h', h, and_assoc, ← not_or]
  refine and_congr_right fun _ => not_congr ⟨?_, ?_⟩
  · rintro (⟨p, hp, hrest⟩ | ⟨p, hp, hrest⟩)
    · exact ⟨p, .inl hp, hrest⟩
    · exact ⟨p, .inr hp, hrest⟩
  · rintro ⟨p, hp | hp, hrest⟩
    · exact .inl ⟨p, hp, hrest⟩
    · exact .inr ⟨p, hp, hrest⟩

theorem Without.congr (h : Without cfg gone v asid s t) (hiff : ∀ p, gone p ↔ gone' p) :
    Without cfg gone' v asid s t := by
  intro k level w b
  rw [h]
  simp only [hiff]

theorem Whole.removeAllFound (hs : s.Whole cfg) {direct gstage vsstage : List (L2Page × Bool)}
    (hdirect : ∀ p, direct.contains (p, true) = (s.hit p (p.lineOf v) asid .direct).isSome)
    (hgstage : ∀ p, gstage.contains (p, true) = false)
    (hvsstage : ∀ p, vsstage.contains (p, true) = false) :
    ∃ t, s.removeAllFound v asid direct gstage vsstage = .ok t ∧ t.Whole cfg ∧
      Without cfg (fun p => (s.hit p v asid .direct).isSome = true) v asid s t := by
  have hloop : ∃ t, s.removeAllFound v asid direct gstage vsstage = .ok t ∧ t.Whole cfg ∧
      Without cfg (fun p => p ∈ L2Page.all ∧ (s.hit p v asid .direct).isSome = true) v asid s
        t := by
    apply foldlM_done_ok (fun (done : List L2Page) (u : L2Tlb) => u.Whole cfg ∧
      Without cfg (fun p => p ∈ done ∧ (s.hit p v asid .direct).isSome = true) v asid s u)
    · rintro done page rest hall u ⟨hu, hwithout⟩
      have hnot : page ∉ done := by
        have hnodup : L2Page.all.Nodup := by decide
        rw [hall] at hnodup
        exact fun hmem => (nodup_append.mp hnodup).2.2 page hmem page mem_cons_self rfl
      have hfound : (direct.contains (page, true)) = true →
          (u.hit page (page.lineOf v) asid .direct).isSome = true := by
        intro hfound
        rw [hdirect, hit_lineOf_isSome_iff hs] at hfound
        rw [hit_lineOf_isSome_iff hu]
        exact hwithout.hit_isSome hs hu (fun h => hnot h.1) hfound
      obtain ⟨t, ht, hwhole, hwithout'⟩ := hu.removeFound false hfound
      refine ⟨t, ?_, hwhole, (hwithout.step hwithout').congr fun p => ?_⟩
      · rw [ht, hgstage, hvsstage]
        rfl
      · rw [hdirect, hit_lineOf_isSome_iff hs, mem_append, mem_singleton]
        constructor
        · rintro (⟨hmem, hhit⟩ | ⟨rfl, hhit⟩)
          · exact ⟨.inl hmem, hhit⟩
          · exact ⟨.inr rfl, hhit⟩
        · rintro ⟨hmem | rfl, hhit⟩
          · exact .inl ⟨hmem, hhit⟩
          · exact .inr ⟨rfl, hhit⟩
    · refine ⟨hs, fun k level w b => ?_⟩
      simp
  obtain ⟨t, ht, hwhole, hwithout⟩ := hloop
  refine ⟨t, ht, hwhole, hwithout.congr fun p => and_iff_right ?_⟩
  cases p <;> decide

theorem contains_map_all (f : L2Page → Bool) (p : L2Page) :
    (L2Page.all.map fun p => (p, f p)).contains (p, true) = f p := by
  rw [Bool.eq_iff_iff, contains_iff_mem, mem_map]
  constructor
  · rintro ⟨q, -, heq⟩
    obtain ⟨rfl, hf⟩ := Prod.mk.inj heq
    exact hf
  · intro hf
    exact ⟨p, by cases p <;> decide, by rw [hf]⟩

theorem Whole.demapPageL2 (hs : s.Whole cfg) (v : Addr) (asid : BitVec 16) :
    ∃ t, s.demapPageL2 v asid = .ok t ∧ t.Whole cfg ∧ (v ≠ 0 ∧ asid ≠ 0 →
        Without cfg (fun p => (s.hit p v asid .direct).isSome = true) v asid s t) ∧
      (¬ (v ≠ 0 ∧ asid ≠ 0) → t.AllFree cfg) := by
  obtain ⟨s₁, h₁, hm₁⟩ := hs.lookupAll v asid false .direct
  have hs₁ := hm₁.whole hs
  obtain ⟨s₂, h₂, hm₂⟩ := hs₁.lookupAll v asid true .gstage
  have hs₂ := hm₂.whole hs₁
  obtain ⟨s₃, h₃, hm₃⟩ := hs₂.lookupAll v asid true .vsstage
  have hs₃ := hm₃.whole hs₂
  have hmarked : s.Marked s₃ := (hm₁.trans hm₂).trans hm₃
  unfold L2Tlb.demapPageL2
  simp only [h₁, h₂, h₃]
  by_cases hzero : v ≠ 0 ∧ asid ≠ 0
  · rw [if_pos hzero]
    have hdirect (p : L2Page) :
        (L2Page.all.map fun p => (p, (s.hit p (p.lineOf v) asid .direct).isSome)).contains
          (p, true) = (s₃.hit p (p.lineOf v) asid .direct).isSome := by
      rw [contains_map_all, hmarked.hit_eq]
    have hgstage (p : L2Page) :
        (L2Page.all.map fun p => (p, (s₁.hit p (p.lineOf v) asid .gstage).isSome)).contains
          (p, true) = false := by
      rw [contains_map_all, hit_of_mode hs₁ (by decide), Option.isSome_none]
    have hvsstage (p : L2Page) :
        (L2Page.all.map fun p => (p, (s₂.hit p (p.lineOf v) asid .vsstage).isSome)).contains
          (p, true) = false := by
      rw [contains_map_all, hit_of_mode hs₂ (by decide), Option.isSome_none]
    obtain ⟨t, ht, hwhole, hwithout⟩ := hs₃.removeAllFound hdirect hgstage hvsstage
    refine ⟨t, ht, hwhole, fun _ k level w b => ?_, fun h => absurd hzero h⟩
    rw [hwithout, hmarked.caches_iff hs]
    simp only [hmarked.hit_eq]
  · rw [if_neg hzero]
    obtain ⟨u, hu, hwhole, hfree⟩ := hs₃.flushAll
    obtain ⟨t, ht, hwhole', hkeep⟩ := hwhole.removeLinesAll fun page e =>
      ofPage (page.lineOf v) e.vaddr asid e.asid e.size ||
        ofPage (page.lineOf v) e.gpaddr asid e.vmid e.size
    rw [hu]
    exact ⟨t, ht, hwhole', fun h => absurd h hzero, fun _ k g hg => hkeep k g (hfree k g hg)⟩
end L2Tlb
end Gem5
