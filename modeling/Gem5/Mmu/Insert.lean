import Gem5.Lib.Count
import Gem5.Mmu.Store

/-!
# Lines that come to the second level TLB

A walk inserts the eight entries of a line one after another.  Either all of them are found in their
places, or none is; then room is made for the first, and all go to the first free group.
-/

namespace Gem5
open List TlbArray L2Line

/-! ### The line to evict -/

namespace TlbArray
variable {cfg : MmuConfig} {k : L2Array} {a b : TlbArray} {g : ℕ} {l : L2Line}

theorem leastRecent_mem (a : TlbArray) (first : ℕ) (others : List ℕ) :
    a.leastRecent first others ∈ first :: others := by
  unfold leastRecent
  induction others generalizing first with
  | nil => exact mem_cons_self
  | cons i others ih =>
    rw [foldl_cons]
    have hmem := ih (if (a.slot i).entry.lruSeq < (a.slot first).entry.lruSeq then i else first)
    rw [mem_cons] at hmem ⊢
    rcases hmem with hmem | hmem
    · rw [hmem]
      split_ifs
      · exact .inr mem_cons_self
      · exact .inl rfl
    · exact .inr (mem_cons_of_mem i hmem)

theorem Whole.holds_of_full (ha : a.Whole cfg k) (hfull : a.freeList = []) (hg : g < cfg.lines k) :
    ∃ l, a.Holds cfg k g l := by
  obtain ⟨gs, hgs, -, hmem⟩ := ha.free
  rcases ha.groups g hg with hfree | hl
  · have hin : 8 * g ∈ a.freeList := by
      rw [hgs, mem_flatMap]
      exact ⟨g, (hmem g).mpr ⟨hg, hfree⟩, mem_groupSlots.mpr (by omega)⟩
    rw [hfull] at hin
    cases hin
  · exact hl

theorem Whole.freeList_cases (ha : a.Whole cfg k) (hfree : a.freeList ≠ []) :
    ∃ g < cfg.lines k, a.FreeGroup g ∧ ∃ rest, a.freeList = groupSlots g ++ rest := by
  obtain ⟨gs, hgs, -, hmem⟩ := ha.free
  cases gs with
  | nil => exact absurd hgs hfree
  | cons g gs =>
    obtain ⟨hg, hgroup⟩ := (hmem g).mp mem_cons_self
    refine ⟨g, hg, hgroup, gs.flatMap groupSlots, ?_⟩
    rw [hgs, flatMap_cons]

theorem Whole.any_node_iff (ha : a.Whole cfg k) {j : ℕ} (hj : j < 8) :
    (a.slots.any fun x => x.trieHandle == some (l.node j)) = true ↔
      a.Caches cfg k l.level l.vaddr l.asid := by
  rw [any_eq_true]
  constructor
  · rintro ⟨x, hx, hnode⟩
    obtain ⟨i, hi, rfl⟩ := getElem_of_mem hx
    have hslot : a.slot i = a.slots[i] := by simp [slot, hi]
    rw [← hslot, beq_iff_eq] at hnode
    rcases ha.slot_cases hi with hnone | ⟨l', hl', hhandle⟩
    · rw [hnone] at hnode
      cases hnode
    · rw [hhandle, Option.some.injEq, node_eq_iff (by omega) hj] at hnode
      obtain ⟨hlevel, hhas, -⟩ := hnode
      have hg : i / 8 < cfg.lines k := by
        rw [ha.length] at hi
        omega
      rw [← hlevel]
      exact hl'.caches hg hhas
  · rintro ⟨g, hg, l', hl', hlevel, hhas⟩
    have hlen : 8 * g + j < a.slots.length := by
      rw [ha.length]
      omega
    refine ⟨a.slot (8 * g + j), slot_mem hlen, ?_⟩
    rw [hl'.handle j hj, beq_iff_eq, Option.some.injEq, node_eq_iff hj hj]
    exact ⟨hlevel, hhas, rfl⟩

/-! ### Eight entries, one after another -/

variable {cfg : MmuConfig} {k : L2Array} {a b : TlbArray} {g n : ℕ} {l : L2Line} {x : ℕ → TlbSlot}

/-- The first `n` slots of a group, which are the first of the free list, are filled. -/
structure Filling (a : TlbArray) (g : ℕ) (x : ℕ → TlbSlot) (n : ℕ) (b : TlbArray) : Prop where
  length : b.slots.length = a.slots.length
  freeList : a.freeList = (List.range n).map (fun j => 8 * g + j) ++ b.freeList
  slot : ∀ i, b.slot i = if 8 * g ≤ i ∧ i < 8 * g + n then x (i - 8 * g) else a.slot i

namespace Filling
theorem start (a : TlbArray) (g : ℕ) (x : ℕ → TlbSlot) : a.Filling g x 0 a := by
  refine ⟨rfl, rfl, fun i => ?_⟩
  rw [if_neg (by omega)]

theorem filled (h : a.Filling g x 8 b) : a.Filled g x b := by
  refine ⟨h.length, h.freeList, fun i => ?_⟩
  rw [h.slot]
  by_cases hi : i / 8 = g
  · rw [if_pos hi, if_pos (by omega)]
    congr 1
    omega
  · rw [if_neg hi, if_neg (by omega)]

variable {rest : List ℕ}

theorem freeList_eq (h : a.Filling g x n b) (hn : n < 8)
    (hfree : a.freeList = groupSlots g ++ rest) :
    ∃ rest', b.freeList = (8 * g + n) :: rest' := by
  have hdrop : b.freeList = (groupSlots g ++ rest).drop n := by
    rw [← hfree, h.freeList]
    simp
  have hlen : n < (groupSlots g ++ rest).length := by
    rw [length_append, groupSlots, length_map, length_range]
    omega
  have hnth : (groupSlots g ++ rest)[n] = 8 * g + n := by
    rw [getElem_append_left (by simp [groupSlots, hn])]
    simp [groupSlots]
  rw [hdrop, drop_eq_getElem_cons hlen, hnth]
  exact ⟨_, rfl⟩

variable (ha : a.Whole cfg k) (hhandle : ∀ j < 8, (x j).trieHandle = some (l.node j))
include ha hhandle

theorem handle_cases (h : a.Filling g x n b) (hn : n ≤ 8) {i : ℕ} {node : TrieNode}
    (hi : i < b.slots.length) (hnode : (b.slot i).trieHandle = some node) :
    (∃ j < n, node = l.node j) ∨ ∃ g' < cfg.lines k, ∃ l', a.Holds cfg k g' l' ∧
      ∃ j < 8, node = l'.node j ∧ (b.slot i).entry.Fits cfg l' j := by
  rw [h.slot] at hnode ⊢
  rw [h.length] at hi
  by_cases hin : 8 * g ≤ i ∧ i < 8 * g + n
  · rw [if_pos hin, hhandle _ (by omega)] at hnode
    exact .inl ⟨i - 8 * g, by omega, (Option.some.inj hnode).symm⟩
  · rw [if_neg hin] at hnode ⊢
    have hg : i / 8 < cfg.lines k := by
      rw [ha.length] at hi
      omega
    rcases ha.slot_cases hi with hnone | ⟨l', hl', hsome⟩
    · rw [hnone] at hnode
      cases hnode
    · rw [hsome] at hnode
      have hfits := hl'.fits (i % 8) (by omega)
      rw [show 8 * (i / 8) + i % 8 = i by omega] at hfits
      exact .inr ⟨i / 8, hg, l', hl', i % 8, by omega, (Option.some.inj hnode).symm, hfits⟩

theorem place (hnew : ¬ a.Caches cfg k l.level l.vaddr l.asid) (h : a.Filling g x n b) (hn : n < 8)
    (hfree : a.freeList = groupSlots g ++ rest) (hg : g < cfg.lines k) {e : TlbEntry}
    (hx : x n = ⟨e, some (l.node n)⟩) (hbytes : e.logBytes = levelShift l.level) :
    ∃ c, b.place e (buildKey (lineVaddr l.vaddr l.level n) l.asid .direct) = .ok c ∧
      a.Filling g x (n + 1) c := by
  obtain ⟨rest', hrest⟩ := h.freeList_eq hn hfree
  have hnone : (b.slots.any fun y => y.trieHandle == some (l.node n)) = false := by
    rw [any_eq_false]
    intro y hy heq
    obtain ⟨i, hi, rfl⟩ := getElem_of_mem hy
    have hslot : b.slot i = b.slots[i] := by simp [TlbArray.slot, hi]
    rw [← hslot, beq_iff_eq] at heq
    rcases h.handle_cases ha hhandle hn.le hi heq with
      ⟨j, hj, hnode⟩ | ⟨g', hg', l', hl', j, hj, hnode, -⟩
    · have hjn := ((node_eq_iff hn (by omega)).mp hnode).2.2
      omega
    · obtain ⟨hlevel, hhas, -⟩ := (node_eq_iff hj hn).mp hnode.symm
      exact hnew ⟨g', hg', l', hl', hlevel, hhas⟩
  have hlink : b.place e (buildKey (lineVaddr l.vaddr l.level n) l.asid .direct) =
      .ok ⟨b.slots.set (8 * g + n) ⟨e, some (l.node n)⟩, rest'⟩ := by
    rw [TlbArray.place, hrest]
    simp only [link, hbytes]
    rw [← lineNode]
    exact if_neg (by rw [Bool.not_eq_true]; exact hnone)
  refine ⟨_, hlink, length_set.trans h.length, ?_, fun i => ?_⟩
  · rw [h.freeList, hrest, range_succ, map_append, append_assoc]
    rfl
  · have hlen : 8 * g + n < b.slots.length := by
      rw [h.length, ha.length]
      omega
    rw [slot_set_eq _ _ b.freeList]
    by_cases hi : i = 8 * g + n
    · subst hi
      rw [if_pos ⟨rfl, hlen⟩, if_pos (by omega), Nat.add_sub_cancel_left, hx]
    · rw [if_neg (fun hand => hi hand.1)]
      show b.slot i = _
      rw [h.slot]
      by_cases hin : 8 * g ≤ i ∧ i < 8 * g + n
      · rw [if_pos hin, if_pos (by omega)]
      · rw [if_neg hin, if_neg (by omega)]
end Filling
end TlbArray

def MmuConfig.PowersOfTwo (cfg : MmuConfig) : Prop :=
  ∀ k, ∃ n, cfg.lines k = 2 ^ n

theorem L2Array.ways_eq {k : L2Array} {ways : ℕ} (h : k.ways = some ways) : ∃ w, ways = 2 ^ w := by
  cases k with
  | l1 => exact ⟨1, (Option.some.inj h).symm⟩
  | l0 => exact ⟨2, (Option.some.inj h).symm⟩
  | l3 => cases h
  | l2 => cases h
  | sp => cases h

/-! ### Room -/

namespace L2Tlb
variable {cfg : MmuConfig} {s t : L2Tlb} {page : L2Page} {k : L2Array} {v : Addr}
  {asid : BitVec 16}

def panics : List String :=
  ["Assertion `!node->value' failed.", "Assertion `tlb[idx].trieHandle' failed.",
    "TLB::L2TLBInsertIn freeList should not be empty.", "tlb match but key is wrong\n",
    "l2 TLB link num is empty\n", "l2l0 TLB link num is empty\n",
    "wrong in l2l1 tlb l1_index_num\n", "wrong in l2l0 tlb l0_index_num\n",
    "TLB::l2TLBEvictLRU freeListL2L1 should not be empty.",
    "TLB::l2TLBEvictLRU freeListL2L0 should not be empty."]

inductive Evicts (cfg : MmuConfig) (k : L2Array) (s t : L2Tlb) : Prop
  | none : t = s → Evicts cfg k s t
  | line (g : ℕ) (l : L2Line) : g < cfg.lines k → (s.arrays k).Holds cfg k g l →
      (∀ j ≠ k, t.arrays j = s.arrays j) → (s.arrays k).Freed g (t.arrays k) → Evicts cfg k s t

structure Room (cfg : MmuConfig) (k : L2Array) (v : Addr) (s : L2Tlb) : Prop where
  whole : s.Whole cfg
  free : (s.arrays k).freeList ≠ []
  set : ∀ ways, k.ways = some ways →
    ((s.arrays k).groupsOfSet cfg k (cfg.setOf k v)).length < ways

theorem Whole.linesOfSet (hs : s.Whole cfg) (k : L2Array) (index : Addr) :
    s.linesOfSet k index = ((s.arrays k).groupsOfSet cfg k index).map (8 * ·) := by
  rw [L2Tlb.linesOfSet, hs.lineStarts, filter_map]
  rfl

variable {ways sign level j : ℕ} {rest : List ℕ} {u : L2Tlb} {m : String}

theorem Whole.evictFull (hs : s.Whole cfg) {i : ℕ} (hways : k.ways = some ways)
    (hlines : s.linesOfSet k (cfg.setOf k v) = i :: rest) (hfull : rest.length + 1 = ways) :
    ∃ t, s.l2TLBRemove ((s.arrays k).leastRecent i rest) k = .ok t ∧ s.Evicts cfg k t ∧
      Room cfg k v t := by
  have hmem := (s.arrays k).leastRecent_mem i rest
  rw [← hlines, hs.linesOfSet, mem_map] at hmem
  obtain ⟨g, hgroup, hg8⟩ := hmem
  have hg := hgroup
  rw [groupsOfSet, mem_filter, mem_range, Bool.and_eq_true] at hg
  obtain ⟨hg, -, hlinked⟩ := hg
  rcases (hs k).groups g hg with hfree | ⟨l, hl⟩
  · rw [hfree.linked_head] at hlinked
    cases hlinked
  obtain ⟨t, ht, hwhole, hother, hfreed⟩ := hs.l2TLBRemove hg hl
  refine ⟨t, ?_, .line g l hg hl hother hfreed, hwhole, ?_, ?_⟩
  · rw [← hg8]
    exact ht
  · rw [hfreed.freeList]
    simp [groupSlots]
  · intro ways' hways'
    rw [hways] at hways'
    cases hways'
    have hlen := congrArg List.length hlines
    rw [hs.linesOfSet, length_map, length_cons, hfull] at hlen
    rw [hfreed.groupsOfSet_eq, ← hlen]
    exact length_filter_lt_length_iff_exists.mpr ⟨g, hgroup, by simp⟩

theorem Whole.evictSet (hs : s.Whole cfg) (v : Addr) (wrong empty : String)
    (hways : k.ways = some ways) :
    ((s.linesOfSet k (cfg.setOf k v)).length < ways ∧ (s.arrays k).freeList = [] ∧
      s.evictSet k (cfg.setOf k v) ways wrong empty = .error empty) ∨
    (¬ ((s.linesOfSet k (cfg.setOf k v)).length < ways ∧ (s.arrays k).freeList = []) ∧
      ∃ t, s.evictSet k (cfg.setOf k v) ways wrong empty = .ok t ∧ s.Evicts cfg k t ∧
        Room cfg k v t) := by
  have hle := (hs k).sets ways hways (cfg.setOf k v)
  have hlen : (s.linesOfSet k (cfg.setOf k v)).length =
      ((s.arrays k).groupsOfSet cfg k (cfg.setOf k v)).length := by
    rw [hs.linesOfSet, length_map]
  rw [← hlen] at hle
  rcases Nat.lt_or_eq_of_le hle with hlt | hfull
  · -- the set has room, and only the free list decides
    have hevict : s.evictSet k (cfg.setOf k v) ways wrong empty =
        if (s.arrays k).freeList.isEmpty then .error empty else .ok s := by
      rw [L2Tlb.evictSet]
      cases hlines : s.linesOfSet k (cfg.setOf k v) with
      | nil => rfl
      | cons i rest =>
        rw [hlines, length_cons] at hlt
        simp only
        rw [if_neg (by omega), if_neg (by omega)]
    rw [hevict]
    by_cases hempty : (s.arrays k).freeList = []
    · exact .inl ⟨hlt, hempty, by rw [hempty]; rfl⟩
    · refine .inr ⟨fun h => hempty h.2, s, ?_, .none rfl, hs, hempty, fun ways' hways' => ?_⟩
      · rw [if_neg (by rwa [List.isEmpty_iff])]
      · rw [hways] at hways'
        cases hways'
        rw [← hlen]
        exact hlt
  · refine .inr ⟨fun h => absurd hfull (Nat.ne_of_lt h.1), ?_⟩
    obtain ⟨w, hw⟩ := L2Array.ways_eq hways
    have hpos : 0 < ways := by
      rw [hw]
      exact Nat.two_pow_pos w
    rw [L2Tlb.evictSet]
    cases hset : s.linesOfSet k (cfg.setOf k v) with
    | nil =>
      rw [hset, length_nil] at hfull
      omega
    | cons i rest =>
      rw [hset, length_cons] at hfull
      simp only
      rw [if_pos hfull]
      exact hs.evictFull hways hset hfull

theorem Whole.evictLine (hs : s.Whole cfg) (hways : k.ways = none)
    (hfull : (s.arrays k).freeList = []) :
    ∃ g < cfg.lines k, (s.arrays k).leastRecent 0 (s.arrays k).lineStarts.tail = 8 * g ∧
      ∃ l, (s.arrays k).Holds cfg k g l ∧ ∃ t, s.l2TLBRemove (8 * g) k = .ok t ∧
        (∀ j ≠ k, t.arrays j = s.arrays j) ∧ (s.arrays k).Freed g (t.arrays k) ∧
        Room cfg k v t := by
  have hmem := (s.arrays k).leastRecent_mem 0 (s.arrays k).lineStarts.tail
  have hstarts : 0 :: (s.arrays k).lineStarts.tail = (List.range (cfg.lines k)).map (8 * ·) := by
    obtain ⟨n, hn⟩ := Nat.exists_eq_succ_of_ne_zero (cfg.lines_pos k).ne'
    rw [hs.lineStarts, hn, range_succ_eq_map]
    rfl
  rw [hstarts, mem_map] at hmem
  obtain ⟨g, hg, hg8⟩ := hmem
  rw [mem_range] at hg
  obtain ⟨l, hl⟩ := (hs k).holds_of_full hfull hg
  obtain ⟨t, ht, hwhole, hother, hfreed⟩ := hs.l2TLBRemove hg hl
  refine ⟨g, hg, hg8.symm, l, hl, t, ht, hother, hfreed, hwhole, ?_, ?_⟩
  · rw [hfreed.freeList]
    simp [groupSlots]
  · intro ways hways'
    rw [hways] at hways'
    cases hways'

/-! ### Lines -/

def insertLine (cfg : MmuConfig) (page : L2Page) (e : ℕ → TlbEntry) (s : L2Tlb) :
    Except String L2Tlb :=
  (List.range l2tlbLineSize).foldlM (fun s j => s.l2TLBInsertIn cfg (e j).vaddr (e j) page j) s

theorem lookupL2TLB_of_hit {hidden signUsed : Bool} {mode : TlbTranslateMode}
    (h : s.hit page v asid mode = none) :
    s.lookupL2TLB v asid hidden page signUsed mode = .ok (none, s) := by
  unfold hit at h
  unfold lookupL2TLB
  cases hfind : (s.arrays page.array).find (buildKey (page.pageOf v) asid mode) with
  | none => rfl
  | some i =>
    rw [hfind, Option.filter_eq_none_iff] at h
    have hsize := h i rfl
    rw [Bool.not_eq_true', Bool.not_eq_false] at hsize
    simp only
    rw [if_pos hsize]

theorem insertIn_of_miss {e : TlbEntry} {a : TlbArray}
    (hhit : s.hit page e.vaddr e.asid .direct = none)
    (hroom : s.makeRoom cfg e.vaddr page sign = .ok t)
    (hplace : (t.arrays page.array).place { e with lruSeq := t.lruSeq + 1, vaddr := e.vaddr }
      (buildKey e.vaddr e.asid .direct) = .ok a) :
    s.l2TLBInsertIn cfg e.vaddr e page sign =
      .ok { t.setArray page.array a with lruSeq := t.lruSeq + 1 } := by
  rw [l2TLBInsertIn, lookupL2TLB_of_hit hhit]
  simp only [hroom, hplace]

theorem makeRoom_of_free (hsign : sign ≠ 0) (hfree : (s.arrays page.array).freeList ≠ []) :
    s.makeRoom cfg v page sign = .ok s := by
  rw [makeRoom, if_neg (fun h => hsign h.2), if_neg (by rwa [List.isEmpty_iff])]

variable {l : L2Line} {e : ℕ → TlbEntry} {a : TlbArray} {g n : ℕ} {x : ℕ → TlbSlot}

theorem hit_of_filling (h : a.Filling g x n (s.arrays l.page.array))
    (ha : a.Whole cfg l.page.array) (hhandle : ∀ j < 8, (x j).trieHandle = some (l.node j))
    (hnew : ¬ a.Caches cfg l.page.array l.level l.vaddr l.asid) (hn : n < 8) :
    s.hit l.page (lineVaddr l.vaddr l.level n) l.asid .direct = none := by
  cases hhit : s.hit l.page (lineVaddr l.vaddr l.level n) l.asid .direct with
  | none => rfl
  | some i =>
    obtain ⟨hfind, hsize⟩ := Option.filter_eq_some_iff.mp hhit
    have hpage : l.page.pageOf (lineVaddr l.vaddr l.level n) = lineVaddr l.vaddr l.level n :=
      pageOf_lineVaddr l.page l.vaddr n
    rw [hpage] at hfind
    obtain ⟨hi, hcovers⟩ := covers_of_find hfind
    cases hnode : ((s.arrays l.page.array).slot i).trieHandle with
    | none =>
      rw [TlbSlot.covers_of_unlinked hnode] at hcovers
      cases hcovers
    | some node =>
      rw [TlbSlot.covers, hnode] at hcovers
      rcases h.handle_cases ha hhandle hn.le hi hnode with
        ⟨j, hj, rfl⟩ | ⟨g', hg', l', hl', j, hj, rfl, hfits⟩
      · obtain ⟨-, -, hpos⟩ := (node_covers_iff (by omega)).mp hcovers
        rw [posOf_lineVaddr l.level_le hn] at hpos
        omega
      · -- another line of the same kind would have been found before
        obtain ⟨-, hhas, -⟩ := (node_covers_iff hj).mp hcovers
        rw [hfits.level, Bool.not_eq_true'] at hsize
        have hlevel : l'.level = l.level :=
          congrArg L2Page.level ((L2Page.otherSize_iff hl'.array).mp hsize)
        refine absurd ⟨g', hg', l', hl', hlevel, ?_⟩ hnew
        exact (has_lineVaddr_iff hlevel.ge hn).mp hhas

/-- The slots that a line fills, if the sequence numbers start after `seq`. -/
def lineSlots (l : L2Line) (e : ℕ → TlbEntry) (seq j : ℕ) : TlbSlot :=
  ⟨{ e j with lruSeq := seq + j + 1, vaddr := (e j).vaddr }, some (l.node j)⟩

/-- The first `n` entries of a line have been placed since `t`. -/
structure Placing (l : L2Line) (e : ℕ → TlbEntry) (t : L2Tlb) (g n : ℕ) (u : L2Tlb) : Prop where
  lruSeq : u.lruSeq = t.lruSeq + n
  other : ∀ j ≠ l.page.array, u.arrays j = t.arrays j
  filling : (t.arrays l.page.array).Filling g (lineSlots l e t.lruSeq) n (u.arrays l.page.array)

theorem Placing.next (h : Placing l e t g n u) (ht : t.Whole cfg)
    (hnew : ¬ (t.arrays l.page.array).Caches cfg l.page.array l.level l.vaddr l.asid)
    (hg : g < cfg.lines l.page.array)
    (hfree : (t.arrays l.page.array).freeList = groupSlots g ++ rest) (hn : n < 8)
    (hfits : (e n).Fits cfg l n) :
    ∃ c, (u.arrays l.page.array).place { e n with lruSeq := u.lruSeq + 1, vaddr := (e n).vaddr }
        (buildKey (e n).vaddr (e n).asid .direct) = .ok c ∧
      Placing l e t g (n + 1) { u.setArray l.page.array c with lruSeq := u.lruSeq + 1 } := by
  have hplace := h.filling.place (ht _) (fun _ _ => rfl) hnew hn hfree hg
    (e := { e n with lruSeq := u.lruSeq + 1, vaddr := (e n).vaddr })
    (by rw [lineSlots, h.lruSeq]) hfits.logBytes
  obtain ⟨c, hc, hfilling⟩ := hplace
  rw [← hfits.vaddr, ← hfits.asid] at hc
  refine ⟨c, hc, ?_, fun j hj => ?_, ?_⟩
  · show u.lruSeq + 1 = _
    rw [h.lruSeq, Nat.add_assoc]
  · exact (setArray_of_ne _ _ hj).trans (h.other j hj)
  · show Filling _ g _ _ ((u.setArray l.page.array c).arrays l.page.array)
    rw [setArray_self]
    exact hfilling

theorem Placing.whole (h : Placing l e t g 8 u) (ht : Room cfg l.page.array l.vaddr t)
    (hnew : ¬ (t.arrays l.page.array).Caches cfg l.page.array l.level l.vaddr l.asid)
    (hg : g < cfg.lines l.page.array) (hgroup : (t.arrays l.page.array).FreeGroup g)
    (hfits : ∀ j < 8, (e j).Fits cfg l j) : u.Whole cfg := by
  intro k
  by_cases hk : k = l.page.array
  · subst hk
    refine h.filling.filled.whole rfl (fun _ _ => rfl) (fun j hj => ?_) (ht.whole _) hg hgroup ?_
      ht.set
    · have hj := hfits j hj
      exact ⟨hj.vaddr, hj.asid, hj.logBytes, hj.level, hj.index⟩
    · intro g' hg' l' hl' hnode
      obtain ⟨hlevel, hhas, -⟩ := (node_eq_iff (by decide) (by decide)).mp hnode
      exact hnew ⟨g', hg', l', hl', hlevel, hhas⟩
  · rw [h.other k hk]
    exact ht.whole k

theorem Room.insertLine (ht : Room cfg l.page.array l.vaddr t) (hfits : ∀ j < 8, (e j).Fits cfg l j)
    (hnew : ¬ (t.arrays l.page.array).Caches cfg l.page.array l.level l.vaddr l.asid)
    (hhit : s.hit l.page (e 0).vaddr (e 0).asid .direct = none)
    (hroom : s.makeRoom cfg (e 0).vaddr l.page 0 = .ok t) :
    ∃ r, s.insertLine cfg l.page e = .ok r ∧ r.Whole cfg := by
  obtain ⟨g, hg, hgroup, rest, hrest⟩ := (ht.whole l.page.array).freeList_cases ht.free
  have hloop : ∃ r, s.insertLine cfg l.page e = .ok r ∧
      ((8 = 0 ∧ r = s) ∨ (8 ≠ 0 ∧ Placing l e t g 8 r)) := by
    apply Loop.foldlM_range_ok (fun n u => (n = 0 ∧ u = s) ∨ (n ≠ 0 ∧ Placing l e t g n u))
    · rintro n hn u (⟨rfl, rfl⟩ | ⟨hne, hu⟩)
      · have hstart : Placing l e t g 0 t := ⟨rfl, fun _ _ => rfl, .start _ _ _⟩
        obtain ⟨c, hc, hnext⟩ := hstart.next ht.whole hnew hg hrest hn (hfits 0 hn)
        exact ⟨_, insertIn_of_miss hhit hroom hc, .inr ⟨by decide, hnext⟩⟩
      · obtain ⟨c, hc, hnext⟩ := hu.next ht.whole hnew hg hrest hn (hfits n hn)
        obtain ⟨rest', hrest'⟩ := hu.filling.freeList_eq hn hrest
        have hmiss : u.hit l.page (e n).vaddr (e n).asid .direct = none := by
          rw [(hfits n hn).vaddr, (hfits n hn).asid]
          exact hit_of_filling hu.filling (ht.whole _) (fun _ _ => rfl) hnew hn
        have hroom' : u.makeRoom cfg (e n).vaddr l.page n = .ok u :=
          makeRoom_of_free hne (by rw [hrest']; exact cons_ne_nil _ _)
        exact ⟨_, insertIn_of_miss hmiss hroom' hc, .inr ⟨Nat.succ_ne_zero n, hnext⟩⟩
    · exact .inl ⟨rfl, rfl⟩
  obtain ⟨r, hr, ⟨hzero, -⟩ | ⟨-, hplacing⟩⟩ := hloop
  · cases hzero
  · exact ⟨r, hr, hplacing.whole ht hnew hg hgroup hfits⟩

def Similar (s t : L2Tlb) : Prop :=
  ∀ k, (s.arrays k).Similar (t.arrays k)

theorem Similar.whole (h : s.Similar t) (hs : s.Whole cfg) : t.Whole cfg :=
  fun k => (h k).whole (hs k)

theorem buildKey_line_eq {l' : L2Line} (hlevel : l'.level = l.level) (hhas : l'.Has l.vaddr l.asid)
    (hn : n < 8) : buildKey (lineVaddr l'.vaddr l'.level n) l'.asid .direct =
      buildKey (lineVaddr l.vaddr l.level n) l.asid .direct := by
  apply BitVec.eq_of_getLsbD_eq
  intro i hi
  rw [getLsbD_buildKey_eq _ _ _ hi, getLsbD_buildKey_eq _ _ _ hi, hhas.asid]
  by_cases h46 : i < 46
  · rw [if_pos h46, if_pos h46, getLsbD_lineVaddr_eq _ l'.level_le hn,
      getLsbD_lineVaddr_eq _ l.level_le hn, hlevel]
    by_cases hline : 12 + i < levelShift l.level + 3
    · rw [if_pos hline, if_pos hline]
    · rw [if_neg hline, if_neg hline, hhas.bits (12 + i) (by rw [hlevel]; omega) (by omega)]
  · rw [if_neg h46, if_neg h46]

theorem Whole.insertIn_of_hit (hs : s.Whole cfg) {e : TlbEntry} (hn : n < 8)
    (hfits : e.Fits cfg l n)
    (hhit : (s.hit l.page e.vaddr e.asid .direct).isSome = true) :
    ∃ t, s.l2TLBInsertIn cfg e.vaddr e l.page n = .ok t ∧ s.Similar t := by
  obtain ⟨i, hi⟩ := Option.isSome_iff_exists.mp hhit
  obtain ⟨u, hu, hmarked, hwhole⟩ := hs.lookup e.vaddr e.asid true l.page false .direct
  have hiu := hi
  rw [← hmarked.hit_eq, hfits.vaddr, hfits.asid] at hiu
  obtain ⟨-, -, l', hpage, hl', hhas, hpos⟩ := hit_cases hwhole hiu
  have hlevel : l'.level = l.level := congrArg L2Page.level hpage
  have hkey : keyPage ((u.arrays l.page.array).slot i).entry.vaddr
      ((u.arrays l.page.array).slot i).entry.asid = keyPage e.vaddr e.asid := by
    have hold := hl'.fits (i % 8) (by omega)
    rw [show 8 * (i / 8) + i % 8 = i by omega] at hold
    have hin : i % 8 = n := hpos.symm.trans (posOf_lineVaddr l.level_le hn)
    rw [keyPage, keyPage, hold.vaddr, hold.asid, hfits.vaddr, hfits.asid, hin,
      buildKey_line_eq hlevel ((has_lineVaddr_iff hlevel.ge hn).mp hhas) hn]
  refine ⟨u.setArray l.page.array ((u.arrays l.page.array).update i fun old =>
    { old with pte := e.pte }), ?_, fun k => ?_⟩
  · rw [l2TLBInsertIn, hu, hi]
    simp only
    rw [if_neg (fun h => h.2.1 hkey)]
  · by_cases hk : k = l.page.array
    · subst hk
      rw [setArray_self]
      exact (hmarked _).similar.trans (similar_update_pte _ _ _)
    · rw [setArray_of_ne _ _ hk]
      exact (hmarked k).similar

theorem Whole.refreshLine (hs : s.Whole cfg) (hfits : ∀ j < 8, (e j).Fits cfg l j)
    (hhit : (s.hit l.page (e 0).vaddr (e 0).asid .direct).isSome = true) :
    ∃ r, s.insertLine cfg l.page e = .ok r ∧ r.Whole cfg := by
  rw [(hfits 0 (by decide)).vaddr, (hfits 0 (by decide)).asid] at hhit
  have hline := (hit_lineVaddr_isSome_iff hs (by decide)).mp hhit
  have hloop : ∃ r, s.insertLine cfg l.page e = .ok r ∧ s.Similar r := by
    apply Loop.foldlM_range_ok (fun _ u => s.Similar u)
    · intro n hn u hu
      have hwhole := hu.whole hs
      have hfound : (u.hit l.page (e n).vaddr (e n).asid .direct).isSome = true := by
        rw [(hfits n hn).vaddr, (hfits n hn).asid]
        refine (hit_lineVaddr_isSome_iff hwhole hn).mpr ?_
        rw [hit_isSome_iff hs] at hline
        rw [hit_isSome_iff hwhole]
        simp only [(hu l.page.array).caches_iff (hs _)]
        exact hline
      obtain ⟨t, ht, hsimilar⟩ := hwhole.insertIn_of_hit hn (hfits n hn) hfound
      exact ⟨t, ht, fun k => (hu k).trans (hsimilar k)⟩
    · exact fun k => .refl _
  obtain ⟨r, hr, hsimilar⟩ := hloop
  exact ⟨r, hr, hsimilar.whole hs⟩

/-! ### Collisions -/

/-- A line cannot be inserted: it is not found although its first node is in the trie, and it is not
about to be evicted; or the array is full, and its set is not. -/
def Collides (cfg : MmuConfig) (page : L2Page) (vpn : Addr) (asid : BitVec 16) (s : L2Tlb) : Prop :=
  s.hit page vpn asid .direct = none ∧
  if (s.arrays page.array).slots.any fun x =>
      x.trieHandle == some (.ofPage (buildKey vpn asid .direct) (levelShift page.level)) then
    ¬ ((s.arrays page.array).freeList = [] ∧
      ((s.arrays page.array).slot ((s.arrays page.array).leastRecent 0
        (s.arrays page.array).lineStarts.tail)).trieHandle =
          some (.ofPage (buildKey vpn asid .direct) (levelShift page.level)))
  else ∃ ways, page.array.ways = some ways ∧
    (s.linesOfSet page.array (cfg.setOf page.array vpn)).length < ways ∧
    (s.arrays page.array).freeList = []

theorem insertLine_of_error (h : s.l2TLBInsertIn cfg (e 0).vaddr (e 0) page 0 = .error m) :
    s.insertLine cfg page e = .error m := by
  rw [insertLine, l2tlbLineSize, range_succ_eq_map, foldlM_cons, h]
  rfl

theorem insertIn_of_makeRoom_error {e : TlbEntry} (hhit : s.hit page e.vaddr e.asid .direct = none)
    (hroom : s.makeRoom cfg e.vaddr page sign = .error m) :
    s.l2TLBInsertIn cfg e.vaddr e page sign = .error m := by
  rw [l2TLBInsertIn, lookupL2TLB_of_hit hhit]
  simp only [hroom]

theorem insertIn_of_caches {e : TlbEntry} (hfits : e.Fits cfg l 0) (ht : t.Whole cfg)
    (hfree : (t.arrays l.page.array).freeList ≠ [])
    (hhit : s.hit l.page e.vaddr e.asid .direct = none)
    (hroom : s.makeRoom cfg e.vaddr l.page 0 = .ok t)
    (hcaches : (t.arrays l.page.array).Caches cfg l.page.array l.level l.vaddr l.asid) :
    s.l2TLBInsertIn cfg e.vaddr e l.page 0 = .error "Assertion `!node->value' failed." := by
  obtain ⟨i, rest, hrest⟩ := exists_cons_of_ne_nil hfree
  have hany := ((ht l.page.array).any_node_iff (show 0 < 8 by decide)).mpr hcaches
  have hplace : (t.arrays l.page.array).place { e with lruSeq := t.lruSeq + 1, vaddr := e.vaddr }
      (buildKey e.vaddr e.asid .direct) = .error "Assertion `!node->value' failed." := by
    rw [place, hrest]
    simp only [link]
    rw [hfits.vaddr, hfits.asid, hfits.logBytes, ← lineNode]
    exact if_pos hany
  rw [l2TLBInsertIn, lookupL2TLB_of_hit hhit]
  simp only [hroom, hplace]

theorem makeRoom_of_ways (cfg : MmuConfig) (s : L2Tlb) (v : Addr)
    (hways : page.array.ways = some ways) :
    ∃ wrong empty, empty ∈ panics ∧ s.makeRoom cfg v page 0 =
      s.evictSet page.array (cfg.setOf page.array v) ways wrong empty := by
  cases page with
  | l2l1 =>
    cases hways
    exact ⟨_, _, by decide, rfl⟩
  | l2l0 =>
    cases hways
    exact ⟨_, _, by decide, rfl⟩
  | l2l3 => cases hways
  | l2l2 => cases hways
  | l2sp3 => cases hways
  | l2sp2 => cases hways
  | l2sp1 => cases hways

theorem makeRoom_of_noWays (hways : page.array.ways = none) :
    s.makeRoom cfg v page 0 = if (s.arrays page.array).freeList.isEmpty then
      s.l2TLBRemove ((s.arrays page.array).leastRecent 0 (s.arrays page.array).lineStarts.tail)
        page.array else .ok s := by
  cases page with
  | l2l1 => cases hways
  | l2l0 => cases hways
  | l2l3 => rfl
  | l2l2 => rfl
  | l2sp3 => rfl
  | l2sp2 => rfl
  | l2sp1 => rfl

theorem not_caches_of_miss (hs : s.Whole cfg) (hways : page.array.ways = some ways)
    (hhit : s.hit page v asid .direct = none) :
    ¬ (s.arrays page.array).Caches cfg page.array page.level v asid := by
  intro hcaches
  have hsome : (s.hit page v asid .direct).isSome = true := by
    rw [hit_isSome_iff hs]
    refine ⟨hcaches, ?_⟩
    rintro level hlevel ⟨g, -, l, hl, rfl, -⟩
    have harray := hl.array
    have hlt : page.level < l.page.level := hlevel
    revert harray hlt hways
    cases page <;> cases l.page <;> simp [L2Page.array, L2Page.level, L2Array.ways]
  rw [hhit] at hsome
  cases hsome

theorem Evicts.not_caches (h : s.Evicts cfg k t) (hs : s.Whole cfg)
    (hnot : ¬ (s.arrays k).Caches cfg k level v asid) :
    ¬ (t.arrays k).Caches cfg k level v asid := by
  cases h with
  | none heq =>
    rw [heq]
    exact hnot
  | line g l hg hl _ hfreed =>
    rw [hfreed.caches_iff (hs k) hg hl]
    exact fun hand => hnot hand.1

theorem lineVaddr_ushiftRight (v : Addr) (hlevel : level ≤ 3) (hj : j < 8) :
    lineVaddr v level j >>> (levelShift level + l2tlbBlkOffset) =
      v >>> (levelShift level + l2tlbBlkOffset) := by
  apply BitVec.eq_of_getLsbD_eq
  intro i _
  rw [BitVec.getLsbD_ushiftRight, BitVec.getLsbD_ushiftRight, getLsbD_lineVaddr_eq _ hlevel hj,
    l2tlbBlkOffset, if_neg (by omega), if_neg (by omega)]

theorem setOf_lineVaddr (page : L2Page) (v : Addr) (hj : j < 8)
    (hways : page.array.ways = some ways) :
    cfg.setOf page.array (lineVaddr v page.level j) = cfg.setOf page.array v := by
  cases page with
  | l2l1 =>
    show (lineVaddr v 1 j >>> _) &&& cfg.l1Mask = (v >>> _) &&& cfg.l1Mask
    rw [lineVaddr_ushiftRight v (by decide) hj]
  | l2l0 =>
    show (lineVaddr v 0 j >>> _) &&& cfg.l0Mask = (v >>> _) &&& cfg.l0Mask
    rw [lineVaddr_ushiftRight v (by decide) hj]
  | l2l3 => cases hways
  | l2l2 => cases hways
  | l2sp3 => cases hways
  | l2sp2 => cases hways
  | l2sp1 => cases hways

/-- The line is inserted, or there is a panic if it collides. -/
def InsertsLine (cfg : MmuConfig) (l : L2Line) (e : ℕ → TlbEntry) (s : L2Tlb) : Prop :=
  (s.Collides cfg l.page (e 0).vaddr (e 0).asid ∧
    ∃ m ∈ panics, s.insertLine cfg l.page e = .error m) ∨
  (¬ s.Collides cfg l.page (e 0).vaddr (e 0).asid ∧
    ∃ r, s.insertLine cfg l.page e = .ok r ∧ r.Whole cfg)

section
variable (hs : s.Whole cfg)
include hs

theorem Whole.insertLine_of_ways (hfits : ∀ j < 8, (e j).Fits cfg l j)
    (hways : l.page.array.ways = some ways)
    (hhit : s.hit l.page (e 0).vaddr (e 0).asid .direct = none) : s.InsertsLine cfg l e := by
  have h0 := hfits 0 (by decide)
  have hnew : ¬ (s.arrays l.page.array).Caches cfg l.page.array l.level l.vaddr l.asid := by
    have hnot := not_caches_of_miss hs hways hhit
    rw [h0.vaddr, h0.asid] at hnot
    exact fun hc => hnot ((caches_lineVaddr_iff (le_refl l.level) (by decide)).mpr hc)
  -- only the set and the free list matter
  have hcollides : s.Collides cfg l.page (e 0).vaddr (e 0).asid ↔
      (s.linesOfSet l.page.array (cfg.setOf l.page.array (e 0).vaddr)).length < ways ∧
        (s.arrays l.page.array).freeList = [] := by
    have hany : ¬ ((s.arrays l.page.array).slots.any fun x => x.trieHandle ==
        some (.ofPage (buildKey (e 0).vaddr (e 0).asid .direct) (levelShift l.page.level))) =
          true := by
      rw [h0.vaddr, h0.asid]
      exact fun hany => hnew (((hs _).any_node_iff (show 0 < 8 by decide)).mp hany)
    rw [Collides, if_neg hany]
    constructor
    · rintro ⟨-, ways', hways', hlt, hfull⟩
      rw [hways] at hways'
      cases hways'
      exact ⟨hlt, hfull⟩
    · rintro ⟨hlt, hfull⟩
      exact ⟨hhit, ways, hways, hlt, hfull⟩
  obtain ⟨wrong, empty, hmem, hroom⟩ := makeRoom_of_ways cfg s (e 0).vaddr hways
  have hset : cfg.setOf l.page.array (e 0).vaddr = cfg.setOf l.page.array l.vaddr := by
    rw [h0.vaddr]
    exact setOf_lineVaddr l.page l.vaddr (by decide) hways
  rw [hset] at hroom hcollides
  rcases hs.evictSet l.vaddr wrong empty hways with
    ⟨hlt, hfull, herror⟩ | ⟨hnot, t, ht, hevicts, hroom'⟩
  · refine .inl ⟨hcollides.mpr ⟨hlt, hfull⟩, empty, hmem, insertLine_of_error ?_⟩
    exact insertIn_of_makeRoom_error hhit (hroom.trans herror)
  · refine .inr ⟨fun h => hnot (hcollides.mp h), ?_⟩
    exact hroom'.insertLine hfits (hevicts.not_caches hs hnew) hhit (hroom.trans ht)

theorem collides_iff_of_noWays {e : TlbEntry} (hfits : e.Fits cfg l 0)
    (hways : l.page.array.ways = none) (hhit : s.hit l.page e.vaddr e.asid .direct = none) :
    s.Collides cfg l.page e.vaddr e.asid ↔
      (s.arrays l.page.array).Caches cfg l.page.array l.level l.vaddr l.asid ∧
      ¬ ((s.arrays l.page.array).freeList = [] ∧
        ((s.arrays l.page.array).slot ((s.arrays l.page.array).leastRecent 0
          (s.arrays l.page.array).lineStarts.tail)).trieHandle = some (l.node 0)) := by
  have hnode : TrieNode.ofPage (buildKey e.vaddr e.asid .direct) (levelShift l.page.level) =
      l.node 0 := by
    rw [hfits.vaddr, hfits.asid]
    rfl
  rw [Collides, and_iff_right hhit, hnode, ← (hs _).any_node_iff (show 0 < 8 by decide)]
  split_ifs with hany
  · exact (and_iff_right hany).symm
  · refine iff_of_false ?_ fun h => hany h.1
    rintro ⟨ways, hways', -⟩
    rw [hways] at hways'
    cases hways'

theorem Whole.insertLine_of_noWays (hfits : ∀ j < 8, (e j).Fits cfg l j)
    (hways : l.page.array.ways = none)
    (hhit : s.hit l.page (e 0).vaddr (e 0).asid .direct = none) : s.InsertsLine cfg l e := by
  have h0 := hfits 0 (by decide)
  -- room is made, and the line may still be there
  have hroom : ∃ t, s.makeRoom cfg (e 0).vaddr l.page 0 = .ok t ∧
      Room cfg l.page.array l.vaddr t ∧
      ((t.arrays l.page.array).Caches cfg l.page.array l.level l.vaddr l.asid ↔
        s.Collides cfg l.page (e 0).vaddr (e 0).asid) := by
    rw [makeRoom_of_noWays hways, collides_iff_of_noWays hs h0 hways hhit]
    by_cases hfull : (s.arrays l.page.array).freeList = []
    · rw [if_pos (by rw [hfull]; rfl)]
      obtain ⟨g, hg, hlru, l', hl', t, ht, -, hfreed, hroom⟩ :=
        hs.evictLine (v := l.vaddr) hways hfull
      rw [hlru]
      refine ⟨t, ht, hroom, ?_⟩
      have hhandle := hl'.handle 0 (by decide)
      rw [Nat.add_zero] at hhandle
      rw [hfreed.caches_iff (hs _) hg hl', hhandle, and_iff_right hfull, Option.some.injEq,
        node_eq_iff (by decide) (by decide), and_iff_left rfl]
      refine and_congr_right fun _ => not_congr (and_congr_left fun _ => ?_)
      exact eq_comm
    · rw [if_neg (by rwa [List.isEmpty_iff])]
      refine ⟨s, rfl, ⟨hs, hfull, fun ways hways' => ?_⟩, ?_⟩
      · rw [hways] at hways'
        cases hways'
      · exact (and_iff_left fun h => hfull h.1).symm
  obtain ⟨t, ht, hroom, hiff⟩ := hroom
  by_cases hcaches : (t.arrays l.page.array).Caches cfg l.page.array l.level l.vaddr l.asid
  · refine .inl ⟨hiff.mp hcaches, "Assertion `!node->value' failed.", by decide, ?_⟩
    exact insertLine_of_error (insertIn_of_caches h0 hroom.whole hroom.free hhit ht hcaches)
  · exact .inr ⟨fun h => hcaches (hiff.mpr h), hroom.insertLine hfits hcaches hhit ht⟩

theorem Whole.insertLine (hfits : ∀ j < 8, (e j).Fits cfg l j) : s.InsertsLine cfg l e := by
  cases hhit : s.hit l.page (e 0).vaddr (e 0).asid .direct with
  | some i =>
    refine .inr ⟨fun h => ?_, hs.refreshLine hfits (by rw [hhit]; rfl)⟩
    rw [h.1] at hhit
    cases hhit
  | none =>
    cases hways : l.page.array.ways with
    | none => exact hs.insertLine_of_noWays hfits hways hhit
    | some ways => exact hs.insertLine_of_ways hfits hways hhit
end

end L2Tlb
end Gem5
