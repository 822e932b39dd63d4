import Gem5.Mmu.Walker

/-!
# Insertions in an empty TLB

A walk inserts lines of eight entries.  Here it is shown that a line finds its place in an array of
the second level that is empty, and that an entry inserted in an empty TLB of the first level is the
one found afterwards.
-/

namespace Gem5
open List BitVec TlbArray TlbSlot

/-! ### Keys -/

variable {j k level : ℕ} {vaddr : Addr} {asid : BitVec 16}

theorem eq_of_testBit_three (hj : j < 8) (hk : k < 8) (h : ∀ b < 3, j.testBit b = k.testBit b) :
    j = k := by
  apply Nat.eq_of_testBit_eq
  intro b
  by_cases hb : b < 3
  · exact h b hb
  · have h8 : 8 ≤ 2 ^ b := Nat.pow_le_pow_right Nat.two_pos (show 3 ≤ b by omega)
    rw [Nat.testBit_lt_two_pow (by omega), Nat.testBit_lt_two_pow (by omega)]

theorem getLsbD_lineVaddr (vaddr : Addr) {i b : ℕ} (hl : level ≤ 3) (hi : i < 8) (hb : b < 3) :
    (lineVaddr vaddr level i).getLsbD (levelShift level + b) = i.testBit b := by
  have h64 : levelShift level + b < 64 := by
    simp only [levelShift, levelBits, pageShift]
    omega
  have hlow (x : Addr) : (((x <<< l2tlbBlkOffset) + BitVec.ofNat 64 i).toNat) % 2 ^ 3 = i := by
    simp only [l2tlbBlkOffset, toNat_add, toNat_shiftLeft, toNat_ofNat]
    omega
  rw [lineVaddr, getLsbD_shiftLeft, decide_eq_true h64,
    decide_eq_false (show ¬ levelShift level + b < levelShift level by omega),
    Nat.add_sub_cancel_left, ← testBit_toNat]
  simp only [Bool.not_false]
  rw [← hlow (vaddr >>> (levelShift level + l2tlbBlkOffset)), Nat.testBit_mod_two_pow,
    decide_eq_true hb, Bool.true_and, hlow]

theorem lineKey_inj (hl : level ≤ 3) (hj : j < 8) (hk : k < 8)
    (h : buildKey (lineVaddr vaddr level j) asid .direct &&& nodeMask (levelShift level) =
      buildKey (lineVaddr vaddr level k) asid .direct &&& nodeMask (levelShift level)) : j = k := by
  apply eq_of_testBit_three hj hk
  intro b hb
  have hbit := congrArg (fun v : Addr => v.getLsbD (level * 9 + b)) h
  have h46 : level * 9 + b < 46 := by omega
  have hmask : (nodeMask (levelShift level)).getLsbD (level * 9 + b) = true := by
    simp only [getLsbD_nodeMask, levelShift, levelBits, pageShift]
    simp
    omega
  have hshift : 12 + (level * 9 + b) = levelShift level + b := by
    simp only [levelShift, levelBits, pageShift]
    omega
  simpa only [getLsbD_and, hmask, Bool.and_true, getLsbD_buildKey _ _ h46, hshift,
    getLsbD_lineVaddr vaddr hl hj hb, getLsbD_lineVaddr vaddr hl hk hb] using hbit

theorem shiftLeft_back (x : Addr) (n : ℕ) : ((x <<< n) >>> n) <<< n = x <<< n := by
  apply eq_of_getLsbD_eq
  intro b hb
  by_cases hn : b < n
  · simp [hn]
  · have hadd : n + (b - n) = b := by omega
    simp [hn, hb, hadd]

theorem pageOf_lineVaddr (p : L2Page) (vaddr : Addr) (i : ℕ) :
    p.pageOf (lineVaddr vaddr p.level i) = lineVaddr vaddr p.level i := shiftLeft_back _ _

/-! ### Arrays -/

namespace TlbArray
variable {a : TlbArray}

variable {i : ℕ} {key : Addr}

theorem slot_mem (h : i < a.slots.length) : a.slot i ∈ a.slots := by
  simp [slot, h]

theorem slot_set {slots : List TlbSlot} {x : TlbSlot} {free : List ℕ} (h : i < slots.length) :
    slot ⟨slots.set i x, free⟩ i = x := by
  simp [slot, h]

theorem slot_update (h : i < a.slots.length) (f : TlbEntry → TlbEntry) :
    ((a.update i f).slot i).entry = f (a.slot i).entry := by
  rw [update, slot_set h]

theorem find_eq_none (h : ∀ x ∈ a.slots, x.covers key = false) : a.find key = none := by
  rw [find, argmin_eq_none, filter_eq_nil_iff]
  intro i hi
  rw [h _ (slot_mem (mem_range.mp hi))]
  exact Bool.false_ne_true

theorem covers_of_find (h : a.find key = some i) :
    i < a.slots.length ∧ (a.slot i).covers key = true := by
  have hmem := argmin_mem h
  rw [mem_filter, mem_range] at hmem
  exact hmem

theorem find_of_unique (hi : i < a.slots.length) (hcovers : (a.slot i).covers key = true)
    (hunique : ∀ j < a.slots.length, (a.slot j).covers key = true → j = i) :
    a.find key = some i := by
  cases h : a.find key with
  | none =>
    rw [find, argmin_eq_none, filter_eq_nil_iff] at h
    exact absurd hcovers (h i (mem_range.mpr hi))
  | some j =>
    obtain ⟨hj, hc⟩ := covers_of_find h
    rw [hunique j hj hc]
end TlbArray

theorem TlbSlot.covers_of_unlinked {x : TlbSlot} (h : x.trieHandle = none) (key : Addr) :
    x.covers key = false := by
  rw [covers, h]

/-! ### Lines of the second level -/

def lineNode (vaddr : Addr) (asid : BitVec 16) (level i : ℕ) : TrieNode :=
  .ofPage (buildKey (lineVaddr vaddr level i) asid .direct) (levelShift level)

theorem lineNode_covers (hl : level ≤ 3) (hj : j < 8) (hk : k < 8) (hne : j ≠ k) :
    (lineNode vaddr asid level j).covers (buildKey (lineVaddr vaddr level k) asid .direct) =
      false := by
  rw [TrieNode.covers, lineNode, TrieNode.ofPage, beq_eq_false_iff_ne]
  intro h
  exact hne (lineKey_inj hl hj hk h.symm)

theorem lineNode_ne (hl : level ≤ 3) (hj : j < 8) (hk : k < 8) (hne : j ≠ k) :
    lineNode vaddr asid level j ≠ lineNode vaddr asid level k := by
  intro h
  exact hne (lineKey_inj hl hj hk (TrieNode.mk.inj h).1)

theorem L2Page.level_le (p : L2Page) : p.level ≤ 3 := by
  cases p <;> decide

/-- The first `k` entries of a line are there, nothing else, and the others have room. -/
structure TlbArray.HasLine (a : TlbArray) (node : ℕ → TrieNode) (k : ℕ) : Prop where
  handles : ∀ x ∈ a.slots, ∀ n, x.trieHandle = some n → ∃ j < k, n = node j
  room : 8 ≤ a.freeList.length + k

namespace TlbArray.HasLine
variable {a : TlbArray} {node : ℕ → TrieNode} {k : ℕ}

theorem of_empty (h : a.Empty) (hroom : 8 ≤ a.slots.length) : a.HasLine node 0 where
  handles x hx n hn := by
    rw [h.unlinked x hx] at hn
    cases hn
  room := by
    rw [h.free.length_eq, length_range]
    exact hroom

theorem freeList_ne (h : a.HasLine node k) (hk : k < 8) : a.freeList.isEmpty = false := by
  have hroom := h.room
  cases hfree : a.freeList with
  | nil =>
    rw [hfree] at hroom
    simp only [length_nil] at hroom
    omega
  | cons => rfl

theorem unlinked (h : a.HasLine node 0) (i : ℕ) : (a.slot i).linked = false := by
  by_cases hi : i < a.slots.length
  · cases hx : (a.slot i).trieHandle with
    | none => rw [linked, hx, Option.isSome_none]
    | some n =>
      obtain ⟨j, hj, -⟩ := h.handles _ (slot_mem hi) n hx
      exact absurd hj (Nat.not_lt_zero j)
  · simp [slot, hi, linked, unused]

variable {vaddr : Addr} {asid : BitVec 16} {level : ℕ}

section
variable (h : a.HasLine (lineNode vaddr asid level) k) (hl : level ≤ 3) (hk : k < 8)
include h hl hk

theorem find_eq_none : a.find (buildKey (lineVaddr vaddr level k) asid .direct) = none := by
  apply TlbArray.find_eq_none
  intro x hx
  cases hn : x.trieHandle with
  | none => exact covers_of_unlinked hn _
  | some n =>
    obtain ⟨j, hj, rfl⟩ := h.handles x hx n hn
    rw [covers, hn]
    exact lineNode_covers hl (by omega) hk (by omega)

theorem place {e : TlbEntry} (he : e.logBytes = levelShift level) :
    ∃ b, a.place e (buildKey (lineVaddr vaddr level k) asid .direct) = .ok b ∧
      b.HasLine (lineNode vaddr asid level) (k + 1) := by
  cases hfree : a.freeList with
  | nil =>
    have hne := h.freeList_ne hk
    rw [hfree] at hne
    cases hne
  | cons i rest =>
    have hroom := h.room
    rw [hfree, length_cons] at hroom
    have hnew : (a.slots.any fun x => x.trieHandle == some (lineNode vaddr asid level k)) =
        false := by
      rw [any_eq_false]
      intro x hx heq
      obtain ⟨j, hj, hn⟩ := h.handles x hx _ (eq_of_beq heq)
      exact lineNode_ne hl hk (by omega) (by omega) hn
    refine ⟨⟨a.slots.set i ⟨e, some (lineNode vaddr asid level k)⟩, rest⟩, ?_, ?_, ?_⟩
    · rw [TlbArray.place, hfree]
      simp only [link, he]
      rw [← lineNode, hnew]
      rfl
    · intro x hx n hn
      rcases mem_or_eq_of_mem_set hx with hx | rfl
      · obtain ⟨j, hj, rfl⟩ := h.handles x hx n hn
        exact ⟨j, by omega, rfl⟩
      · exact ⟨k, by omega, (Option.some.inj hn).symm⟩
    · show 8 ≤ rest.length + (k + 1)
      omega
end
end TlbArray.HasLine

namespace L2Tlb
theorem setArray_self (s : L2Tlb) (k : L2Array) (a : TlbArray) : (s.setArray k a).arrays k = a := by
  simp [setArray]

variable {k : L2Array}

theorem setArray_of_ne (s : L2Tlb) {j : L2Array} (a : TlbArray) (h : j ≠ k) :
    (s.setArray k a).arrays j = s.arrays j := by
  simp [setArray, h]

variable {cfg : MmuConfig} {s : L2Tlb} {page : L2Page} {vaddr vpn : Addr} {asid : BitVec 16}

theorem evictSet_of_unlinked {index : Addr} {ways : ℕ} {wrong empty : String}
    (h : ∀ i, ((s.arrays k).slot i).linked = false)
    (hfree : (s.arrays k).freeList.isEmpty = false) :
    s.evictSet k index ways wrong empty = .ok s := by
  have hlines : s.linesOfSet k index = [] := by
    rw [linesOfSet, filter_eq_nil_iff]
    intro i _
    rw [h i, Bool.and_false]
    exact Bool.false_ne_true
  rw [evictSet, hlines]
  simp only [hfree]
  rfl

theorem makeRoom_of_hasLine {node : ℕ → TrieNode} {k : ℕ}
    (h : (s.arrays page.array).HasLine node k) (hk : k < 8) :
    s.makeRoom cfg vpn page k = .ok s := by
  have hfree := h.freeList_ne hk
  rw [makeRoom, hfree]
  split
  · rename_i hfirst
    obtain ⟨hpage, rfl⟩ := hfirst
    rcases hpage with rfl | rfl
    · exact evictSet_of_unlinked h.unlinked hfree
    · exact evictSet_of_unlinked h.unlinked hfree
  · rfl

theorem insert_of_hasLine (cfg : MmuConfig) {e : TlbEntry} {k : ℕ}
    (h : (s.arrays page.array).HasLine (lineNode vaddr asid page.level) k) (hk : k < 8)
    (hvaddr : e.vaddr = lineVaddr vaddr page.level k) (hasid : e.asid = asid)
    (hbytes : e.logBytes = levelShift page.level) : ∃ a, s.l2TLBInsertIn cfg e.vaddr e page k =
        .ok { s.setArray page.array a with lruSeq := s.lruSeq + 1 } ∧
      a.HasLine (lineNode vaddr asid page.level) (k + 1) := by
  have hfind := h.find_eq_none page.level_le hk
  have hlookup : s.lookupL2TLB e.vaddr e.asid true page false .direct = .ok (none, s) := by
    rw [lookupL2TLB, hvaddr, hasid, pageOf_lineVaddr, hfind]
  obtain ⟨a, hplace, ha⟩ := h.place page.level_le hk
    (e := { e with lruSeq := s.lruSeq + 1, vaddr := e.vaddr }) hbytes
  refine ⟨a, ?_, ha⟩
  rw [l2TLBInsertIn, hlookup]
  simp only [makeRoom_of_hasLine h hk]
  rw [← hvaddr, ← hasid] at hplace
  rw [hplace]
end L2Tlb

namespace Tlbs
def execAll (cfg : MmuConfig) (ops : List TlbOp) (s : Tlbs) : Except String Tlbs :=
  ops.foldlM (fun s op => op.exec cfg s) s

variable {cfg : MmuConfig} {s : Tlbs} {page : L2Page} {vaddr : Addr} {asid : BitVec 16}

theorem execAll_append {s t : Tlbs} {ops : List TlbOp} (h : s.execAll cfg ops = .ok t)
    (more : List TlbOp) : s.execAll cfg (ops ++ more) = t.execAll cfg more := by
  rw [execAll, foldlM_append, ← execAll, h]
  rfl

theorem insertLine (cfg : MmuConfig) {e : ℕ → TlbEntry} (hempty : (s.l2.arrays page.array).Empty)
    (hroom : 8 ≤ (s.l2.arrays page.array).slots.length)
    (hvaddr : ∀ i, (e i).vaddr = lineVaddr vaddr page.level i) (hasid : ∀ i, (e i).asid = asid)
    (hbytes : ∀ i, (e i).logBytes = levelShift page.level) (k : ℕ) (hk : k ≤ 8) :
    ∃ t, s.execAll cfg ((List.range k).map fun i => .l2Insert page (e i) i) = .ok t ∧
      t.l1 = s.l1 ∧ (∀ j ≠ page.array, t.l2.arrays j = s.l2.arrays j) ∧
      (t.l2.arrays page.array).HasLine (lineNode vaddr asid page.level) k := by
  -- on the number of entries that have been inserted
  induction k with
  | zero => exact ⟨s, rfl, rfl, fun _ _ => rfl, .of_empty hempty hroom⟩
  | succ k ih =>
    obtain ⟨t, ht, hl1, hother, hline⟩ := ih (by omega)
    obtain ⟨a, hinsert, ha⟩ := L2Tlb.insert_of_hasLine cfg hline (by omega) (hvaddr k)
      (hasid k) (hbytes k)
    refine ⟨{ t with l2 := { t.l2.setArray page.array a with lruSeq := t.l2.lruSeq + 1 } }, ?_,
      hl1, ?_, ?_⟩
    · rw [range_succ, map_append, execAll_append ht]
      simp only [map_cons, execAll, foldlM_cons, TlbOp.exec, hinsert]
      rfl
    · intro j hj
      exact (L2Tlb.setArray_of_ne t.l2 a hj).trans (hother j hj)
    · rw [L2Tlb.setArray_self]
      exact ha
end Tlbs

/-! ### The first level -/

namespace L1Tlb
variable {s : L1Tlb}

theorem insert_of_empty (h : s.arr.Empty) (hsize : 0 < s.arr.slots.length) (e : TlbEntry) :
    ∃ i < s.arr.slots.length, ∃ free, s.insert e.vaddr e = .ok ⟨⟨s.arr.slots.set i
      ⟨{ e with lruSeq := s.lruSeq + 1 },
        some (.ofPage (buildKey e.vaddr e.asid .direct) e.logBytes)⟩, free⟩, s.lruSeq + 1⟩ := by
  have hnone : s.arr.find (buildKey e.vaddr e.asid .direct) = none :=
    find_eq_none fun x hx => covers_of_unlinked (h.unlinked x hx) _
  cases hfree : s.arr.freeList with
  | nil =>
    have hlen := h.free.length_eq
    rw [hfree, length_nil, length_range] at hlen
    omega
  | cons i rest =>
    have hi : i ∈ List.range s.arr.slots.length := by
      rw [← h.free.mem_iff, hfree]
      exact mem_cons_self
    have hnew (n : TrieNode) : (s.arr.slots.any fun x => x.trieHandle == some n) = false := by
      rw [any_eq_false]
      intro x hx heq
      rw [h.unlinked x hx] at heq
      cases heq
    have hplace (e' : TlbEntry) (key : Addr) : s.arr.place e' key =
        .ok ⟨s.arr.slots.set i ⟨e', some (.ofPage key e'.logBytes)⟩, rest⟩ := by
      simp only [place, hfree, link, hnew]
      rfl
    refine ⟨i, mem_range.mp hi, rest, ?_⟩
    rw [insert, hnone]
    simp only [hfree, isEmpty_cons, Bool.false_eq_true, if_false, hplace]

variable {i : ℕ} {e : TlbEntry} {vaddr : Addr}

theorem find_of_insert {slots : List TlbSlot} (h : ∀ x ∈ slots, x.trieHandle = none)
    (hi : i < slots.length) {n : TrieNode} {free : List ℕ} {key : Addr}
    (hcovers : n.covers key = true) :
    (TlbArray.mk (slots.set i ⟨e, some n⟩) free).find key = some i := by
  apply find_of_unique
  · simpa using hi
  · simpa [slot, hi, covers] using hcovers
  · intro j hj hc
    by_contra hne
    have hold : (TlbArray.mk (slots.set i ⟨e, some n⟩) free).slot j = slots.getD j .unused := by
      simp [slot, Ne.symm hne]
    have hmem : slots.getD j .unused ∈ slots := by
      rw [length_set] at hj
      simp [hj]
    rw [hold, covers_of_unlinked (h _ hmem)] at hc
    cases hc

theorem translateWithTLB_of_find {asid : BitVec 16}
    (h : s.arr.find (buildKey vaddr asid .direct) = some i) :
    ∃ u, s.translateWithTLB vaddr asid = .ok ((s.arr.slot i).entry.translate vaddr, u) := by
  have hi := (covers_of_find h).1
  unfold translateWithTLB lookup
  rw [h]
  dsimp only
  rw [slot_update hi]
  exact ⟨_, rfl⟩

theorem translate_insert (h : s.arr.Empty) (hsize : 0 < s.arr.slots.length) (h12 : 12 ≤ e.logBytes)
    (hpage : ∀ i, e.logBytes ≤ i → e.vaddr.getLsbD i = vaddr.getLsbD i) :
    ∃ t, s.insert e.vaddr e = .ok t ∧
      ∃ u, t.translateWithTLB vaddr e.asid = .ok (e.translate vaddr, u) := by
  obtain ⟨i, hi, free, hinsert⟩ := insert_of_empty h hsize e
  have hcovers : (TrieNode.ofPage (buildKey e.vaddr e.asid .direct) e.logBytes).covers
      (buildKey vaddr e.asid .direct) = true := by
    rw [TrieNode.covers, TrieNode.ofPage, beq_iff_eq]
    exact (masked_key_congr h12 hpage e.asid .direct).symm
  obtain ⟨u, hu⟩ := translateWithTLB_of_find (s := ⟨_, s.lruSeq + 1⟩)
    (find_of_insert h.unlinked hi hcovers)
  rw [slot_set hi] at hu
  exact ⟨_, hinsert, u, hu⟩
end L1Tlb
end Gem5
