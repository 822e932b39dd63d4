import Gem5.Lib.Loop
import Gem5.Mmu.Machine

/-!
# What an event does to the slots of the TLBs

Every event of the memory management unit is described slot by slot, once for all invariants.
-/

namespace Gem5
open List Function L1Tlb Loop TlbOp Bool

def TlbEntry.SameMapping (e f : TlbEntry) : Prop :=
  ∃ seq used sign, f = { e with lruSeq := seq, used := used, preSign := sign }

namespace TlbEntry.SameMapping
theorem refl (e : TlbEntry) : e.SameMapping e := ⟨e.lruSeq, e.used, e.preSign, rfl⟩

theorem trans {e f g : TlbEntry} (hef : e.SameMapping f) (hfg : f.SameMapping g) :
    e.SameMapping g := by
  obtain ⟨_, _, _, rfl⟩ := hef
  obtain ⟨seq, used, sign, rfl⟩ := hfg
  exact ⟨seq, used, sign, rfl⟩
end TlbEntry.SameMapping

structure TlbSlot.Quiet (x y : TlbSlot) : Prop where
  entry : x.entry.SameMapping y.entry
  handle : y.trieHandle = x.trieHandle ∨ y.trieHandle = none

namespace TlbSlot.Quiet
theorem refl (x : TlbSlot) : x.Quiet x := ⟨.refl _, .inl rfl⟩

theorem trans {x y z : TlbSlot} (hxy : x.Quiet y) (hyz : y.Quiet z) : x.Quiet z where
  entry := hxy.entry.trans hyz.entry
  handle := by
    rcases hyz.handle with h | h
    · rw [h]
      exact hxy.handle
    · exact .inr h
end TlbSlot.Quiet

/-! ### Arrays -/

namespace TlbArray
theorem slot_set_eq (slots : List TlbSlot) (free free' : List ℕ) (x : TlbSlot) (i j : ℕ) :
    slot ⟨slots.set i x, free⟩ j =
      if j = i ∧ i < slots.length then x else slot ⟨slots, free'⟩ j := by
  by_cases hj : j = i
  · subst hj
    by_cases hlen : j < slots.length <;> simp [slot, hlen]
  · simp [slot, hj, Ne.symm hj]

variable {a : TlbArray} {i : ℕ} {key : Addr}

theorem slot_of_le (h : a.slots.length ≤ i) : a.slot i = .unused := by
  simp [slot, h]

theorem lt_of_covers (h : (a.slot i).covers key = true) : i < a.slots.length := by
  by_contra hi
  rw [slot_of_le (not_lt.mp hi)] at h
  cases h

theorem find_eq_none_iff : a.find key = none ↔ ∀ i, (a.slot i).covers key = false := by
  rw [find, argmin_eq_none, filter_eq_nil_iff]
  constructor
  · intro h i
    rw [← not_eq_true]
    exact fun hcovers => h i (mem_range.mpr (lt_of_covers hcovers)) hcovers
  · intro h i _
    rw [h i]
    exact Bool.false_ne_true

structure Marked (a b : TlbArray) : Prop where
  length : b.slots.length = a.slots.length
  freeList : b.freeList = a.freeList
  handle : ∀ i, (b.slot i).trieHandle = (a.slot i).trieHandle
  entry : ∀ i, (a.slot i).entry.SameMapping (b.slot i).entry

structure Quiet (a b : TlbArray) : Prop where
  length : b.slots.length = a.slots.length
  slot : ∀ i, (a.slot i).Quiet (b.slot i)

namespace Marked
variable {a b c : TlbArray}

theorem refl (a : TlbArray) : a.Marked a := ⟨rfl, rfl, fun _ => rfl, fun _ => .refl _⟩

theorem trans (hab : a.Marked b) (hbc : b.Marked c) : a.Marked c where
  length := hbc.length.trans hab.length
  freeList := hbc.freeList.trans hab.freeList
  handle i := (hbc.handle i).trans (hab.handle i)
  entry i := (hab.entry i).trans (hbc.entry i)

theorem update {f : TlbEntry → TlbEntry} (hf : ∀ e : TlbEntry, e.SameMapping (f e)) (a : TlbArray)
    (i : ℕ) : a.Marked (a.update i f) where
  length := length_set
  freeList := rfl
  handle j := by
    rw [TlbArray.update, slot_set_eq _ _ a.freeList]
    split_ifs with h
    · rw [h.1]
    · rfl
  entry j := by
    rw [TlbArray.update, slot_set_eq _ _ a.freeList]
    split_ifs with h
    · rw [h.1]
      exact hf _
    · exact .refl _

theorem quiet (h : a.Marked b) : a.Quiet b where
  length := h.length
  slot i := ⟨h.entry i, .inl (h.handle i)⟩

theorem covers (h : a.Marked b) (i : ℕ) (key : Addr) :
    (b.slot i).covers key = (a.slot i).covers key := by
  rw [TlbSlot.covers, TlbSlot.covers, h.handle i]

theorem find (h : a.Marked b) (key : Addr) : b.find key = a.find key := by
  have hdepth : (fun i => (b.slot i).depth) = fun i => (a.slot i).depth := by
    funext i
    rw [TlbSlot.depth, TlbSlot.depth, h.handle i]
  rw [TlbArray.find, h.length]
  congr 1
  apply filter_congr
  intro i _
  exact h.covers i key
end Marked

namespace Quiet
variable {a b c : TlbArray}

theorem refl (a : TlbArray) : a.Quiet a := ⟨rfl, fun _ => .refl _⟩

theorem trans (hab : a.Quiet b) (hbc : b.Quiet c) : a.Quiet c where
  length := hbc.length.trans hab.length
  slot i := (hab.slot i).trans (hbc.slot i)

theorem unlink {i : ℕ} (h : a.unlink i = .ok b) : a.Quiet b := by
  rw [TlbArray.unlink] at h
  split_ifs at h
  cases h
  refine ⟨length_set, fun j => ?_⟩
  rw [slot_set_eq _ _ a.freeList]
  split_ifs with hj
  · rw [hj.1]
    exact ⟨.refl _, .inr rfl⟩
  · exact .refl _
end Quiet

theorem place_slots {b : TlbArray} {e : TlbEntry} (h : a.place e key = .ok b) :
    b.slots.length = a.slots.length ∧ ∃ i, ∀ j, b.slot j = a.slot j ∨
      j = i ∧ b.slot j = ⟨e, some (.ofPage key e.logBytes)⟩ := by
  rw [place] at h
  cases hfree : a.freeList with
  | nil =>
    rw [hfree] at h
    cases h
  | cons i rest =>
    rw [hfree] at h
    simp only [link] at h
    split_ifs at h
    cases h
    refine ⟨length_set, i, fun j => ?_⟩
    rw [slot_set_eq _ _ a.freeList]
    split_ifs with hj
    · exact .inr ⟨hj.1, rfl⟩
    · exact .inl rfl
end TlbArray

/-! ### The first level -/

namespace L1Tlb
variable {s t : L1Tlb}

section
variable (vpn : Addr) (asid : BitVec 16) (hidden signUsed : Bool) (mode : TlbTranslateMode)
  (s : L1Tlb)
include hidden

theorem lookup_marked : s.arr.Marked (s.lookup vpn asid hidden signUsed mode).2.arr := by
  unfold lookup
  cases s.arr.find (buildKey vpn asid mode) with
  | none => exact .refl _
  | some i => exact .update (fun e => ⟨_, _, e.preSign, rfl⟩) _ i

theorem lookup_fst :
    (s.lookup vpn asid hidden signUsed mode).1 = s.arr.find (buildKey vpn asid mode) := by
  unfold lookup
  cases s.arr.find (buildKey vpn asid mode) <;> rfl
end

variable {asid : BitVec 16}

theorem translateWithTLB_marked {vaddr paddr : Addr}
    (h : s.translateWithTLB vaddr asid = .ok (paddr, t)) : s.arr.Marked t.arr := by
  have hmarked := lookup_marked vaddr asid false false .direct s
  unfold translateWithTLB at h
  rcases hlookup : s.lookup vaddr asid false false .direct with ⟨_ | i, u⟩
  · rw [hlookup] at h
    cases h
  · rw [hlookup] at h hmarked
    cases h
    exact hmarked

theorem remove_quiet {i : ℕ} (h : s.remove i = .ok t) : s.arr.Quiet t.arr := by
  unfold remove at h
  cases hunlink : s.arr.unlink i with
  | error m =>
    rw [hunlink] at h
    cases h
  | ok a =>
    rw [hunlink] at h
    cases h
    exact .unlink hunlink

theorem evictLRU_quiet (h : s.evictLRU = .ok t) : s.arr.Quiet t.arr := remove_quiet h

theorem removeIf_quiet {p : TlbEntry → Bool} (h : s.removeIf p = .ok t) : s.arr.Quiet t.arr := by
  refine foldlM_inv (fun u : L1Tlb => s.arr.Quiet u.arr) ?_ (.refl _) h
  intro u i v hu hv
  split_ifs at hv
  · exact hu.trans (remove_quiet hv)
  · cases hv
    exact hu

theorem flushAll_quiet (h : s.flushAll = .ok t) : s.arr.Quiet t.arr := removeIf_quiet h

theorem removeFound_quiet {vpn : Addr} {mode : TlbTranslateMode}
    (h : s.removeFound vpn asid mode = .ok t) : s.arr.Quiet t.arr := by
  have hmarked := lookup_marked vpn asid true false mode s
  unfold removeFound at h
  rcases hlookup : s.lookup vpn asid true false mode with ⟨_ | i, u⟩
  · rw [hlookup] at h hmarked
    cases h
    exact hmarked.quiet
  · rw [hlookup] at h hmarked
    exact hmarked.quiet.trans (remove_quiet h)
end L1Tlb

/-! ### The second level -/

namespace L2Tlb
variable {s t u : L2Tlb}

def Marked (s t : L2Tlb) : Prop :=
  ∀ k, (s.arrays k).Marked (t.arrays k)

def Quiet (s t : L2Tlb) : Prop :=
  ∀ k, (s.arrays k).Quiet (t.arrays k)

theorem Marked.refl (s : L2Tlb) : s.Marked s := fun _ => .refl _

theorem Marked.trans (hst : s.Marked t) (htu : t.Marked u) : s.Marked u :=
  fun k => (hst k).trans (htu k)

theorem Marked.quiet (h : s.Marked t) : s.Quiet t := fun k => (h k).quiet

theorem Quiet.refl (s : L2Tlb) : s.Quiet s := fun _ => .refl _

theorem Quiet.trans (hst : s.Quiet t) (htu : t.Quiet u) : s.Quiet u :=
  fun k => (hst k).trans (htu k)

variable {k : L2Array} {a : TlbArray} {page : L2Page} {vpn : Addr} {asid : BitVec 16}
  {mode : TlbTranslateMode} {hidden signUsed : Bool} {cfg : MmuConfig}

theorem marked_setArray (h : (s.arrays k).Marked a) : s.Marked (s.setArray k a) := by
  intro j
  by_cases hj : j = k
  · subst hj
    rw [setArray_self]
    exact h
  · rw [setArray_of_ne _ _ hj]
    exact .refl _

theorem quiet_setArray (h : (s.arrays k).Quiet a) : s.Quiet (s.setArray k a) := by
  intro j
  by_cases hj : j = k
  · subst hj
    rw [setArray_self]
    exact h
  · rw [setArray_of_ne _ _ hj]
    exact .refl _

theorem touch_marked (k : L2Array) (i : ℕ) (hidden writeSign : Bool) (s : L2Tlb) :
    s.Marked (s.touch k i hidden writeSign) :=
  marked_setArray (.update (fun e => ⟨_, e.used, _, rfl⟩) _ i)

theorem touchLine_marked {message : String} {writeSign : Bool}
    (h : s.touchLine message page vpn asid mode hidden writeSign = .ok t) : s.Marked t := by
  refine foldlM_inv (fun u : L2Tlb => s.Marked u) ?_ (.refl _) h
  intro u i v hu hv
  cases hfind : (u.arrays page.array).find (buildKey (page.nthOf vpn i) asid mode) with
  | none =>
    simp only [hfind] at hv
    cases hv
  | some j =>
    simp only [hfind] at hv
    cases hv
    exact hu.trans (touch_marked _ _ _ _ _)

theorem touchFound_marked {e : TlbEntry}
    (h : s.touchFound page vpn asid mode hidden signUsed e = .ok t) : s.Marked t := by
  unfold touchFound updateL2TLBSeq at h
  split_ifs at h
  · exact touchLine_marked h
  · cases h
    exact .refl _
  · exact touchLine_marked h

def hit (s : L2Tlb) (page : L2Page) (vpn : Addr) (asid : BitVec 16) (mode : TlbTranslateMode) :
    Option ℕ :=
  ((s.arrays page.array).find (buildKey (page.pageOf vpn) asid mode)).filter fun i =>
    !page.otherSize ((s.arrays page.array).slot i).entry.level

theorem lookupL2TLB_spec {found : Option ℕ}
    (h : s.lookupL2TLB vpn asid hidden page signUsed mode = .ok (found, t)) :
    found = s.hit page vpn asid mode ∧ s.Marked t := by
  unfold lookupL2TLB at h
  unfold hit
  cases hfind : (s.arrays page.array).find (buildKey (page.pageOf vpn) asid mode) with
  | none =>
    rw [hfind] at h
    cases h
    exact ⟨rfl, .refl _⟩
  | some i =>
    simp only [hfind] at h
    by_cases hsize : page.otherSize ((s.arrays page.array).slot i).entry.level = true
    · rw [if_pos hsize] at h
      cases h
      exact ⟨by simp [Option.filter, hsize], .refl _⟩
    · rw [if_neg hsize] at h
      cases htouch : s.touchFound page vpn asid mode hidden signUsed
          ((s.arrays page.array).slot i).entry with
      | error m =>
        rw [htouch] at h
        cases h
      | ok u =>
        rw [htouch] at h
        cases h
        refine ⟨by simp [Option.filter, hsize], (touchFound_marked htouch).trans ?_⟩
        exact marked_setArray (.update (fun e => ⟨e.lruSeq, _, e.preSign, rfl⟩) _ i)

theorem l2TLBRemove_quiet {i : ℕ} (h : s.l2TLBRemove i k = .ok t) : s.Quiet t := by
  unfold l2TLBRemove at h
  cases hfold : (List.range l2tlbLineSize).foldlM (fun a j => a.unlink (i + j)) (s.arrays k) with
  | error m =>
    rw [hfold] at h
    cases h
  | ok a =>
    rw [hfold] at h
    cases h
    refine quiet_setArray (foldlM_inv (fun b : TlbArray => (s.arrays k).Quiet b) ?_ (.refl _) hfold)
    exact fun b j c hb hc => hb.trans (.unlink hc)

theorem evictSet_quiet {index : Addr} {ways : ℕ} {wrong empty : String}
    (h : s.evictSet k index ways wrong empty = .ok t) : s.Quiet t := by
  unfold evictSet at h
  cases hlines : s.linesOfSet k index with
  | nil =>
    simp only [hlines] at h
    split_ifs at h
    cases h
    exact .refl _
  | cons i rest =>
    simp only [hlines] at h
    split_ifs at h
    · exact l2TLBRemove_quiet h
    · cases h
      exact .refl _

theorem l2TLBEvictLRU_quiet {vaddr : Addr} (h : s.l2TLBEvictLRU cfg page vaddr = .ok t) :
    s.Quiet t := by
  cases page with
  | l2l1 => exact evictSet_quiet h
  | l2l0 => exact evictSet_quiet h
  | l2l3 => exact l2TLBRemove_quiet h
  | l2l2 => exact l2TLBRemove_quiet h
  | l2sp3 => exact l2TLBRemove_quiet h
  | l2sp2 => exact l2TLBRemove_quiet h
  | l2sp1 => exact l2TLBRemove_quiet h

theorem makeRoom_quiet {sign : ℕ} (h : s.makeRoom cfg vpn page sign = .ok t) : s.Quiet t := by
  unfold makeRoom at h
  split_ifs at h
  · exact l2TLBEvictLRU_quiet h
  · exact l2TLBEvictLRU_quiet h
  · cases h
    exact .refl _

theorem removeLines_quiet {p : TlbEntry → Bool} (h : s.removeLines p k = .ok t) : s.Quiet t := by
  refine foldlM_inv (fun u : L2Tlb => s.Quiet u) ?_ (.refl _) h
  intro u i v hu hv
  split_ifs at hv
  · exact hu.trans (l2TLBRemove_quiet hv)
  · cases hv
    exact hu

theorem flushAll_quiet (h : s.flushAll = .ok t) : s.Quiet t :=
  foldlM_inv (fun u : L2Tlb => s.Quiet u)
    (fun _ _ _ hu hv => hu.trans (removeLines_quiet hv)) (.refl _) h

theorem removeFound_quiet {found : Bool}
    (h : s.removeFound vpn asid page signUsed mode found = .ok t) : s.Quiet t := by
  unfold removeFound at h
  split_ifs at h
  · rcases hlookup : s.lookupL2TLB (page.lineOf vpn) asid true page signUsed mode with
      m | ⟨_ | i, u⟩
    · rw [hlookup] at h
      cases h
    · rw [hlookup] at h
      cases h
    · rw [hlookup] at h
      exact (lookupL2TLB_spec hlookup).2.quiet.trans (l2TLBRemove_quiet h)
  · cases h
    exact .refl _

theorem lookupAll_marked {found : List (L2Page × Bool)}
    (h : s.lookupAll vpn asid signUsed mode = .ok (found, t)) : s.Marked t := by
  refine foldlM_inv (fun r : List (L2Page × Bool) × L2Tlb => s.Marked r.2) ?_ (.refl _) h
  intro r page r' hr hr'
  rcases hlookup : r.2.lookupL2TLB (page.lineOf vpn) asid true page signUsed mode with m | ⟨f, u⟩
  · rw [hlookup] at hr'
    cases hr'
  · rw [hlookup] at hr'
    cases hr'
    exact hr.trans (lookupL2TLB_spec hlookup).2

theorem removeAllFound_quiet {direct gstage vsstage : List (L2Page × Bool)}
    (h : s.removeAllFound vpn asid direct gstage vsstage = .ok t) : s.Quiet t := by
  refine foldlM_inv (fun u : L2Tlb => s.Quiet u) ?_ (.refl _) h
  intro u page v hu hv
  cases hdirect : u.removeFound vpn asid page false .direct (direct.contains (page, true)) with
  | error m =>
    rw [hdirect] at hv
    cases hv
  | ok u₁ =>
    simp only [hdirect] at hv
    cases hgstage : u₁.removeFound vpn asid page true .gstage (gstage.contains (page, true)) with
    | error m =>
      rw [hgstage] at hv
      cases hv
    | ok u₂ =>
      simp only [hgstage] at hv
      exact hu.trans ((removeFound_quiet hdirect).trans
        ((removeFound_quiet hgstage).trans (removeFound_quiet hv)))

theorem demapPageL2_quiet (h : s.demapPageL2 vpn asid = .ok t) : s.Quiet t := by
  unfold demapPageL2 at h
  rcases hdirect : s.lookupAll vpn asid false .direct with m | ⟨direct, s₁⟩
  · rw [hdirect] at h
    cases h
  simp only [hdirect] at h
  rcases hgstage : s₁.lookupAll vpn asid true .gstage with m | ⟨gstage, s₂⟩
  · rw [hgstage] at h
    cases h
  simp only [hgstage] at h
  rcases hvsstage : s₂.lookupAll vpn asid true .vsstage with m | ⟨vsstage, s₃⟩
  · rw [hvsstage] at h
    cases h
  simp only [hvsstage] at h
  have hmarked : s.Marked s₃ :=
    ((lookupAll_marked hdirect).trans (lookupAll_marked hgstage)).trans (lookupAll_marked hvsstage)
  split_ifs at h
  · exact hmarked.quiet.trans (removeAllFound_quiet h)
  · cases hflush : s₃.flushAll with
    | error m =>
      rw [hflush] at h
      cases h
    | ok s₄ =>
      simp only [hflush] at h
      refine (hmarked.quiet.trans (flushAll_quiet hflush)).trans ?_
      exact foldlM_inv (fun u : L2Tlb => s₄.Quiet u)
        (fun _ _ _ hu hv => hu.trans (removeLines_quiet hv)) (.refl _) h
end L2Tlb

/-! ### Both levels -/

namespace Tlbs
variable {s t u : Tlbs}

def array (s : Tlbs) : Option L2Array → TlbArray
  | none => s.l1.arr
  | some k => s.l2.arrays k

def Quiet (s t : Tlbs) : Prop :=
  ∀ k, (s.array k).Quiet (t.array k)

theorem Quiet.refl (s : Tlbs) : s.Quiet s := fun _ => .refl _

theorem Quiet.trans (hst : s.Quiet t) (htu : t.Quiet u) : s.Quiet u :=
  fun k => (hst k).trans (htu k)

theorem Quiet.mk (hl1 : s.l1.arr.Quiet t.l1.arr) (hl2 : s.l2.Quiet t.l2) : s.Quiet t := by
  intro k
  cases k with
  | none => exact hl1
  | some k => exact hl2 k

structure Marked (s t : Tlbs) : Prop where
  l1 : s.l1.arr.Marked t.l1.arr
  l2 : s.l2.Marked t.l2

theorem Marked.quiet (h : s.Marked t) : s.Quiet t := .mk h.l1.quiet h.l2.quiet

variable {vpn : Addr} {asid : BitVec 16}

theorem demapMode_quiet {mode : TlbTranslateMode} (h : s.demapMode vpn asid mode = .ok t) :
    s.Quiet t := by
  unfold demapMode at h
  cases hl1 : s.l1.removeFound vpn asid mode with
  | error m =>
    rw [hl1] at h
    cases h
  | ok l1 =>
    simp only [hl1] at h
    cases hdemap : s.l2.demapPageL2 vpn asid with
    | error m =>
      rw [hdemap] at h
      cases h
    | ok l2 =>
      rw [hdemap] at h
      cases h
      exact .mk (removeFound_quiet hl1) (L2Tlb.demapPageL2_quiet hdemap)

theorem flushAll_quiet (h : s.flushAll = .ok t) : s.Quiet t := by
  unfold flushAll at h
  cases hl1 : s.l1.flushAll with
  | error m =>
    rw [hl1] at h
    cases h
  | ok l1 =>
    simp only [hl1] at h
    cases hl2 : s.l2.flushAll with
    | error m =>
      rw [hl2] at h
      cases h
    | ok l2 =>
      rw [hl2] at h
      cases h
      exact .mk (L1Tlb.flushAll_quiet hl1) (L2Tlb.flushAll_quiet hl2)

theorem demapPage_quiet (h : s.demapPage vpn asid = .ok t) : s.Quiet t := by
  unfold demapPage at h
  split_ifs at h
  · exact flushAll_quiet h
  · exact foldlM_inv (fun u : Tlbs => s.Quiet u)
      (fun _ _ _ hu hv => hu.trans (demapMode_quiet hv)) (.refl _) h
  · split at h
    · cases h
    · rename_i l1 hl1
      cases hdemap : s.l2.demapPageL2 vpn asid with
      | error m =>
        rw [hdemap] at h
        cases h
      | ok l2 =>
        rw [hdemap] at h
        cases h
        exact .mk (removeIf_quiet hl1) (L2Tlb.demapPageL2_quiet hdemap)
end Tlbs

/-! ### Insertions -/

namespace TlbOp
def entry : TlbOp → TlbEntry
  | .insert e => e
  | .l2Insert _ e _ => e

def refreshed (s : Tlbs) : TlbOp → Option TlbEntry
  | .insert e => (s.l1.arr.find (buildKey e.vaddr e.asid .direct)).map fun i =>
      (s.l1.arr.slot i).entry
  | .l2Insert page e _ => (s.l2.hit page e.vaddr e.asid .direct).map fun i => s.l2.entryOf page i

inductive Changes (op : TlbOp) (s : Tlbs) (x y : TlbSlot) : Prop
  | quiet : x.Quiet y → Changes op s x y
  | placed (seq : ℕ) : y = ⟨{ op.entry with lruSeq := seq },
      some (.ofPage (buildKey op.entry.vaddr op.entry.asid .direct) op.entry.logBytes)⟩ →
      Changes op s x y
  | refreshed : op.refreshed s = some x.entry → y.trieHandle = x.trieHandle →
      ({ x.entry with pte := op.entry.pte } : TlbEntry).SameMapping y.entry → Changes op s x y

def ChangesArray (op : TlbOp) (s : Tlbs) (a b : TlbArray) : Prop :=
  b.slots.length = a.slots.length ∧ ∀ i, op.Changes s (a.slot i) (b.slot i)

variable {op : TlbOp} {s t : Tlbs} {a b c : TlbArray}

theorem ChangesArray.of_quiet (h : a.Quiet b) : op.ChangesArray s a b :=
  ⟨h.length, fun i => .quiet (h.slot i)⟩

variable {e : TlbEntry}

theorem ChangesArray.of_refresh {i : ℕ} (h : a.Marked b)
    (hold : op.refreshed s = some (a.slot i).entry) (he : op.entry = e) :
    op.ChangesArray s a (b.update i fun old => { old with pte := e.pte }) := by
  subst he
  refine ⟨length_set.trans h.length, fun j => ?_⟩
  rw [TlbArray.update, TlbArray.slot_set_eq _ _ b.freeList]
  split_ifs with hj
  · rw [hj.1]
    refine .refreshed hold (h.handle i) ?_
    obtain ⟨seq, used, sign, heq⟩ := h.entry i
    exact ⟨seq, used, sign, by rw [heq]⟩
  · exact .quiet ⟨h.entry j, .inl (h.handle j)⟩

theorem ChangesArray.of_place {seq : ℕ} (h : a.Quiet b) (he : op.entry = e)
    (hplace : b.place { e with lruSeq := seq, vaddr := e.vaddr }
      (buildKey e.vaddr e.asid .direct) = .ok c) : op.ChangesArray s a c := by
  subst he
  obtain ⟨hlen, i, hslots⟩ := TlbArray.place_slots hplace
  refine ⟨hlen.trans h.length, fun j => ?_⟩
  rcases hslots j with hsame | ⟨-, hnew⟩
  · rw [hsame]
    exact .quiet (h.slot j)
  · exact .placed seq hnew
end TlbOp

variable {s t : Tlbs} {e : TlbEntry} {cfg : MmuConfig} {w : Walk}
  {pmpCheck : ℕ → Addr → Option MMUFault} {complete : Bool} {log : List WalkAction}
  {requestors : List Requestor} {ws : WalkerState} {next : Option WalkerState}

theorem L1Tlb.insert_changes {l1 : L1Tlb} (h : s.l1.insert e.vaddr e = .ok l1) :
    (TlbOp.insert e).ChangesArray s s.l1.arr l1.arr := by
  unfold insert at h
  cases hfind : s.l1.arr.find (buildKey e.vaddr e.asid .direct) with
  | some i =>
    simp only [hfind] at h
    cases h
    refine .of_refresh (.refl _) ?_ rfl
    rw [refreshed, hfind, Option.map_some]
  | none =>
    simp only [hfind] at h
    split at h
    · cases h
    · rename_i u hroom
      have hquiet : s.l1.arr.Quiet u.arr := by
        split_ifs at hroom
        · exact evictLRU_quiet hroom
        · cases hroom
          exact .refl _
      split at h
      · cases h
      · rename_i a hplace
        cases h
        exact .of_place hquiet rfl hplace

theorem L2Tlb.insert_changes {l2 : L2Tlb} {page : L2Page} {sign : ℕ}
    (h : s.l2.l2TLBInsertIn cfg e.vaddr e page sign = .ok l2) (k : L2Array) :
    (l2Insert page e sign).ChangesArray s (s.l2.arrays k) (l2.arrays k) := by
  unfold L2Tlb.l2TLBInsertIn at h
  rcases hlookup : s.l2.lookupL2TLB e.vaddr e.asid true page false .direct with m | ⟨_ | i, u⟩
  · rw [hlookup] at h
    cases h
  · obtain ⟨-, hmarked⟩ := lookupL2TLB_spec hlookup
    simp only [hlookup] at h
    cases hroom : u.makeRoom cfg e.vaddr page sign with
    | error m =>
      rw [hroom] at h
      cases h
    | ok v =>
      simp only [hroom] at h
      have hquiet : s.l2.Quiet v := hmarked.quiet.trans (makeRoom_quiet hroom)
      split at h
      · cases h
      · rename_i a hplace
        cases h
        by_cases hk : k = page.array
        · subst hk
          rw [setArray_self]
          exact .of_place (hquiet _) rfl hplace
        · rw [setArray_of_ne _ _ hk]
          exact .of_quiet (hquiet k)
  · obtain ⟨hhit, hmarked⟩ := lookupL2TLB_spec hlookup
    simp only [hlookup] at h
    split_ifs at h
    cases h
    by_cases hk : k = page.array
    · subst hk
      rw [setArray_self]
      refine .of_refresh (hmarked _) ?_ rfl
      rw [refreshed, ← hhit]
      rfl
    · rw [setArray_of_ne _ _ hk]
      exact .of_quiet (hmarked k).quiet

theorem TlbOp.exec_changes {op : TlbOp} (h : op.exec cfg s = .ok t) (k : Option L2Array) :
    op.ChangesArray s (s.array k) (t.array k) := by
  cases op with
  | insert e =>
    simp only [exec] at h
    cases hinsert : s.l1.insert e.vaddr e with
    | error m =>
      rw [hinsert] at h
      cases h
    | ok l1 =>
      rw [hinsert] at h
      cases h
      cases k with
      | none => exact insert_changes hinsert
      | some k => exact .of_quiet (.refl _)
  | l2Insert page e sign =>
    simp only [exec] at h
    cases hinsert : s.l2.l2TLBInsertIn cfg e.vaddr e page sign with
    | error m =>
      rw [hinsert] at h
      cases h
    | ok l2 =>
      rw [hinsert] at h
      cases h
      cases k with
      | none => exact .of_quiet (.refl _)
      | some k => exact L2Tlb.insert_changes hinsert k

/-! ### Steps of a walk -/

namespace Walk
inductive StepResult (cfg : MmuConfig) (line : PteLine) (w : Walk) :
    Option MMUFault → List TlbOp → Walk → Prop
  /-- a fault ends the walk -/
  | fault (f : MMUFault) : w.nextline = false → StepResult cfg line w (some f) [] w.endWalk
  /-- the next line may not be read -/
  | denied : w.nextline = true → StepResult cfg line w none [] w.endWalk
  /-- the next line is inserted -/
  | nextline (base : Addr) (e : ℕ → TlbEntry) : w.nextline = true → w.nextlineLevel = 0 →
      (∀ i, e i = { w.nextlineEntry with
        logBytes := levelShift 0
        level := 0
        vaddr := lineVaddr base 0 i
        paddr := (line i).ppn
        pte := line i
        index := cfg.l0Index (lineVaddr base 0 i) }) →
      StepResult cfg line w none
        ((List.range l2tlbLineSize).map fun i => .l2Insert .l2l0 (e i) i)
        { w with nextlineEntry := e (l2tlbLineSize - 1) }.endWalk
  /-- a pointer leads to the next level -/
  | pointer (level : ℕ) (pte : PTE) (shift : ℕ) (next : Addr) : w.nextline = false →
      w.level = level + 1 →
      StepResult cfg line w none
        (w.lineOps cfg line (level + 1) (pointerPage w.req.satp.mode (level + 1)))
        { w with
          level := level
          inl2Entry := w.lineEntry cfg line (level + 1) (l2tlbLineSize - 1)
          nextlineShift := shift
          tlbppn := pte.ppn
          nextlineLevel := level
          read := some next }
  /-- a leaf is found without changing the TLBs -/
  | functional (pte : PTE) : w.nextline = false → w.functional = true →
      StepResult cfg line w none [] { w with entry := w.leafEntry pte }.endWalk
  /-- a leaf ends the walk -/
  | leaf (pte : PTE) : w.nextline = false → w.functional = false →
      StepResult cfg line w none (({ w with entry := w.leafEntry pte } : Walk).leafOps cfg line)
        { w with
          entry := w.leafEntry pte
          finishDefaultTranslate := true
          inl2Entry := ({ w with entry := w.leafEntry pte } : Walk).lineEntry cfg line w.level
            (l2tlbLineSize - 1) }.endWalk
  /-- a leaf after which the next line is prefetched -/
  | leafNextline (pte : PTE) (vaddr next : Addr) : w.nextline = false → w.functional = false →
      w.entry.fromForwardPreReq = false → w.entry.fromBackPreReq = false →
      StepResult cfg line w none (({ w with entry := w.leafEntry pte } : Walk).leafOps cfg line)
        { w with
          entry := w.leafEntry pte
          finishDefaultTranslate := true
          inl2Entry := ({ w with entry := w.leafEntry pte } : Walk).lineEntry cfg line w.level
            (l2tlbLineSize - 1)
          nextline := true
          nextlineEntry := { w.nextlineEntry with vaddr := vaddr }
          read := some next }

variable {cfg : MmuConfig} {w w' : Walk} {line : PteLine} {pmp fault : Option MMUFault}
  {ops : List TlbOp}

theorem stepNextline_result (hn : w.nextline = true)
    (h : w.stepNextline cfg line = .ok (fault, ops, w')) : w.StepResult cfg line fault ops w' := by
  unfold stepNextline at h
  split_ifs at h with hlevel
  cases h
  refine .nextline (w.nextlineEntry.vaddr &&& intAlignMask (levelShift w.nextlineLevel)) _ hn
    hlevel fun i => ?_
  simp only [hlevel]

variable {pte : PTE}

theorem stepPointer_result (hn : w.nextline = false)
    (h : w.stepPointer cfg line pte = .ok (fault, ops, w')) :
    w.StepResult cfg line fault ops w' := by
  unfold stepPointer at h
  split at h
  · cases h
    exact .fault _ hn
  · rename_i level hlevel
    simp only at h
    split_ifs at h
    cases h
    exact .pointer level pte _ _ hn hlevel

theorem stepLeaf_result (hn : w.nextline = false)
    (h : w.stepLeaf cfg line pte = .ok (fault, ops, w')) : w.StepResult cfg line fault ops w' := by
  unfold stepLeaf at h
  split at h
  · cases h
    exact .fault _ hn
  · simp only at h
    split_ifs at h with hfunctional hprefetch
    · cases h
      exact .functional pte hn hfunctional
    · cases h
      simp only [prefetches, and_eq_true, not_eq_true'] at hprefetch
      exact .leafNextline pte _ _ hn (eq_false_iff.mpr hfunctional) hprefetch.1.2 hprefetch.2
    · cases h
      exact .leaf pte hn (eq_false_iff.mpr hfunctional)

theorem stepWalk_result (h : w.stepWalk cfg line pmp = .ok (fault, ops, w')) :
    w.StepResult cfg line fault ops w' := by
  unfold stepWalk at h
  split at h
  · rename_i hn
    cases h
    exact .fault _ hn
  · rename_i hn
    cases h
    exact .denied hn
  · rename_i hn
    exact stepNextline_result hn h
  · rename_i hn
    simp only at h
    split_ifs at h
    · cases h
      exact .fault _ hn
    · exact stepLeaf_result hn h
    · exact stepPointer_result hn h
end Walk

/-! ### Events -/

namespace L2Tlb
variable {s t : L2Tlb} {req : XlateReq} {inL1 : Bool}

theorem lookupPage_marked {r r' : L2Found × L2Tlb} {page : L2Page}
    (h : lookupPage req inL1 r page = .ok r') : r.2.Marked r'.2 := by
  unfold lookupPage at h
  split at h
  · cases h
  rename_i found s₁ hmain
  have h₁ : r.2.Marked s₁ := by
    split_ifs at hmain
    · cases hmain
      exact .refl _
    · exact (lookupL2TLB_spec hmain).2
  split at h
  · cases h
  rename_i forwardPre s₂ hforward
  split at h
  · cases h
  rename_i backPre s₃ hback
  cases h
  exact (h₁.trans (lookupL2TLB_spec hforward).2).trans (lookupL2TLB_spec hback).2

theorem lookupPages_marked {found : L2Found} (h : s.lookupPages req inL1 = .ok (found, t)) :
    s.Marked t :=
  foldlM_inv (fun r : L2Found × L2Tlb => s.Marked r.2)
    (fun _ _ _ hr hr' => hr.trans (lookupPage_marked hr')) (.refl _) h
end L2Tlb

theorem WalkerState.finishAll_cons {r : Requestor} {rest : List Requestor} {s t : L1Tlb}
    (h : finishAll w pmpCheck (r :: rest) s = .ok (complete, log, t)) :
    (r.fromPreReq = true ∧ finishAll w pmpCheck rest s = .ok (complete, log, t)) ∨
    (r.fromPreReq = false ∧ ∃ u, s.arr.Marked u.arr ∧
      ((∃ log', finishAll w pmpCheck rest u = .ok (complete, log', t) ∧
          log = .finish r.id none :: log') ∨ (t = u ∧ complete = true ∧ log = [.deny r.id]) ∨
        (t = u ∧ complete = false ∧ ∃ f, log = [.deny r.id, .finish r.id (some f)]))) := by
  rw [finishAll] at h
  by_cases hpre : r.fromPreReq = true
  · rw [if_pos hpre] at h
    exact .inl ⟨hpre, h⟩
  rw [if_neg hpre] at h
  refine .inr ⟨eq_false_iff.mpr hpre, ?_⟩
  split at h
  · cases h
  rename_i paddr u htranslate
  refine ⟨u, translateWithTLB_marked htranslate, ?_⟩
  split at h
  · rename_i f _
    split_ifs at h
    · cases h
      exact .inr (.inl ⟨rfl, rfl, rfl⟩)
    · cases h
      exact .inr (.inr ⟨rfl, rfl, f, rfl⟩)
  · split at h
    · cases h
    rename_i complete' log' v hrest
    cases h
    exact .inl ⟨log', hrest, rfl⟩

theorem WalkerState.finishAll_marked {s t : L1Tlb}
    (h : finishAll w pmpCheck requestors s = .ok (complete, log, t)) : s.arr.Marked t.arr := by
  induction requestors generalizing s complete log with
  | nil =>
    obtain ⟨-, -, rfl⟩ := Prod.mk.inj (Except.ok.inj h) |>.imp id Prod.mk.inj
    exact .refl _
  | cons r rest ih =>
    rcases finishAll_cons h with ⟨-, h⟩ | ⟨-, u, hu, ⟨log', h, -⟩ | ⟨rfl, -⟩ | ⟨rfl, -⟩⟩
    · exact ih h
    · exact hu.trans (ih h)
    · exact hu
    · exact hu

theorem WalkerState.finishNextline_marked {s t : L1Tlb}
    (h : finishNextline w pmpCheck requestors s = .ok (log, t)) : s.arr.Marked t.arr := by
  induction requestors generalizing s log with
  | nil =>
    cases h
    exact .refl _
  | cons r rest ih =>
    unfold finishNextline at h
    split at h
    · cases h
    rename_i paddr u htranslate
    have hu := translateWithTLB_marked htranslate
    split at h
    · cases h
    split at h
    · cases h
    rename_i log' v hrest
    cases h
    exact hu.trans (ih hrest)

theorem WalkerState.afterStep_spec {fault : Option MMUFault}
    (h : ws.afterStep fault pmpCheck s = .ok (next, log, t)) :
    (next = none ∨ next = some ws) ∧ s.Marked t := by
  unfold afterStep at h
  simp only at h
  split_ifs at h
  · cases h
    exact ⟨.inl rfl, .refl _, .refl _⟩
  · split at h
    · cases h
      exact ⟨.inr rfl, .refl _, .refl _⟩
    · split at h
      · cases h
      rename_i log' l1 hfinish
      cases h
      exact ⟨.inr rfl, finishNextline_marked hfinish, .refl _⟩
  · split at h
    · cases h
      exact ⟨.inl rfl, .refl _, .refl _⟩
    · split at h
      · cases h
      rename_i complete log' l1 hfinish
      cases h
      refine ⟨?_, finishAll_marked hfinish, .refl _⟩
      cases complete with
      | true => exact .inl rfl
      | false => exact .inr rfl
  · cases h
    exact ⟨.inr rfl, .refl _, .refl _⟩

def WalkerState.ops (cfg : MmuConfig) (line : PteLine) (pmp : Option MMUFault)
    (ws : WalkerState) : List TlbOp :=
  if ws.inflight && !ws.requestors.isEmpty then
    match ws.walk.stepWalk cfg line pmp with
    | .error _ => []
    | .ok (_, ops, _) => ops
  else []

theorem WalkerState.recvPacket_tlbs {line : PteLine} {pmp : Option MMUFault} {sent : Bool}
    (h : ws.recvPacket cfg line pmp sent pmpCheck s = .ok (next, log, t)) :
    ∃ u, s.execAll cfg (ws.ops cfg line pmp) = .ok u ∧ u.Quiet t := by
  unfold recvPacket at h
  unfold ops
  split_ifs at h with hinflight hempty
  · obtain ⟨-, -, rfl⟩ := Prod.mk.inj (Except.ok.inj h) |>.imp id Prod.mk.inj
    rw [if_neg (by simp [hempty])]
    exact ⟨s, rfl, .refl _⟩
  · rw [if_pos (by simp [hinflight, hempty])]
    rcases hstep : ws.walk.stepWalk cfg line pmp with m | ⟨fault, ops, walk⟩
    · rw [hstep] at h
      cases h
    simp only [hstep] at h
    cases hexec : s.execAll cfg ops with
    | error m =>
      rw [hexec] at h
      cases h
    | ok u =>
      simp only [hexec] at h
      exact ⟨u, rfl, (afterStep_spec h).2.quiet⟩

namespace Mmu
variable {cfg : MmuConfig} {m m' : Mmu} {k : L1Id}

def Quiet (m m' : Mmu) : Prop :=
  ∀ k, (m.tlbs k).Quiet (m'.tlbs k)

theorem Quiet.trans {m'' : Mmu} (h : m.Quiet m') (h' : m'.Quiet m'') : m.Quiet m'' :=
  fun k => (h k).trans (h' k)

theorem tlbs_setTlbs (m : Mmu) (k : L1Id) (s : Tlbs) : (m.setTlbs k s).tlbs k = s := by
  simp [tlbs, setTlbs]

theorem tlbs_setTlbs_of_ne (m : Mmu) {j : L1Id} (hj : j ≠ k) (s : Tlbs) :
    (m.setTlbs k s).tlbs j = ⟨m.l1 j, s.l2⟩ := by
  simp [tlbs, setTlbs, hj]

theorem setTlbs_self (m : Mmu) (k : L1Id) : m.setTlbs k (m.tlbs k) = m := by
  simp [tlbs, setTlbs]

variable {s : Tlbs} {vpn : Addr} {asid : BitVec 16}

theorem forall_setTlbs (P : TlbSlot → Prop) (hm : ∀ j a i, P (((m.tlbs j).array a).slot i))
    (hs : ∀ a i, P ((s.array a).slot i)) :
    ∀ j a i, P ((((m.setTlbs k s).tlbs j).array a).slot i) := by
  intro j
  by_cases hj : j = k
  · subst hj
    rw [tlbs_setTlbs]
    exact hs
  · rw [tlbs_setTlbs_of_ne m hj]
    intro a i
    cases a with
    | none => exact hm j none i
    | some a => exact hs (some a) i

theorem forall_init (P : TlbSlot → Prop) (h : P .unused) (cfg : MmuConfig) :
    ∀ j a i, P ((((init cfg).tlbs j).array a).slot i) := by
  have hunused (n i : ℕ) : (TlbArray.init n).slot i = .unused := by
    by_cases hi : i < n <;> simp [TlbArray.slot, TlbArray.init, hi]
  intro j a i
  cases a with
  | none =>
    show P ((TlbArray.init cfg.size).slot i)
    rw [hunused]
    exact h
  | some a =>
    show P ((TlbArray.init (cfg.lines a * l2tlbLineSize)).slot i)
    rw [hunused]
    exact h

theorem quiet_setTlbs {t : Tlbs} (h : s.Quiet t) : (m.setTlbs k s).Quiet (m.setTlbs k t) := by
  intro j
  by_cases hj : j = k
  · subst hj
    rw [tlbs_setTlbs, tlbs_setTlbs]
    exact h
  · rw [tlbs_setTlbs_of_ne m hj, tlbs_setTlbs_of_ne m hj]
    exact .mk (.refl _) fun k => h (some k)

theorem quiet_of_tlbs (h : (m.tlbs k).Quiet s) : m.Quiet (m.setTlbs k s) := by
  have hset := quiet_setTlbs (m := m) (k := k) h
  rwa [setTlbs_self] at hset

def SameTlbs (m m' : Mmu) : Prop :=
  m'.l1 = m.l1 ∧ m'.l2 = m.l2

theorem SameTlbs.quiet (h : m.SameTlbs m') : m.Quiet m' := by
  intro k
  rw [tlbs, tlbs, h.1, h.2]
  exact .refl _

variable {id : ℕ} {req : XlateReq} {c : XlateChoices} {result : Option (Except MMUFault Addr)}
  {found : L2Found}

theorem askWalker_sameTlbs {r : WalkRequest} (h : m.askWalker k r c = .ok (result, m')) :
    m.SameTlbs m' := by
  unfold askWalker at h
  split at h
  · cases h
  cases h
  exact ⟨rfl, rfl⟩

theorem afterHit_sameTlbs {result' : Option (Except MMUFault Addr)}
    (h : m.afterHit k id req found c result' = .ok (result, m')) : m.SameTlbs m' := by
  unfold afterHit at h
  split at h
  · cases h
  cases h
  exact ⟨rfl, rfl⟩

theorem hitL1_sameTlbs {e : TlbEntry} (h : m.hitL1 k id req found c e = .ok (result, m')) :
    m.SameTlbs m' := by
  unfold hitL1 at h
  split_ifs at h
  · cases h
    exact ⟨rfl, rfl⟩
  · split at h
    · cases h
      exact ⟨rfl, rfl⟩
    · exact afterHit_sameTlbs h

theorem missL1_sameTlbs (h : m.missL1 k id req found c = .ok (result, m')) : m.SameTlbs m' := by
  unfold missL1 at h
  split at h
  · exact askWalker_sameTlbs h
  simp only at h
  split at h
  · exact askWalker_sameTlbs h
  · cases h
    exact ⟨rfl, rfl⟩
  · split_ifs at h
    · obtain ⟨hl1, hl2⟩ := afterHit_sameTlbs h
      exact ⟨hl1, hl2⟩
    · cases h
      exact ⟨rfl, rfl⟩

structure Marked (m m' : Mmu) : Prop where
  l1 : ∀ k, (m.l1 k).arr.Marked (m'.l1 k).arr
  l2 : m.l2.Marked m'.l2

theorem Marked.quiet (h : m.Marked m') : m.Quiet m' := fun k => .mk (h.l1 k).quiet h.l2.quiet

theorem doTranslate_marked (h : m.doTranslate k id req c = .ok (result, m')) : m.Marked m' := by
  have hmarked := lookup_marked req.vaddr req.satp.asid false true .direct (m.l1 k)
  unfold doTranslate at h
  split_ifs at h
  · cases h
    exact ⟨fun _ => .refl _, .refl _⟩
  rcases hlookup : (m.l1 k).lookup req.vaddr req.satp.asid false true .direct with ⟨hit, l1⟩
  rw [hlookup] at hmarked
  simp only [hlookup] at h
  rcases hpages : m.l2.lookupPages req hit.isSome with e | ⟨found, l2⟩
  · rw [hpages] at h
    cases h
  simp only [hpages] at h
  have hsame : (m.setTlbs k ⟨l1, l2⟩).SameTlbs m' := by
    cases hit with
    | none => exact missL1_sameTlbs h
    | some i => exact hitL1_sameTlbs h
  refine ⟨fun j => ?_, ?_⟩
  · rw [hsame.1]
    show (m.l1 j).arr.Marked (update m.l1 k l1 j).arr
    by_cases hj : j = k
    · subst hj
      rw [update_self]
      exact hmarked
    · rw [update_of_ne hj]
      exact .refl _
  · rw [hsame.2]
    exact L2Tlb.lookupPages_marked hpages

theorem demapTlb_quiet (h : m.demapTlb k vpn asid = .ok m') : m.Quiet m' := by
  unfold demapTlb at h
  split at h
  · cases h
  rename_i s hdemap
  cases h
  exact quiet_of_tlbs (Tlbs.demapPage_quiet hdemap)

theorem demapPage_quiet (h : m.demapPage vpn asid = .ok m') : m.Quiet m' := by
  unfold demapPage at h
  split at h
  · cases h
  rename_i m₁ hitb
  exact (demapTlb_quiet hitb).trans (demapTlb_quiet h)

theorem flushL1_quiet (h : m.flushL1 k = .ok m') : m.Quiet m' := by
  unfold flushL1 at h
  split at h
  · cases h
  rename_i l1 hflush
  cases h
  exact quiet_of_tlbs (.mk (flushAll_quiet hflush) (.refl _))

theorem flushL2_quiet (h : m.flushL2 = .ok m') : m.Quiet m' := by
  unfold flushL2 at h
  split at h
  · cases h
  rename_i l2 hflush
  cases h
  exact fun _ => .mk (.refl _) (L2Tlb.flushAll_quiet hflush)
end Mmu

def MmuEvent.tlb : MmuEvent → L1Id
  | .translate k _ _ _ | .response k _ _ _ _ _ | .retry k _ | .l2Hit k _ | .flushL1 k => k
  | .demapPage _ _ | .flushL2 => .itb

namespace Mmu
variable {cfg : MmuConfig} {m m' : Mmu}

def ops (cfg : MmuConfig) (m : Mmu) : MmuEvent → List TlbOp
  | .response k i line pmp _ _ =>
    match (m.walkers k).currStates[i]? with
    | none => []
    | some ws => ws.ops cfg line pmp
  | .l2Hit k pmpCheck => m.hitOps cfg k pmpCheck
  | _ => []

theorem forall_ops {P : TlbEntry → Prop} (hslots : ∀ k a i, P (((m.tlbs k).array a).slot i).entry)
    (hwalks : ∀ k, ∀ ws ∈ (m.walkers k).currStates, ∀ line pmp fault ops walk,
      ws.walk.stepWalk cfg line pmp = .ok (fault, ops, walk) → ∀ op ∈ ops, P op.entry)
    (event : MmuEvent) : ∀ op ∈ m.ops cfg event, P op.entry := by
  cases event with
  | response k i line pmp sent pmpCheck =>
    intro op hop
    simp only [ops] at hop
    split at hop
    · cases hop
    rename_i ws hws
    unfold WalkerState.ops at hop
    split_ifs at hop
    · split at hop
      · cases hop
      rename_i fault ops walk hstep
      exact hwalks k ws (mem_of_getElem? hws) _ _ _ _ _ hstep op hop
    · cases hop
  | l2Hit k pmpCheck =>
    intro op hop
    simp only [ops, hitOps] at hop
    split_ifs at hop
    · obtain ⟨hit, -, rfl⟩ := mem_map.mp hop
      exact hslots k (some hit.array) hit.slot
    · cases hop
  | translate k id req c => exact forall_mem_nil _
  | retry k sent => exact forall_mem_nil _
  | demapPage vpn asid => exact forall_mem_nil _
  | flushL1 k => exact forall_mem_nil _
  | flushL2 => exact forall_mem_nil _

theorem step_tlbs {event : MmuEvent} (h : m.step cfg event = .ok m') :
    ∃ s, (m.tlbs event.tlb).execAll cfg (m.ops cfg event) = .ok s ∧
      (m.setTlbs event.tlb s).Quiet m' := by
  -- an event that inserts nothing
  have hquiet (hops : m.ops cfg event = []) (h : m.Quiet m') :
      ∃ s, (m.tlbs event.tlb).execAll cfg (m.ops cfg event) = .ok s ∧
        (m.setTlbs event.tlb s).Quiet m' := by
    refine ⟨m.tlbs event.tlb, by rw [hops]; rfl, ?_⟩
    rwa [setTlbs_self]
  cases event with
  | translate k id req c =>
    simp only [step] at h
    split at h
    · cases h
    rename_i result m₁ htranslate
    cases h
    exact hquiet rfl (doTranslate_marked htranslate).quiet
  | response k i line pmp sent pmpCheck =>
    simp only [step, recvTimingResp] at h
    simp only [ops]
    cases hws : (m.walkers k).currStates[i]? with
    | none =>
      rw [hws] at h
      cases h
    | some ws =>
      simp only [hws] at h
      split at h
      · cases h
      rename_i next log s hrecv
      cases h
      obtain ⟨u, hexec, hu⟩ := WalkerState.recvPacket_tlbs hrecv
      exact ⟨u, hexec, quiet_setTlbs hu⟩
  | retry k sent =>
    cases h
    exact hquiet rfl (SameTlbs.quiet ⟨rfl, rfl⟩)
  | l2Hit k pmpCheck =>
    simp only [step, dol2TLBHit] at h
    split at h
    · cases h
    rename_i s hexec
    cases h
    exact ⟨s, hexec, SameTlbs.quiet ⟨rfl, rfl⟩⟩
  | demapPage vpn asid => exact hquiet rfl (demapPage_quiet h)
  | flushL1 k => exact hquiet rfl (flushL1_quiet h)
  | flushL2 => exact hquiet rfl (flushL2_quiet h)
end Mmu
end Gem5
