import Gem5.Mmu.Agree
import Gem5.Mmu.Insert

/-!
# Lines of the second level TLB stay whole
-/

namespace Gem5
open List Function TlbArray TlbOp TlbSlot L1Tlb L2Tlb

/-! ### The first level -/

structure TlbArray.Sound (a : TlbArray) : Prop where
  pos : 0 < a.slots.length
  free : ∀ i < a.slots.length, (a.slot i).linked = false → i ∈ a.freeList

namespace TlbArray
variable {a b : TlbArray} {i : ℕ}

theorem init_sound {size : ℕ} (h : 0 < size) : (init size).Sound := by
  have hlen : (init size).slots.length = size := length_replicate
  refine ⟨by rw [hlen]; exact h, fun i hi _ => ?_⟩
  rw [hlen] at hi
  exact mem_range.mpr hi

theorem Sound.of_handles (ha : a.Sound) (hlen : b.slots.length = a.slots.length)
    (hfree : b.freeList = a.freeList)
    (hhandle : ∀ i, (b.slot i).trieHandle = (a.slot i).trieHandle) : b.Sound := by
  refine ⟨by rw [hlen]; exact ha.pos, fun i hi hlinked => ?_⟩
  rw [hfree]
  rw [hlen] at hi
  rw [linked, hhandle] at hlinked
  exact ha.free i hi hlinked

theorem Sound.of_marked (ha : a.Sound) (h : a.Marked b) : b.Sound :=
  ha.of_handles h.length h.freeList h.handle

structure Dropped (a : TlbArray) (gone : ℕ → Prop) (b : TlbArray) : Prop where
  unlinked : ∀ j, gone j → (b.slot j).trieHandle = none
  kept : ∀ j, ¬ gone j → (b.slot j).trieHandle = (a.slot j).trieHandle

theorem unlink_dropped (h : a.unlink i = .ok b) :
    a.Dropped (fun j => j = i) b ∧ ∀ j, (b.slot j).entry = (a.slot j).entry := by
  rw [unlink] at h
  split_ifs at h
  cases h
  refine ⟨⟨?_, fun j hj => ?_⟩, fun j => ?_⟩
  · rintro j rfl
    rw [slot_set_eq _ _ a.freeList]
    split_ifs with hj
    · rfl
    · exact congrArg trieHandle (slot_of_le (not_lt.mp fun hlt => hj ⟨rfl, hlt⟩))
  · rw [slot_set_eq _ _ a.freeList, if_neg fun h => hj h.1]
  · rw [slot_set_eq _ _ a.freeList]
    split_ifs with hj
    · rw [hj.1]
    · rfl

variable {gone gone' : ℕ → Prop} {key : Addr}

theorem Dropped.trans {c : TlbArray} (h : a.Dropped gone b) (h' : b.Dropped gone' c) :
    a.Dropped (fun j => gone j ∨ gone' j) c := by
  refine ⟨fun j hj => ?_, fun j hj => ?_⟩
  · by_cases hgone : gone' j
    · exact h'.unlinked j hgone
    · rw [h'.kept j hgone]
      exact h.unlinked j (hj.resolve_right hgone)
  · rw [not_or] at hj
    rw [h'.kept j hj.2, h.kept j hj.1]

theorem Dropped.congr (h : a.Dropped gone b) (hiff : ∀ j, gone j ↔ gone' j) : a.Dropped gone' b :=
  ⟨fun j hj => h.unlinked j ((hiff j).mpr hj), fun j hj => h.kept j fun hg => hj ((hiff j).mp hg)⟩

theorem Marked.dropped (h : a.Marked b) : a.Dropped (fun _ => False) b :=
  ⟨fun _ => False.elim, fun j _ => h.handle j⟩

theorem Dropped.find_eq_none_iff (h : a.Dropped gone b) :
    b.find key = none ↔ ∀ j, (a.slot j).covers key = true → gone j := by
  rw [TlbArray.find_eq_none_iff]
  refine forall_congr' fun j => ?_
  by_cases hj : gone j
  · simp [covers_of_unlinked (h.unlinked j hj), hj]
  · rw [covers, h.kept j hj, ← covers]
    simp [hj]

theorem Sound.unlink (ha : a.Sound) (hlinked : (a.slot i).linked = true) :
    ∃ b, a.unlink i = .ok b ∧ b.Sound := by
  refine ⟨_, if_pos hlinked, ?_, fun j hj hnot => ?_⟩
  · rw [length_set]
    exact ha.pos
  · rw [length_set] at hj
    rw [slot_set_eq _ _ a.freeList] at hnot
    rw [mem_append, mem_singleton]
    by_cases hji : j = i
    · exact .inr hji
    · rw [if_neg (fun h => hji h.1)] at hnot
      exact .inl (ha.free j hj hnot)

theorem any_ofPage_of_find {n : ℕ} (h : a.find key = none) :
    (a.slots.any fun x => x.trieHandle == some (.ofPage key n)) = false := by
  rw [any_eq_false]
  intro x hx heq
  obtain ⟨i, hi, rfl⟩ := getElem_of_mem hx
  have hslot : a.slot i = a.slots[i] := by simp [slot, hi]
  rw [← hslot, beq_iff_eq] at heq
  have hcovers : (a.slot i).covers key = true := by
    rw [covers, heq]
    exact beq_self_eq_true _
  rw [find_eq_none_iff.mp h i] at hcovers
  cases hcovers

theorem Quiet.find_eq_none (h : a.Quiet b) (hfind : a.find key = none) : b.find key = none := by
  rw [find_eq_none_iff] at hfind ⊢
  intro i
  rcases (h.slot i).2 with hsame | hnone
  · rw [covers, hsame]
    exact hfind i
  · exact covers_of_unlinked hnone key

theorem Sound.place (ha : a.Sound) {e : TlbEntry} (hfree : a.freeList ≠ [])
    (hany : (a.slots.any fun x => x.trieHandle == some (.ofPage key e.logBytes)) = false) :
    ∃ b, a.place e key = .ok b ∧ b.Sound := by
  obtain ⟨i, rest, hrest⟩ := exists_cons_of_ne_nil hfree
  have hplace : a.place e key =
      .ok ⟨a.slots.set i ⟨e, some (.ofPage key e.logBytes)⟩, rest⟩ := by
    rw [TlbArray.place, hrest]
    exact if_neg (by rw [Bool.not_eq_true]; exact hany)
  refine ⟨_, hplace, ?_, fun j hj hnot => ?_⟩
  · rw [length_set]
    exact ha.pos
  · rw [length_set] at hj
    rw [slot_set_eq _ _ a.freeList] at hnot
    by_cases hji : j = i
    · rw [if_pos ⟨hji, hji ▸ hj⟩] at hnot
      cases hnot
    · rw [if_neg (fun h => hji h.1)] at hnot
      have hmem := ha.free j hj hnot
      rw [hrest, mem_cons] at hmem
      exact hmem.resolve_left hji
end TlbArray

namespace L1Tlb
variable {s : L1Tlb} {i : ℕ}

section
variable (hs : s.arr.Sound)
include hs

theorem remove_ok (hlinked : (s.arr.slot i).linked = true) :
    ∃ t, s.remove i = .ok t ∧ t.arr.Sound ∧ s.arr.Dropped (fun j => j = i) t.arr ∧
      ∀ j, (t.arr.slot j).entry = (s.arr.slot j).entry := by
  obtain ⟨b, hb, hsound⟩ := hs.unlink hlinked
  refine ⟨{ s with arr := b }, ?_, hsound, unlink_dropped hb⟩
  rw [remove, hb]

theorem evictLRU_ok (hfull : s.arr.freeList = []) :
    ∃ t, s.evictLRU = .ok t ∧ t.arr.Sound ∧ t.arr.freeList ≠ [] ∧ s.arr.Quiet t.arr := by
  have hmem := s.arr.leastRecent_mem 0 (range s.arr.slots.length).tail
  have hrange : 0 :: (range s.arr.slots.length).tail = range s.arr.slots.length := by
    obtain ⟨n, hn⟩ := Nat.exists_eq_succ_of_ne_zero hs.pos.ne'
    rw [hn, range_succ_eq_map]
    rfl
  rw [hrange, mem_range] at hmem
  have hlinked : (s.arr.slot (s.arr.leastRecent 0
      (range s.arr.slots.length).tail)).linked = true := by
    by_contra hnot
    have hin := hs.free _ hmem (Bool.eq_false_iff.mpr hnot)
    rw [hfull] at hin
    cases hin
  obtain ⟨t, ht, hsound, -⟩ := remove_ok hs hlinked
  refine ⟨t, ht, hsound, ?_, evictLRU_quiet ht⟩
  rw [remove, TlbArray.unlink, if_pos hlinked] at ht
  cases ht
  simp

theorem insert_ok (vpn : Addr) (e : TlbEntry) : ∃ t, s.insert vpn e = .ok t ∧ t.arr.Sound := by
  unfold insert
  cases hfind : s.arr.find (buildKey vpn e.asid .direct) with
  | some i =>
    refine ⟨_, rfl, hs.of_handles length_set rfl fun j => ?_⟩
    show (TlbArray.slot ⟨s.arr.slots.set i _, s.arr.freeList⟩ j).trieHandle = _
    rw [slot_set_eq _ _ s.arr.freeList]
    split_ifs with hj
    · rw [hj.1]
    · rfl
  | none =>
    -- with room made, the entry can be placed
    have hroom : ∃ t, (if s.arr.freeList.isEmpty then s.evictLRU else .ok s) = .ok t ∧
        t.arr.Sound ∧ t.arr.freeList ≠ [] ∧ s.arr.Quiet t.arr := by
      by_cases hfull : s.arr.freeList = []
      · rw [if_pos (by rw [hfull]; rfl)]
        exact evictLRU_ok hs hfull
      · rw [if_neg (by rwa [List.isEmpty_iff])]
        exact ⟨s, rfl, hs, hfull, .refl _⟩
    obtain ⟨t, ht, hsound, hfree, hquiet⟩ := hroom
    obtain ⟨b, hb, hsound'⟩ := hsound.place (e := { e with lruSeq := t.lruSeq + 1, vaddr := vpn })
      hfree (any_ofPage_of_find (hquiet.find_eq_none hfind))
    refine ⟨⟨b, t.lruSeq + 1⟩, ?_, hsound'⟩
    simp only [ht, hb]

theorem removeIf_ok (p : TlbEntry → Bool) : ∃ t, s.removeIf p = .ok t ∧ t.arr.Sound ∧
      s.arr.Dropped (fun j => p (s.arr.slot j).entry = true) t.arr := by
  have hloop : ∃ t, s.removeIf p = .ok t ∧ t.arr.Sound ∧
      (∀ j, (t.arr.slot j).entry = (s.arr.slot j).entry) ∧
      s.arr.Dropped (fun j => j < s.arr.slots.length ∧ p (s.arr.slot j).entry = true) t.arr := by
    apply Loop.foldlM_range_ok (fun (n : ℕ) (u : L1Tlb) => u.arr.Sound ∧
      (∀ j, (u.arr.slot j).entry = (s.arr.slot j).entry) ∧
      s.arr.Dropped (fun j => j < n ∧ p (s.arr.slot j).entry = true) u.arr)
    · rintro i hi u ⟨hu, hentry, hdropped⟩
      -- what is not in use has no place in the trie anyway
      by_cases hp : ((u.arr.slot i).linked && p (u.arr.slot i).entry) = true
      · rw [if_pos hp]
        rw [Bool.and_eq_true, hentry] at hp
        obtain ⟨t, ht, hsound, hremoved, hsame⟩ := remove_ok hu hp.1
        refine ⟨t, ht, hsound, fun j => (hsame j).trans (hentry j),
          (hdropped.trans hremoved).congr fun j => ?_⟩
        constructor
        · rintro (⟨hj, hpj⟩ | rfl)
          · exact ⟨Nat.lt_succ_of_lt hj, hpj⟩
          · exact ⟨Nat.lt_succ_self _, hp.2⟩
        · rintro ⟨hj, hpj⟩
          exact (Nat.lt_succ_iff_lt_or_eq.mp hj).imp (fun hlt => ⟨hlt, hpj⟩) id
      · rw [if_neg hp]
        refine ⟨u, rfl, hu, hentry, fun j hj => ?_, fun j hj => ?_⟩
        · rcases Nat.lt_succ_iff_lt_or_eq.mp hj.1 with hlt | rfl
          · exact hdropped.unlinked j ⟨hlt, hj.2⟩
          · rw [Bool.and_eq_true, hentry, not_and'] at hp
            exact Option.not_isSome_iff_eq_none.mp (hp hj.2)
        · exact hdropped.kept j fun h => hj ⟨Nat.lt_succ_of_lt h.1, h.2⟩
    · exact ⟨hs, fun _ => rfl, fun j hj => absurd hj.1 (Nat.not_lt_zero j), fun _ _ => rfl⟩
  obtain ⟨t, ht, hsound, -, hdropped⟩ := hloop
  refine ⟨t, ht, hsound, fun j hj => ?_, fun j hj => hdropped.kept j fun h => hj h.2⟩
  by_cases hlt : j < s.arr.slots.length
  · exact hdropped.unlinked j ⟨hlt, hj⟩
  · rw [hdropped.kept j fun h => hlt h.1, slot_of_le (not_lt.mp hlt)]
    rfl

theorem removeFound_ok (vpn : Addr) (asid : BitVec 16) (mode : TlbTranslateMode) :
    ∃ t, s.removeFound vpn asid mode = .ok t ∧ t.arr.Sound ∧
      s.arr.Dropped (fun j => s.arr.find (buildKey vpn asid mode) = some j) t.arr := by
  have hmarked := lookup_marked vpn asid true false mode s
  have hfst := lookup_fst vpn asid true false mode s
  unfold removeFound
  rcases hlookup : s.lookup vpn asid true false mode with ⟨_ | i, u⟩
  · rw [hlookup] at hmarked hfst
    refine ⟨u, rfl, hs.of_marked hmarked, hmarked.dropped.congr fun j => ?_⟩
    rw [← hfst]
    simp
  · rw [hlookup] at hmarked hfst
    obtain ⟨-, hcovers⟩ := covers_of_find hfst.symm
    have hlinked : (u.arr.slot i).linked = true := by
      rw [linked, hmarked.handle]
      cases hhandle : (s.arr.slot i).trieHandle with
      | none =>
        rw [covers_of_unlinked hhandle] at hcovers
        cases hcovers
      | some n => rfl
    obtain ⟨t, ht, hsound, hremoved, -⟩ := remove_ok (hs.of_marked hmarked) hlinked
    refine ⟨t, ht, hsound, (hmarked.dropped.trans hremoved).congr fun j => ?_⟩
    rw [← hfst]
    simp [eq_comm]
end
end L1Tlb

/-! ### Both levels -/

namespace Tlbs
variable {cfg : MmuConfig} {s : Tlbs}

structure Whole (cfg : MmuConfig) (s : Tlbs) : Prop where
  l1 : s.l1.arr.Sound
  l2 : s.l2.Whole cfg

theorem Whole.flushAll (hs : s.Whole cfg) : ∃ t, s.flushAll = .ok t ∧ t.Whole cfg := by
  obtain ⟨l1, hl1, hsound, -⟩ := removeIf_ok hs.l1 fun _ => true
  obtain ⟨l2, hl2, hwhole, -⟩ := hs.l2.flushAll
  refine ⟨⟨l1, l2⟩, ?_, hsound, hwhole⟩
  rw [Tlbs.flushAll, L1Tlb.flushAll, hl1, hl2]

theorem Whole.demapPage (hs : s.Whole cfg) (vpn : Addr) (asid : BitVec 16) :
    ∃ t, s.demapPage vpn asid = .ok t ∧ t.Whole cfg := by
  unfold Tlbs.demapPage
  split_ifs
  · exact hs.flushAll
  · apply Loop.foldlM_ok (fun u : Tlbs => u.Whole cfg)
    · intro u mode _ hu
      obtain ⟨l1, hl1, hsound, -⟩ := removeFound_ok hu.l1 vpn asid mode
      obtain ⟨l2, hl2, hwhole, -⟩ := hu.l2.demapPageL2 vpn asid
      refine ⟨⟨l1, l2⟩, ?_, hsound, hwhole⟩
      rw [demapMode, hl1, hl2]
    · exact hs
  · obtain ⟨l1, hl1, hsound, -⟩ := removeIf_ok hs.l1 fun e =>
      ofPage vpn e.vaddr asid e.asid e.size || ofPage vpn e.gpaddr asid e.vmid e.size
    obtain ⟨l2, hl2, hwhole, -⟩ := hs.l2.demapPageL2 vpn asid
    refine ⟨⟨l1, l2⟩, ?_, hsound, hwhole⟩
    rw [hl1, hl2]
end Tlbs

/-! ### Failures elsewhere -/

def Safe {α : Type} (x : Except String α) : Prop :=
  ∀ m, x = .error m → m ∉ L2Tlb.panics

namespace Safe
variable {α β : Type}

theorem ok (a : α) : Safe (.ok a : Except String α) := by
  intro m h
  cases h

variable {m : String} {x : Except String α}

theorem error (h : m ∉ panics) : Safe (.error m : Except String α) := by
  intro m' h'
  obtain rfl := Except.error.inj h'
  exact h

theorem of_ok {a : α} (h : x = .ok a) : Safe x := by
  rw [h]
  exact ok a

theorem ite {c : Prop} [Decidable c] {y : Except String α} (hx : Safe x) (hy : Safe y) :
    Safe (if c then x else y) := by
  by_cases hc : c
  · rw [if_pos hc]
    exact hx
  · rw [if_neg hc]
    exact hy

theorem pass (hx : Safe x) (h : x = .error m) : Safe (.error m : Except String β) := error (hx m h)
end Safe

namespace Walker
variable {w : Walker} {r : WalkRequest} {regulate sent : Bool}

theorem startWalk_safe (r : WalkRequest) (auto sent : Bool) : Safe (startWalk r auto sent) := by
  have hsetup (walk : Walk) (args : Walk.StartArgs) : Safe (walk.setupWalk args) :=
    .ite (.error (by decide)) (.ok _)
  unfold startWalk
  simp only
  split
  · rename_i m hm
    exact (hsetup _ _).pass hm
  · exact .ok _

theorem tryCoalesce_safe (r : WalkRequest) (states : List WalkerState) :
    Safe (tryCoalesce r states) := by
  have hcoalesce (ws : WalkerState) : Safe (ws.coalesce r) :=
    .ite (.ok _) (.ite (.error (by decide)) (.ok _))
  induction states with
  | nil => exact .ok _
  | cons ws rest ih =>
    unfold tryCoalesce
    split_ifs
    · split
      · rename_i m hm
        exact (hcoalesce ws).pass hm
      · exact .ok _
    · split
      · rename_i m hm
        exact ih.pass hm
      · exact .ok _
      · exact .ok _

theorem start_safe (w : Walker) (r : WalkRequest) (regulate sent : Bool) :
    Safe (w.start r regulate sent) := by
  unfold start
  simp only
  split
  · rename_i m hm
    exact (tryCoalesce_safe r w.currStates).pass hm
  · exact .ok _
  · split
    · rename_i m hm
      exact (startWalk_safe r _ sent).pass hm
    · exact .ok _

theorem prefetch_safe (w : Walker) (req : XlateReq) (id : ℕ) (l2 : L2Tlb) (found : L2Found)
    (c : XlateChoices) : Safe (w.prefetch req id l2 found c) := by
  have hsend (w : Walker) (block : Addr) (forward regulate sent : Bool)
      (source : Option (L2Page × ℕ)) :
      Safe (w.sendPre req id block forward l2 source regulate sent) := by
    unfold sendPre
    split
    · exact .ok _
    · exact .ite (start_safe _ _ _ _) (.ok _)
  rw [prefetch]
  split
  · rename_i m hm
    exact (Safe.ite (hsend _ _ _ _ _ _) (.ok _)).pass hm
  · exact .ite (hsend _ _ _ _ _ _) (.ok _)
end Walker

namespace Mmu
variable {m : Mmu} {k : L1Id} {id : ℕ} {req : XlateReq} {found : L2Found} {c : XlateChoices}

theorem askWalker_safe (m : Mmu) (k : L1Id) (r : WalkRequest) (c : XlateChoices) :
    Safe (m.askWalker k r c) := by
  unfold askWalker
  split
  · rename_i e he
    exact (Walker.start_safe _ _ _ _).pass he
  · exact .ok _

theorem afterHit_safe (m : Mmu) (result : Option (Except MMUFault Addr)) :
    Safe (m.afterHit k id req found c result) := by
  rw [afterHit]
  split
  · rename_i e he
    exact (Walker.prefetch_safe _ _ _ _ _ _).pass he
  · exact .ok _

theorem hitL1_safe (m : Mmu) (e : TlbEntry) : Safe (m.hitL1 k id req found c e) := by
  unfold hitL1
  split_ifs
  · exact .ok _
  · split
    · exact .ok _
    · exact afterHit_safe _ _

theorem missL1_safe (m : Mmu) : Safe (m.missL1 k id req found c) := by
  unfold missL1
  split
  · exact askWalker_safe _ _ _ _
  · simp only
    split
    · exact askWalker_safe _ _ _ _
    · exact .ok _
    · split_ifs
      · exact afterHit_safe _ _
      · exact .ok _
end Mmu

namespace Walk
variable {cfg : MmuConfig}

theorem stepWalk_safe (w : Walk) (cfg : MmuConfig) (line : PteLine) (pmp : Option MMUFault) :
    Safe (w.stepWalk cfg line pmp) := by
  have hpointer (pte : PTE) : Safe (w.stepPointer cfg line pte) := by
    unfold stepPointer
    split
    · exact .ok _
    · exact .ite (.error (by decide)) (.ite (.error (by decide)) (.ok _))
  have hleaf (pte : PTE) : Safe (w.stepLeaf cfg line pte) := by
    unfold stepLeaf
    split
    · exact .ok _
    · exact .ite (.ok _) (.ite (.ite (.error (by decide)) (.ok _)) (.ok _))
  have hnext : Safe (w.stepNextline cfg line) := .ite (.ok _) (.error (by decide))
  unfold stepWalk
  split
  · exact .ok _
  · exact .ok _
  · exact hnext
  · exact .ite (.ok _) (.ite (hleaf _) (hpointer _))
end Walk

namespace WalkerState
variable {pmpCheck : ℕ → Addr → Option MMUFault}

theorem translateWithTLB_safe (s : L1Tlb) (vaddr : Addr) (asid : BitVec 16) :
    Safe (s.translateWithTLB vaddr asid) := by
  unfold translateWithTLB
  split
  · exact .error (by decide)
  · exact .ok _

section
variable (w : Walk) (requestors : List Requestor) (s : L1Tlb)

theorem finishAll_safe : Safe (finishAll w pmpCheck requestors s) := by
  induction requestors generalizing s with
  | nil => exact .ok _
  | cons r rest ih =>
    refine .ite (ih s) ?_
    split
    · rename_i m hm
      exact (translateWithTLB_safe _ _ _).pass hm
    · split
      · exact .ite (.ok _) (.ok _)
      · split
        · rename_i m hm
          exact (ih _).pass hm
        · exact .ok _

theorem finishNextline_safe : Safe (finishNextline w pmpCheck requestors s) := by
  induction requestors generalizing s with
  | nil => exact .ok _
  | cons r rest ih =>
    unfold finishNextline
    split
    · rename_i m hm
      exact (translateWithTLB_safe _ _ _).pass hm
    · split
      · exact .error (by decide)
      · split
        · rename_i m hm
          exact (ih _).pass hm
        · exact .ok _
end

theorem afterStep_safe (ws : WalkerState) (fault : Option MMUFault) (s : Tlbs) :
    Safe (ws.afterStep fault pmpCheck s) := by
  refine .ite (.ite (.ok _) ?_) (.ite ?_ (.ok _))
  · split
    · exact .ok _
    · split
      · rename_i m hm
        exact (finishNextline_safe _ _ _).pass hm
      · exact .ok _
  · split
    · exact .ok _
    · split
      · rename_i m hm
        exact (finishAll_safe _ _ _).pass hm
      · exact .ok _
end WalkerState

/-! ### The insertions of an event -/

structure TlbOp.IsLine (cfg : MmuConfig) (l : L2Line) (e : ℕ → TlbEntry) (ops : List TlbOp) :
    Prop where
  ops_eq : ops = (List.range l2tlbLineSize).map fun j => .l2Insert l.page (e j) j
  fits : ∀ j < 8, (e j).Fits cfg l j

def TlbOp.Batch (cfg : MmuConfig) (ops : List TlbOp) : Prop :=
  ∃ (entries : List TlbEntry) (line : List TlbOp), ops = entries.map .insert ++ line ∧
    (line = [] ∨ ∃ l e, TlbOp.IsLine cfg l e line)

namespace Walk
variable {cfg : MmuConfig} {w : Walk} {line : PteLine}

variable {level : ℕ} {mode : AddrXlateMode}

theorem lineOps_isLine {page : L2Page} (hlevel : page.level = level) :
    IsLine cfg ⟨page, w.entry.vaddr, w.inl2Entry.asid⟩ (w.lineEntry cfg line level)
      (w.lineOps cfg line level (some page)) := by
  subst hlevel
  refine ⟨rfl, fun j hj => ⟨rfl, rfl, rfl, rfl, fun hways => ?_⟩⟩
  obtain ⟨ways, hways⟩ := Option.ne_none_iff_exists'.mp hways
  cases page with
  | l2l0 => rfl
  | l2l1 => exact setOf_lineVaddr .l2l1 _ hj hways
  | l2l2 => cases hways
  | l2l3 => cases hways
  | l2sp1 => cases hways
  | l2sp2 => cases hways
  | l2sp3 => cases hways

theorem lineOps_batch {page : Option L2Page} (hlevel : ∀ p ∈ page, p.level = level) :
    w.lineOps cfg line level page = [] ∨ ∃ l e, IsLine cfg l e (w.lineOps cfg line level page) := by
  cases page with
  | none => exact .inl rfl
  | some page => exact .inr ⟨_, _, lineOps_isLine (hlevel page rfl)⟩

theorem pointerPage_level : ∀ p ∈ pointerPage mode level, p.level = level := by
  intro p hp
  unfold pointerPage at hp
  split at hp
  · cases hp
    rfl
  · cases hp
    rfl
  · split_ifs at hp
    · cases hp
      rfl
    · cases hp
  · cases hp

theorem leafPage_level : ∀ p ∈ leafPage mode level, p.level = level := by
  intro p hp
  unfold leafPage at hp
  split at hp
  · cases hp
    rfl
  · cases hp
    rfl
  · cases hp
    rfl
  · split_ifs at hp
    · cases hp
      rfl
    · cases hp
  · cases hp
end Walk

theorem TlbOp.Batch.nil (cfg : MmuConfig) : Batch cfg [] := ⟨[], [], rfl, .inl rfl⟩

variable {cfg : MmuConfig}

theorem TlbOp.Batch.of_fits {l : L2Line} {e : ℕ → TlbEntry} (h : ∀ j < 8, (e j).Fits cfg l j) :
    Batch cfg ((range l2tlbLineSize).map fun j => .l2Insert l.page (e j) j) :=
  ⟨[], _, (nil_append _).symm, .inr ⟨l, e, rfl, h⟩⟩

namespace Walk
variable {cfg : MmuConfig} {w w' : Walk} {line : PteLine} {pmp fault : Option MMUFault}
  {ops : List TlbOp}

theorem leafOps_batch (w : Walk) : Batch cfg (w.leafOps cfg line) := by
  unfold leafOps
  split_ifs
  · exact ⟨[w.entry], _, rfl, lineOps_batch leafPage_level⟩
  · exact ⟨[], _, rfl, lineOps_batch leafPage_level⟩

theorem stepWalk_batch (h : w.stepWalk cfg line pmp = .ok (fault, ops, w')) : Batch cfg ops := by
  cases stepWalk_result h with
  | fault f hn => exact .nil cfg
  | denied hn => exact .nil cfg
  | nextline base e hn hlevel he =>
    apply Batch.of_fits (l := ⟨.l2l0, base, w.nextlineEntry.asid⟩)
    intro j hj
    rw [he j]
    exact ⟨rfl, rfl, rfl, rfl, fun _ => setOf_lineVaddr .l2l0 _ hj rfl⟩
  | pointer level pte shift next hn hlevel => exact ⟨[], _, rfl, lineOps_batch pointerPage_level⟩
  | functional pte hn hf => exact .nil cfg
  | leaf pte hn hf => exact leafOps_batch _
  | leafNextline pte vaddr next hn hf hforward hback => exact leafOps_batch _
end Walk

theorem Mmu.ops_batch (cfg : MmuConfig) (m : Mmu) (event : MmuEvent) :
    Batch cfg (m.ops cfg event) := by
  cases event with
  | response k i line pmp sent pmpCheck =>
    simp only [ops]
    cases (m.walkers k).currStates[i]? with
    | none => exact .nil cfg
    | some ws =>
      simp only [WalkerState.ops]
      split_ifs
      · rcases hstep : ws.walk.stepWalk cfg line pmp with e | ⟨fault, ops, walk⟩
        · exact .nil cfg
        · exact Walk.stepWalk_batch hstep
      · exact .nil cfg
  | l2Hit k pmpCheck =>
    simp only [ops, hitOps]
    split_ifs
    · refine ⟨((m.walkers k).l2TLBrequestors.filter fun h => (pmpCheck h.id h.paddr).isNone).map
        fun h => ((m.l2.arrays h.array).slot h.slot).entry, [], ?_, .inl rfl⟩
      rw [append_nil, map_map]
      rfl
    · exact .nil cfg
  | translate k id req c => exact .nil cfg
  | retry k sent => exact .nil cfg
  | demapPage vpn asid => exact .nil cfg
  | flushL1 k => exact .nil cfg
  | flushL2 => exact .nil cfg

def TlbOp.Collide (cfg : MmuConfig) (ops : List TlbOp) (s : L2Tlb) : Prop :=
  ∃ page e, .l2Insert page e 0 ∈ ops ∧ s.Collides cfg page e.vaddr e.asid

namespace Tlbs
variable {cfg : MmuConfig} {s : Tlbs}

theorem Whole.execInserts (hs : s.Whole cfg) (entries : List TlbEntry) :
    ∃ t, s.execAll cfg (entries.map .insert) = .ok t ∧ t.Whole cfg ∧ t.l2 = s.l2 := by
  unfold execAll
  rw [foldlM_map]
  apply Loop.foldlM_ok (fun u : Tlbs => u.Whole cfg ∧ u.l2 = s.l2)
  · rintro u e - ⟨hu, hl2⟩
    obtain ⟨l1, hl1, hsound⟩ := insert_ok hu.l1 e.vaddr e
    refine ⟨{ u with l1 := l1 }, ?_, ⟨hsound, hu.l2⟩, hl2⟩
    simp only [exec, hl1]
  · exact ⟨hs, rfl⟩

variable {ops : List TlbOp}

theorem execAll_line {l : L2Line} {e : ℕ → TlbEntry} (h : IsLine cfg l e ops) (s : Tlbs) :
    s.execAll cfg ops = (s.l2.insertLine cfg l.page e).map fun l2 => { s with l2 := l2 } := by
  rw [h.ops_eq, execAll, L2Tlb.insertLine, foldlM_map]
  generalize range l2tlbLineSize = js
  induction js generalizing s with
  | nil => rfl
  | cons j js ih =>
    rw [foldlM_cons, foldlM_cons, exec]
    cases hinsert : s.l2.l2TLBInsertIn cfg (e j).vaddr (e j) l.page j with
    | error m => rfl
    | ok l2 => exact ih { s with l2 := l2 }

theorem Whole.execAll (hs : s.Whole cfg) (hops : Batch cfg ops) :
    (Collide cfg ops s.l2 ∧ ∃ m ∈ panics, s.execAll cfg ops = .error m) ∨
    (¬ Collide cfg ops s.l2 ∧ ∃ t, s.execAll cfg ops = .ok t ∧ t.Whole cfg) := by
  obtain ⟨entries, line, rfl, hline⟩ := hops
  obtain ⟨u, hu, hwhole, hl2⟩ := hs.execInserts entries
  rw [execAll_append hu]
  rcases hline with rfl | ⟨l, e, hline⟩
  · refine .inr ⟨?_, u, rfl, hwhole⟩
    rintro ⟨page, e, hmem, -⟩
    simp at hmem
  · -- the first entry of the line
    have hcollide : Collide cfg (entries.map .insert ++ line) s.l2 ↔
        s.l2.Collides cfg l.page (e 0).vaddr (e 0).asid := by
      constructor
      · rintro ⟨page, e', hmem, hcollides⟩
        rw [mem_append, hline.ops_eq, mem_map, mem_map] at hmem
        rcases hmem with ⟨_, -, heq⟩ | ⟨j, -, heq⟩
        · cases heq
        · cases heq
          exact hcollides
      · intro hcollides
        refine ⟨l.page, e 0, mem_append_right _ ?_, hcollides⟩
        rw [hline.ops_eq, mem_map]
        exact ⟨0, by decide, rfl⟩
    rw [hcollide, execAll_line hline, hl2]
    rcases hs.l2.insertLine hline.fits with ⟨hc, m, hm, herror⟩ | ⟨hc, r, hr, hwhole'⟩
    · refine .inl ⟨hc, m, hm, ?_⟩
      rw [herror]
      rfl
    · refine .inr ⟨hc, { u with l2 := r }, ?_, hwhole.l1, hwhole'⟩
      rw [hr]
      rfl
end Tlbs

/-! ### Events -/

theorem L2Tlb.Whole.lookupPages {s : L2Tlb} (hs : s.Whole cfg) (req : XlateReq) (inL1 : Bool) :
    ∃ r, s.lookupPages req inL1 = .ok r ∧ r.2.Whole cfg := by
  apply Loop.foldlM_ok (fun r : L2Found × L2Tlb => r.2.Whole cfg)
  · rintro ⟨found, u⟩ page - hu
    have hmain : ∃ main v, (if inL1 then .ok (none, u)
        else u.lookupL2TLB req.vaddr req.satp.asid false page true .direct) =
          (.ok (main, v) : Except String _) ∧ v.Whole cfg := by
      split_ifs
      · exact ⟨none, u, rfl, hu⟩
      · obtain ⟨v, hv, -, hwhole⟩ := hu.lookup req.vaddr req.satp.asid false page true .direct
        exact ⟨_, v, hv, hwhole⟩
    obtain ⟨main, s₁, h₁, hw₁⟩ := hmain
    obtain ⟨s₂, h₂, -, hw₂⟩ :=
      hw₁.lookup (forwardPreBlock req.vaddr) req.satp.asid true page true .direct
    obtain ⟨s₃, h₃, -, -⟩ :=
      hw₂.lookup (backPreBlock req.vaddr) req.satp.asid true page true .direct
    have hok : ∃ r, lookupPage req inL1 (found, u) page = .ok r := by
      rw [lookupPage]
      simp only [h₁, h₂, h₃]
      exact ⟨_, rfl⟩
    obtain ⟨r, hr⟩ := hok
    exact ⟨r, hr, (lookupPage_marked hr).whole hu⟩
  · exact hs

/-- The outcome of what may bring lines: one of them collides and an assertion of the second level
fails, or none does and no such assertion fails. -/
def Outcome (collide : Prop) {α : Type} (x : Except String α) (good : α → Prop) : Prop :=
  (collide ∧ ∃ m ∈ L2Tlb.panics, x = .error m) ∨
    (¬ collide ∧ Safe x ∧ ∀ a, x = .ok a → good a)

theorem WalkerState.recvPacket_outcome (ws : WalkerState) (line : PteLine) (pmp : Option MMUFault)
    (sent : Bool) (pmpCheck : ℕ → Addr → Option MMUFault) {s : Tlbs} (hs : s.Whole cfg) :
    Outcome (Collide cfg (ws.ops cfg line pmp) s.l2)
      (ws.recvPacket cfg line pmp sent pmpCheck s) fun r => r.2.2.Whole cfg := by
  have hnil : ¬ Collide cfg [] s.l2 := by
    rintro ⟨page, e, hmem, -⟩
    cases hmem
  unfold recvPacket ops
  by_cases hinflight : ws.inflight = true
  · by_cases hempty : ws.requestors.isEmpty = true
    · rw [if_pos hinflight, if_pos hempty, if_neg (by simp [hempty])]
      refine .inr ⟨hnil, .ok _, fun r hr => ?_⟩
      cases hr
      exact hs
    · rw [if_pos hinflight, if_neg hempty, if_pos (by simp [hinflight, hempty])]
      have hsafe := ws.walk.stepWalk_safe cfg line pmp
      rcases hstep : ws.walk.stepWalk cfg line pmp with m | ⟨fault, ops, walk⟩
      · refine .inr ⟨hnil, hsafe.pass hstep, fun r hr => ?_⟩
        cases hr
      · rcases hs.execAll (Walk.stepWalk_batch hstep) with
          ⟨hc, m, hm, herror⟩ | ⟨hc, t, ht, hwhole⟩
        · refine .inl ⟨hc, m, hm, ?_⟩
          simp only [herror]
        · simp only [ht]
          refine .inr ⟨hc, afterStep_safe _ _ _, ?_⟩
          rintro ⟨next, log, u⟩ hr
          have hmarked := (afterStep_spec hr).2
          exact ⟨hwhole.l1.of_marked hmarked.l1, hmarked.l2.whole hwhole.l2⟩
  · rw [if_neg hinflight, if_neg (by simp [hinflight])]
    refine .inr ⟨hnil, .error (by decide), fun r hr => ?_⟩
    cases hr

namespace Mmu
variable {cfg : MmuConfig} {m m' : Mmu} {k : L1Id}

structure Whole (cfg : MmuConfig) (m : Mmu) : Prop where
  l1 : ∀ k, (m.l1 k).arr.Sound
  l2 : m.l2.Whole cfg

theorem init_whole (cfg : MmuConfig) : (init cfg).Whole cfg :=
  ⟨fun _ => init_sound cfg.size_pos, L2Tlb.init_whole cfg⟩

section
variable (hm : m.Whole cfg)
include hm

theorem Whole.tlbs (k : L1Id) : (m.tlbs k).Whole cfg := ⟨hm.l1 k, hm.l2⟩

theorem Whole.setTlbs {s : Tlbs} (hs : s.Whole cfg) : (m.setTlbs k s).Whole cfg := by
  refine ⟨fun j => ?_, hs.l2⟩
  show (update m.l1 k s.l1 j).arr.Sound
  by_cases hj : j = k
  · subst hj
    rw [update_self]
    exact hs.l1
  · rw [update_of_ne hj]
    exact hm.l1 j

theorem Whole.setWalker (w : Walker) : (m.setWalker k w).Whole cfg := ⟨hm.l1, hm.l2⟩

theorem Whole.of_marked (h : m.Marked m') : m'.Whole cfg :=
  ⟨fun k => (hm.l1 k).of_marked (h.l1 k), h.l2.whole hm.l2⟩

theorem Whole.doTranslate_safe (k : L1Id) (id : ℕ) (req : XlateReq)
    (c : XlateChoices) : Safe (m.doTranslate k id req c) := by
  refine .ite (.ok _) ?_
  rcases (m.l1 k).lookup req.vaddr req.satp.asid false true .direct with ⟨hit, l1⟩
  obtain ⟨⟨found, l2⟩, hpages, -⟩ := hm.l2.lookupPages req hit.isSome
  simp only [hpages]
  cases hit with
  | none => exact missL1_safe _
  | some i => exact hitL1_safe _ _

theorem Whole.demapTlb (k : L1Id) (vpn : Addr) (asid : BitVec 16) :
    ∃ m', m.demapTlb k vpn asid = .ok m' ∧ m'.Whole cfg := by
  obtain ⟨s, hs, hwhole⟩ := (hm.tlbs k).demapPage vpn asid
  refine ⟨m.setTlbs k s, ?_, hm.setTlbs hwhole⟩
  rw [Mmu.demapTlb, hs]

theorem Whole.demapPage (vpn : Addr) (asid : BitVec 16) :
    ∃ m', m.demapPage vpn asid = .ok m' ∧ m'.Whole cfg := by
  obtain ⟨m₁, h₁, hm₁⟩ := hm.demapTlb .itb vpn asid
  obtain ⟨m₂, h₂, hm₂⟩ := hm₁.demapTlb .dtb vpn asid
  refine ⟨m₂, ?_, hm₂⟩
  rw [Mmu.demapPage, h₁]
  exact h₂
end

def Collides (cfg : MmuConfig) (m : Mmu) (event : MmuEvent) : Prop :=
  TlbOp.Collide cfg (m.ops cfg event) m.l2

theorem Whole.step_outcome (hm : m.Whole cfg) (event : MmuEvent) :
    Outcome (m.Collides cfg event) (m.step cfg event) fun m' => m'.Whole cfg := by
  -- an event that inserts nothing and succeeds
  have hok (hops : m.ops cfg event = []) {m' : Mmu} (h : m.step cfg event = .ok m')
      (hwhole : m'.Whole cfg) :
      Outcome (m.Collides cfg event) (m.step cfg event) fun m' => m'.Whole cfg := by
    refine .inr ⟨?_, .of_ok h, fun m'' h' => ?_⟩
    · rintro ⟨page, e, hmem, -⟩
      rw [hops] at hmem
      cases hmem
    · rw [h] at h'
      cases h'
      exact hwhole
  cases event with
  | translate k id req c =>
    refine .inr ⟨?_, ?_, fun m' h => ?_⟩
    · rintro ⟨page, e, hmem, -⟩
      cases hmem
    · simp only [step]
      split
      · rename_i e he
        exact (hm.doTranslate_safe k id req c).pass he
      · exact .ok _
    · simp only [step] at h
      split at h
      · cases h
      · rename_i result m₁ htranslate
        cases h
        exact hm.of_marked (doTranslate_marked htranslate)
  | response k i line pmp sent pmpCheck =>
    simp only [step, recvTimingResp, Collides, ops]
    cases hws : (m.walkers k).currStates[i]? with
    | none =>
      refine .inr ⟨?_, .error (by decide), fun m' h => ?_⟩
      · rintro ⟨page, e, hmem, -⟩
        cases hmem
      · cases h
    | some ws =>
      simp only
      rcases ws.recvPacket_outcome line pmp sent pmpCheck (hm.tlbs k) with
        ⟨hc, msg, hmsg, h⟩ | ⟨hc, hsafe, hgood⟩
      · rw [h]
        exact .inl ⟨hc, msg, hmsg, rfl⟩
      · refine .inr ⟨hc, ?_, fun m' h => ?_⟩
        · split
          · rename_i e he
            exact hsafe.pass he
          · exact .ok _
        · split at h
          · cases h
          · rename_i next log s hrecv
            cases h
            exact (hm.setTlbs (hgood _ hrecv)).setWalker _
  | retry k sent => exact hok rfl rfl (hm.setWalker _)
  | l2Hit k pmpCheck =>
    simp only [step, dol2TLBHit, Collides, ops]
    rcases (hm.tlbs k).execAll (m.ops_batch cfg (.l2Hit k pmpCheck)) with
      ⟨hc, msg, hmsg, h⟩ | ⟨hc, s, h, hwhole⟩
    · simp only [ops] at hc h
      rw [h]
      exact .inl ⟨hc, msg, hmsg, rfl⟩
    · simp only [ops] at hc h
      rw [h]
      refine .inr ⟨hc, .ok _, fun m' h => ?_⟩
      cases h
      exact (hm.setTlbs hwhole).setWalker _
  | demapPage vpn asid =>
    obtain ⟨m', h, hwhole⟩ := hm.demapPage vpn asid
    exact hok rfl h hwhole
  | flushL1 k =>
    obtain ⟨l1, h, hsound, -⟩ := removeIf_ok (hm.l1 k) fun _ => true
    have hflush : m.step cfg (.flushL1 k) = .ok (m.setTlbs k ⟨l1, m.l2⟩) := by
      simp only [step, flushL1, L1Tlb.flushAll, h]
    exact hok rfl hflush (hm.setTlbs ⟨hsound, hm.l2⟩)
  | flushL2 =>
    obtain ⟨l2, h, hwhole, -⟩ := hm.l2.flushAll
    have hflush : m.step cfg .flushL2 = .ok { m with l2 := l2 } := by
      simp only [step, flushL2, h]
    exact hok rfl hflush ⟨hm.l1, hwhole⟩

def moments (cfg : MmuConfig) (m : Mmu) : List MmuEvent → List (Mmu × MmuEvent)
  | [] => []
  | event :: events =>
    (m, event) :: match m.step cfg event with
      | .error _ => []
      | .ok m => m.moments cfg events

variable {events : List MmuEvent}

theorem Whole.run (hm : m.Whole cfg) (hnot : ∀ x ∈ m.moments cfg events, ¬ x.1.Collides cfg x.2) :
    (∀ m' ∈ m.states cfg events, m'.Whole cfg) ∧
      ∀ x ∈ m.moments cfg events, Safe (x.1.step cfg x.2) := by
  induction events generalizing m with
  | nil => exact ⟨forall_mem_singleton.mpr hm, fun _ h => absurd h not_mem_nil⟩
  | cons event events ih =>
    unfold moments at hnot ⊢
    unfold states
    rw [forall_mem_cons] at hnot
    rcases hm.step_outcome event with ⟨hc, -⟩ | ⟨-, hsafe, hgood⟩
    · exact absurd hc hnot.1
    · rw [forall_mem_cons, forall_mem_cons]
      cases hstep : m.step cfg event with
      | error e =>
        rw [hstep] at hsafe
        exact ⟨⟨hm, fun _ h => absurd h not_mem_nil⟩, hsafe, fun _ h => absurd h not_mem_nil⟩
      | ok m' =>
        have hrest := hnot.2
        rw [hstep] at hrest hsafe
        obtain ⟨hstates, hmoments⟩ := ih (hgood m' hstep) hrest
        exact ⟨⟨hm, hstates⟩, hsafe, hmoments⟩

theorem Whole.not_collides (hm : m.Whole cfg)
    (hsafe : ∀ x ∈ m.moments cfg events, Safe (x.1.step cfg x.2)) :
    ∀ x ∈ m.moments cfg events, ¬ x.1.Collides cfg x.2 := by
  induction events generalizing m with
  | nil => exact fun _ h => absurd h not_mem_nil
  | cons event events ih =>
    unfold moments at hsafe ⊢
    rw [forall_mem_cons] at hsafe ⊢
    rcases hm.step_outcome event with ⟨-, e, he, herror⟩ | ⟨hc, -, hgood⟩
    · exact absurd he (hsafe.1 e herror)
    · refine ⟨hc, ?_⟩
      cases hstep : m.step cfg event with
      | error e => exact fun _ h => absurd h not_mem_nil
      | ok m' =>
        have hrest := hsafe.2
        rw [hstep] at hrest
        exact ih (hgood m' hstep) hrest

/-- Over every run, the arrays of the second level stay whole and none of its assertions and panics
is reached, exactly if no walk brings a line that collides. -/
theorem lines_whole_iff (cfg : MmuConfig) (events : List MmuEvent) :
    ((∀ m ∈ (init cfg).states cfg events, ∀ k, (m.l2.arrays k).Whole cfg k) ∧
      ∀ x ∈ (init cfg).moments cfg events, ∀ e, x.1.step cfg x.2 = .error e → e ∉ L2Tlb.panics) ↔
    ∀ x ∈ (init cfg).moments cfg events, ¬ x.1.Collides cfg x.2 := by
  constructor
  · rintro ⟨-, hsafe⟩
    exact (init_whole cfg).not_collides hsafe
  · intro hnot
    obtain ⟨hstates, hsafe⟩ := (init_whole cfg).run hnot
    exact ⟨fun m hm => (hstates m hm).l2, hsafe⟩
end Mmu

def superMmu : MmuConfig :=
  { smallMmu with l2TlbSpSize := 4, sp_pos := fourLines_pos }

theorem superMmu_powersOfTwo : superMmu.PowersOfTwo := by
  intro k
  cases k with
  | l3 => exact ⟨0, rfl⟩
  | l2 => exact ⟨0, rfl⟩
  | l1 => exact ⟨1, rfl⟩
  | l0 => exact ⟨2, rfl⟩
  | sp => exact ⟨2, rfl⟩

def hiddenLoads : List MmuEvent :=
  loadAndRead 0 0x40000000 (fun i => if i = 0 then ⟨0x801⟩ else ⟨0x10000043⟩) ++
    loadAndRead 1 0x200000 (fun _ => ⟨0x80043⟩) ++ loadAndRead 2 0x400000 (fun _ => ⟨0x80043⟩)

/-- The line of gigabyte pages hides the line of the smaller ones, which is inserted a second time
and makes an assertion fail. -/
theorem hiddenLine_inserted :
    superMmu.PowersOfTwo ∧ (Mmu.init superMmu).run superMmu hiddenLoads =
      .error "Assertion `!node->value' failed." :=
  ⟨superMmu_powersOfTwo, rfl⟩
end Gem5
