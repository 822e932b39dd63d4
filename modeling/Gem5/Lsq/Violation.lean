import Mathlib.Algebra.Order.Group.Nat

/-!
# Memory order violations

When a store executes, a younger load that overlaps it may have read too early.  `checkViolations`
goes over the loads behind the store, from the oldest on, once for each request of the store, and
stops at the first load that it blames.
-/

namespace Gem5
open List

structure MemReq where
  paddr : ℕ
  size : ℕ
  size_pos : 0 < size
  end_lt : paddr + size < 2 ^ 64

namespace MemReq

/-- The granule of the first byte, for a granule of `2 ^ depCheckShift` bytes. -/
def effAddr1 (depCheckShift : ℕ) (r : MemReq) : ℕ :=
  r.paddr >>> depCheckShift

def effAddr2 (depCheckShift : ℕ) (r : MemReq) : ℕ :=
  (r.paddr + r.size - 1) >>> depCheckShift

def overlaps (depCheckShift : ℕ) (r r' : MemReq) : Bool :=
  decide (r.effAddr2 depCheckShift ≥ r'.effAddr1 depCheckShift) &&
    decide (r.effAddr1 depCheckShift ≤ r'.effAddr2 depCheckShift)

end MemReq

open MemReq

structure LqEntry where
  seqNum : ℕ
  effAddrValid : Bool
  strictlyOrdered : Bool
  needNukeReplay : Bool
  skipRawCheck : Bool
  hitExternalSnoop : Bool
  possibleLoadViolation : Bool
  reqs : List MemReq

structure ViolationFault where
  inst : ℕ
  load : ℕ
  ldEffAddr1 : ℕ

def ViolationFault.text (f : ViolationFault) : String :=
  "Detected fault with inst [sn:" ++ toString f.inst ++ "] and [sn:" ++ toString f.load ++
    "] at address 0x" ++ String.ofList (Nat.toDigits 16 f.ldEffAddr1) ++ "\n"

/-- What the comparison of one load ends in: the loop goes on, after the load was marked for a
possible violation or not, or the search ends. -/
inductive LoadCheck
  | next (possibleLoadViolation : Bool)
  | stop (memDepViolator : Option ℕ) (fault : Option ViolationFault)

section
variable (depCheckShift : ℕ) (isLoad : Bool) (inst : ℕ) (req0 : MemReq)

def checkLoad (memDepViolator : Option ℕ) (ld : LqEntry) : List MemReq → LoadCheck
  | [] => .next false
  | req1 :: rest =>
    let fault : ViolationFault := ⟨inst, ld.seqNum, req1.effAddr1 depCheckShift⟩
    if req0.overlaps depCheckShift req1 then
      if isLoad then
        if ld.hitExternalSnoop && memDepViolator.all fun v => decide (ld.seqNum < v) then
          .stop (some ld.seqNum) (some fault)
        else .next true
      else if memDepViolator.any fun v => decide (ld.seqNum > v) then .stop memDepViolator none
      else if ld.needNukeReplay then .next false
      else if ld.skipRawCheck then .next false
      else .stop (some ld.seqNum) (some fault)
    else checkLoad memDepViolator ld rest

/-- The loop over the loads, for one request; the loads as they are left, and how the search ended
if it did. -/
def checkLoads (memDepViolator : Option ℕ) :
    List LqEntry → List LqEntry × Option (Option ℕ × Option ViolationFault)
  | [] => ([], none)
  | ld :: rest =>
    let onward (ld : LqEntry) :=
      let found := checkLoads memDepViolator rest
      (ld :: found.1, found.2)
    if !ld.effAddrValid || ld.strictlyOrdered then onward ld
    else
      match checkLoad depCheckShift isLoad inst req0 memDepViolator ld ld.reqs with
      | .stop v fault => (ld :: rest, some (v, fault))
      | .next mark => onward { ld with possibleLoadViolation := ld.possibleLoadViolation || mark }
end

/-- What `checkViolations` leaves. -/
structure ViolationCheck where
  loads : List LqEntry
  memDepViolator : Option ℕ
  fault : Option ViolationFault

/-- `LSQUnit::checkViolations`, for the requests of an instruction and the loads behind it. -/
def checkViolations (depCheckShift : ℕ) (isLoad : Bool) (inst : ℕ) (memDepViolator : Option ℕ) :
    List MemReq → List LqEntry → ViolationCheck
  | [], loads => ⟨loads, memDepViolator, none⟩
  | req0 :: rest, loads =>
    match checkLoads depCheckShift isLoad inst req0 memDepViolator loads with
    | (loads, some (v, fault)) => ⟨loads, v, fault⟩
    | (loads, none) => checkViolations depCheckShift isLoad inst memDepViolator rest loads

/-! ### What is looked for -/

section
variable (depCheckShift : ℕ)

def LqEntry.Violates (reqs : List MemReq) (ld : LqEntry) : Prop :=
  ld.effAddrValid = true ∧ ld.strictlyOrdered = false ∧ ld.needNukeReplay = false ∧
    ld.skipRawCheck = false ∧
    ∃ r ∈ reqs, ∃ r' ∈ ld.reqs, r.overlaps depCheckShift r' = true

/-- The violator is no younger than any load that violates. -/
def FindsOldest (inst : ℕ) (reqs : List MemReq) (loads : List LqEntry)
    (memDepViolator : Option ℕ) : Prop :=
  ∀ ld ∈ loads, ld.Violates depCheckShift reqs →
    ∃ v, (checkViolations depCheckShift false inst memDepViolator reqs loads).memDepViolator =
      some v ∧ v ≤ ld.seqNum

structure Behind (inst : ℕ) (loads : List LqEntry) : Prop where
  sorted : loads.Pairwise fun ld ld' => ld.seqNum < ld'.seqNum
  younger : ∀ ld ∈ loads, inst < ld.seqNum

/-- The first request covers the range of the others. -/
def FirstCovers : List MemReq → Prop
  | [] => True
  | r :: rest => ∀ r' ∈ rest, r.effAddr1 depCheckShift ≤ r'.effAddr1 depCheckShift ∧
      r'.effAddr2 depCheckShift ≤ r.effAddr2 depCheckShift
end

/-! ### The loads of one request -/

section
variable {depCheckShift inst : ℕ} {req0 : MemReq} {memDepViolator : Option ℕ}

theorem checkLoad_next {ld : LqEntry} {reqs : List MemReq} {mark : Bool}
    (h : checkLoad depCheckShift false inst req0 memDepViolator ld reqs = .next mark) :
    mark = false ∧ (ld.needNukeReplay = true ∨ ld.skipRawCheck = true ∨
      ∀ r ∈ reqs, req0.overlaps depCheckShift r = false) := by
  induction reqs with
  | nil =>
    simp only [checkLoad, LoadCheck.next.injEq] at h
    simp [← h]
  | cons r reqs ih =>
    unfold checkLoad at h
    by_cases hr : req0.overlaps depCheckShift r = true
    · simp only [hr, if_true, Bool.false_eq_true, if_false] at h
      split at h
      · simp at h
      split at h
      case isTrue hnuke => simpa [hnuke] using h.symm
      split at h
      case isTrue hskip => simpa [hskip] using h.symm
      · simp at h
    · rw [if_neg hr] at h
      obtain ⟨hmark, hnuke | hskip | hrest⟩ := ih h
      · exact ⟨hmark, .inl hnuke⟩
      · exact ⟨hmark, .inr (.inl hskip)⟩
      · refine ⟨hmark, .inr (.inr ?_)⟩
        simp only [forall_mem_cons]
        exact ⟨by simpa using hr, hrest⟩

theorem checkLoad_stop {ld : LqEntry} {reqs : List MemReq} {v : Option ℕ}
    {fault : Option ViolationFault}
    (h : checkLoad depCheckShift false inst req0 memDepViolator ld reqs = .stop v fault) :
    ∃ w, v = some w ∧ w ≤ ld.seqNum := by
  induction reqs with
  | nil => simp [checkLoad] at h
  | cons r reqs ih =>
    unfold checkLoad at h
    by_cases hr : req0.overlaps depCheckShift r = true
    · simp only [hr, if_true, Bool.false_eq_true, if_false] at h
      split at h
      case isTrue hnewer =>
        obtain ⟨rfl, -⟩ := LoadCheck.stop.inj h
        cases hv : memDepViolator with
        | none => simp [hv] at hnewer
        | some w =>
          simp only [hv, Option.any_some, decide_eq_true_eq] at hnewer
          exact ⟨w, rfl, hnewer.le⟩
      split at h
      · simp at h
      split at h
      · simp at h
      · obtain ⟨rfl, -⟩ := LoadCheck.stop.inj h
        exact ⟨ld.seqNum, rfl, le_rfl⟩
    · rw [if_neg hr] at h
      exact ih h

variable (depCheckShift inst req0 memDepViolator)

/-- The loop over the loads of one request changes no load, and either it ends with no load that
violates the order, or it stops at the oldest of them or before. -/
def LoadsChecked (loads : List LqEntry) : Prop :=
  (checkLoads depCheckShift false inst req0 memDepViolator loads = (loads, none) ∧
    ∀ ld ∈ loads, ¬ ld.Violates depCheckShift [req0]) ∨
  ∃ w fault, checkLoads depCheckShift false inst req0 memDepViolator loads =
    (loads, some (some w, fault)) ∧
    ∀ ld ∈ loads, ld.Violates depCheckShift [req0] → w ≤ ld.seqNum

theorem loadsChecked {loads : List LqEntry}
    (hsorted : loads.Pairwise fun ld ld' => ld.seqNum < ld'.seqNum) :
    LoadsChecked depCheckShift inst req0 memDepViolator loads := by
  induction loads with
  | nil => exact .inl ⟨rfl, by simp⟩
  | cons ld rest ih =>
    obtain ⟨hfirst, hrest⟩ := pairwise_cons.1 hsorted
    -- the search goes on behind a load that does not violate the order
    have hgo (hpass : checkLoads depCheckShift false inst req0 memDepViolator (ld :: rest) =
          (ld :: (checkLoads depCheckShift false inst req0 memDepViolator rest).1,
            (checkLoads depCheckShift false inst req0 memDepViolator rest).2))
        (hnot : ¬ ld.Violates depCheckShift [req0]) :
        LoadsChecked depCheckShift inst req0 memDepViolator (ld :: rest) := by
      rcases ih hrest with ⟨heq, hnone⟩ | ⟨w, fault, heq, hle⟩
      · refine .inl ⟨by rw [hpass, heq], ?_⟩
        simp only [forall_mem_cons]
        exact ⟨hnot, hnone⟩
      · refine .inr ⟨w, fault, by rw [hpass, heq], ?_⟩
        simp only [forall_mem_cons]
        exact ⟨fun hv => absurd hv hnot, hle⟩
    by_cases hvalid : (!ld.effAddrValid || ld.strictlyOrdered) = true
    · refine hgo (by simp [checkLoads, hvalid]) ?_
      rintro ⟨hv, hs, -⟩
      simp [hv, hs] at hvalid
    · cases hcheck : checkLoad depCheckShift false inst req0 memDepViolator ld ld.reqs with
      | next mark =>
        obtain ⟨rfl, hpass⟩ := checkLoad_next hcheck
        refine hgo (by simp [checkLoads, hvalid, hcheck]) ?_
        rintro ⟨-, -, hnuke, hskip, r, hr, r', hr', hover⟩
        obtain rfl := mem_singleton.1 hr
        rcases hpass with h | h | h
        · simp [hnuke] at h
        · simp [hskip] at h
        · simp [h r' hr'] at hover
      | stop v fault =>
        obtain ⟨w, rfl, hw⟩ := checkLoad_stop hcheck
        refine .inr ⟨w, fault, by simp [checkLoads, hvalid, hcheck], ?_⟩
        simp only [forall_mem_cons]
        exact ⟨fun _ => hw, fun ld' hld' _ => hw.trans (hfirst ld' hld').le⟩
end

/-! ### All requests -/

section
variable {depCheckShift : ℕ}

theorem overlaps_of_covers {r r' r'' : MemReq}
    (h1 : r.effAddr1 depCheckShift ≤ r'.effAddr1 depCheckShift)
    (h2 : r'.effAddr2 depCheckShift ≤ r.effAddr2 depCheckShift)
    (h : r'.overlaps depCheckShift r'' = true) : r.overlaps depCheckShift r'' = true := by
  simp only [overlaps, Bool.and_eq_true, decide_eq_true_eq] at h ⊢
  exact ⟨h.1.trans h2, h1.trans h.2⟩

theorem FirstCovers.violates {req0 : MemReq} {rest : List MemReq}
    (hcov : FirstCovers depCheckShift (req0 :: rest)) {ld : LqEntry}
    (h : ld.Violates depCheckShift (req0 :: rest)) : ld.Violates depCheckShift [req0] := by
  obtain ⟨hvalid, hordered, hnuke, hskip, r, hr, r', hr', hover⟩ := h
  refine ⟨hvalid, hordered, hnuke, hskip, req0, mem_singleton_self _, r', hr', ?_⟩
  rcases mem_cons.1 hr with rfl | hr
  · exact hover
  · exact overlaps_of_covers (hcov r hr).1 (hcov r hr).2 hover

def byteLqEntry (seqNum addr : ℕ) (h : addr + 1 < 2 ^ 64) : LqEntry where
  seqNum := seqNum
  effAddrValid := true
  strictlyOrdered := false
  needNukeReplay := false
  skipRawCheck := false
  hitExternalSnoop := false
  possibleLoadViolation := false
  reqs := [⟨addr, 1, Nat.one_pos, h⟩]

theorem overlaps_byte {r : MemReq} {addr : ℕ} (h : addr + 1 < 2 ^ 64) :
    r.overlaps depCheckShift ⟨addr, 1, Nat.one_pos, h⟩ = true ↔
      r.effAddr1 depCheckShift ≤ addr >>> depCheckShift ∧
        addr >>> depCheckShift ≤ r.effAddr2 depCheckShift := by
  simp only [overlaps, effAddr1, effAddr2, Bool.and_eq_true,
    decide_eq_true_eq, Nat.add_sub_cancel, ge_iff_le]
  exact and_comm

theorem effAddr1_le_effAddr2 (r : MemReq) :
    r.effAddr1 depCheckShift ≤ r.effAddr2 depCheckShift := by
  have hsize := r.size_pos
  rw [effAddr1, effAddr2, Nat.shiftRight_eq_div_pow, Nat.shiftRight_eq_div_pow]
  exact Nat.div_le_div_right (by omega)

theorem not_findsOldest (inst : ℕ) {req0 r : MemReq} {rest : List MemReq} (hr : r ∈ rest)
    (addr : ℕ) (haddr : addr + 1 < 2 ^ 64)
    (hin : r.effAddr1 depCheckShift ≤ addr >>> depCheckShift ∧
      addr >>> depCheckShift ≤ r.effAddr2 depCheckShift)
    (hout : ¬ (req0.effAddr1 depCheckShift ≤ addr >>> depCheckShift ∧
      addr >>> depCheckShift ≤ req0.effAddr2 depCheckShift)) :
    ∃ loads, Behind inst loads ∧ ¬ FindsOldest depCheckShift inst (req0 :: rest) loads none := by
  have haddr0 : req0.paddr + 1 < 2 ^ 64 := by
    have := req0.size_pos
    have := req0.end_lt
    omega
  refine ⟨[byteLqEntry (inst + 1) addr haddr, byteLqEntry (inst + 2) req0.paddr haddr0], ⟨?_, ?_⟩,
    fun h => ?_⟩
  · simp [byteLqEntry]
  · simp [byteLqEntry]
  · have hmiss : req0.overlaps depCheckShift ⟨addr, 1, Nat.one_pos, haddr⟩ = false := by
      rw [← Bool.not_eq_true, overlaps_byte]
      exact hout
    have hhit : req0.overlaps depCheckShift ⟨req0.paddr, 1, Nat.one_pos, haddr0⟩ = true :=
      (overlaps_byte haddr0).2 ⟨le_rfl, effAddr1_le_effAddr2 req0⟩
    have hviolates : (byteLqEntry (inst + 1) addr haddr).Violates depCheckShift (req0 :: rest) :=
      ⟨rfl, rfl, rfl, rfl, r, mem_cons_of_mem _ hr, _, mem_singleton_self _,
        (overlaps_byte haddr).2 hin⟩
    obtain ⟨v, hv, hle⟩ := h _ mem_cons_self hviolates
    have hblamed : (checkViolations depCheckShift false inst none (req0 :: rest)
        [byteLqEntry (inst + 1) addr haddr, byteLqEntry (inst + 2) req0.paddr haddr0]
        ).memDepViolator = some (inst + 2) := by
      simp [checkViolations, checkLoads, checkLoad, byteLqEntry, hmiss, hhit]
    rw [hblamed] at hv
    cases hv
    simp [byteLqEntry] at hle

/-- The loads that a store blames are the oldest for all load queues exactly if its first request
covers the others. -/
theorem findsOldest_iff (depCheckShift inst : ℕ) (reqs : List MemReq) :
    (∀ loads memDepViolator, Behind inst loads →
      FindsOldest depCheckShift inst reqs loads memDepViolator) ↔
    FirstCovers depCheckShift reqs := by
  constructor
  · intro h
    cases reqs with
    | nil => trivial
    | cons req0 rest =>
      intro r hr
      by_contra hnot
      have hend := r.end_lt
      have hpos := r.size_pos
      have hle : r.effAddr1 depCheckShift ≤ r.effAddr2 depCheckShift := effAddr1_le_effAddr2 r
      rw [not_and_or, not_le, not_le] at hnot
      rcases hnot with hlow | hhigh
      · obtain ⟨loads, hbehind, hbad⟩ := not_findsOldest inst hr r.paddr
          (by omega) ⟨le_rfl, hle⟩ fun hc => absurd hc.1 (not_le.2 hlow)
        exact hbad (h loads none hbehind)
      · obtain ⟨loads, hbehind, hbad⟩ := not_findsOldest inst hr
          (r.paddr + r.size - 1) (by omega) ⟨hle, le_rfl⟩ fun hc =>
            absurd hc.2 (not_le.2 hhigh)
        exact hbad (h loads none hbehind)
  · intro hcov loads memDepViolator hbehind ld hld hviolates
    cases reqs with
    | nil =>
      obtain ⟨-, -, -, -, r, hr, -⟩ := hviolates
      simp at hr
    | cons req0 rest =>
      have hfirst := hcov.violates hviolates
      rcases loadsChecked depCheckShift inst req0 memDepViolator hbehind.sorted with
        ⟨-, hnone⟩ | ⟨w, fault, heq, hle⟩
      · exact absurd hfirst (hnone ld hld)
      · exact ⟨w, by rw [checkViolations, heq], hle ld hld hfirst⟩

theorem split_lt : 60 + 4 < 2 ^ 64 ∧ 64 + 4 < 2 ^ 64 ∧ 60 + 1 < 2 ^ 64 ∧ 64 + 1 < 2 ^ 64 := by
  decide

def splitStore : List MemReq :=
  [⟨60, 4, Nat.succ_pos 3, split_lt.1⟩, ⟨64, 4, Nat.succ_pos 3, split_lt.2.1⟩]

def crossedLoads : List LqEntry :=
  [byteLqEntry 5 64 split_lt.2.2.2, byteLqEntry 7 60 split_lt.2.2.1]

/-- The younger load is blamed, and the older one commits what it has read. -/
theorem crossedLoads_missed :
    Behind 3 crossedLoads ∧
      (checkViolations 4 false 3 none splitStore crossedLoads).memDepViolator = some 7 ∧
      ¬ FindsOldest 4 3 splitStore crossedLoads none := by
  have hblamed : (checkViolations 4 false 3 none splitStore crossedLoads).memDepViolator = some 7 :=
    rfl
  refine ⟨⟨by simp [crossedLoads, byteLqEntry], by simp [crossedLoads, byteLqEntry]⟩, hblamed,
    fun h => ?_⟩
  have hviolates : (byteLqEntry 5 64 split_lt.2.2.2).Violates 4 splitStore :=
    ⟨rfl, rfl, rfl, rfl, _, mem_cons_of_mem _ mem_cons_self, _, mem_cons_self, rfl⟩
  obtain ⟨v, hv, hle⟩ := h _ mem_cons_self hviolates
  cases hv
  simp [byteLqEntry] at hle
end
end Gem5
