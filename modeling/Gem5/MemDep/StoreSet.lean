import Gem5.Arch.Reg

/-!
# The store set predictor

The SSIT gives a store set to the index of a program counter, and the LFST holds, for each store
set, the stores that were inserted under it.  A violation gives sets to the load and the store or
merges theirs; an issued store is looked for in the set that its index has now.

A valid bit and its entry are an `Option`.  The program counters in the LFST and the count of
predictions are not read by anything.  The asserts compare a fold with the size of a table
(`foldRounds_lt`).
-/

namespace Gem5
open List Function Except

theorem Except.exists_of_bind {ε α β : Type} {x : Except ε α} {f : α → Except ε β} {b : β}
    (h : (x >>= f) = .ok b) : ∃ a, x = .ok a ∧ f a = .ok b := by
  cases x with
  | error e => cases h
  | ok a => exact ⟨a, rfl, h⟩

open Except

structure StoreSetConfig where
  ssitBits : ℕ
  lfstBits : ℕ
  lfstEntrySize : ℕ
  clearPeriodThreshold : ℕ

structure StoreSet where
  ssit : ℕ → Option ℕ
  ssitStrict : ℕ → Bool
  lfst : ℕ → ℕ → Option ℕ
  victimEntryID : ℕ → ℕ
  lastClearPeriodCycle : ℕ

/-! ### Indices -/

/-- The loop of `XORFold`. -/
def foldRounds (width : ℕ) : ℕ → ℕ → ℕ
  | 0, _ => 0
  | rounds + 1, pc => (pc % 2 ^ width) ^^^ foldRounds width rounds (pc >>> width)

theorem foldRounds_lt (width rounds pc : ℕ) : foldRounds width rounds pc < 2 ^ width := by
  induction rounds generalizing pc with
  | zero => exact Nat.two_pow_pos width
  | succ rounds ih => exact Nat.xor_lt_two_pow (Nat.mod_lt _ (Nat.two_pow_pos width)) (ih _)

def XORFold (pc width : ℕ) : Except String ℕ :=
  if width = 0 then .error "division by zero"
  else .ok (foldRounds width ((64 + width - 1) / width) pc)

def StoreSetConfig.calcIndexSSIT (cfg : StoreSetConfig) (pc : Addr) : Except String ℕ :=
  XORFold pc.toNat cfg.ssitBits

def StoreSetConfig.calcSSID (cfg : StoreSetConfig) (pc : Addr) : Except String ℕ := do
  let index ← XORFold pc.toNat cfg.ssitBits
  XORFold index cfg.lfstBits

namespace StoreSet
variable (cfg : StoreSetConfig)

def init : StoreSet where
  ssit _ := none
  ssitStrict _ := false
  lfst _ _ := none
  victimEntryID _ := 0
  lastClearPeriodCycle := 0

def setSSIT (index ssid : ℕ) (s : StoreSet) : StoreSet :=
  { s with ssit := Function.update s.ssit index (some ssid) }

def setLFST (ssid : ℕ) (slots : ℕ → Option ℕ) (s : StoreSet) : StoreSet :=
  { s with lfst := Function.update s.lfst ssid slots }

def violation (storePC loadPC : Addr) (s : StoreSet) : Except String StoreSet := do
  let loadIndex ← cfg.calcIndexSSIT loadPC
  let storeIndex ← cfg.calcIndexSSIT storePC
  match s.ssit loadIndex, s.ssit storeIndex with
  | none, none =>
    let ldNewSet ← cfg.calcSSID loadPC
    let sdNewSet ← cfg.calcSSID storePC
    .ok ((s.setSSIT loadIndex ldNewSet).setSSIT storeIndex sdNewSet)
  | some _, none =>
    let sdNewSet ← cfg.calcSSID storePC
    .ok (s.setSSIT storeIndex sdNewSet)
  | none, some _ =>
    let ldNewSet ← cfg.calcSSID loadPC
    .ok (s.setSSIT loadIndex ldNewSet)
  | some loadSSID, some storeSSID =>
    if storeSSID > loadSSID then .ok (s.setSSIT storeIndex loadSSID)
    else if storeSSID = loadSSID then
      .ok { s.setSSIT loadIndex storeSSID with
        ssitStrict := Function.update s.ssitStrict loadIndex true }
    else .ok (s.setSSIT loadIndex storeSSID)

def clear (s : StoreSet) : StoreSet :=
  { s with ssit := fun _ => none, lfst := fun _ _ => none }

/-- Whether `checkClear` clears; the difference of the cycles is one of 64 bit integers. -/
def clears (curCycle : ℕ) (s : StoreSet) : Bool :=
  if s.lastClearPeriodCycle ≤ curCycle then
    decide (curCycle - s.lastClearPeriodCycle > cfg.clearPeriodThreshold)
  else decide (curCycle + 2 ^ 64 - s.lastClearPeriodCycle > cfg.clearPeriodThreshold)

def checkClear (curCycle : ℕ) (s : StoreSet) : StoreSet :=
  if s.clears cfg curCycle then { s.clear with lastClearPeriodCycle := curCycle } else s

def findVictimInLFSTEntry (ssid : ℕ) (s : StoreSet) : Except String (ℕ × StoreSet) :=
  match (List.range cfg.lfstEntrySize).find? fun j => (s.lfst ssid j).isNone with
  | some j => .ok (j, s)
  | none =>
    if cfg.lfstEntrySize = 0 then .error "division by zero"
    else
      let victim := (s.victimEntryID ssid + 1) % cfg.lfstEntrySize
      .ok (victim, { s with victimEntryID := Function.update s.victimEntryID ssid victim })

def insertStore (storePC : Addr) (seqNum curCycle : ℕ) (s : StoreSet) :
    Except String StoreSet := do
  let index ← cfg.calcIndexSSIT storePC
  let s := s.checkClear cfg curCycle
  match s.ssit index with
  | none => .ok s
  | some ssid =>
    let r ← s.findVictimInLFSTEntry cfg ssid
    .ok (r.2.setLFST ssid (Function.update (r.2.lfst ssid) r.1 (some seqNum)))

def checkInstStrict (pc : Addr) (s : StoreSet) : Except String Bool := do
  let index ← cfg.calcIndexSSIT pc
  .ok ((s.ssit index).isSome && s.ssitStrict index)

def checkInst (pc : Addr) (s : StoreSet) : Except String (List ℕ) := do
  let index ← cfg.calcIndexSSIT pc
  match s.ssit index with
  | none => .ok []
  | some ssid => .ok ((List.range cfg.lfstEntrySize).filterMap (s.lfst ssid))

/-- `issued`, for a store. -/
def issued (pc : Addr) (seqNum : ℕ) (s : StoreSet) : Except String StoreSet := do
  let index ← cfg.calcIndexSSIT pc
  match s.ssit index with
  | none => .ok s
  | some ssid => .ok (s.setLFST ssid fun j => (s.lfst ssid j).filter (· ≠ seqNum))

def squash (squashedNum : ℕ) (s : StoreSet) : StoreSet :=
  { s with lfst := fun ssid j => (s.lfst ssid j).filter (· ≤ squashedNum) }

/-! ### What a call changes -/

variable {cfg} {s t : StoreSet} {pc storePC loadPC : Addr} {seqNum curCycle : ℕ}

theorem violation_spec (h : s.violation cfg storePC loadPC = .ok t) :
    ∃ i j, cfg.calcIndexSSIT loadPC = .ok i ∧ cfg.calcIndexSSIT storePC = .ok j ∧
      t.lfst = s.lfst ∧ t.ssitStrict =
        if (s.ssit i).isSome ∧ s.ssit i = s.ssit j then update s.ssitStrict i true
        else s.ssitStrict := by
  obtain ⟨i, hi, h⟩ := exists_of_bind h
  obtain ⟨j, hj, h⟩ := exists_of_bind h
  refine ⟨i, j, hi, hj, ?_⟩
  split at h
  case h_1 hload hstore =>
    obtain ⟨x, -, h⟩ := exists_of_bind h
    obtain ⟨y, -, h⟩ := exists_of_bind h
    cases h
    simp [setSSIT, hload]
  case h_2 hload hstore =>
    obtain ⟨y, -, h⟩ := exists_of_bind h
    cases h
    simp [setSSIT, hload, hstore]
  case h_3 hload hstore =>
    obtain ⟨x, -, h⟩ := exists_of_bind h
    cases h
    simp [setSSIT, hload]
  case h_4 x y hload hstore =>
    split_ifs at h with hgt heq
    · cases h
      simp [setSSIT, hload, hstore, show x ≠ y by omega]
    · cases h
      simp [setSSIT, hload, hstore, heq]
    · cases h
      simp [setSSIT, hload, hstore, Ne.symm heq]

@[simp] theorem checkClear_strict : (s.checkClear cfg curCycle).ssitStrict = s.ssitStrict := by
  rw [checkClear]
  generalize s.clears cfg curCycle = c
  cases c <;> rfl

theorem checkClear_lfst {ssid j n : ℕ} (h : (s.checkClear cfg curCycle).lfst ssid j = some n) :
    s.lfst ssid j = some n := by
  rw [checkClear] at h
  generalize s.clears cfg curCycle = c at h
  cases c with
  | true => cases h
  | false => exact h

theorem insertStore_spec (h : s.insertStore cfg storePC seqNum curCycle = .ok t) :
    ∃ i, cfg.calcIndexSSIT storePC = .ok i ∧ t.ssitStrict = s.ssitStrict ∧
      ∀ ssid j n, t.lfst ssid j = some n → s.lfst ssid j = some n ∨
        n = seqNum ∧ (s.checkClear cfg curCycle).ssit i = some ssid := by
  obtain ⟨i, hi, h⟩ := exists_of_bind h
  refine ⟨i, hi, ?_⟩
  dsimp only at h
  split at h
  · cases h
    exact ⟨checkClear_strict, fun _ _ _ hn => .inl (checkClear_lfst hn)⟩
  · rename_i set hset
    obtain ⟨⟨v, u⟩, hv, h⟩ := exists_of_bind h
    cases h
    have hu : u.lfst = (s.checkClear cfg curCycle).lfst ∧
        u.ssitStrict = (s.checkClear cfg curCycle).ssitStrict := by
      unfold findVictimInLFSTEntry at hv
      split at hv
      · cases hv
        exact ⟨rfl, rfl⟩
      · split_ifs at hv
        cases hv
        exact ⟨rfl, rfl⟩
    refine ⟨hu.2.trans checkClear_strict, fun ssid j n hn => ?_⟩
    rw [setLFST] at hn
    dsimp only at hn
    rw [hu.1] at hn
    by_cases hssid : ssid = set
    · subst hssid
      rw [update_self] at hn
      by_cases hj : j = v
      · subst hj
        rw [update_self, Option.some.injEq] at hn
        exact .inr ⟨hn.symm, hset⟩
      · rw [update_of_ne hj] at hn
        exact .inl (checkClear_lfst hn)
    · rw [update_of_ne hssid] at hn
      exact .inl (checkClear_lfst hn)

theorem issued_spec (h : s.issued cfg pc seqNum = .ok t) :
    ∃ i, cfg.calcIndexSSIT pc = .ok i ∧ t.ssitStrict = s.ssitStrict ∧
      ∀ ssid j n, t.lfst ssid j = some n →
        s.lfst ssid j = some n ∧ ¬ (n = seqNum ∧ s.ssit i = some ssid) := by
  obtain ⟨i, hi, h⟩ := exists_of_bind h
  refine ⟨i, hi, ?_⟩
  split at h
  · rename_i hnone
    cases h
    exact ⟨rfl, fun _ _ _ hn => ⟨hn, by simp [hnone]⟩⟩
  · rename_i set hset
    cases h
    refine ⟨rfl, fun ssid j n hn => ?_⟩
    rw [setLFST] at hn
    dsimp only at hn
    by_cases hssid : ssid = set
    · subst hssid
      simp only [update_self, Option.filter_eq_some_iff, decide_eq_true_eq] at hn
      exact ⟨hn.1, fun hne => hn.2 hne.1⟩
    · rw [update_of_ne hssid] at hn
      refine ⟨hn, fun hne => hssid ?_⟩
      rw [hset, Option.some.injEq] at hne
      exact hne.2.symm
end StoreSet

open StoreSet

/-! ### Runs -/

structure InsertedStore where
  pc : Addr
  seqNum : ℕ
  ssid : Option ℕ

/-- The predictor and the record of the calls: the inserted stores, those that have issued or were
squashed, those that issued when their index had another set than at their insertion (with that
set), and the indices for which a strict wait was earned since the last clear and ever. -/
structure StoreRun where
  table : StoreSet
  inserted : List InsertedStore
  gone : List ℕ
  missed : List (ℕ × ℕ)
  earned : List ℕ
  everEarned : List ℕ

/-- A call.  `checkInst` and `checkInstStrict` change nothing. -/
inductive StoreEvent
  | violation (storePC loadPC : Addr)
  | insertLoad (curCycle : ℕ)
  | insertStore (storePC : Addr) (seqNum curCycle : ℕ)
  | issued (pc : Addr) (seqNum : ℕ)
  | squash (squashedNum : ℕ)

namespace StoreRun
variable (cfg : StoreSetConfig)

def init : StoreRun := ⟨.init, [], [], [], [], []⟩

def numbers (r : StoreRun) : List ℕ :=
  r.inserted.map InsertedStore.seqNum

/-- What is earned since the last clear, after a call of `checkClear`. -/
def earnedAfter (curCycle : ℕ) (r : StoreRun) : List ℕ :=
  if r.table.clears cfg curCycle then [] else r.earned

def step (r : StoreRun) : StoreEvent → Except String StoreRun
  | .violation storePC loadPC => do
    let table ← r.table.violation cfg storePC loadPC
    let i ← cfg.calcIndexSSIT loadPC
    let j ← cfg.calcIndexSSIT storePC
    let new := if (r.table.ssit i).isSome ∧ r.table.ssit i = r.table.ssit j then [i] else []
    .ok { r with
      table := table
      earned := new ++ r.earned
      everEarned := new ++ r.everEarned }
  | .insertLoad curCycle =>
    .ok { r with table := r.table.checkClear cfg curCycle, earned := r.earnedAfter cfg curCycle }
  | .insertStore storePC seqNum curCycle => do
    let table ← r.table.insertStore cfg storePC seqNum curCycle
    let i ← cfg.calcIndexSSIT storePC
    let ssid := (r.table.checkClear cfg curCycle).ssit i
    .ok { r with
      table := table
      inserted := ⟨storePC, seqNum, ssid⟩ :: r.inserted
      earned := r.earnedAfter cfg curCycle }
  | .issued pc seqNum => do
    let table ← r.table.issued cfg pc seqNum
    let i ← cfg.calcIndexSSIT pc
    let missed := r.inserted.filter fun e => e.seqNum = seqNum ∧ e.ssid ≠ r.table.ssit i
    .ok { r with
      table := table
      gone := seqNum :: r.gone
      missed := missed.filterMap (fun e => e.ssid.map (·, seqNum)) ++ r.missed }
  | .squash squashedNum =>
    .ok { r with
      table := r.table.squash squashedNum
      gone := r.numbers.filter (· > squashedNum) ++ r.gone }

/-- The runs in which every call is as `guard` says. -/
inductive Reachable (guard : StoreRun → StoreEvent → Prop) : StoreRun → Prop
  | init : Reachable guard init
  | step {r r' : StoreRun} (e : StoreEvent) : Reachable guard r → guard r e →
      r.step cfg e = .ok r' → Reachable guard r'

/-- Stores have numbers of their own, and only an inserted one issues, with its program counter. -/
def Allowed (r : StoreRun) : StoreEvent → Prop
  | .insertStore _ seqNum _ => seqNum ∉ r.numbers
  | .issued pc seqNum => ∃ e ∈ r.inserted, e.pc = pc ∧ e.seqNum = seqNum
  | _ => True

/-- What `checkInst` returns was inserted, and has neither issued nor been squashed. -/
def NamesInFlight (r : StoreRun) : Prop :=
  ∀ pc ns, r.table.checkInst cfg pc = .ok ns → ∀ n ∈ ns, n ∈ r.numbers ∧ n ∉ r.gone

/-- No instruction has a set with a store that was missed. -/
def MissedHidden (r : StoreRun) : Prop :=
  ∀ p ∈ r.missed, ∀ pc i, cfg.calcIndexSSIT pc = .ok i → r.table.ssit i = some p.1 →
    ∀ j < cfg.lfstEntrySize, r.table.lfst p.1 j ≠ some p.2

/-! ### Stores in flight -/

/-- A slot holds a store that was inserted under its set, and one that is gone has missed it. -/
structure Named (r : StoreRun) : Prop where
  nodup : r.numbers.Nodup
  gone {n : ℕ} : n ∈ r.gone → n ∈ r.numbers
  missed {p : ℕ × ℕ} : p ∈ r.missed → p.2 ∈ r.gone
  slot {ssid j n : ℕ} : r.table.lfst ssid j = some n →
    (∃ e ∈ r.inserted, e.seqNum = n ∧ e.ssid = some ssid) ∧ (n ∈ r.gone → (ssid, n) ∈ r.missed)

variable {cfg} {r r' : StoreRun} {e : StoreEvent}

theorem named_init : Named init :=
  ⟨nodup_nil, fun h => (not_mem_nil h).elim, fun h => (not_mem_nil h).elim, fun h => by cases h⟩

theorem Named.step (hr : r.Named) (he : r.Allowed e) (h : r.step cfg e = .ok r') : r'.Named := by
  cases e with
  | violation storePC loadPC =>
    obtain ⟨t, ht, h⟩ := exists_of_bind h
    obtain ⟨i, -, h⟩ := exists_of_bind h
    obtain ⟨j, -, h⟩ := exists_of_bind h
    cases h
    obtain ⟨-, -, -, -, hlfst, -⟩ := violation_spec ht
    refine ⟨hr.nodup, hr.gone, hr.missed, fun {ssid j n} hslot => ?_⟩
    rw [hlfst] at hslot
    exact hr.slot hslot
  | insertLoad curCycle =>
    cases h
    exact ⟨hr.nodup, hr.gone, hr.missed, fun hslot => hr.slot (checkClear_lfst hslot)⟩
  | insertStore storePC seqNum curCycle =>
    obtain ⟨t, ht, h⟩ := exists_of_bind h
    obtain ⟨i, hi, h⟩ := exists_of_bind h
    cases h
    obtain ⟨i', hi', -, hslots⟩ := insertStore_spec ht
    obtain rfl := ok.inj (hi.symm.trans hi')
    refine ⟨nodup_cons.2 ⟨he, hr.nodup⟩, fun hn => mem_cons_of_mem _ (hr.gone hn),
      hr.missed, fun {ssid j n} hslot => ?_⟩
    rcases hslots ssid j n hslot with hold | ⟨rfl, hset⟩
    · obtain ⟨⟨x, hx, hxn⟩, hgone⟩ := hr.slot hold
      exact ⟨⟨x, mem_cons_of_mem _ hx, hxn⟩, hgone⟩
    · exact ⟨⟨_, mem_cons_self, rfl, hset⟩, fun hn => absurd (hr.gone hn) he⟩
  | issued pc seqNum =>
    obtain ⟨t, ht, h⟩ := exists_of_bind h
    obtain ⟨i, hi, h⟩ := exists_of_bind h
    cases h
    obtain ⟨i', hi', -, hslots⟩ := issued_spec ht
    obtain rfl := ok.inj (hi.symm.trans hi')
    obtain ⟨x, hx, -, rfl⟩ := he
    refine ⟨hr.nodup, ?_, ?_, fun {ssid j n} hslot => ?_⟩
    · rintro n hn
      rcases mem_cons.1 hn with rfl | hn
      · exact mem_map_of_mem hx
      · exact hr.gone hn
    · intro p hp
      rcases mem_append.1 hp with hp | hp
      · obtain ⟨y, -, hy⟩ := mem_filterMap.1 hp
        obtain ⟨k, -, rfl⟩ := Option.map_eq_some_iff.1 hy
        exact mem_cons_self
      · exact mem_cons_of_mem _ (hr.missed hp)
    · obtain ⟨hold, hne⟩ := hslots ssid j n hslot
      obtain ⟨⟨y, hy, hyn, hyset⟩, hgone⟩ := hr.slot hold
      refine ⟨⟨y, hy, hyn, hyset⟩, fun hn => ?_⟩
      rcases mem_cons.1 hn with hn | hn
      · -- the slot of the store that issues is in the set of its insertion
        refine mem_append_left _ (mem_filterMap.2 ⟨y, mem_filter.2 ⟨hy, ?_⟩, ?_⟩)
        · rw [decide_eq_true_eq, hyset]
          exact ⟨hyn.trans hn, fun hset => hne ⟨hn, hset.symm⟩⟩
        · rw [hyset, hn]
          rfl
      · exact mem_append_right _ (hgone hn)
  | squash squashedNum =>
    cases h
    refine ⟨hr.nodup, fun hn => ?_, fun hp => mem_append_right _ (hr.missed hp),
      fun {ssid j n} hslot => ?_⟩
    · rcases mem_append.1 hn with hn | hn
      · exact (mem_filter.1 hn).1
      · exact hr.gone hn
    · obtain ⟨hold, hle⟩ := Option.filter_eq_some_iff.1 hslot
      obtain ⟨hinserted, hgone⟩ := hr.slot hold
      refine ⟨hinserted, fun hn => ?_⟩
      rcases mem_append.1 hn with hn | hn
      · have hgt := (mem_filter.1 hn).2
        simp only [decide_eq_true_eq] at hgt hle
        omega
      · exact hgone hn

theorem Reachable.named (h : Reachable cfg Allowed r) : r.Named := by
  induction h with
  | init => exact named_init
  | step e _ he hstep ih => exact ih.step he hstep

theorem mem_checkInst_iff {pc : Addr} {i n : ℕ} (hi : cfg.calcIndexSSIT pc = .ok i) :
    (∃ ns, r.table.checkInst cfg pc = .ok ns ∧ n ∈ ns) ↔ ∃ ssid, r.table.ssit i = some ssid ∧
        ∃ j < cfg.lfstEntrySize, r.table.lfst ssid j = some n := by
  rw [checkInst, hi]
  cases hssid : r.table.ssit i with
  | none => simp [bind, Except.bind, hssid]
  | some ssid => simp [bind, Except.bind, hssid]

/-- **The stores that the LFST names.** -/
theorem names_inFlight_iff (cfg : StoreSetConfig) {r : StoreRun} (h : Reachable cfg Allowed r) :
    r.NamesInFlight cfg ↔ r.MissedHidden cfg := by
  have hr := h.named
  constructor
  · rintro hnames ⟨ssid, n⟩ hp pc i hi hssid j hj hslot
    obtain ⟨ns, hns, hn⟩ := (mem_checkInst_iff hi).2 ⟨ssid, hssid, j, hj, hslot⟩
    exact (hnames pc ns hns n hn).2 (hr.missed hp)
  · intro hhidden pc ns hns n hn
    obtain ⟨i, hi, -⟩ := Except.exists_of_bind hns
    obtain ⟨ssid, hssid, j, hj, hslot⟩ := (mem_checkInst_iff hi).1 ⟨ns, hns, hn⟩
    obtain ⟨⟨x, hx, hxn, -⟩, hgone⟩ := hr.slot hslot
    refine ⟨hxn ▸ mem_map_of_mem hx, fun hn => ?_⟩
    exact hhidden _ (hgone hn) pc i hi hssid j hj hslot

def smallSets : StoreSetConfig := ⟨2, 1, 1, 10⟩

/-- A store is inserted under the set 1, a violation moves its index to the set 0, the store issues,
and a violation gives the set 1 to a load. -/
theorem moved_store_named :
    ∃ r, Reachable smallSets Allowed r ∧ ¬ r.NamesInFlight smallSets := by
  have hrun : Reachable smallSets Allowed _ :=
    .step (.violation 1 2) (.step (.issued 1 7) (.step (.violation 1 0) (.step (.insertStore 1 7 0)
      (.step (.violation 1 0) .init trivial rfl) not_mem_nil rfl) trivial rfl)
      ⟨_, mem_cons_self, rfl, rfl⟩ rfl) trivial rfl
  refine ⟨_, hrun, fun hnames => ?_⟩
  exact (hnames 2 [7] rfl 7 mem_cons_self).2 mem_cons_self

/-- The one store of a set is named while it is in flight. -/
theorem first_store_named : ∃ r, Reachable smallSets Allowed r ∧
    r.table.checkInst smallSets 1 = .ok [7] ∧ r.NamesInFlight smallSets := by
  have hrun : Reachable smallSets Allowed _ :=
    .step (.insertStore 1 7 0) (.step (.violation 1 0) .init trivial rfl) not_mem_nil rfl
  exact ⟨_, hrun, rfl, (names_inFlight_iff smallSets hrun).2 fun _ hp => (not_mem_nil hp).elim⟩

/-! ### Strict waits -/

/-- Who waits strictly has earned it by violations. -/
def StrictEarned (cfg : StoreSetConfig) (r : StoreRun) : Prop :=
  ∀ pc, r.table.checkInstStrict cfg pc = .ok true →
    ∃ i ∈ r.earned, cfg.calcIndexSSIT pc = .ok i

theorem step_strict (h : r.step cfg e = .ok r')
    (hr : ∀ i, r.table.ssitStrict i = true ↔ i ∈ r.everEarned) (i : ℕ) :
    r'.table.ssitStrict i = true ↔ i ∈ r'.everEarned := by
  cases e with
  | violation storePC loadPC =>
    obtain ⟨t, ht, h⟩ := exists_of_bind h
    obtain ⟨k, hk, h⟩ := exists_of_bind h
    obtain ⟨l, hl, h⟩ := exists_of_bind h
    cases h
    obtain ⟨k', l', hk', hl', -, hstrict⟩ := violation_spec ht
    obtain rfl := ok.inj (hk.symm.trans hk')
    obtain rfl := ok.inj (hl.symm.trans hl')
    rw [hstrict]
    split_ifs
    · by_cases hi : i = k
      · simp [hi]
      · rw [update_of_ne hi, hr]
        simp [hi]
    · rw [hr]
      rfl
  | insertLoad curCycle =>
    cases h
    rw [← hr, checkClear_strict]
  | insertStore storePC seqNum curCycle =>
    obtain ⟨t, ht, h⟩ := exists_of_bind h
    obtain ⟨k, -, h⟩ := exists_of_bind h
    cases h
    obtain ⟨-, -, hstrict, -⟩ := insertStore_spec ht
    rw [← hr, hstrict]
  | issued pc seqNum =>
    obtain ⟨t, ht, h⟩ := exists_of_bind h
    obtain ⟨k, -, h⟩ := exists_of_bind h
    cases h
    obtain ⟨-, -, hstrict, -⟩ := issued_spec ht
    rw [← hr, hstrict]
  | squash squashedNum =>
    cases h
    exact hr i

theorem Reachable.strict_iff {guard : StoreRun → StoreEvent → Prop} (h : Reachable cfg guard r)
    (i : ℕ) : r.table.ssitStrict i = true ↔ i ∈ r.everEarned := by
  induction h generalizing i with
  | init => simp [StoreRun.init, StoreSet.init]
  | step e _ _ hstep ih => exact step_strict hstep ih i

/-- **Strict waits.** -/
theorem strict_earned_iff (cfg : StoreSetConfig) {r : StoreRun}
    (h : Reachable cfg (fun _ _ => True) r) :
    r.StrictEarned cfg ↔ ∀ pc i, cfg.calcIndexSSIT pc = .ok i → (r.table.ssit i).isSome →
      i ∈ r.everEarned → i ∈ r.earned := by
  have hstrict (pc : Addr) {i : ℕ} (hi : cfg.calcIndexSSIT pc = .ok i) :
      r.table.checkInstStrict cfg pc = .ok true ↔ (r.table.ssit i).isSome ∧ i ∈ r.everEarned := by
    rw [checkInstStrict, hi, ← h.strict_iff]
    simp [bind, Except.bind]
  constructor
  · intro hearned pc i hi hsome hever
    obtain ⟨k, hk, hk'⟩ := hearned pc ((hstrict pc hi).2 ⟨hsome, hever⟩)
    obtain rfl := ok.inj (hi.symm.trans hk')
    exact hk
  · intro hall pc hpc
    obtain ⟨i, hi, -⟩ := Except.exists_of_bind hpc
    obtain ⟨hsome, hever⟩ := (hstrict pc hi).1 hpc
    exact ⟨i, hall pc i hi hsome hever, hi⟩

/-- A strict wait is earned, everything is cleared, and a violation gives the sets again. -/
theorem cleared_strict : ∃ r, Reachable smallSets (fun _ _ => True) r ∧
    ¬ r.StrictEarned smallSets := by
  have hrun : Reachable smallSets (fun _ _ => True) _ :=
    .step (.violation 2 1) (.step (.insertLoad 11) (.step (.violation 2 1)
      (.step (.violation 2 1) .init trivial rfl) trivial rfl) trivial rfl) trivial rfl
  refine ⟨_, hrun, fun hearned => ?_⟩
  obtain ⟨i, hi, -⟩ := hearned 1 rfl
  exact not_mem_nil hi

/-- Two violations of one pair earn a strict wait. -/
theorem strict_wait_earned : ∃ r, Reachable smallSets (fun _ _ => True) r ∧
    r.table.checkInstStrict smallSets 1 = .ok true ∧ r.StrictEarned smallSets := by
  have hrun : Reachable smallSets (fun _ _ => True) _ :=
    .step (.violation 2 1) (.step (.violation 2 1) .init trivial rfl) trivial rfl
  exact ⟨_, hrun, rfl, (strict_earned_iff smallSets hrun).2 fun _ _ _ _ hever => hever⟩
end StoreRun
end Gem5
