import Gem5.Lsq.Refine

/-!
# Store-to-load forwarding

A load looks for its bytes in the queue of the older stores, from the youngest to the oldest, then
in the store buffer, then in the cache.

The asserts and panics of the source are errors.
-/

namespace Gem5
open List Except
open Overlay (layOver stack writePoints)

/-! ### The store queue -/

/-- A request of a store.  `start` is the place of its first byte in the store; there is no
`byteEnable` if all bytes are enabled.  No physical range ends behind the last address. -/
structure StoreReq where
  paddr : ℕ
  size : ℕ
  byteEnable : List Bool
  start : ℕ
  end_lt : paddr + size < 2 ^ 64

def StoreReq.bytes (value : ℕ → UInt8) (r : StoreReq) : ℕ → Option UInt8 := fun a =>
  if r.paddr ≤ a ∧ a < r.paddr + r.size ∧ r.byteEnable.getD (a - r.paddr) true then
    some (value (r.start + (a - r.paddr)))
  else none

/-- An entry of the store queue.  The size is 0 until the address is known; a store that crosses a
line is split and has `subReqs`.  `value` has the bytes that the store writes in the end, `data`
those that are in the entry now: not yet the result of an atomic operation, nor the data of a store
whose data part has not been executed, nor the zeros of a store without data. -/
structure SqEntry where
  seqNum : ℕ
  size : ℕ
  strictlyOrdered : Bool
  isCacheMaintenance : Bool
  effAddrValid : Bool
  isAtomic : Bool
  isSplitStoreAddr : Bool
  addrReady : Bool
  dataReady : Bool
  completed : Bool
  isAllZeros : Bool
  physEffAddr : ℕ
  byteEnable : List Bool
  subReqs : Option (List StoreReq)
  data : ℕ → UInt8
  value : ℕ → UInt8
  end_lt : physEffAddr + size < 2 ^ 64
  value_zero : isAllZeros = true → ∀ k, value k = 0
  data_eq : isAtomic = false → isAllZeros = false →
    (isSplitStoreAddr = true → (addrReady && dataReady) = true) → ∀ k < size, data k = value k

namespace SqEntry
variable (st : SqEntry)

def canForwardToLoad : Bool :=
  st.addrReady && st.dataReady

def isSplit : Bool :=
  st.subReqs.isSome

def isMasked : Bool :=
  st.byteEnable.contains false

def mainReq : StoreReq where
  paddr := st.physEffAddr
  size := st.size
  byteEnable := st.byteEnable
  start := 0
  end_lt := st.end_lt

def reqs : List StoreReq :=
  st.subReqs.getD [st.mainReq]

def bytes : ℕ → Option UInt8 := fun a =>
  st.reqs.findSome? fun r => r.bytes st.value a

/-- A load looks at the stores whose address is known, but for strictly ordered ones and cache
maintenance. -/
def checked : Bool :=
  st.size != 0 && !st.strictlyOrdered && !st.isCacheMaintenance

end SqEntry

open SqEntry

/-- The byte that the youngest of the stores that write it gives; the youngest store comes first. -/
def youngestByte (stores : List SqEntry) : ℕ → Option UInt8 := fun a =>
  stores.findSome? fun st => if st.checked then st.bytes a else none

/-! ### Loads -/

structure WholeLoad (c : SbConfig) extends LoadPiece c where
  vaddr_eq : vaddr = mainVaddr
  size_eq : size = mainSize
  end_lt : paddr + size < 2 ^ 64

inductive LoadReq (c : SbConfig)
  | single (load : WholeLoad c)
  | split (pieces : List (LoadPiece c))

/-- A load.  `sqIt` is the place in the store queue behind the last older store; `needSTLFReplay`
may be left from an earlier attempt. -/
structure Load (c : SbConfig) where
  seqNum : ℕ
  sqIt : ℕ
  isLLSC : Bool
  needSTLFReplay : Bool
  request : LoadReq c

namespace Load
variable {c : SbConfig} (ld : Load c)

def isSplit : Bool :=
  match ld.request with
  | .single _ => false
  | .split _ => true

def pieces : List (LoadPiece c) :=
  match ld.request with
  | .single p => [p.toLoadPiece]
  | .split ps => ps

end Load

inductive AddrRangeCoverage
  | noAddrRangeCoverage
  | partialAddrRangeCoverage
  | fullAddrRangeCoverage
  deriving DecidableEq

open AddrRangeCoverage

/-- `LSQUnit::checkStoreLoadForwardingRange`, for the range of a load at `reqS` and a request of a
store; the second value says that the load is to be replayed when the data of the store is there. -/
def checkStoreLoadForwardingRange (st : SqEntry) (isLLSC : Bool) (reqS reqSize : ℕ)
    (r : StoreReq) : AddrRangeCoverage × Bool :=
  let reqE := (reqS + reqSize) % 2 ^ 64
  let stS := r.paddr
  let stE := (r.paddr + r.size) % 2 ^ 64
  let storeHasLowerLimit := decide (reqS ≥ stS)
  let storeHasUpperLimit := decide (reqE ≤ stE)
  let lowerLoadHasStorePart := decide (reqS < stE)
  let upperLoadHasStorePart := decide (reqE > stS)
  let noWrap := !(decide (reqS > reqE) || decide (stS > stE))
  if !st.isAtomic && storeHasLowerLimit && storeHasUpperLimit && !isLLSC && noWrap then
    if st.isSplitStoreAddr && !st.canForwardToLoad then (noAddrRangeCoverage, true)
    else if st.isSplit then (partialAddrRangeCoverage, false)
    else (if st.isMasked then partialAddrRangeCoverage else fullAddrRangeCoverage, false)
  else if noWrap &&
      ((!isLLSC &&
        ((storeHasLowerLimit && lowerLoadHasStorePart) ||
         (storeHasUpperLimit && upperLoadHasStorePart) ||
         (lowerLoadHasStorePart && upperLoadHasStorePart))) ||
       (isLLSC &&
        ((storeHasLowerLimit || upperLoadHasStorePart) &&
         (storeHasUpperLimit || lowerLoadHasStorePart))) ||
       (st.isAtomic &&
        ((storeHasLowerLimit || upperLoadHasStorePart) &&
         (storeHasUpperLimit || lowerLoadHasStorePart)))) then
    (partialAddrRangeCoverage, false)
  else (noAddrRangeCoverage, false)

/-- The loops over the requests of a load and of a store; nothing if the load waits for the data of
the store. -/
def checkRequests {c : SbConfig} (st : SqEntry) (ld : Load c) :
    List (LoadPiece c × StoreReq) → Option AddrRangeCoverage
  | [] => some noAddrRangeCoverage
  | (p, r) :: rest =>
    match checkStoreLoadForwardingRange st ld.isLLSC p.paddr p.size r with
    | (noAddrRangeCoverage, wait) =>
      if ld.needSTLFReplay || wait then none else checkRequests st ld rest
    | (coverage, _) => some (if ld.isSplit then partialAddrRangeCoverage else coverage)

def storeCoverage {c : SbConfig} (st : SqEntry) (ld : Load c) : Option AddrRangeCoverage :=
  checkRequests st ld (ld.pieces.flatMap fun p => st.reqs.map (Prod.mk p))

inductive SqSearch
  | noStore
  | stlfReplay (store : ℕ)
  | reschedule (store : ℕ)
  | forward (packets : List (ℕ × UInt8))

/-- The packets `SQforwardPackets` for a load that a store covers. -/
def sqForwardPackets {c : SbConfig} (st : SqEntry) (p : LoadPiece c) : List (ℕ × UInt8) :=
  let shiftAmt := p.paddr - st.physEffAddr
  (List.range p.size).map fun i => (i, if st.isAllZeros then 0 else st.data (shiftAmt + i))

def searchStores {c : SbConfig} (ld : Load c) : List SqEntry → Except String SqSearch
  | [] => .ok .noStore
  | st :: rest =>
    if ¬ st.seqNum < ld.seqNum then
      .error "assert(store_it->instruction()->seqNum < load_inst->seqNum)"
    else if st.checked then
      if !st.effAddrValid then .error "assert(store_it->instruction()->effAddrValid())"
      else
        match storeCoverage st ld, ld.request with
        | none, _ => .ok (.stlfReplay st.seqNum)
        | some fullAddrRangeCoverage, .single p =>
          .ok (.forward (sqForwardPackets st p.toLoadPiece))
        | some noAddrRangeCoverage, _ => searchStores ld rest
        | some _, _ =>
          if st.completed then .error "Should not check one of these"
          else .ok (.reschedule st.seqNum)
    else searchStores ld rest

/-! ### The read -/

/-- What `read` ends in; `sb` are the packets of the store buffer. -/
inductive ReadOutcome
  | stlfReplay (store : ℕ)
  | reschedule (store : ℕ)
  | fullForward (sq sb : List (ℕ × UInt8))
  | wakeUpEarly (sb : List (ℕ × UInt8))
  | busForward (sb : List (ℕ × UInt8))
  | cacheAccess (sb : List (ℕ × UInt8))
  | cacheBlockedReplay

/-- The part of the unit that `read` uses: the store queue, the oldest store first, and the place of
the oldest store that is not in the store buffer. -/
structure LsqUnit where
  storeQueue : List SqEntry
  storeWBIt : ℕ

/-- The state of the data bus and of the cache port: `pending` if a request of an earlier attempt is
in the cache, `onBus` if its response has come, `sent` if the cache takes a packet. -/
structure ReadPort where
  pending : Bool
  onBus : Bool
  sent : Bool

namespace SbState
variable {c : SbConfig}

def forwardPiece (T : Fin c.numThreads) (p : LoadPiece c) (s : SbState c) :
    Except String (List (ℕ × UInt8) × Bool) :=
  match s.get T (c.block p.paddr) with
  | .error e => .error e
  | .ok none => .ok ([], false)
  | .ok (some i) => s.recordForward i p

/-- `trySendPacket` of a load, for the packets that the cache takes. -/
def recordSent (T : Fin c.numThreads) (isSplit : Bool) (s : SbState c) :
    List (LoadPiece c) → Except String (List (ℕ × UInt8))
  | [] => .ok []
  | p :: ps =>
    match s.forwardPiece T p with
    | .error e => .error e
    | .ok (packets, all) =>
      if all && !isSplit then .error "assert(request->isSplit())"
      else (recordSent T isSplit s ps).map (packets ++ ·)

end SbState

namespace LsqUnit
variable {c : SbConfig}

def olderStores (u : LsqUnit) (ld : Load c) : List SqEntry :=
  ((u.storeQueue.take ld.sqIt).drop u.storeWBIt).reverse

/-- The end of `read`: the bus, or the cache. -/
def accessCache (T : Fin c.numThreads) (port : ReadPort) (s : SbState c) (ld : Load c)
    (sb : List (ℕ × UInt8)) : Except String ReadOutcome :=
  if port.pending then .ok (.wakeUpEarly sb)
  else if port.onBus then .ok (.busForward sb)
  else if port.sent then
    (s.recordSent T ld.isSplit ld.pieces).map fun more => .cacheAccess (sb ++ more)
  else .ok .cacheBlockedReplay

def readBuffer (T : Fin c.numThreads) (port : ReadPort) (s : SbState c) (ld : Load c) :
    Except String ReadOutcome :=
  match ld.request with
  | .split _ => accessCache T port s ld []
  | .single p =>
    match s.forwardPiece T p.toLoadPiece with
    | .error e => .error e
    | .ok (sb, true) => .ok (.fullForward [] sb)
    | .ok (sb, false) => accessCache T port s ld sb

/-- `LSQUnit::read`, from the search of the store queue on. -/
def read (u : LsqUnit) (T : Fin c.numThreads) (port : ReadPort) (s : SbState c) (ld : Load c) :
    Except String ReadOutcome :=
  if ld.sqIt < u.storeWBIt then
    .error "Load instruction's store index is younger than store writeback index"
  else
    match searchStores ld (u.olderStores ld) with
    | .error e => .error e
    | .ok (.stlfReplay n) => .ok (.stlfReplay n)
    | .ok (.reschedule n) => .ok (.reschedule n)
    | .ok (.forward sq) => .ok (.fullForward sq [])
    | .ok .noStore => readBuffer T port s ld

end LsqUnit

/-- `LSQRequest::forward`: first the packets of the store buffer, then those of the store queue. -/
def forward (sq sb : List (ℕ × UInt8)) (memData : ℕ → UInt8) : ℕ → UInt8 :=
  writePoints sq (writePoints sb memData)

/-- The bytes of a load that goes on.  `old` is what was in its memory; `response` the bytes of the
cache, which the load gets unless it has all bytes without them; `arrived` says that they are there
when the load needs them: without them it is replayed. -/
def ReadOutcome.memData (old response : ℕ → UInt8) (arrived : Bool) :
    ReadOutcome → Option (ℕ → UInt8)
  | .stlfReplay _ | .reschedule _ | .cacheBlockedReplay => none
  | .fullForward sq sb => some (forward sq sb old)
  | .busForward sb => some (forward [] sb response)
  | .wakeUpEarly sb | .cacheAccess sb =>
    if arrived then some (forward [] sb response) else none

/-! ### The ranges -/

section
variable {st : SqEntry} {reqS reqSize : ℕ} {r : StoreReq}

theorem check_no (hreq : reqS + reqSize < 2 ^ 64)
    (h : checkStoreLoadForwardingRange st false reqS reqSize r = (noAddrRangeCoverage, false))
    {i : ℕ} (hi : i < reqSize) (value : ℕ → UInt8) : r.bytes value (reqS + i) = none := by
  have hst := r.end_lt
  have hdisjoint : ¬ (reqS < r.paddr + r.size ∧ r.paddr < reqS + reqSize) := by
    rintro ⟨hlow, hhigh⟩
    unfold checkStoreLoadForwardingRange at h
    rw [Nat.mod_eq_of_lt hreq, Nat.mod_eq_of_lt hst] at h
    have hwrap : ¬ reqS > reqS + reqSize := by omega
    have hwrap' : ¬ r.paddr > r.paddr + r.size := by omega
    simp only [hwrap, hwrap', hlow, hhigh] at h
    split at h
    case isTrue =>
      split at h
      · simp at h
      · split at h
        · simp at h
        · split at h <;> simp at h
    case isFalse => simp at h
  unfold StoreReq.bytes
  rw [if_neg]
  omega

theorem check_full (hreq : reqS + reqSize < 2 ^ 64) {wait : Bool}
    (h : checkStoreLoadForwardingRange st false reqS reqSize r = (fullAddrRangeCoverage, wait)) :
    st.isAtomic = false ∧ (st.isSplitStoreAddr = true → st.canForwardToLoad = true) ∧
      st.isSplit = false ∧ st.isMasked = false ∧
      r.paddr ≤ reqS ∧ reqS + reqSize ≤ r.paddr + r.size := by
  have hst := r.end_lt
  unfold checkStoreLoadForwardingRange at h
  rw [Nat.mod_eq_of_lt hreq, Nat.mod_eq_of_lt hst] at h
  simp only at h
  split at h
  case isTrue hcover =>
    simp only [Bool.and_eq_true, Bool.not_eq_true', decide_eq_true_eq] at hcover
    obtain ⟨⟨⟨⟨hatomic, hlow⟩, hhigh⟩, -⟩, -⟩ := hcover
    split at h
    · simp at h
    case isFalse hready =>
      split at h
      · simp at h
      case isFalse hsplit =>
        split at h
        · simp at h
        case isFalse hmask =>
          refine ⟨hatomic, fun hsta => ?_, by simpa using hsplit, by simpa using hmask, hlow, hhigh⟩
          simpa [hsta] using hready
  case isFalse =>
    split at h <;> simp at h
end

/-! ### The search of the store queue -/

section
variable {c : SbConfig} {ld : Load c} {p : WholeLoad c}

variable {st : SqEntry} {ps : List (LoadPiece c × StoreReq)} {q : LoadPiece c × StoreReq} {i : ℕ}
  {stores : List SqEntry}

theorem checkRequests_no (h : checkRequests st ld ps = some noAddrRangeCoverage) (hq : q ∈ ps) :
    checkStoreLoadForwardingRange st ld.isLLSC q.1.paddr q.1.size q.2 =
      (noAddrRangeCoverage, false) := by
  induction ps with
  | nil => simp at hq
  | cons x ps ih =>
    obtain ⟨y, r⟩ := x
    unfold checkRequests at h
    split at h
    case h_1 wait hcheck =>
      split at h
      · simp at h
      case isFalse hwait =>
        rcases mem_cons.1 hq with rfl | hq
        · rw [hcheck]
          cases wait
          · rfl
          · simp at hwait
        · exact ih h hq
    case h_2 coverage _ hne hcheck =>
      split at h
      · simp at h
      · exact (hne (by simpa using h)).elim

theorem checkRequests_full (h : checkRequests st ld ps = some fullAddrRangeCoverage) :
    ∃ q ∈ ps, ∃ wait, checkStoreLoadForwardingRange st ld.isLLSC q.1.paddr q.1.size q.2 =
      (fullAddrRangeCoverage, wait) := by
  induction ps with
  | nil => simp [checkRequests] at h
  | cons x ps ih =>
    obtain ⟨y, r⟩ := x
    unfold checkRequests at h
    split at h
    case h_1 =>
      split at h
      · simp at h
      · obtain ⟨q, hq, hfull⟩ := ih h
        exact ⟨q, mem_cons_of_mem _ hq, hfull⟩
    case h_2 coverage wait _ hcheck =>
      split at h
      · simp at h
      · obtain rfl : coverage = fullAddrRangeCoverage := by simpa using h
        exact ⟨(y, r), mem_cons_self, wait, hcheck⟩

variable (hp : ld.request = .single p) (hll : ld.isLLSC = false)
include hp

theorem mem_pairs : q ∈ (ld.pieces.flatMap fun p => st.reqs.map (Prod.mk p)) ↔
      q.1 = p.toLoadPiece ∧ q.2 ∈ st.reqs := by
  obtain ⟨y, r⟩ := q
  simp only [Load.pieces, hp, flatMap_singleton, mem_map, Prod.mk.injEq]
  constructor
  · rintro ⟨r', hr', rfl, rfl⟩
    exact ⟨rfl, hr'⟩
  · rintro ⟨rfl, hr⟩
    exact ⟨r, hr, rfl, rfl⟩

include hll

theorem storeCoverage_no (h : storeCoverage st ld = some noAddrRangeCoverage) (hi : i < p.size) :
    st.bytes (p.paddr + i) = none := by
  rw [bytes, findSome?_eq_none_iff]
  intro r hr
  have hmem : (p.toLoadPiece, r) ∈ (ld.pieces.flatMap fun p => st.reqs.map (Prod.mk p)) :=
    (mem_pairs hp).2 ⟨rfl, hr⟩
  have hcheck := checkRequests_no h hmem
  rw [hll] at hcheck
  exact check_no p.end_lt hcheck hi st.value

theorem storeCoverage_full (h : storeCoverage st ld = some fullAddrRangeCoverage)
    (hi : i < p.size) :
    st.bytes (p.paddr + i) =
      some (if st.isAllZeros then 0 else st.data (p.paddr - st.physEffAddr + i)) := by
  obtain ⟨q, hq, wait, hcheck⟩ := checkRequests_full h
  obtain ⟨hq1, hq2⟩ := (mem_pairs hp).1 hq
  rw [hll, hq1] at hcheck
  obtain ⟨hatomic, hready, hsplit, hmask, hlow, hhigh⟩ := check_full p.end_lt hcheck
  have hreqs : st.reqs = [st.mainReq] := by
    have hnone : st.subReqs = none := by simpa [isSplit] using hsplit
    rw [reqs, hnone]
    rfl
  rw [hreqs, mem_singleton] at hq2
  rw [hq2] at hlow hhigh
  have hlow : st.physEffAddr ≤ p.paddr := hlow
  have hhigh : p.paddr + p.size ≤ st.physEffAddr + st.size := hhigh
  have hk : p.paddr + i - st.physEffAddr = p.paddr - st.physEffAddr + i := by omega
  have henabled : st.byteEnable.getD (p.paddr - st.physEffAddr + i) true = true := by
    have hall : false ∉ st.byteEnable := by simpa [isMasked] using hmask
    by_cases hlen : p.paddr - st.physEffAddr + i < st.byteEnable.length
    · rw [getD_eq_getElem _ _ hlen]
      by_contra hfalse
      exact hall ((Bool.not_eq_true _ ▸ hfalse : _ = false) ▸ getElem_mem hlen)
    · exact getD_eq_default _ _ (Nat.le_of_not_lt hlen)
  have hbytes : st.bytes (p.paddr + i) = some (st.value (p.paddr - st.physEffAddr + i)) := by
    rw [bytes, hreqs, findSome?_singleton, StoreReq.bytes]
    simp only [mainReq, hk, henabled, Nat.zero_add]
    rw [if_pos ⟨by omega, by omega, trivial⟩]
  rw [hbytes]
  cases hz : st.isAllZeros with
  | true => simp [st.value_zero hz]
  | false =>
    have hlt : p.paddr - st.physEffAddr + i < st.size := by omega
    simp [st.data_eq hatomic hz hready _ hlt]

omit hll in
theorem searchStores_cons {rest : List SqEntry} {r : SqSearch}
    (h : searchStores ld (st :: rest) = .ok r) : (searchStores ld rest = .ok r ∧
      (st.checked = true → storeCoverage st ld = some noAddrRangeCoverage)) ∨
    (st.checked = true ∧ storeCoverage st ld = some fullAddrRangeCoverage ∧
      r = .forward (sqForwardPackets st p.toLoadPiece)) ∨
    (∃ n, r = .stlfReplay n ∨ r = .reschedule n) := by
  unfold searchStores at h
  split at h
  · simp at h
  split at h
  case isFalse hchecked => exact .inl ⟨h, fun hc => absurd hc hchecked⟩
  case isTrue hchecked =>
    split at h
    · simp at h
    rw [hp] at h
    cases hcov : storeCoverage st ld with
    | none =>
      simp only [hcov, ok.injEq] at h
      exact .inr (.inr ⟨_, .inl h.symm⟩)
    | some coverage =>
      cases coverage with
      | noAddrRangeCoverage =>
        simp only [hcov] at h
        exact .inl ⟨h, fun _ => rfl⟩
      | fullAddrRangeCoverage =>
        simp only [hcov, ok.injEq] at h
        exact .inr (.inl ⟨hchecked, rfl, h.symm⟩)
      | partialAddrRangeCoverage =>
        simp only [hcov] at h
        split at h
        · simp at h
        · exact .inr (.inr ⟨_, .inr (ok.inj h).symm⟩)

theorem youngestByte_cons_of_no (rest : List SqEntry)
    (h : st.checked = true → storeCoverage st ld = some noAddrRangeCoverage) (hi : i < p.size) :
    youngestByte (st :: rest) (p.paddr + i) = youngestByte rest (p.paddr + i) := by
  unfold youngestByte
  rw [findSome?_cons]
  by_cases hc : st.checked = true
  · rw [if_pos hc, storeCoverage_no hp hll (h hc) hi]
  · rw [if_neg hc]

theorem searchStores_noStore (h : searchStores ld stores = .ok .noStore) (hi : i < p.size) :
    youngestByte stores (p.paddr + i) = none := by
  induction stores with
  | nil => rfl
  | cons st rest ih =>
    rcases searchStores_cons hp h with ⟨hrest, hno⟩ | ⟨-, -, hr⟩ | ⟨n, hr | hr⟩
    · rw [youngestByte_cons_of_no hp hll rest hno hi]
      exact ih hrest
    all_goals simp at hr

theorem searchStores_forward {sq : List (ℕ × UInt8)}
    (h : searchStores ld stores = .ok (.forward sq)) :
    ∃ f : ℕ → UInt8, sq = (List.range p.size).map (fun i => (i, f i)) ∧
      ∀ i < p.size, youngestByte stores (p.paddr + i) = some (f i) := by
  induction stores with
  | nil => simp [searchStores] at h
  | cons st rest ih =>
    rcases searchStores_cons hp h with ⟨hrest, hno⟩ | ⟨hchecked, hfull, hr⟩ | ⟨n, hr | hr⟩
    · obtain ⟨f, hsq, hf⟩ := ih hrest
      refine ⟨f, hsq, fun i hi => ?_⟩
      rw [youngestByte_cons_of_no hp hll rest hno hi]
      exact hf i hi
    · refine ⟨_, SqSearch.forward.inj hr, fun i hi => ?_⟩
      rw [youngestByte, findSome?_cons, if_pos hchecked, storeCoverage_full hp hll hfull hi]
    all_goals simp at hr
end

/-! ### The store buffer -/

def SbEntry.byte {c : SbConfig} (e : SbEntry c) (o : ℕ) : Option UInt8 :=
  if e.validMask o then some (e.blockDatas o) else none

namespace SbState
variable {c : SbConfig}

def entryByte (s : SbState c) (i : Fin c.ways) (o : ℕ) : Option UInt8 :=
  ((s.dataVec i).vice.bind fun v => (s.dataVec v).byte o).or ((s.dataVec i).byte o)

def lineEntry (s : SbState c) (T : Fin c.numThreads) (B : ℕ) : Option (Fin c.ways) :=
  (s.dataMap (hashKey T B)).filter fun i => (s.dataVec i).tid = T

def bufferByte (s : SbState c) (T : Fin c.numThreads) : ℕ → Option UInt8 := fun a =>
  (s.lineEntry T (c.block a)).bind fun i => s.entryByte i (c.offset a)

section
variable {s : SbState c} {T : Fin c.numThreads} {i : Fin c.ways}

theorem get_eq {B : ℕ} {found : Option (Fin c.ways)} (h : s.get T B = .ok found) :
    found = s.lineEntry T B := by
  unfold SbState.get at h
  unfold lineEntry
  cases hmap : s.dataMap (hashKey T B) with
  | none => simpa [hmap] using h.symm
  | some i =>
    simp only [hmap] at h
    by_cases htid : (s.dataVec i).tid = T
    · by_cases hvld : s.dataVld i = true
      · simp only [htid, hvld, ne_eq, not_true_eq_false, if_false, if_true, ok.injEq] at h
        simp [Option.filter_some, htid, ← h]
      · simp [htid, hvld] at h
    · simp only [htid, ne_eq, not_false_eq_true, if_true, ok.injEq] at h
      simp [Option.filter_some, htid, ← h]

theorem forwardByte_eq {o : ℕ} {b : Option UInt8} (h : s.forwardByte i o = .ok b) :
    b = s.entryByte i o := by
  unfold forwardByte at h
  unfold entryByte SbEntry.byte
  cases hv : (s.dataVec i).vice with
  | none =>
    simp only [hv, ok.injEq] at h
    simpa using h.symm
  | some v =>
    simp only [hv] at h
    split at h
    case isTrue hmask =>
      split at h
      · simpa [hmask] using (ok.inj h).symm
      · simp at h
    case isFalse hmask => simpa [hmask] using (ok.inj h).symm

variable {all : Bool} {sb : List (ℕ × UInt8)}

theorem recordBytes_eq {ld : LoadPiece c} {js : List ℕ} {packets : List (ℕ × UInt8)}
    (h : s.recordBytes i ld js = .ok (packets, all)) :
    (∀ k b, (k, b) ∈ packets ↔ ∃ j ∈ js, k = ld.vaddr - ld.mainVaddr + j ∧
      s.entryByte i (c.offset ld.paddr + j) = some b) ∧
    all = js.all fun j => (s.entryByte i (c.offset ld.paddr + j)).isSome := by
  induction js generalizing packets all with
  | nil =>
    simp only [recordBytes, Except.ok.injEq, Prod.mk.injEq] at h
    simp [← h.1, ← h.2]
  | cons j js ih =>
    by_cases hsize : ld.mainSize ≤ ld.vaddr - ld.mainVaddr + j
    · simp [recordBytes, hsize] at h
    rw [recordBytes, if_neg hsize] at h
    cases hbyte : s.forwardByte i (c.offset ld.paddr + j) with
    | error e => simp [hbyte] at h
    | ok byte =>
      cases hrest : s.recordBytes i ld js with
      | error e => simp [hbyte, hrest] at h
      | ok rest =>
        obtain ⟨rest, restAll⟩ := rest
        obtain ⟨hpackets, hall⟩ := ih hrest
        have hb := forwardByte_eq hbyte
        cases byte with
        | some b =>
          simp only [hbyte, hrest, Except.ok.injEq, Prod.mk.injEq] at h
          obtain ⟨rfl, rfl⟩ := h
          refine ⟨fun k b' => ?_, by simp [← hb, hall]⟩
          rw [mem_cons, hpackets, exists_mem_cons_iff, ← hb]
          simp [Prod.mk.injEq, eq_comm]
        | none =>
          simp only [hbyte, hrest, Except.ok.injEq, Prod.mk.injEq] at h
          obtain ⟨rfl, rfl⟩ := h
          refine ⟨fun k b' => ?_, by simp [← hb]⟩
          rw [hpackets, exists_mem_cons_iff, ← hb]
          simp

variable {p : WholeLoad c}

def loadBytes (s : SbState c) (T : Fin c.numThreads) (p : WholeLoad c) : ℕ → Option UInt8 :=
  fun i => if i < p.size then s.bufferByte T (p.paddr + i) else none

theorem forwardPiece_eq (h : s.forwardPiece T p.toLoadPiece = .ok (sb, all)) :
    Overlay.Lists sb (s.loadBytes T p) ∧
      (all = true → ∀ j < p.size, (s.bufferByte T (p.paddr + j)).isSome = true) := by
  have hline := p.in_line
  have hplace {j : ℕ} (hj : j < p.size) : c.block (p.paddr + j) = c.block p.paddr ∧
      c.offset (p.paddr + j) = c.offset p.paddr + j := by
    have hsum : p.paddr + j = c.block p.paddr + (c.offset p.paddr + j) := by
      rw [← Nat.add_assoc, c.block_add_offset]
    rw [hsum]
    exact SbConfig.block_offset_of_lt (c.dvd_block _) (by omega)
  have hbyte {j : ℕ} (hj : j < p.size) : s.bufferByte T (p.paddr + j) =
      (s.lineEntry T (c.block p.paddr)).bind fun i => s.entryByte i (c.offset p.paddr + j) := by
    rw [bufferByte, (hplace hj).1, (hplace hj).2]
  unfold forwardPiece at h
  cases hget : s.get T (c.block p.paddr) with
  | error e => simp [hget] at h
  | ok found =>
    obtain rfl := get_eq hget
    cases hentry : s.lineEntry T (c.block p.paddr) with
    | none =>
      simp only [hget, hentry, Except.ok.injEq, Prod.mk.injEq] at h
      obtain ⟨rfl, rfl⟩ := h
      refine ⟨fun k b => ?_, by simp⟩
      by_cases hk : k < p.size
      · simp [loadBytes, hk, hbyte hk, hentry]
      · simp [loadBytes, hk]
    | some i =>
      simp only [hget, hentry] at h
      have hv : p.vaddr - p.mainVaddr = 0 := by rw [p.vaddr_eq, Nat.sub_self]
      have hstart : ¬ (0 < p.vaddr - p.mainVaddr ∧ c.offset p.paddr ≠ 0) := by omega
      rw [recordForward, if_neg hstart] at h
      obtain ⟨hpackets, rfl⟩ := recordBytes_eq h
      constructor
      · intro k b
        rw [hpackets, hv]
        by_cases hk : k < p.size
        · simp [loadBytes, hk, hbyte hk, hentry]
        · simp only [loadBytes, hk, if_false, reduceCtorEq, iff_false]
          rintro ⟨j, hj, rfl, -⟩
          exact hk (by simpa using hj)
      · intro hall j hj
        have hsome := all_eq_true.1 hall j (mem_range.2 hj)
        rw [hbyte hj, hentry]
        exact hsome

theorem recordSent_eq {more : List (ℕ × UInt8)} (h : s.forwardPiece T p.toLoadPiece = .ok (sb, all))
    (hmore : s.recordSent T false [p.toLoadPiece] = .ok more) : more = sb := by
  simp only [recordSent, h] at hmore
  split at hmore
  · simp at hmore
  · simpa [Except.map] using (ok.inj hmore).symm
end
end SbState

/-! ### The bytes of a load -/

/-- What a load is to get at an address: the byte of the youngest older store that writes it, or
that of the store buffer, or that of the cache. -/
def LsqUnit.loadByte {c : SbConfig} (u : LsqUnit) (T : Fin c.numThreads) (s : SbState c)
    (ld : Load c) (cache : ℕ → UInt8) : ℕ → UInt8 :=
  layOver (youngestByte (u.olderStores ld)) (layOver (s.bufferByte T) cache)

namespace LsqUnit
variable {c : SbConfig} {u : LsqUnit} {T : Fin c.numThreads} {port : ReadPort} {s : SbState c}
  {ld : Load c} {p : WholeLoad c} {cache old mem : ℕ → UInt8} {arrived : Bool} {o : ReadOutcome}

variable {i : ℕ}

theorem forward_response {sb : List (ℕ × UInt8)} (hsb : Overlay.Lists sb (s.loadBytes T p))
    (hi : i < p.size) : forward [] sb (fun i => cache (p.paddr + i)) i =
      layOver (s.bufferByte T) cache (p.paddr + i) := by
  show writePoints sb (fun i => cache (p.paddr + i)) i = _
  rw [hsb.writePoints_eq]
  simp [layOver, SbState.loadBytes, hi]

theorem readBuffer_bytes (hp : ld.request = .single p) (h : readBuffer T port s ld = .ok o)
    (hgo : o.memData old (fun i => cache (p.paddr + i)) arrived = some mem) (hi : i < p.size) :
    mem i = layOver (s.bufferByte T) cache (p.paddr + i) := by
  simp only [readBuffer, hp] at h
  cases hpiece : s.forwardPiece T p.toLoadPiece with
  | error e => simp [hpiece] at h
  | ok found =>
    obtain ⟨sb, all⟩ := found
    obtain ⟨hsb, hall⟩ := SbState.forwardPiece_eq hpiece
    cases all with
    | true =>
      simp only [hpiece, Except.ok.injEq] at h
      obtain rfl := h
      cases hgo
      show writePoints sb old i = _
      obtain ⟨b, hb⟩ := Option.isSome_iff_exists.1 (hall rfl i hi)
      rw [hsb.writePoints_eq]
      simp [layOver, SbState.loadBytes, hi, hb]
    | false =>
      simp only [hpiece, accessCache] at h
      have hone : forward [] sb (fun i => cache (p.paddr + i)) i = _ := forward_response hsb hi
      split at h
      · cases h
        cases arrived
        · simp [ReadOutcome.memData] at hgo
        · cases hgo
          exact hone
      split at h
      · cases h
        cases hgo
        exact hone
      split at h
      · have hpieces : ld.pieces = [p.toLoadPiece] := by rw [Load.pieces, hp]
        have hsplit : ld.isSplit = false := by rw [Load.isSplit, hp]
        rw [hpieces, hsplit] at h
        cases hmore : s.recordSent T false [p.toLoadPiece] with
        | error e => simp [hmore, Except.map] at h
        | ok more =>
          obtain rfl := SbState.recordSent_eq hpiece hmore
          simp only [hmore, Except.map, Except.ok.injEq] at h
          obtain rfl := h
          cases arrived
          · simp [ReadOutcome.memData] at hgo
          · cases hgo
            exact forward_response (hsb.append hsb) hi
      · cases h
        simp [ReadOutcome.memData] at hgo

theorem forward_store {f : ℕ → UInt8} {n : ℕ} (hi : i < n) :
    forward ((List.range n).map fun i => (i, f i)) [] old i = f i := by
  have hlists : Overlay.Lists ((List.range n).map fun i => (i, f i))
      (fun i => if i < n then some (f i) else none) := by
    intro k b
    simp only [mem_map, mem_range, Prod.mk.injEq]
    constructor
    · rintro ⟨j, hj, rfl, rfl⟩
      simp [hj]
    · intro h
      by_cases hk : k < n
      · exact ⟨k, hk, rfl, by simpa [hk] using h⟩
      · simp [hk] at h
  show writePoints _ old i = f i
  rw [hlists.writePoints_eq]
  simp [layOver, hi]

/-- A load that is not split and not load-reserved, and that `read` lets go on, gets the right
bytes: whatever is in the store queue, the store buffer and the cache. -/
theorem read_bytes (u : LsqUnit) (T : Fin c.numThreads) (port : ReadPort) (s : SbState c)
    (cache old : ℕ → UInt8) (arrived : Bool) (ld : Load c) (p : WholeLoad c)
    (hp : ld.request = .single p) (hll : ld.isLLSC = false) {o : ReadOutcome}
    (h : u.read T port s ld = .ok o) {mem : ℕ → UInt8}
    (hgo : o.memData old (fun i => cache (p.paddr + i)) arrived = some mem) :
    ∀ i < p.size, mem i = u.loadByte T s ld cache (p.paddr + i) := by
  intro i hi
  unfold LsqUnit.read at h
  split at h
  · simp at h
  cases hsearch : searchStores ld (u.olderStores ld) with
  | error e => simp [hsearch] at h
  | ok found =>
    simp only [hsearch] at h
    cases found with
    | stlfReplay n =>
      cases h
      simp [ReadOutcome.memData] at hgo
    | reschedule n =>
      cases h
      simp [ReadOutcome.memData] at hgo
    | forward sq =>
      cases h
      cases hgo
      obtain ⟨f, rfl, hf⟩ := searchStores_forward hp hll hsearch
      rw [forward_store hi]
      simp [loadByte, layOver, hf i hi]
    | noStore =>
      have hnone := searchStores_noStore hp hll hsearch hi
      rw [loadByte, Overlay.layOver_apply_of_none hnone]
      exact readBuffer_bytes hp h hgo hi

def oneStore : LsqUnit where
  storeQueue := [{
    seqNum := 1, size := 1, strictlyOrdered := false, isCacheMaintenance := false
    effAddrValid := true, isAtomic := false, isSplitStoreAddr := true, addrReady := true
    dataReady := true, completed := false, isAllZeros := false, physEffAddr := 8
    byteEnable := [], subReqs := none, data := fun _ => 9, value := fun _ => 9
    end_lt := Nat.le_of_ble_eq_true rfl
    value_zero := fun h => nomatch h
    data_eq := fun _ _ _ _ _ => rfl }]
  storeWBIt := 0

theorem sub_self_add_le (a n : ℕ) : a - a + n ≤ n := by
  rw [Nat.sub_self, Nat.zero_add]

def lineLoad (a n : ℕ) (h : a + n ≤ 64) : WholeLoad twoWays where
  mainVaddr := a
  mainSize := n
  vaddr := a
  paddr := a
  size := n
  main_le := le_rfl
  size_le := sub_self_add_le a n
  in_line := (Nat.add_le_add_right (Nat.mod_le a _) n).trans h
  aligned := fun h => absurd h (lt_irrefl a)
  vaddr_eq := rfl
  size_eq := rfl
  end_lt := h.trans_lt (Nat.le_of_ble_eq_true rfl)

def loadOf (a n : ℕ) (h : a + n ≤ 64) : Load twoWays where
  seqNum := 2
  sqIt := 1
  isLLSC := false
  needSTLFReplay := false
  request := .single (lineLoad a n h)

theorem two_le : 0 + 2 ≤ 64 := by decide

theorem nine_le : 8 + 1 ≤ 64 := by decide

def doubledBuffer : SbState twoWays :=
  ((SbState.run (doubled 0) (SbState.start fun _ => 5)).toOption).getD (SbState.start fun _ => 5)

/-- A load of two bytes, one from the vice and one from the cache, and the load of the byte that is
in the store queue. -/
theorem oneStore_read :
    (oneStore.read thread0 ⟨false, false, true⟩ doubledBuffer (loadOf 0 2 two_le) =
        .ok (.cacheAccess [(0, 2), (0, 2)]) ∧
      ∀ i < 2, forward [] [(0, 2), (0, 2)] (fun _ => 5) i =
        oneStore.loadByte thread0 doubledBuffer (loadOf 0 2 two_le) (fun _ => 5) (0 + i)) ∧
    (oneStore.read thread0 ⟨false, false, true⟩ doubledBuffer (loadOf 8 1 nine_le) =
        .ok (.fullForward [(0, 9)] []) ∧
      ∀ i < 1, forward [(0, 9)] [] (fun _ => 0) i =
        oneStore.loadByte thread0 doubledBuffer (loadOf 8 1 nine_le) (fun _ => 5) (8 + i)) := by
  have hcache : oneStore.read thread0 ⟨false, false, true⟩ doubledBuffer (loadOf 0 2 two_le) =
      .ok (.cacheAccess [(0, 2), (0, 2)]) := rfl
  have hfull : oneStore.read thread0 ⟨false, false, true⟩ doubledBuffer (loadOf 8 1 nine_le) =
      .ok (.fullForward [(0, 9)] []) := rfl
  refine ⟨⟨hcache, ?_⟩, ⟨hfull, ?_⟩⟩
  · exact read_bytes oneStore thread0 _ doubledBuffer (fun _ => 5) (fun _ => 0) true
      (loadOf 0 2 two_le) (lineLoad 0 2 two_le) rfl rfl hcache rfl
  · exact read_bytes oneStore thread0 _ doubledBuffer (fun _ => 5) (fun _ => 0) true
      (loadOf 8 1 nine_le) (lineLoad 8 1 nine_le) rfl rfl hfull rfl

end LsqUnit
end Gem5
