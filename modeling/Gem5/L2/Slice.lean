import Mathlib.Data.List.Basic

/-!
# A slice of the second level cache

A slice stands between the first level cache and an inner cache.  It keeps requests that the inner
cache refuses in a buffer and sends them again when the inner cache asks for a retry, or in the next
cycle if it was the arbiter or the main pipeline that failed.  If the buffer is full, the slice
refuses the request itself and owes a retry.

The asserts of the source are errors, that of the event queue on a second scheduling included.
-/

namespace Gem5
open List

/-! ### The arbiter -/

inductive TaskSource
  | L2MSHRGrant
  | L1WQ
  | L1MSHR
  | L2PF
  deriving DecidableEq

structure RequestArbiter where
  cycle : ℕ
  hasL1WQReq : Bool
  hasL1MSHRReq : Bool
  hasL2MSHRGrant : Bool

namespace RequestArbiter
def reset (a : RequestArbiter) : RequestArbiter :=
  { a with hasL1WQReq := false, hasL1MSHRReq := false, hasL2MSHRGrant := false }

def atCycle (now : ℕ) (a : RequestArbiter) : RequestArbiter :=
  if now = a.cycle then a else { a.reset with cycle := now }

def arbitrate (source : TaskSource) (now : ℕ) (a : RequestArbiter) : Bool × RequestArbiter :=
  let a := a.atCycle now
  match source with
  | .L2MSHRGrant => (true, { a with hasL2MSHRGrant := true })
  | .L1WQ => (!a.hasL2MSHRGrant, { a with hasL1WQReq := true })
  | .L1MSHR | .L2PF => (!a.hasL2MSHRGrant && !a.hasL1WQReq, { a with hasL1MSHRReq := true })

end RequestArbiter

/-! ### The slice -/

structure L2Packet where
  addr : ℕ
  isHWPrefetch : Bool
  isExpressSnoop : Bool
  needsResponse : Bool
  deriving DecidableEq

/-- What a request meets: the cycle, whether the pipeline takes it and whether the inner cache
does. -/
structure Attempt where
  now : ℕ
  taskAvailable : Bool
  innerAccepts : Bool

/-- A slice with what surrounds it: the retries that the inner cache owes; whether the upstream
cache waits for a retry; the packets that were answered true; and all packets that were offered to
the inner cache, with its answers. -/
structure SliceState where
  requestBuffer : List L2Packet
  reqArb : RequestArbiter
  innerCacheBlocked : Bool
  pendingL1Retry : Bool
  trySendEvent : Bool
  arbFailRetryEvent : Bool
  processResponsesEvent : Bool
  readyResponses : ℕ
  innerRetries : ℕ
  upstreamWaits : Bool
  accepted : List L2Packet
  offered : List (L2Packet × Bool)

namespace SliceState
def start : SliceState where
  requestBuffer := []
  reqArb := ⟨0, false, false, false⟩
  innerCacheBlocked := false
  pendingL1Retry := false
  trySendEvent := false
  arbFailRetryEvent := false
  processResponsesEvent := false
  readyResponses := 0
  innerRetries := 0
  upstreamWaits := false
  accepted := []
  offered := []

def delivered (s : SliceState) : List L2Packet :=
  (s.offered.filter Prod.snd).map Prod.fst

/-- The buffer holds `bufferSize` packets. -/
def isFull (bufferSize : ℕ) (s : SliceState) : Bool :=
  decide (s.requestBuffer.length ≥ bufferSize)

/-- `CacheWrapper::cpuSidePortRecvTimingReq`: the packet goes to the inner cache, which owes a retry
if it refuses.  An express snoop is not retried. -/
def offer (pkt : L2Packet) (accepts : Bool) (s : SliceState) : SliceState :=
  { s with
    offered := s.offered ++ [(pkt, accepts)]
    innerRetries := if accepts || pkt.isExpressSnoop then s.innerRetries else s.innerRetries + 1 }

def innerCpuPortSendTimingReq (att : Attempt) (source : TaskSource) (pkt : L2Packet)
    (s : SliceState) : Except String (Bool × SliceState) :=
  let arb := s.reqArb.arbitrate source att.now
  let s := { s with reqArb := arb.2 }
  if arb.1 && att.taskAvailable then .ok (att.innerAccepts, s.offer pkt att.innerAccepts)
  else if s.arbFailRetryEvent then .error "assert(!event->scheduled())"
  else .ok (false, { s with arbFailRetryEvent := true })

def tryBuffer (bufferSize : ℕ) (pkt : L2Packet) (s : SliceState) : Bool × SliceState :=
  if s.isFull bufferSize then (false, { s with pendingL1Retry := true })
  else (true, { s with requestBuffer := s.requestBuffer ++ [pkt] })

def cpuSidePortRecvTimingReq (bufferSize : ℕ) (att : Attempt) (pkt : L2Packet) (s : SliceState) :
    Except String (Bool × SliceState) :=
  if s.pendingL1Retry then .error "assert(!pending_l1_retry)"
  else if pkt.isExpressSnoop then .ok (att.innerAccepts, s.offer pkt att.innerAccepts)
  else if !pkt.needsResponse && !pkt.isHWPrefetch then
    -- from the write queue: not to be buffered
    if s.innerCacheBlocked || !s.requestBuffer.isEmpty then
      .ok (false, { s with pendingL1Retry := true })
    else
      match s.innerCpuPortSendTimingReq att .L1WQ pkt with
      | .error e => .error e
      | .ok (true, s) => .ok (true, s)
      | .ok (false, s) => .ok (false, { s with innerCacheBlocked := true, pendingL1Retry := true })
  else if s.innerCacheBlocked || !s.requestBuffer.isEmpty then .ok (s.tryBuffer bufferSize pkt)
  else
    match s.innerCpuPortSendTimingReq att (if pkt.isHWPrefetch then .L2PF else .L1MSHR) pkt with
    | .error e => .error e
    | .ok (true, s) => .ok (true, s)
    | .ok (false, s) => .ok ({ s with innerCacheBlocked := true }.tryBuffer bufferSize pkt)

/-- The end of `trySendFromBuffer`: whether `sendRetryReq` is called. -/
def sendRetryIfIdle (s : SliceState) : SliceState × Bool :=
  if s.requestBuffer.isEmpty && !s.innerCacheBlocked && s.pendingL1Retry then
    ({ s with pendingL1Retry := false }, true)
  else (s, false)

/-- The second value says that `sendRetryReq` is called; that is the last thing that is done. -/
def trySendFromBuffer (att : Attempt) (s : SliceState) : Except String (SliceState × Bool) :=
  match s.requestBuffer with
  | [] => .ok s.sendRetryIfIdle
  | pkt :: rest =>
    if s.innerCacheBlocked then .ok (s, false)
    else
      match s.innerCpuPortSendTimingReq att .L1MSHR pkt with
      | .error e => .error e
      | .ok (false, s) => .ok { s with innerCacheBlocked := true }.sendRetryIfIdle
      | .ok (true, s) => .ok { s with
          requestBuffer := rest
          trySendEvent := s.trySendEvent || !rest.isEmpty }.sendRetryIfIdle

def innerCpuPortRecvReqRetry (att : Attempt) (s : SliceState) :
    Except String (SliceState × Bool) :=
  if !s.innerCacheBlocked then .error "assert(inner_cache_blocked)"
  else if s.requestBuffer.isEmpty && !s.pendingL1Retry then
    .error "assert(!requestBuffer.empty() || pending_l1_retry)"
  else { s with innerCacheBlocked := false }.trySendFromBuffer att

def memSidePortRecvTimingResp (s : SliceState) : SliceState :=
  { s with readyResponses := s.readyResponses + 1, processResponsesEvent := true }

/-- `processResponses`, when its event has fired: a grant takes the pipeline before requests. -/
def processResponses (now : ℕ) (taskAvailable : Bool) (s : SliceState) : SliceState :=
  if s.readyResponses = 0 then s
  else
    let arb := s.reqArb.arbitrate .L2MSHRGrant now
    let left := if arb.1 && taskAvailable then s.readyResponses - 1 else s.readyResponses
    { s with
      reqArb := arb.2
      readyResponses := left
      processResponsesEvent := s.processResponsesEvent || decide (left ≠ 0) }

/-! ### The upstream cache and the events -/

def answered (pkt : L2Packet) (answer : Bool) (s : SliceState) : SliceState :=
  if answer then { s with accepted := s.accepted ++ [pkt] }
  else if pkt.isExpressSnoop then s
  else { s with upstreamWaits := true }

def request (bufferSize : ℕ) (att : Attempt) (pkt : L2Packet) (s : SliceState) :
    Except String SliceState :=
  (s.cpuSidePortRecvTimingReq bufferSize att pkt).map fun r => r.2.answered pkt r.1

/-- The requests that the upstream cache sends from within `sendRetryReq`; one that is refused is
the last, but for express snoops. -/
def resend (bufferSize : ℕ) : List (L2Packet × Attempt) → SliceState → Except String SliceState
  | [], s => .ok s
  | (pkt, att) :: rest, s =>
    if s.upstreamWaits && !pkt.isExpressSnoop then resend bufferSize rest s
    else
      match s.request bufferSize att pkt with
      | .error e => .error e
      | .ok s => resend bufferSize rest s

/-- `sendRetryReq`, if it is called. -/
def sendRetryReq (bufferSize : ℕ) (resent : List (L2Packet × Attempt)) :
    SliceState × Bool → Except String SliceState
  | (s, false) => .ok s
  | (s, true) => resend bufferSize resent { s with upstreamWaits := false }

end SliceState

inductive SliceEvent
  | request (pkt : L2Packet) (att : Attempt)
  | innerRetry (att : Attempt) (resent : List (L2Packet × Attempt))
  | trySend (att : Attempt) (resent : List (L2Packet × Attempt))
  | arbFailRetry (att : Attempt) (resent : List (L2Packet × Attempt))
  | memResp
  | processResponses (now : ℕ) (taskAvailable : Bool)

def SliceEvent.hasExpress : SliceEvent → Bool
  | .request pkt _ => pkt.isExpressSnoop
  | .innerRetry _ resent | .trySend _ resent | .arbFailRetry _ resent =>
    resent.any fun r => r.1.isExpressSnoop
  | .memResp | .processResponses _ _ => false

namespace SliceState

/-- The events that can happen: the upstream cache does not send a request while it waits, but for
express snoops; the inner cache sends the retries it owes; events fire when scheduled. -/
def possible (s : SliceState) : SliceEvent → Bool
  | .request pkt _ => pkt.isExpressSnoop || !s.upstreamWaits
  | .innerRetry _ _ => decide (0 < s.innerRetries)
  | .trySend _ _ => s.trySendEvent
  | .arbFailRetry _ _ => s.arbFailRetryEvent
  | .memResp => true
  | .processResponses _ _ => s.processResponsesEvent

def step (bufferSize : ℕ) (s : SliceState) : SliceEvent → Except String SliceState
  | .request pkt att => s.request bufferSize att pkt
  | .innerRetry att resent =>
    ({ s with innerRetries := s.innerRetries - 1 }.innerCpuPortRecvReqRetry att).bind
      (sendRetryReq bufferSize resent)
  | .trySend att resent =>
    ({ s with trySendEvent := false }.trySendFromBuffer att).bind (sendRetryReq bufferSize resent)
  | .arbFailRetry att resent =>
    ({ s with arbFailRetryEvent := false }.innerCpuPortRecvReqRetry att).bind
      (sendRetryReq bufferSize resent)
  | .memResp => .ok s.memSidePortRecvTimingResp
  | .processResponses now taskAvailable =>
    .ok ({ s with processResponsesEvent := false }.processResponses now taskAvailable)

end SliceState

/-! ### The invariant -/

namespace SliceState

/-- What was answered true and what is delivered or waits in the buffer are the same, in order. -/
structure Conserved (s : SliceState) : Prop where
  buffered : ∀ p ∈ s.requestBuffer, p.isExpressSnoop = false
  inOrder : s.delivered.filter (fun p => !p.isExpressSnoop) ++ s.requestBuffer =
    s.accepted.filter (fun p => !p.isExpressSnoop)
  express : s.delivered.filter (fun p => p.isExpressSnoop) =
    s.accepted.filter (fun p => p.isExpressSnoop)

/-- The invariant.  The slice is blocked for one cause, a retry that the inner cache owes or one
that is scheduled; and what waits, waits for a blocked slice or for `trySendEvent`. -/
structure SliceInv (s : SliceState) : Prop where
  retries : s.innerRetries + s.arbFailRetryEvent.toNat = s.innerCacheBlocked.toNat
  trySend : s.trySendEvent = (!s.innerCacheBlocked && !s.requestBuffer.isEmpty)
  blocked : s.innerCacheBlocked = true → s.requestBuffer.isEmpty = false ∨ s.pendingL1Retry = true
  pending : s.pendingL1Retry = true → s.innerCacheBlocked = true ∨ s.requestBuffer.isEmpty = false
  waits : s.upstreamWaits = s.pendingL1Retry
  conserved : s.Conserved

theorem sliceInv_start : SliceInv start where
  retries := rfl
  trySend := rfl
  blocked h := by simp [start] at h
  pending h := by simp [start] at h
  waits := rfl
  conserved := ⟨by simp [start], rfl, rfl⟩

/-! ### A request to the inner cache -/

structure Sent (pkt : L2Packet) (ok : Bool) (s t : SliceState) : Prop where
  buffer : t.requestBuffer = s.requestBuffer
  blocked : t.innerCacheBlocked = s.innerCacheBlocked
  pending : t.pendingL1Retry = s.pendingL1Retry
  trySend : t.trySendEvent = s.trySendEvent
  waits : t.upstreamWaits = s.upstreamWaits
  accepted : t.accepted = s.accepted
  retries : t.innerRetries + t.arbFailRetryEvent.toNat =
    s.innerRetries + s.arbFailRetryEvent.toNat + (!ok).toNat
  delivered : t.delivered = s.delivered ++ if ok then [pkt] else []

theorem delivered_offer (pkt : L2Packet) (accepts : Bool) (s : SliceState) :
    (s.offer pkt accepts).delivered = s.delivered ++ if accepts then [pkt] else [] := by
  cases accepts <;> simp [delivered, offer]

theorem innerCpuPortSendTimingReq_ok {s : SliceState} (h : s.arbFailRetryEvent = false)
    {pkt : L2Packet} (hpkt : pkt.isExpressSnoop = false) (att : Attempt) (source : TaskSource) :
    ∃ ok t, s.innerCpuPortSendTimingReq att source pkt = .ok (ok, t) ∧ Sent pkt ok s t := by
  by_cases harb : ((s.reqArb.arbitrate source att.now).1 && att.taskAvailable) = true
  · refine ⟨att.innerAccepts, _, if_pos harb, ?_⟩
    constructor
    case delivered => exact delivered_offer _ _ _
    case retries => cases att.innerAccepts <;> simp [offer, hpkt]; omega
    all_goals rfl
  · refine ⟨false, _, (if_neg harb).trans (if_neg (Bool.eq_false_iff.1 h)), ?_⟩
    constructor
    case delivered => simp [delivered]
    case retries => simp [h]
    all_goals rfl

section
variable {s : SliceState} {bufferSize : ℕ} {att : Attempt} {pkt : L2Packet}

theorem SliceInv.arbFail (hs : s.SliceInv) (h : s.innerCacheBlocked = false) :
    s.innerRetries = 0 ∧ s.arbFailRetryEvent = false := by
  have hsum := hs.retries
  cases hev : s.arbFailRetryEvent <;> simp [h, hev] at hsum
  exact ⟨hsum, rfl⟩

theorem Conserved.congr {t : SliceState} (hs : s.Conserved)
    (hbuf : t.requestBuffer = s.requestBuffer) (hdel : t.delivered = s.delivered)
    (hacc : t.accepted = s.accepted) : t.Conserved := by
  refine ⟨?_, ?_, ?_⟩
  · rw [hbuf]
    exact hs.buffered
  · rw [hdel, hbuf, hacc]
    exact hs.inOrder
  · rw [hdel, hacc]
    exact hs.express

theorem Conserved.accept {t : SliceState} (hs : s.Conserved) (hpkt : pkt.isExpressSnoop = false)
    (hacc : t.accepted = s.accepted ++ [pkt])
    (h : t.delivered ++ t.requestBuffer = s.delivered ++ s.requestBuffer ++ [pkt])
    (hbuf : t.requestBuffer = [] ∧ s.requestBuffer = [] ∨ t.delivered = s.delivered) :
    t.Conserved := by
  rcases hbuf with ⟨ht, hsbuf⟩ | hdel
  · rw [ht, hsbuf, append_nil, append_nil] at h
    have horder := hs.inOrder
    rw [hsbuf, append_nil] at horder
    constructor
    · simp [ht]
    · simp [ht, hacc, h, horder, hpkt]
    · simp [hacc, h, hs.express, hpkt]
  · rw [hdel, append_assoc, append_cancel_left_eq] at h
    constructor
    · intro p hp
      rw [h, mem_append, mem_singleton] at hp
      rcases hp with hp | rfl
      · exact hs.buffered p hp
      · exact hpkt
    · rw [hdel, h, hacc, ← append_assoc, hs.inOrder]
      simp [hpkt]
    · simp [hdel, hacc, hs.express, hpkt]

structure Busy (s : SliceState) : Prop where
  retries : s.innerRetries + s.arbFailRetryEvent.toNat = s.innerCacheBlocked.toNat
  trySend : s.trySendEvent = (!s.innerCacheBlocked && !s.requestBuffer.isEmpty)
  pending : s.pendingL1Retry = false
  waits : s.upstreamWaits = false
  conserved : s.Conserved
  busy : s.innerCacheBlocked = true ∨ s.requestBuffer.isEmpty = false

theorem Busy.refuse (hs : s.Busy) (hpkt : pkt.isExpressSnoop = false) :
    ({ s with pendingL1Retry := true }.answered pkt false).SliceInv := by
  have heq : { s with pendingL1Retry := true }.answered pkt false =
      { s with pendingL1Retry := true, upstreamWaits := true } := by
    simp [answered, hpkt]
  rw [heq]
  exact ⟨hs.retries, hs.trySend, fun _ => .inr rfl, fun _ => hs.busy, rfl,
    hs.conserved.congr rfl rfl rfl⟩

theorem Busy.tryBuffer (hs : s.Busy) (hpkt : pkt.isExpressSnoop = false) (bufferSize : ℕ) :
    ((s.tryBuffer bufferSize pkt).2.answered pkt (s.tryBuffer bufferSize pkt).1).SliceInv := by
  unfold SliceState.tryBuffer
  by_cases hfull : s.isFull bufferSize = true
  · rw [if_pos hfull]
    exact hs.refuse hpkt
  · rw [if_neg hfull]
    have hcons := hs.conserved.accept (t := { s with
      requestBuffer := s.requestBuffer ++ [pkt], accepted := s.accepted ++ [pkt] }) hpkt rfl
      (append_assoc _ _ _).symm (.inr rfl)
    have htry := hs.trySend
    refine ⟨hs.retries, ?_, fun _ => .inl (by simp [answered]), fun _ => .inr (by simp [answered]),
      hs.waits.trans hs.pending.symm, hcons⟩
    have hnonempty : (s.requestBuffer ++ [pkt]).isEmpty = false := by simp
    rcases hs.busy with hblocked | hbuf
    · simpa [answered, hblocked] using htry
    · simpa [answered, hbuf, hnonempty] using htry

theorem SliceInv.send_ok (hs : s.SliceInv) (hpkt : pkt.isExpressSnoop = false)
    (hwait : s.upstreamWaits = false) (hblocked : s.innerCacheBlocked = false)
    (hbuf : s.requestBuffer.isEmpty = true) (att : Attempt) (source : TaskSource) :
    (∃ t, s.innerCpuPortSendTimingReq att source pkt = .ok (true, t) ∧ t.upstreamWaits = false ∧
      (t.answered pkt true).SliceInv) ∨
    ∃ t, s.innerCpuPortSendTimingReq att source pkt = .ok (false, t) ∧
      Busy { t with innerCacheBlocked := true } := by
  have hpend : s.pendingL1Retry = false := hs.waits.symm.trans hwait
  obtain ⟨ok, t, hsend, hsent⟩ :=
    innerCpuPortSendTimingReq_ok (hs.arbFail hblocked).2 hpkt att source
  have hretries := hsent.retries
  rw [hs.retries, hblocked] at hretries
  have htry : t.trySendEvent = false := by rw [hsent.trySend, hs.trySend, hbuf]; simp
  cases ok with
  | true =>
    refine .inl ⟨t, hsend, hsent.waits.trans hwait, ?_⟩
    have hnil : s.requestBuffer = [] := List.isEmpty_iff.1 hbuf
    have hnil' : (t.answered pkt true).requestBuffer = [] := hsent.buffer.trans hnil
    have hdel : (t.answered pkt true).delivered = s.delivered ++ [pkt] := hsent.delivered
    have hcons := hs.conserved.accept (t := t.answered pkt true) hpkt
      (by simp [answered, hsent.accepted]) (by rw [hnil', hdel, hnil]; simp) (.inl ⟨hnil', hnil⟩)
    refine ⟨?_, ?_, ?_, ?_, ?_, hcons⟩
    · simpa [answered, hsent.blocked, hblocked] using hretries
    · simp [answered, htry, hsent.buffer, hbuf]
    · simp [answered, hsent.blocked, hblocked]
    · simp [answered, hsent.pending, hpend]
    · simp [answered, hsent.waits, hsent.pending, hwait, hpend]
  | false =>
    have hdel : t.delivered = s.delivered := by simpa using hsent.delivered
    refine .inr ⟨t, hsend, by simpa using hretries, by simpa using htry, ?_, ?_, ?_, .inl rfl⟩
    · exact hsent.pending.trans hpend
    · exact hsent.waits.trans hwait
    · exact hs.conserved.congr hsent.buffer hdel hsent.accepted

theorem tryBuffer_waits (bufferSize : ℕ) (pkt : L2Packet) (s : SliceState) :
    (s.tryBuffer bufferSize pkt).2.upstreamWaits = s.upstreamWaits := by
  unfold tryBuffer
  split <;> rfl

section
variable (hs : s.SliceInv) (hpkt : pkt.isExpressSnoop = false) (hwait : s.upstreamWaits = false)
  (bufferSize : ℕ) (att : Attempt)
include hs hpkt hwait

theorem SliceInv.recvTimingReq_ok :
    ∃ answer t, s.cpuSidePortRecvTimingReq bufferSize att pkt = .ok (answer, t) ∧
      t.upstreamWaits = false ∧ (t.answered pkt answer).SliceInv := by
  have hpend : s.pendingL1Retry = false := hs.waits.symm.trans hwait
  unfold cpuSidePortRecvTimingReq
  simp only [hpend, hpkt, Bool.false_eq_true, if_false]
  by_cases hbusy : (s.innerCacheBlocked || !s.requestBuffer.isEmpty) = true
  · have hb : s.Busy := ⟨hs.retries, hs.trySend, hpend, hwait, hs.conserved, by simpa using hbusy⟩
    split
    · exact ⟨_, _, rfl, hwait, hb.refuse hpkt⟩
    · exact ⟨_, _, rfl, (tryBuffer_waits _ _ _).trans hwait, hb.tryBuffer hpkt bufferSize⟩
  · simp only [hbusy]
    simp only [Bool.or_eq_true, Bool.not_eq_true', not_or, Bool.not_eq_true, Bool.not_eq_false]
      at hbusy
    split
    · rcases hs.send_ok hpkt hwait hbusy.1 hbusy.2 att .L1WQ with
        ⟨t, hsend, hw, ht⟩ | ⟨t, hsend, ht⟩
      · rw [hsend]
        exact ⟨_, _, rfl, hw, ht⟩
      · rw [hsend]
        exact ⟨_, _, rfl, ht.waits, ht.refuse hpkt⟩
    · rcases hs.send_ok hpkt hwait hbusy.1 hbusy.2 att (if pkt.isHWPrefetch then .L2PF else .L1MSHR)
        with ⟨t, hsend, hw, ht⟩ | ⟨t, hsend, ht⟩
      · rw [hsend]
        exact ⟨_, _, rfl, hw, ht⟩
      · rw [hsend]
        exact ⟨_, _, rfl, (tryBuffer_waits _ _ _).trans ht.waits, ht.tryBuffer hpkt bufferSize⟩

theorem SliceInv.request_ok : ∃ t, s.request bufferSize att pkt = .ok t ∧ t.SliceInv := by
  obtain ⟨answer, t, heq, -, ht⟩ := hs.recvTimingReq_ok hpkt hwait bufferSize att
  exact ⟨_, by rw [request, heq]; rfl, ht⟩
end

theorem recvTimingReq_of_pending (h : s.pendingL1Retry = true) (bufferSize : ℕ) (att : Attempt)
    (pkt : L2Packet) :
    s.cpuSidePortRecvTimingReq bufferSize att pkt = .error "assert(!pending_l1_retry)" := if_pos h

theorem recvTimingReq_express (h : s.pendingL1Retry = false) (hpkt : pkt.isExpressSnoop = true)
    (bufferSize : ℕ) (att : Attempt) : s.cpuSidePortRecvTimingReq bufferSize att pkt =
      .ok (att.innerAccepts, s.offer pkt att.innerAccepts) := by
  simp [cpuSidePortRecvTimingReq, h, hpkt]

theorem SliceInv.offer_express (hs : s.SliceInv) (hpkt : pkt.isExpressSnoop = true)
    (accepts : Bool) : ((s.offer pkt accepts).answered pkt accepts).SliceInv := by
  have hdel := delivered_offer pkt accepts s
  cases accepts with
  | true =>
    refine ⟨hs.retries, hs.trySend, hs.blocked, hs.pending, hs.waits, hs.conserved.buffered, ?_, ?_⟩
    · show (s.offer pkt true).delivered.filter _ ++ s.requestBuffer =
        (s.accepted ++ [pkt]).filter _
      rw [hdel, filter_append, filter_append, ← hs.conserved.inOrder]
      simp [hpkt]
    · show (s.offer pkt true).delivered.filter _ = (s.accepted ++ [pkt]).filter _
      rw [hdel, filter_append, filter_append, hs.conserved.express]
      rfl
  | false =>
    have hsame : (s.offer pkt false).answered pkt false = s.offer pkt false := by
      simp [answered, hpkt]
    have hretries : (s.offer pkt false).innerRetries = s.innerRetries := by simp [offer, hpkt]
    rw [hsame]
    exact ⟨hretries ▸ hs.retries, hs.trySend, hs.blocked, hs.pending, hs.waits,
      hs.conserved.congr rfl (by simpa using hdel) rfl⟩

theorem SliceInv.request_express (hs : s.SliceInv) (hpkt : pkt.isExpressSnoop = true)
    {bufferSize : ℕ} {att : Attempt} {t : SliceState}
    (h : s.request bufferSize att pkt = .ok t) : t.SliceInv := by
  unfold request at h
  cases hpend : s.pendingL1Retry with
  | true => simp [recvTimingReq_of_pending hpend, Except.map] at h
  | false =>
    rw [recvTimingReq_express hpend hpkt] at h
    cases h
    exact hs.offer_express hpkt att.innerAccepts
end

/-! ### Retries -/

section
variable {s : SliceState} {bufferSize : ℕ}

structure Woken (s : SliceState) : Prop where
  retries : s.innerRetries = 0
  arbFail : s.arbFailRetryEvent = false
  unblocked : s.innerCacheBlocked = false
  trySend : s.trySendEvent = false
  waits : s.upstreamWaits = s.pendingL1Retry
  conserved : s.Conserved

/-- How a call ends: without the retry of the upstream cache, or with it, when the upstream cache
no longer waits. -/
def RetryDone (s : SliceState) (x : Except String (SliceState × Bool)) : Prop :=
  (∃ t, x = .ok (t, false) ∧ t.SliceInv ∧ t.upstreamWaits = s.upstreamWaits) ∨
  ∃ t, x = .ok (t, true) ∧ SliceInv { t with upstreamWaits := false } ∧ s.upstreamWaits = true

theorem sendRetryIfIdle_ok
    (hretries : s.innerRetries + s.arbFailRetryEvent.toNat = s.innerCacheBlocked.toNat)
    (htry : s.trySendEvent = (!s.innerCacheBlocked && !s.requestBuffer.isEmpty))
    (hblocked : s.innerCacheBlocked = true → s.requestBuffer.isEmpty = false)
    (hwaits : s.upstreamWaits = s.pendingL1Retry) (hcons : s.Conserved) :
    RetryDone s (.ok s.sendRetryIfIdle) := by
  unfold sendRetryIfIdle
  by_cases hidle : (s.requestBuffer.isEmpty && !s.innerCacheBlocked && s.pendingL1Retry) = true
  · rw [if_pos hidle]
    simp only [Bool.and_eq_true, Bool.not_eq_true'] at hidle
    obtain ⟨⟨hbuf, hopen⟩, hpend⟩ := hidle
    refine .inr ⟨_, rfl, ⟨hretries, htry, ?_, ?_, rfl, hcons.congr rfl rfl rfl⟩, hwaits.trans hpend⟩
    · intro h
      exact absurd (hopen.symm.trans h) (by simp)
    · intro h
      simp at h
  · rw [if_neg hidle]
    refine .inl ⟨s, rfl, ⟨hretries, htry, fun h => .inl (hblocked h), fun hpend => ?_, hwaits,
      hcons⟩, rfl⟩
    by_contra hnot
    rw [not_or, Bool.not_eq_true, Bool.not_eq_false] at hnot
    simp [hnot.1, hnot.2, hpend] at hidle

theorem RetryDone.of_waits {s t : SliceState} {x : Except String (SliceState × Bool)}
    (h : RetryDone t x) (hwaits : t.upstreamWaits = s.upstreamWaits) : RetryDone s x := by
  unfold RetryDone at h ⊢
  rwa [hwaits] at h

theorem Woken.trySendFromBuffer_ok (hs : s.Woken) (att : Attempt) :
    RetryDone s (s.trySendFromBuffer att) := by
  unfold trySendFromBuffer
  cases hbuf : s.requestBuffer with
  | nil =>
    exact sendRetryIfIdle_ok (by simp [hs.retries, hs.arbFail, hs.unblocked])
      (by simp [hs.trySend, hbuf]) (by simp [hs.unblocked]) hs.waits hs.conserved
  | cons pkt rest =>
    have hpkt : pkt.isExpressSnoop = false :=
      hs.conserved.buffered pkt (by rw [hbuf]; exact mem_cons_self)
    obtain ⟨ok, t, hsend, hsent⟩ := innerCpuPortSendTimingReq_ok hs.arbFail hpkt att .L1MSHR
    have hretries := hsent.retries
    rw [hs.retries, hs.arbFail] at hretries
    have hwaits : t.upstreamWaits = t.pendingL1Retry := by
      rw [hsent.waits, hsent.pending, hs.waits]
    have htry : t.trySendEvent = false := hsent.trySend.trans hs.trySend
    simp only [hs.unblocked, hsend]
    cases ok with
    | false =>
      have hdel : t.delivered = s.delivered := by simpa using hsent.delivered
      have hidle := sendRetryIfIdle_ok (s := { t with innerCacheBlocked := true })
        (by simpa using hretries) (by simp [htry]) (by simp [hsent.buffer, hbuf]) hwaits
        (hs.conserved.congr hsent.buffer hdel hsent.accepted)
      exact hidle.of_waits hsent.waits
    | true =>
      have hcons : Conserved { t with
          requestBuffer := rest, trySendEvent := t.trySendEvent || !rest.isEmpty } := by
        have hold := hs.conserved
        have hdel : t.delivered = s.delivered ++ [pkt] := hsent.delivered
        refine ⟨fun p hp => hold.buffered p ?_, ?_, ?_⟩
        · rw [hbuf]
          exact mem_cons_of_mem pkt hp
        · show t.delivered.filter _ ++ rest = t.accepted.filter _
          rw [hdel, hsent.accepted, ← hold.inOrder, hbuf]
          simp [hpkt]
        · show t.delivered.filter _ = t.accepted.filter _
          rw [hdel, hsent.accepted, ← hold.express]
          simp [hpkt]
      have hidle := sendRetryIfIdle_ok
        (s := { t with requestBuffer := rest, trySendEvent := t.trySendEvent || !rest.isEmpty })
        (by simpa [hsent.blocked, hs.unblocked] using hretries)
        (by simp [htry, hsent.blocked, hs.unblocked]) (by simp [hsent.blocked, hs.unblocked])
        hwaits hcons
      exact hidle.of_waits hsent.waits

theorem SliceInv.recvReqRetry_ok (hs : s.SliceInv) (hretry : s.innerCacheBlocked = true)
    (att : Attempt) : RetryDone s ({ s with
      innerRetries := 0, arbFailRetryEvent := false }.innerCpuPortRecvReqRetry att) := by
  have htry : s.trySendEvent = false := by
    rw [hs.trySend, hretry]
    rfl
  have hwoken : Woken { s with
      innerRetries := 0, arbFailRetryEvent := false, innerCacheBlocked := false } :=
    ⟨rfl, rfl, rfl, htry, hs.waits, hs.conserved.congr rfl rfl rfl⟩
  have hnot : ¬ (s.requestBuffer.isEmpty && !s.pendingL1Retry) = true := by
    rcases hs.blocked hretry with h | h <;> simp [h]
  unfold innerCpuPortRecvReqRetry
  simp only [hretry, hnot]
  exact (hwoken.trySendFromBuffer_ok att).of_waits rfl

theorem SliceInv.request_inv {pkt : L2Packet} {att : Attempt} {t : SliceState} (hs : s.SliceInv)
    (hpkt : (s.upstreamWaits && !pkt.isExpressSnoop) = false)
    (h : s.request bufferSize att pkt = .ok t) : t.SliceInv := by
  cases hexp : pkt.isExpressSnoop with
  | true => exact hs.request_express hexp h
  | false =>
    obtain ⟨u, hu, hinv⟩ := hs.request_ok hexp (by simpa [hexp] using hpkt) bufferSize att
    rw [h] at hu
    cases hu
    exact hinv

section
variable {resent : List (L2Packet × Attempt)}

theorem SliceInv.resend_inv {t : SliceState}
    (hs : s.SliceInv) (h : resend bufferSize resent s = .ok t) : t.SliceInv := by
  induction resent generalizing s with
  | nil =>
    cases h
    exact hs
  | cons r rest ih =>
    obtain ⟨pkt, att⟩ := r
    unfold resend at h
    split at h
    · exact ih hs h
    case isFalse hsend =>
      cases hreq : s.request bufferSize att pkt with
      | error e => simp [hreq] at h
      | ok u =>
        simp only [hreq] at h
        exact ih (hs.request_inv (by simpa using hsend) hreq) h

theorem SliceInv.resend_ok (hs : s.SliceInv)
    (hresent : resent.any (fun r => r.1.isExpressSnoop) = false) (bufferSize : ℕ) :
    ∃ t, resend bufferSize resent s = .ok t := by
  induction resent generalizing s with
  | nil => exact ⟨s, rfl⟩
  | cons r rest ih =>
    obtain ⟨pkt, att⟩ := r
    simp only [any_cons, Bool.or_eq_false_iff] at hresent
    obtain ⟨hpkt, hrest⟩ := hresent
    unfold resend
    cases hwait : s.upstreamWaits with
    | true =>
      simp only [hpkt]
      exact ih hs hrest
    | false =>
      obtain ⟨t, ht, hinv⟩ := hs.request_ok hpkt hwait bufferSize att
      simp only [ht]
      exact ih hinv hrest
end
end

/-! ### Events -/

section
variable {s : SliceState} {bufferSize : ℕ}

theorem RetryDone.sendRetryReq_spec {x : Except String (SliceState × Bool)} (hx : RetryDone s x)
    (resent : List (L2Packet × Attempt)) :
    (∀ t, x.bind (sendRetryReq bufferSize resent) = .ok t → t.SliceInv) ∧
      (resent.any (fun r => r.1.isExpressSnoop) = false →
        ∃ t, x.bind (sendRetryReq bufferSize resent) = .ok t) := by
  rcases hx with ⟨u, rfl, hu, -⟩ | ⟨u, rfl, hu, -⟩
  · refine ⟨fun t ht => ?_, fun _ => ⟨u, rfl⟩⟩
    cases ht
    exact hu
  · exact ⟨fun t ht => hu.resend_inv ht, fun hresent => hu.resend_ok hresent bufferSize⟩

section
variable (hs : s.SliceInv)
include hs

theorem SliceInv.one_retry (h : 0 < s.innerRetries ∨ s.arbFailRetryEvent = true) :
    s.innerCacheBlocked = true ∧ s.innerRetries - 1 = 0 ∧
      (0 < s.innerRetries → s.arbFailRetryEvent = false) ∧
      (s.arbFailRetryEvent = true → s.innerRetries = 0) := by
  have hsum := hs.retries
  cases hb : s.innerCacheBlocked <;> cases ha : s.arbFailRetryEvent <;>
    simp [hb, ha] at hsum h ⊢ <;> omega

theorem SliceInv.innerRetry_ok (howed : 0 < s.innerRetries) (att : Attempt) :
    RetryDone s ({ s with innerRetries := s.innerRetries - 1 }.innerCpuPortRecvReqRetry att) := by
  obtain ⟨hblocked, hzero, harb, -⟩ := hs.one_retry (.inl howed)
  have heq : { s with innerRetries := s.innerRetries - 1 } =
      { s with innerRetries := 0, arbFailRetryEvent := false } := by
    simp [hzero, harb howed]
  rw [heq]
  exact hs.recvReqRetry_ok hblocked att

theorem SliceInv.arbFailRetry_ok (hev : s.arbFailRetryEvent = true) (att : Attempt) :
    RetryDone s ({ s with arbFailRetryEvent := false }.innerCpuPortRecvReqRetry att) := by
  obtain ⟨hblocked, -, -, hzero⟩ := hs.one_retry (.inr hev)
  have heq : { s with arbFailRetryEvent := false } =
      { s with innerRetries := 0, arbFailRetryEvent := false } := by
    simp [hzero hev]
  rw [heq]
  exact hs.recvReqRetry_ok hblocked att

theorem SliceInv.trySend_ok (hev : s.trySendEvent = true) (att : Attempt) :
    RetryDone s ({ s with trySendEvent := false }.trySendFromBuffer att) := by
  have hopen : s.innerCacheBlocked = false := by
    have htry := hs.trySend
    rw [hev] at htry
    cases hb : s.innerCacheBlocked <;> simp [hb] at htry ⊢
  obtain ⟨hzero, harb⟩ := hs.arbFail hopen
  have hwoken : Woken { s with trySendEvent := false } :=
    ⟨hzero, harb, hopen, rfl, hs.waits, hs.conserved.congr rfl rfl rfl⟩
  exact (hwoken.trySendFromBuffer_ok att).of_waits rfl

theorem SliceInv.memResp : s.memSidePortRecvTimingResp.SliceInv :=
  ⟨hs.retries, hs.trySend, hs.blocked, hs.pending, hs.waits, hs.conserved.congr rfl rfl rfl⟩

theorem SliceInv.processResponses (now : ℕ) (taskAvailable : Bool) :
    ({ s with processResponsesEvent := false }.processResponses now taskAvailable).SliceInv := by
  unfold SliceState.processResponses
  split
  all_goals exact ⟨hs.retries, hs.trySend, hs.blocked, hs.pending, hs.waits,
    hs.conserved.congr rfl rfl rfl⟩

theorem SliceInv.step_spec {e : SliceEvent} (he : s.possible e = true) :
    (∀ t, s.step bufferSize e = .ok t → t.SliceInv) ∧
      (e.hasExpress = false → ∃ t, s.step bufferSize e = .ok t) := by
  cases e with
  | request pkt att =>
    have hpkt : (s.upstreamWaits && !pkt.isExpressSnoop) = false := by
      cases hexp : pkt.isExpressSnoop with
      | true => simp
      | false => simpa [possible, hexp] using he
    refine ⟨fun t ht => hs.request_inv hpkt ht, fun hexp => ?_⟩
    have hexp : pkt.isExpressSnoop = false := hexp
    obtain ⟨t, ht, -⟩ := hs.request_ok hexp (by simpa [hexp] using hpkt) bufferSize att
    exact ⟨t, ht⟩
  | innerRetry att resent =>
    exact (hs.innerRetry_ok (by simpa [possible] using he) att).sendRetryReq_spec resent
  | trySend att resent => exact (hs.trySend_ok he att).sendRetryReq_spec resent
  | arbFailRetry att resent => exact (hs.arbFailRetry_ok he att).sendRetryReq_spec resent
  | memResp =>
    refine ⟨fun t ht => ?_, fun _ => ⟨_, rfl⟩⟩
    cases ht
    exact hs.memResp
  | processResponses now taskAvailable =>
    refine ⟨fun t ht => ?_, fun _ => ⟨_, rfl⟩⟩
    cases ht
    exact hs.processResponses now taskAvailable
end
end
end SliceState

/-! ### Flow control -/

open SliceState

inductive SliceReachable (bufferSize : ℕ) : SliceState → Prop
  | start : SliceReachable bufferSize .start
  | step {s t : SliceState} {e : SliceEvent} : SliceReachable bufferSize s → s.possible e = true →
      s.step bufferSize e = .ok t → SliceReachable bufferSize t

theorem SliceReachable.sliceInv {bufferSize : ℕ} {s : SliceState}
    (h : SliceReachable bufferSize s) : s.SliceInv := by
  induction h with
  | start => exact sliceInv_start
  | step _ he ht ih => exact (ih.step_spec he).1 _ ht

/-- Nothing is lost: the packets answered true are those delivered, followed by those in the buffer,
in order; the express snoops go past the buffer.  Whoever waits is woken: while a packet is in the
buffer or the upstream cache waits, a retry of the inner cache is owed or an event is scheduled. -/
structure FlowControl (s : SliceState) : Prop where
  inOrder : s.delivered.filter (fun p => !p.isExpressSnoop) ++ s.requestBuffer =
    s.accepted.filter (fun p => !p.isExpressSnoop)
  express : s.delivered.filter (fun p => p.isExpressSnoop) =
    s.accepted.filter (fun p => p.isExpressSnoop)
  woken : s.requestBuffer ≠ [] ∨ s.upstreamWaits = true →
    0 < s.innerRetries ∨ s.trySendEvent = true ∨ s.arbFailRetryEvent = true

theorem SliceState.SliceInv.flowControl {s : SliceState} (hs : s.SliceInv) : FlowControl s := by
  refine ⟨hs.conserved.inOrder, hs.conserved.express, fun h => ?_⟩
  have hcause : s.innerCacheBlocked = true ∨ s.requestBuffer.isEmpty = false := by
    rcases h with h | h
    · exact .inr (by simpa using h)
    · exact hs.pending (hs.waits ▸ h)
  have hsum := hs.retries
  have htry := hs.trySend
  cases hb : s.innerCacheBlocked with
  | true =>
    cases ha : s.arbFailRetryEvent with
    | true => exact .inr (.inr rfl)
    | false =>
      refine .inl ?_
      simp [hb, ha] at hsum
      omega
  | false =>
    simp only [hb, Bool.false_eq_true, false_or] at hcause
    exact .inr (.inl (by simp [htry, hb, hcause]))

/-- In every reachable state the flow control is right, and no event without an express snoop fails
an assert or schedules an event twice. -/
theorem slice_flowControl {bufferSize : ℕ} {s : SliceState} (h : SliceReachable bufferSize s) :
    FlowControl s ∧
      ∀ e, s.possible e = true → e.hasExpress = false → ∃ t, s.step bufferSize e = .ok t :=
  ⟨h.sliceInv.flowControl, fun _ he hexp => (h.sliceInv.step_spec he).2 hexp⟩

def readPacket (addr : ℕ) : L2Packet :=
  ⟨addr, false, false, true⟩

def crowdedSlice : SliceState where
  requestBuffer := [readPacket 0]
  reqArb := ⟨0, false, true, false⟩
  innerCacheBlocked := true
  pendingL1Retry := true
  trySendEvent := false
  arbFailRetryEvent := false
  processResponsesEvent := false
  readyResponses := 0
  innerRetries := 1
  upstreamWaits := true
  accepted := [readPacket 0]
  offered := [(readPacket 0, false)]

/-- The first read waits for the inner cache, the second was refused and is owed a retry. -/
theorem crowdedSlice_flowControl :
    SliceReachable 1 crowdedSlice ∧ FlowControl crowdedSlice ∧
      ∃ t, crowdedSlice.step 1 (.innerRetry ⟨1, true, true⟩ [(readPacket 64, ⟨1, true, false⟩)]) =
        .ok t := by
  have hfirst : SliceReachable 1
      { crowdedSlice with pendingL1Retry := false, upstreamWaits := false } :=
    .step (e := .request (readPacket 0) ⟨0, true, false⟩) .start rfl rfl
  have hreach : SliceReachable 1 crowdedSlice :=
    .step (e := .request (readPacket 64) ⟨0, true, true⟩) hfirst rfl rfl
  obtain ⟨hflow, hstep⟩ := slice_flowControl hreach
  exact ⟨hreach, hflow, hstep _ rfl rfl⟩

end Gem5
