import Gem5.L2.Slice
import Mathlib.Algebra.Group.Nat.Defs

/-!
# The sliced second level cache

The wrapper sends each request of the first level cache to the slice that owns its address, and the
packets of a prefetcher too.  While a slice has refused a prefetch, `prefetchBlocked` holds back all
requests of the first level cache; while one of these was refused, `upperReqBlocked` holds back the
prefetches.
-/

namespace Gem5
open List Function Bool

/-- There are `2 ^ sliceBits` slices; a block has `2 ^ blockBits` bytes. -/
structure L2Config where
  sliceBits : ℕ
  blockBits : ℕ
  bufferSize : ℕ

namespace L2Config
variable (c : L2Config)

def numSlices : ℕ := 2 ^ c.sliceBits

def sliceMask : ℕ := c.numSlices - 1

theorem and_sliceMask_lt (a : ℕ) : a &&& c.sliceMask < c.numSlices := by
  have hpos : 0 < c.numSlices := Nat.two_pow_pos _
  have hle : a &&& c.sliceMask ≤ c.numSlices - 1 := Nat.and_le_right
  omega

def getSliceId (addr : ℕ) : Fin c.numSlices :=
  ⟨(addr >>> c.blockBits) &&& c.sliceMask, c.and_sliceMask_lt _⟩

end L2Config

/-- The wrapper: `prefetcher` has the packets that the prefetcher holds ready, and `l1Waits` says
that the first level cache waits for a retry. -/
structure WrapperState (c : L2Config) where
  slices : Fin c.numSlices → SliceState
  prefetchBlocked : Bool
  upperReqBlocked : Bool
  outstandingPrefetch : Option L2Packet
  sendPrefetchEvent : Bool
  prefetcher : List L2Packet
  l1Waits : Bool

namespace WrapperState
variable {c : L2Config}

def start : WrapperState c where
  slices := fun _ => .start
  prefetchBlocked := false
  upperReqBlocked := false
  outstandingPrefetch := none
  sendPrefetchEvent := false
  prefetcher := []
  l1Waits := false

def setSlice (i : Fin c.numSlices) (s : SliceState) (w : WrapperState c) : WrapperState c :=
  { w with slices := Function.update w.slices i s }

def needPrefetch (w : WrapperState c) : Bool :=
  (!w.prefetcher.isEmpty || w.outstandingPrefetch.isSome) && !w.prefetchBlocked

def scheduleSendPrefetch (w : WrapperState c) : WrapperState c :=
  { w with sendPrefetchEvent := w.sendPrefetchEvent || w.needPrefetch }

/-- `sendTimingReq` of the port of a slice. -/
def sendToSlice (att : Attempt) (pkt : L2Packet) (w : WrapperState c) :
    Except String (Bool × WrapperState c) :=
  let i := c.getSliceId pkt.addr
  match (w.slices i).cpuSidePortRecvTimingReq c.bufferSize att pkt with
  | .error e => .error e
  | .ok (answer, s) => .ok (answer, w.setSlice i (s.answered pkt answer))

def takePrefetch (w : WrapperState c) : WrapperState c :=
  match w.outstandingPrefetch, w.prefetcher with
  | none, pkt :: rest => { w with outstandingPrefetch := some pkt, prefetcher := rest }
  | _, _ => w

def processSendPrefetchEvent (att : Attempt) (w : WrapperState c) :
    Except String (WrapperState c) :=
  if w.prefetchBlocked then .ok w
  else
    let w := w.takePrefetch
    match w.outstandingPrefetch with
    | none => .ok w
    | some pkt =>
      if w.upperReqBlocked then .ok w
      else
        match w.sendToSlice att pkt with
        | .error e => .error e
        | .ok (false, w) => .ok { w with prefetchBlocked := true }
        | .ok (true, w) => .ok { w with outstandingPrefetch := none }.scheduleSendPrefetch

def recvTimingReq (att : Attempt) (pkt : L2Packet) (w : WrapperState c) :
    Except String (Bool × WrapperState c) :=
  if w.prefetchBlocked then .ok (false, { w with upperReqBlocked := true })
  else
    match w.sendToSlice att pkt with
    | .error e => .error e
    | .ok (false, w) => .ok (false, { w with upperReqBlocked := true })
    | .ok (true, w) => .ok (true, w.scheduleSendPrefetch)

/-- The first level cache has the answer; it waits if a request was refused that is not an express
snoop. -/
def answered (pkt : L2Packet) (answer : Bool) (w : WrapperState c) : WrapperState c :=
  { w with l1Waits := w.l1Waits || (!answer && !pkt.isExpressSnoop) }

def request (att : Attempt) (pkt : L2Packet) (w : WrapperState c) :
    Except String (WrapperState c) :=
  (w.recvTimingReq att pkt).map fun r => r.2.answered pkt r.1

def resend : List (L2Packet × Attempt) → WrapperState c → Except String (WrapperState c)
  | [], w => .ok w
  | (pkt, att) :: rest, w =>
    if w.l1Waits && !pkt.isExpressSnoop then resend rest w
    else
      match w.request att pkt with
      | .error e => .error e
      | .ok w => resend rest w

def unblockPrefetch (w : WrapperState c) : WrapperState c :=
  if w.prefetchBlocked then { w with prefetchBlocked := false }.scheduleSendPrefetch else w

def recvReqRetry (resent : List (L2Packet × Attempt)) (w : WrapperState c) :
    Except String (WrapperState c) :=
  if !(w.prefetchBlocked || w.upperReqBlocked) then
    .error "assert(owner.prefetch_blocked || owner.upper_req_blocked)"
  else
    let w := w.unblockPrefetch
    if w.upperReqBlocked then resend resent { w with upperReqBlocked := false, l1Waits := false }
    else .ok w

def sliceDone (i : Fin c.numSlices) (resent : List (L2Packet × Attempt)) (w : WrapperState c) :
    SliceState × Bool → Except String (WrapperState c)
  | (s, false) => .ok (w.setSlice i s)
  | (s, true) => (w.setSlice i { s with upstreamWaits := false }).recvReqRetry resent

end WrapperState

inductive WrapperEvent (c : L2Config)
  | request (pkt : L2Packet) (att : Attempt)
  | prefetch (pkt : L2Packet)
  | sendPrefetch (att : Attempt)
  | innerRetry (i : Fin c.numSlices) (att : Attempt) (resent : List (L2Packet × Attempt))
  | trySend (i : Fin c.numSlices) (att : Attempt) (resent : List (L2Packet × Attempt))
  | arbFailRetry (i : Fin c.numSlices) (att : Attempt) (resent : List (L2Packet × Attempt))
  | memResp (i : Fin c.numSlices)
  | processResponses (i : Fin c.numSlices) (now : ℕ) (taskAvailable : Bool)

namespace WrapperState
variable {c : L2Config}

def possible (w : WrapperState c) : WrapperEvent c → Bool
  | .request pkt _ => pkt.isExpressSnoop || !w.l1Waits
  | .prefetch pkt => pkt.isHWPrefetch && !pkt.isExpressSnoop
  | .sendPrefetch _ => w.sendPrefetchEvent
  | .innerRetry i _ _ => decide (0 < (w.slices i).innerRetries)
  | .trySend i _ _ => (w.slices i).trySendEvent
  | .arbFailRetry i _ _ => (w.slices i).arbFailRetryEvent
  | .memResp _ => true
  | .processResponses i _ _ => (w.slices i).processResponsesEvent

def step (w : WrapperState c) : WrapperEvent c → Except String (WrapperState c)
  | .request pkt att => w.request att pkt
  | .prefetch pkt => .ok { w with prefetcher := w.prefetcher ++ [pkt] }
  | .sendPrefetch att => { w with sendPrefetchEvent := false }.processSendPrefetchEvent att
  | .innerRetry i att resent =>
    let s := w.slices i
    ({ s with innerRetries := s.innerRetries - 1 }.innerCpuPortRecvReqRetry att).bind
      (w.sliceDone i resent)
  | .trySend i att resent =>
    ({ w.slices i with trySendEvent := false }.trySendFromBuffer att).bind (w.sliceDone i resent)
  | .arbFailRetry i att resent =>
    ({ w.slices i with arbFailRetryEvent := false }.innerCpuPortRecvReqRetry att).bind
      (w.sliceDone i resent)
  | .memResp i => .ok (w.setSlice i (w.slices i).memSidePortRecvTimingResp)
  | .processResponses i now taskAvailable => .ok (w.setSlice i
      ({ w.slices i with processResponsesEvent := false }.processResponses now taskAvailable))

end WrapperState

inductive WrapperReachable {c : L2Config} : WrapperState c → Prop
  | start : WrapperReachable .start
  | step {w w' : WrapperState c} {e : WrapperEvent c} : WrapperReachable w → w.possible e = true →
      w.step e = .ok w' → WrapperReachable w'

def WrapperEvent.hasExpress {c : L2Config} : WrapperEvent c → Bool
  | .request pkt _ => pkt.isExpressSnoop
  | .innerRetry _ _ resent | .trySend _ _ resent | .arbFailRetry _ _ resent =>
    resent.any fun r => r.1.isExpressSnoop
  | .prefetch _ | .sendPrefetch _ | .memResp _ | .processResponses _ _ _ => false

namespace WrapperState
variable {c : L2Config} {w : WrapperState c}

/-! ### The invariant -/

structure WrapperInv (w : WrapperState c) : Prop where
  slice : ∀ i, (w.slices i).SliceInv
  one : ∀ ⦃i j⦄, (w.slices i).pendingL1Retry = true → (w.slices j).pendingL1Retry = true → i = j
  known : ∀ ⦃i⦄, (w.slices i).pendingL1Retry = true → w.prefetchBlocked = true ∨ w.l1Waits = true
  l1Waits : w.l1Waits = true → w.upperReqBlocked = true
  prefetches : ∀ p ∈ w.outstandingPrefetch.toList ++ w.prefetcher, p.isExpressSnoop = false

theorem wrapperInv_start : WrapperInv (start : WrapperState c) where
  slice _ := SliceState.sliceInv_start
  one _ _ h := by simp [start, SliceState.start] at h
  known _ h := by simp [start, SliceState.start] at h
  l1Waits h := by simp [start] at h
  prefetches := by simp [start]

def AllOpen (w : WrapperState c) : Prop :=
  ∀ i, (w.slices i).pendingL1Retry = false

theorem WrapperInv.allOpen (hw : w.WrapperInv) (hp : w.prefetchBlocked = false)
    (hl : w.l1Waits = false) : w.AllOpen := by
  intro i
  by_contra h
  rw [not_eq_false] at h
  simpa [hp, hl] using hw.known h

theorem AllOpen.wrapperInv (hopen : w.AllOpen) (hslice : ∀ i, (w.slices i).SliceInv)
    (hl : w.l1Waits = true → w.upperReqBlocked = true)
    (hpre : ∀ p ∈ w.outstandingPrefetch.toList ++ w.prefetcher, p.isExpressSnoop = false) :
    w.WrapperInv where
  slice := hslice
  one i _ h := by simp [hopen i] at h
  known i h := by simp [hopen i] at h
  l1Waits := hl
  prefetches := hpre

def Owed (w : WrapperState c) : Prop :=
  w.prefetchBlocked = true ∨ w.upperReqBlocked = true → ∃ i, (w.slices i).pendingL1Retry = true

theorem WrapperInv.setSlice (hw : w.WrapperInv) (i : Fin c.numSlices) {s : SliceState}
    (hs : s.SliceInv) (hpend : s.pendingL1Retry = (w.slices i).pendingL1Retry) :
    (w.setSlice i s).WrapperInv := by
  have hall (j : Fin c.numSlices) :
      ((w.setSlice i s).slices j).pendingL1Retry = (w.slices j).pendingL1Retry := by
    by_cases hj : j = i
    · subst hj
      simp [WrapperState.setSlice, hpend]
    · simp [WrapperState.setSlice, hj]
  refine ⟨fun j => ?_, fun j k => ?_, fun j => ?_, hw.l1Waits, hw.prefetches⟩
  · by_cases hj : j = i
    · subst hj
      simpa [WrapperState.setSlice] using hs
    · simpa [WrapperState.setSlice, hj] using hw.slice j
  · rw [hall, hall]
    exact fun h h' => hw.one h h'
  · rw [hall]
    exact fun h => hw.known h

section
variable {w' : WrapperState c} {i : Fin c.numSlices} {s : SliceState} {att : Attempt}
  {pkt : L2Packet}

theorem sliceInv_update (hslice : ∀ i, (w.slices i).SliceInv) (hs : s.SliceInv)
    (h : w'.slices = Function.update w.slices i s) (j : Fin c.numSlices) :
    (w'.slices j).SliceInv := by
  rw [h]
  by_cases hj : j = i
  · subst hj
    simpa using hs
  · simpa [hj] using hslice j

theorem AllOpen.update (hopen : w.AllOpen) (hs : s.pendingL1Retry = false)
    (h : w'.slices = Function.update w.slices i s) : w'.AllOpen := by
  intro j
  rw [h]
  by_cases hj : j = i
  · subst hj
    simpa using hs
  · simpa [hj] using hopen j

theorem AllOpen.refused (hopen : w.AllOpen) (hslice : ∀ i, (w.slices i).SliceInv) (hs : s.SliceInv)
    (h : w'.slices = Function.update w.slices i s)
    (hknown : w'.prefetchBlocked = true ∨ w'.l1Waits = true)
    (hl : w'.l1Waits = true → w'.upperReqBlocked = true)
    (hpre : ∀ p ∈ w'.outstandingPrefetch.toList ++ w'.prefetcher, p.isExpressSnoop = false) :
    w'.WrapperInv := by
  have honly (j : Fin c.numSlices) (hj : (w'.slices j).pendingL1Retry = true) : j = i := by
    by_contra hne
    rw [h, update_of_ne hne, hopen j] at hj
    simp at hj
  refine ⟨sliceInv_update hslice hs h, fun j k hj hk => ?_, fun _ _ => hknown, hl, hpre⟩
  rw [honly j hj, honly k hk]

theorem AllOpen.sendToSlice_ok (hopen : w.AllOpen) (hslice : ∀ i, (w.slices i).SliceInv)
    (hpkt : pkt.isExpressSnoop = false) (att : Attempt) :
    ∃ answer s, w.sendToSlice att pkt = .ok (answer, w.setSlice (c.getSliceId pkt.addr) s) ∧
      s.SliceInv ∧ s.pendingL1Retry = !answer := by
  have hinv := hslice (c.getSliceId pkt.addr)
  obtain ⟨answer, t, heq, hwaits, ht⟩ :=
    hinv.recvTimingReq_ok hpkt (hinv.waits.trans (hopen _)) c.bufferSize att
  refine ⟨answer, t.answered pkt answer, by simp only [sendToSlice, heq], ht, ?_⟩
  rw [← ht.waits]
  cases answer <;> simp [SliceState.answered, hpkt, hwaits]

theorem recvTimingReq_of_blocked (h : w.prefetchBlocked = true) (att : Attempt) (pkt : L2Packet) :
    w.recvTimingReq att pkt = .ok (false, { w with upperReqBlocked := true }) := if_pos h

theorem recvTimingReq_of_sent (h : w.prefetchBlocked = false) {answer : Bool}
    (hsend : w.sendToSlice att pkt = .ok (answer, w')) : w.recvTimingReq att pkt =
      .ok (answer, if answer then w'.scheduleSendPrefetch
        else { w' with upperReqBlocked := true }) := by
  cases answer <;> simp [recvTimingReq, h, hsend]

theorem sendToSlice_express (h : (w.slices (c.getSliceId pkt.addr)).pendingL1Retry = false)
    (hpkt : pkt.isExpressSnoop = true) (att : Attempt) :
    w.sendToSlice att pkt = .ok (att.innerAccepts, w.setSlice (c.getSliceId pkt.addr)
      ((w.slices (c.getSliceId pkt.addr)).offer pkt att.innerAccepts
        |>.answered pkt att.innerAccepts)) := by
  simp only [sendToSlice, SliceState.recvTimingReq_express h hpkt]

theorem WrapperInv.request_ok (hw : w.WrapperInv) (hpkt : pkt.isExpressSnoop = false)
    (hl : w.l1Waits = false) (att : Attempt) :
    ∃ w', w.request att pkt = .ok w' ∧ w'.WrapperInv := by
  unfold request
  cases hp : w.prefetchBlocked with
  | true =>
    rw [recvTimingReq_of_blocked hp]
    exact ⟨_, rfl, hw.slice, hw.one, fun _ _ => .inl hp, fun _ => rfl, hw.prefetches⟩
  | false =>
    have hopen := hw.allOpen hp hl
    obtain ⟨answer, s, hsend, hs, hpend⟩ := hopen.sendToSlice_ok hw.slice hpkt att
    rw [recvTimingReq_of_sent hp hsend]
    refine ⟨_, rfl, ?_⟩
    cases answer with
    | true =>
      refine (hopen.update hpend rfl).wrapperInv (sliceInv_update hw.slice hs rfl) (fun h => ?_)
        hw.prefetches
      exact hw.l1Waits (by simpa [answered, scheduleSendPrefetch, WrapperState.setSlice] using h)
    | false =>
      exact hopen.refused hw.slice hs rfl (.inr (by simp [answered, hpkt])) (fun _ => rfl)
        hw.prefetches

theorem WrapperInv.request_express (hw : w.WrapperInv) (hpkt : pkt.isExpressSnoop = true)
    (h : w.request att pkt = .ok w') : w'.WrapperInv := by
  unfold request at h
  cases hp : w.prefetchBlocked with
  | true =>
    rw [recvTimingReq_of_blocked hp] at h
    cases h
    exact ⟨hw.slice, hw.one, fun _ _ => .inl hp, fun _ => rfl, hw.prefetches⟩
  | false =>
    cases hpend : (w.slices (c.getSliceId pkt.addr)).pendingL1Retry with
    | true =>
      simp [recvTimingReq, hp, sendToSlice, SliceState.recvTimingReq_of_pending hpend,
        Except.map] at h
    | false =>
      have hs := (hw.slice (c.getSliceId pkt.addr)).offer_express hpkt att.innerAccepts
      have hstill : ((w.slices (c.getSliceId pkt.addr)).offer pkt att.innerAccepts
          |>.answered pkt att.innerAccepts).pendingL1Retry =
          (w.slices (c.getSliceId pkt.addr)).pendingL1Retry := by
        cases att.innerAccepts <;> simp [SliceState.answered, hpkt, SliceState.offer]
      rw [recvTimingReq_of_sent hp (sendToSlice_express hpend hpkt att)] at h
      cases h
      have hset := hw.setSlice (c.getSliceId pkt.addr) hs hstill
      cases hanswer : att.innerAccepts with
      | true =>
        rw [hanswer] at hset
        refine ⟨hset.slice, hset.one, fun i hi => ?_, fun hl => ?_, hset.prefetches⟩
        · simpa [answered, scheduleSendPrefetch] using hset.known hi
        · exact hset.l1Waits (by simpa [answered, scheduleSendPrefetch] using hl)
      | false =>
        rw [hanswer] at hset
        refine ⟨hset.slice, hset.one, fun i hi => ?_, fun _ => rfl, hset.prefetches⟩
        simpa [answered, hpkt] using hset.known hi

section
variable {resent : List (L2Packet × Attempt)} (hw : w.WrapperInv)
include hw

theorem WrapperInv.resend_inv (h : resend resent w = .ok w') : w'.WrapperInv := by
  induction resent generalizing w with
  | nil =>
    cases h
    exact hw
  | cons r rest ih =>
    obtain ⟨pkt, att⟩ := r
    unfold resend at h
    split at h
    · exact ih hw h
    case isFalse hsend =>
      cases hreq : w.request att pkt with
      | error e => simp [hreq] at h
      | ok u =>
        simp only [hreq] at h
        refine ih ?_ h
        cases hexp : pkt.isExpressSnoop with
        | true => exact hw.request_express hexp hreq
        | false =>
          obtain ⟨v, hv, hinv⟩ := hw.request_ok hexp (by simpa [hexp] using hsend) att
          rw [hreq] at hv
          cases hv
          exact hinv

theorem WrapperInv.resend_ok (hresent : resent.any (fun r => r.1.isExpressSnoop) = false) :
    ∃ w', resend resent w = .ok w' := by
  induction resent generalizing w with
  | nil => exact ⟨w, rfl⟩
  | cons r rest ih =>
    obtain ⟨pkt, att⟩ := r
    simp only [any_cons, or_eq_false_iff] at hresent
    obtain ⟨hpkt, hrest⟩ := hresent
    unfold resend
    cases hl : w.l1Waits with
    | true =>
      simp only [hpkt]
      exact ih hw hrest
    | false =>
      obtain ⟨w', hreq, hw'⟩ := hw.request_ok hpkt hl att
      simp only [hreq]
      exact ih hw' hrest
end

section
variable (hw : w.WrapperInv)
include hw

theorem WrapperInv.sliceDone_true {u : SliceState}
    (hu : SliceState.SliceInv { u with upstreamWaits := false })
    (hpend : (w.slices i).pendingL1Retry = true) (resent : List (L2Packet × Attempt)) :
    ∃ v : WrapperState c, v.WrapperInv ∧ v.prefetchBlocked = false ∧ v.upperReqBlocked = false ∧
      (w.sliceDone i resent (u, true) = WrapperState.resend resent v ∨
        w.l1Waits = false ∧ w.sliceDone i resent (u, true) = .ok v) := by
  have hopen : (w.setSlice i { u with upstreamWaits := false }).AllOpen := by
    intro j
    by_cases hj : j = i
    · subst hj
      simpa [WrapperState.setSlice] using hu.waits.symm
    · have hne : (w.slices j).pendingL1Retry = false := by
        by_contra h
        exact hj (hw.one (by simpa using h) hpend)
      simpa [WrapperState.setSlice, hj] using hne
  have hflag : (w.prefetchBlocked || w.upperReqBlocked) = true := by
    rcases hw.known hpend with h | h
    · simp [h]
    · simp [hw.l1Waits h]
  generalize hs : w.setSlice i { u with upstreamWaits := false } = s at hopen
  have hslice : ∀ j, (s.slices j).SliceInv := sliceInv_update hw.slice hu (by rw [← hs]; rfl)
  have hsame : s.prefetchBlocked = w.prefetchBlocked ∧ s.upperReqBlocked = w.upperReqBlocked ∧
      s.l1Waits = w.l1Waits ∧ s.outstandingPrefetch = w.outstandingPrefetch ∧
      s.prefetcher = w.prefetcher := by
    subst hs
    exact ⟨rfl, rfl, rfl, rfl, rfl⟩
  obtain ⟨hsp, hsu, hsl, hso, hsq⟩ := hsame
  have hpre : ∀ p ∈ s.outstandingPrefetch.toList ++ s.prefetcher, p.isExpressSnoop = false := by
    rw [hso, hsq]
    exact hw.prefetches
  have hfree : s.unblockPrefetch.prefetchBlocked = false ∧ s.unblockPrefetch.slices = s.slices ∧
      s.unblockPrefetch.upperReqBlocked = s.upperReqBlocked ∧
      s.unblockPrefetch.outstandingPrefetch = s.outstandingPrefetch ∧
      s.unblockPrefetch.prefetcher = s.prefetcher ∧ s.unblockPrefetch.l1Waits = s.l1Waits := by
    unfold unblockPrefetch
    cases h : s.prefetchBlocked <;> simp [scheduleSendPrefetch, h]
  obtain ⟨hp, hslices, hupper, hout, hqueue, hwaits⟩ := hfree
  rw [← hout, ← hqueue] at hpre
  rw [sliceDone, hs, recvReqRetry, hsp, hsu, hflag]
  simp only
  have hopen' : s.unblockPrefetch.AllOpen := fun j => congrFun hslices j ▸ hopen j
  have hslice' : ∀ j, (s.unblockPrefetch.slices j).SliceInv :=
    fun j => congrFun hslices j ▸ hslice j
  cases hu' : s.unblockPrefetch.upperReqBlocked with
  | true =>
    exact ⟨{ s.unblockPrefetch with upperReqBlocked := false, l1Waits := false },
      AllOpen.wrapperInv hopen' hslice' (fun h => absurd h (by simp)) hpre, hp, rfl, .inl rfl⟩
  | false =>
    have hl : w.l1Waits = false := by
      by_contra h
      have hup := hw.l1Waits (by simpa using h)
      rw [← hsu, ← hupper, hu'] at hup
      cases hup
    refine ⟨_, hopen'.wrapperInv hslice' (fun h => ?_) hpre, hp, hu', .inr ⟨hl, rfl⟩⟩
    rw [hwaits, hsl, hl] at h
    cases h

theorem WrapperInv.sliceDone_spec {x : Except String (SliceState × Bool)}
    (hx : SliceState.RetryDone (w.slices i) x) (resent : List (L2Packet × Attempt)) :
    (∀ w', x.bind (w.sliceDone i resent) = .ok w' → w'.WrapperInv) ∧
      (resent.any (fun r => r.1.isExpressSnoop) = false →
        ∃ w', x.bind (w.sliceDone i resent) = .ok w') := by
  rcases hx with ⟨u, rfl, hu, hwaits⟩ | ⟨u, rfl, hu, hwaits⟩
  · have hpend : u.pendingL1Retry = (w.slices i).pendingL1Retry := by
      rw [← hu.waits, hwaits, (hw.slice i).waits]
    refine ⟨fun w' h => ?_, fun _ => ⟨_, rfl⟩⟩
    cases h
    exact hw.setSlice i hu hpend
  · obtain ⟨v, hv, -, -, heq | ⟨-, heq⟩⟩ :=
      hw.sliceDone_true hu ((hw.slice i).waits ▸ hwaits) resent
    · rw [Except.bind, heq]
      exact ⟨fun w' h => hv.resend_inv h, fun hresent => hv.resend_ok hresent⟩
    · rw [Except.bind, heq]
      refine ⟨fun w' h => ?_, fun _ => ⟨v, rfl⟩⟩
      cases h
      exact hv

theorem WrapperInv.sendPrefetch_ok (att : Attempt) :
    ∃ w', w.processSendPrefetchEvent att = .ok w' ∧ w'.WrapperInv ∧ (w.Owed → w'.Owed) := by
  unfold processSendPrefetchEvent
  cases hp : w.prefetchBlocked with
  | true => exact ⟨w, rfl, hw, id⟩
  | false =>
    have htake : w.takePrefetch.WrapperInv ∧ w.takePrefetch.prefetchBlocked = false ∧
        (w.Owed → w.takePrefetch.Owed) := by
      unfold takePrefetch
      split
      case h_1 hout hqueue =>
        refine ⟨⟨hw.slice, hw.one, hw.known, hw.l1Waits, ?_⟩, hp, id⟩
        have hpre := hw.prefetches
        simpa [hout, hqueue] using hpre
      case h_2 => exact ⟨hw, hp, id⟩
    obtain ⟨ht, htp, howed⟩ := htake
    cases hout : w.takePrefetch.outstandingPrefetch with
    | none => exact ⟨w.takePrefetch, by simp [hout], ht, howed⟩
    | some pkt =>
      cases hup : w.takePrefetch.upperReqBlocked with
      | true => exact ⟨w.takePrefetch, by simp [hout, hup], ht, howed⟩
      | false =>
        have hl : w.takePrefetch.l1Waits = false := by
          by_contra h
          simpa [hup] using ht.l1Waits (by simpa using h)
        have hpkt : pkt.isExpressSnoop = false := ht.prefetches pkt (by simp [hout])
        have hopen := ht.allOpen htp hl
        obtain ⟨answer, s, hsend, hs, hpend⟩ := hopen.sendToSlice_ok ht.slice hpkt att
        have hpre := ht.prefetches
        simp only [hout, hup, hsend]
        cases answer with
        | true =>
          refine ⟨_, rfl, (hopen.update hpend rfl).wrapperInv (sliceInv_update ht.slice hs rfl)
            (fun h => ht.l1Waits h) fun p hmem => hpre p ?_, fun _ h => ?_⟩
          · exact mem_append_right _
              (by simpa [scheduleSendPrefetch, WrapperState.setSlice] using hmem)
          · simp [scheduleSendPrefetch, WrapperState.setSlice, htp, hup] at h
        | false =>
          exact ⟨_, rfl, hopen.refused ht.slice hs rfl (.inl rfl) ht.l1Waits ht.prefetches,
            fun _ _ => ⟨c.getSliceId pkt.addr, by simp [WrapperState.setSlice, hpend]⟩⟩

theorem WrapperInv.step_spec {e : WrapperEvent c} (he : w.possible e = true) :
    (∀ w', w.step e = .ok w' → w'.WrapperInv) ∧
      (e.hasExpress = false → ∃ w', w.step e = .ok w') := by
  cases e with
  | request pkt att =>
    cases hexp : pkt.isExpressSnoop with
    | true =>
      refine ⟨fun w' h => hw.request_express hexp h, fun h => ?_⟩
      exact absurd (hexp.symm.trans h) (by simp)
    | false =>
      obtain ⟨w', hreq, hw'⟩ := hw.request_ok hexp (by simpa [possible, hexp] using he) att
      refine ⟨fun v h => ?_, fun _ => ⟨w', hreq⟩⟩
      obtain rfl := Except.ok.inj (hreq.symm.trans h)
      exact hw'
  | prefetch pkt =>
    refine ⟨fun w' h => ?_, fun _ => ⟨_, rfl⟩⟩
    cases h
    refine ⟨hw.slice, hw.one, hw.known, hw.l1Waits, fun p hp => ?_⟩
    simp only [← append_assoc, mem_append, mem_singleton] at hp
    rcases hp with hp | rfl
    · exact hw.prefetches p (mem_append.2 hp)
    · have hboth : p.isHWPrefetch = true ∧ p.isExpressSnoop = false := by
        simpa [possible] using he
      exact hboth.2
  | sendPrefetch att =>
    have hw' : WrapperInv { w with sendPrefetchEvent := false } :=
      ⟨hw.slice, hw.one, hw.known, hw.l1Waits, hw.prefetches⟩
    obtain ⟨v, hv, hinv, -⟩ := hw'.sendPrefetch_ok att
    refine ⟨fun u h => ?_, fun _ => ⟨v, hv⟩⟩
    obtain rfl := Except.ok.inj (hv.symm.trans h)
    exact hinv
  | innerRetry i att resent =>
    exact hw.sliceDone_spec ((hw.slice i).innerRetry_ok (by simpa [possible] using he) att) resent
  | trySend i att resent => exact hw.sliceDone_spec ((hw.slice i).trySend_ok he att) resent
  | arbFailRetry i att resent =>
    exact hw.sliceDone_spec ((hw.slice i).arbFailRetry_ok he att) resent
  | memResp i =>
    refine ⟨fun w' h => ?_, fun _ => ⟨_, rfl⟩⟩
    cases h
    exact hw.setSlice i (hw.slice i).memResp rfl
  | processResponses i now taskAvailable =>
    refine ⟨fun w' h => ?_, fun _ => ⟨_, rfl⟩⟩
    cases h
    refine hw.setSlice i ((hw.slice i).processResponses now taskAvailable) ?_
    unfold SliceState.processResponses
    split <;> rfl
end
end
end WrapperState

open WrapperState
variable {c : L2Config}

theorem WrapperReachable.wrapperInv {w : WrapperState c} (h : WrapperReachable w) :
    w.WrapperInv := by
  induction h with
  | start => exact wrapperInv_start
  | step _ he hw' ih => exact (ih.step_spec he).1 _ hw'

/-! ### Express snoops -/

/-- The express snoop is offered at once to the inner cache of the slice that owns its address, and
gets the answer of this cache. -/
def ExpressHandled (w : WrapperState c) (pkt : L2Packet) (att : Attempt) : Prop :=
  ∃ w', w.recvTimingReq att pkt = .ok (att.innerAccepts, w') ∧
    (w'.slices (c.getSliceId pkt.addr)).offered =
      (w.slices (c.getSliceId pkt.addr)).offered ++ [(pkt, att.innerAccepts)]

theorem expressHandled_of_open {w : WrapperState c} {pkt : L2Packet}
    (hpkt : pkt.isExpressSnoop = true) (hp : w.prefetchBlocked = false)
    (hpend : (w.slices (c.getSliceId pkt.addr)).pendingL1Retry = false) (att : Attempt) :
    ExpressHandled w pkt att := by
  refine ⟨_, recvTimingReq_of_sent hp (sendToSlice_express hpend hpkt att), ?_⟩
  cases att.innerAccepts <;>
    simp [scheduleSendPrefetch, setSlice, SliceState.answered, SliceState.offer, hpkt]

/-- **The flow control of the whole cache**; see `FlowControl`. -/
theorem WrapperReachable.l2_flowControl {w : WrapperState c} (h : WrapperReachable w) :
    (∀ i, FlowControl (w.slices i)) ∧
    (∀ i j, (w.slices i).pendingL1Retry = true → (w.slices j).pendingL1Retry = true → i = j) ∧
    (∀ e, w.possible e = true → e.hasExpress = false → ∃ w', w.step e = .ok w') ∧
    (w.prefetchBlocked = false → w.l1Waits = false → ∀ pkt : L2Packet, pkt.isExpressSnoop = true →
      ∀ att, ExpressHandled w pkt att) := by
  have hw := h.wrapperInv
  exact ⟨fun i => (hw.slice i).flowControl, fun _ _ h => hw.one h, fun _ he => (hw.step_spec he).2,
    fun hp hl _ hpkt => expressHandled_of_open hpkt hp (hw.allOpen hp hl _)⟩

/-- Express snoops are handled, whatever the inner cache answers, exactly if no prefetch is blocked
and the slice has refused nothing. -/
theorem expressHandled_iff (w : WrapperState c) (pkt : L2Packet)
    (hpkt : pkt.isExpressSnoop = true) :
    (∀ att, ExpressHandled w pkt att) ↔
      w.prefetchBlocked = false ∧ (w.slices (c.getSliceId pkt.addr)).pendingL1Retry = false := by
  constructor
  · intro h
    obtain ⟨w', heq, -⟩ := h ⟨0, true, true⟩
    cases hp : w.prefetchBlocked with
    | true =>
      rw [recvTimingReq_of_blocked hp] at heq
      simp at heq
    | false =>
      refine ⟨rfl, ?_⟩
      by_contra hpend
      rw [not_eq_false] at hpend
      simp [recvTimingReq, hp, sendToSlice, SliceState.recvTimingReq_of_pending hpend] at heq
  · rintro ⟨hp, hpend⟩ att
    exact expressHandled_of_open hpkt hp hpend att

def expressPacket (addr : ℕ) : L2Packet :=
  ⟨addr, false, true, true⟩

def prefetchPacket (addr : ℕ) : L2Packet :=
  ⟨addr, true, false, true⟩

def twoSlices : L2Config :=
  ⟨1, 6, 0⟩

def WrapperState.run : List (WrapperEvent c) → WrapperState c → Except String (WrapperState c)
  | [], w => .ok w
  | e :: es, w =>
    if w.possible e then (w.step e).bind (run es) else .error "this event cannot happen"

theorem WrapperReachable.run {es : List (WrapperEvent c)} {w w' : WrapperState c}
    (h : WrapperReachable w) (hrun : w.run es = .ok w') : WrapperReachable w' := by
  induction es generalizing w with
  | nil =>
    cases hrun
    exact h
  | cons e es ih =>
    unfold WrapperState.run at hrun
    split at hrun
    case isTrue he =>
      cases hstep : w.step e with
      | error msg => simp [hstep, Except.bind] at hrun
      | ok u => exact ih (h.step he hstep) (by simpa [hstep, Except.bind] using hrun)
    case isFalse => simp at hrun

def prefetchRefused : List (WrapperEvent twoSlices) :=
  [.prefetch (prefetchPacket 0), .request (readPacket 0) ⟨0, true, true⟩,
    .sendPrefetch ⟨1, true, false⟩]

def readRefused : List (WrapperEvent twoSlices) :=
  [.request (readPacket 0) ⟨0, true, false⟩]

def roomForOne : L2Config :=
  ⟨1, 6, 1⟩

def readsBuffered : List (WrapperEvent roomForOne) :=
  [.request (readPacket 0) ⟨0, true, false⟩, .request (readPacket 128) ⟨1, true, true⟩]

/-- With room for one packet, a read that the inner cache refuses is buffered and the next one to
the same slice is refused: nothing is lost, and a retry is owed. -/
theorem readsBuffered_flowControl :
    ∃ w, start.run readsBuffered = .ok w ∧
      (w.slices (roomForOne.getSliceId 0)).requestBuffer = [readPacket 0] ∧
      (w.slices (roomForOne.getSliceId 0)).upstreamWaits = true ∧
      FlowControl (w.slices (roomForOne.getSliceId 0)) ∧
      (∀ i, (w.slices i).pendingL1Retry = true → i = roomForOne.getSliceId 0) ∧
      (∀ e, w.possible e = true → e.hasExpress = false → ∃ w', w.step e = .ok w') := by
  obtain ⟨w, hrun, hbuffer, hwaits, hpending⟩ : ∃ w, start.run readsBuffered = .ok w ∧
      (w.slices (roomForOne.getSliceId 0)).requestBuffer = [readPacket 0] ∧
      (w.slices (roomForOne.getSliceId 0)).upstreamWaits = true ∧
      (w.slices (roomForOne.getSliceId 0)).pendingL1Retry = true := ⟨_, rfl, rfl, rfl, rfl⟩
  obtain ⟨hflow, hone, hstep, -⟩ := (WrapperReachable.start.run hrun).l2_flowControl
  exact ⟨w, hrun, hbuffer, hwaits, hflow _, fun i hi => hone i _ hi hpending, hstep⟩

/-- While one slice owes the upstream cache a retry, an express snoop to the other is handled. -/
theorem express_beside_refused :
    ∃ w : WrapperState twoSlices, start.run readRefused = .ok w ∧ w.l1Waits = true ∧
      ExpressHandled w (expressPacket 64) ⟨2, true, true⟩ := by
  obtain ⟨w, hrun, hwaits, hopen⟩ : ∃ w : WrapperState twoSlices, start.run readRefused = .ok w ∧
      w.l1Waits = true ∧ w.prefetchBlocked = false ∧
        (w.slices (twoSlices.getSliceId 64)).pendingL1Retry = false := ⟨_, rfl, rfl, rfl, rfl⟩
  exact ⟨w, hrun, hwaits, (expressHandled_iff w (expressPacket 64) rfl).2 hopen ⟨2, true, true⟩⟩

/-- Behind a refused prefetch an express snoop to the other slice is answered false, and is not
offered to an inner cache that would take it; behind a refused read an express snoop to the same
slice fails an assert. -/
theorem express_heldBack :
    (∃ w : WrapperState twoSlices, WrapperReachable w ∧ w.prefetchBlocked = true ∧
      w.recvTimingReq ⟨2, true, true⟩ (expressPacket 64) =
        .ok (false, { w with upperReqBlocked := true }) ∧
      ¬ ExpressHandled w (expressPacket 64) ⟨2, true, true⟩) ∧
    ∃ w : WrapperState twoSlices, WrapperReachable w ∧ w.upperReqBlocked = true ∧
      w.recvTimingReq ⟨2, true, true⟩ (expressPacket 0) = .error "assert(!pending_l1_retry)" ∧
      ¬ ExpressHandled w (expressPacket 0) ⟨2, true, true⟩ := by
  constructor
  · have hrun : ∃ w, start.run prefetchRefused = .ok w ∧ w.prefetchBlocked = true := ⟨_, rfl, rfl⟩
    obtain ⟨w, hrun, hblocked⟩ := hrun
    have hfalse := recvTimingReq_of_blocked hblocked ⟨2, true, true⟩ (expressPacket 64)
    refine ⟨w, WrapperReachable.start.run hrun, hblocked, hfalse, ?_⟩
    rintro ⟨w', heq, -⟩
    rw [hfalse] at heq
    simp at heq
  · have hrun : ∃ w, start.run readRefused = .ok w ∧ w.upperReqBlocked = true ∧
        w.recvTimingReq ⟨2, true, true⟩ (expressPacket 0) = .error "assert(!pending_l1_retry)" :=
      ⟨_, rfl, rfl, rfl⟩
    obtain ⟨w, hrun, hblocked, hfail⟩ := hrun
    refine ⟨w, WrapperReachable.start.run hrun, hblocked, hfail, ?_⟩
    rintro ⟨w', heq, -⟩
    rw [hfail] at heq
    simp at heq

end Gem5
