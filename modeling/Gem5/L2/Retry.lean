import Mathlib.Data.List.Nodup
import Gem5.L2.Wrapper

/-!
# Retries of the sliced cache

The requests and the responses of the wrapper together.  A response that the first level cache
refuses blocks the responses of all slices until it asks for a retry; `respWaitingSlice` remembers
whose response was refused.
-/

namespace Gem5
open List WrapperState Except

/-- An express snoop is never refused by the inner cache (`BaseCache::CpuSidePort::tryTiming`). -/
def snoopAccepted (pkt : L2Packet) (att : Attempt) : Prop :=
  pkt.isExpressSnoop = true → att.innerAccepts = true

namespace WrapperState
variable {c : L2Config} {w w' : WrapperState c} {pkt : L2Packet} {att : Attempt}
  {i : Fin c.numSlices} {resent : List (L2Packet × Attempt)} {m : String}

/-! ### Who owes a retry -/

structure RetryInv (w : WrapperState c) : Prop extends WrapperInv w where
  owed : w.Owed

theorem AllOpen.not_blocked (hopen : w.AllOpen) (hw : w.RetryInv) : w.upperReqBlocked = false := by
  by_contra h
  obtain ⟨i, hi⟩ := hw.owed (.inr (by simpa using h))
  rw [hopen i] at hi
  cases hi

theorem WrapperInv.retryInv (hw : w.WrapperInv) (hp : w.prefetchBlocked = false)
    (hu : w.upperReqBlocked = false) : w.RetryInv :=
  { hw with owed := fun h => by simp [hp, hu] at h }

theorem RetryInv.request (hw : w.RetryInv) (hpos : (pkt.isExpressSnoop || !w.l1Waits) = true)
    (hacc : snoopAccepted pkt att) (h : w.request att pkt = .ok w') : w'.RetryInv := by
  cases hexp : pkt.isExpressSnoop with
  | true =>
    refine { hw.request_express hexp h with owed := fun hblocked => ?_ }
    unfold WrapperState.request at h
    cases hp : w.prefetchBlocked with
    | true =>
      rw [recvTimingReq_of_blocked hp] at h
      cases h
      exact hw.owed (.inl hp)
    | false =>
      cases hpend : (w.slices (c.getSliceId pkt.addr)).pendingL1Retry with
      | true =>
        simp [recvTimingReq, hp, sendToSlice, SliceState.recvTimingReq_of_pending hpend,
          Except.map] at h
      | false =>
        rw [recvTimingReq_of_sent hp (sendToSlice_express hpend hexp att), hacc hexp] at h
        cases h
        obtain ⟨i, hi⟩ := hw.owed hblocked
        have hne : i ≠ c.getSliceId pkt.addr := by
          rintro rfl
          rw [hpend] at hi
          cases hi
        exact ⟨i, by simpa [answered, scheduleSendPrefetch, WrapperState.setSlice, hne] using hi⟩
  | false =>
    have hl : w.l1Waits = false := by simpa [hexp] using hpos
    obtain ⟨v, hv, hinv⟩ := hw.request_ok hexp hl att
    obtain rfl := ok.inj (hv.symm.trans h)
    refine { hinv with owed := fun hblocked => ?_ }
    unfold WrapperState.request at h
    cases hp : w.prefetchBlocked with
    | true =>
      rw [recvTimingReq_of_blocked hp] at h
      cases h
      exact hw.owed (.inl hp)
    | false =>
      have hopen := hw.allOpen hp hl
      obtain ⟨answer, s, hsend, -, hpend⟩ := hopen.sendToSlice_ok hw.slice hexp att
      rw [recvTimingReq_of_sent hp hsend] at h
      cases h
      cases answer with
      | true =>
        have hu := hopen.not_blocked hw
        simp [answered, scheduleSendPrefetch, WrapperState.setSlice, hp, hu] at hblocked
      | false => exact ⟨c.getSliceId pkt.addr, by simp [answered, WrapperState.setSlice, hpend]⟩

theorem RetryInv.resend (hw : w.RetryInv) (hacc : ∀ r ∈ resent, snoopAccepted r.1 r.2)
    (h : resend resent w = .ok w') : w'.RetryInv := by
  induction resent generalizing w with
  | nil =>
    cases h
    exact hw
  | cons r rest ih =>
    rw [forall_mem_cons] at hacc
    unfold WrapperState.resend at h
    split at h
    · exact ih hw hacc.2 h
    case isFalse hsend =>
      split at h
      · cases h
      case h_2 u hu =>
        have hpos : (r.1.isExpressSnoop || !w.l1Waits) = true := by
          cases hl : w.l1Waits <;> simp_all
        exact ih (hw.request hpos hacc.1 hu) hacc.2 h

theorem RetryInv.setSlice (hw : w.RetryInv) {s : SliceState} (hs : s.SliceInv)
    (hpend : s.pendingL1Retry = (w.slices i).pendingL1Retry) : (w.setSlice i s).RetryInv := by
  refine { hw.toWrapperInv.setSlice i hs hpend with owed := fun h => ?_ }
  obtain ⟨j, hj⟩ := hw.owed h
  refine ⟨j, ?_⟩
  by_cases hji : j = i
  · subst hji
    simpa [WrapperState.setSlice, hpend] using hj
  · simpa [WrapperState.setSlice, hji] using hj

variable {x : Except String (SliceState × Bool)}

theorem RetryInv.sliceDone (hw : w.RetryInv) (hx : SliceState.RetryDone (w.slices i) x)
    (hacc : ∀ r ∈ resent, snoopAccepted r.1 r.2) (h : x.bind (w.sliceDone i resent) = .ok w') :
    w'.RetryInv := by
  rcases hx with ⟨u, rfl, hu, hwaits⟩ | ⟨u, rfl, hu, hwaits⟩
  · cases h
    exact hw.setSlice hu (by rw [← hu.waits, hwaits, (hw.slice i).waits])
  · obtain ⟨v, hv, hvp, hvu, heq | ⟨-, heq⟩⟩ :=
      hw.toWrapperInv.sliceDone_true hu ((hw.slice i).waits ▸ hwaits) resent
    · exact (hv.retryInv hvp hvu).resend hacc (heq.symm.trans h)
    · obtain rfl := ok.inj (heq.symm.trans h)
      exact hv.retryInv hvp hvu

/-! ### Prefetches -/

/-- The prefetch that `processSendPrefetchEvent` sends, if a slice takes it. -/
def sentPrefetch (att : Attempt) (w : WrapperState c) : List L2Packet :=
  if w.prefetchBlocked then []
  else
    match w.takePrefetch.outstandingPrefetch with
    | none => []
    | some pkt =>
      if w.takePrefetch.upperReqBlocked then []
      else
        match w.takePrefetch.sendToSlice att pkt with
        | .ok (true, _) => [pkt]
        | _ => []

def unsent (w : WrapperState c) : List L2Packet :=
  w.outstandingPrefetch.toList ++ w.prefetcher

theorem unsent_sendToSlice {answer : Bool} (h : w.sendToSlice att pkt = .ok (answer, w')) :
    w'.outstandingPrefetch = w.outstandingPrefetch ∧ w'.prefetcher = w.prefetcher := by
  unfold sendToSlice at h
  dsimp only at h
  split at h
  · cases h
  · cases h
    exact ⟨rfl, rfl⟩

theorem unsent_request (h : w.request att pkt = .ok w') : w'.unsent = w.unsent := by
  unfold request at h
  cases hp : w.prefetchBlocked with
  | true =>
    rw [recvTimingReq_of_blocked hp] at h
    cases h
    rfl
  | false =>
    cases hsend : w.sendToSlice att pkt with
    | error e => simp [recvTimingReq, hp, hsend, Except.map] at h
    | ok r =>
      obtain ⟨answer, v⟩ := r
      obtain ⟨ho, hq⟩ := unsent_sendToSlice hsend
      rw [recvTimingReq_of_sent hp hsend] at h
      cases h
      cases answer <;> simp [unsent, answered, scheduleSendPrefetch, ho, hq]

theorem unsent_resend (h : resend resent w = .ok w') : w'.unsent = w.unsent := by
  induction resent generalizing w with
  | nil =>
    cases h
    rfl
  | cons r rest ih =>
    unfold resend at h
    split at h
    · exact ih h
    · split at h
      · cases h
      case h_2 u hu => exact (ih h).trans (unsent_request hu)

theorem unsent_sliceDone (h : x.bind (w.sliceDone i resent) = .ok w') : w'.unsent = w.unsent := by
  have hfree (v : WrapperState c) : v.unblockPrefetch.unsent = v.unsent := by
    unfold unblockPrefetch
    split <;> rfl
  rcases x with m | ⟨u, _ | _⟩
  · cases h
  · cases h
    rfl
  · change (w.setSlice i { u with upstreamWaits := false }).recvReqRetry resent = .ok w' at h
    unfold recvReqRetry at h
    dsimp only at h
    split_ifs at h
    · exact (unsent_resend h).trans (hfree _)
    · cases h
      exact hfree _

theorem unsent_sendPrefetch (h : w.processSendPrefetchEvent att = .ok w') :
    w.unsent = w.sentPrefetch att ++ w'.unsent := by
  have htake : w.takePrefetch.unsent = w.unsent := by
    unfold takePrefetch
    split
    case h_1 hout hqueue => simp [unsent, hout, hqueue]
    case h_2 => rfl
  unfold processSendPrefetchEvent at h
  unfold sentPrefetch
  cases hp : w.prefetchBlocked with
  | true =>
    rw [hp] at h
    cases h
    rfl
  | false =>
    simp only [hp, Bool.false_eq_true, if_false] at h ⊢
    cases hout : w.takePrefetch.outstandingPrefetch with
    | none =>
      rw [hout] at h
      cases h
      exact htake.symm
    | some pkt =>
      rw [hout] at h
      dsimp only at h ⊢
      split_ifs at h ⊢
      · cases h
        exact htake.symm
      · split at h
        · cases h
        · rename_i v hsend
          cases h
          obtain ⟨ho, hq⟩ := unsent_sendToSlice hsend
          rw [hsend, ← htake]
          simp [unsent, ho, hq]
        · rename_i v hsend
          cases h
          obtain ⟨-, hq⟩ := unsent_sendToSlice hsend
          rw [hsend, ← htake]
          simp [unsent, hout, hq, scheduleSendPrefetch]

end WrapperState

/-! ### One event -/

def WrapperEvent.issued {c : L2Config} : WrapperEvent c → List L2Packet
  | .prefetch pkt => [pkt]
  | _ => []

def WrapperEvent.sent {c : L2Config} (w : WrapperState c) : WrapperEvent c → List L2Packet
  | .sendPrefetch att => { w with sendPrefetchEvent := false }.sentPrefetch att
  | _ => []

def WrapperEvent.snoopsAccepted {c : L2Config} : WrapperEvent c → Prop
  | .request pkt att => snoopAccepted pkt att
  | .innerRetry _ _ resent | .trySend _ _ resent | .arbFailRetry _ _ resent =>
    ∀ r ∈ resent, snoopAccepted r.1 r.2
  | .prefetch _ | .sendPrefetch _ | .memResp _ | .processResponses _ _ _ => True

namespace WrapperState
variable {c : L2Config} {w w' : WrapperState c} {e : WrapperEvent c} {m : String}

theorem unsent_step (h : w.step e = .ok w') : w.unsent ++ e.issued = e.sent w ++ w'.unsent := by
  have hkept (h : w'.unsent = w.unsent) : w.unsent ++ [] = [] ++ w'.unsent := by simp [h]
  cases e with
  | request pkt att => exact hkept (unsent_request h)
  | prefetch pkt =>
    cases h
    simp [unsent, WrapperEvent.issued, WrapperEvent.sent]
  | sendPrefetch att => exact (append_nil _).trans (unsent_sendPrefetch h)
  | innerRetry i att resent => exact hkept (unsent_sliceDone h)
  | trySend i att resent => exact hkept (unsent_sliceDone h)
  | arbFailRetry i att resent => exact hkept (unsent_sliceDone h)
  | memResp i =>
    cases h
    exact hkept rfl
  | processResponses i now taskAvailable =>
    cases h
    exact hkept rfl

theorem RetryInv.step (hw : w.RetryInv) (he : w.possible e = true)
    (hacc : e.snoopsAccepted) (h : w.step e = .ok w') : w'.RetryInv := by
  cases e with
  | request pkt att => exact hw.request he hacc h
  | prefetch pkt =>
    refine { (hw.step_spec he).1 _ h with owed := ?_ }
    cases h
    exact hw.owed
  | sendPrefetch att =>
    have hw' : WrapperInv { w with sendPrefetchEvent := false } :=
      ⟨hw.slice, hw.one, hw.known, hw.l1Waits, hw.prefetches⟩
    obtain ⟨v, hv, hinv, howed⟩ := hw'.sendPrefetch_ok att
    obtain rfl := ok.inj (hv.symm.trans h)
    exact { hinv with owed := howed hw.owed }
  | innerRetry i att resent =>
    exact hw.sliceDone ((hw.slice i).innerRetry_ok (by simpa [possible] using he) att) hacc h
  | trySend i att resent => exact hw.sliceDone ((hw.slice i).trySend_ok he att) hacc h
  | arbFailRetry i att resent => exact hw.sliceDone ((hw.slice i).arbFailRetry_ok he att) hacc h
  | memResp i =>
    cases h
    exact hw.setSlice (hw.slice i).memResp rfl
  | processResponses i now taskAvailable =>
    cases h
    refine hw.setSlice ((hw.slice i).processResponses now taskAvailable) ?_
    unfold SliceState.processResponses
    split <;> rfl

/-! ### The assertion of the retry -/

def IsSliceAssert (m : String) : Prop :=
  m = "assert(!pending_l1_retry)" ∨ m = "assert(!event->scheduled())"

variable {s : SliceState} {att : Attempt} {pkt : L2Packet} {resent : List (L2Packet × Attempt)}

theorem innerSend_error {source : TaskSource}
    (h : s.innerCpuPortSendTimingReq att source pkt = .error m) : IsSliceAssert m := by
  unfold SliceState.innerCpuPortSendTimingReq at h
  dsimp only at h
  split_ifs at h
  exact .inr (error.inj h).symm

theorem recvTimingReq_error {n : ℕ} (h : s.cpuSidePortRecvTimingReq n att pkt = .error m) :
    IsSliceAssert m := by
  unfold SliceState.cpuSidePortRecvTimingReq at h
  generalize (if pkt.isHWPrefetch then TaskSource.L2PF else .L1MSHR) = source at h
  split_ifs at h
  · exact .inl (error.inj h).symm
  all_goals
    split at h
    case h_1 herr =>
      obtain rfl := error.inj h
      exact innerSend_error herr
    all_goals cases h

theorem request_error (h : w.request att pkt = .error m) : IsSliceAssert m := by
  unfold request recvTimingReq sendToSlice at h
  cases hs : (w.slices (c.getSliceId pkt.addr)).cpuSidePortRecvTimingReq c.bufferSize att pkt with
  | error e' =>
    simp only [hs] at h
    split_ifs at h
    · cases h
    · obtain rfl := Except.error.inj h
      exact recvTimingReq_error hs
  | ok r =>
    obtain ⟨answer, s⟩ := r
    cases answer <;> simp only [hs] at h <;> split_ifs at h <;> cases h

theorem resend_error (h : resend resent w = .error m) : IsSliceAssert m := by
  induction resent generalizing w with
  | nil => cases h
  | cons r rest ih =>
    unfold resend at h
    split at h
    · exact ih h
    · split at h
      case h_1 herr =>
        obtain rfl := error.inj h
        exact request_error herr
      case h_2 => exact ih h

theorem WrapperInv.sliceDone_error (hw : w.WrapperInv) {i : Fin c.numSlices}
    {x : Except String (SliceState × Bool)} (hx : SliceState.RetryDone (w.slices i) x)
    (h : x.bind (w.sliceDone i resent) = .error m) : IsSliceAssert m := by
  rcases hx with ⟨u, rfl, -, -⟩ | ⟨u, rfl, hu, hwaits⟩
  · cases h
  · obtain ⟨v, -, -, -, heq | ⟨-, heq⟩⟩ :=
      hw.sliceDone_true hu ((hw.slice i).waits ▸ hwaits) resent
    · exact resend_error (heq.symm.trans h)
    · cases heq.symm.trans h

theorem WrapperInv.step_error (hw : w.WrapperInv) (he : w.possible e = true)
    (h : w.step e = .error m) : IsSliceAssert m := by
  cases e with
  | request pkt att => exact request_error h
  | innerRetry i att resent =>
    exact hw.sliceDone_error ((hw.slice i).innerRetry_ok (by simpa [possible] using he) att) h
  | trySend i att resent => exact hw.sliceDone_error ((hw.slice i).trySend_ok he att) h
  | arbFailRetry i att resent => exact hw.sliceDone_error ((hw.slice i).arbFailRetry_ok he att) h
  | _ =>
    obtain ⟨v, hv⟩ := (hw.step_spec he).2 rfl
    cases hv.symm.trans h

end WrapperState

/-! ### Responses -/

/-- The responses: what the wrapper knows; whether the first level cache owes a retry; and the
slices whose response was refused. -/
structure RespState (c : L2Config) where
  upperRespBlocked : Bool
  respWaitingSlice : List (Fin c.numSlices)
  l1OwesRespRetry : Bool
  respRefused : Fin c.numSlices → Bool

namespace RespState
variable {c : L2Config} {s : RespState c} {i : Fin c.numSlices} {rest : List (Fin c.numSlices)}

def recvTimingResp (i : Fin c.numSlices) (accepts : Bool) (s : RespState c) :
    Bool × RespState c :=
  if s.upperRespBlocked then (false, { s with respWaitingSlice := s.respWaitingSlice.insert i })
  else if accepts then (true, { s with respWaitingSlice := s.respWaitingSlice.erase i })
  else (false, { s with
    respWaitingSlice := s.respWaitingSlice.insert i
    upperRespBlocked := true
    l1OwesRespRetry := true })

def response (i : Fin c.numSlices) (accepts : Bool) (s : RespState c) : RespState c :=
  let r := s.recvTimingResp i accepts
  { r.2 with respRefused := Function.update r.2.respRefused i !r.1 }

/-- `L2CacheWrapper::CPUSidePort::recvRespRetry`: the waiting slices send their responses again, in
the order in which the unordered set is read. -/
def recvRespRetry (order : List (Fin c.numSlices)) (accepts : Fin c.numSlices → Bool)
    (s : RespState c) : Except String (RespState c) :=
  if !s.upperRespBlocked then .error "assert(owner.upper_resp_blocked)"
  else if s.respWaitingSlice.length = 0 then
    .error "assert(owner.resp_waiting_slice.size() > 0)"
  else .ok (order.foldl (fun s i => s.response i (accepts i))
    { s with upperRespBlocked := false, l1OwesRespRetry := false })

/-- The books of the responses while the slices `rest` are still to send theirs again. -/
structure RespInv (rest : List (Fin c.numSlices)) (s : RespState c) : Prop where
  refused : ∀ i, s.respRefused i = true ↔ i ∈ s.respWaitingSlice
  nodup : s.respWaitingSlice.Nodup
  owes : s.l1OwesRespRetry = s.upperRespBlocked
  blocked : s.upperRespBlocked = true → s.respWaitingSlice ≠ []
  free : s.upperRespBlocked = false → ∀ i ∈ s.respWaitingSlice, i ∈ rest

theorem RespInv.response (h : RespInv (i :: rest) s) (accepts : Bool) :
    RespInv rest (s.response i accepts) := by
  have hinsert (j : Fin c.numSlices) :
      Function.update s.respRefused i true j = true ↔ j ∈ s.respWaitingSlice.insert i := by
    by_cases hj : j = i
    · simp [hj]
    · simp [hj, h.refused]
  have hne : s.respWaitingSlice.insert i ≠ [] := ne_nil_of_mem mem_insert_self
  unfold RespState.response recvTimingResp
  cases hb : s.upperRespBlocked with
  | true =>
    exact ⟨hinsert, h.nodup.insert, h.owes.trans hb, fun _ => hne, fun hf => by simp at hf⟩
  | false =>
    cases accepts with
    | true =>
      refine ⟨fun j => ?_, h.nodup.erase i, h.owes.trans hb, fun ht => by simp at ht,
        fun _ j hj => ?_⟩
      · by_cases hj : j = i
        · simp [hj, h.nodup.mem_erase_iff]
        · simp [hj, h.refused, h.nodup.mem_erase_iff]
      · obtain ⟨hji, hj⟩ := h.nodup.mem_erase_iff.1 hj
        exact (mem_cons.1 (h.free hb j hj)).resolve_left hji
    | false => exact ⟨hinsert, h.nodup.insert, rfl, fun _ => hne, fun hf => by simp at hf⟩

theorem RespInv.foldl (accepts : Fin c.numSlices → Bool) (h : RespInv rest s) :
    RespInv [] (rest.foldl (fun s i => s.response i (accepts i)) s) := by
  induction rest generalizing s with
  | nil => exact h
  | cons j rest ih => exact ih (h.response (accepts j))

theorem RespInv.recvRespRetry (h : RespInv [] s) {order : List (Fin c.numSlices)}
    (howes : s.l1OwesRespRetry = true) (horder : order.Perm s.respWaitingSlice)
    (accepts : Fin c.numSlices → Bool) :
    ∃ s', s.recvRespRetry order accepts = .ok s' ∧ RespInv [] s' := by
  have hb : s.upperRespBlocked = true := h.owes ▸ howes
  have hne : s.respWaitingSlice.length ≠ 0 :=
    fun hz => h.blocked hb (length_eq_zero_iff.1 hz)
  have hinv : RespInv order { s with upperRespBlocked := false, l1OwesRespRetry := false } :=
    ⟨h.refused, h.nodup, rfl, fun hf => by simp at hf, fun _ i hi => horder.mem_iff.2 hi⟩
  refine ⟨_, ?_, hinv.foldl accepts⟩
  rw [RespState.recvRespRetry, hb, if_neg (by simp), if_neg hne]

end RespState

structure SlicedL2 (c : L2Config) where
  wrapper : WrapperState c
  resp : RespState c
  issued : List L2Packet
  sent : List L2Packet

inductive SlicedEvent (c : L2Config)
  | wrapper (e : WrapperEvent c)
  | response (i : Fin c.numSlices) (accepts : Bool)
  | respRetry (order : List (Fin c.numSlices)) (accepts : Fin c.numSlices → Bool)

namespace SlicedL2
open WrapperState RespState
variable {c : L2Config} {s s' : SlicedL2 c}

def start : SlicedL2 c where
  wrapper := .start
  resp := ⟨false, [], false, fun _ => false⟩
  issued := []
  sent := []

def Possible (s : SlicedL2 c) : SlicedEvent c → Prop
  | .wrapper e => s.wrapper.possible e = true ∧ e.snoopsAccepted
  | .response i _ => s.resp.respRefused i = false
  | .respRetry order _ => s.resp.l1OwesRespRetry = true ∧ order.Perm s.resp.respWaitingSlice

def step (s : SlicedL2 c) : SlicedEvent c → Except String (SlicedL2 c)
  | .wrapper e => (s.wrapper.step e).map fun w =>
      { s with wrapper := w, issued := s.issued ++ e.issued, sent := s.sent ++ e.sent s.wrapper }
  | .response i accepts => .ok { s with resp := s.resp.response i accepts }
  | .respRetry order accepts => (s.resp.recvRespRetry order accepts).map fun r =>
      { s with resp := r }

inductive Reachable : SlicedL2 c → Prop
  | start : Reachable start
  | step {s s' : SlicedL2 c} {e : SlicedEvent c} : Reachable s → s.Possible e →
      s.step e = .ok s' → Reachable s'

structure SlicedInv (s : SlicedL2 c) : Prop where
  retry : s.wrapper.RetryInv
  conserved : s.issued = s.sent ++ s.wrapper.unsent
  resp : s.resp.RespInv []

theorem slicedInv_start : SlicedInv (start : SlicedL2 c) where
  retry := wrapperInv_start.retryInv rfl rfl
  conserved := rfl
  resp := ⟨fun i => by simp [start], nodup_nil, rfl, fun h => by simp [start] at h,
    fun _ i hi => hi⟩

theorem SlicedInv.step (h : s.SlicedInv) {e : SlicedEvent c} (he : s.Possible e)
    (hs : s.step e = .ok s') : s'.SlicedInv := by
  cases e with
  | wrapper e =>
    cases hw : s.wrapper.step e with
    | error m => simp [SlicedL2.step, hw, Except.map] at hs
    | ok w =>
      simp only [SlicedL2.step, hw] at hs
      cases hs
      refine ⟨h.retry.step he.1 he.2 hw, ?_, h.resp⟩
      have hkept := unsent_step hw
      simp [h.conserved, hkept]
  | response i accepts =>
    cases hs
    have hresp : s.resp.RespInv [i] :=
      { h.resp with free := fun hb j hj => mem_cons_of_mem i (h.resp.free hb j hj) }
    exact ⟨h.retry, h.conserved, hresp.response accepts⟩
  | respRetry order accepts =>
    obtain ⟨r, hr, hinv⟩ := h.resp.recvRespRetry he.1 he.2 accepts
    simp only [SlicedL2.step, hr] at hs
    cases hs
    exact ⟨h.retry, h.conserved, hinv⟩

theorem Reachable.slicedInv (h : Reachable s) : s.SlicedInv := by
  induction h with
  | start => exact slicedInv_start
  | step _ he hs ih => exact ih.step he hs

def RetriesL1 (w : WrapperState c) : Prop :=
  ∀ i resent u, ∃ v, w.sliceDone i resent (u, true) = resend resent v ∧
    v.upperReqBlocked = false ∧ v.l1Waits = false

theorem retriesL1_of_blocked {w : WrapperState c} (h : w.upperReqBlocked = true) : RetriesL1 w := by
  intro i resent u
  let w' := (w.setSlice i { u with upstreamWaits := false }).unblockPrefetch
  have hfree : w'.upperReqBlocked = true := by
    dsimp only [w']
    unfold unblockPrefetch
    split <;> exact h
  refine ⟨{ w' with upperReqBlocked := false, l1Waits := false }, ?_, rfl, rfl⟩
  rw [sliceDone, recvReqRetry, if_neg (by simp [setSlice, h]),
    if_pos hfree]

/-- The books of the retries, the prefetches and the responses over every run. -/
theorem sliced_retries (h : Reachable s) :
    (∀ i j, (s.wrapper.slices i).pendingL1Retry = true →
      (s.wrapper.slices j).pendingL1Retry = true → i = j) ∧
    ((∃ i, (s.wrapper.slices i).pendingL1Retry = true) ↔
      s.wrapper.prefetchBlocked = true ∨ s.wrapper.upperReqBlocked = true) ∧
    (∀ e, s.Possible e →
      s.step e ≠ .error "assert(owner.prefetch_blocked || owner.upper_req_blocked)") ∧
    (s.wrapper.l1Waits = true → s.wrapper.upperReqBlocked = true) ∧
    (s.wrapper.upperReqBlocked = true → RetriesL1 s.wrapper) ∧
    s.issued = s.sent ++ s.wrapper.unsent ∧
    ∀ i, s.resp.respRefused i = true ↔ i ∈ s.resp.respWaitingSlice := by
  have hinv := h.slicedInv
  refine ⟨fun i j hi hj => hinv.retry.one hi hj, ⟨fun ⟨i, hi⟩ => ?_, hinv.retry.owed⟩,
    fun e he herr => ?_, hinv.retry.l1Waits, retriesL1_of_blocked, hinv.conserved,
    hinv.resp.refused⟩
  · exact (hinv.retry.known hi).imp_right hinv.retry.l1Waits
  · cases e with
    | wrapper e =>
      cases hw : s.wrapper.step e with
      | error m =>
        simp only [SlicedL2.step, hw] at herr
        obtain rfl := Except.error.inj herr
        simpa [IsSliceAssert] using hinv.retry.step_error he.1 hw
      | ok w =>
        simp only [SlicedL2.step, hw] at herr
        cases herr
    | response i accepts => cases herr
    | respRetry order accepts =>
      obtain ⟨r, hr, -⟩ := hinv.resp.recvRespRetry he.1 he.2 accepts
      simp only [SlicedL2.step, hr] at herr
      cases herr

/-- The second slice has a response refused while the first level cache blocks that of the first. -/
theorem blocked_response_waits :
    ∃ s : SlicedL2 twoSlices, Reachable s ∧ s.resp.respWaitingSlice.length = 2 ∧
      ∀ i, s.resp.respRefused i = true ↔ i ∈ s.resp.respWaitingSlice := by
  have hrun := Reachable.start.step (c := twoSlices) (e := .response ⟨0, by decide⟩ false) rfl rfl
  have hrun' := hrun.step (e := .response ⟨1, by decide⟩ true) rfl rfl
  exact ⟨_, hrun', rfl, (sliced_retries hrun').2.2.2.2.2.2⟩

end SlicedL2
end Gem5
