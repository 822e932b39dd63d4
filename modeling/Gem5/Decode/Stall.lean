import Gem5.Squash.Pipeline
import Mathlib.Tactic

/-!
# The stall buffer of decode

Groups of instructions from fetch wait in `stallBuffer`, one after another, and `eachstallSize` has
their sizes.  The oldest group goes to the `fixedbuffer` of its thread once that is empty; squashes
take the groups of one thread out of the middle.

A circular buffer that is full loses its first element when another one is added.
-/

namespace Gem5
open List Function SquashVersion

/-- `boost::circular_buffer::push_back`. -/
def circularPush {α : Type} (capacity : ℕ) (buffer : List α) (x : α) : List α :=
  if buffer.length < capacity then buffer ++ [x] else (buffer ++ [x]).tail

theorem circularPush_of_lt {α : Type} {capacity : ℕ} {buffer : List α} (x : α)
    (h : buffer.length < capacity) : circularPush capacity buffer x = buffer ++ [x] := if_pos h

theorem foldl_circularPush {α : Type} {capacity : ℕ} (xs buffer : List α)
    (h : buffer.length + xs.length ≤ capacity) :
    xs.foldl (circularPush capacity) buffer = buffer ++ xs := by
  induction xs generalizing buffer with
  | nil => rw [foldl_nil, append_nil]
  | cons x xs ih =>
    rw [length_cons] at h
    rw [foldl_cons, circularPush_of_lt x (by omega), ih (buffer ++ [x]) (by simp; omega),
      append_assoc, singleton_append]

structure DecodeParams where
  decodeWidth : ℕ
  fetchToDecodeDelay : ℕ

def DecodeParams.maxStalls (p : DecodeParams) : ℕ :=
  p.fetchToDecodeDelay + 1

/-- The buffers of decode for `n` threads; `squashed` are the instructions that it has marked. -/
structure DecodeBuffers (n : ℕ) where
  stallBuffer : List (PipeInst n)
  eachstallSize : List ℕ
  fixedbuffer : Fin n → List (PipeInst n)
  localSquashVer : ℕ
  squashed : List (PipeInst n)

/-- Fetch sends at most `decodeWidth` instructions of its queue in a cycle. -/
def sendInstructionsToDecode {n : ℕ} (p : DecodeParams) (fetchQueue : List (PipeInst n)) :
    List (PipeInst n) :=
  fetchQueue.take p.decodeWidth

namespace DecodeBuffers
variable {n : ℕ} (p : DecodeParams)

def start : DecodeBuffers n :=
  ⟨[], [], fun _ => [], 0, []⟩

def overflow (stalls : ℕ) : String :=
  s!"Decode stallbuffer overflow, has {stalls} stalls\n"

/-- The first part of `moveInstsToBuffer`: a group arrives. -/
def receive (s : DecodeBuffers n) (group : List (PipeInst n)) :
    Except String (DecodeBuffers n) :=
  if group.length ≠ 0 then
    if s.eachstallSize.length = p.maxStalls then .error (overflow (s.eachstallSize.length + 1))
    else .ok
      { s with
        eachstallSize := circularPush p.maxStalls s.eachstallSize group.length
        stallBuffer := group.foldl (circularPush (p.decodeWidth * p.maxStalls)) s.stallBuffer }
  else .ok s

def moveInsts (tid : Fin n) : ℕ → DecodeBuffers n → Except String (DecodeBuffers n)
  | 0, s => .ok s
  | k + 1, s =>
    match s.stallBuffer with
    | [] => .error "front of an empty buffer"
    | x :: rest =>
      if x.threadNumber ≠ tid then .error "tid == inst->threadNumber"
      else
        match SquashVersion.largerThan s.localSquashVer x.version with
        | .error e => .error e
        | .ok older =>
          if p.decodeWidth ≤ (s.fixedbuffer tid).length then
            .error "!fixedbuffer[inst->threadNumber].full()"
          else
            moveInsts tid k
              { s with
                squashed := if older then x :: s.squashed else s.squashed
                fixedbuffer := Function.update s.fixedbuffer tid (s.fixedbuffer tid ++ [x])
                stallBuffer := rest }

/-- The second part of `moveInstsToBuffer`: the oldest group leaves. -/
def moveFront (s : DecodeBuffers n) : Except String (DecodeBuffers n) :=
  match s.stallBuffer with
  | [] => .ok s
  | x :: _ =>
    if s.fixedbuffer x.threadNumber ≠ [] then .ok s
    else
      match s.eachstallSize with
      | [] => .error "front of an empty buffer"
      | size :: sizes => moveInsts p x.threadNumber size { s with eachstallSize := sizes }

def moveInstsToBuffer (s : DecodeBuffers n) (group : List (PipeInst n)) :
    Except String (DecodeBuffers n) := do
  moveFront p (← s.receive p group)

/-- The loop of `squash` and `selfSquash` over the groups, from one of them on: `buffer` is what
`delIt` and the end of the stall buffer enclose. -/
def dropSegments (tid : Fin n) :
    List ℕ → List (PipeInst n) → Except String (List ℕ × List (PipeInst n))
  | [], buffer => .ok ([], buffer)
  | size :: sizes, buffer =>
    match buffer with
    | [] => .error "dereference of the end"
    | x :: _ =>
      if buffer.length < size then .error "iterator beyond the end"
      else
        match dropSegments tid sizes (buffer.drop size) with
        | .error e => .error e
        | .ok (sizes', buffer') =>
          if x.threadNumber = tid then .ok (sizes', buffer')
          else .ok (size :: sizes', buffer.take size ++ buffer')

/-- What `squash` and `selfSquash` do to the buffers. -/
def clearThread (s : DecodeBuffers n) (tid : Fin n) : Except String (DecodeBuffers n) :=
  match dropSegments tid s.eachstallSize s.stallBuffer with
  | .error e => .error e
  | .ok (sizes, buffer) => .ok
      { s with
        fixedbuffer := Function.update s.fixedbuffer tid []
        eachstallSize := sizes
        stallBuffer := buffer }

/-- `squash`, with the version that `checkSquash` then takes over. -/
def squash (s : DecodeBuffers n) (tid : Fin n) (squashVersion : ℕ) :
    Except String (DecodeBuffers n) :=
  match s.clearThread tid with
  | .error e => .error e
  | .ok s => .ok { s with localSquashVer := squashVersion }

def selfSquash (s : DecodeBuffers n) (tid : Fin n) : Except String (DecodeBuffers n) :=
  s.clearThread tid

end DecodeBuffers

/-- What happens to the buffers: a tick with or without a group from fetch, squashes, and
instructions that are decoded. -/
inductive DecodeEvent (n : ℕ)
  | fetch (fetchQueue : List (PipeInst n))
  | idle
  | squash (tid : Fin n) (squashVersion : ℕ)
  | selfSquash (tid : Fin n)
  | decode (tid : Fin n) (k : ℕ)

def DecodeEvent.Allowed {n : ℕ} : DecodeEvent n → Prop
  | .fetch fetchQueue => fetchQueue ≠ [] ∧ ∃ tid, ∀ x ∈ fetchQueue, x.threadNumber = tid
  | _ => True

namespace DecodeBuffers
variable {n : ℕ}

def step (p : DecodeParams) (s : DecodeBuffers n) :
    DecodeEvent n → Except String (DecodeBuffers n)
  | .fetch fetchQueue => s.moveInstsToBuffer p (sendInstructionsToDecode p fetchQueue)
  | .idle => s.moveInstsToBuffer p []
  | .squash tid squashVersion => s.squash tid squashVersion
  | .selfSquash tid => s.selfSquash tid
  | .decode tid k => .ok
      { s with fixedbuffer := Function.update s.fixedbuffer tid ((s.fixedbuffer tid).drop k) }

inductive Run (p : DecodeParams) : DecodeBuffers n → Prop
  | start : Run p start
  | step {s t : DecodeBuffers n} {e : DecodeEvent n} :
      Run p s → e.Allowed → s.step p e = .ok t → Run p t

end DecodeBuffers

/-! ### Groups -/

structure Segment (n : ℕ) (decodeWidth : ℕ) where
  tid : Fin n
  insts : List (PipeInst n)
  ne_nil : insts ≠ []
  thread : ∀ x ∈ insts, x.threadNumber = tid
  length_le : insts.length ≤ decodeWidth

namespace DecodeBuffers
variable {n : ℕ} {p : DecodeParams}

structure Holds (p : DecodeParams) (s : DecodeBuffers n)
    (segments : List (Segment n p.decodeWidth)) : Prop where
  insts : s.stallBuffer = segments.flatMap Segment.insts
  sizes : s.eachstallSize = segments.map fun g => g.insts.length
  stalls : segments.length ≤ p.maxStalls

section
variable (segments : List (Segment n p.decodeWidth))

theorem length_flatMap_insts :
    (segments.flatMap Segment.insts).length = (segments.map fun g => g.insts.length).sum :=
  length_flatMap

theorem length_flatMap_le :
    (segments.flatMap Segment.insts).length ≤ p.decodeWidth * segments.length := by
  induction segments with
  | nil => simp
  | cons g segments ih =>
    rw [flatMap_cons, length_append, length_cons, Nat.mul_succ]
    have := g.length_le
    omega
end

theorem start_holds (p : DecodeParams) : (start : DecodeBuffers n).Holds p [] :=
  ⟨rfl, rfl, Nat.zero_le _⟩

variable {s t : DecodeBuffers n} {segments : List (Segment n p.decodeWidth)}

theorem receive_holds (h : s.Holds p segments) (g : Segment n p.decodeWidth) :
    (s.receive p g.insts = .error (overflow (segments.length + 1))) ∨
      ∃ t, s.receive p g.insts = .ok t ∧ t.Holds p (segments ++ [g]) := by
  have hpos : g.insts.length ≠ 0 := fun h0 => g.ne_nil (length_eq_zero_iff.mp h0)
  have hlen : s.eachstallSize.length = segments.length := by
    rw [h.sizes, length_map]
  unfold receive
  rw [if_pos hpos, hlen]
  by_cases hfull : segments.length = p.maxStalls
  · exact .inl (by rw [if_pos hfull])
  · right
    have hlt : segments.length < p.maxStalls := lt_of_le_of_ne h.stalls hfull
    refine ⟨_, by rw [if_neg hfull], ?_, ?_, ?_⟩
    · -- the buffer has room for a full group of each stall
      have hroom : s.stallBuffer.length + g.insts.length ≤ p.decodeWidth * p.maxStalls := by
        have h1 := length_flatMap_le segments
        have h2 := g.length_le
        rw [← h.insts] at h1
        calc s.stallBuffer.length + g.insts.length
            ≤ p.decodeWidth * segments.length + p.decodeWidth := Nat.add_le_add h1 h2
          _ = p.decodeWidth * (segments.length + 1) := (Nat.mul_succ _ _).symm
          _ ≤ p.decodeWidth * p.maxStalls := Nat.mul_le_mul_left _ hlt
      rw [foldl_circularPush _ _ hroom, h.insts]
      simp
    · rw [circularPush_of_lt _ (hlen ▸ hlt), h.sizes]
      simp
    · rw [length_append, length_singleton]
      exact hlt

theorem moveInsts_ok (tid : Fin n) (insts : List (PipeInst n)) (s : DecodeBuffers n)
    (rest : List (PipeInst n)) (hbuf : s.stallBuffer = insts ++ rest)
    (hthread : ∀ x ∈ insts, x.threadNumber = tid)
    (hroom : (s.fixedbuffer tid).length + insts.length ≤ p.decodeWidth) :
    (∃ m version other, moveInsts p tid insts.length s = .error m ∧
        largerThan version other = .error m) ∨
      ∃ t, moveInsts p tid insts.length s = .ok t ∧ t.stallBuffer = rest ∧
        t.eachstallSize = s.eachstallSize := by
  induction insts generalizing s with
  | nil => exact .inr ⟨s, rfl, hbuf, rfl⟩
  | cons x xs ih =>
    rw [length_cons] at hroom
    rw [length_cons, moveInsts, hbuf]
    simp only [cons_append, hthread x mem_cons_self, ne_eq, not_true_eq_false, if_false]
    cases hver : largerThan s.localSquashVer x.version with
    | error m => exact .inl ⟨m, _, _, rfl, hver⟩
    | ok older =>
      dsimp only
      rw [if_neg (by omega)]
      apply ih
      · rfl
      · exact fun y hy => hthread y (mem_cons_of_mem _ hy)
      · simp only [update_self, length_append, length_singleton]
        omega

theorem moveFront_holds (h : s.Holds p segments) : (∃ m version other, moveFront p s = .error m ∧
        largerThan version other = .error m) ∨
      ∃ t, moveFront p s = .ok t ∧ (t.Holds p segments ∨ t.Holds p segments.tail) := by
  cases hsegs : segments with
  | nil =>
    have hnil : s.stallBuffer = [] := by rw [h.insts, hsegs]; rfl
    right
    refine ⟨s, by rw [moveFront, hnil], .inl (hsegs ▸ h)⟩
  | cons g segs =>
    -- the first instruction of the buffer is the first one of the oldest group
    cases hinsts : g.insts with
    | nil => exact absurd hinsts g.ne_nil
    | cons x xs =>
      have hbuf : s.stallBuffer = g.insts ++ segs.flatMap Segment.insts := by
        rw [h.insts, hsegs, flatMap_cons]
      have hsizes : s.eachstallSize = g.insts.length :: segs.map fun g => g.insts.length := by
        rw [h.sizes, hsegs, map_cons]
      have hx : x.threadNumber = g.tid := g.thread x (by rw [hinsts]; exact mem_cons_self)
      have hbuf' : s.stallBuffer = x :: (xs ++ segs.flatMap Segment.insts) := by
        rw [hbuf, hinsts, cons_append]
      rw [moveFront, hbuf']
      dsimp only
      by_cases hfixed : s.fixedbuffer x.threadNumber ≠ []
      · rw [if_pos hfixed]
        exact .inr ⟨s, rfl, .inl (hsegs ▸ h)⟩
      · rw [if_neg hfixed, hsizes]
        rw [not_ne_iff, hx] at hfixed
        rw [hx]
        rcases moveInsts_ok (p := p) g.tid g.insts
          ⟨x :: (xs ++ segs.flatMap Segment.insts), segs.map fun g => g.insts.length,
            s.fixedbuffer, s.localSquashVer, s.squashed⟩ _ (hbuf'.symm.trans hbuf) g.thread
          (by simp only [hfixed, length_nil, Nat.zero_add]; exact g.length_le)
          with herror | ⟨t, ht, htbuf, htsizes⟩
        · exact .inl herror
        · refine .inr ⟨t, ht, .inr ⟨htbuf, htsizes, ?_⟩⟩
          have := h.stalls
          rw [hsegs, length_cons] at this
          rw [tail_cons]
          omega

theorem dropSegments_eq (tid : Fin n) (segments : List (Segment n p.decodeWidth)) :
    dropSegments tid (segments.map fun g => g.insts.length) (segments.flatMap Segment.insts) =
      .ok ((segments.filter fun g => g.tid ≠ tid).map fun g => g.insts.length,
        (segments.filter fun g => g.tid ≠ tid).flatMap Segment.insts) := by
  induction segments with
  | nil => rfl
  | cons g segs ih =>
    cases hinsts : g.insts with
    | nil => exact absurd hinsts g.ne_nil
    | cons x xs =>
      have hx : x.threadNumber = g.tid := g.thread x (by rw [hinsts]; exact mem_cons_self)
      have hdrop : (g.insts ++ segs.flatMap Segment.insts).drop g.insts.length =
          segs.flatMap Segment.insts := drop_left
      have htake : (g.insts ++ segs.flatMap Segment.insts).take g.insts.length = g.insts :=
        take_left
      rw [map_cons, flatMap_cons]
      rw [hinsts] at hdrop htake ⊢
      rw [cons_append] at hdrop htake ⊢
      rw [dropSegments, if_neg (by simp only [length_cons, length_append]; omega), hdrop,
        htake, ih]
      dsimp only
      by_cases htid : g.tid = tid
      · rw [if_pos (hx.trans htid), filter_cons_of_neg (by simpa using htid)]
      · rw [if_neg (fun h => htid (hx ▸ h)), filter_cons_of_pos (by simpa using htid),
          map_cons, flatMap_cons, hinsts]

theorem clearThread_holds (h : s.Holds p segments) (tid : Fin n) :
    ∃ t, s.clearThread tid = .ok t ∧ t.Holds p (segments.filter fun g => g.tid ≠ tid) := by
  refine ⟨_, by rw [clearThread, h.sizes, h.insts, dropSegments_eq], rfl, rfl, ?_⟩
  exact (length_filter_le _ _).trans h.stalls

theorem squash_holds (h : s.Holds p segments) (tid : Fin n) (squashVersion : ℕ) :
    ∃ t, s.squash tid squashVersion = .ok t ∧ t.Holds p (segments.filter fun g => g.tid ≠ tid) := by
  obtain ⟨t, ht, hholds⟩ := clearThread_holds h tid
  refine ⟨{ t with localSquashVer := squashVersion }, ?_, hholds.insts, hholds.sizes, hholds.stalls⟩
  rw [squash, ht]

/-- The errors of a stall buffer or a version counter that overruns. -/
def Overrun (m : String) : Prop :=
  (∃ stalls, m = overflow stalls) ∨
    ∃ version other, SquashVersion.largerThan version other = .error m

section
variable (h : s.Holds p segments)
include h

theorem moveInstsToBuffer_holds (g : Segment n p.decodeWidth) :
    (∃ m, s.moveInstsToBuffer p g.insts = .error m ∧ Overrun m) ∨
      ∃ t segments', s.moveInstsToBuffer p g.insts = .ok t ∧ t.Holds p segments' := by
  unfold moveInstsToBuffer
  rcases receive_holds h g with herror | ⟨u, hu, huholds⟩
  · exact .inl ⟨_, by rw [herror]; rfl, .inl ⟨_, rfl⟩⟩
  · rw [hu]
    rcases moveFront_holds huholds with ⟨m, v, o, herror, hver⟩ | ⟨t, ht, hstay | hleave⟩
    · exact .inl ⟨m, herror, .inr ⟨v, o, hver⟩⟩
    · exact .inr ⟨t, _, ht, hstay⟩
    · exact .inr ⟨t, _, ht, hleave⟩

theorem moveInstsToBuffer_nil_holds : (∃ m, s.moveInstsToBuffer p [] = .error m ∧ Overrun m) ∨
      ∃ t segments', s.moveInstsToBuffer p [] = .ok t ∧ t.Holds p segments' := by
  have hreceive : s.receive p [] = .ok s := by
    rw [receive, length_nil, if_neg (not_not_intro rfl)]
  rcases moveFront_holds h with ⟨m, v, o, herror, hver⟩ | ⟨t, ht, hstay | hleave⟩
  · exact .inl ⟨m, herror, .inr ⟨v, o, hver⟩⟩
  · exact .inr ⟨t, _, ht, hstay⟩
  · exact .inr ⟨t, _, ht, hleave⟩

theorem step_holds {e : DecodeEvent n} (he : e.Allowed) : (∃ m, s.step p e = .error m ∧ Overrun m) ∨
      ∃ t segments', s.step p e = .ok t ∧ t.Holds p segments' := by
  cases e with
  | fetch fetchQueue =>
    obtain ⟨-, tid, htid⟩ := he
    rw [step]
    by_cases hnil : sendInstructionsToDecode p fetchQueue = []
    · rw [hnil]
      exact moveInstsToBuffer_nil_holds h
    · exact moveInstsToBuffer_holds h
        ⟨tid, sendInstructionsToDecode p fetchQueue, hnil,
          fun x hx => htid x (mem_of_mem_take hx), length_take_le _ _⟩
  | idle => exact moveInstsToBuffer_nil_holds h
  | squash tid squashVersion =>
    obtain ⟨t, ht, hholds⟩ := squash_holds h tid squashVersion
    exact .inr ⟨t, _, ht, hholds⟩
  | selfSquash tid =>
    obtain ⟨t, ht, hholds⟩ := clearThread_holds h tid
    exact .inr ⟨t, _, ht, hholds⟩
  | decode tid k => exact .inr ⟨_, segments, rfl, h.insts, h.sizes, h.stalls⟩
end

theorem Run.holds (h : Run p s) : ∃ segments, s.Holds p segments := by
  induction h with
  | start => exact ⟨[], start_holds p⟩
  | step _ he hstep ih =>
    obtain ⟨segments, hsegments⟩ := ih
    rcases step_holds hsegments he with ⟨m, herror, -⟩ | ⟨t, segments', ht, hholds⟩
    · rw [herror] at hstep
      cases hstep
    · obtain rfl := Except.ok.inj (ht.symm.trans hstep)
      exact ⟨segments', hholds⟩

/-- After any operations the stall buffer consists of groups of one thread each with the recorded
sizes, which add up to its own; a squash takes out the groups of its thread and leaves the others as
they are; and no operation fails but for too many groups or for versions that are too far apart. -/
theorem run_holds (p : DecodeParams) (s : DecodeBuffers n) (h : Run p s) :
    s.eachstallSize.sum = s.stallBuffer.length ∧
    (∃ segments, s.Holds p segments ∧ ∀ tid,
      (∀ squashVersion, ∃ t, s.squash tid squashVersion = .ok t ∧
        t.Holds p (segments.filter fun g => g.tid ≠ tid)) ∧
      ∃ t, s.selfSquash tid = .ok t ∧ t.Holds p (segments.filter fun g => g.tid ≠ tid)) ∧
    ∀ e m, DecodeEvent.Allowed e → s.step p e = .error m → Overrun m := by
  obtain ⟨segments, hsegments⟩ := h.holds
  refine ⟨?_, ⟨segments, hsegments, fun tid => ⟨fun v => squash_holds hsegments tid v,
    clearThread_holds hsegments tid⟩⟩, ?_⟩
  · rw [hsegments.sizes, hsegments.insts, length_flatMap_insts]
  · intro e m he herror
    rcases step_holds hsegments he with ⟨m', herror', hm⟩ | ⟨t, segments', ht, -⟩
    · obtain rfl := Except.error.inj (herror'.symm.trans herror)
      exact hm
    · rw [ht] at herror
      cases herror

/-- Two groups of two threads wait while decode is busy; the squash of one thread leaves the other's
group. -/
theorem two_threads_hold : ∃ s t : DecodeBuffers 2, Run ⟨2, 1⟩ s ∧ s.eachstallSize = [1, 2] ∧
    s.eachstallSize.sum = s.stallBuffer.length ∧ s.selfSquash 0 = .ok t ∧
    t.stallBuffer = [⟨4, 1, 0⟩, ⟨5, 1, 0⟩] := by
  have hbusy : Run (n := 2) ⟨2, 1⟩ _ :=
    .step (.step .start (e := .fetch [⟨1, 0, 0⟩, ⟨2, 0, 0⟩]) ⟨by simp, 0, by decide⟩ rfl)
      (e := .fetch [⟨3, 0, 0⟩]) ⟨by simp, 0, by decide⟩ rfl
  have hrun := hbusy.step (e := .fetch [⟨4, 1, 0⟩, ⟨5, 1, 0⟩]) ⟨by simp, 1, by decide⟩ rfl
  exact ⟨_, _, hrun, rfl, (run_holds ⟨2, 1⟩ _ hrun).1, rfl, rfl⟩

end DecodeBuffers
end Gem5
