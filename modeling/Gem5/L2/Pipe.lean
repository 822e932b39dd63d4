import Gem5.L2.Slice

/-!
# The main pipe of a slice

Responses from memory go through the main pipe: a task for each is put into the first stage, and a
grant in the stages three to five is handed to the inner cache, one in a cycle.  When the events of
the slice fire, and what the arbiter and the resources of the pipe allow, is left open.
-/

namespace Gem5
open List

/-- A task in a stage of the pipe, with its bit `GrantBuf`; an empty stage has none. -/
structure PipeTask where
  source : TaskSource
  pkt : ℕ
  grantBuf : Bool

def grantOf (t : Option PipeTask) : Option ℕ :=
  t.bind fun t => if t.source = .L2MSHRGrant ∧ t.grantBuf = true then some t.pkt else none

/-- The pipe and the responses that wait for it; all responses that arrived, those handed to the
inner cache, and whether a task was overwritten. -/
structure MainPipe where
  tasks : List (Option PipeTask)
  curCycle : ℕ
  readyResponses : List ℕ
  arrived : List ℕ
  handed : List ℕ
  overwritten : Bool

/-- What happens, with the cycle in which it does; `admits` says that the arbiter and the resources
allow a task. -/
inductive MainPipeEvent
  | memResp (pkt : ℕ)
  | processResponses (now : ℕ) (admits : Bool)
  | tickMainPipe (now : ℕ)
  | request (source : TaskSource) (pkt : ℕ) (admits : Bool)

namespace MainPipe
def start (depth : ℕ) : MainPipe :=
  ⟨List.replicate depth none, 0, [], [], [], false⟩

def grantAt (i : ℕ) (s : MainPipe) : Option ℕ :=
  (s.tasks[i]?).bind grantOf

def sendGrant (i : ℕ) (s : MainPipe) : MainPipe :=
  { s with
    handed := s.handed ++ (s.grantAt i).toList
    tasks := s.tasks.modify i fun t => t.map fun t => { t with grantBuf := false } }

def sendMSHRGrantPkt (s : MainPipe) : MainPipe :=
  match [4, 3, 2].find? fun i => (s.grantAt i).isSome with
  | some i => s.sendGrant i
  | none => s

def advance (now : ℕ) (s : MainPipe) : MainPipe :=
  if now > s.curCycle then
    let s := s.sendMSHRGrantPkt
    { s with tasks := none :: s.tasks.dropLast, curCycle := now }
  else s

/-- `isTaskAvailable`, as far as the first stage goes. -/
def isTaskAvailable (s : MainPipe) : Bool :=
  s.tasks.head?.any (·.isNone)

def buildTask (source : TaskSource) (pkt : ℕ) (s : MainPipe) : MainPipe :=
  { s with
    overwritten := s.overwritten || !s.isTaskAvailable
    tasks := s.tasks.set 0
      (some ⟨source, pkt, decide (source = .L2MSHRGrant ∨ source = .L1WQ)⟩) }

def processResponses (now : ℕ) (admits : Bool) (s : MainPipe) : MainPipe :=
  let s := s.advance now
  match s.readyResponses with
  | [] => s
  | pkt :: rest =>
    if admits && s.isTaskAvailable then
      { s with readyResponses := rest }.buildTask .L2MSHRGrant pkt
    else s

/-- `innerCpuPortSendTimingReq`, for what enters the pipe. -/
def request (source : TaskSource) (pkt : ℕ) (admits : Bool) (s : MainPipe) : MainPipe :=
  if admits && s.isTaskAvailable then s.buildTask source pkt else s

def step (s : MainPipe) : MainPipeEvent → MainPipe
  | .memResp pkt =>
    { s with readyResponses := s.readyResponses ++ [pkt], arrived := s.arrived ++ [pkt] }
  | .processResponses now admits => s.processResponses now admits
  | .tickMainPipe now => s.advance now
  | .request source pkt admits => s.request source pkt admits

inductive Reachable (depth : ℕ) : MainPipe → Prop
  | start : Reachable depth (start depth)
  | step {s : MainPipe} {e : MainPipeEvent} : Reachable depth s →
      (∀ pkt admits, e ≠ .request .L2MSHRGrant pkt admits) → Reachable depth (s.step e)

def unsent (s : MainPipe) : List ℕ :=
  (s.tasks.filterMap grantOf).reverse

structure PipeInv (s : MainPipe) : Prop where
  stages : ∃ a b c rest, s.tasks = a :: b :: c :: rest ∧ 2 ≤ rest.length ∧
    ∀ t ∈ rest, grantOf t = none
  conserved : s.arrived = s.handed ++ s.unsent ++ s.readyResponses
  kept : s.overwritten = false

variable {s : MainPipe} {a b c : Option PipeTask} {rest : List (Option PipeTask)} {pkt : ℕ}
  {source : TaskSource}

theorem filterMap_grantOf_cons (t : Option PipeTask) (l : List (Option PipeTask)) :
    (t :: l).filterMap grantOf = (grantOf t).toList ++ l.filterMap grantOf := by
  cases h : grantOf t <;> simp [h]

theorem sendMSHRGrantPkt_eq (htasks : s.tasks = a :: b :: c :: rest) (hlen : 2 ≤ rest.length)
    (hrest : ∀ t ∈ rest, grantOf t = none) : ∃ c', grantOf c' = none ∧ s.sendMSHRGrantPkt =
      { s with tasks := a :: b :: c' :: rest, handed := s.handed ++ (grantOf c).toList } := by
  obtain ⟨d, rest, rfl⟩ := exists_cons_of_length_pos (by omega : 0 < rest.length)
  obtain ⟨e, rest, rfl⟩ := exists_cons_of_length_pos
    (Nat.lt_of_succ_le (Nat.le_of_succ_le_succ hlen))
  have hd : grantOf d = none := hrest d mem_cons_self
  have he : grantOf e = none := hrest e (mem_cons_of_mem d mem_cons_self)
  unfold sendMSHRGrantPkt
  cases hc : grantOf c with
  | none =>
    refine ⟨c, hc, ?_⟩
    have hnone : ([4, 3, 2].find? fun i => (s.grantAt i).isSome) = none := by
      simp [grantAt, htasks, hd, he, hc]
    rw [hnone, ← htasks]
    simp
  | some p =>
    refine ⟨c.map fun t => { t with grantBuf := false }, ?_, ?_⟩
    · cases c <;> simp [grantOf]
    · simp [grantAt, sendGrant, htasks, hd, he, hc, modify_succ_cons]

theorem PipeInv.advance (h : s.PipeInv) (now : ℕ) : (s.advance now).PipeInv := by
  obtain ⟨a, b, c, rest, htasks, hlen, hrest⟩ := h.stages
  obtain ⟨c', hc', hsend⟩ := sendMSHRGrantPkt_eq htasks hlen hrest
  have hdrop : ∀ t ∈ (c' :: rest).dropLast, grantOf t = none := by
    intro t ht
    rcases mem_cons.1 ((dropLast_sublist _).subset ht) with rfl | ht
    · exact hc'
    · exact hrest t ht
  unfold MainPipe.advance
  split_ifs
  · refine ⟨⟨none, a, b, (c' :: rest).dropLast, ?_, by simpa using hlen, hdrop⟩, ?_, ?_⟩
    · simp [hsend]
    · have hold := filterMap_eq_nil_iff.2 hrest
      have hnew := filterMap_eq_nil_iff.2 hdrop
      have hcons := h.conserved
      have hdropped : (a :: b :: c' :: rest).dropLast = a :: b :: (c' :: rest).dropLast := rfl
      have hone : (grantOf c).toList.reverse = (grantOf c).toList := by cases grantOf c <;> rfl
      have hempty : grantOf none = none := rfl
      simp [unsent, hsend, hdropped, htasks, filterMap_grantOf_cons, hold, hnew, hcons, hone,
        hempty]
    · simpa [hsend] using h.kept
  · exact h

theorem PipeInv.buildTask {ready : List ℕ} (h : s.PipeInv) (havail : s.isTaskAvailable = true)
    (hready : s.readyResponses = (if source = .L2MSHRGrant then [pkt] else []) ++ ready) :
    PipeInv ({ s with readyResponses := ready }.buildTask source pkt) := by
  obtain ⟨a, b, c, rest, htasks, hlen, hrest⟩ := h.stages
  obtain rfl : a = none := by simpa [isTaskAvailable, htasks] using havail
  refine ⟨⟨_, b, c, rest, by rw [MainPipe.buildTask, htasks]; rfl, hlen, hrest⟩, ?_, ?_⟩
  · have hcons := h.conserved
    simp only [unsent, htasks, hready] at hcons
    rw [MainPipe.buildTask]
    simp only [unsent, htasks, set_cons_zero, hcons]
    cases source <;> simp [grantOf, filterMap_grantOf_cons]
  · simpa [MainPipe.buildTask, isTaskAvailable, htasks] using h.kept

theorem PipeInv.step (h : s.PipeInv) {e : MainPipeEvent}
    (he : ∀ pkt admits, e ≠ .request .L2MSHRGrant pkt admits) : (s.step e).PipeInv := by
  cases e with
  | memResp pkt => exact ⟨h.stages, by simp [MainPipe.step, h.conserved, unsent], h.kept⟩
  | processResponses now admits =>
    have hnext := h.advance now
    simp only [MainPipe.step, MainPipe.processResponses]
    split
    · exact hnext
    · rename_i pkt rest hready
      split_ifs with hadmit
      · have havail : (s.advance now).isTaskAvailable = true := by simp_all
        exact hnext.buildTask havail (by simpa using hready)
      · exact hnext
  | tickMainPipe now => exact h.advance now
  | request source pkt admits =>
    simp only [MainPipe.step, MainPipe.request]
    split_ifs with hadmit
    · have hsource : source ≠ .L2MSHRGrant := by
        rintro rfl
        exact he pkt admits rfl
      have havail : s.isTaskAvailable = true := by simp_all
      exact h.buildTask havail (by simp [hsource])
    · exact h

theorem Reachable.pipeInv {depth : ℕ} (hdepth : 5 ≤ depth) (h : Reachable depth s) : s.PipeInv := by
  induction h with
  | start =>
    obtain ⟨n, rfl⟩ := Nat.exists_eq_add_of_le' hdepth
    refine ⟨⟨none, none, none, replicate (n + 2) none, rfl, by simp, ?_⟩, ?_, rfl⟩
    · simp [grantOf]
    · simp [MainPipe.start, unsent, grantOf]
  | step _ he ih => exact ih.step he

/-- **Responses pass the pipe in order, each once.**  What has arrived is what was handed over, then
what is in the pipe, then what waits. -/
theorem responses_in_order {depth : ℕ} (hdepth : 5 ≤ depth) (h : Reachable depth s) :
    s.overwritten = false ∧ s.arrived = s.handed ++ s.unsent ++ s.readyResponses :=
  ⟨(h.pipeInv hdepth).kept, (h.pipeInv hdepth).conserved⟩

/-- Two responses, the first of which is through the pipe. -/
theorem first_response_handed :
    ∃ s, Reachable 5 s ∧ s.handed = [8] ∧ s.overwritten = false ∧
      s.arrived = s.handed ++ s.unsent ++ s.readyResponses := by
  have hstart : Reachable 5 _ := .start
  have hfirst := hstart.step (e := .memResp 8) (by simp)
  have hbuilt := (hfirst.step (e := .memResp 9) (by simp)).step
    (e := .processResponses 1 true) (by simp)
  have hmoved := (hbuilt.step (e := .processResponses 2 true) (by simp)).step
    (e := .tickMainPipe 3) (by simp)
  have hrun := hmoved.step (e := .tickMainPipe 4) (by simp)
  exact ⟨_, hrun, rfl, responses_in_order (by decide) hrun⟩

end MainPipe
end Gem5
