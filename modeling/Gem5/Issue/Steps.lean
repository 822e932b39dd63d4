import Gem5.Issue.Queue
import Gem5.Lib.Loop

/-!
# What the events of the scheduler leave alone

Most events only go forward: sources become ready, instructions are issued, squashed or leave, and
no register is written (`Sched.Later`).  Many do less: they wake instructions (`Sched.Woken`).  Here
each function of the model is put in one of these classes, so that an invariant need only be shown
to survive the class.
-/

namespace Gem5
open List Function
variable {c : SchedConfig}

/-! ### Going forward -/

structure IqInst.Later (x y : IqInst c) : Prop where
  srcs : y.srcs = x.srcs
  ready {i : ℕ} : x.ready i = true → y.ready i = true
  issued : x.issued = true → y.issued = true
  squashed : x.squashed = true → y.squashed = true

theorem IqInst.Later.refl (x : IqInst c) : x.Later x := ⟨rfl, id, id, id⟩

variable {x y z : IqInst c}

theorem IqInst.Later.trans (h : x.Later y) (h' : y.Later z) : x.Later z :=
  ⟨h'.srcs.trans h.srcs, fun hx => h'.ready (h.ready hx), fun hx => h'.issued (h.issued hx),
    fun hx => h'.squashed (h.squashed hx)⟩

namespace Sched

/-- The scheduler has come further: no register is written, nothing new waits, and who waits is
forgotten only when squashed. -/
structure Later (s t : Sched c) : Prop where
  inst (x : ℕ) : (s.insts x).Later (t.insts x)
  instList (q : Fin c.numQueues) : (t.queues q).instList ⊆ (s.queues q).instList
  graph (q : Fin c.numQueues) (p : Fin c.numRegs) :
    (t.queues q).subDepGraph p ⊆ (s.queues q).subDepGraph p
  keeps {q : Fin c.numQueues} {p : Fin c.numRegs} {e : ℕ × ℕ} :
    e ∈ (s.queues q).subDepGraph p → (t.insts e.2).squashed = false →
      e ∈ (t.queues q).subDepGraph p
  scoreboard {p : Fin c.numRegs} : t.scoreboard p = true → s.scoreboard p = true

theorem Later.refl (s : Sched c) : s.Later s :=
  ⟨fun _ => .refl _, fun _ _ h => h, fun _ _ _ h => h, fun h _ => h, id⟩

variable {s : Sched c}

theorem Later.trans {t u : Sched c} (h : s.Later t) (h' : t.Later u) : s.Later u where
  inst x := (h.inst x).trans (h'.inst x)
  instList q := Subset.trans (h'.instList q) (h.instList q)
  graph q p := Subset.trans (h'.graph q p) (h.graph q p)
  keeps {q p e} he hu := by
    have ht : (t.insts e.2).squashed = false := by
      cases hs : (t.insts e.2).squashed with
      | false => rfl
      | true => exact absurd ((h'.inst e.2).squashed hs) (by simp [hu])
    exact h'.keeps (h.keeps he ht) hu
  scoreboard hp := h.scoreboard (h'.scoreboard hp)

theorem Later.foldl {α : Type} {f : Sched c → α → Sched c} (hf : ∀ s a, Later s (f s a))
    (l : List α) (s : Sched c) : s.Later (l.foldl f s) :=
  foldlRecOn (motive := fun t => s.Later t) l f (.refl s) fun t ht a _ => ht.trans (hf t a)

theorem later_modInst {x : ℕ} {f : IqInst c → IqInst c} (h : (s.insts x).Later (f (s.insts x))) :
    s.Later (s.modInst x f) where
  inst y := by
    by_cases hy : y = x
    · subst hy
      simpa [modInst] using h
    · simpa [modInst, hy] using IqInst.Later.refl (s.insts y)
  instList _ _ h := h
  graph _ _ _ h := h
  keeps h _ := h
  scoreboard := id

theorem later_modQueue {q : Fin c.numQueues} {f : IssueQue c → IssueQue c}
    (hl : (f (s.queues q)).instList ⊆ (s.queues q).instList)
    (hg : (f (s.queues q)).subDepGraph = (s.queues q).subDepGraph) : s.Later (s.modQueue q f) where
  inst y := .refl _
  instList q' := by
    by_cases hq : q' = q
    · subst hq
      simpa [modQueue] using hl
    · simp [modQueue, hq]
  graph q' p := by
    by_cases hq : q' = q
    · subst hq
      simp [modQueue, hg]
    · simp [modQueue, hq]
  keeps {q' p e} he _ := by
    by_cases hq : q' = q
    · subst hq
      simpa [modQueue, hg] using he
    · simpa [modQueue, hq] using he
  scoreboard := id
end Sched

/-! ### Wake-ups -/

structure IqInst.Woken (x y : IqInst c) : Prop where
  srcs : y.srcs = x.srcs
  dsts : y.dsts = x.dsts
  issued : y.issued = x.issued
  squashed : y.squashed = x.squashed
  ready {i : ℕ} : x.ready i = true → y.ready i = true

theorem IqInst.Woken.refl (x : IqInst c) : x.Woken x := ⟨rfl, rfl, rfl, rfl, id⟩

theorem IqInst.Woken.trans (h : x.Woken y) (h' : y.Woken z) : x.Woken z :=
  ⟨h'.srcs.trans h.srcs, h'.dsts.trans h.dsts, h'.issued.trans h.issued,
    h'.squashed.trans h.squashed, fun hx => h'.ready (h.ready hx)⟩

theorem IqInst.Woken.later (h : x.Woken y) : x.Later y :=
  ⟨h.srcs, h.ready, fun hx => h.issued.trans hx, fun hx => h.squashed.trans hx⟩

theorem IqInst.woken_markSrcRegReady (i : ℕ) (x : IqInst c) : x.Woken (x.markSrcRegReady i) where
  srcs := rfl
  dsts := rfl
  issued := rfl
  squashed := rfl
  ready {j} h := by
    by_cases hj : j = i
    · rw [hj]
      exact update_self ..
    · exact (update_of_ne hj ..).trans h

namespace Sched
structure Served (s t : Sched c) : Prop where
  inst (x : ℕ) : (s.insts x).Woken (t.insts x)
  instList (q : Fin c.numQueues) : (t.queues q).instList = (s.queues q).instList
  scoreboard : t.scoreboard = s.scoreboard

structure Woken (s t : Sched c) : Prop extends Served s t where
  graph (q : Fin c.numQueues) : (t.queues q).subDepGraph = (s.queues q).subDepGraph

theorem Served.refl (s : Sched c) : s.Served s := ⟨fun _ => .refl _, fun _ => rfl, rfl⟩

variable {s t u : Sched c} {x : ℕ} {q : Fin c.numQueues} {pinned : Fin c.numRegs → ℕ}

theorem Served.trans (h : s.Served t) (h' : t.Served u) : s.Served u :=
  ⟨fun x => (h.inst x).trans (h'.inst x), fun q => (h'.instList q).trans (h.instList q),
    h'.scoreboard.trans h.scoreboard⟩

theorem Woken.refl (s : Sched c) : s.Woken s := ⟨.refl s, fun _ => rfl⟩

theorem Woken.trans (h : s.Woken t) (h' : t.Woken u) : s.Woken u :=
  ⟨h.toServed.trans h'.toServed, fun q => (h'.graph q).trans (h.graph q)⟩

theorem Woken.later (h : s.Woken t) : s.Later t where
  inst x := (h.inst x).later
  instList q := by rw [h.instList q]; exact Subset.refl _
  graph q p := by rw [h.graph q]; exact Subset.refl _
  keeps {q p e} he _ := by rwa [h.graph q]
  scoreboard {p} hp := by rwa [h.scoreboard] at hp

theorem Served.dstRegs (h : s.Served t) (x : ℕ) : (t.insts x).dstRegs = (s.insts x).dstRegs := by
  unfold IqInst.dstRegs
  rw [(h.inst x).dsts]

theorem woken_modInst {f : IqInst c → IqInst c} (h : (s.insts x).Woken (f (s.insts x))) :
    s.Woken (s.modInst x f) where
  inst y := by
    by_cases hy : y = x
    · subst hy
      simpa [modInst] using h
    · simpa [modInst, hy] using IqInst.Woken.refl (s.insts y)
  instList _ := rfl
  scoreboard := rfl
  graph _ := rfl

theorem woken_modQueue {f : IssueQue c → IssueQue c}
    (hl : (f (s.queues q)).instList = (s.queues q).instList)
    (hg : (f (s.queues q)).subDepGraph = (s.queues q).subDepGraph) : s.Woken (s.modQueue q f) where
  inst y := .refl _
  instList q' := by
    by_cases hq : q' = q
    · subst hq
      simpa [modQueue] using hl
    · simp [modQueue, hq]
  scoreboard := rfl
  graph q' := by
    by_cases hq : q' = q
    · subst hq
      simpa [modQueue] using hg
    · simp [modQueue, hq]

section
variable (q : Fin c.numQueues)

theorem woken_readyQPush (x : ℕ) (s : Sched c) : s.Woken (s.readyQPush q x) := by
  have hmark : s.Woken (s.modInst x fun i => { i with inReadyQ := true }) :=
    woken_modInst ⟨rfl, rfl, rfl, rfl, id⟩
  refine hmark.trans ?_
  unfold readyQPush
  exact woken_modQueue rfl rfl

theorem woken_addIfReady (x : ℕ) (s : Sched c) : s.Woken (s.addIfReady q x) := by
  have hclear : s.Woken (s.modInst x fun i => { i with canceled := false }) :=
    woken_modInst ⟨rfl, rfl, rfl, rfl, id⟩
  unfold addIfReady
  dsimp only
  split_ifs
  · exact .refl s
  · exact hclear
  · exact hclear.trans (woken_readyQPush q x _)

theorem woken_wakeEntries (es : List (ℕ × ℕ)) (s : Sched c) : s.Woken (s.wakeEntries q es) := by
  induction es generalizing s with
  | nil => exact .refl s
  | cons e es ih =>
    obtain ⟨i, x⟩ := e
    unfold wakeEntries
    split_ifs
    · exact ih s
    · have hmark : s.Woken (s.modInst x (·.markSrcRegReady i)) :=
        woken_modInst (IqInst.woken_markSrcRegReady i _)
      exact (hmark.trans (woken_addIfReady q x _)).trans (ih _)

theorem wakeEntries_ready {es : List (ℕ × ℕ)} {i : ℕ} (he : (i, x) ∈ es)
    (s : Sched c) : ((s.wakeEntries q es).insts x).ready i = true := by
  induction es generalizing s with
  | nil => cases he
  | cons e es ih =>
    obtain ⟨j, y⟩ := e
    unfold wakeEntries
    rcases mem_cons.1 he with heq | hrest
    · cases heq
      split_ifs with hready
      · exact ((woken_wakeEntries q es s).inst x).ready hready
      · refine ((woken_wakeEntries q es _).inst x).ready
          (((woken_addIfReady q x _).inst x).ready ?_)
        simp [modInst, IqInst.markSrcRegReady]
    · split_ifs
      · exact ih hrest s
      · exact ih hrest _
end

theorem woken_wakeRegs (pinned : Fin c.numRegs → ℕ) (q : Fin c.numQueues)
    (rs : List (Fin c.numRegs)) (s : Sched c) : s.Woken (s.wakeRegs true pinned q rs) := by
  induction rs generalizing s with
  | nil => exact .refl s
  | cons p rs ih =>
    unfold wakeRegs
    split
    · exact ih s
    · exact (woken_wakeEntries q _ s).trans (ih _)

theorem woken_wakeUpDependents (pinned : Fin c.numRegs → ℕ) (x : ℕ) (q : Fin c.numQueues)
    (s : Sched c) : s.Woken (s.wakeUpDependents true pinned x q) := by
  unfold wakeUpDependents
  split_ifs
  · exact .refl s
  · exact woken_wakeRegs pinned q _ s

theorem woken_early (b : Fin c.numRegs → Bool) (s : Sched c) :
    s.Woken { s with earlyScoreboard := b } := ⟨⟨fun _ => .refl _, fun _ => rfl, rfl⟩, fun _ => rfl⟩

theorem woken_specWakeEvents (es : List (ℕ × Fin c.numQueues)) (s : Sched c) :
    s.Woken { s with specWakeEvents := es } := ⟨⟨fun _ => .refl _, fun _ => rfl, rfl⟩, fun _ => rfl⟩

theorem Woken.foldl {α : Type} {f : Sched c → α → Sched c} (hf : ∀ s a, Woken s (f s a))
    (l : List α) (s : Sched c) : s.Woken (l.foldl f s) :=
  foldlRecOn (motive := fun t => s.Woken t) l f (.refl s) fun t ht a _ => ht.trans (hf t a)

theorem woken_specWakeUpDependents (pinned : Fin c.numRegs → ℕ) (x : ℕ) (q : Fin c.numQueues)
    (s : Sched c) : s.Woken (s.specWakeUpDependents pinned x q) := by
  unfold specWakeUpDependents
  dsimp only
  split
  · exact .refl s
  · refine Woken.foldl (fun t dep => ?_) _ s
    split_ifs
    · exact woken_wakeUpDependents pinned x dep t
    · exact (woken_wakeUpDependents pinned x dep t).trans (woken_early _ _)
    · exact woken_specWakeEvents _ t

theorem woken_specWakeUpFromLoadPipe (h : s.specWakeUpFromLoadPipe pinned x = .ok t) :
    s.Woken t := by
  unfold specWakeUpFromLoadPipe at h
  split_ifs at h
  cases hq : (s.insts x).issueQue with
  | none => simp [hq] at h
  | some q =>
    simp only [hq] at h
    cases h
    exact Woken.foldl (fun u dep => (woken_wakeUpDependents pinned x dep u).trans (woken_early _ _))
      _ s

/-! ### The other events -/

theorem woken_selectPort (q : Fin c.numQueues) (s : Sched c) (port : ℕ × PortChoice) :
    s.Woken (selectPort q s port) := by
  have hout (t : Sched c) (x : ℕ) : t.Woken (t.modInst x fun i => { i with inReadyQ := false }) :=
    woken_modInst ⟨rfl, rfl, rfl, rfl, id⟩
  unfold selectPort
  exact (Woken.foldl hout _ s).trans (woken_modQueue rfl rfl)

theorem woken_selectInst (q : Fin c.numQueues) (ports : List PortChoice) (failed : List ℕ)
    (s : Sched c) : s.Woken (s.selectInst q ports failed) := by
  have hfail (t : Sched c) (x : ℕ) : t.Woken (t.modInst x fun i => { i with arbFailed := true }) :=
    woken_modInst ⟨rfl, rfl, rfl, rfl, id⟩
  have hclear : s.Woken (s.modQueue q fun iq => { iq with selectQ := [] }) := woken_modQueue rfl rfl
  exact (hclear.trans (Woken.foldl (woken_selectPort q) _ _)).trans (Woken.foldl hfail _ _)

theorem woken_scheduleOne (h : scheduleOne pinned q s x = .ok t) : s.Woken t := by
  have hdone (u : Sched c) : u.Woken (u.modInst x fun i => { i with arbFailed := false }) :=
    woken_modInst ⟨rfl, rfl, rfl, rfl, id⟩
  have hsched : s.Woken (s.modInst x fun i => { i with scheduled := true }) :=
    woken_modInst ⟨rfl, rfl, rfl, rfl, id⟩
  unfold scheduleOne at h
  dsimp only at h
  split_ifs at h
  · cases h
    exact hdone s
  · cases h
    exact (woken_readyQPush q x s).trans (hdone _)
  · cases h
    refine (hsched.trans ?_).trans (hdone _)
    exact (woken_modQueue rfl rfl).trans (woken_specWakeUpDependents pinned x q _)

theorem woken_tick (h : s.tick pinned q = .ok t) : s.Woken t := by
  unfold tick at h
  cases hu : (s.queues q).selectQ.foldlM (scheduleOne pinned q) s with
  | error e =>
    rw [hu] at h
    cases h
  | ok u =>
    rw [hu] at h
    cases h
    have hsu : s.Woken u := Loop.foldlM_inv (fun v => s.Woken v)
      (fun v x w hv hw => hv.trans (woken_scheduleOne hw)) (.refl s) hu
    exact hsu.trans (woken_modQueue rfl rfl)

theorem woken_dropInflight (dropped : IqInst c → Bool) (q : Fin c.numQueues) (s : Sched c) :
    s.Woken (s.dropInflight dropped q) := by
  unfold dropInflight
  exact woken_modQueue rfl rfl

theorem later_addProducer (x : ℕ) (s : Sched c) : s.Later (s.addProducer x) where
  inst _ := .refl _
  instList _ := Subset.refl _
  graph _ _ := Subset.refl _
  keeps h _ := h
  scoreboard {p} hp := by
    simp only [addProducer, setRegs] at hp
    split_ifs at hp
    exact hp

theorem later_doCommit {seqNum : ℕ} (h : s.doCommit seqNum q = .ok t) : s.Later t := by
  unfold doCommit at h
  dsimp only at h
  split at h
  · cases h
    exact later_modQueue (dropWhile_suffix _).subset rfl
  · cases h

theorem later_squashInst (young : ℕ → Bool) (s : Sched c) :
    s.Later { s with insts := fun x => if young x then squashInst (s.insts x) else s.insts x } where
  inst x := by
    dsimp only
    split
    · exact ⟨rfl, id, fun _ => rfl, fun _ => rfl⟩
    · exact .refl _
  instList _ := Subset.refl _
  graph _ _ := Subset.refl _
  keeps h _ := h
  scoreboard := id

theorem later_forget (q : Fin c.numQueues) (s : Sched c) : s.Later (s.modQueue q fun iq => { iq with
      subDepGraph := fun p => (iq.subDepGraph p).filter fun e => !(s.insts e.2).squashed }) where
  inst _ := .refl _
  instList q' := by
    by_cases hq : q' = q
    · subst hq
      simp [modQueue]
    · simp [modQueue, hq]
  graph q' p := by
    by_cases hq : q' = q
    · subst hq
      simp [modQueue]
    · simp [modQueue, hq]
  keeps {q' p e} he hsq := by
    have hsq' : (s.insts e.2).squashed = false := hsq
    by_cases hq : q' = q
    · subst hq
      simp [modQueue, he, hsq']
    · simpa [modQueue, hq] using he
  scoreboard := id

theorem later_squashQueue (seqNum : ℕ) (s : Sched c) (q : Fin c.numQueues) :
    s.Later (squashQueue seqNum s q) := by
  let young (x : ℕ) : Bool :=
    decide ((s.insts x).seqNum > seqNum) && decide (x ∈ (s.queues q).instList)
  refine (later_squashInst young s).trans (Later.trans ?_ (later_forget q _))
  exact (later_modQueue (filter_sublist.subset) rfl).trans
    (woken_dropInflight (·.squashed) q _).later
end Sched
end Gem5
