import Gem5.Issue.Steps
import Gem5.Lib.Count

/-!
# No wake-up is lost

An instruction that waits for a register is known to its queue under that register, and the register
is not written (`Sched.WakeInv`); then the write-back of the register reaches it.

Events that go forward keep this (`WakeInv.later`), and so do the others, each by its own lemma.
`no_lost_wakeups` is the result for every state that the scheduler comes to.
-/

namespace Gem5
open List Function IqInst
variable {c : SchedConfig}

namespace Sched
structure Linked (s : Sched c) : Prop where
  entry {q : Fin c.numQueues} {p : Fin c.numRegs} {i x : ℕ} :
    (i, x) ∈ (s.queues q).subDepGraph p →
      (s.insts x).srcs[i]? = some (some p) ∧ ∀ q', x ∈ (s.queues q').instList → q' = q
  waiting {q : Fin c.numQueues} {p : Fin c.numRegs} {i x : ℕ} :
    x ∈ (s.queues q).instList → (s.insts x).issued = false → (s.insts x).squashed = false →
      (s.insts x).srcs[i]? = some (some p) → (s.insts x).ready i = false →
      (i, x) ∈ (s.queues q).subDepGraph p

structure WakeInv (s : Sched c) : Prop extends Linked s where
  unwritten {q : Fin c.numQueues} {p : Fin c.numRegs} :
    (s.queues q).subDepGraph p ≠ [] → s.scoreboard p = false

theorem wakeInv_start (insts : ℕ → IqInst c) : (start insts).WakeInv where
  entry h := absurd h (not_mem_nil)
  unwritten h := absurd rfl h
  waiting h := absurd h (not_mem_nil)

variable {s t : Sched c} {p : Fin c.numRegs} {i x y : ℕ} {w : List ℕ × Sched c}
  {q : Fin c.numQueues} {occupied : ℕ → Bool}

/-- **What the queues know stays true when the scheduler comes further.** -/
theorem WakeInv.later (hs : s.WakeInv) (h : s.Later t) : t.WakeInv where
  entry {q p i x} he := by
    obtain ⟨hsrc, hq⟩ := hs.entry (h.graph q p he)
    exact ⟨by rw [(h.inst x).srcs, hsrc], fun q' hx => hq q' (h.instList q' hx)⟩
  unwritten {q p} hne := by
    have hs' := hs.unwritten (fun hnil => hne (subset_nil.1 (hnil ▸ h.graph q p)))
    cases ht : t.scoreboard p with
    | false => rfl
    | true => exact absurd (h.scoreboard ht) (by simp [hs'])
  waiting {q p i x} hx hi hq hsrc hr := by
    have hi' := mt (h.inst x).issued (Bool.eq_false_iff.1 hi)
    have hq' := mt (h.inst x).squashed (Bool.eq_false_iff.1 hq)
    have hr' := mt (h.inst x).ready (Bool.eq_false_iff.1 hr)
    rw [(h.inst x).srcs] at hsrc
    exact h.keeps (hs.waiting (h.instList q hx) (Bool.eq_false_iff.2 hi') (Bool.eq_false_iff.2 hq')
      hsrc (Bool.eq_false_iff.2 hr')) hq

/-! ### The write-back -/

section
variable (pinned : Fin c.numRegs → ℕ) (q : Fin c.numQueues)

section
variable (rs : List (Fin c.numRegs)) (s : Sched c)

theorem wakeRegs_graph (q' : Fin c.numQueues)
    (p : Fin c.numRegs) : ((s.wakeRegs false pinned q rs).queues q').subDepGraph p =
      if q' = q ∧ p ∈ rs ∧ pinned p = 1 then [] else (s.queues q').subDepGraph p := by
  induction rs generalizing s with
  | nil => simp [wakeRegs]
  | cons r rs ih =>
    unfold wakeRegs
    by_cases hr : pinned r ≠ 1
    · rw [if_pos hr, ih]
      have hne : p = r → ¬ pinned p = 1 := by
        rintro rfl
        exact hr
      congr 1
      simp only [mem_cons, eq_iff_iff]
      tauto
    · rw [if_neg hr]
      rw [ih]
      have hg := (woken_wakeEntries q ((s.queues q).subDepGraph r) s).graph q'
      by_cases hq : q' = q
      · subst hq
        by_cases hp : p = r
        · subst hp
          simp [modQueue, not_not.1 hr]
        · simp [modQueue, hp, hg]
      · simp [modQueue, hq, hg]

theorem served_wakeRegs : s.Served (s.wakeRegs false pinned q rs) := by
  induction rs generalizing s with
  | nil => exact .refl s
  | cons r rs ih =>
    unfold wakeRegs
    split
    · exact ih s
    · have hclear (u : Sched c) : u.Served (u.modQueue q fun iq =>
          { iq with subDepGraph := update iq.subDepGraph r [] }) := by
        refine ⟨fun _ => .refl _, fun q' => ?_, rfl⟩
        by_cases hq : q' = q
        · subst hq
          simp [modQueue]
        · simp [modQueue, hq]
      exact ((woken_wakeEntries q _ s).toServed.trans (hclear _)).trans (ih _)
end

theorem wakeRegs_ready {rs : List (Fin c.numRegs)} (hp : p ∈ rs) (hpin : pinned p = 1)
    (he : (i, x) ∈ (s.queues q).subDepGraph p) :
    ((s.wakeRegs false pinned q rs).insts x).ready i = true := by
  induction rs generalizing s with
  | nil => cases hp
  | cons r rs ih =>
    unfold wakeRegs
    by_cases hpr : p = r
    · subst hpr
      rw [if_neg (not_not.2 hpin)]
      refine ((served_wakeRegs pinned q rs _).inst x).ready ?_
      exact wakeEntries_ready q he s
    · have hrest : p ∈ rs := (mem_cons.1 hp).resolve_left hpr
      split
      · exact ih hrest he
      · refine ih hrest ?_
        have hg := (woken_wakeEntries q ((s.queues q).subDepGraph r) s).graph q
        simpa [modQueue, hpr, hg] using he

theorem Linked.wakeRegs (hs : s.Linked) (pinned : Fin c.numRegs → ℕ) (q : Fin c.numQueues)
    (rs : List (Fin c.numRegs)) : (s.wakeRegs false pinned q rs).Linked := by
  have hserved := served_wakeRegs pinned q rs s
  refine ⟨fun {q' p i x} he => ?_, fun {q' p i x} hx hi hsq hsrc hr => ?_⟩
  · rw [wakeRegs_graph] at he
    split_ifs at he with hcleared
    · cases he
    · obtain ⟨hsrc, hhome⟩ := hs.entry he
      refine ⟨by rw [(hserved.inst x).srcs, hsrc], fun q'' hx => hhome q'' ?_⟩
      rwa [hserved.instList] at hx
  · have hinst := hserved.inst x
    rw [hserved.instList] at hx
    rw [hinst.issued] at hi
    rw [hinst.squashed] at hsq
    rw [hinst.srcs] at hsrc
    have hr' : (s.insts x).ready i = false :=
      Bool.eq_false_iff.2 (mt hinst.ready (Bool.eq_false_iff.1 hr))
    have he := hs.waiting hx hi hsq hsrc hr'
    rw [wakeRegs_graph]
    split_ifs with hcleared
    · -- what was forgotten is ready
      obtain ⟨rfl, hp, hpin⟩ := hcleared
      exact absurd (wakeRegs_ready pinned q' hp hpin he) (by simp [hr])
    · exact he

def wakeQueues (pinned : Fin c.numRegs → ℕ) (x : ℕ) (qs : List (Fin c.numQueues)) (s : Sched c) :
    Sched c :=
  qs.foldl (fun s q => s.wakeUpDependents false pinned x q) s

theorem served_wakeQueues (x : ℕ) (qs : List (Fin c.numQueues)) (s : Sched c) :
    s.Served (s.wakeQueues pinned x qs) :=
  foldlRecOn (motive := fun t => s.Served t) qs _ (.refl s)
    fun t ht q _ => ht.trans (served_wakeRegs pinned q _ t)

theorem Linked.wakeQueues (hs : s.Linked) (pinned : Fin c.numRegs → ℕ) (x : ℕ)
    (qs : List (Fin c.numQueues)) : (s.wakeQueues pinned x qs).Linked :=
  foldlRecOn (motive := Linked) qs _ hs fun _ ht q _ => ht.wakeRegs pinned q _

theorem wakeQueues_graph (x : ℕ) (qs : List (Fin c.numQueues)) (s : Sched c) (q : Fin c.numQueues)
    (p : Fin c.numRegs) : ((s.wakeQueues pinned x qs).queues q).subDepGraph p =
      if q ∈ qs ∧ p ∈ (s.insts x).dstRegs ∧ pinned p = 1 then []
      else (s.queues q).subDepGraph p := by
  induction qs generalizing s with
  | nil => simp [Sched.wakeQueues]
  | cons q' qs ih =>
    have hcons : s.wakeQueues pinned x (q' :: qs) =
        (s.wakeRegs false pinned q' (s.insts x).dstRegs).wakeQueues pinned x qs := rfl
    rw [hcons, ih, (served_wakeRegs pinned q' _ s).dstRegs, wakeRegs_graph]
    by_cases hq : q = q'
    · subst hq
      by_cases hp : p ∈ (s.insts x).dstRegs ∧ pinned p = 1
      · simp [hp]
      · simp [hp]
    · simp [hq]

def written (x : ℕ) (s : Sched c) : Sched c :=
  { s.modInst x (fun i => { i with issueQue := none }) with
    scoreboard := setRegs (s.insts x).dstRegs true s.scoreboard }

section
variable (x : ℕ) (s : Sched c)

theorem written_inst (y : ℕ) : (s.insts y).Woken ((s.written x).insts y) := by
  have hleave : s.Woken (s.modInst x fun i => { i with issueQue := none }) :=
    woken_modInst ⟨rfl, rfl, rfl, rfl, id⟩
  exact hleave.inst y

theorem written_dstRegs : ((s.written x).insts x).dstRegs = (s.insts x).dstRegs := by
  unfold dstRegs
  rw [(written_inst x s x).dsts]

theorem writebackWakeup_eq :
    s.writebackWakeup pinned x = (s.written x).wakeQueues pinned x (finRange c.numQueues) := by
  have hdst : ((s.modInst x fun i => { i with issueQue := none }).insts x).dstRegs =
      (s.insts x).dstRegs := written_dstRegs x s
  unfold writebackWakeup
  dsimp only
  rw [hdst]
  rfl
end
end

theorem Linked.written (hs : s.Linked) (x : ℕ) : (s.written x).Linked where
  entry {q p i y} he := by
    rw [(written_inst x s y).srcs]
    exact hs.entry he
  waiting {q p i y} hy hi hsq hsrc hr := by
    have hw := written_inst x s y
    rw [hw.issued] at hi
    rw [hw.squashed] at hsq
    rw [hw.srcs] at hsrc
    exact hs.waiting hy hi hsq hsrc (Bool.eq_false_iff.2 (mt hw.ready (Bool.eq_false_iff.1 hr)))

/-- **A write-back keeps what the queues know**: they forget only who is ready now. -/
theorem WakeInv.writebackWakeup (hs : s.WakeInv) {pinned : Fin c.numRegs → ℕ}
    (hpin : ∀ p ∈ (s.insts x).dstRegs, pinned p = 1) : (s.writebackWakeup pinned x).WakeInv := by
  rw [writebackWakeup_eq]
  refine { (hs.toLinked.written x).wakeQueues pinned x _ with unwritten := fun {q p} hne => ?_ }
  rw [wakeQueues_graph, written_dstRegs] at hne
  split_ifs at hne with hdst
  · exact absurd rfl hne
  · have hp : p ∉ (s.insts x).dstRegs := fun hp => hdst ⟨mem_finRange q, hp, hpin p hp⟩
    rw [(served_wakeQueues pinned x _ _).scoreboard]
    show setRegs (s.insts x).dstRegs true s.scoreboard p = false
    rw [setRegs, if_neg hp]
    exact hs.unwritten hne

/-! ### The search of `loadCancel` -/

def potential (w : List ℕ × Sched c) : ℕ :=
  w.2.wokenEntries + w.1.length

structure Searched (w w' : List ℕ × Sched c) : Prop where
  queues : w'.2.queues = w.2.queues
  wakeInv : w.2.WakeInv → w'.2.WakeInv
  potential : potential w' ≤ potential w

theorem Searched.refl (w : List ℕ × Sched c) : Searched w w := ⟨rfl, id, le_rfl⟩

theorem Searched.trans {w' w'' : List ℕ × Sched c} (h : Searched w w') (h' : Searched w' w'') :
    Searched w w'' :=
  ⟨h'.queues.trans h.queues, fun hw => h'.wakeInv (h.wakeInv hw), h'.potential.trans h.potential⟩

theorem WakeInv.clear (hs : s.WakeInv) (he : (i, x) ∈ (s.queues q).subDepGraph p) :
    (s.modInst x fun y => y.cancel.clearSrcRegReady i).WakeInv := by
  -- the instruction keeps its sources and its marks
  have hinst (y : ℕ) : ((s.modInst x fun y => y.cancel.clearSrcRegReady i).insts y).srcs =
        (s.insts y).srcs ∧
      ((s.modInst x fun y => y.cancel.clearSrcRegReady i).insts y).issued = (s.insts y).issued ∧
      ((s.modInst x fun y => y.cancel.clearSrcRegReady i).insts y).squashed =
        (s.insts y).squashed := by
    by_cases hy : y = x
    · subst hy
      simp [modInst, clearSrcRegReady, cancel]
    · simp [modInst, hy]
  have hready {y j : ℕ} (hne : ¬ (j = i ∧ y = x)) :
      ((s.modInst x fun y => y.cancel.clearSrcRegReady i).insts y).ready j =
        (s.insts y).ready j := by
    by_cases hy : y = x
    · subst hy
      have hj : j ≠ i := fun hj => hne ⟨hj, rfl⟩
      simp [modInst, clearSrcRegReady, cancel, hj]
    · simp [modInst, hy]
  refine { entry := fun {q' p' j y} he' => ?_, waiting := fun {q' p' j y} hy hi hsq hsrc hr => ?_,
           unwritten := fun {q' p'} hne => hs.unwritten hne }
  · rw [(hinst y).1]
    exact hs.entry he'
  · rw [(hinst y).1] at hsrc
    rw [(hinst y).2.1] at hi
    rw [(hinst y).2.2] at hsq
    by_cases hne : j = i ∧ y = x
    · obtain ⟨rfl, rfl⟩ := hne
      obtain ⟨hsrc', hhome⟩ := hs.entry he
      obtain rfl := hhome q' hy
      obtain rfl : p' = p := by
        rw [hsrc] at hsrc'
        exact Option.some.inj (Option.some.inj hsrc')
      exact he
    · rw [hready hne] at hr
      exact hs.waiting hy hi hsq hsrc hr

theorem wokenEntries_clear_lt (he : (i, x) ∈ (s.queues q).subDepGraph p)
    (hw : ((s.insts x).ready i && !(s.insts x).issued) = true) :
    (s.modInst x fun y => y.cancel.clearSrcRegReady i).wokenEntries < s.wokenEntries := by
  have hle (e : ℕ × ℕ) :
      (((s.modInst x fun y => y.cancel.clearSrcRegReady i).insts e.2).ready e.1 &&
        !((s.modInst x fun y => y.cancel.clearSrcRegReady i).insts e.2).issued) = true →
      ((s.insts e.2).ready e.1 && !(s.insts e.2).issued) = true := by
    by_cases hy : e.2 = x
    · rw [hy]
      by_cases hj : e.1 = i
      · simp [modInst, clearSrcRegReady, hj]
      · simp [modInst, clearSrcRegReady, cancel, hj]
    · simp [modInst, hy]
  have hcount (q' : Fin c.numQueues) (p' : Fin c.numRegs) :
      ((s.queues q').subDepGraph p').countP (fun e =>
        ((s.modInst x fun y => y.cancel.clearSrcRegReady i).insts e.2).ready e.1 &&
          !((s.modInst x fun y => y.cancel.clearSrcRegReady i).insts e.2).issued) ≤
      ((s.queues q').subDepGraph p').countP fun e =>
        (s.insts e.2).ready e.1 && !(s.insts e.2).issued :=
    countP_mono_left fun e _ => hle e
  refine Finset.sum_lt_sum (fun q' _ => Finset.sum_le_sum fun p' _ => hcount q' p')
    ⟨q, Finset.mem_univ q, Finset.sum_lt_sum (fun p' _ => hcount q p') ⟨p, Finset.mem_univ p, ?_⟩⟩
  exact countP_lt_countP hle he hw (by simp [modInst, clearSrcRegReady])

theorem searched_cancelEntry {e : ℕ × ℕ} (he : e ∈ (w.2.queues q).subDepGraph p) :
    Searched w (cancelEntry e w) := by
  unfold cancelEntry
  dsimp only
  split
  next hwoken =>
    refine ⟨rfl, fun hw => hw.clear he, ?_⟩
    have hlt := wokenEntries_clear_lt he hwoken
    simp only [potential, length_cons]
    omega
  next => exact .refl w

theorem searched_early (b : Fin c.numRegs → Bool) :
    Searched w (w.1, { w.2 with earlyScoreboard := b }) :=
  ⟨rfl, fun hw => hw.later (woken_early b w.2).later, le_rfl⟩

theorem searched_cancelReg (w : List ℕ × Sched c) (p : Fin c.numRegs) :
    Searched w (cancelReg w p) := by
  refine foldlRecOn (motive := fun w' => Searched w w') _ _ (searched_early _)
    fun w' hw q _ => ?_
  refine hw.trans (foldlRecOn (motive := fun w'' => Searched w' w'') _ _ (.refl w')
    fun w'' hw' e he => hw'.trans (searched_cancelEntry (q := q) (p := p) ?_))
  rwa [hw'.queues]

theorem searched_cancelTop (top : ℕ) (stack : List ℕ) (s : Sched c) :
    Searched (stack, s) (cancelTop top stack s) := by
  refine foldlRecOn (motive := fun w => Searched (stack, s) w) _ _ ?_
    fun w hw p _ => hw.trans (searched_cancelReg w p)
  exact ⟨rfl, fun hs => hs.later (woken_specWakeEvents _ s).later, le_rfl⟩

/-- **The search ends**: with as many steps as it has potential, nothing is left to look at. -/
theorem cancelSearch_done {n : ℕ} (hn : potential w ≤ n) : (cancelSearch n w).1 = [] := by
  induction n generalizing w with
  | zero =>
    have hlen : w.1.length = 0 := by
      unfold potential at hn
      omega
    exact length_eq_zero_iff.1 hlen
  | succ n ih =>
    obtain ⟨stack, s⟩ := w
    cases stack with
    | nil => rfl
    | cons top stack =>
      refine ih ((searched_cancelTop top stack s).potential.trans ?_)
      simp only [potential, length_cons] at hn ⊢
      omega

theorem WakeInv.cancelSearch (hw : w.2.WakeInv) (n : ℕ) : (cancelSearch n w).2.WakeInv := by
  induction n generalizing w with
  | zero => exact hw
  | succ n ih =>
    obtain ⟨stack, s⟩ := w
    cases stack with
    | nil => exact hw
    | cons top stack => exact ih ((searched_cancelTop top stack s).wakeInv hw)

/-- The search of `loadCancel` ends: no more entries are searched than have been woken. -/
theorem loadCancel_done (x : ℕ) (s : Sched c) :
    (cancelSearch (s.wokenEntries + 1) ([x], s)).1 = [] := cancelSearch_done le_rfl

theorem WakeInv.loadCancel (hs : s.WakeInv) (x : ℕ) : (s.loadCancel x).WakeInv := by
  have hsearch : (Sched.cancelSearch (s.wokenEntries + 1) ([x], s)).2.WakeInv :=
    WakeInv.cancelSearch (w := ([x], s)) hs _
  exact hsearch.later
    (Woken.foldl (fun t q => woken_dropInflight (·.canceled) q t) _ _).later

/-! ### Insertion -/

/-- The state while the sources of `x` that are in `todo` are still to be looked at. -/
structure Inserting (q : Fin c.numQueues) (x : ℕ) (todo : List (ℕ × Option (Fin c.numRegs)))
    (s : Sched c) : Prop where
  home (q' : Fin c.numQueues) : x ∈ (s.queues q').instList → q' = q
  places {i : ℕ} {src : Option (Fin c.numRegs)} : (i, src) ∈ todo →
    (s.insts x).srcs[i]? = some src
  entry {q' : Fin c.numQueues} {p : Fin c.numRegs} {i y : ℕ} :
    (i, y) ∈ (s.queues q').subDepGraph p →
      (s.insts y).srcs[i]? = some (some p) ∧ ∀ q'', y ∈ (s.queues q'').instList → q'' = q'
  unwritten {q' : Fin c.numQueues} {p : Fin c.numRegs} :
    (s.queues q').subDepGraph p ≠ [] → s.scoreboard p = false
  waiting {q' : Fin c.numQueues} {p : Fin c.numRegs} {i y : ℕ} :
    (y = x → ∀ src, (i, src) ∉ todo) →
      y ∈ (s.queues q').instList → (s.insts y).issued = false → (s.insts y).squashed = false →
      (s.insts y).srcs[i]? = some (some p) → (s.insts y).ready i = false →
      (i, y) ∈ (s.queues q').subDepGraph p

theorem Inserting.wakeInv (h : Inserting q x [] s) : s.WakeInv :=
  { entry := h.entry
    unwritten := h.unwritten
    waiting := h.waiting fun _ _ => not_mem_nil }

section
variable {q : Fin c.numQueues} {x i : ℕ} {src : Option (Fin c.numRegs)} {p : Fin c.numRegs}
  {todo : List (ℕ × Option (Fin c.numRegs))} {s t : Sched c}

theorem Inserting.woken (h : Inserting q x todo s) (hw : s.Woken t) : Inserting q x todo t where
  home q' hx := h.home q' (by rwa [hw.instList] at hx)
  places he := by rw [(hw.inst x).srcs]; exact h.places he
  entry {q' p i y} he := by
    rw [hw.graph] at he
    rw [(hw.inst y).srcs]
    exact ⟨(h.entry he).1, fun q'' hy => (h.entry he).2 q'' (by rwa [hw.instList] at hy)⟩
  unwritten hne := by
    rw [hw.graph] at hne
    rw [hw.scoreboard]
    exact h.unwritten hne
  waiting {q' p i y} hnew hy hi hsq hsrc hr := by
    rw [hw.graph]
    rw [hw.instList] at hy
    rw [(hw.inst y).issued] at hi
    rw [(hw.inst y).squashed] at hsq
    rw [(hw.inst y).srcs] at hsrc
    exact h.waiting hnew hy hi hsq hsrc
      (Bool.eq_false_iff.2 (mt (hw.inst y).ready (Bool.eq_false_iff.1 hr)))

theorem Inserting.skip (h : Inserting q x ((i, src) :: todo) s)
    (hdone : src = none ∨ (s.insts x).ready i = true) : Inserting q x todo s where
  home := h.home
  places he := h.places (mem_cons_of_mem _ he)
  entry := h.entry
  unwritten := h.unwritten
  waiting {q' p j y} hnew hy hi hsq hsrc hr := by
    refine h.waiting (fun hyx src' hmem => ?_) hy hi hsq hsrc hr
    rcases mem_cons.1 hmem with heq | hmem
    · cases heq
      subst hyx
      rw [h.places mem_cons_self] at hsrc
      rcases hdone with rfl | hready
      · cases hsrc
      · rw [hready] at hr
        cases hr
    · exact hnew hyx src' hmem

theorem Inserting.link (h : Inserting q x ((i, some p) :: todo) s) (hp : s.scoreboard p = false) :
    Inserting q x todo (s.modQueue q fun iq => { iq with
      subDepGraph := update iq.subDepGraph p (iq.subDepGraph p ++ [(i, x)]) }) := by
  generalize ht : (s.modQueue q fun iq => { iq with
    subDepGraph := update iq.subDepGraph p (iq.subDepGraph p ++ [(i, x)]) }) = t
  have hlist (q' : Fin c.numQueues) : (t.queues q').instList = (s.queues q').instList := by
    rw [← ht]
    by_cases hq : q' = q
    · subst hq
      simp [modQueue]
    · simp [modQueue, hq]
  -- who waits: as before, and the new entry
  have hgraph (q' : Fin c.numQueues) (p' : Fin c.numRegs) (e : ℕ × ℕ) :
      e ∈ (t.queues q').subDepGraph p' ↔
        e ∈ (s.queues q').subDepGraph p' ∨ (q' = q ∧ p' = p ∧ e = (i, x)) := by
    rw [← ht]
    by_cases hq : q' = q
    · subst hq
      by_cases hp' : p' = p
      · subst hp'
        simp [modQueue]
      · simp [modQueue, hp']
    · simp [modQueue, hq]
  have hinsts : t.insts = s.insts := by rw [← ht]; rfl
  have hboard : t.scoreboard = s.scoreboard := by rw [← ht]; rfl
  refine ⟨fun q' hx => ?_, fun he => ?_, fun {q' p' j y} he => ?_, fun {q' p'} hne => ?_,
    fun {q' p' j y} hnew hy hi hsq hsrc hr => ?_⟩
  · rw [hlist] at hx
    exact h.home q' hx
  · rw [hinsts]
    exact h.places (mem_cons_of_mem _ he)
  · simp only [hinsts, hlist]
    rcases (hgraph q' p' (j, y)).1 he with he | ⟨rfl, rfl, heq⟩
    · exact h.entry he
    · cases heq
      exact ⟨h.places mem_cons_self, h.home⟩
  · obtain ⟨e, he⟩ := exists_mem_of_ne_nil _ hne
    rw [hboard]
    rcases (hgraph q' p' e).1 he with he | ⟨-, rfl, -⟩
    · exact h.unwritten (ne_nil_of_mem he)
    · exact hp
  · rw [hinsts] at hi hsq hsrc hr
    rw [hlist] at hy
    rw [hgraph]
    by_cases hji : j = i ∧ y = x
    · obtain ⟨rfl, rfl⟩ := hji
      obtain rfl := h.home q' hy
      rw [h.places mem_cons_self] at hsrc
      exact .inr ⟨rfl, (Option.some.inj (Option.some.inj hsrc)).symm, rfl⟩
    · refine .inl (h.waiting (fun hyx src' hmem => ?_) hy hi hsq hsrc hr)
      rcases mem_cons.1 hmem with heq | hmem
      · exact hji ⟨(Prod.mk.inj heq).1, hyx⟩
      · exact hnew hyx src' hmem

theorem Inserting.insertSrcs (h : Inserting q x todo s) :
    Inserting q x [] (s.insertSrcs q x todo).2 := by
  induction todo generalizing s with
  | nil => exact h
  | cons e todo ih =>
    obtain ⟨i, src⟩ := e
    have hmark : s.Woken (s.modInst x (·.markSrcRegReady i)) :=
      woken_modInst (woken_markSrcRegReady i _)
    unfold Sched.insertSrcs
    cases src with
    | none => exact ih (h.skip (.inl rfl))
    | some p =>
      dsimp only
      split
      next hready => exact ih (h.skip (.inr hready))
      next =>
        split
        next =>
          refine ih ((h.woken hmark).skip (.inr ?_))
          simp [modInst, markSrcRegReady]
        next hp =>
          refine ih (Inserting.link ?_ ?_)
          · split
            · exact h.woken hmark
            · exact h
          · split
            · exact Bool.eq_false_iff.2 hp
            · exact Bool.eq_false_iff.2 hp
end

theorem mem_srcPlaces {src : Option (Fin c.numRegs)} :
    (i, src) ∈ s.srcPlaces x ↔ (s.insts x).srcs[i]? = some src := by
  constructor
  · intro h
    obtain ⟨k, hk⟩ := mem_iff_getElem?.1 h
    obtain ⟨h1, h2⟩ := getElem?_zip_eq_some.1 hk
    obtain ⟨hlt, rfl⟩ := List.getElem?_eq_some_iff.1 h1
    rwa [getElem_range]
  · intro h
    obtain ⟨hlt, hsrc⟩ := List.getElem?_eq_some_iff.1 h
    refine List.mem_iff_getElem?.2 ⟨i, List.getElem?_zip_eq_some.2 ⟨?_, h⟩⟩
    rw [getElem?_range hlt]

section
variable (hs : s.WakeInv) (hx : s.Absent x)
include hs hx

theorem WakeInv.modInst (f : IqInst c → IqInst c) : (s.modInst x f).WakeInv where
  entry {q p i y} he := by
    have hne : y ≠ x := by
      rintro rfl
      exact (hx q).2 p i he
    simpa [Sched.modInst, hne] using hs.entry he
  unwritten hne := hs.unwritten hne
  waiting {q p i y} hy hi hsq hsrc hr := by
    have hne : y ≠ x := by
      rintro rfl
      exact (hx q).1 hy
    simp only [Sched.modInst, update_of_ne hne] at hi hsq hsrc hr
    exact hs.waiting hy hi hsq hsrc hr

theorem inserting_start (q : Fin c.numQueues) :
    Inserting q x (s.srcPlaces x) (s.modQueue q fun iq =>
      { iq with instList := iq.instList ++ [x] }) := by
  generalize ht : (s.modQueue q fun iq => { iq with instList := iq.instList ++ [x] }) = t
  have hlist {q' : Fin c.numQueues} {y : ℕ} :
      y ∈ (t.queues q').instList → y ∈ (s.queues q').instList ∨ (q' = q ∧ y = x) := by
    rw [← ht]
    by_cases hq : q' = q
    · subst hq
      simp [modQueue]
    · simp [modQueue, hq]
  have hgraph (q' : Fin c.numQueues) : (t.queues q').subDepGraph = (s.queues q').subDepGraph := by
    rw [← ht]
    by_cases hq : q' = q
    · subst hq
      simp [modQueue]
    · simp [modQueue, hq]
  have hinsts : t.insts = s.insts := by rw [← ht]; rfl
  have hboard : t.scoreboard = s.scoreboard := by rw [← ht]; rfl
  refine ⟨fun q' hxq => ?_, fun he => ?_, fun {q' p' j y} he => ?_, fun {q' p'} hne => ?_,
    fun {q' p' j y} hnew hy hi hsq hsrc hr => ?_⟩
  · rcases hlist hxq with hxq | ⟨rfl, -⟩
    · exact absurd hxq (hx q').1
    · rfl
  · rw [hinsts]
    exact mem_srcPlaces.1 he
  · rw [hgraph] at he
    rw [hinsts]
    refine ⟨(hs.entry he).1, fun q'' hy => ?_⟩
    rcases hlist hy with hy | ⟨-, rfl⟩
    · exact (hs.entry he).2 q'' hy
    · exact absurd he ((hx q').2 p' j)
  · rw [hgraph] at hne
    rw [hboard]
    exact hs.unwritten hne
  · rw [hinsts] at hi hsq hsrc hr
    rw [hgraph]
    rcases hlist hy with hy | ⟨-, rfl⟩
    · exact hs.waiting hy hi hsq hsrc hr
    · exact absurd (mem_srcPlaces.2 hsrc) (hnew rfl _)

/-- **A new instruction waits where its queue knows it.** -/
theorem WakeInv.insert (h : s.insert q x = .ok t) : t.WakeInv := by
  unfold Sched.insert at h
  dsimp only at h
  split at h
  next => cases h
  next =>
    cases h
    have hnew := hs.modInst hx fun i => { i with issueQue := some q }
    have hins := (inserting_start hnew (fun q' => hx q') q).insertSrcs.wakeInv
    split
    · exact hins
    · exact hins.later (woken_addIfReady q x _).later
end

theorem Absent.woken (hy : s.Absent y) (h : s.Woken t) : t.Absent y := by
  intro q
  rw [h.instList, h.graph]
  exact hy q

theorem Absent.insertSrcs (hy : s.Absent y) (hne : y ≠ x) (q : Fin c.numQueues)
    (todo : List (ℕ × Option (Fin c.numRegs))) : (s.insertSrcs q x todo).2.Absent y := by
  induction todo generalizing s with
  | nil => exact hy
  | cons e todo ih =>
    obtain ⟨i, src⟩ := e
    have hmark : s.Woken (s.modInst x (·.markSrcRegReady i)) :=
      woken_modInst (woken_markSrcRegReady i _)
    -- an entry of another instruction
    have hlink {u : Sched c} (hu : u.Absent y) (p : Fin c.numRegs) :
        (u.modQueue q fun iq => { iq with
          subDepGraph := update iq.subDepGraph p
            (iq.subDepGraph p ++ [(i, x)]) }).Absent y := by
      intro q'
      by_cases hq : q' = q
      · subst hq
        refine ⟨by simpa [modQueue] using (hu q').1, fun p' j => ?_⟩
        by_cases hp : p' = p
        · subst hp
          simpa [modQueue, hne] using (hu q').2 p' j
        · simpa [modQueue, hp] using (hu q').2 p' j
      · simpa [modQueue, hq] using hu q'
    unfold Sched.insertSrcs
    cases src with
    | none => exact ih hy
    | some p =>
      dsimp only
      split
      · exact ih hy
      · split
        · exact ih (hy.woken hmark)
        · refine ih (hlink ?_ p)
          split
          · exact hy.woken hmark
          · exact hy

theorem Absent.insert (hy : s.Absent y) (hne : y ≠ x) (h : s.insert q x = .ok t) : t.Absent y := by
  have hstart : ((s.modInst x fun i => { i with issueQue := some q }).modQueue q fun iq =>
      { iq with instList := iq.instList ++ [x] }).Absent y := by
    intro q'
    by_cases hq : q' = q
    · subst hq
      simpa [modQueue, modInst, hne] using hy q'
    · simpa [modQueue, modInst, hq] using hy q'
  unfold Sched.insert at h
  dsimp only at h
  split at h
  next => cases h
  next =>
    cases h
    have hins := hstart.insertSrcs hne q
      ((s.modInst x fun i => { i with issueQue := some q }).srcPlaces x)
    split
    · exact hins
    · exact hins.woken (woken_addIfReady q x _)

section
variable (hs : s.WakeInv)
include hs

theorem WakeInv.schedule {std : ℕ} (hx : s.Absent x) (hstd : s.Absent std)
    (hne : x ≠ std) {dataQ : Fin c.numQueues} (h : s.schedule q x dataQ std = .ok t) :
    t.WakeInv := by
  unfold Sched.schedule at h
  split at h
  · exact hs.insert hx h
  · split at h
    · cases h
    · cases hdata : (s.createStoreDataUop x std).insert dataQ std with
      | error e =>
        rw [hdata] at h
        cases h
      | ok u =>
        rw [hdata] at h
        have hu : u.WakeInv := (hs.modInst hstd _).insert (fun q => hstd q) hdata
        have hxu : u.Absent x := Absent.insert (s := s.createStoreDataUop x std) hx hne hdata
        exact (hu.modInst hxu _).insert (fun q => hxu q) h

theorem WakeInv.checkScoreboard {b : Bool} (h : s.checkScoreboard x = .ok (b, t)) : t.WakeInv := by
  unfold Sched.checkScoreboard at h
  cases hp : ((s.insts x).srcs.filterMap id).find? fun p => !s.bypassScoreboard p with
  | none =>
    simp only [hp, Except.ok.injEq, Prod.mk.injEq] at h
    rw [← h.2]
    exact hs
  | some p =>
    cases hd : s.getInstByDstReg p with
    | none => simp only [hp, hd, reduceCtorEq] at h
    | some d =>
      simp only [hp, hd] at h
      split_ifs at h
      cases h
      exact hs.loadCancel d

theorem WakeInv.issueOne {x : Option ℕ} (h : issueOne occupied q s x = .ok t) : t.WakeInv := by
  cases x with
  | none =>
    cases h
    exact hs
  | some x =>
    unfold Sched.issueOne at h
    dsimp only at h
    split at h
    · cases h
      have hsched : s.Woken (s.modInst x fun i => { i with scheduled := false }) :=
        woken_modInst ⟨rfl, rfl, rfl, rfl, id⟩
      exact hs.later (hsched.trans (woken_readyQPush q x _)).later
    · cases hcheck : s.checkScoreboard x with
      | error e => simp [hcheck] at h
      | ok r =>
        obtain ⟨b, u⟩ := r
        have hu := hs.checkScoreboard hcheck
        cases b with
        | false =>
          simp only [hcheck] at h
          cases h
          exact hu
        | true =>
          simp only [hcheck] at h
          split at h
          · cases h
          · cases h
            exact hu.later (later_modInst ⟨rfl, id, fun _ => rfl, id⟩)

theorem WakeInv.issueNext {k : ℕ} (h : issueNext occupied q s k = .ok t) : t.WakeInv := by
  unfold Sched.issueNext at h
  dsimp only at h
  split at h
  · cases h
  · exact (hs.later (woken_modQueue rfl rfl).later).issueOne h

theorem WakeInv.issueToFu (h : s.issueToFu occupied q = .ok t) : t.WakeInv :=
  Loop.foldlM_inv WakeInv (fun _ _ _ hu hv => hu.issueNext hv) hs h

/-- **Every event keeps what the queues know of the waiting instructions.** -/
theorem WakeInv.step {e : SchedEvent c} (hpos : s.Possible e)
    (h : s.step e = .ok t) : t.WakeInv := by
  cases e with
  | addProducer x =>
    cases h
    exact hs.later (later_addProducer x s)
  | insert q x dataQ std => exact hs.schedule hpos.1 hpos.2.1 hpos.2.2 h
  | insertNonSpec q x =>
    cases h
    exact hs.modInst hpos _
  | markMemDepDone x =>
    unfold Sched.step markMemDepDone at h
    cases hq : (s.insts x).issueQue with
    | none => simp only [hq, reduceCtorEq] at h
    | some q =>
      simp only [hq] at h
      split_ifs at h
      cases h
      have hmark : s.Woken (s.modInst x fun i => { i with memDepSolved := true }) :=
        woken_modInst ⟨rfl, rfl, rfl, rfl, id⟩
      exact hs.later (hmark.trans (woken_addIfReady q x _)).later
  | selectInst q ports failed =>
    cases h
    exact hs.later (woken_selectInst q ports failed s).later
  | tick q pinned => exact hs.later (woken_tick h).later
  | issueToFu q occupied => exact hs.issueToFu h
  | specWakeup x q pinned =>
    cases h
    exact hs.later ((woken_wakeUpDependents pinned x q s).trans (woken_specWakeEvents _ _)).later
  | loadPipeWakeup x pinned => exact hs.later (woken_specWakeUpFromLoadPipe h).later
  | loadCancel x =>
    cases h
    exact hs.loadCancel x
  | bypassWriteback x =>
    cases h
    exact hs.later (Woken.later ⟨⟨fun _ => .refl _, fun _ => rfl, rfl⟩, fun _ => rfl⟩)
  | writeback x pinned =>
    cases h
    exact hs.writebackWakeup hpos
  | setSquashed x =>
    cases h
    exact hs.later (later_modInst ⟨rfl, id, id, fun _ => rfl⟩)
  | squash seqNum =>
    cases h
    exact hs.later (Later.foldl (later_squashQueue seqNum) _ s)
  | commit q seqNum => exact hs.later (later_doCommit h)
end
end Sched

theorem SchedReachable.wakeInv {s : Sched c} (h : SchedReachable s) : s.WakeInv := by
  induction h with
  | start insts => exact Sched.wakeInv_start insts
  | step _ hpos hstep ih => exact ih.step hpos hstep

namespace Sched
structure Reads (s : Sched c) (q : Fin c.numQueues) (x i : ℕ) (p : Fin c.numRegs) : Prop where
  queued : x ∈ (s.queues q).instList
  unissued : (s.insts x).issued = false
  unsquashed : (s.insts x).squashed = false
  src : (s.insts x).srcs[i]? = some (some p)

variable {s : Sched c} {q : Fin c.numQueues} {x i : ℕ} {p : Fin c.numRegs}

theorem Reads.writebackWakeup (h : s.Reads q x i p) (pinned : Fin c.numRegs → ℕ) (producer : ℕ) :
    (s.writebackWakeup pinned producer).Reads q x i p := by
  rw [writebackWakeup_eq]
  have hserved := served_wakeQueues pinned producer (finRange c.numQueues) (s.written producer)
  have hinst := (written_inst producer s x).trans (hserved.inst x)
  refine ⟨?_, hinst.issued.trans h.unissued, hinst.squashed.trans h.unsquashed, ?_⟩
  · rw [hserved.instList]
    exact h.queued
  · rw [hinst.srcs]
    exact h.src

theorem writebackWakeup_scoreboard (pinned : Fin c.numRegs → ℕ) {producer : ℕ}
    (hp : p ∈ (s.insts producer).dstRegs) :
    (s.writebackWakeup pinned producer).scoreboard p = true := by
  rw [writebackWakeup_eq, (served_wakeQueues pinned producer _ _).scoreboard]
  exact if_pos hp

theorem WakeInv.reads (hs : s.WakeInv) (h : s.Reads q x i p)
    (hready : (s.insts x).ready i = false) :
    (i, x) ∈ (s.queues q).subDepGraph p ∧ s.scoreboard p = false := by
  have he := hs.waiting h.queued h.unissued h.unsquashed h.src hready
  exact ⟨he, hs.unwritten (ne_nil_of_mem he)⟩
end Sched

/-- **No wake-up is lost.**  In every state of the scheduler, an instruction whose source is not
ready is known to its queue under the register, which is not written; and the write-back of the
register makes the source of every reader ready. -/
theorem no_lost_wakeups {s : Sched c} (hs : SchedReachable s) :
    (∀ q x i p, s.Reads q x i p → (s.insts x).ready i = false →
      (i, x) ∈ (s.queues q).subDepGraph p ∧ s.scoreboard p = false) ∧
    ∀ pinned producer, (∀ p ∈ (s.insts producer).dstRegs, pinned p = 1) →
      ∀ q x i p, p ∈ (s.insts producer).dstRegs → s.Reads q x i p →
        ((s.writebackWakeup pinned producer).insts x).ready i = true := by
  refine ⟨fun q x i p hr hready => hs.wakeInv.reads hr hready,
    fun pinned producer hpin q x i p hp hr => ?_⟩
  -- otherwise the register would not be written after its write-back
  by_contra hready
  have hinv := hs.wakeInv.writebackWakeup hpin
  have hboard := (hinv.reads (hr.writebackWakeup pinned producer) (Bool.eq_false_iff.2 hready)).2
  rw [Sched.writebackWakeup_scoreboard pinned hp] at hboard
  cases hboard

def producerAndReaders (x : ℕ) : IqInst oneQueue :=
  if x = 0 then plainIqInst 0 [] [some theReg] else plainIqInst x [some theReg] []

/-- A reader comes to the queue before its producer writes back. -/
theorem reader_woken : ∃ s : Sched oneQueue, SchedReachable s ∧ s.Reads theQueue 1 0 theReg ∧
    (s.insts 1).ready 0 = false ∧ (0, 1) ∈ (s.queues theQueue).subDepGraph theReg ∧
    ((s.writebackWakeup (fun _ => 1) 0).insts 1).ready 0 = true := by
  have hproducer : SchedReachable ((Sched.start producerAndReaders).addProducer 0) :=
    .step (e := .addProducer 0) (.start _) trivial rfl
  have habsent (x : ℕ) : ((Sched.start producerAndReaders).addProducer 0).Absent x :=
    fun _ => ⟨not_mem_nil, fun _ _ => not_mem_nil⟩
  have hreach := hproducer.step (e := .insert theQueue 1 theQueue 2)
    ⟨habsent 1, habsent 2, by decide⟩ rfl
  have hwoken := no_lost_wakeups hreach
  refine ⟨_, hreach, ⟨mem_singleton.2 rfl, rfl, rfl, rfl⟩, rfl, ?_, ?_⟩
  · exact (hwoken.1 theQueue 1 0 theReg ⟨mem_singleton.2 rfl, rfl, rfl, rfl⟩ rfl).1
  · exact hwoken.2 (fun _ => 1) 0 (fun _ _ => rfl) theQueue 1 0 theReg (mem_singleton.2 rfl)
      ⟨mem_singleton.2 rfl, rfl, rfl, rfl⟩
end Gem5
