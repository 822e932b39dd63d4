import Gem5.Mmu.Agree

/-!
# The answers of the page table walkers

Requests that start a walk or join one are answered when the walk ends.  The account of a walker
says where each request is: it has been answered, it waits, or it is lost.
-/

namespace Gem5
open List WalkAction WalkerState

def WalkAction.finishes (id : ℕ) : WalkAction → Bool
  | .finish j _ => j == id
  | _ => false

theorem count_answered (id j : ℕ) (fault : Option MMUFault) (ids : List ℕ) (log : List WalkAction)
    (n : ℕ) (h : ids.count id = log.countP (finishes id) + n) : (j :: ids).count id =
      (finish j fault :: log).countP (finishes id) + n := by
  by_cases hid : j = id
  · subst hid
    simp only [count_cons_self, countP_cons, finishes, beq_self_eq_true, if_true]
    omega
  · have hne : (j == id) = false := beq_false_of_ne hid
    simp only [count_cons_of_ne hid, countP_cons, finishes, hne]
    simpa using h

/-! ### Steps of a walk -/

namespace Walk
variable {cfg : MmuConfig} {line : PteLine} {pmp fault : Option MMUFault} {ops : List TlbOp}
  {w w' : Walk}

theorem setupWalk_ok {args : StartArgs} (h : w.setupWalk args = .ok w') :
    w'.read.isSome = true ∧ w'.functional = w.functional ∧ w'.nextline = false ∧
      w'.finishDefaultTranslate = false ∧ w'.entry.fromForwardPreReq = args.fromForwardPreReq ∧
      w'.entry.fromBackPreReq = args.fromBackPreReq := by
  unfold setupWalk at h
  simp only at h
  split_ifs at h
  · cases h
    exact ⟨rfl, rfl, rfl, rfl, rfl, rfl⟩
  · cases h
    exact ⟨rfl, rfl, rfl, rfl, rfl, rfl⟩

inductive StepKind (w w' : Walk) (fault : Option MMUFault) : Prop
  | fault : fault ≠ none → w'.read = none → w'.nextline = false → StepKind w w' fault
  | pointer : fault = none → w'.read.isSome = true → w'.nextline = false →
      w'.finishDefaultTranslate = w.finishDefaultTranslate → StepKind w w' fault
  | leaf : fault = none → w'.read = none → w'.nextline = false →
      w'.finishDefaultTranslate = true → StepKind w w' fault
  | leafNextline : fault = none → w'.read.isSome = true → w'.nextline = true →
      w'.finishDefaultTranslate = true → w.entry.fromForwardPreReq = false →
      w.entry.fromBackPreReq = false → StepKind w w' fault

structure SameOrigin (w w' : Walk) : Prop where
  functional : w'.functional = w.functional
  fromForwardPreReq : w'.entry.fromForwardPreReq = w.entry.fromForwardPreReq
  fromBackPreReq : w'.entry.fromBackPreReq = w.entry.fromBackPreReq

theorem stepWalk_kind (hf : w.functional = false) (hn : w.nextline = false)
    (h : w.stepWalk cfg line pmp = .ok (fault, ops, w')) :
    w.StepKind w' fault ∧ w.SameOrigin w' := by
  cases stepWalk_result h with
  | fault f hn => exact ⟨.fault (Option.some_ne_none _) rfl hn, rfl, rfl, rfl⟩
  | denied hn' => rw [hn] at hn'; cases hn'
  | nextline base e hn' hlevel he => rw [hn] at hn'; cases hn'
  | pointer level pte shift next hn hlevel => exact ⟨.pointer rfl rfl hn rfl, rfl, rfl, rfl⟩
  | functional pte hn hf' => rw [hf] at hf'; cases hf'
  | leaf pte hn hf => exact ⟨.leaf rfl rfl hn rfl, rfl, rfl, rfl⟩
  | leafNextline pte vaddr next hn hf hforward hback =>
    exact ⟨.leafNextline rfl rfl rfl rfl hforward hback, rfl, rfl, rfl⟩

theorem stepWalk_nextline (hn : w.nextline = true)
    (h : w.stepWalk cfg line pmp = .ok (fault, ops, w')) : w'.read = none ∧ w'.nextline = true := by
  have hfalse (hn' : w.nextline = false) : False := by
    rw [hn] at hn'
    cases hn'
  cases stepWalk_result h with
  | fault f hn' => exact (hfalse hn').elim
  | denied hn => exact ⟨rfl, hn⟩
  | nextline base e hn hlevel he => exact ⟨rfl, hn⟩
  | pointer level pte shift next hn' hlevel => exact (hfalse hn').elim
  | functional pte hn' hf => exact (hfalse hn').elim
  | leaf pte hn' hf => exact (hfalse hn').elim
  | leafNextline pte vaddr next hn' hf hforward hback => exact (hfalse hn').elim
end Walk

/-! ### Phases -/

namespace WalkerState
variable {ws : WalkerState}

def Waits (ws : WalkerState) : Prop :=
  (ws.inflight = true ∧ ws.retrying = false ∧ ws.walk.read = none) ∨
    (ws.inflight = false ∧ ws.retrying = true ∧ ws.walk.read.isSome = true)

structure Stuck (ws : WalkerState) : Prop where
  finished : ws.walk.finishDefaultTranslate = true
  inflight : ws.inflight = false
  retrying : ws.retrying = false
  read : ws.walk.read = none

inductive Phase (ws : WalkerState) : Prop
  | walking : ws.walk.finishDefaultTranslate = false → ws.walk.nextline = false → ws.Waits →
      Phase ws
  | nextline : ws.walk.finishDefaultTranslate = true → ws.walk.nextline = true → ws.Waits →
      Phase ws
  | stuck : ws.Stuck → Phase ws

structure Sound (ws : WalkerState) : Prop where
  functional : ws.walk.functional = false
  fromPreReq : ∀ r ∈ ws.requestors, r.fromPreReq = true → ws.fromPreReq = true
  phase : ws.Phase

def pending (ws : WalkerState) : List ℕ :=
  if ws.walk.finishDefaultTranslate then []
  else (ws.requestors.filter fun r => !r.fromPreReq).map fun r => r.id

theorem Waits.not_stuck (h : ws.Waits) : ¬ ws.Stuck := by
  intro hstuck
  rcases h with ⟨hinflight, -, -⟩ | ⟨-, hretrying, -⟩
  · rw [hstuck.inflight] at hinflight
    cases hinflight
  · rw [hstuck.retrying] at hretrying
    cases hretrying

theorem not_stuck_of_inflight (h : ws.inflight = true) : ¬ ws.Stuck := by
  intro hstuck
  rw [hstuck.inflight] at h
  cases h

theorem sendPackets_waits (ws : WalkerState) (sent : Bool) (hinflight : ws.inflight = false)
    (hretrying : ws.retrying = false) (hread : ws.walk.read.isSome = true) :
    (ws.sendPackets sent).Waits := by
  obtain ⟨a, ha⟩ := Option.isSome_iff_exists.mp hread
  cases sent with
  | true =>
    have hsent : ws.sendPackets true = { ws with walk := ws.walk.endWalk, inflight := true } := by
      simp [sendPackets, hretrying, ha]
    rw [hsent]
    exact .inl ⟨rfl, hretrying, rfl⟩
  | false =>
    have hrefused : ws.sendPackets false = { ws with retrying := true } := by
      simp [sendPackets, hretrying, ha]
    rw [hrefused]
    exact .inr ⟨hinflight, rfl, hread⟩

theorem Waits.not_idle (h : ws.Waits) : (!ws.inflight && ws.walk.read.isNone) = false := by
  rcases h with ⟨hinflight, -, -⟩ | ⟨-, -, hread⟩
  · rw [hinflight]
    rfl
  · rw [Option.isNone_eq_false_iff.mpr hread, Bool.and_false]

theorem sendPackets_of_none (sent : Bool) (hread : ws.walk.read = none) :
    ws.sendPackets sent = ws := by
  unfold sendPackets
  rw [hread]
  split_ifs <;> rfl

section
variable (sent : Bool) (ws : WalkerState)

theorem sendPackets_walk : (ws.sendPackets sent).requestors = ws.requestors ∧
      ∃ read, (ws.sendPackets sent).walk = { ws.walk with read := read } := by
  by_cases hretrying : ws.retrying = true
  · rw [sendPackets, if_pos hretrying]
    exact ⟨rfl, ws.walk.read, rfl⟩
  · rw [sendPackets, if_neg hretrying]
    cases hread : ws.walk.read with
    | none => exact ⟨rfl, ws.walk.read, rfl⟩
    | some a =>
      cases sent with
      | true => exact ⟨rfl, none, rfl⟩
      | false => exact ⟨rfl, ws.walk.read, rfl⟩

theorem sendPackets_same : (ws.sendPackets sent).requestors = ws.requestors ∧
      (ws.sendPackets sent).walk.entry = ws.walk.entry ∧
      (ws.sendPackets sent).walk.functional = ws.walk.functional ∧
      (ws.sendPackets sent).walk.nextline = ws.walk.nextline ∧
      (ws.sendPackets sent).walk.finishDefaultTranslate = ws.walk.finishDefaultTranslate := by
  obtain ⟨hrequestors, read, hwalk⟩ := ws.sendPackets_walk sent
  rw [hwalk]
  exact ⟨hrequestors, rfl, rfl, rfl, rfl⟩

theorem sendPackets_pending : (ws.sendPackets sent).pending = ws.pending := by
  obtain ⟨hrequestors, -, -, -, hfinished⟩ := ws.sendPackets_same sent
  rw [pending, pending, hrequestors, hfinished]
end
end WalkerState

/-! ### Accounts -/

structure Walker.Accounts (w : Walker) (lost : ℕ → ℕ) : Prop where
  sound : ∀ ws ∈ w.currStates, ws.Sound
  count : ∀ id, w.log.count (.ask id) = w.log.countP (WalkAction.finishes id) +
    (w.currStates.flatMap fun ws => ws.pending).count id + lost id
  clean : (∀ id, WalkAction.deny id ∉ w.log) →
    (∀ id, lost id = 0) ∧ ∀ ws ∈ w.currStates, ¬ ws.Stuck
  denied : ∀ id, WalkAction.deny id ∈ w.log →
    (∃ j, lost j ≠ 0) ∨ ∃ ws ∈ w.currStates, ws.Stuck

structure Walker.Change (old next : Option WalkerState) (acts : List WalkAction)
    (drop : ℕ → ℕ) : Prop where
  sound : ∀ ws ∈ next, ws.Sound
  kept : ∀ ws ∈ old, ¬ ws.Stuck
  count : ∀ id, acts.count (.ask id) + (old.toList.flatMap fun ws => ws.pending).count id =
    acts.countP (WalkAction.finishes id) + (next.toList.flatMap fun ws => ws.pending).count id +
      drop id
  clean : (∀ id, WalkAction.deny id ∉ acts) → (∀ id, drop id = 0) ∧ ∀ ws ∈ next, ¬ ws.Stuck
  denied : ∀ id, WalkAction.deny id ∈ acts → (∃ j, drop j ≠ 0) ∨ ∃ ws ∈ next, ws.Stuck

namespace Walker
variable {w : Walker} {lost drop : ℕ → ℕ} {old next : Option WalkerState} {acts : List WalkAction}

theorem init_accounts : init.Accounts fun _ => 0 where
  sound ws hws := by cases hws
  count id := rfl
  clean _ := ⟨fun _ => rfl, fun ws hws => by cases hws⟩
  denied id hid := by cases hid

theorem Accounts.change (h : w.Accounts lost) (pre post : List WalkerState)
    (hstates : w.currStates = pre ++ (old.toList ++ post)) (hchange : Change old next acts drop)
    (hits : List L2TlbState) (auto : Bool) :
    Accounts ⟨pre ++ (next.toList ++ post), hits, auto, w.log ++ acts⟩
      fun id => lost id + drop id where
  sound ws hws := by
    simp only [mem_append, Option.mem_toList] at hws
    rcases hws with hws | hws | hws
    · exact h.sound ws (by simp [hstates, hws])
    · exact hchange.sound ws hws
    · exact h.sound ws (by simp [hstates, hws])
  count id := by
    have hbefore := h.count id
    have hhere := hchange.count id
    rw [hstates] at hbefore
    simp only [flatMap_append, count_append, countP_append] at hbefore hhere ⊢
    omega
  clean hnone := by
    simp only [mem_append, not_or] at hnone
    obtain ⟨hlost, hwalks⟩ := h.clean fun id => (hnone id).1
    obtain ⟨hdrop, hnext⟩ := hchange.clean fun id => (hnone id).2
    refine ⟨fun id => by rw [hlost, hdrop], fun ws hws => ?_⟩
    simp only [mem_append, Option.mem_toList] at hws
    rcases hws with hws | hws | hws
    · exact hwalks ws (by simp [hstates, hws])
    · exact hnext ws hws
    · exact hwalks ws (by simp [hstates, hws])
  denied id hid := by
    rcases mem_append.mp hid with hid | hid
    · rcases h.denied id hid with ⟨j, hj⟩ | ⟨ws, hws, hstuck⟩
      · exact .inl ⟨j, by omega⟩
      · -- a walk that is stuck is not the one that changes
        rw [hstates] at hws
        simp only [mem_append, Option.mem_toList] at hws
        rcases hws with hws | hws | hws
        · exact .inr ⟨ws, by simp [hws], hstuck⟩
        · exact absurd hstuck (hchange.kept ws hws)
        · exact .inr ⟨ws, by simp [hws], hstuck⟩
    · rcases hchange.denied id hid with ⟨j, hj⟩ | ⟨ws, hws, hstuck⟩
      · exact .inl ⟨j, by omega⟩
      · exact .inr ⟨ws, by simp [Option.mem_def.mp hws], hstuck⟩
end Walker

/-! ### The loops over those who wait -/

namespace WalkerState
variable {w : Walk} {pmpCheck : ℕ → Addr → Option MMUFault} {requestors : List Requestor}
  {s t : L1Tlb} {complete : Bool} {log : List WalkAction}

def waiting (requestors : List Requestor) : List ℕ :=
  (requestors.filter fun r => !r.fromPreReq).map fun r => r.id

theorem waiting_cons_of_pre {r : Requestor} (h : r.fromPreReq = true) :
    waiting (r :: requestors) = waiting requestors := by
  simp [waiting, h]

theorem waiting_cons {r : Requestor} (h : r.fromPreReq = false) :
    waiting (r :: requestors) = r.id :: waiting requestors := by
  simp [waiting, h]

/-- The loop answers all who wait, or it stops at one whose address is denied; that one has been
answered if the walk stays, and if the walk goes it is lost. -/
structure Finishes (complete : Bool) (log : List WalkAction) (ids : List ℕ) (drop : ℕ → ℕ) :
    Prop where
  ask : ∀ id, WalkAction.ask id ∉ log
  count : ∀ id, ids.count id = log.countP (WalkAction.finishes id) + drop id
  clean : (∀ id, WalkAction.deny id ∉ log) → (∀ id, drop id = 0) ∧ complete = true
  denied : ∀ id, WalkAction.deny id ∈ log → (∃ j, drop j ≠ 0) ∨ complete = false

theorem finishAll_finishes (h : finishAll w pmpCheck requestors s = .ok (complete, log, t)) :
    ∃ drop, Finishes complete log (waiting requestors) drop := by
  -- on those who wait; the counts of the rest are those of the list without its head
  induction requestors generalizing s complete log with
  | nil =>
    cases h
    exact ⟨fun _ => 0, ⟨fun _ => not_mem_nil, fun _ => rfl, fun _ => ⟨fun _ => rfl, rfl⟩,
      fun _ hid => absurd hid not_mem_nil⟩⟩
  | cons r rest ih =>
    rcases finishAll_cons h with ⟨hpre, hrest⟩ | ⟨hpre, u, -, ⟨log', hrest, rfl⟩ | ⟨-, rfl, rfl⟩ |
      ⟨-, rfl, f, rfl⟩⟩
    · rw [waiting_cons_of_pre hpre]
      exact ih hrest
    · obtain ⟨drop, hrest⟩ := ih hrest
      rw [waiting_cons hpre]
      refine ⟨drop, ⟨fun id hid => ?_, fun id => ?_, fun hnone => ?_, fun id hid => ?_⟩⟩
      · exact hrest.ask id (by simpa using hid)
      · exact count_answered id r.id none _ _ _ (hrest.count id)
      · exact hrest.clean fun id hid => hnone id (mem_cons_of_mem _ hid)
      · exact hrest.denied id (by simpa using hid)
    · rw [waiting_cons hpre]
      refine ⟨fun id => (r.id :: waiting rest).count id, ⟨fun id hid => ?_, fun id => ?_,
        fun hnone => ?_, fun id hid => .inl ⟨r.id, ?_⟩⟩⟩
      · simp at hid
      · simp [finishes]
      · exact absurd (mem_singleton.mpr rfl) (hnone r.id)
      · rw [count_cons_self]
        exact Nat.succ_ne_zero _
    · rw [waiting_cons hpre]
      refine ⟨fun id => (waiting rest).count id, ⟨fun id hid => ?_, fun id => ?_,
        fun hnone => ?_, fun id hid => .inr rfl⟩⟩
      · simp at hid
      · have hnone : ([] : List WalkAction).countP (finishes id) = 0 := rfl
        have hcount := count_answered id r.id (some f) (waiting rest) [] ((waiting rest).count id)
          (by rw [hnone, Nat.zero_add])
        exact hcount
      · exact absurd mem_cons_self (hnone r.id)

theorem finishFault_finishes (w : Walk) (requestors : List Requestor) :
    Finishes true (finishFault w requestors) (waiting requestors) fun _ => 0 := by
  refine ⟨fun id hid => ?_, fun id => ?_, fun _ => ⟨fun _ => rfl, rfl⟩, fun id hid => ?_⟩
  · simp [finishFault] at hid
  · rw [waiting, finishFault, countP_map, count_eq_countP, countP_map]
    rfl
  · simp [finishFault] at hid

theorem finishNextline_finishes (hpre : ∀ r ∈ requestors, r.fromPreReq = false)
    (h : finishNextline w pmpCheck requestors s = .ok (log, t)) :
    Finishes true log (waiting requestors) fun _ => 0 := by
  induction requestors generalizing s log with
  | nil =>
    cases h
    exact ⟨fun _ => not_mem_nil, fun _ => rfl, fun _ => ⟨fun _ => rfl, rfl⟩,
      fun _ hid => absurd hid not_mem_nil⟩
  | cons r rest ih =>
    rw [forall_mem_cons] at hpre
    unfold finishNextline at h
    split at h
    · cases h
    split at h
    · cases h
    split at h
    · cases h
    rename_i log' v hrest
    cases h
    have hfinishes := ih hpre.2 hrest
    rw [waiting_cons hpre.1]
    refine ⟨fun id hid => ?_, fun id => ?_, fun _ => ⟨fun _ => rfl, rfl⟩, fun id hid => ?_⟩
    · exact hfinishes.ask id (by simpa using hid)
    · exact count_answered id r.id none _ _ _ (hfinishes.count id)
    · have hmem : deny id ∈ log' := by simpa using hid
      rcases hfinishes.denied id hmem with ⟨j, hj⟩ | hfalse
      · exact absurd rfl hj
      · cases hfalse

/-! ### Responses -/

variable {cfg : MmuConfig} {line : PteLine} {pmp : Option MMUFault} {sent : Bool}
  {ws : WalkerState} {next : Option WalkerState} {s' t' : Tlbs}

theorem pending_of_finished (h : ws.walk.finishDefaultTranslate = true) : ws.pending = [] := by
  rw [pending, h]
  rfl

theorem pending_of_walking (h : ws.walk.finishDefaultTranslate = false) :
    ws.pending = waiting ws.requestors := by
  rw [pending, h]
  rfl
end WalkerState

namespace Walker
open WalkerState
variable {cfg : MmuConfig} {line : PteLine} {pmp : Option MMUFault} {sent : Bool}
  {pmpCheck : ℕ → Addr → Option MMUFault} {ws : WalkerState} {next : Option WalkerState}
  {log : List WalkAction} {s t : Tlbs}

theorem Change.silent (hinflight : ws.inflight = true) (hnext : ∀ ws' ∈ next, ws'.Sound)
    (hwaits : ∀ ws' ∈ next, ¬ ws'.Stuck)
    (hpending : ws.pending = next.toList.flatMap fun ws => ws.pending) :
    Change (some ws) next [] fun _ => 0 where
  sound := hnext
  kept ws' hws' := by
    obtain rfl := Option.mem_some_iff.mp hws'
    exact not_stuck_of_inflight hinflight
  count id := by
    rw [← hpending]
    simp
  clean _ := ⟨fun _ => rfl, hwaits⟩
  denied id hid := by cases hid

theorem Change.answer {complete : Bool} {drop : ℕ → ℕ} (hinflight : ws.inflight = true)
    (hwalking : ws.walk.finishDefaultTranslate = false) (hnext : ∀ ws' ∈ next, ws'.Sound)
    (hfinished : ∀ ws' ∈ next, ws'.walk.finishDefaultTranslate = true)
    (hcomplete : complete = true → ∀ ws' ∈ next, ¬ ws'.Stuck)
    (hstuck : complete = false → ∃ ws' ∈ next, ws'.Stuck)
    (h : Finishes complete log (waiting ws.requestors) drop) : Change (some ws) next log drop where
  sound := hnext
  kept ws' hws' := by
    obtain rfl := Option.mem_some_iff.mp hws'
    exact not_stuck_of_inflight hinflight
  count id := by
    have hask : log.count (.ask id) = 0 := count_eq_zero.mpr (h.ask id)
    have hnone : (next.toList.flatMap fun ws => ws.pending) = [] := by
      rw [flatMap_eq_nil_iff]
      intro ws' hws'
      exact pending_of_finished (hfinished ws' (Option.mem_toList.mp hws'))
    rw [hnone, Option.toList_some, flatMap_singleton, pending_of_walking hwalking, count_nil,
      h.count id]
    omega
  clean hnone := by
    obtain ⟨hdrop, hcompl⟩ := h.clean hnone
    exact ⟨hdrop, hcomplete hcompl⟩
  denied id hid := by
    rcases h.denied id hid with hdrop | hcompl
    · exact .inl hdrop
    · exact .inr (hstuck hcompl)

theorem recvPacket_change (hs : ws.Sound)
    (h : ws.recvPacket cfg line pmp sent pmpCheck s = .ok (next, log, t)) :
    ∃ drop, Change (some ws) next log drop := by
  unfold recvPacket at h
  split_ifs at h with hinflight hempty
  · -- nobody waits
    cases h
    refine ⟨_, .silent hinflight (by simp) (by simp) ?_⟩
    simp [pending, List.isEmpty_iff.mp hempty]
  rcases hstep : ws.walk.stepWalk cfg line pmp with m | ⟨fault, ops, walk⟩
  · rw [hstep] at h
    cases h
  simp only [hstep] at h
  cases hexec : s.execAll cfg ops with
  | error m =>
    rw [hexec] at h
    cases h
  | ok u =>
    simp only [hexec] at h
    -- the port is free as long as a read is under way
    have hretrying : ws.retrying = false := by
      cases hs.phase with
      | walking _ _ hwaits =>
        rcases hwaits with ⟨-, hretrying, -⟩ | ⟨hno, -, -⟩
        · exact hretrying
        · rw [hinflight] at hno
          cases hno
      | nextline _ _ hwaits =>
        rcases hwaits with ⟨-, hretrying, -⟩ | ⟨hno, -, -⟩
        · exact hretrying
        · rw [hinflight] at hno
          cases hno
      | stuck hstuck => exact hstuck.retrying
    -- a walk that goes on waits for its next read
    have hnew (hread : walk.read.isSome = true) (horigin : ws.walk.SameOrigin walk) :
        let ws' := { ws with walk := walk, inflight := false }.sendPackets sent
        ws'.Waits ∧ (ws'.Phase → ws'.Sound) ∧ ws'.requestors = ws.requestors ∧
          ws'.walk.nextline = walk.nextline ∧
          ws'.walk.finishDefaultTranslate = walk.finishDefaultTranslate := by
      obtain ⟨hrequestors, hentry, hfunctional, hnextline, hfinished⟩ :=
        sendPackets_same sent { ws with walk := walk, inflight := false }
      refine ⟨sendPackets_waits _ sent rfl hretrying hread, fun hphase => ⟨?_, ?_, hphase⟩,
        hrequestors, hnextline, hfinished⟩
      · exact hfunctional.trans (horigin.functional.trans hs.functional)
      · intro r hr hpre
        rw [hrequestors] at hr
        rw [fromPreReq, hentry, horigin.fromForwardPreReq, horigin.fromBackPreReq]
        exact hs.fromPreReq r hr hpre
    cases hs.phase with
    | stuck hstuck => exact absurd hstuck (not_stuck_of_inflight hinflight)
    | nextline hfinished hnextline _ =>
      obtain ⟨hread, hnl⟩ := Walk.stepWalk_nextline hnextline hstep
      rw [sendPackets_of_none sent hread] at h
      simp only [afterStep, hnl, hread] at h
      cases h
      refine ⟨_, .silent hinflight (by simp) (by simp) ?_⟩
      rw [pending_of_finished hfinished]
      rfl
    | walking hwalking hnextline _ =>
      obtain ⟨hkind, horigin⟩ := Walk.stepWalk_kind hs.functional hnextline hstep
      cases hkind with
      | fault hfault hread hnl =>
        obtain ⟨f, rfl⟩ := Option.ne_none_iff_exists'.mp hfault
        rw [sendPackets_of_none sent hread] at h
        simp only [afterStep, hnl, hread] at h
        cases h
        exact ⟨_, .answer hinflight hwalking (by simp) (by simp) (by simp) (by simp)
          (finishFault_finishes walk ws.requestors)⟩
      | pointer hfault hread hnl hfinished =>
        obtain ⟨hwaits, hsound, hsame⟩ := hnew hread horigin
        have hwalking' := (hsame.2.2).trans (hfinished.trans hwalking)
        simp only [afterStep, hsame.2.1, hnl, hwaits.not_idle] at h
        cases h
        refine ⟨_, .silent hinflight (by simpa using hsound (.walking hwalking'
          (hsame.2.1.trans hnl) hwaits)) (by simpa using hwaits.not_stuck) ?_⟩
        rw [Option.toList_some, flatMap_singleton, pending_of_walking hwalking,
          pending_of_walking hwalking', hsame.1]
      | leaf hfault hread hnl hfinished =>
        subst hfault
        rw [sendPackets_of_none sent hread] at h
        simp only [afterStep, hnl, hread] at h
        rcases hfinish : finishAll walk pmpCheck ws.requestors u.l1 with m | ⟨complete, acts, l1⟩
        · simp [hfinish] at h
        · simp only [hfinish] at h
          cases h
          obtain ⟨drop, hfinishes⟩ := finishAll_finishes hfinish
          have hstuck : Stuck { ws with walk := walk, inflight := false } :=
            ⟨hfinished, rfl, hretrying, hread⟩
          refine ⟨drop, .answer hinflight hwalking ?_ ?_ ?_ ?_ hfinishes⟩
          · intro ws' hws'
            split_ifs at hws'
            · cases hws'
            · obtain rfl := Option.mem_some_iff.mp hws'
              refine ⟨horigin.functional.trans hs.functional, fun r hr hpre => ?_, .stuck hstuck⟩
              rw [fromPreReq, horigin.fromForwardPreReq, horigin.fromBackPreReq]
              exact hs.fromPreReq r hr hpre
          · intro ws' hws'
            split_ifs at hws'
            · cases hws'
            · obtain rfl := Option.mem_some_iff.mp hws'
              exact hfinished
          · rintro rfl ws' hws'
            cases hws'
          · rintro rfl
            exact ⟨_, rfl, hstuck⟩
      | leafNextline hfault hread hnl hfinished hforward hback =>
        subst hfault
        obtain ⟨hwaits, hsound, hsame⟩ := hnew hread horigin
        have hnone : ∀ r ∈ ws.requestors, r.fromPreReq = false := by
          intro r hr
          by_contra hpre
          have hws := hs.fromPreReq r hr (Bool.eq_true_of_not_eq_false hpre)
          rw [fromPreReq, hforward, hback] at hws
          cases hws
        simp only [afterStep, hsame.2.1, hnl, hwaits.not_idle, hsame.1, if_true,
          Bool.false_eq_true, if_false] at h
        split at h
        · cases h
        rename_i acts l1 hfinish
        cases h
        have hfinished' := hsame.2.2.trans hfinished
        exact ⟨_, .answer hinflight hwalking (by simpa using hsound (.nextline hfinished'
          (hsame.2.1.trans hnl) hwaits)) (by simpa using hfinished')
          (fun _ => by simpa using hwaits.not_stuck) (by simp)
          (finishNextline_finishes hnone hfinish)⟩

/-! ### Requests -/

variable {w w' : Walker} {lost : ℕ → ℕ} {r : WalkRequest} {regulate : Bool}

def asks (r : WalkRequest) : List WalkAction :=
  if r.fromPreReq then [] else [.ask r.id]

theorem tryCoalesce_some {states states' : List WalkerState}
    (h : tryCoalesce r states = .ok (some states')) :
    ∃ pre ws ws' post, states = pre ++ ws :: post ∧ states' = pre ++ ws' :: post ∧
      ws.coalesces r = true ∧ ws.coalesce r = .ok ws' := by
  induction states generalizing states' with
  | nil => cases h
  | cons ws rest ih =>
    unfold tryCoalesce at h
    by_cases hc : ws.coalesces r = true
    · rw [if_pos hc] at h
      split at h
      · cases h
      rename_i ws' hws'
      obtain rfl := Option.some.inj (Except.ok.inj h)
      exact ⟨[], ws, ws', rest, rfl, rfl, hc, hws'⟩
    · rw [if_neg hc] at h
      split at h
      · cases h
      · cases h
      rename_i rest' hrest
      obtain rfl := Option.some.inj (Except.ok.inj h)
      obtain ⟨pre, x, x', post, rfl, rfl, hx, hx'⟩ := ih hrest
      exact ⟨ws :: pre, x, x', post, rfl, rfl, hx, hx'⟩

theorem coalesce_change {ws' : WalkerState} (hs : ws.Sound) (hc : ws.coalesces r = true)
    (h : ws.coalesce r = .ok ws') : Change (some ws) (some ws') (asks r) fun _ => 0 := by
  have hwalking : ws.walk.finishDefaultTranslate = false := by
    simp only [coalesces, Bool.and_eq_true, Bool.not_eq_true'] at hc
    exact hc.2
  obtain ⟨hnextline, hwaits⟩ : ws.walk.nextline = false ∧ ws.Waits := by
    cases hs.phase with
    | walking _ hnextline hwaits => exact ⟨hnextline, hwaits⟩
    | nextline hfinished _ _ =>
      rw [hwalking] at hfinished
      cases hfinished
    | stuck hstuck =>
      have hfinished := hstuck.finished
      rw [hwalking] at hfinished
      cases hfinished
  have hkept : ∀ x ∈ some ws, ¬ x.Stuck := by
    simpa using hwaits.not_stuck
  unfold coalesce at h
  unfold asks
  by_cases hpre : r.fromPreReq = true
  · rw [if_pos hpre] at h ⊢
    cases h
    exact ⟨by simpa using hs, hkept, fun id => by simp, fun _ => ⟨fun _ => rfl, hkept⟩,
      fun id hid => absurd hid not_mem_nil⟩
  · rw [if_neg hpre] at h ⊢
    split_ifs at h
    have hws' := Except.ok.inj h
    have hrequestors : ws'.requestors = ws.requestors ++ [⟨r.id, r.req.vaddr, false⟩] := by
      rw [← hws']
    have hwalking' : ws'.walk.finishDefaultTranslate = false := by
      rw [← hws']
      exact hwalking
    have hwaits' : ws'.Waits := by
      rw [← hws']
      exact hwaits
    have hsound : ws'.Sound := by
      refine ⟨?_, fun q hq hqpre => ?_, .walking hwalking' ?_ hwaits'⟩
      · rw [← hws']
        exact hs.functional
      · rw [hrequestors] at hq
        rcases mem_append.mp hq with hq | hq
        · rw [← hws']
          exact hs.fromPreReq q hq hqpre
        · rw [mem_singleton.mp hq] at hqpre
          cases hqpre
      · rw [← hws']
        exact hnextline
    refine ⟨by simpa using hsound, hkept, fun id => ?_,
      fun _ => ⟨fun _ => rfl, by simpa using hwaits'.not_stuck⟩, fun id hid => by simp at hid⟩
    rw [Option.toList_some, Option.toList_some, flatMap_singleton, flatMap_singleton,
      pending_of_walking hwalking, pending_of_walking hwalking', hrequestors]
    simp only [waiting]
    by_cases hid : r.id = id
    · simp [hid, finishes]
      omega
    · simp [hid, finishes]

theorem startWalk_change {auto : Bool} (h : startWalk r auto sent = .ok ws) :
    Change none (some ws) (asks r) fun _ => 0 := by
  unfold startWalk at h
  simp only at h
  split at h
  · cases h
  rename_i walk hsetup
  cases h
  obtain ⟨hread, hfunctional, hnextline, hwalking, hforward, hback⟩ := Walk.setupWalk_ok hsetup
  have horigin : (walk.entry.fromForwardPreReq || walk.entry.fromBackPreReq) = r.fromPreReq := by
    rw [hforward, hback]
    rfl
  obtain ⟨hrequestors, hentry, hfunctional', hnextline', hwalking'⟩ :=
    sendPackets_same sent ⟨walk, [⟨r.id, r.req.vaddr, r.fromPreReq⟩], false, false⟩
  have hwaits := sendPackets_waits ⟨walk, [⟨r.id, r.req.vaddr, r.fromPreReq⟩], false, false⟩ sent
    rfl rfl hread
  refine ⟨?_, by simp, fun id => ?_, fun _ => ⟨fun _ => rfl, by simpa using hwaits.not_stuck⟩,
    fun id hid => ?_⟩
  · intro x hx
    obtain rfl := Option.mem_some_iff.mp hx
    refine ⟨hfunctional'.trans hfunctional, fun q hq hqpre => ?_,
      .walking (hwalking'.trans hwalking) (hnextline'.trans hnextline) hwaits⟩
    rw [hrequestors, mem_singleton] at hq
    rw [fromPreReq, hentry, horigin]
    rw [hq] at hqpre
    exact hqpre
  · rw [Option.toList_some, flatMap_singleton,
      pending_of_walking (hwalking'.trans hwalking), hrequestors]
    cases hpre : r.fromPreReq with
    | true => simp [asks, hpre, waiting]
    | false =>
      by_cases hid : r.id = id
      · simp [asks, hpre, waiting, hid, finishes]
      · simp [asks, hpre, waiting, hid, finishes]
  · unfold asks at hid
    split_ifs at hid
    · cases hid
    · simp at hid

theorem Accounts.start (h : w.Accounts lost) (hstart : w.start r regulate sent = .ok w') :
    w'.Accounts lost := by
  have hlog : (if r.fromPreReq then w.log else w.log ++ [.ask r.id]) = w.log ++ asks r := by
    unfold asks
    split_ifs
    · rw [append_nil]
    · rfl
  unfold Walker.start at hstart
  simp only [hlog] at hstart
  split at hstart
  · cases hstart
  · rename_i states hcoalesce
    cases hstart
    obtain ⟨pre, x, x', post, hstates, rfl, hc, hx⟩ := tryCoalesce_some hcoalesce
    have hsound : x.Sound := h.sound x (by simp [hstates])
    have hold : w.currStates = pre ++ ((some x).toList ++ post) := hstates
    exact h.change pre post hold (coalesce_change hsound hc hx) _ _
  · split at hstart
    · cases hstart
    rename_i x hx
    cases hstart
    exact h.change w.currStates [] (by simp) (startWalk_change hx) _ _

theorem Accounts.congr (h : w.Accounts lost) (hstates : w'.currStates = w.currStates)
    (hlog : w'.log = w.log) : w'.Accounts lost := by
  refine ⟨?_, ?_, ?_, ?_⟩
  · rw [hstates]
    exact h.sound
  · rw [hstates, hlog]
    exact h.count
  · rw [hstates, hlog]
    exact h.clean
  · rw [hstates, hlog]
    exact h.denied

inductive Asked : Walker → Walker → Prop
  | same {w w' : Walker} : w'.currStates = w.currStates → w'.log = w.log → Asked w w'
  | start {w w' : Walker} {r : WalkRequest} {regulate sent : Bool} :
      (∀ x ∈ r.known, x.2.1 ≤ 3) → w.start r regulate sent = .ok w' → Asked w w'
  | trans {w w' w'' : Walker} : Asked w w' → Asked w' w'' → Asked w w''

theorem Asked.refl (w : Walker) : w.Asked w := .same rfl rfl

theorem Asked.accounts (h : w.Asked w') (hw : w.Accounts lost) : w'.Accounts lost := by
  induction h with
  | same hstates hlog => exact hw.congr hstates hlog
  | start _ hstart => exact hw.start hstart
  | trans _ _ ih ih' => exact ih' (ih hw)

theorem level_le_of_known {page : L2Page} {ppn : Addr} {asid : BitVec 16} :
    ∀ x ∈ some (ppn, page.level - 1, asid), x.2.1 ≤ 3 := by
  intro x hx
  obtain rfl := Option.mem_some_iff.mp hx
  exact (Nat.sub_le _ _).trans page.level_le

theorem sendPre_asked {req : XlateReq} {id : ℕ} {block : Addr} {forward : Bool} {l2 : L2Tlb}
    {source : Option (L2Page × ℕ)}
    (h : w.sendPre req id block forward l2 source regulate sent = .ok w') : w.Asked w' := by
  unfold sendPre at h
  split at h
  · cases h
    exact .refl w
  · simp only at h
    split_ifs at h
    · exact .start level_le_of_known h
    · cases h
      exact .refl w

theorem prefetch_asked {req : XlateReq} {id : ℕ} {l2 : L2Tlb} {found : L2Found}
    {c : XlateChoices} (h : w.prefetch req id l2 found c = .ok w') : w.Asked w' := by
  unfold prefetch at h
  simp only at h
  split at h
  · cases h
  rename_i w₁ hforward
  have h₁ : w.Asked w₁ := by
    split_ifs at hforward
    · exact sendPre_asked hforward
    · cases hforward
      exact .refl w
  split_ifs at h
  · exact h₁.trans (sendPre_asked h)
  · cases h
    exact h₁

theorem Accounts.recvReqRetry (h : w.Accounts lost) (sent : ℕ → Bool) :
    (w.recvReqRetry sent).Accounts lost := by
  -- a walk that tries again waited for the port, and waits now for the port or for memory
  have hretry {x : WalkerState} (hx : x.Sound) (hretrying : x.retrying = true) (b : Bool) :
      (x.retry b).Waits ∧ (x.retry b).Sound := by
    have hfree {x : WalkerState} (hretrying : x.retrying = true) (hwaits : x.Waits) :
        x.inflight = false ∧ x.walk.read.isSome = true := by
      rcases hwaits with ⟨-, hno, -⟩ | ⟨hinflight, -, hread⟩
      · rw [hretrying] at hno
        cases hno
      · exact ⟨hinflight, hread⟩
    obtain ⟨hrequestors, hentry, hfunctional, hnextline, hfinished⟩ :=
      sendPackets_same b { x with retrying := false }
    have hpre : ∀ r ∈ (x.retry b).requestors, r.fromPreReq = true →
        (x.retry b).fromPreReq = true := by
      intro r hr hrpre
      rw [fromPreReq, retry, hentry]
      rw [retry, hrequestors] at hr
      exact hx.fromPreReq r hr hrpre
    cases hx.phase with
    | walking hwalking hnl hwaits =>
      obtain ⟨hinflight, hread⟩ := hfree hretrying hwaits
      have hnew := sendPackets_waits { x with retrying := false } b hinflight rfl hread
      exact ⟨hnew, hfunctional.trans hx.functional, hpre,
        .walking (hfinished.trans hwalking) (hnextline.trans hnl) hnew⟩
    | nextline hdone hnl hwaits =>
      obtain ⟨hinflight, hread⟩ := hfree hretrying hwaits
      have hnew := sendPackets_waits { x with retrying := false } b hinflight rfl hread
      exact ⟨hnew, hfunctional.trans hx.functional, hpre,
        .nextline (hfinished.trans hdone) (hnextline.trans hnl) hnew⟩
    | stuck hstuck =>
      rw [hstuck.retrying] at hretrying
      cases hretrying
  have hpending : ((w.recvReqRetry sent).currStates.flatMap fun ws => ws.pending) =
      w.currStates.flatMap fun ws => ws.pending := by
    rw [flatMap_def]
    congr 1
    apply ext_getElem
    · simp [Walker.recvReqRetry]
    · intro i _ _
      simp only [Walker.recvReqRetry, getElem_map, getElem_mapIdx]
      split_ifs
      · exact (sendPackets_pending _ _).trans rfl
      · rfl
  refine ⟨?_, fun id => ?_, fun hnone => ⟨(h.clean hnone).1, ?_⟩, fun id hid => ?_⟩
  · intro x hx
    obtain ⟨i, hi, rfl⟩ := mem_mapIdx.mp hx
    split_ifs with hretrying
    · exact (hretry (h.sound _ (getElem_mem hi)) hretrying _).2
    · exact h.sound _ (getElem_mem hi)
  · rw [hpending]
    exact h.count id
  · intro x hx
    obtain ⟨i, hi, rfl⟩ := mem_mapIdx.mp hx
    split_ifs with hretrying
    · exact (hretry (h.sound _ (getElem_mem hi)) hretrying _).1.not_stuck
    · exact (h.clean hnone).2 _ (getElem_mem hi)
  · rcases h.denied id hid with hlost | ⟨x, hx, hstuck⟩
    · exact .inl hlost
    · obtain ⟨i, hi, rfl⟩ := getElem_of_mem hx
      refine .inr ⟨w.currStates[i], mem_mapIdx.mpr ⟨i, hi, ?_⟩, hstuck⟩
      rw [if_neg (by simp [hstuck.retrying])]
end Walker

/-! ### Runs -/

namespace Mmu
variable {cfg : MmuConfig} {m m' : Mmu} {k : L1Id}

/-! Fences and flushes do not touch the walkers. -/

theorem demapTlb_walkers {vpn : Addr} {asid : BitVec 16} (h : m.demapTlb k vpn asid = .ok m') :
    m'.walkers = m.walkers := by
  unfold demapTlb at h
  split at h
  · cases h
  cases h
  rfl

theorem demapPage_walkers {vpn : Addr} {asid : BitVec 16} (h : m.demapPage vpn asid = .ok m') :
    m'.walkers = m.walkers := by
  unfold demapPage at h
  split at h
  · cases h
  rename_i m₁ hitb
  rw [demapTlb_walkers h, demapTlb_walkers hitb]

theorem flushL1_walkers (h : m.flushL1 k = .ok m') : m'.walkers = m.walkers := by
  unfold flushL1 at h
  split at h
  · cases h
  cases h
  rfl

theorem flushL2_walkers (h : m.flushL2 = .ok m') : m'.walkers = m.walkers := by
  unfold flushL2 at h
  split at h
  · cases h
  cases h
  rfl

def Accounts (m : Mmu) : Prop :=
  ∀ k, ∃ lost, (m.walkers k).Accounts lost

theorem Accounts.setWalker (h : m.Accounts) {w : Walker} (hw : ∃ lost, w.Accounts lost) :
    (m.setWalker k w).Accounts := by
  intro j
  by_cases hj : j = k
  · subst hj
    simpa [Mmu.setWalker] using hw
  · simpa [Mmu.setWalker, hj] using h j

variable {id : ℕ} {req : XlateReq} {c : XlateChoices} {result : Option (Except MMUFault Addr)}
  {found : L2Found}

def Asked (k : L1Id) (m m' : Mmu) : Prop :=
  (m.walkers k).Asked (m'.walkers k) ∧ ∀ j, j ≠ k → m'.walkers j = m.walkers j

theorem asked_setWalker {w : Walker} (h : (m.walkers k).Asked w) : m.Asked k (m.setWalker k w) := by
  refine ⟨?_, fun j hj => ?_⟩
  · simpa [Mmu.setWalker] using h
  · simp [Mmu.setWalker, hj]

theorem Asked.trans {m'' : Mmu} (h : m.Asked k m') (h' : m'.Asked k m'') : m.Asked k m'' :=
  ⟨h.1.trans h'.1, fun j hj => (h'.2 j hj).trans (h.2 j hj)⟩

theorem askWalker_asked {r : WalkRequest} (hknown : ∀ x ∈ r.known, x.2.1 ≤ 3)
    (h : m.askWalker k r c = .ok (result, m')) : m.Asked k m' := by
  unfold askWalker at h
  split at h
  · cases h
  rename_i w hstart
  cases h
  exact asked_setWalker (.start hknown hstart)

theorem afterHit_asked {result' : Option (Except MMUFault Addr)}
    (h : m.afterHit k id req found c result' = .ok (result, m')) : m.Asked k m' := by
  unfold afterHit at h
  split at h
  · cases h
  rename_i w hprefetch
  cases h
  exact asked_setWalker (Walker.prefetch_asked hprefetch)

theorem scheduleHit_asked (m : Mmu) (hit : L2TlbState) : m.Asked k (m.scheduleHit k hit) :=
  asked_setWalker (.same rfl rfl)

theorem doTranslate_asked (h : m.doTranslate k id req c = .ok (result, m')) : m.Asked k m' := by
  unfold doTranslate at h
  split_ifs at h
  · cases h
    exact ⟨.refl _, fun _ _ => rfl⟩
  rcases hlookup : (m.l1 k).lookup req.vaddr req.satp.asid false true .direct with ⟨hit, l1⟩
  simp only [hlookup] at h
  split at h
  · cases h
  rename_i found l2 _
  -- lookups do not touch the walkers
  have h₁ : m.Asked k (m.setTlbs k ⟨l1, l2⟩) := ⟨.refl _, fun _ _ => rfl⟩
  cases hit with
  | some i =>
    simp only [hitL1] at h
    split_ifs at h
    · cases h
      exact h₁
    · split at h
      · cases h
        exact h₁
      · exact h₁.trans (afterHit_asked h)
  | none =>
    simp only [missL1] at h
    split at h
    · exact h₁.trans (askWalker_asked (fun x hx => absurd hx (Option.not_mem_none x)) h)
    split at h
    · exact h₁.trans (askWalker_asked Walker.level_le_of_known h)
    · cases h
      exact h₁
    · split_ifs at h
      · exact (h₁.trans (scheduleHit_asked _ _)).trans (afterHit_asked h)
      · cases h
        exact h₁.trans (scheduleHit_asked _ _)

theorem Asked.accounts (h : m.Asked k m') (hm : m.Accounts) : m'.Accounts := by
  intro j
  by_cases hj : j = k
  · subst hj
    obtain ⟨lost, hlost⟩ := hm j
    exact ⟨lost, h.1.accounts hlost⟩
  · rw [h.2 j hj]
    exact hm j

theorem Accounts.recvTimingResp {i : ℕ} {line : PteLine} {pmp : Option MMUFault} {sent : Bool}
    {pmpCheck : ℕ → Addr → Option MMUFault} (h : m.Accounts)
    (hresp : m.recvTimingResp cfg k i line pmp sent pmpCheck = .ok m') : m'.Accounts := by
  unfold Mmu.recvTimingResp at hresp
  cases hws : (m.walkers k).currStates[i]? with
  | none =>
    rw [hws] at hresp
    cases hresp
  | some ws =>
    simp only [hws] at hresp
    split at hresp
    · cases hresp
    rename_i next log s hrecv
    cases hresp
    obtain ⟨lost, hlost⟩ := h k
    obtain ⟨hi, hget⟩ := List.getElem?_eq_some_iff.mp hws
    have hstates : (m.walkers k).currStates = (m.walkers k).currStates.take i ++
        ((some ws).toList ++ (m.walkers k).currStates.drop (i + 1)) := by
      rw [Option.toList_some, List.singleton_append, ← hget, List.getElem_cons_drop,
        take_append_drop]
    obtain ⟨drop, hchange⟩ := Walker.recvPacket_change
      (hlost.sound ws (by rw [← hget]; exact getElem_mem hi)) hrecv
    have hafter := hlost.change _ _ hstates hchange (m.walkers k).l2TLBrequestors
      (m.walkers k).autoOpenNextLine
    refine Accounts.setWalker (m := m.setTlbs k s) h ⟨_, hafter.congr ?_ rfl⟩
    cases next with
    | none => simp [eraseIdx_eq_take_drop_succ]
    | some ws' => simp [set_eq_take_append_cons_drop, hi]

theorem Accounts.step {event : MmuEvent} (h : m.Accounts) (hstep : m.step cfg event = .ok m') :
    m'.Accounts := by
  -- events that only touch the TLBs
  have hsame (hwalkers : m'.walkers = m.walkers) : m'.Accounts := by
    intro k
    rw [hwalkers]
    exact h k
  cases event with
  | translate k id req c =>
    simp only [Mmu.step] at hstep
    split at hstep
    · cases hstep
    rename_i result m₁ htranslate
    cases hstep
    exact (doTranslate_asked htranslate).accounts h
  | response k i line pmp sent pmpCheck => exact h.recvTimingResp hstep
  | retry k sent =>
    cases hstep
    obtain ⟨lost, hlost⟩ := h k
    exact h.setWalker ⟨lost, hlost.recvReqRetry sent⟩
  | l2Hit k pmpCheck =>
    simp only [Mmu.step, dol2TLBHit] at hstep
    split at hstep
    · cases hstep
    rename_i s _
    cases hstep
    obtain ⟨lost, hlost⟩ := h k
    exact Accounts.setWalker (m := m.setTlbs k s) h ⟨lost, hlost.congr rfl rfl⟩
  | demapPage vpn asid => exact hsame (demapPage_walkers hstep)
  | flushL1 k => exact hsame (flushL1_walkers hstep)
  | flushL2 => exact hsame (flushL2_walkers hstep)

theorem Accounts.run {events : List MmuEvent} (hrun : (init cfg).run cfg events = .ok m) :
    m.Accounts :=
  Loop.foldlM_inv Accounts (fun _ _ _ h hstep => h.step hstep)
    (fun _ => ⟨_, Walker.init_accounts⟩) hrun

def NoReads (m : Mmu) : Prop :=
  ∀ k, ∀ ws ∈ (m.walkers k).currStates, ws.inflight = false ∧ ws.walk.read = none

/-- When all memory responses of a run have arrived, every request has been answered exactly as
often as it came and no walk is left exactly if no check of a final address has failed. -/
theorem answered_iff (cfg : MmuConfig) (events : List MmuEvent) (m : Mmu)
    (hrun : (init cfg).run cfg events = .ok m) (hreads : m.NoReads) (k : L1Id) :
    ((∀ id, (m.walkers k).log.countP (WalkAction.finishes id) =
        (m.walkers k).log.count (.ask id)) ∧ (m.walkers k).currStates = []) ↔
    ∀ id, WalkAction.deny id ∉ (m.walkers k).log := by
  obtain ⟨lost, h⟩ := Accounts.run hrun k
  constructor
  · rintro ⟨hanswered, hstates⟩ id hid
    rcases h.denied id hid with ⟨j, hj⟩ | ⟨ws, hws, -⟩
    · have hcount := h.count j
      rw [hanswered j] at hcount
      omega
    · rw [hstates] at hws
      cases hws
  · intro hnone
    obtain ⟨hlost, hfree⟩ := h.clean hnone
    have hstates : (m.walkers k).currStates = [] := by
      rw [eq_nil_iff_forall_not_mem]
      intro ws hws
      obtain ⟨hinflight, hread⟩ := hreads k ws hws
      have hwaits : ¬ ws.Waits := by
        rintro (⟨hyes, -, -⟩ | ⟨-, -, hyes⟩)
        · rw [hinflight] at hyes
          cases hyes
        · rw [hread] at hyes
          cases hyes
      cases (h.sound ws hws).phase with
      | walking _ _ h => exact hwaits h
      | nextline _ _ h => exact hwaits h
      | stuck h => exact hfree ws hws h
    refine ⟨fun id => ?_, hstates⟩
    have hcount := h.count id
    rw [hstates, hlost id] at hcount
    simp only [flatMap_nil, count_nil] at hcount
    omega

def twoLoads (pmpCheck : ℕ → Addr → Option MMUFault) : List MmuEvent :=
  [.translate .dtb 0 (loadOf 0x123) plainChoices, .translate .dtb 1 (loadOf 0x456) plainChoices,
    .response .dtb 0 (fun _ => ⟨0x10000043⟩) none true pmpCheck]

def afterLoads : Mmu :=
  ((init smallMmu).run smallMmu (twoLoads fun _ _ => none)).toOption.getD (init smallMmu)

/-- Two loads of one page share a walk, and both are answered. -/
theorem twoLoads_answered :
    (init smallMmu).run smallMmu (twoLoads fun _ _ => none) = .ok afterLoads ∧
      ((afterLoads.walkers .dtb).log.countP (WalkAction.finishes 1) =
        (afterLoads.walkers .dtb).log.count (.ask 1)) ∧
      (afterLoads.walkers .dtb).currStates = [] := by
  have hreads : afterLoads.NoReads := by
    intro k ws hws
    cases k <;> cases hws
  have hlog : (afterLoads.walkers .dtb).log =
      [.ask 0, .ask 1, .finish 0 none, .finish 1 none] := rfl
  have hanswered := (answered_iff smallMmu (twoLoads fun _ _ => none) afterLoads rfl hreads .dtb).2
    (by simp [hlog])
  exact ⟨rfl, hanswered.1 1, hanswered.2⟩

/-- If the final addresses are denied, the first of the two loads is answered, the second never is,
and the walk stays for ever. -/
theorem secondLoad_unanswered :
    ((init smallMmu).run smallMmu (twoLoads fun _ _ => some .address)).toOption.map
      (fun m => ((m.walkers .dtb).log, (m.walkers .dtb).currStates.map fun ws =>
        (ws.inflight, ws.retrying, ws.walk.read))) =
    some ([.ask 0, .ask 1, .deny 0, .finish 0 (some .address)], [(false, false, none)]) :=
  rfl

end Mmu
end Gem5
