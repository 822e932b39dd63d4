import Gem5.Mmu.Answers
import Gem5.Mmu.Whole

/-!
# Fences

A fence with an address and an identifier removes, for every mode of translation, the one entry of
the first level that is found, and the lines of the second level that are found.
-/

namespace Gem5
open List Function BitVec TlbArray TlbTranslateMode L1Tlb

/-! ### Plain entries -/

structure TlbEntry.Plain (e : TlbEntry) : Prop where
  gpaddr : e.gpaddr = 0
  logBytes : e.logBytes ≤ 39

structure TlbSlot.Plain (x : TlbSlot) : Prop where
  entry : x.entry.Plain
  handle : ∀ n, x.trieHandle = some n →
    n = .ofPage (buildKey x.entry.vaddr x.entry.asid .direct) x.entry.logBytes

namespace TlbSlot
variable {x y : TlbSlot}

theorem unused_plain : unused.Plain :=
  ⟨⟨rfl, Nat.zero_le _⟩, fun _ h => absurd h (Option.some_ne_none _).symm⟩

theorem Quiet.plain (h : x.Quiet y) (hx : x.Plain) : y.Plain := by
  obtain ⟨seq, used, sign, heq⟩ := h.entry
  refine ⟨by rw [heq]; exact ⟨hx.entry.gpaddr, hx.entry.logBytes⟩, fun n hn => ?_⟩
  rcases h.handle with hsame | hnone
  · rw [hsame] at hn
    rw [heq]
    exact hx.handle n hn
  · rw [hnone] at hn
    cases hn

theorem Plain.of_covers (h : x.Plain) {v : Addr} {asid : BitVec 16} {mode : TlbTranslateMode}
    (hcovers : x.covers (buildKey v asid mode) = true) : mode = .direct ∧ x.entry.asid = asid := by
  unfold covers at hcovers
  cases hn : x.trieHandle with
  | none =>
    rw [hn] at hcovers
    cases hcovers
  | some n =>
    simp only [hn] at hcovers
    rw [h.handle n hn, covers_buildKey_iff (h.entry.logBytes.trans (by decide))] at hcovers
    exact ⟨hcovers.1, hcovers.2.1⟩
end TlbSlot

def Tlbs.Plain (s : Tlbs) : Prop :=
  ∀ k i, ((s.array k).slot i).Plain

theorem TlbOp.exec_plain {cfg : MmuConfig} {op : TlbOp} {s t : Tlbs} (h : op.exec cfg s = .ok t)
    (hs : s.Plain) (hop : op.entry.Plain) : t.Plain := by
  intro k i
  cases (TlbOp.exec_changes h k).2 i with
  | quiet hquiet => exact hquiet.plain (hs k i)
  | placed seq hnew =>
    rw [hnew]
    exact ⟨⟨hop.gpaddr, hop.logBytes⟩, fun n hn => (Option.some.inj hn).symm⟩
  | refreshed hold hhandle hentry =>
    obtain ⟨seq, used, sign, heq⟩ := hentry
    have hx := hs k i
    refine ⟨by rw [heq]; exact ⟨hx.entry.gpaddr, hx.entry.logBytes⟩, fun n hn => ?_⟩
    rw [hhandle] at hn
    rw [heq]
    exact hx.handle n hn

theorem Tlbs.execAll_plain {cfg : MmuConfig} {ops : List TlbOp} {s t : Tlbs}
    (h : s.execAll cfg ops = .ok t) (hs : s.Plain) (hops : ∀ op ∈ ops, op.entry.Plain) :
    t.Plain := by
  induction ops generalizing s with
  | nil =>
    cases h
    exact hs
  | cons op ops ih =>
    rw [forall_mem_cons] at hops
    rw [execAll, foldlM_cons] at h
    cases hexec : op.exec cfg s with
    | error m =>
      rw [hexec] at h
      cases h
    | ok u =>
      rw [hexec] at h
      exact ih h (op.exec_plain hexec hs hops.1) hops.2

/-! ### Walks -/

theorem AddrXlateMode.topLevel_le (mode : AddrXlateMode) : mode.topLevel ≤ 3 := by
  cases mode <;> decide

structure Walk.Plain (w : Walk) : Prop where
  level : w.level ≤ 3
  entry : w.entry.gpaddr = 0
  inl2Entry : w.inl2Entry.gpaddr = 0
  nextlineEntry : w.nextlineEntry.gpaddr = 0

namespace Walk
variable {cfg : MmuConfig} {w w' : Walk} {line : PteLine} {pmp fault : Option MMUFault}
  {ops : List TlbOp}

theorem setupWalk_plain {req : XlateReq} {functional timing : Bool} {args : StartArgs}
    (h : (initState req functional timing).setupWalk args = .ok w) (hlevel : args.fLevel ≤ 3) :
    w.Plain := by
  have hstart : (initState req functional timing).startLevel args ≤ 3 := by
    unfold startLevel
    split_ifs
    · exact hlevel
    · exact req.satp.mode.topLevel_le
    · exact req.satp.mode.topLevel_le
  unfold setupWalk at h
  simp only at h
  split_ifs at h
  · cases h
    exact ⟨hstart, rfl, rfl, rfl⟩
  · cases h
    exact ⟨hstart, rfl, rfl, rfl⟩

theorem lineOps_plain {level : ℕ} {page : Option L2Page} (hw : w.inl2Entry.gpaddr = 0)
    (hlevel : level ≤ 3) : ∀ op ∈ w.lineOps cfg line level page, op.entry.Plain := by
  intro op hop
  cases page with
  | none => cases hop
  | some page =>
    obtain ⟨i, -, rfl⟩ := mem_map.mp hop
    exact ⟨hw, levelShift_le hlevel⟩

theorem leafOps_plain (hw : w.Plain) (pte : PTE) : ∀ op ∈
    ({ w with entry := w.leafEntry pte } : Walk).leafOps cfg line, op.entry.Plain := by
  intro op hop
  rw [leafOps, mem_append] at hop
  rcases hop with hop | hop
  · split_ifs at hop
    · rw [mem_singleton.mp hop]
      exact ⟨hw.entry, levelShift_le hw.level⟩
    · cases hop
  · exact lineOps_plain (w := { w with entry := w.leafEntry pte }) hw.inl2Entry hw.level op hop

theorem stepWalk_plain (hw : w.Plain) (h : w.stepWalk cfg line pmp = .ok (fault, ops, w')) :
    w'.Plain ∧ ∀ op ∈ ops, op.entry.Plain := by
  cases stepWalk_result h with
  | fault f hn =>
    exact ⟨⟨hw.level, hw.entry, hw.inl2Entry, hw.nextlineEntry⟩, forall_mem_nil _⟩
  | denied hn =>
    exact ⟨⟨hw.level, hw.entry, hw.inl2Entry, hw.nextlineEntry⟩, forall_mem_nil _⟩
  | nextline base e hn hlevel he =>
    have hgpaddr (i : ℕ) : (e i).gpaddr = 0 := by
      rw [he i]
      exact hw.nextlineEntry
    refine ⟨⟨hw.level, hw.entry, hw.inl2Entry, hgpaddr _⟩, fun op hop => ?_⟩
    obtain ⟨i, -, rfl⟩ := mem_map.mp hop
    refine ⟨hgpaddr i, ?_⟩
    rw [TlbOp.entry, he i]
    exact levelShift_le (Nat.zero_le 3)
  | pointer level pte shift next hn hlevel =>
    have hle : level + 1 ≤ 3 := hlevel ▸ hw.level
    exact ⟨⟨Nat.le_of_succ_le hle, hw.entry, hw.inl2Entry, hw.nextlineEntry⟩,
      lineOps_plain hw.inl2Entry hle⟩
  | functional pte hn hf =>
    exact ⟨⟨hw.level, hw.entry, hw.inl2Entry, hw.nextlineEntry⟩, forall_mem_nil _⟩
  | leaf pte hn hf =>
    exact ⟨⟨hw.level, hw.entry, hw.inl2Entry, hw.nextlineEntry⟩, leafOps_plain hw pte⟩
  | leafNextline pte vaddr next hn hf hforward hback =>
    exact ⟨⟨hw.level, hw.entry, hw.inl2Entry, hw.nextlineEntry⟩, leafOps_plain hw pte⟩
end Walk

def Walker.Plain (w : Walker) : Prop :=
  ∀ ws ∈ w.currStates, ws.walk.Plain

namespace Walker
variable {w w' : Walker} {regulate sent : Bool} {r : WalkRequest}

theorem sendPackets_plain (ws : WalkerState) (sent : Bool) (h : ws.walk.Plain) :
    (ws.sendPackets sent).walk.Plain := by
  obtain ⟨-, read, hwalk⟩ := ws.sendPackets_walk sent
  rw [hwalk]
  exact ⟨h.level, h.entry, h.inl2Entry, h.nextlineEntry⟩

theorem Plain.start (hw : w.Plain) (hknown : ∀ x ∈ r.known, x.2.1 ≤ 3)
    (h : w.start r regulate sent = .ok w') : w'.Plain := by
  unfold Walker.start at h
  simp only at h
  split at h
  · cases h
  · -- the request joins a walk
    rename_i states hcoalesce
    cases h
    obtain ⟨pre, x, x', post, hstates, rfl, -, hx⟩ := tryCoalesce_some hcoalesce
    have hplain : x.walk.Plain := hw x (by simp [hstates])
    have hplain' : x'.walk.Plain := by
      unfold WalkerState.coalesce at hx
      split_ifs at hx
      · cases hx
        exact hplain
      · cases hx
        exact ⟨hplain.level, hplain.entry, hplain.inl2Entry, hplain.nextlineEntry⟩
    intro ws hws
    rcases mem_append.mp hws with hws | hws
    · exact hw ws (by simp [hstates, hws])
    · rcases mem_cons.mp hws with rfl | hws
      · exact hplain'
      · exact hw ws (by simp [hstates, hws])
  · -- a new walk
    split at h
    · cases h
    rename_i x hx
    cases h
    intro ws hws
    rcases mem_append.mp hws with hws | hws
    · exact hw ws hws
    · obtain rfl := mem_singleton.mp hws
      unfold startWalk at hx
      simp only at hx
      split at hx
      · cases hx
      rename_i walk hsetup
      cases hx
      refine sendPackets_plain _ sent (Walk.setupWalk_plain hsetup ?_)
      cases hr : r.known with
      | none => exact r.req.satp.mode.topLevel_le
      | some x => exact hknown x hr

theorem Asked.plain (h : w.Asked w') (hw : w.Plain) : w'.Plain := by
  induction h with
  | same hstates _ =>
    rw [Plain, hstates]
    exact hw
  | start hknown hstart => exact hw.start hknown hstart
  | trans _ _ ih ih' => exact ih' (ih hw)
end Walker

/-! ### Reachable states -/

namespace Mmu
variable {cfg : MmuConfig} {m m' : Mmu} {k : L1Id}

structure Plain (m : Mmu) : Prop where
  tlbs : ∀ k, (m.tlbs k).Plain
  walkers : ∀ k, (m.walkers k).Plain

theorem init_plain (cfg : MmuConfig) : (init cfg).Plain where
  tlbs := forall_init TlbSlot.Plain TlbSlot.unused_plain cfg
  walkers _ ws hws := by cases hws

theorem Plain.ops (hm : m.Plain) (event : MmuEvent) : ∀ op ∈ m.ops cfg event, op.entry.Plain := by
  refine forall_ops (fun k a i => (hm.tlbs k a i).entry) (fun k ws hws _ _ _ _ _ hstep => ?_) event
  exact (Walk.stepWalk_plain (hm.walkers k ws hws) hstep).2

theorem recvPacket_plain {line : PteLine} {pmp : Option MMUFault} {sent : Bool}
    {pmpCheck : ℕ → Addr → Option MMUFault} {ws ws' : WalkerState} {s t : Tlbs}
    {log : List WalkAction} (hws : ws.walk.Plain)
    (h : ws.recvPacket cfg line pmp sent pmpCheck s = .ok (some ws', log, t)) : ws'.walk.Plain := by
  unfold WalkerState.recvPacket at h
  split_ifs at h
  · cases h
  · rcases hstep : ws.walk.stepWalk cfg line pmp with e | ⟨fault, ops, walk⟩
    · rw [hstep] at h
      cases h
    simp only [hstep] at h
    cases hexec : s.execAll cfg ops with
    | error e =>
      rw [hexec] at h
      cases h
    | ok u =>
      simp only [hexec] at h
      have hnext := (WalkerState.afterStep_spec h).1
      rw [Option.some.inj (hnext.resolve_left (Option.some_ne_none _))]
      exact Walker.sendPackets_plain { ws with walk := walk, inflight := false } sent
        (Walk.stepWalk_plain hws hstep).1

theorem Plain.step {event : MmuEvent} (hm : m.Plain) (h : m.step cfg event = .ok m') :
    m'.Plain := by
  obtain ⟨s, hexec, hquiet⟩ := step_tlbs h
  have hs : s.Plain := Tlbs.execAll_plain hexec (hm.tlbs event.tlb) (hm.ops event)
  refine ⟨fun k j i => ((hquiet k j).slot i).plain
    (forall_setTlbs TlbSlot.Plain hm.tlbs hs k j i), ?_⟩
  -- events that only touch the TLBs
  have hsame (hwalkers : m'.walkers = m.walkers) (k : L1Id) : (m'.walkers k).Plain := by
    rw [hwalkers]
    exact hm.walkers k
  -- events that touch one walker
  have hone {k : L1Id} (hk : (m'.walkers k).Plain) (hj : ∀ j, j ≠ k → m'.walkers j = m.walkers j)
      (j : L1Id) : (m'.walkers j).Plain := by
    by_cases h : j = k
    · rw [h]
      exact hk
    · rw [hj j h]
      exact hm.walkers j
  cases event with
  | translate k id req c =>
    simp only [Mmu.step] at h
    split at h
    · cases h
    rename_i result m₁ htranslate
    cases h
    obtain ⟨hasked, hothers⟩ := doTranslate_asked htranslate
    exact hone (hasked.plain (hm.walkers k)) hothers
  | response k i line pmp sent pmpCheck =>
    simp only [Mmu.step, recvTimingResp] at h
    cases hws : (m.walkers k).currStates[i]? with
    | none =>
      rw [hws] at h
      cases h
    | some ws =>
      simp only [hws] at h
      split at h
      · cases h
      rename_i next log s hrecv
      cases h
      have hplain := hm.walkers k ws (mem_of_getElem? hws)
      refine hone (k := k) ?_ fun j hj => by simp [setWalker, setTlbs, hj]
      intro ws' hws'
      simp only [setWalker, update_self] at hws'
      cases next with
      | none => exact hm.walkers k ws' (mem_of_mem_eraseIdx hws')
      | some ws₁ =>
        rcases mem_or_eq_of_mem_set hws' with hws' | rfl
        · exact hm.walkers k ws' hws'
        · exact recvPacket_plain hplain hrecv
  | retry k sent =>
    cases h
    refine hone (k := k) ?_ fun j hj => by simp [setWalker, hj]
    intro ws hws
    simp only [setWalker, update_self] at hws
    obtain ⟨i, hi, rfl⟩ := mem_mapIdx.mp hws
    have hplain := hm.walkers k _ (getElem_mem hi)
    split_ifs
    · exact Walker.sendPackets_plain { (m.walkers k).currStates[i] with retrying := false } _ hplain
    · exact hplain
  | l2Hit k pmpCheck =>
    simp only [Mmu.step, dol2TLBHit] at h
    split at h
    · cases h
    cases h
    refine hone (k := k) ?_ fun j hj => by simp [setWalker, setTlbs, hj]
    intro ws hws
    simp only [setWalker, update_self] at hws
    exact hm.walkers k ws hws
  | demapPage vpn asid => exact hsame (demapPage_walkers h)
  | flushL1 k => exact hsame (flushL1_walkers h)
  | flushL2 => exact hsame (flushL2_walkers h)

theorem Reachable.run {events : List MmuEvent} (h : Reachable cfg m)
    (hrun : m.run cfg events = .ok m') : Reachable cfg m' :=
  Loop.foldlM_inv (Reachable cfg) (fun _ _ _ hm hstep => hm.step hstep) h hrun

theorem Reachable.plain (h : Reachable cfg m) : m.Plain := by
  induction h with
  | init => exact init_plain cfg
  | step _ hstep ih => exact ih.step hstep

theorem Reachable.whole (h : Reachable cfg m) : m.Whole cfg := by
  induction h with
  | init => exact init_whole cfg
  | step _ hstep ih =>
    rcases ih.step_outcome _ with ⟨-, e, -, herror⟩ | ⟨-, -, hgood⟩
    · rw [hstep] at herror
      cases herror
    · exact hgood _ hstep
end Mmu

/-! ### The first level -/

namespace TlbArray
variable {a b : TlbArray}

def DirectOnly (a : TlbArray) : Prop :=
  ∀ v asid mode, mode ≠ .direct → a.find (buildKey v asid mode) = none

theorem directOnly_of_plain (h : ∀ i, (a.slot i).Plain) : a.DirectOnly := by
  intro v asid mode hmode
  rw [find_eq_none_iff]
  intro i
  rw [← Bool.not_eq_true]
  exact fun hcovers => hmode ((h i).of_covers hcovers).1

theorem Dropped.directOnly {gone : ℕ → Prop} (h : a.Dropped gone b) (ha : a.DirectOnly) :
    b.DirectOnly := by
  intro v asid mode hmode
  have hnone := ha v asid mode hmode
  rw [TlbArray.find_eq_none_iff] at hnone
  rw [h.find_eq_none_iff]
  intro j hj
  rw [hnone j] at hj
  cases hj

theorem all_found_iff {key : Addr} : (∀ j, (a.slot j).covers key = true → a.find key = some j) ↔
      ∀ i j, (a.slot i).covers key = true → (a.slot j).covers key = true → i = j := by
  constructor
  · intro h i j hi hj
    exact Option.some.inj ((h i hi).symm.trans (h j hj))
  · intro h j hj
    exact find_of_unique (lt_of_covers hj) hj fun i _ hi => h i j hi hj
end TlbArray

def TlbEntry.fencedBy (va : Addr) (asid : BitVec 16) (e : TlbEntry) : Bool :=
  L2Tlb.ofPage va e.vaddr asid e.asid e.size || L2Tlb.ofPage va e.gpaddr asid e.vmid e.size

theorem and_not_mask_eq_iff (u v : Addr) {n : ℕ} (hn : n < 64) :
    u &&& ~~~(((1 : Addr) <<< n) - 1) = v &&& ~~~(((1 : Addr) <<< n) - 1) ↔ u >>> n = v >>> n := by
  have hmask : ((1 : Addr) <<< n) - 1 = bitMask n := (if_neg (Nat.not_le.mpr hn)).symm
  rw [hmask]
  constructor
  · intro h
    apply eq_of_getLsbD_eq
    intro i hi
    have hbit := congrArg (fun x : Addr => x.getLsbD (n + i)) h
    simp only [getLsbD_and, getLsbD_not, getLsbD_bitMask hn] at hbit
    rw [getLsbD_ushiftRight, getLsbD_ushiftRight]
    by_cases h64 : n + i < 64
    · simpa [h64] using hbit
    · rw [getLsbD_of_ge _ _ (not_lt.mp h64), getLsbD_of_ge _ _ (not_lt.mp h64)]
  · intro h
    apply eq_of_getLsbD_eq
    intro i hi
    rw [getLsbD_and, getLsbD_and, getLsbD_not, getLsbD_bitMask hn]
    by_cases hi' : i < n
    · simp [hi']
    · have hbit := congrArg (fun x : Addr => x.getLsbD (i - n)) h
      simp only [getLsbD_ushiftRight] at hbit
      rw [Nat.add_sub_cancel' (not_lt.mp hi')] at hbit
      rw [hbit]

namespace TlbEntry
variable {va : Addr} {asid : BitVec 16} {e : TlbEntry}

theorem fencedBy_zero (h : asid = 0 ∨ e.asid = asid) : e.fencedBy 0 asid = true := by
  rcases h with h | h <;> simp [fencedBy, L2Tlb.ofPage, h]

theorem fencedBy_iff (he : e.Plain) (hva : va ≠ 0) : e.fencedBy va 0 = true ↔
      va >>> e.logBytes = e.vaddr >>> e.logBytes ∨ va >>> e.logBytes = 0 := by
  have hlt : e.logBytes < 64 := he.logBytes.trans_lt (by decide)
  have hzero : (0 : Addr) >>> e.logBytes = 0 := zero_ushiftRight
  simp only [fencedBy, L2Tlb.ofPage, he.gpaddr, size, beq_self_eq_true, Bool.true_or,
    Bool.and_true, Bool.or_eq_true, beq_iff_eq, hva, false_or, and_not_mask_eq_iff _ _ hlt, hzero]
end TlbEntry

/-! ### Both levels -/

theorem L2Tlb.Whole.lookup_none {cfg : MmuConfig} {s : L2Tlb} (hs : s.Whole cfg) {v : Addr}
    {asid : BitVec 16} (h : ∀ k level, ¬ (s.arrays k).Caches cfg k level v asid) (hidden : Bool)
    (page : L2Page) (signUsed : Bool) (mode : TlbTranslateMode) :
    ∃ t, s.lookupL2TLB v asid hidden page signUsed mode = .ok (none, t) := by
  obtain ⟨t, ht, -⟩ := hs.lookup v asid hidden page signUsed mode
  refine ⟨t, ?_⟩
  rw [ht]
  by_cases hmode : mode = .direct
  · subst hmode
    have hnot : ¬ (s.hit page v asid .direct).isSome = true := by
      rw [hit_isSome_iff hs]
      exact fun hhit => h _ _ hhit.1
    rw [Option.not_isSome_iff_eq_none.mp hnot]
  · rw [hit_of_mode hs hmode]

namespace Tlbs
variable {cfg : MmuConfig} {s : Tlbs} {va : Addr} {asid : BitVec 16}

theorem Whole.demapMode (hs : s.Whole cfg) (hva : va ≠ 0) (hasid : asid ≠ 0)
    (mode : TlbTranslateMode) {n : ℕ}
    (hn : ∀ k level, (s.l2.arrays k).Caches cfg k level va asid → level + n ≤ 3) :
    ∃ t, s.demapMode va asid mode = .ok t ∧ t.Whole cfg ∧
      s.l1.arr.Dropped (fun j => s.l1.arr.find (buildKey va asid mode) = some j) t.l1.arr ∧
      ∀ k level, (t.l2.arrays k).Caches cfg k level va asid → level + (n + 1) ≤ 3 := by
  obtain ⟨l1, hl1, hsound, hdropped⟩ := removeFound_ok hs.l1 va asid mode
  obtain ⟨l2, hl2, hwhole, hwithout, -⟩ := hs.l2.demapPageL2 va asid
  refine ⟨⟨l1, l2⟩, ?_, ⟨hsound, hwhole⟩, hdropped, fun k level hcaches => ?_⟩
  · rw [Tlbs.demapMode, hl1, hl2]
  obtain ⟨hold, hnot⟩ := (hwithout ⟨hva, hasid⟩ k level va asid).mp hcaches
  by_contra hle
  obtain ⟨g, hg, l, hl, rfl, hhas⟩ := hold
  -- no larger pages are left, so the line is found and has been removed
  have hlarger : ∀ level', l.level < level' →
      ¬ (s.l2.arrays k).Caches cfg k level' va asid := by
    intro level' hlt hc
    have := hn k level' hc
    omega
  have harray := hl.array
  subst harray
  exact hnot ⟨l.page, (L2Tlb.hit_isSome_iff hs.l2).mpr ⟨hl.caches hg hhas, hlarger⟩, rfl, rfl,
    ⟨rfl, fun _ _ _ => rfl⟩⟩

theorem Whole.fenceOne (hs : s.Whole cfg) (hdirect : s.l1.arr.DirectOnly) (hva : va ≠ 0)
    (hasid : asid ≠ 0) : ∃ t, s.demapPage va asid = .ok t ∧ t.Whole cfg ∧
      s.l1.arr.Dropped (fun j => s.l1.arr.find (buildKey va asid .direct) = some j) t.l1.arr ∧
      ∀ k level, ¬ (t.l2.arrays k).Caches cfg k level va asid := by
  have hlevels : ∀ k level, (s.l2.arrays k).Caches cfg k level va asid → level + 0 ≤ 3 := by
    rintro k level ⟨g, hg, l, hl, rfl, hhas⟩
    exact l.level_le
  obtain ⟨u, hu, hwhole, hdropped, hlevels⟩ := hs.demapMode hva hasid .direct hlevels
  -- the other modes find nothing in the first level
  have hrest : ∃ t, [vsstage, .gstage, .allstage].foldlM
      (fun s mode => s.demapMode va asid mode) u = .ok t ∧ t.Whole cfg ∧
      s.l1.arr.Dropped (fun j => s.l1.arr.find (buildKey va asid .direct) = some j) t.l1.arr ∧
      ∀ k level, (t.l2.arrays k).Caches cfg k level va asid →
        level + (0 + 1 + [vsstage, .gstage, .allstage].length) ≤ 3 := by
    apply Loop.foldlM_done_ok (fun (done : List TlbTranslateMode) (v : Tlbs) => v.Whole cfg ∧
      s.l1.arr.Dropped (fun j => s.l1.arr.find (buildKey va asid .direct) = some j) v.l1.arr ∧
      ∀ k level, (v.l2.arrays k).Caches cfg k level va asid → level + (0 + 1 + done.length) ≤ 3)
    · rintro done mode rest hl v ⟨hv, hvdropped, hvlevels⟩
      have hmode : mode ≠ .direct := by
        rintro rfl
        have hmem : direct ∈ [vsstage, .gstage, .allstage] := by
          rw [hl]
          exact mem_append_right done mem_cons_self
        exact absurd hmem (by decide)
      obtain ⟨t, ht, htwhole, htdropped, htlevels⟩ := hv.demapMode hva hasid mode hvlevels
      refine ⟨t, ht, htwhole, (hvdropped.trans htdropped).congr fun j => ?_, fun k level hc => ?_⟩
      · rw [hvdropped.directOnly hdirect va asid mode hmode]
        simp
      · have := htlevels k level hc
        rw [length_append, length_singleton]
        omega
    · exact ⟨hwhole, hdropped, hlevels⟩
  obtain ⟨t, ht, htwhole, htdropped, htlevels⟩ := hrest
  refine ⟨t, ?_, htwhole, htdropped, fun k level hc => ?_⟩
  · rw [Tlbs.demapPage, if_neg fun h => hva h.1, if_pos ⟨hva, hasid⟩, foldlM_cons, hu]
    exact ht
  · have := htlevels k level hc
    simp at this

theorem Whole.fenceMany (hs : s.Whole cfg) (hzero : ¬ (va ≠ 0 ∧ asid ≠ 0)) :
    ∃ t, s.demapPage va asid = .ok t ∧ t.Whole cfg ∧
      s.l1.arr.Dropped (fun j => (s.l1.arr.slot j).entry.fencedBy va asid = true) t.l1.arr ∧
      t.l2.AllFree cfg := by
  unfold Tlbs.demapPage
  by_cases hboth : va = 0 ∧ asid = 0
  · obtain ⟨l1, hl1, hsound, hdropped⟩ := removeIf_ok hs.l1 fun _ => true
    obtain ⟨l2, hl2, hwhole, hfree⟩ := hs.l2.flushAll
    refine ⟨⟨l1, l2⟩, ?_, ⟨hsound, hwhole⟩, hdropped.congr fun j => ?_, hfree⟩
    · rw [if_pos hboth, Tlbs.flushAll, L1Tlb.flushAll, hl1, hl2]
    · rw [hboth.1, TlbEntry.fencedBy_zero (.inl hboth.2)]
  · obtain ⟨l1, hl1, hsound, hdropped⟩ := removeIf_ok hs.l1 (TlbEntry.fencedBy va asid)
    obtain ⟨l2, hl2, hwhole, -, hfree⟩ := hs.l2.demapPageL2 va asid
    refine ⟨⟨l1, l2⟩, ?_, ⟨hsound, hwhole⟩, hdropped, hfree hzero⟩
    unfold TlbEntry.fencedBy at hl1
    rw [if_neg hboth, if_neg hzero, hl1, hl2]

/-- No lookup of the address with the identifier hits, in the first level or in any of the second;
an address or an identifier that is zero stands for all. -/
structure Misses (va : Addr) (asid : BitVec 16) (s : Tlbs) : Prop where
  l1 : ∀ v b, va = 0 ∨ v = va → asid = 0 ∨ b = asid → ∀ hidden signUsed mode,
    (s.l1.lookup v b hidden signUsed mode).1 = none
  l2 : ∀ v b, va = 0 ∨ v = va → asid = 0 ∨ b = asid → ∀ hidden page signUsed mode,
    ∃ t, s.l2.lookupL2TLB v b hidden page signUsed mode = .ok (none, t)

/-- What a fence takes for granted: with an address and an identifier, that one entry at most has
the page; with an address alone, that the entries of the page have its number, or that it is page
zero. -/
def Fenceable (va : Addr) (asid : BitVec 16) (s : Tlbs) : Prop :=
  (va ≠ 0 → asid ≠ 0 → ∀ i j, (s.l1.arr.slot i).covers (buildKey va asid .direct) = true →
    (s.l1.arr.slot j).covers (buildKey va asid .direct) = true → i = j) ∧
  (va ≠ 0 → asid = 0 → ∀ i b, (s.l1.arr.slot i).covers (buildKey va b .direct) = true →
    va >>> (s.l1.arr.slot i).entry.logBytes =
        (s.l1.arr.slot i).entry.vaddr >>> (s.l1.arr.slot i).entry.logBytes ∨
      va >>> (s.l1.arr.slot i).entry.logBytes = 0)

variable {t : Tlbs}

theorem misses_iff_one (hdirect : s.l1.arr.DirectOnly) (hva : va ≠ 0) (hasid : asid ≠ 0)
    (ht : t.Whole cfg)
    (hl1 : s.l1.arr.Dropped (fun j => s.l1.arr.find (buildKey va asid .direct) = some j) t.l1.arr)
    (hl2 : ∀ k level, ¬ (t.l2.arrays k).Caches cfg k level va asid) :
    t.Misses va asid ↔ s.Fenceable va asid := by
  rw [Fenceable, and_iff_left fun _ h => absurd h hasid, forall_prop_of_true hva,
    forall_prop_of_true hasid, ← all_found_iff, ← hl1.find_eq_none_iff]
  constructor
  · rintro ⟨hmiss, -⟩
    rw [← lookup_fst va asid true false]
    exact hmiss va asid (.inr rfl) (.inr rfl) true false .direct
  · intro hnone
    refine ⟨fun v b hv hb hidden signUsed mode => ?_, fun v b hv hb => ?_⟩
    · obtain rfl := hv.resolve_left hva
      obtain rfl := hb.resolve_left hasid
      rw [lookup_fst]
      by_cases hmode : mode = .direct
      · rw [hmode]
        exact hnone
      · exact hl1.directOnly hdirect _ _ mode hmode
    · obtain rfl := hv.resolve_left hva
      obtain rfl := hb.resolve_left hasid
      exact ht.l2.lookup_none hl2

theorem misses_iff_many (hplain : ∀ i, (s.l1.arr.slot i).Plain) (hzero : ¬ (va ≠ 0 ∧ asid ≠ 0))
    (ht : t.Whole cfg)
    (hl1 : s.l1.arr.Dropped (fun j => (s.l1.arr.slot j).entry.fencedBy va asid = true) t.l1.arr)
    (hl2 : t.l2.AllFree cfg) : t.Misses va asid ↔ s.Fenceable va asid := by
  rw [Fenceable, and_iff_right fun hva hasid => absurd ⟨hva, hasid⟩ hzero]
  constructor
  · rintro ⟨hmiss, -⟩ hva hasid i b hcovers
    have hnone := hmiss va b (.inr rfl) (.inl hasid) true false .direct
    rw [lookup_fst, hl1.find_eq_none_iff] at hnone
    rw [← TlbEntry.fencedBy_iff (hplain i).entry hva, ← hasid]
    exact hnone i hcovers
  · intro hpages
    refine ⟨fun v b hv hb hidden signUsed mode => ?_, fun v b _ _ =>
      ht.l2.lookup_none fun j _ => not_caches_of_free (hl2 j)⟩
    rw [lookup_fst, hl1.find_eq_none_iff]
    intro j hcovers
    obtain ⟨rfl, hentry⟩ := (hplain j).of_covers hcovers
    by_cases hva : va = 0
    · rw [hva]
      apply TlbEntry.fencedBy_zero
      rw [hentry]
      exact hb
    · have hasid : asid = 0 := by
        by_contra hasid
        exact hzero ⟨hva, hasid⟩
      obtain rfl := hv.resolve_left hva
      rw [hasid, TlbEntry.fencedBy_iff (hplain j).entry hva]
      exact hpages hva hasid j b hcovers
end Tlbs

/-- In every state that is reached, after a fence no lookup hits exactly if the first level is as a
fence takes for granted. -/
theorem Mmu.fence_iff {cfg : MmuConfig} {m : Mmu} (hm : m.Reachable cfg) (k : L1Id) (va : Addr)
    (asid : BitVec 16) :
    ∃ m', m.demapTlb k va asid = .ok m' ∧
      ((m'.tlbs k).Misses va asid ↔ (m.tlbs k).Fenceable va asid) := by
  have hplain : ∀ i, ((m.tlbs k).l1.arr.slot i).Plain := hm.plain.tlbs k none
  have hdirect := directOnly_of_plain hplain
  by_cases hboth : va ≠ 0 ∧ asid ≠ 0
  · obtain ⟨t, ht, hwhole, hl1, hl2⟩ := (hm.whole.tlbs k).fenceOne hdirect hboth.1 hboth.2
    refine ⟨m.setTlbs k t, by rw [demapTlb, ht], ?_⟩
    rw [tlbs_setTlbs]
    exact Tlbs.misses_iff_one hdirect hboth.1 hboth.2 hwhole hl1 hl2
  · obtain ⟨t, ht, hwhole, hl1, hl2⟩ := (hm.whole.tlbs k).fenceMany hboth
    refine ⟨m.setTlbs k t, by rw [demapTlb, ht], ?_⟩
    rw [tlbs_setTlbs]
    exact Tlbs.misses_iff_many hplain hboth hwhole hl1 hl2

/-! ### Two entries for one page -/

def smallLoad : List MmuEvent :=
  loadAndRead 0 0x200000 (fun i => if i = 0 then ⟨0x801⟩ else ⟨0⟩) ++
    [lineArrives fun i => if i = 1 then ⟨0x80043⟩ else ⟨0⟩]

def afterSmallLoad : Mmu :=
  ((Mmu.init smallMmu).run smallMmu smallLoad).toOption.getD (Mmu.init smallMmu)

/-- A loaded page is found, and after the fence it is not. -/
theorem smallLoad_fenced :
    ((afterSmallLoad.l1 .dtb).lookup 0x200000 1 true false .direct).1 = some 0 ∧
      ∃ m', afterSmallLoad.demapTlb .dtb 0x200000 1 = .ok m' ∧
        (m'.tlbs .dtb).Misses 0x200000 1 := by
  have hrun : (Mmu.init smallMmu).run smallMmu smallLoad = .ok afterSmallLoad := rfl
  obtain ⟨m', hm', hiff⟩ :=
    Mmu.fence_iff (Mmu.Reachable.init.run hrun) .dtb 0x200000 1
  refine ⟨rfl, m', hm', hiff.mpr ⟨fun _ _ i j hi hj => ?_, fun _ h => absurd h (by decide)⟩⟩
  -- the second of the two slots is not in use
  have hslot {i : ℕ} (hi : ((afterSmallLoad.l1 .dtb).arr.slot i).covers
      (buildKey 0x200000 1 .direct) = true) : i = 0 := by
    have hlt : i < 2 := lt_of_covers hi
    interval_cases i
    · rfl
    · cases hi
  rw [hslot hi, hslot hj]

/-- The pointer leaves the second level when another line of the root table is read; a load nearby
then finds that the root table has a gigabyte page in its place. -/
def overlapLoads : List MmuEvent :=
  smallLoad ++ loadAndRead 1 0x200000000 (fun i => if i = 0 then ⟨0x801⟩ else ⟨0⟩) ++
    [lineArrives fun _ => ⟨0⟩] ++
    loadAndRead 2 0x400000 fun i => if i = 0 then ⟨0x10000043⟩ else ⟨0⟩

/-- A fence for the page removes the gigabyte page, and the next lookup hits the smaller one. -/
theorem overlap_survives :
    ((Mmu.init smallMmu).run smallMmu overlapLoads).toOption.bind (fun m =>
      (m.demapTlb .dtb 0x200000 1).toOption.map fun m' =>
        (((m.l1 .dtb).lookup 0x200000 1 true false .direct).1,
          ((m'.l1 .dtb).lookup 0x200000 1 true false .direct).1)) =
    some (some 1, some 0) :=
  rfl

end Gem5
