import Gem5.Mmu.Slots
import Gem5.Mmu.Paging

/-!
# Cached pages and cached page table entries

An entry of a TLB stores a page table entry, from which permissions are taken, and the page, to
which addresses are translated.  An insertion that finds an entry in its place replaces the first
and keeps the second.
-/

namespace Gem5
open List TlbOp

structure Insertion where
  before : Tlbs
  op : TlbOp
  after : Tlbs

/-- An entry is refreshed only with the page that it has. -/
def Insertion.Faithful (x : Insertion) : Prop :=
  ∀ old, x.op.refreshed x.before = some old → old.paddr = x.op.entry.pte.ppn

def Tlbs.insertions (cfg : MmuConfig) : List TlbOp → Tlbs → List Insertion
  | [], _ => []
  | op :: ops, s =>
    match op.exec cfg s with
    | .error _ => []
    | .ok t => ⟨s, op, t⟩ :: insertions cfg ops t

namespace Mmu
def insertions (cfg : MmuConfig) (m : Mmu) : List MmuEvent → List Insertion
  | [] => []
  | event :: events =>
    (m.tlbs event.tlb).insertions cfg (m.ops cfg event) ++
      match m.step cfg event with
      | .error _ => []
      | .ok m => m.insertions cfg events

def states (cfg : MmuConfig) (m : Mmu) : List MmuEvent → List Mmu
  | [] => [m]
  | event :: events =>
    m :: match m.step cfg event with
      | .error _ => []
      | .ok m => m.states cfg events
end Mmu

/-- Every linked entry agrees with its page table entry. -/
def Tlbs.Agrees (s : Tlbs) : Prop :=
  ∀ k i, ((s.array k).slot i).linked = true → ((s.array k).slot i).entry.Agrees

def Mmu.Agrees (m : Mmu) : Prop :=
  ∀ k, (m.tlbs k).Agrees

def Tlbs.AllAgree (s : Tlbs) : Prop :=
  ∀ k i, ((s.array k).slot i).entry.Agrees

def Mmu.AllAgree (m : Mmu) : Prop :=
  ∀ k, (m.tlbs k).AllAgree

/-! ### What is kept -/

theorem TlbEntry.SameMapping.agrees {e f : TlbEntry} (h : e.SameMapping f) (he : e.Agrees) :
    f.Agrees := by
  obtain ⟨_, _, _, rfl⟩ := h
  exact he

theorem Tlbs.Quiet.allAgree {s t : Tlbs} (h : s.Quiet t) (hs : s.AllAgree) : t.AllAgree :=
  fun k i => ((h k).slot i).entry.agrees (hs k i)

theorem Mmu.Quiet.allAgree {m m' : Mmu} (h : m.Quiet m') (hm : m.AllAgree) : m'.AllAgree :=
  fun k => (h k).allAgree (hm k)

theorem Tlbs.AllAgree.agrees {s : Tlbs} (h : s.AllAgree) : s.Agrees := fun k i _ => h k i

theorem Mmu.init_allAgree (cfg : MmuConfig) : (Mmu.init cfg).AllAgree :=
  Mmu.forall_init (fun x => x.entry.Agrees) TlbEntry.default_agrees cfg

section
variable {cfg : MmuConfig} {op : TlbOp} {s t : Tlbs}

theorem TlbOp.exec_allAgree (h : op.exec cfg s = .ok t) (hs : s.AllAgree) (hop : op.entry.Agrees)
    (hfaithful : (Insertion.mk s op t).Faithful) : t.AllAgree := by
  intro k i
  cases (exec_changes h k).2 i with
  | quiet hquiet => exact hquiet.entry.agrees (hs k i)
  | placed seq hnew =>
    rw [hnew]
    exact hop
  | refreshed hold hhandle hentry =>
    have hpage : ((s.array k).slot i).entry.paddr = op.entry.pte.ppn := hfaithful _ hold
    exact hentry.agrees hpage

theorem TlbOp.exec_refreshed {old : TlbEntry}
    (h : op.exec cfg s = .ok t) (hold : op.refreshed s = some old) :
    ∃ k i, ((t.array k).slot i).linked = true ∧ ((t.array k).slot i).entry.paddr = old.paddr ∧
      ((t.array k).slot i).entry.pte = op.entry.pte := by
  -- in an array: the entry that is found is in use
  have harray {a b : TlbArray} {key : Addr} {i : ℕ} {pte : PTE} (hfind : a.find key = some i)
      (hmarked : a.Marked b) (hi : (a.slot i).entry = old) :
      ((b.update i fun e => { e with pte := pte }).slot i).linked = true ∧
        ((b.update i fun e => { e with pte := pte }).slot i).entry.paddr = old.paddr ∧
        ((b.update i fun e => { e with pte := pte }).slot i).entry.pte = pte := by
    obtain ⟨hlt, hcovers⟩ := TlbArray.covers_of_find hfind
    rw [← hmarked.length] at hlt
    rw [TlbArray.update, TlbArray.slot_set hlt]
    refine ⟨?_, ?_, rfl⟩
    · rw [TlbSlot.linked]
      rw [← hmarked.covers, TlbSlot.covers] at hcovers
      cases hhandle : (b.slot i).trieHandle with
      | none =>
        rw [hhandle] at hcovers
        cases hcovers
      | some n => rfl
    · obtain ⟨seq, used, sign, heq⟩ := hmarked.entry i
      rw [heq, hi]
  cases op with
  | insert e =>
    rw [refreshed, Option.map_eq_some_iff] at hold
    obtain ⟨i, hfind, hi⟩ := hold
    simp only [exec, L1Tlb.insert, hfind] at h
    cases h
    exact ⟨none, i, harray hfind (.refl _) hi⟩
  | l2Insert page e sign =>
    rw [refreshed, Option.map_eq_some_iff] at hold
    obtain ⟨i, hhit, hi⟩ := hold
    have hfind : (s.l2.arrays page.array).find (buildKey (page.pageOf e.vaddr) e.asid .direct) =
        some i := (Option.filter_eq_some_iff.mp hhit).1
    simp only [exec, L2Tlb.l2TLBInsertIn] at h
    rcases hlookup : s.l2.lookupL2TLB e.vaddr e.asid true page false .direct with m | ⟨found, u⟩
    · rw [hlookup] at h
      cases h
    obtain ⟨rfl, hmarked⟩ := L2Tlb.lookupL2TLB_spec hlookup
    rw [hhit] at hlookup
    simp only [hlookup] at h
    split at h
    · cases h
    rename_i l2 hl2
    cases h
    split_ifs at hl2
    cases hl2
    refine ⟨some page.array, i, ?_⟩
    simp only [Tlbs.array, L2Tlb.setArray_self]
    exact harray hfind (hmarked _) hi
end

/-! ### What walks insert -/

namespace Walk
variable {cfg : MmuConfig} {w w' : Walk} {line : PteLine} {fault : Option MMUFault}
  {ops : List TlbOp}

theorem lineOps_agree {level : ℕ} {page : Option L2Page} :
    ∀ op ∈ w.lineOps cfg line level page, op.entry.Agrees := by
  intro op hop
  cases page with
  | none => cases hop
  | some page =>
    obtain ⟨i, -, rfl⟩ := mem_map.mp hop
    rfl

theorem leafOps_agree (pte : PTE) : ∀ op ∈
    ({ w with entry := w.leafEntry pte } : Walk).leafOps cfg line, op.entry.Agrees := by
  intro op hop
  rw [leafOps, mem_append] at hop
  rcases hop with hop | hop
  · split_ifs at hop
    · rw [mem_singleton.mp hop]
      rfl
    · cases hop
  · exact lineOps_agree op hop

theorem stepWalk_agree {pmp : Option MMUFault}
    (h : w.stepWalk cfg line pmp = .ok (fault, ops, w')) : ∀ op ∈ ops, op.entry.Agrees := by
  cases stepWalk_result h with
  | fault f hn => exact forall_mem_nil _
  | denied hn => exact forall_mem_nil _
  | nextline base e hn hlevel he =>
    intro op hop
    obtain ⟨i, -, rfl⟩ := mem_map.mp hop
    rw [TlbOp.entry, he i]
    rfl
  | pointer level pte shift next hn hlevel => exact lineOps_agree
  | functional pte hn hf => exact forall_mem_nil _
  | leaf pte hn hf => exact leafOps_agree pte
  | leafNextline pte vaddr next hn hf hforward hback => exact leafOps_agree pte
end Walk

theorem Mmu.ops_agree (cfg : MmuConfig) {m : Mmu} (hm : m.AllAgree) (event : MmuEvent) :
    ∀ op ∈ m.ops cfg event, op.entry.Agrees :=
  forall_ops hm (fun _ _ _ _ _ _ _ _ hstep => Walk.stepWalk_agree hstep) event

/-! ### Runs -/

namespace Tlbs
variable {cfg : MmuConfig} {ops : List TlbOp} {s t : Tlbs}

theorem exec_of_mem_insertions {x : Insertion} (h : x ∈ s.insertions cfg ops) :
    x.op.exec cfg x.before = .ok x.after := by
  induction ops generalizing s with
  | nil => cases h
  | cons op ops ih =>
    unfold insertions at h
    split at h
    · cases h
    rename_i u hexec
    rcases mem_cons.mp h with rfl | h
    · exact hexec
    · exact ih h

theorem insertions_allAgree (hs : s.AllAgree) (hops : ∀ op ∈ ops, op.entry.Agrees)
    (hfaithful : ∀ x ∈ s.insertions cfg ops, x.Faithful) :
    (∀ x ∈ s.insertions cfg ops, x.after.AllAgree) ∧
      ∀ t, s.execAll cfg ops = .ok t → t.AllAgree := by
  induction ops generalizing s with
  | nil =>
    refine ⟨forall_mem_nil _, fun t h => ?_⟩
    cases h
    exact hs
  | cons op ops ih =>
    unfold insertions at hfaithful ⊢
    cases hexec : op.exec cfg s with
    | error m =>
      refine ⟨forall_mem_nil _, fun t h => ?_⟩
      rw [execAll, foldlM_cons, hexec] at h
      cases h
    | ok u =>
      simp only [hexec] at hfaithful
      rw [forall_mem_cons] at hfaithful hops
      have hu : u.AllAgree := op.exec_allAgree hexec hs hops.1 hfaithful.1
      obtain ⟨hinsertions, hend⟩ := ih hu hops.2 hfaithful.2
      refine ⟨forall_mem_cons.mpr ⟨hu, hinsertions⟩, fun t h => ?_⟩
      rw [execAll, foldlM_cons, hexec] at h
      exact hend t h
end Tlbs

namespace Mmu
variable {cfg : MmuConfig} {m m' : Mmu}

theorem step_allAgree {event : MmuEvent} (hm : m.AllAgree) (h : m.step cfg event = .ok m')
    (hfaithful : ∀ x ∈ (m.tlbs event.tlb).insertions cfg (m.ops cfg event), x.Faithful) :
    m'.AllAgree := by
  obtain ⟨s, hexec, hquiet⟩ := step_tlbs h
  have hs : s.AllAgree :=
    (Tlbs.insertions_allAgree (hm event.tlb) (m.ops_agree cfg hm event) hfaithful).2 s hexec
  exact hquiet.allAgree (forall_setTlbs (fun x => x.entry.Agrees) hm hs)

theorem exec_of_mem_runInsertions {events : List MmuEvent} {x : Insertion}
    (h : x ∈ m.insertions cfg events) : x.op.exec cfg x.before = .ok x.after := by
  induction events generalizing m with
  | nil => cases h
  | cons event events ih =>
    rcases mem_append.mp h with h | h
    · exact Tlbs.exec_of_mem_insertions h
    · split at h
      · cases h
      · exact ih h

theorem run_allAgree {events : List MmuEvent} (hm : m.AllAgree)
    (hfaithful : ∀ x ∈ m.insertions cfg events, x.Faithful) :
    (∀ m' ∈ m.states cfg events, m'.AllAgree) ∧
      ∀ x ∈ m.insertions cfg events, x.after.AllAgree := by
  induction events generalizing m with
  | nil =>
    refine ⟨fun m' h => ?_, forall_mem_nil _⟩
    rw [mem_singleton.mp h]
    exact hm
  | cons event events ih =>
    unfold insertions at hfaithful ⊢
    unfold states
    rw [forall_mem_append] at hfaithful
    have hinsertions := (Tlbs.insertions_allAgree (hm event.tlb) (m.ops_agree cfg hm event)
      hfaithful.1).1
    cases hstep : m.step cfg event with
    | error e =>
      refine ⟨fun m' h => ?_, ?_⟩
      · rw [mem_singleton.mp h]
        exact hm
      · rw [append_nil]
        exact hinsertions
    | ok m₁ =>
      simp only [hstep] at hfaithful
      obtain ⟨hstates, hrest⟩ := ih (step_allAgree hm hstep hfaithful.1) hfaithful.2
      exact ⟨forall_mem_cons.mpr ⟨hm, hstates⟩, forall_mem_append.mpr ⟨hinsertions, hrest⟩⟩

/-- Over every run, the entries in use of all TLBs agree, at each moment, exactly if every
insertion that found an entry found it with the page of the new page table entry. -/
theorem cached_agree_iff (cfg : MmuConfig) (events : List MmuEvent) :
    ((∀ m ∈ (init cfg).states cfg events, m.Agrees) ∧
      ∀ x ∈ (init cfg).insertions cfg events, x.after.Agrees) ↔
    ∀ x ∈ (init cfg).insertions cfg events, x.Faithful := by
  constructor
  · rintro ⟨-, hafter⟩ x hx old hold
    obtain ⟨k, i, hlinked, hpaddr, hpte⟩ :=
      exec_refreshed (exec_of_mem_runInsertions hx) hold
    have hagrees := hafter x hx k i hlinked
    rw [TlbEntry.Agrees, hpaddr, hpte] at hagrees
    exact hagrees
  · intro hfaithful
    obtain ⟨hstates, hinsertions⟩ := run_allAgree (init_allAgree cfg) hfaithful
    exact ⟨fun m hm k => (hstates m hm k).agrees, fun x hx => (hinsertions x hx).agrees⟩
end Mmu

/-! ### A page that is kept -/

def loadOf (vaddr : Addr) : XlateReq where
  vaddr := vaddr
  mode := .read
  satp := ⟨.sv39, 1, 1⟩
  status := ⟨false, false⟩
  pmode := .supervisor

def plainChoices : XlateChoices where
  regulate := false
  forwardPre := false
  backPre := false
  sent := true
  sentForward := true
  sentBack := true

def lineArrives (line : PteLine) : MmuEvent :=
  .response .dtb 0 line none true fun _ _ => none

def loadAndRead (id : ℕ) (vaddr : Addr) (line : PteLine) : List MmuEvent :=
  [.translate .dtb id (loadOf vaddr) plainChoices, lineArrives line]

/-- Two gigabyte pages of one line are read, the second when it has just become valid.  The second
level then has its page table entry with the page `0` that was there before, and an access that the
entry permits goes to that page. -/
theorem stalePage_kept :
    ((Mmu.init smallMmu).run smallMmu
      (loadAndRead 0 0x123 (fun i => if i = 0 then ⟨0x10000043⟩ else ⟨0⟩) ++
        loadAndRead 1 0x40000123
          (fun i => if i = 0 then ⟨0x10000043⟩ else if i = 1 then ⟨0x20000043⟩ else ⟨0⟩) ++
        [.flushL1 .dtb, .translate .dtb 2 (loadOf 0x40000123) plainChoices])).toOption.map
      (fun m => (((m.l2.arrays .sp).slot 1).linked, ((m.l2.arrays .sp).slot 1).entry.paddr,
        ((m.l2.arrays .sp).slot 1).entry.pte.ppn,
        (m.walkers .dtb).l2TLBrequestors.map fun h => h.paddr)) =
    some (true, 0, 0x80000, [0x123]) :=
  rfl
end Gem5
