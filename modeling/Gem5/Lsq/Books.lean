import Gem5.Lsq.Refine

/-!
# The bookkeeping of the store buffer

The slots of the store buffer are free, mapped, waiting for eviction, blocked, being sent, or the
vice of a slot that is being sent.  Every operation keeps the count of the slots, so that a slot
that is not free is valid; with the invariant of the entries this is all of the bookkeeping.  The
one assertion that does not follow is that of a load which reads from a vice: the vice has to be of
the virtual line of the entry, and the map knows physical lines only.
-/

namespace Gem5
open Finset

namespace SbState
variable {c : SbConfig} {s t : SbState c}

/-! ### The number of slots -/

def slots (s : SbState c) : ℕ := s.freeList.length + s.size

theorem getEmpty_slots {i : Fin c.ways} (h : s.getEmpty = .ok (i, t)) :
    t.slots + 1 = s.slots ∧ t.size = s.size := by
  unfold getEmpty at h
  cases hlast : s.freeList.getLast? with
  | none =>
    rw [hlast] at h
    cases h
  | some j =>
    rw [hlast] at h
    cases h
    have hne : s.freeList ≠ [] := by
      intro hnil
      rw [hnil] at hlast
      cases hlast
    have hpos := List.length_pos_iff.2 hne
    refine ⟨?_, rfl⟩
    simp only [slots, List.length_dropLast]
    omega

theorem insert_slots {i : Fin c.ways} (h : s.insert i = .ok t) : t.slots = s.slots + 1 := by
  unfold SbState.insert at h
  split_ifs at h
  cases h
  rfl

theorem createVice_slots {i v : Fin c.ways} (h : s.createVice i = .ok (v, t)) :
    t.slots = s.slots := by
  unfold createVice at h
  cases hempty : s.getEmpty with
  | error e =>
    rw [hempty] at h
    cases h
  | ok r =>
    obtain ⟨w, u⟩ := r
    rw [hempty] at h
    dsimp only at h
    split_ifs at h
    cases h
    obtain ⟨hslots, hsize⟩ := getEmpty_slots hempty
    simp only [slots, setEntry] at hslots ⊢
    omega

theorem release_slots {i : Fin c.ways} (h : s.release i = .ok t) : t.slots = s.slots := by
  unfold release at h
  split_ifs at h with hsize hfree
  have hcount : (s.freeList ++ [i]).length + (s.size - 1) = s.slots := by
    simp only [slots, List.length_append, List.length_singleton]
    omega
  cases hvice : (s.dataVec i).vice with
  | none =>
    rw [hvice] at h
    cases h
    exact hcount
  | some v =>
    rw [hvice] at h
    dsimp only at h
    split_ifs at h
    cases h
    exact hcount

section
variable {tid : Fin c.numThreads}

theorem insertStoreBuffer_slots {p : StorePiece c} {b : Bool}
    (h : s.insertStoreBuffer tid p = .ok (b, t)) : t.slots = s.slots := by
  unfold insertStoreBuffer at h
  by_cases hline : c.block p.vaddr ≠ c.block (p.vaddr + p.datas.length - 1)
  · rw [if_pos hline] at h
    cases h
  rw [if_neg hline] at h
  cases hget : s.get tid (c.block p.paddr) with
  | error e =>
    rw [hget] at h
    cases h
  | ok found =>
    rw [hget] at h
    cases found with
    | none =>
      by_cases hfull : s.full = true
      · simp only [hfull, if_true] at h
        cases h
        rfl
      · simp only [hfull] at h
        cases hempty : s.getEmpty with
        | error e =>
          rw [hempty] at h
          cases h
        | ok r =>
          obtain ⟨i, u⟩ := r
          rw [hempty] at h
          dsimp only at h
          cases hins : (u.setEntry i ((u.dataVec i).reset tid p)).insert i with
          | error e =>
            rw [hins] at h
            cases h
          | ok u' =>
            rw [hins] at h
            cases h
            have h₁ := (getEmpty_slots hempty).1
            have h₂ := insert_slots hins
            simp only [slots, setEntry] at h₁ h₂ ⊢
            omega
    | some i =>
      by_cases hsend : (s.dataVec i).sending = true
      · simp only [hsend] at h
        cases hvice : (s.dataVec i).vice with
        | some v =>
          simp only [hvice] at h
          cases hmerge : (s.dataVec v).merge p with
          | error e =>
            rw [hmerge] at h
            cases h
          | ok e =>
            rw [hmerge] at h
            cases h
            rfl
        | none =>
          simp only [hvice] at h
          by_cases hfull : s.full = true
          · rw [if_pos hfull] at h
            cases h
            rfl
          · rw [if_neg hfull] at h
            cases hnew : s.createVice i with
            | error e =>
              rw [hnew] at h
              cases h
            | ok r =>
              obtain ⟨v, u⟩ := r
              rw [hnew] at h
              cases h
              have hu := createVice_slots hnew
              exact hu
      · simp only [hsend] at h
        cases hup : s.update i with
        | error e =>
          rw [hup] at h
          cases h
        | ok u =>
          rw [hup] at h
          have hu : u.slots = s.slots := by
            unfold update at hup
            split_ifs at hup
            cases hup
            rfl
          dsimp only at h
          cases hmerge : (u.dataVec i).merge p with
          | error e =>
            rw [hmerge] at h
            cases h
          | ok e =>
            rw [hmerge] at h
            cases h
            exact hu

theorem insertPieces_slots {ps left : List (StorePiece c)}
    (h : insertPieces tid ps s = .ok (left, t)) : t.slots = s.slots := by
  induction ps generalizing s with
  | nil =>
    cases h
    rfl
  | cons p ps ih =>
    rw [insertPieces] at h
    cases hins : s.insertStoreBuffer tid p with
    | error e =>
      rw [hins] at h
      cases h
    | ok r =>
      obtain ⟨b, u⟩ := r
      rw [hins] at h
      have hu := insertStoreBuffer_slots hins
      cases b with
      | false =>
        cases h
        exact hu
      | true => exact (ih h).trans hu

theorem offload_slots (h : s.offload tid = .ok t) : t.slots = s.slots := by
  unfold offload at h
  split_ifs at h
  · cases h
    rfl
  · split at h
    · cases h
      rfl
    · rename_i store rest _
      cases hins : insertPieces tid store s with
      | error e =>
        rw [hins] at h
        cases h
      | ok r =>
        obtain ⟨left, u⟩ := r
        rw [hins] at h
        cases h
        have hu := insertPieces_slots hins
        exact hu
end

theorem getEvict_slots {i : Fin c.ways} (h : s.getEvict = .ok (i, t)) : t.slots = s.slots := by
  unfold getEvict at h
  cases hlast : s.lruIndex.getLast? with
  | none =>
    rw [hlast] at h
    cases h
  | some j =>
    rw [hlast] at h
    dsimp only at h
    split_ifs at h
    cases h
    rfl

theorem storeBufferWriteback_slots {canEvict evict sent : Bool}
    (h : s.storeBufferWriteback canEvict evict sent = .ok t) : t.slots = s.slots := by
  unfold storeBufferWriteback at h
  by_cases hcan : canEvict = true
  · simp only [hcan, Bool.not_true, Bool.false_eq_true, if_false] at h
    cases hblocked : s.blockedSbufferEntry with
    | some i =>
      simp only [hblocked] at h
      cases h
      cases sent <;> rfl
    | none =>
      simp only [hblocked] at h
      by_cases hidle : (s.lruIndex.isEmpty || !evict) = true
      · rw [if_pos hidle] at h
        cases h
        rfl
      · rw [if_neg hidle] at h
        cases hev : s.getEvict with
        | error e =>
          rw [hev] at h
          cases h
        | ok r =>
          obtain ⟨i, u⟩ := r
          rw [hev] at h
          have hu := getEvict_slots hev
          dsimp only at h
          split_ifs at h
          · cases h
            exact hu
          · cases h
            exact hu
  · rw [Bool.not_eq_true] at hcan
    rw [hcan] at h
    cases h
    rfl

theorem step_slots {e : SbEvent c} (h : s.step e = .ok t) : t.slots = s.slots := by
  cases e with
  | commitStore tid store =>
    cases h
    rfl
  | offload tid => exact offload_slots h
  | writeback canEvict evict sent => exact storeBufferWriteback_slots h
  | cacheApply i =>
    have h' : s.cacheApply i = .ok t := h
    unfold cacheApply at h'
    split at h'
    · cases h'
      rfl
    · cases h'
  | complete i =>
    have h' : s.completeSbufferEvict i = .ok t := h
    unfold completeSbufferEvict at h'
    split_ifs at h'
    have hu := release_slots h'
    exact hu

theorem run_slots {es : List (SbEvent c)} (h : run es s = .ok t) : t.slots = s.slots := by
  induction es generalizing s with
  | nil =>
    cases h
    rfl
  | cons e es ih =>
    rw [run] at h
    cases hstep : s.step e with
    | error err =>
      rw [hstep] at h
      cases h
    | ok u =>
      rw [hstep] at h
      exact (ih h).trans (step_slots hstep)

/-! ### The bookkeeping -/

structure BookKept (s : SbState c) : Prop where
  size_eq : s.size = (Finset.univ.filter fun i => s.dataVld i = true).card
  /-- Every slot is free, and then once and not valid, or it is valid. -/
  free_or_valid : ∀ i, s.freeList.count i = if s.dataVld i then 0 else 1
  /-- The order of eviction has the mapped entries that are neither being sent nor blocked. -/
  lru : ∀ i, i ∈ s.lruIndex ↔
    s.Mapped i ∧ (s.dataVec i).sending = false ∧ s.blockedSbufferEntry ≠ some i
  lru_nodup : s.lruIndex.Nodup
  /-- One mapped entry for a thread and a line, -/
  mapped_unique : ∀ i j, s.Mapped i → s.Mapped j → (s.dataVec i).tid = (s.dataVec j).tid →
    (s.dataVec i).blockPaddr = (s.dataVec j).blockPaddr → i = j
  /-- and one vice, for a mapped entry that is being sent. -/
  vice_unique : ∀ i j v w, s.Mapped i → s.Mapped j → (s.dataVec i).vice = some v →
    (s.dataVec j).vice = some w → (s.dataVec v).tid = (s.dataVec w).tid →
    (s.dataVec v).blockPaddr = (s.dataVec w).blockPaddr → v = w

/-- No load that hits fails an assertion. -/
def LoadsForward (s : SbState c) : Prop :=
  ∀ (T : Fin c.numThreads) (ld : LoadPiece c) (i : Fin c.ways),
    s.get T (c.block ld.paddr) = .ok (some i) → ∃ r, s.recordForward i ld = .ok r

theorem BufInv.mem_freeList (hs : s.BufInv) (hslots : s.slots = c.ways) {i : Fin c.ways}
    (hi : s.dataVld i = false) : i ∈ s.freeList := by
  classical
  have hdisj : Disjoint s.freeList.toFinset
      (univ.filter fun i => s.dataVld i = true) := by
    rw [disjoint_left]
    intro j hj hvld
    have hfree := hs.free (List.mem_toFinset.1 hj)
    rw [(mem_filter.1 hvld).2] at hfree
    cases hfree
  have hcard : (s.freeList.toFinset ∪ univ.filter fun i => s.dataVld i = true).card =
      c.ways := by
    rw [card_union_of_disjoint hdisj, List.toFinset_card_of_nodup hs.free_nodup, ← hs.size_eq]
    exact hslots
  have hall : s.freeList.toFinset ∪ (univ.filter fun i => s.dataVld i = true) =
      univ := by
    apply eq_univ_of_card
    rw [hcard, Fintype.card_fin]
  have hmem : i ∈ s.freeList.toFinset ∪ univ.filter fun i => s.dataVld i = true := by
    rw [hall]
    exact mem_univ i
  rcases mem_union.1 hmem with h | h
  · exact List.mem_toFinset.1 h
  · rw [(mem_filter.1 h).2] at hi
    cases hi

theorem BufInv.bookKept (hs : s.BufInv) (hslots : s.slots = c.ways) : s.BookKept where
  size_eq := hs.size_eq
  free_or_valid i := by
    cases hvld : s.dataVld i with
    | true =>
      rw [if_pos rfl, List.count_eq_zero]
      intro hmem
      rw [hs.free hmem] at hvld
      cases hvld
    | false =>
      exact List.count_eq_one_of_mem hs.free_nodup (hs.mem_freeList hslots hvld)
  lru i := by
    constructor
    · intro hi
      obtain ⟨hm, hsend, hreq⟩ := hs.lru hi
      refine ⟨hm, hsend, ?_⟩
      intro hblocked
      have hreq' := (hs.blocked hblocked).2.2
      rw [hreq] at hreq'
      cases hreq'
    · rintro ⟨hm, hsend, hblocked⟩
      exact (hs.unsent hm hsend).resolve_right hblocked
  lru_nodup := hs.lru_nodup
  mapped_unique i j hi hj ht hB := hi.eq hj ht hB
  vice_unique i j v w hi hj hv hw ht hB := by
    have hv' := (hs.vice hi hv).2
    have hw' := (hs.vice hj hw).2
    have hij : i = j := by
      apply hi.eq hj
      · rw [← hv'.tid_eq, ← hw'.tid_eq, ht]
      · rw [← hv'.block_eq, ← hw'.block_eq, hB]
    subst hij
    rw [hv] at hw
    exact Option.some.inj hw

theorem BufInv.loadsForward_iff (hs : s.BufInv) : s.LoadsForward ↔ s.NoSynonym := by
  constructor
  · intro h i v o hm hv ho hmask
    by_contra hne
    have hB := hs.aligned hm
    have hblock : c.block (byteLoad (s.dataVec i).blockPaddr o hB ho).paddr =
      (s.dataVec i).blockPaddr := (SbConfig.block_offset_of_lt hB ho).1
    have hget := hs.get_eq (hs.tid_lt hm) hB
    rw [← key, hm, ← hblock] at hget
    obtain ⟨r, hr⟩ := h ⟨(s.dataVec i).tid, hs.tid_lt hm⟩ _ i hget
    rw [recordForward_synonym hB ho hv hmask hne] at hr
    cases hr
  · intro hsyn T ld i hget
    rw [hs.get_eq T.2 (c.dvd_block _)] at hget
    exact ⟨_, hs.recordForward_ok hsyn (Except.ok.inj hget)⟩

/-- **The bookkeeping never breaks, but for synonyms.**  In every run, with any number of threads
and slots and any translation, no assertion of the store buffer fails and the bookkeeping is kept;
and no load fails an assertion exactly if no entry has a vice with bytes from another virtual
line. -/
theorem bookKept_run (m : ℕ → UInt8) (es : List (SbEvent c))
    (hes : allPossible es (start m) = true) :
    ∃ s, run es (start m) = .ok s ∧ s.BookKept ∧ (s.LoadsForward ↔ s.NoSynonym) := by
  obtain ⟨s, hrun, hsim, -⟩ := (simInv_start m).run_sim hes
  have hslots : s.slots = c.ways := by
    rw [run_slots hrun]
    simp [slots, start]
  exact ⟨s, hrun, hsim.buf.bookKept hslots, hsim.buf.loadsForward_iff⟩

/-- The store of a line, sent, and a second store to it through the same virtual line. -/
theorem doubled_bookKept :
    ∃ s, run (doubled 0) (start fun _ => 0) = .ok s ∧ s.BookKept ∧ s.LoadsForward := by
  obtain ⟨s, hrun, hkept, hiff⟩ := bookKept_run (fun _ => 0) (doubled 0) rfl
  refine ⟨s, hrun, hkept, hiff.2 ?_⟩
  intro i v _ _ _ _ _
  rw [doubled_blockVaddr hrun i, doubled_blockVaddr hrun v]

/-- Through a line of another virtual page: the load of the byte fails the assertion on the vice. -/
theorem doubled_forward_fails :
    allPossible (doubled 64) (start fun _ => 0) = true ∧
    ∃ s, run (doubled 64) (start fun _ => 0) = .ok s ∧
      s.get thread0 (twoWays.block firstByte.paddr) = .ok (some way1) ∧
      s.recordForward way1 firstByte = .error "assert(vice->blockVaddr == blockVaddr)" :=
  ⟨rfl, _, rfl, rfl, rfl⟩

end SbState
end Gem5
