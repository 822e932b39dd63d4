import Gem5.Lsq.Entries

/-!
# Eviction and completion

What the way to the cache does to the entries of the store buffer.

No assert of the source fails in any of them.
-/

namespace Gem5
open List Function SbEntry Option
open Overlay (stack nothing layOver)
variable {c : SbConfig}

namespace SbState
variable {s t : SbState c} {i j v : Fin c.ways} {init : List (Fin c.ways)}

/-! ### Eviction -/

structure SameBytes (s t : SbState c) : Prop where
  tid (i : Fin c.ways) : (t.dataVec i).tid = (s.dataVec i).tid
  blockVaddr (i : Fin c.ways) : (t.dataVec i).blockVaddr = (s.dataVec i).blockVaddr
  blockPaddr (i : Fin c.ways) : (t.dataVec i).blockPaddr = (s.dataVec i).blockPaddr
  valid (i : Fin c.ways) : (t.dataVec i).valid = (s.dataVec i).valid
  vice (i : Fin c.ways) : (t.dataVec i).vice = (s.dataVec i).vice
  dataMap : t.dataMap = s.dataMap
  cache : t.cache = s.cache
  applied : t.applied = s.applied
  offloaded : t.offloaded = s.offloaded
  storeQueue : t.storeQueue = s.storeQueue

namespace SameBytes
theorem refl (s : SbState c) : SameBytes s s :=
  ⟨fun _ => rfl, fun _ => rfl, fun _ => rfl, fun _ => rfl, fun _ => rfl, rfl, rfl, rfl, rfl, rfl⟩

theorem trans {u : SbState c} (h : SameBytes s t) (h' : SameBytes t u) : SameBytes s u where
  tid i := (h'.tid i).trans (h.tid i)
  blockVaddr i := (h'.blockVaddr i).trans (h.blockVaddr i)
  blockPaddr i := (h'.blockPaddr i).trans (h.blockPaddr i)
  valid i := (h'.valid i).trans (h.valid i)
  vice i := (h'.vice i).trans (h.vice i)
  dataMap := h'.dataMap.trans h.dataMap
  cache := h'.cache.trans h.cache
  applied := h'.applied.trans h.applied
  offloaded := h'.offloaded.trans h.offloaded
  storeQueue := h'.storeQueue.trans h.storeQueue

section
variable (h : SameBytes s t)
include h

theorem key (i : Fin c.ways) : t.key i = s.key i := by
  rw [SbState.key, SbState.key, h.tid, h.blockPaddr]

theorem mapped : t.Mapped i ↔ s.Mapped i := by
  rw [Mapped, Mapped, h.key, h.dataMap]

theorem live : t.Live j ↔ s.Live j := by
  simp only [Live, h.mapped, h.vice]

theorem buffered (T B : ℕ) : t.buffered T B = s.buffered T B := by
  rw [SbState.buffered, SbState.buffered, h.dataMap]
  cases s.dataMap (hashKey T B) with
  | none => rfl
  | some j => exact entryBytes_congr (h.vice j) (h.valid j) fun v _ => h.valid v
end
end SameBytes

def held (i : Fin c.ways) (init : List (Fin c.ways)) (s : SbState c) : SbState c :=
  { s.setEntry i { s.dataVec i with request := some (s.dataVec i).validMask } with
    lruIndex := init
    blockedSbufferEntry := some i }

def accepted (i : Fin c.ways) (s : SbState c) : SbState c :=
  { s.markSending i with blockedSbufferEntry := none }

theorem held_apply {α : Type} (f : SbEntry c → α)
    (hf : f { s.dataVec i with request := some (s.dataVec i).validMask } = f (s.dataVec i))
    (j : Fin c.ways) : f ((s.held i init).dataVec j) = f (s.dataVec j) := setEntry_apply f hf j

theorem accepted_apply {α : Type} (f : SbEntry c → α)
    (hf : f { s.dataVec i with sending := true } = f (s.dataVec i)) (j : Fin c.ways) :
    f ((s.accepted i).dataVec j) = f (s.dataVec j) := setEntry_apply f hf j

theorem sameBytes_held : SameBytes s (s.held i init) :=
  ⟨held_apply _ rfl, held_apply _ rfl, held_apply _ rfl, held_apply _ rfl, held_apply _ rfl, rfl,
    rfl, rfl, rfl, rfl⟩

theorem sameBytes_accepted : SameBytes s (s.accepted i) :=
  ⟨accepted_apply _ rfl, accepted_apply _ rfl, accepted_apply _ rfl, accepted_apply _ rfl,
    accepted_apply _ rfl, rfl, rfl, rfl, rfl, rfl⟩

theorem IsVice.of_sameBytes {w : Fin c.ways} (hv : s.IsVice j w) (h : SameBytes s t)
    (hm : s.Mapped i) (hvec : ∀ j, j ≠ i → t.dataVec j = s.dataVec j)
    (hvld : t.dataVld = s.dataVld) : t.IsVice j w := by
  refine hv.congr (hvec w ?_) (h.tid j) (h.blockPaddr j) (by rw [hvld]) ?_
  · rintro rfl
    exact hv.not_mapped hm
  · rw [h.mapped]
    exact hv.not_mapped

theorem BufInv.held (hs : s.BufInv) (hlru : s.lruIndex = init ++ [i])
    (hblocked : s.blockedSbufferEntry = none) : (s.held i init).BufInv := by
  have hmem : i ∈ s.lruIndex := by rw [hlru]; exact mem_concat_self
  obtain ⟨hm, hsend, _⟩ := hs.lru hmem
  have hsame : SameBytes s (s.held i init) := sameBytes_held
  have hvec (j : Fin c.ways) (hj : j ≠ i) : (s.held i init).dataVec j = s.dataVec j :=
    setEntry_of_ne hj _ s
  have hnodup := hs.lru_nodup
  rw [hlru] at hnodup
  constructor
  case map =>
    intro k j hk
    rw [hsame.key]
    exact hs.map hk
  case crossRef =>
    intro j hj
    rw [hsame.key]
    exact hs.crossRef (hsame.mapped.1 hj)
  case vld => exact fun hj => hs.vld (hsame.mapped.1 hj)
  case tid_lt =>
    intro j hj
    rw [hsame.tid]
    exact hs.tid_lt (hsame.mapped.1 hj)
  case aligned =>
    intro j hj
    rw [hsame.blockPaddr]
    exact hs.aligned (hsame.mapped.1 hj)
  case vice =>
    intro j w hj hw
    rw [hsame.vice] at hw
    obtain ⟨hsj, hvj⟩ := hs.vice (hsame.mapped.1 hj) hw
    exact ⟨by rw [held_apply sending rfl, hsj], hvj.of_sameBytes hsame hm hvec rfl⟩
  case free => exact hs.free
  case free_nodup => exact hs.free_nodup
  case lru =>
    intro j hj
    have hji : j ≠ i := by
      rintro rfl
      exact (nodup_append.1 hnodup).2.2 j hj j (mem_singleton_self j) rfl
    rw [hsame.mapped, hvec j hji]
    exact hs.lru (by rw [hlru]; exact mem_append_left _ hj)
  case lru_nodup => exact (nodup_append.1 hnodup).1
  case unsent =>
    intro j hj hsj
    rw [held_apply sending rfl] at hsj
    by_cases hji : j = i
    · subst hji
      exact .inr rfl
    · have hjl := (hs.unsent (hsame.mapped.1 hj) hsj).resolve_right (by simp [hblocked])
      rw [hlru, mem_append, mem_singleton] at hjl
      exact .inl (hjl.resolve_right hji)
  case blocked =>
    intro j hj
    obtain rfl : i = j := some.inj hj
    rw [hsame.mapped, held_apply sending rfl]
    refine ⟨hm, hsend, ?_⟩
    rw [SbState.held, setEntry_self]
  case sent =>
    intro j hj hsj
    rw [held_apply sending rfl] at hsj
    have hji : j ≠ i := by
      rintro rfl
      rw [hsend] at hsj
      cases hsj
    rw [hvec j hji]
    exact hs.sent (hsame.mapped.1 hj) hsj
  case inCache =>
    intro j
    rw [hsame.mapped, held_apply sending rfl]
    exact hs.inCache
  case applied => exact hs.applied
  case size_eq => exact hs.size_eq

theorem BufInv.accepted (hs : s.BufInv) (hblocked : s.blockedSbufferEntry = some i) :
    (s.accepted i).BufInv := by
  obtain ⟨hm, hsend, hreq⟩ := hs.blocked hblocked
  have hsame : SameBytes s (s.accepted i) := sameBytes_accepted
  have hvec (j : Fin c.ways) (hj : j ≠ i) : (s.accepted i).dataVec j = s.dataVec j :=
    setEntry_of_ne hj _ s
  have hself : ((s.accepted i).dataVec i).sending = true := by
    rw [SbState.accepted, markSending, setEntry_self]
  constructor
  case map =>
    intro k j hk
    rw [hsame.key]
    exact hs.map hk
  case crossRef =>
    intro j hj
    rw [hsame.key]
    exact hs.crossRef (hsame.mapped.1 hj)
  case vld => exact fun hj => hs.vld (hsame.mapped.1 hj)
  case tid_lt =>
    intro j hj
    rw [hsame.tid]
    exact hs.tid_lt (hsame.mapped.1 hj)
  case aligned =>
    intro j hj
    rw [hsame.blockPaddr]
    exact hs.aligned (hsame.mapped.1 hj)
  case vice =>
    intro j w hj hw
    rw [hsame.vice] at hw
    obtain ⟨hsj, hvj⟩ := hs.vice (hsame.mapped.1 hj) hw
    have hji : j ≠ i := by
      rintro rfl
      rw [hsend] at hsj
      cases hsj
    exact ⟨by rw [hvec j hji, hsj], hvj.of_sameBytes hsame hm hvec rfl⟩
  case free => exact hs.free
  case free_nodup => exact hs.free_nodup
  case lru =>
    intro j hj
    obtain ⟨hmj, hsj, hrj⟩ := hs.lru hj
    have hji : j ≠ i := by
      rintro rfl
      rw [hreq] at hrj
      cases hrj
    rw [hsame.mapped, hvec j hji]
    exact ⟨hmj, hsj, hrj⟩
  case lru_nodup => exact hs.lru_nodup
  case unsent =>
    intro j hj hsj
    have hji : j ≠ i := by
      rintro rfl
      rw [hself] at hsj
      cases hsj
    rw [hvec j hji] at hsj
    refine .inl ((hs.unsent (hsame.mapped.1 hj) hsj).resolve_right ?_)
    rw [hblocked, Option.some.injEq]
    exact Ne.symm hji
  case blocked =>
    intro j hj
    cases hj
  case sent =>
    intro j hj hsj
    rw [accepted_apply request rfl, accepted_apply validMask rfl]
    by_cases hji : j = i
    · subst hji
      exact hreq
    · rw [hvec j hji] at hsj
      exact hs.sent (hsame.mapped.1 hj) hsj
  case inCache =>
    intro j
    rw [hsame.mapped]
    by_cases hji : j = i
    · subst hji
      exact iff_of_true (update_self _ _ _) ⟨hm, hself⟩
    · have hcache : (s.accepted i).inCache j = s.inCache j := update_of_ne hji _ _
      rw [hcache, hvec j hji]
      exact hs.inCache
  case applied =>
    intro j hj
    by_cases hji : j = i
    · subst hji
      exact update_self _ _ _
    · have hcache : (s.accepted i).inCache j = s.inCache j := update_of_ne hji _ _
      rw [hcache]
      exact hs.applied hj
  case size_eq => exact hs.size_eq

theorem accepted_held (hblocked : s.blockedSbufferEntry = none) : (s.held i init).accepted i =
      (({ s with lruIndex := init } : SbState c).setEntry i
        { s.dataVec i with request := some (s.dataVec i).validMask }).markSending i := by
  simp only [SbState.accepted, SbState.held, markSending, setEntry, hblocked]

theorem BufInv.storeBufferWriteback_ok (hs : s.BufInv) (canEvict evict sent : Bool) :
    ∃ t, s.storeBufferWriteback canEvict evict sent = .ok t ∧ t.BufInv ∧ SameBytes s t := by
  unfold storeBufferWriteback
  cases canEvict with
  | false => exact ⟨s, rfl, hs, .refl s⟩
  | true =>
    cases hblocked : s.blockedSbufferEntry with
    | some i =>
      cases sent with
      | false => exact ⟨s, rfl, hs, .refl s⟩
      | true => exact ⟨s.accepted i, rfl, hs.accepted hblocked, sameBytes_accepted⟩
    | none =>
      rcases eq_nil_or_concat' s.lruIndex with hnil | ⟨init, i, hlru⟩
      · exact ⟨s, by simp [hnil], hs, .refl s⟩
      cases evict with
      | false => exact ⟨s, by simp, hs, .refl s⟩
      | true =>
        obtain ⟨hm, _, hreq⟩ := hs.lru (i := i) (by rw [hlru]; exact mem_concat_self)
        have hevict : s.getEvict = .ok (i, { s with lruIndex := init }) := by
          rw [getEvict, hlru, getLast?_concat, dropLast_concat]
          exact if_pos (hs.vld hm)
        have hne : s.lruIndex.isEmpty = false := by simp [hlru]
        have hheld := hs.held hlru hblocked
        simp only [hne, hevict, hreq]
        cases sent with
        | false => exact ⟨s.held i init, rfl, hheld, sameBytes_held⟩
        | true =>
          refine ⟨(s.held i init).accepted i, ?_, hheld.accepted rfl,
            sameBytes_held.trans sameBytes_accepted⟩
          rw [accepted_held hblocked]
          rfl

/-! ### The cache -/

/-- What the cache does when it applies the packet of `i`. -/
def written (i : Fin c.ways) (s : SbState c) : SbState c :=
  { s with
    cache := layOver (s.dataVec i).valid s.cache
    applied := Function.update s.applied i true }

theorem BufInv.cacheApply_ok (hs : s.BufInv) (hin : s.inCache i = true)
    (happ : s.applied i = false) : s.cacheApply i = .ok (s.written i) ∧ (s.written i).BufInv := by
  obtain ⟨hm, hsend⟩ := hs.inCache.1 hin
  refine ⟨?_, { hs with vice := ?_, applied := ?_ }⟩
  · rw [cacheApply, hin, happ, hs.sent hm hsend]
    rfl
  · intro j v hj hv
    obtain ⟨hsj, hvj⟩ := hs.vice hj hv
    exact ⟨hsj, hvj.congr rfl rfl rfl rfl hvj.not_mapped⟩
  · intro j hj
    by_cases hji : j = i
    · subst hji
      exact hin
    · exact hs.applied ((update_of_ne hji _ _).symm.trans hj)

/-! ### Completion -/

/-- The entry `i` has left the buffer, and its vice is in its place. -/
structure Completed (i : Fin c.ways) (s t : SbState c) : Prop where
  inv : t.BufInv
  bytes : t.buffered (s.dataVec i).tid (s.dataVec i).blockPaddr = s.viceBytes i
  others {T B : ℕ} (h : hashKey T B ≠ s.key i) : t.buffered T B = s.buffered T B
  live {j : Fin c.ways} (hj : t.Live j) : s.Live j
  dataVec : t.dataVec = s.dataVec
  applied {j : Fin c.ways} (hj : t.applied j = true) : s.applied j = true ∧ j ≠ i
  cache : t.cache = s.cache
  offloaded : t.offloaded = s.offloaded
  storeQueue : t.storeQueue = s.storeQueue

theorem unmap_applied (hj : (s.unmap i).applied j = true) : s.applied j = true ∧ j ≠ i := by
  by_cases hji : j = i
  · subst hji
    simp [unmap] at hj
  · exact ⟨(update_of_ne hji _ _).symm.trans hj, hji⟩

theorem BufInv.completeSbufferEvict_eq (hs : s.BufInv) (happ : s.applied i = true) :
    s.completeSbufferEvict i =
      .ok ((s.dataVec i).vice.elim (s.unmap i) fun v => (s.unmap i).mapInsert v) := by
  obtain ⟨hm, _⟩ := hs.inCache.1 (hs.applied happ)
  have hvld := hs.vld hm
  have hsize : s.size ≠ 0 := by
    rw [hs.size_eq]
    exact Finset.card_ne_zero_of_mem (Finset.mem_filter.2 ⟨Finset.mem_univ i, hvld⟩)
  have hfree : i ∉ s.freeList := fun hi => hs.not_mapped_of_free hi hm
  rw [completeSbufferEvict, if_pos happ, release, if_neg hsize, if_neg hfree]
  cases hv : (s.dataVec i).vice with
  | none => rfl
  | some v =>
    have hvice := (hs.vice hm hv).2
    have hvi : v ≠ i := by
      rintro rfl
      exact hvice.not_mapped hm
    exact if_pos ((update_of_ne hvi _ _).trans hvice.vld)

theorem BufInv.completeSbufferEvict_ok (hs : s.BufInv) (happ : s.applied i = true) :
    ∃ t, s.completeSbufferEvict i = .ok t ∧ Completed i s t := by
  refine ⟨_, hs.completeSbufferEvict_eq happ, ?_⟩
  obtain ⟨hm, hsend⟩ := hs.inCache.1 (hs.applied happ)
  have hinv := hs.unmap hm hsend
  have hkey : hashKey (s.dataVec i).tid (s.dataVec i).blockPaddr = s.key i := rfl
  cases hv : (s.dataVec i).vice with
  | none =>
    refine ⟨hinv, ?_, ?_, ?_, rfl, unmap_applied, rfl, rfl, rfl⟩
    · rw [buffered, hkey, elim_none, unmap_dataMap_self hs hm, viceBytes, hv]
      rfl
    · intro T B hTB
      rw [buffered, elim_none, unmap_dataMap_of_ne hs hm hTB]
      rfl
    · rintro j (hj | ⟨k, hk, hkj⟩)
      · exact .inl ((unmap_mapped hs hm).1 hj).1
      · exact .inr ⟨k, ((unmap_mapped hs hm).1 hk).1, hkj⟩
  | some v =>
    have hvice := (hs.vice hm hv).2
    have hvi : v ≠ i := by
      rintro rfl
      exact hvice.not_mapped hm
    -- the vice has the key of its entry, which is free now
    have hkv : (s.unmap i).key v = s.key i := by
      have hvec : (s.unmap i).dataVec = s.dataVec := rfl
      rw [key, hvec, hvice.tid_eq, hvice.block_eq]
      rfl
    have hmap : (s.unmap i).dataMap ((s.unmap i).key v) = none := by
      rw [hkv]
      exact unmap_dataMap_self hs hm
    have hvld : (s.unmap i).dataVld v = true := (update_of_ne hvi _ _).trans hvice.vld
    rw [elim_some]
    refine ⟨hinv.mapInsert hmap hvld ?_ ?_ hvice.not_sending hvice.no_vice hvice.no_request, ?_, ?_,
      ?_, rfl, unmap_applied, rfl, rfl, rfl⟩
    · exact hvice.tid_eq.trans_lt (hs.tid_lt hm)
    · exact (hs.aligned hm).trans hvice.block_eq.symm.dvd
    · have hself := mapInsert_dataMap_self hmap
      rw [hkv] at hself
      have hbytes : ((s.unmap i).mapInsert v).entryBytes v = s.entryBytes v := rfl
      rw [buffered, hkey, hself, elim_some, hbytes]
      simp only [entryBytes, viceBytes, hvice.no_vice, hv, elim_none, elim_some,
        Overlay.nothing_stack]
    · intro T B hTB
      have hne : hashKey T B ≠ (s.unmap i).key v := by rwa [hkv]
      rw [buffered, mapInsert_dataMap_of_ne hmap hne, unmap_dataMap_of_ne hs hm hTB]
      rfl
    · rintro j (hj | ⟨k, hk, hkj⟩)
      · rcases (mapInsert_mapped hmap).1 hj with rfl | hj
        · exact .inr ⟨i, hm, hv⟩
        · exact .inl ((unmap_mapped hs hm).1 hj).1
      · rcases (mapInsert_mapped hmap).1 hk with rfl | hk
        · -- a vice has no vice
          have hnone := hvice.no_vice.symm.trans hkj
          cases hnone
        · exact .inr ⟨k, ((unmap_mapped hs hm).1 hk).1, hkj⟩

end SbState
end Gem5
