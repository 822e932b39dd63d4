import Gem5.Lsq.Evict

/-!
# The store buffer refines in-order stores

The stores of a thread go to memory in program order as far as the thread can tell: its buffered
bytes over the cache are the memory after all its offloaded stores.
-/

namespace Gem5
open List Function Overlay SbEvent
open Overlay (stack nothing layOver writes)
variable {c : SbConfig}

namespace SbState

/-! ### In-order stores -/

def offloadedOf (T : Fin c.numThreads) (s : SbState c) : List (StorePiece c) :=
  (s.offloaded.filter fun x => x.1 = T).map Prod.snd

def specMem (m : ℕ → UInt8) (T : Fin c.numThreads) (s : SbState c) : ℕ → UInt8 :=
  writes ((s.offloadedOf T).map StorePiece.bytes) m

def Alone (T : Fin c.numThreads) (B : ℕ) (s : SbState c) : Prop :=
  ∀ x ∈ s.offloaded, c.block x.2.paddr = B → x.1 = T

section
variable {s : SbState c} {done : List (Fin c.numThreads × StorePiece c)} {T tid : Fin c.numThreads}
  {p : StorePiece c} {m : ℕ → UInt8} {t : SbState c}

theorem specMem_congr (h : t.offloaded = s.offloaded) : t.specMem m T = s.specMem m T := by
  rw [specMem, specMem, offloadedOf, offloadedOf, h]

variable {B : ℕ}

theorem alone_congr (h : t.offloaded = s.offloaded) : t.Alone T B ↔ s.Alone T B := by
  rw [Alone, Alone, h]

theorem specMem_concat_self (h : t.offloaded = s.offloaded ++ [(T, p)]) :
    t.specMem m T = layOver p.bytes (s.specMem m T) := by
  have hlist : t.offloadedOf T = s.offloadedOf T ++ [p] := by
    simp [offloadedOf, h]
  rw [specMem, hlist, map_append, map_singleton, writes_concat]
  rfl

theorem specMem_concat_of_ne (h : t.offloaded = s.offloaded ++ [(tid, p)]) (hne : tid ≠ T) :
    t.specMem m T = s.specMem m T := by
  have hlist : t.offloadedOf T = s.offloadedOf T := by
    simp [offloadedOf, h, hne]
  rw [specMem, hlist]
  rfl

theorem Alone.of_concat (h : t.offloaded = s.offloaded ++ [(tid, p)]) (ht : t.Alone T B) :
    s.Alone T B ∧ (c.block p.paddr = B → tid = T) := by
  rw [Alone, h] at ht
  exact ⟨fun x hx => ht x (mem_append_left _ hx),
    ht (tid, p) (mem_append_right _ (mem_singleton_self _))⟩
end

/-! ### The simulation -/

/-- What the buffer holds for a thread, over the cache, is the memory of the abstract machine. -/
structure SimInv (m : ℕ → UInt8) (s : SbState c) : Prop where
  buf : s.BufInv
  stored {i : Fin c.ways} : s.Live i →
    ∃ x ∈ s.offloaded, x.1 = (s.dataVec i).tid ∧ c.block x.2.paddr = (s.dataVec i).blockPaddr ∧
      c.block x.2.vaddr = (s.dataVec i).blockVaddr
  sim {T : Fin c.numThreads} {B a : ℕ} : s.Alone T B → c.block a = B →
    layOver (s.buffered T B) s.cache a = s.specMem m T a
  applied {i : Fin c.ways} {T : Fin c.numThreads} {a : ℕ} {b : UInt8} : s.applied i = true →
    (s.dataVec i).tid = T → s.Alone T (s.dataVec i).blockPaddr → (s.dataVec i).valid a = some b →
    s.cache a = b

theorem simInv_start (m : ℕ → UInt8) : SimInv m (start m : SbState c) where
  buf := bufInv_start m
  stored h := by simp [Live, Mapped, start] at h
  sim _ _ := rfl
  applied h := by simp [start] at h

section
variable {m : ℕ → UInt8} {s t : SbState c} {i : Fin c.ways}

theorem SimInv.tid_eq (hs : SimInv m s) {T : Fin c.numThreads} {B : ℕ} (halone : s.Alone T B)
    (hm : s.Mapped i) (hB : (s.dataVec i).blockPaddr = B) : (s.dataVec i).tid = T := by
  obtain ⟨x, hx, hxt, hxB, _⟩ := hs.stored (.inl hm)
  rw [← hxt, halone x hx (hxB.trans hB)]

theorem SimInv.inserted {tid : Fin c.numThreads} {p : StorePiece c} (hs : SimInv m s)
    (h : Inserted tid p s t) : SimInv m (t.logStore tid p) := by
  have hoff : (t.logStore tid p).offloaded = s.offloaded ++ [(tid, p)] := by
    rw [logStore, h.offloaded]
  constructor
  case buf => exact h.inv.withQueues t.storeQueue _
  case stored =>
    intro j hj
    rw [hoff]
    rcases h.origin hj with ⟨htid, hblock, hvaddr⟩ | ⟨hlj, htid, hblock, hvaddr⟩
    · exact ⟨(tid, p), mem_concat_self, htid.symm, hblock.symm, hvaddr.symm⟩
    · obtain ⟨x, hx, hxt, hxB, hxv⟩ := hs.stored hlj
      exact ⟨x, mem_append_left _ hx, hxt.trans htid.symm, hxB.trans hblock.symm,
        hxv.trans hvaddr.symm⟩
  case sim =>
    intro T B a halone ha
    obtain ⟨halone, hT⟩ := Alone.of_concat hoff halone
    have hdvd : c.lineSize ∣ B := ha ▸ c.dvd_block a
    have hold := hs.sim halone ha
    have hcache : (t.logStore tid p).cache = s.cache := h.cache
    have hbuf : (t.logStore tid p).buffered T B = t.buffered T B := rfl
    rw [hcache, hbuf]
    by_cases hB : c.block p.paddr = B
    · obtain rfl := hT hB
      subst hB
      rw [h.bytes, specMem_concat_self hoff, layOver_stack]
      exact layOver_apply_congr _ hold
    · rw [h.others T.2 hdvd fun hTB => hB hTB.2.symm]
      by_cases htid : tid = T
      · subst htid
        have hnone : p.bytes a = none := p.bytes_eq_none (by rw [ha]; exact Ne.symm hB)
        rw [specMem_concat_self hoff, layOver_apply_of_none hnone, hold]
      · rw [specMem_concat_of_ne hoff htid, hold]
  case applied =>
    intro j T a b hj hT halone hb
    have happ : s.applied j = true := by
      rw [← h.applied]
      exact hj
    obtain ⟨hm, hsend⟩ := hs.buf.inCache.1 (hs.buf.applied happ)
    obtain ⟨htid, hblock, hvalid⟩ := h.sent hm hsend
    have halone := (Alone.of_concat hoff halone).1
    have hbs : (s.dataVec j).valid a = some b := by
      rw [← hvalid]
      exact hb
    have hcache : t.cache a = s.cache a := by rw [h.cache]
    exact hcache.trans
      (hs.applied happ (htid.symm.trans hT) (hblock ▸ halone) hbs)

theorem SimInv.sameBytes (hs : SimInv m s) (h : SameBytes s t) (ht : t.BufInv) : SimInv m t where
  buf := ht
  stored {j} hj := by
    rw [h.tid, h.blockPaddr, h.blockVaddr, h.offloaded]
    exact hs.stored (h.live.1 hj)
  sim {T B a} halone ha := by
    rw [h.buffered, h.cache, specMem_congr h.offloaded]
    exact hs.sim ((alone_congr h.offloaded).1 halone) ha
  applied {j T a b} hj hT halone hb := by
    rw [h.applied] at hj
    rw [h.tid] at hT
    rw [alone_congr h.offloaded, h.blockPaddr] at halone
    rw [h.valid] at hb
    rw [h.cache]
    exact hs.applied hj hT halone hb

theorem SimInv.written (hs : SimInv m s) (hin : s.inCache i = true)
    (hinv : (s.written i).BufInv) : SimInv m (s.written i) := by
  obtain ⟨hm, _⟩ := hs.buf.inCache.1 hin
  have hdvd := hs.buf.aligned hm
  constructor
  case buf => exact hinv
  case stored => exact hs.stored
  case sim =>
    intro T B a halone ha
    have hold : layOver (s.buffered T B) s.cache a = s.specMem m T a := hs.sim halone ha
    have hbuf : (s.written i).buffered T B = s.buffered T B := rfl
    have hcache : (s.written i).cache = layOver (s.dataVec i).valid s.cache := rfl
    have hspec : (s.written i).specMem m T = s.specMem m T := rfl
    rw [hbuf, hcache, hspec, ← hold]
    by_cases hB : (s.dataVec i).blockPaddr = B
    · have htid := hs.tid_eq halone hm hB
      have hbytes : s.buffered T B = s.entryBytes i := by
        have hmap : s.dataMap (hashKey T B) = some i := by
          rw [← htid, ← hB]
          exact hm
        rw [buffered, hmap]
        rfl
      rw [hbytes, entryBytes, layOver_stack_over]
    · have hnone : (s.dataVec i).valid a = none :=
        (s.dataVec i).valid_eq_none hdvd (by rw [ha]; exact Ne.symm hB)
      exact layOver_apply_congr _ (layOver_apply_of_none hnone _)
  case applied =>
    intro j T a b hj hT halone hb
    have hbs : (s.dataVec j).valid a = some b := hb
    by_cases hji : j = i
    · subst hji
      simp [SbState.written, layOver, hbs]
    · have happ : s.applied j = true := (update_of_ne hji _ _).symm.trans hj
      have hmj := (hs.buf.inCache.1 (hs.buf.applied happ)).1
      have hold : s.cache a = b := hs.applied happ hT halone hbs
      -- two entries of one line would be of one thread
      have hnone : (s.dataVec i).valid a = none := by
        refine (s.dataVec i).valid_eq_none hdvd fun hblock => hji ?_
        have hbj : (s.dataVec j).blockPaddr = c.block a := by
          by_contra hne
          rw [(s.dataVec j).valid_eq_none (hs.buf.aligned hmj) (Ne.symm hne)] at hbs
          cases hbs
        have hti := hs.tid_eq halone hm (hblock.symm.trans hbj.symm)
        exact hmj.eq hm (hT.trans hti.symm) (hbj.trans hblock)
      exact (layOver_apply_of_none hnone s.cache).trans hold

theorem SimInv.completed (hs : SimInv m s) (happ : s.applied i = true) (h : Completed i s t) :
    SimInv m t := by
  obtain ⟨hm, _⟩ := hs.buf.inCache.1 (hs.buf.applied happ)
  constructor
  case buf => exact h.inv
  case stored =>
    intro j hj
    rw [h.dataVec, h.offloaded]
    exact hs.stored (h.live hj)
  case sim =>
    intro T B a halone ha
    rw [alone_congr h.offloaded] at halone
    have hold := hs.sim halone ha
    rw [h.cache, specMem_congr h.offloaded]
    by_cases hkey : hashKey T B = s.key i
    · have hdvd : c.lineSize ∣ B := ha ▸ c.dvd_block a
      obtain ⟨hT, hB⟩ := hashKey_inj (lt_lineSize T.2) (lt_lineSize (hs.buf.tid_lt hm)) hdvd
        (hs.buf.aligned hm) hkey
      have hbytes : s.buffered T B = s.entryBytes i := by
        rw [buffered, hkey, hm]
        rfl
      rw [hbytes, entryBytes, layOver_stack] at hold
      have hthere : layOver (s.dataVec i).valid s.cache a = s.cache a :=
        layOver_apply_of_holds fun b hb => hs.applied happ hT.symm (hB ▸ halone) hb
      rw [hT, hB, h.bytes, ← hold]
      exact (layOver_apply_congr _ hthere).symm
    · rw [h.others hkey, hold]
  case applied =>
    intro j T a b hj hT halone hb
    rw [h.dataVec] at hT halone hb
    rw [alone_congr h.offloaded] at halone
    rw [h.cache]
    exact hs.applied (h.applied hj).1 hT halone hb
end

/-! ### Runs -/

/-- The cache applies only packets that it has accepted, and completes only those it has applied. -/
def possible (s : SbState c) : SbEvent c → Bool
  | .cacheApply i => s.inCache i && !s.applied i
  | .complete i => s.applied i
  | _ => true

def allPossible : List (SbEvent c) → SbState c → Bool
  | [], _ => true
  | e :: es, s =>
    s.possible e &&
      match s.step e with
      | .ok t => allPossible es t
      | .error _ => true

def storesOf (T : Fin c.numThreads) (s : SbState c) : List (StorePiece c) :=
  s.offloadedOf T ++ (s.storeQueue T).flatten

end SbState

def SbEvent.committed (T : Fin c.numThreads) : SbEvent c → List (StorePiece c)
  | .commitStore tid store => if tid = T then store else []
  | _ => []

namespace SbState

section
variable {m : ℕ → UInt8} {s : SbState c}

theorem SimInv.withQueue (hs : SimInv m s) (queue : Fin c.numThreads → List (List (StorePiece c))) :
    SimInv m { s with storeQueue := queue } where
  buf := hs.buf.withQueues queue s.offloaded
  stored := hs.stored
  sim := hs.sim
  applied := hs.applied

theorem SimInv.insertPieces_ok (hs : SimInv m s) (hblocked : s.blockedSbufferEntry = none)
    (tid : Fin c.numThreads) (ps : List (StorePiece c)) :
    ∃ done left t, insertPieces tid ps s = .ok (left, t) ∧ SimInv m t ∧ ps = done ++ left ∧
      t.offloaded = s.offloaded ++ done.map (Prod.mk tid) ∧ t.storeQueue = s.storeQueue := by
  induction ps generalizing s with
  | nil => exact ⟨[], [], s, rfl, hs, rfl, by simp, rfl⟩
  | cons p ps ih =>
    rcases hs.buf.insertStoreBuffer_ok hblocked tid p with ⟨u, hu, hins⟩ | hfull
    · obtain ⟨done, left, t, ht, hsim, hps, hoff, hqueue⟩ :=
        ih (hs.inserted hins) (hins.blocked.trans hblocked)
      refine ⟨p :: done, left, t, ?_, hsim, by rw [hps]; rfl, ?_, hqueue.trans hins.storeQueue⟩
      · rw [insertPieces, hu]
        exact ht
      · rw [hoff, logStore, hins.offloaded]
        simp
    · refine ⟨[], p :: ps, s, ?_, hs, rfl, by simp, rfl⟩
      rw [insertPieces, hfull]

variable {t : SbState c} {tid T : Fin c.numThreads} {done : List (StorePiece c)}

theorem offloadedOf_append (h : t.offloaded = s.offloaded ++ done.map (Prod.mk tid)) :
    t.offloadedOf T = s.offloadedOf T ++ if tid = T then done else [] := by
  by_cases htid : tid = T
  · simp [offloadedOf, h, filter_map, Function.comp_def, htid]
  · simp [offloadedOf, h, filter_map, Function.comp_def, htid]

theorem storesOf_offload {store left : List (StorePiece c)} {rest : List (List (StorePiece c))}
    (hqueue : s.storeQueue tid = store :: rest) (hstore : store = done ++ left)
    (hoff : t.offloaded = s.offloaded ++ done.map (Prod.mk tid))
    (hq : t.storeQueue = Function.update s.storeQueue tid
      (if left.isEmpty then rest else left :: rest)) : t.storesOf T = s.storesOf T := by
  rw [storesOf, storesOf, offloadedOf_append hoff, hq]
  by_cases htid : tid = T
  · subst htid
    have hrest : (if left.isEmpty then rest else left :: rest).flatten = left ++ rest.flatten := by
      cases left <;> simp
    rw [update_self, hrest, hqueue, hstore]
    simp
  · rw [update_of_ne (Ne.symm htid), if_neg htid, append_nil]

theorem SimInv.offload_ok (hs : SimInv m s) (tid : Fin c.numThreads) :
    ∃ t, s.offload tid = .ok t ∧ SimInv m t ∧ ∀ T, t.storesOf T = s.storesOf T := by
  unfold offload
  cases hblocked : s.blockedSbufferEntry with
  | some i => exact ⟨s, rfl, hs, fun _ => rfl⟩
  | none =>
    cases hqueue : s.storeQueue tid with
    | nil => exact ⟨s, rfl, hs, fun _ => rfl⟩
    | cons store rest =>
      obtain ⟨done, left, u, hu, hsim, hstore, hoff, hq⟩ :=
        hs.insertPieces_ok hblocked tid store
      refine ⟨_, by simp only [hu]; rfl, hsim.withQueue _, fun T => ?_⟩
      exact storesOf_offload hqueue hstore hoff (by rw [hq])

theorem storesOf_congr (hoff : t.offloaded = s.offloaded) (hq : t.storeQueue = s.storeQueue) :
    t.storesOf T = s.storesOf T := by
  rw [storesOf, storesOf, offloadedOf, offloadedOf, hoff, hq]

theorem SimInv.step_ok (hs : SimInv m s) {e : SbEvent c} (he : s.possible e = true) :
    ∃ t, s.step e = .ok t ∧ SimInv m t ∧ ∀ T, t.storesOf T = s.storesOf T ++ e.committed T := by
  cases e with
  | commitStore tid store =>
    refine ⟨_, rfl, hs.withQueue _, fun T => ?_⟩
    unfold storesOf committed
    by_cases htid : tid = T
    · subst htid
      simp [offloadedOf]
    · simp [offloadedOf, htid, update_of_ne (Ne.symm htid)]
  | offload tid =>
    obtain ⟨t, ht, hsim, hstores⟩ := hs.offload_ok tid
    exact ⟨t, ht, hsim, fun T => by simp [hstores, committed]⟩
  | writeback canEvict evict sent =>
    obtain ⟨t, ht, hbuf, hsame⟩ := hs.buf.storeBufferWriteback_ok canEvict evict sent
    refine ⟨t, ht, hs.sameBytes hsame hbuf, fun T => ?_⟩
    simp [storesOf_congr hsame.offloaded hsame.storeQueue, committed]
  | cacheApply i =>
    simp only [possible, Bool.and_eq_true, Bool.not_eq_true'] at he
    obtain ⟨ht, hbuf⟩ := hs.buf.cacheApply_ok he.1 he.2
    exact ⟨_, ht, hs.written he.1 hbuf, fun T => (append_nil _).symm⟩
  | complete i =>
    obtain ⟨t, ht, hcomp⟩ := hs.buf.completeSbufferEvict_ok he
    refine ⟨t, ht, hs.completed he hcomp, fun T => ?_⟩
    simp [storesOf_congr hcomp.offloaded hcomp.storeQueue, committed]

theorem SimInv.run_sim (hs : SimInv m s) {es : List (SbEvent c)} (hes : allPossible es s = true) :
    ∃ t, run es s = .ok t ∧ SimInv m t ∧
      ∀ T, t.storesOf T = s.storesOf T ++ es.flatMap (committed T) := by
  induction es generalizing s with
  | nil => exact ⟨s, rfl, hs, fun T => by simp⟩
  | cons e es ih =>
    rw [allPossible, Bool.and_eq_true] at hes
    obtain ⟨u, hu, hsim, hstores⟩ := hs.step_ok hes.1
    rw [hu] at hes
    obtain ⟨t, ht, hsim', hstores'⟩ := ih hsim hes.2
    refine ⟨t, ?_, hsim', fun T => ?_⟩
    · rw [run, hu]
      exact ht
    · rw [hstores', hstores, flatMap_cons, append_assoc]
end

/-! ### Loads -/

/-- A vice with bytes has the virtual line of its entry. -/
def NoSynonym (s : SbState c) : Prop :=
  ∀ ⦃i v : Fin c.ways⦄ ⦃o : ℕ⦄, s.Mapped i → (s.dataVec i).vice = some v → o < c.lineSize →
    (s.dataVec v).validMask o = true → (s.dataVec v).blockVaddr = (s.dataVec i).blockVaddr

def forwarded (T : Fin c.numThreads) (ld : LoadPiece c) (s : SbState c) (js : List ℕ) :
    List (ℕ × UInt8) :=
  js.filterMap fun j => (s.buffered T (c.block ld.paddr) (ld.paddr + j)).map
    (Prod.mk (ld.vaddr - ld.mainVaddr + j))

def allForwarded (T : Fin c.numThreads) (ld : LoadPiece c) (s : SbState c) (js : List ℕ) : Bool :=
  js.all fun j => (s.buffered T (c.block ld.paddr) (ld.paddr + j)).isSome

section
variable {s : SbState c} {i : Fin c.ways}

theorem BufInv.forwardByte_ok (hs : s.BufInv) (hsyn : s.NoSynonym) (hm : s.Mapped i) {o : ℕ}
    (ho : o < c.lineSize) :
    s.forwardByte i o = .ok (s.entryBytes i ((s.dataVec i).blockPaddr + o)) := by
  unfold forwardByte entryBytes viceBytes
  cases hv : (s.dataVec i).vice with
  | none =>
    simp only [hv, Option.elim_none, nothing_stack]
    rw [(s.dataVec i).valid_add ho]
  | some v =>
    have hvice := (hs.vice hm hv).2
    have hvalid := (s.dataVec v).valid_add ho
    rw [hvice.block_eq] at hvalid
    simp only [hv, Option.elim_some, stack, hvalid, (s.dataVec i).valid_add ho]
    by_cases hmask : (s.dataVec v).validMask o = true
    · simp [hmask, hsyn hm hv ho hmask]
    · simp [hmask]

variable {T : Fin c.numThreads} {ld : LoadPiece c}

section
variable (hs : s.BufInv) (hsyn : s.NoSynonym)
  (hmap : s.dataMap (hashKey T (c.block ld.paddr)) = some i)
include hs hsyn hmap

theorem BufInv.recordBytes_ok {js : List ℕ} (hjs : ∀ j ∈ js, j < ld.size) :
    s.recordBytes i ld js = .ok (forwarded T ld s js, allForwarded T ld s js) := by
  obtain ⟨hm, _, hblock⟩ := hs.of_dataMap T.2 (c.dvd_block _) hmap
  induction js with
  | nil => rfl
  | cons j js ih =>
    have hj := hjs j mem_cons_self
    have hsize := ld.size_le
    have hline := ld.in_line
    have hnot : ¬ ld.mainSize ≤ ld.vaddr - ld.mainVaddr + j := by omega
    have hsum : (s.dataVec i).blockPaddr + (c.offset ld.paddr + j) = ld.paddr + j := by
      rw [hblock, ← Nat.add_assoc, c.block_add_offset]
    have hbyte : s.forwardByte i (c.offset ld.paddr + j) =
        .ok (s.buffered T (c.block ld.paddr) (ld.paddr + j)) := by
      rw [hs.forwardByte_ok hsyn hm (by omega), hsum, buffered, hmap]
      rfl
    have hrest := ih fun k hk => hjs k (mem_cons_of_mem j hk)
    rw [recordBytes, if_neg hnot]
    simp only [hbyte, hrest]
    cases hb : s.buffered T (c.block ld.paddr) (ld.paddr + j) <;>
      simp [forwarded, allForwarded, hb]

theorem BufInv.recordForward_ok : s.recordForward i ld = .ok (forwarded T ld s (List.range ld.size),
      allForwarded T ld s (List.range ld.size)) := by
  have haligned := ld.aligned
  have hnot : ¬ (0 < ld.vaddr - ld.mainVaddr ∧ c.offset ld.paddr ≠ 0) := by omega
  rw [recordForward, if_neg hnot]
  exact hs.recordBytes_ok hsyn hmap fun j hj => mem_range.1 hj
end
end

/-! ### Refinement -/

/-- The buffer and the cache act as memory with the stores done in order. -/
structure StoresRefined (m : ℕ → UInt8) (es : List (SbEvent c)) (s : SbState c) : Prop where
  /-- The stores go into the buffer in program order. -/
  order (T : Fin c.numThreads) :
    s.offloadedOf T ++ (s.storeQueue T).flatten = es.flatMap (SbEvent.committed T)
  /-- Cache, entry and vice make up the memory of the thread. -/
  memory (T : Fin c.numThreads) (a : ℕ) : s.Alone T (c.block a) →
    layOver (s.buffered T (c.block a)) s.cache a = s.specMem m T a
  /-- A load gets the buffered bytes. -/
  loads (T : Fin c.numThreads) (ld : LoadPiece c) (i : Fin c.ways) :
    s.get T (c.block ld.paddr) = .ok (some i) →
    s.recordForward i ld = .ok (forwarded T ld s (List.range ld.size),
      allForwarded T ld s (List.range ld.size))
  /-- When the buffer is empty, the cache has all. -/
  drained (T : Fin c.numThreads) (a : ℕ) : s.size = 0 → s.Alone T (c.block a) →
    s.cache a = s.specMem m T a

section
variable {m : ℕ → UInt8} {s : SbState c} {i v : Fin c.ways}

theorem BufInv.buffered_of_size (hs : s.BufInv) (h : s.size = 0) (T B : ℕ) :
    s.buffered T B = nothing := by
  rw [buffered]
  cases hmap : s.dataMap (hashKey T B) with
  | none => rfl
  | some i =>
    have hvld := hs.vld (hs.mapped hmap)
    rw [hs.size_eq, Finset.card_eq_zero, Finset.filter_eq_empty_iff] at h
    exact absurd hvld (h (Finset.mem_univ i))

def byteLoad (B o : ℕ) (hB : c.lineSize ∣ B) (ho : o < c.lineSize) : LoadPiece c where
  mainVaddr := B + o
  mainSize := 1
  vaddr := B + o
  paddr := B + o
  size := 1
  main_le := le_rfl
  size_le := by omega
  in_line := by
    rw [(SbConfig.block_offset_of_lt hB ho).2]
    exact ho
  aligned h := absurd h (lt_irrefl _)

theorem recordForward_synonym (hB : c.lineSize ∣ (s.dataVec i).blockPaddr) {o : ℕ}
    (ho : o < c.lineSize) (hv : (s.dataVec i).vice = some v)
    (hmask : (s.dataVec v).validMask o = true)
    (hne : (s.dataVec v).blockVaddr ≠ (s.dataVec i).blockVaddr) :
    s.recordForward i (byteLoad (s.dataVec i).blockPaddr o hB ho) =
      .error "assert(vice->blockVaddr == blockVaddr)" := by
  have hoff := (SbConfig.block_offset_of_lt hB ho).2
  simp [recordForward, byteLoad, recordBytes, forwardByte, hoff, hv, hmask, hne]

theorem SimInv.storesRefined_iff (hs : SimInv m s) {es : List (SbEvent c)}
    (hstores : ∀ T, s.storesOf T = es.flatMap (committed T)) :
    StoresRefined m es s ↔ s.NoSynonym := by
  constructor
  · intro h i v o hm hv ho hmask
    by_contra hne
    have hB := hs.buf.aligned hm
    have hblock : c.block (byteLoad (s.dataVec i).blockPaddr o hB ho).paddr =
      (s.dataVec i).blockPaddr := (SbConfig.block_offset_of_lt hB ho).1
    have hget := hs.buf.get_eq (hs.buf.tid_lt hm) hB
    rw [← key, hm, ← hblock] at hget
    have hload := h.loads ⟨(s.dataVec i).tid, hs.buf.tid_lt hm⟩ _ i hget
    rw [recordForward_synonym hB ho hv hmask hne] at hload
    cases hload
  · intro hsyn
    refine ⟨hstores, fun T a halone => hs.sim halone rfl, fun T ld i hget => ?_,
      fun T a hsize halone => ?_⟩
    · rw [hs.buf.get_eq T.2 (c.dvd_block _)] at hget
      exact hs.buf.recordForward_ok hsyn (Except.ok.inj hget)
    · have hsim := hs.sim halone rfl
      rwa [hs.buf.buffered_of_size hsize, layOver_nothing] at hsim

theorem SimInv.noSynonym (hs : SimInv m s)
    (h : ∀ x ∈ s.offloaded, ∀ y ∈ s.offloaded, x.1 = y.1 → c.block x.2.paddr = c.block y.2.paddr →
      c.block x.2.vaddr = c.block y.2.vaddr) : s.NoSynonym := by
  intro i v o hm hv _ _
  have hvice := (hs.buf.vice hm hv).2
  obtain ⟨x, hx, hxt, hxB, hxv⟩ := hs.stored (.inl hm)
  obtain ⟨y, hy, hyt, hyB, hyv⟩ := hs.stored (.inr ⟨i, hm, hv⟩)
  rw [← hyv, ← hxv]
  refine h y hy x hx (Fin.ext ?_) ?_
  · rw [hyt, hxt, hvice.tid_eq]
  · rw [hyB, hxB, hvice.block_eq]
end

/-- **The store buffer refines in-order stores** in every run in which each thread writes each
physical line through one virtual line. -/
theorem storeBuffer_refines (m : ℕ → UInt8) {es : List (SbEvent c)}
    (hes : allPossible es (start m) = true)
    (hone : ∀ T, ∀ p ∈ es.flatMap (committed T), ∀ q ∈ es.flatMap (committed T),
      c.block p.paddr = c.block q.paddr → c.block p.vaddr = c.block q.vaddr) :
    ∃ s, run es (start m) = .ok s ∧ StoresRefined m es s := by
  obtain ⟨s, hrun, hsim, hstores⟩ := (simInv_start m).run_sim hes
  have hmem {x : Fin c.numThreads × StorePiece c} (hx : x ∈ s.offloaded) :
      x.2 ∈ es.flatMap (committed x.1) := by
    have hin : x.2 ∈ s.storesOf x.1 :=
      mem_append_left _ (mem_map_of_mem (mem_filter.2 ⟨hx, by simp⟩))
    rw [hstores] at hin
    exact hin
  refine ⟨s, hrun, (hsim.storesRefined_iff hstores).2 (hsim.noSynonym fun x hx y hy hT => ?_)⟩
  exact hone x.1 _ (hmem hx) _ (hT ▸ hmem hy)

/-- In every run no assert of the store buffer itself fails, and afterwards the buffer refines
in-order stores exactly if no line that is doubled by a vice was written through two virtual
lines. -/
theorem storeBuffer_refines_iff (m : ℕ → UInt8) (es : List (SbEvent c))
    (hes : allPossible es (start m) = true) :
    ∃ s, run es (start m) = .ok s ∧ (StoresRefined m es s ↔ s.NoSynonym) := by
  obtain ⟨s, hrun, hsim, hstores⟩ := (simInv_start m).run_sim hes
  exact ⟨s, hrun, hsim.storesRefined_iff hstores⟩

end SbState

def twoWays : SbConfig where
  lineBits := 6
  ways := 2
  numThreads := 1
  numThreads_le := Nat.one_le_two_pow

def lineStore (line : ℕ) (b : UInt8) : StorePiece twoWays where
  vaddr := line * 64
  paddr := 0
  datas := [b]
  mask := [true]
  mask_length := rfl
  size_pos := Nat.one_pos
  in_line := Nat.one_le_two_pow
  offset_eq := Nat.mul_mod_left line 64

def thread0 : Fin twoWays.numThreads :=
  ⟨0, Nat.one_pos⟩

def way1 : Fin twoWays.ways :=
  ⟨1, Nat.one_lt_two⟩

def doubled (line : ℕ) : List (SbEvent twoWays) :=
  [.commitStore thread0 [lineStore 0 1], .offload thread0, .writeback true true true,
    .commitStore thread0 [lineStore line 2], .offload thread0]

def firstByte : LoadPiece twoWays :=
  SbState.byteLoad 0 0 (Nat.dvd_zero _) twoWays.lineSize_pos

namespace SbState
theorem doubled_blockVaddr {s : SbState twoWays}
    (hrun : run (doubled 0) (start fun _ => 0) = .ok s) : ∀ j, (s.dataVec j).blockVaddr = 0 := by
  have hlines : (run (doubled 0) (start fun _ => 0)).map
      (fun s => decide (∀ j, (s.dataVec j).blockVaddr = 0)) = .ok true := rfl
  rw [hrun] at hlines
  exact of_decide_eq_true (Except.ok.inj hlines)

/-- A line written through one virtual line only. -/
theorem doubled_refined :
    ∃ s, run (doubled 0) (start fun _ => 0) = .ok s ∧
      StoresRefined (fun _ => 0) (doubled 0) s := by
  obtain ⟨s, hrun, hiff⟩ := storeBuffer_refines_iff (fun _ => 0) (doubled 0) rfl
  refine ⟨s, hrun, hiff.2 ?_⟩
  intro i v _ _ _ _ _
  rw [doubled_blockVaddr hrun i, doubled_blockVaddr hrun v]

/-- Every store of this run goes through one virtual line. -/
theorem doubled_oneLine : ∃ s, run (doubled 0) (start fun _ => 0) = .ok s ∧
    StoresRefined (fun _ => 0) (doubled 0) s := storeBuffer_refines _ rfl (by decide)

/-- A line written through virtual lines of two pages: a load of the byte fails an assert. -/
theorem doubled_synonym :
    ∃ s, run (doubled 64) (start fun _ => 0) = .ok s ∧
      s.recordForward way1 firstByte = .error "assert(vice->blockVaddr == blockVaddr)" ∧
      ¬ StoresRefined (fun _ => 0) (doubled 64) s := by
  refine ⟨_, rfl, rfl, fun h => ?_⟩
  have hload := h.loads thread0 firstByte way1 rfl
  cases hload

end SbState
end Gem5
