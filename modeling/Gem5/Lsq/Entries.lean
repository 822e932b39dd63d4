import Gem5.Lib.Count
import Gem5.Lsq.StoreBuffer

/-!
# The entries of the store buffer

The structural invariant of the store buffer, and what each operation does to the bytes that it
holds.
-/

namespace Gem5
open List Function SbEntry Option Nat Overlay SbConfig Bool
open Overlay (stack nothing layOver)
variable {c : SbConfig}

/-! ### Lines and keys -/

theorem SbConfig.lineSize_pos (c : SbConfig) : 0 < c.lineSize := Nat.two_pow_pos c.lineBits

theorem SbConfig.block_add_offset (c : SbConfig) (a : ℕ) : c.block a + c.offset a = a :=
  Nat.sub_add_cancel (mod_le a c.lineSize)

theorem SbConfig.dvd_block (c : SbConfig) (a : ℕ) : c.lineSize ∣ c.block a := dvd_sub_mod a

variable {B o a : ℕ}

theorem SbConfig.block_offset_of_lt {c : SbConfig} (hB : c.lineSize ∣ B) (ho : o < c.lineSize) :
    c.block (B + o) = B ∧ c.offset (B + o) = o := by
  have hmod : (B + o) % c.lineSize = o := by
    rw [add_mod, mod_eq_zero_of_dvd hB, Nat.zero_add, mod_mod, mod_eq_of_lt ho]
  unfold block offset
  omega

theorem hashKey_inj {t t' B' : ℕ} (ht : t < c.lineSize) (ht' : t' < c.lineSize)
    (hB : c.lineSize ∣ B) (hB' : c.lineSize ∣ B') (h : hashKey t B = hashKey t' B') :
    t = t' ∧ B = B' := by
  obtain ⟨x, rfl⟩ := hB
  obtain ⟨y, rfl⟩ := hB'
  unfold hashKey at h
  unfold lineSize at *
  rw [← two_pow_add_eq_or_of_lt ht x, ← two_pow_add_eq_or_of_lt ht' y] at h
  have hmod := congrArg (· % 2 ^ c.lineBits) h
  simp only [mul_add_mod, mod_eq_of_lt ht, mod_eq_of_lt ht'] at hmod
  omega

/-! ### The bytes of a store and of an entry -/

def StorePiece.bytes (p : StorePiece c) : ℕ → Option UInt8 := fun a =>
  if p.paddr ≤ a ∧ a < p.paddr + p.datas.length ∧ p.mask.getD (a - p.paddr) false then
    some (p.datas.getD (a - p.paddr) 0)
  else none

def SbEntry.valid (e : SbEntry c) : ℕ → Option UInt8 :=
  e.bytes e.validMask

theorem StorePiece.bytes_eq (p : StorePiece c) (a : ℕ) : p.bytes a =
      if c.block p.paddr ≤ a ∧ a < c.block p.paddr + c.lineSize ∧
          p.written (a - c.block p.paddr) then
        some (p.datas.getD (a - c.block p.paddr - c.offset p.paddr) 0)
      else none := by
  have hline := p.in_line
  have hsum := c.block_add_offset p.paddr
  unfold bytes written
  by_cases ha : p.paddr ≤ a ∧ a < p.paddr + p.datas.length
  · have hsub : a - c.block p.paddr - c.offset p.paddr = a - p.paddr := by omega
    have hin : c.offset p.paddr ≤ a - c.block p.paddr ∧
        a - c.block p.paddr < c.offset p.paddr + p.datas.length := by omega
    have hlow : c.block p.paddr ≤ a := by omega
    have hhigh : a < c.block p.paddr + c.lineSize := by omega
    simp [ha, hin, hsub, hlow, hhigh]
  · rw [if_neg fun h => ha ⟨h.1, h.2.1⟩, if_neg]
    rintro ⟨hlow, hhigh, hw⟩
    simp only [and_eq_true, decide_eq_true_eq] at hw
    omega

theorem SbEntry.valid_reset (e : SbEntry c) (tid : ℕ) (p : StorePiece c) :
    (e.reset tid p).valid = p.bytes := by
  funext a
  rw [p.bytes_eq]
  by_cases h : c.block p.paddr ≤ a ∧ a < c.block p.paddr + c.lineSize ∧
      p.written (a - c.block p.paddr) = true
  · have hw := h.2.2
    simp only [StorePiece.written, and_eq_true, decide_eq_true_eq] at hw
    rw [if_pos h]
    exact (if_pos h).trans (congrArg some (if_pos hw.1))
  · rw [if_neg h]
    exact if_neg h

theorem SbEntry.merge_ok (e : SbEntry c) (p : StorePiece c) (h : e.blockPaddr = c.block p.paddr) :
    ∃ datas mask, e.merge p = .ok (e.withBytes datas mask) ∧
      (e.withBytes datas mask).valid = stack p.bytes e.valid := by
  refine ⟨_, _, if_pos p.in_line, ?_⟩
  funext a
  rw [stack, p.bytes_eq]
  simp only [valid, bytes, withBytes, h]
  by_cases hin : c.block p.paddr ≤ a ∧ a < c.block p.paddr + c.lineSize
  · by_cases hw : p.written (a - c.block p.paddr) = true
    · simp [hin, hw]
    · simp [hw]
  · rw [if_neg fun h => hin ⟨h.1, h.2.1⟩, if_neg fun h => hin ⟨h.1, h.2.1⟩,
      if_neg fun h => hin ⟨h.1, h.2.1⟩]
    rfl

theorem StorePiece.bytes_eq_none (p : StorePiece c) (h : c.block a ≠ c.block p.paddr) :
    p.bytes a = none := by
  rw [p.bytes_eq, if_neg]
  rintro ⟨hlow, hhigh, _⟩
  refine h ?_
  obtain ⟨o, rfl⟩ := Nat.exists_eq_add_of_le hlow
  exact (block_offset_of_lt (c.dvd_block _) (by omega)).1

theorem SbEntry.valid_eq_none (e : SbEntry c) (hB : c.lineSize ∣ e.blockPaddr)
    (h : c.block a ≠ e.blockPaddr) : e.valid a = none := by
  rw [valid, bytes, if_neg]
  rintro ⟨hlow, hhigh, _⟩
  refine h ?_
  obtain ⟨o, ho⟩ := Nat.exists_eq_add_of_le hlow
  rw [ho]
  exact (block_offset_of_lt hB (by omega)).1

theorem SbEntry.valid_add (e : SbEntry c) (ho : o < c.lineSize) :
    e.valid (e.blockPaddr + o) = if e.validMask o then some (e.blockDatas o) else none := by
  have hlow : e.blockPaddr ≤ e.blockPaddr + o := Nat.le_add_right _ _
  have hhigh : e.blockPaddr + o < e.blockPaddr + c.lineSize := by omega
  simp [valid, bytes, hhigh]

namespace SbState

/-! ### The invariant -/

def key (s : SbState c) (i : Fin c.ways) : ℕ :=
  hashKey (s.dataVec i).tid (s.dataVec i).blockPaddr

def Mapped (s : SbState c) (i : Fin c.ways) : Prop :=
  s.dataMap (s.key i) = some i

def Live (s : SbState c) (j : Fin c.ways) : Prop :=
  s.Mapped j ∨ ∃ i, s.Mapped i ∧ (s.dataVec i).vice = some j

/-- `v` is a second entry for the line of `i`. -/
structure IsVice (s : SbState c) (i v : Fin c.ways) : Prop where
  vld : s.dataVld v = true
  tid_eq : (s.dataVec v).tid = (s.dataVec i).tid
  block_eq : (s.dataVec v).blockPaddr = (s.dataVec i).blockPaddr
  not_mapped : ¬ s.Mapped v
  not_sending : (s.dataVec v).sending = false
  no_vice : (s.dataVec v).vice = none
  no_request : (s.dataVec v).request = none

variable {s : SbState c}

theorem IsVice.congr {t : SbState c} {i v : Fin c.ways} (h : s.IsVice i v)
    (hv : t.dataVec v = s.dataVec v) (htid : (t.dataVec i).tid = (s.dataVec i).tid)
    (hblock : (t.dataVec i).blockPaddr = (s.dataVec i).blockPaddr)
    (hvld : t.dataVld v = s.dataVld v) (hm : ¬ t.Mapped v) : t.IsVice i v where
  vld := hvld.trans h.vld
  tid_eq := by rw [hv, htid, h.tid_eq]
  block_eq := by rw [hv, hblock, h.block_eq]
  not_mapped := hm
  not_sending := by rw [hv, h.not_sending]
  no_vice := by rw [hv, h.no_vice]
  no_request := by rw [hv, h.no_request]

structure BufInv (s : SbState c) : Prop where
  map {k : ℕ} {i : Fin c.ways} : s.dataMap k = some i → k = s.key i
  crossRef {i : Fin c.ways} : s.Mapped i → s.crossRef i = s.key i
  vld {i : Fin c.ways} : s.Mapped i → s.dataVld i = true
  tid_lt {i : Fin c.ways} : s.Mapped i → (s.dataVec i).tid < c.numThreads
  aligned {i : Fin c.ways} : s.Mapped i → c.lineSize ∣ (s.dataVec i).blockPaddr
  vice {i v : Fin c.ways} : s.Mapped i → (s.dataVec i).vice = some v →
    (s.dataVec i).sending = true ∧ s.IsVice i v
  free {i : Fin c.ways} : i ∈ s.freeList → s.dataVld i = false
  free_nodup : s.freeList.Nodup
  lru {i : Fin c.ways} : i ∈ s.lruIndex →
    s.Mapped i ∧ (s.dataVec i).sending = false ∧ (s.dataVec i).request = none
  lru_nodup : s.lruIndex.Nodup
  unsent {i : Fin c.ways} : s.Mapped i → (s.dataVec i).sending = false →
    i ∈ s.lruIndex ∨ s.blockedSbufferEntry = some i
  blocked {i : Fin c.ways} : s.blockedSbufferEntry = some i → s.Mapped i ∧
    (s.dataVec i).sending = false ∧ (s.dataVec i).request = some (s.dataVec i).validMask
  sent {i : Fin c.ways} : s.Mapped i → (s.dataVec i).sending = true →
    (s.dataVec i).request = some (s.dataVec i).validMask
  inCache {i : Fin c.ways} : s.inCache i = true ↔ s.Mapped i ∧ (s.dataVec i).sending = true
  applied {i : Fin c.ways} : s.applied i = true → s.inCache i = true
  size_eq : s.size = (Finset.univ.filter fun i => s.dataVld i = true).card

theorem bufInv_start (cache : ℕ → UInt8) : BufInv (start cache : SbState c) := by
  constructor <;> simp [start, Mapped, nodup_finRange]

theorem BufInv.withQueues (hs : s.BufInv) (queue : Fin c.numThreads → List (List (StorePiece c)))
    (done : List (Fin c.numThreads × StorePiece c)) :
    BufInv { s with storeQueue := queue, offloaded := done } :=
  { hs with
    vice := fun hm hv => ⟨(hs.vice hm hv).1,
      (hs.vice hm hv).2.congr rfl rfl rfl rfl (hs.vice hm hv).2.not_mapped⟩ }

def viceBytes (s : SbState c) (i : Fin c.ways) : ℕ → Option UInt8 :=
  (s.dataVec i).vice.elim nothing fun v => (s.dataVec v).valid

def entryBytes (s : SbState c) (i : Fin c.ways) : ℕ → Option UInt8 :=
  stack (s.viceBytes i) (s.dataVec i).valid

def buffered (s : SbState c) (t B : ℕ) : ℕ → Option UInt8 :=
  (s.dataMap (hashKey t B)).elim nothing s.entryBytes

section
variable {s : SbState c} {i j v : Fin c.ways}

theorem BufInv.mapped (hs : s.BufInv) {k : ℕ} (h : s.dataMap k = some i) : s.Mapped i := by
  rw [Mapped, ← hs.map h]
  exact h

variable {t B : ℕ} {datas : ℕ → UInt8} {mask : ℕ → Bool} {e : SbEntry c} {tid : Fin c.numThreads}
  {p : StorePiece c} {init : List (Fin c.ways)}

theorem lt_lineSize (ht : t < c.numThreads) : t < c.lineSize := ht.trans_le c.numThreads_le

theorem BufInv.of_dataMap (hs : s.BufInv) (ht : t < c.numThreads) (hB : c.lineSize ∣ B)
    (h : s.dataMap (hashKey t B) = some i) :
    s.Mapped i ∧ (s.dataVec i).tid = t ∧ (s.dataVec i).blockPaddr = B := by
  have hm := hs.mapped h
  have hkey := hashKey_inj (lt_lineSize ht) (lt_lineSize (hs.tid_lt hm)) hB (hs.aligned hm)
    (hs.map h)
  exact ⟨hm, hkey.1.symm, hkey.2.symm⟩

theorem Mapped.eq (hi : s.Mapped i) (hj : s.Mapped j) (ht : (s.dataVec i).tid = (s.dataVec j).tid)
    (hB : (s.dataVec i).blockPaddr = (s.dataVec j).blockPaddr) : i = j := by
  rw [Mapped, key, ht, hB] at hi
  rw [Mapped, key, hi] at hj
  exact some.inj hj

theorem BufInv.get_eq (hs : s.BufInv) (ht : t < c.numThreads) (hB : c.lineSize ∣ B) :
    s.get t B = .ok (s.dataMap (hashKey t B)) := by
  unfold SbState.get
  cases h : s.dataMap (hashKey t B) with
  | none => rfl
  | some i =>
    obtain ⟨hm, htid, _⟩ := hs.of_dataMap ht hB h
    simp [htid, hs.vld hm]

theorem BufInv.not_mapped_of_free (hs : s.BufInv) (h : i ∈ s.freeList) : ¬ s.Mapped i := by
  intro hm
  have hvld := hs.vld hm
  rw [hs.free h] at hvld
  cases hvld

/-! ### States with the same mapped entries -/

/-- The mapped entries are the same but for their vices, the order of eviction and the bytes of
those that are not on their way to the cache. -/
structure SameMapped (s t : SbState c) : Prop where
  mapped {j : Fin c.ways} : t.Mapped j ↔ s.Mapped j
  tid {j : Fin c.ways} : s.Mapped j → (t.dataVec j).tid = (s.dataVec j).tid
  blockPaddr {j : Fin c.ways} : s.Mapped j → (t.dataVec j).blockPaddr = (s.dataVec j).blockPaddr
  sending {j : Fin c.ways} : s.Mapped j → (t.dataVec j).sending = (s.dataVec j).sending
  request {j : Fin c.ways} : s.Mapped j → (t.dataVec j).request = (s.dataVec j).request
  validMask {j : Fin c.ways} : s.Mapped j →
    (s.dataVec j).sending = true ∨ s.blockedSbufferEntry = some j →
    (t.dataVec j).validMask = (s.dataVec j).validMask
  dataMap : t.dataMap = s.dataMap
  crossRef : t.crossRef = s.crossRef
  blocked : t.blockedSbufferEntry = s.blockedSbufferEntry
  inCache : t.inCache = s.inCache
  applied : t.applied = s.applied
  lru : t.lruIndex.Perm s.lruIndex

theorem SameMapped.bufInv {t : SbState c} (h : SameMapped s t) (hs : s.BufInv)
    (hvld : ∀ {j}, s.Mapped j → t.dataVld j = true)
    (hvice : ∀ {j v}, s.Mapped j → (t.dataVec j).vice = some v →
      (s.dataVec j).sending = true ∧ t.IsVice j v)
    (hfree : ∀ {j}, j ∈ t.freeList → t.dataVld j = false) (hnodup : t.freeList.Nodup)
    (hsize : t.size = (Finset.univ.filter fun i => t.dataVld i = true).card) : t.BufInv := by
  have hkey {j : Fin c.ways} (hj : s.Mapped j) : t.key j = s.key j := by
    rw [key, key, h.tid hj, h.blockPaddr hj]
  constructor
  case map =>
    intro k j hk
    rw [h.dataMap] at hk
    rw [hkey (hs.mapped hk)]
    exact hs.map hk
  case crossRef =>
    intro j hj
    rw [h.crossRef, hkey (h.mapped.1 hj)]
    exact hs.crossRef (h.mapped.1 hj)
  case vld => exact fun hj => hvld (h.mapped.1 hj)
  case tid_lt =>
    intro j hj
    rw [h.tid (h.mapped.1 hj)]
    exact hs.tid_lt (h.mapped.1 hj)
  case aligned =>
    intro j hj
    rw [h.blockPaddr (h.mapped.1 hj)]
    exact hs.aligned (h.mapped.1 hj)
  case vice =>
    intro j v hj hv
    rw [h.sending (h.mapped.1 hj)]
    exact hvice (h.mapped.1 hj) hv
  case free => exact hfree
  case free_nodup => exact hnodup
  case lru =>
    intro j hj
    obtain ⟨hm, hl⟩ := hs.lru (h.lru.mem_iff.1 hj)
    rw [h.mapped, h.sending hm, h.request hm]
    exact ⟨hm, hl⟩
  case lru_nodup => exact h.lru.nodup_iff.2 hs.lru_nodup
  case unsent =>
    intro j hj hsend
    rw [h.sending (h.mapped.1 hj)] at hsend
    rw [h.lru.mem_iff, h.blocked]
    exact hs.unsent (h.mapped.1 hj) hsend
  case blocked =>
    intro j hj
    rw [h.blocked] at hj
    obtain ⟨hm, hb⟩ := hs.blocked hj
    rw [h.mapped, h.sending hm, h.request hm, h.validMask hm (.inr hj)]
    exact ⟨hm, hb⟩
  case sent =>
    intro j hj hsend
    have hm := h.mapped.1 hj
    rw [h.sending hm] at hsend
    rw [h.request hm, h.validMask hm (.inl hsend)]
    exact hs.sent hm hsend
  case inCache =>
    intro j
    rw [h.inCache, h.mapped, hs.inCache]
    exact and_congr_right fun hm => by rw [h.sending hm]
  case applied =>
    intro j hj
    rw [h.applied] at hj
    rw [h.inCache]
    exact hs.applied hj
  case size_eq => exact hsize

/-! ### Changes of the bytes -/

/-- The two states differ only in the bytes of entries that are not on their way to the cache, and
in the order of eviction. -/
structure SameShape (s t : SbState c) : Prop where
  tid (i : Fin c.ways) : (t.dataVec i).tid = (s.dataVec i).tid
  blockVaddr (i : Fin c.ways) : (t.dataVec i).blockVaddr = (s.dataVec i).blockVaddr
  blockPaddr (i : Fin c.ways) : (t.dataVec i).blockPaddr = (s.dataVec i).blockPaddr
  sending (i : Fin c.ways) : (t.dataVec i).sending = (s.dataVec i).sending
  vice (i : Fin c.ways) : (t.dataVec i).vice = (s.dataVec i).vice
  request (i : Fin c.ways) : (t.dataVec i).request = (s.dataVec i).request
  validMask (i : Fin c.ways) : s.Mapped i →
    (s.dataVec i).sending = true ∨ s.blockedSbufferEntry = some i →
    (t.dataVec i).validMask = (s.dataVec i).validMask
  dataMap : t.dataMap = s.dataMap
  crossRef : t.crossRef = s.crossRef
  freeList : t.freeList = s.freeList
  dataVld : t.dataVld = s.dataVld
  size : t.size = s.size
  blocked : t.blockedSbufferEntry = s.blockedSbufferEntry
  inCache : t.inCache = s.inCache
  applied : t.applied = s.applied
  lru : t.lruIndex.Perm s.lruIndex

namespace SameShape
variable {t : SbState c}

section
variable (h : SameShape s t)
include h

theorem key (i : Fin c.ways) : t.key i = s.key i := by
  rw [SbState.key, SbState.key, h.tid, h.blockPaddr]

theorem mapped : t.Mapped i ↔ s.Mapped i := by
  rw [Mapped, Mapped, h.key, h.dataMap]

theorem live : t.Live j ↔ s.Live j := by
  simp only [Live, h.mapped, h.vice]

theorem bufInv (hs : s.BufInv) : t.BufInv := by
  have hsame : SameMapped s t :=
    ⟨h.mapped, fun _ => h.tid _, fun _ => h.blockPaddr _, fun _ => h.sending _,
      fun _ => h.request _, h.validMask _, h.dataMap, h.crossRef, h.blocked, h.inCache, h.applied,
      h.lru⟩
  refine hsame.bufInv hs ?_ ?_ ?_ ?_ ?_
  · rw [h.dataVld]
    exact hs.vld
  · intro j v hm hv
    rw [h.vice] at hv
    obtain ⟨hsend, hvice⟩ := hs.vice hm hv
    refine ⟨hsend, ⟨by rw [h.dataVld, hvice.vld], by rw [h.tid, h.tid, hvice.tid_eq],
      by rw [h.blockPaddr, h.blockPaddr, hvice.block_eq], by rw [h.mapped]; exact hvice.not_mapped,
      by rw [h.sending, hvice.not_sending], by rw [h.vice, hvice.no_vice],
      by rw [h.request, hvice.no_request]⟩⟩
  · rw [h.freeList, h.dataVld]
    exact hs.free
  · rw [h.freeList]
    exact hs.free_nodup
  · rw [h.size, h.dataVld]
    exact hs.size_eq
end
end SameShape

theorem sameShape_setEntry
    (h : s.Mapped i → (s.dataVec i).sending = false ∧ s.blockedSbufferEntry ≠ some i) :
    SameShape s (s.setEntry i ((s.dataVec i).withBytes datas mask)) := by
  refine ⟨setEntry_apply _ rfl, setEntry_apply _ rfl, setEntry_apply _ rfl, setEntry_apply _ rfl,
    setEntry_apply _ rfl, setEntry_apply _ rfl, ?_, rfl, rfl, rfl, rfl, rfl, rfl, rfl, rfl,
    List.Perm.refl _⟩
  intro j hm hj
  by_cases hji : j = i
  · subst hji
    obtain ⟨hsend, hblocked⟩ := h hm
    rcases hj with hj | hj
    · rw [hsend] at hj
      cases hj
    · exact absurd hj hblocked
  · rw [setEntry_of_ne hji]

/-! ### Stores -/

theorem entryBytes_congr {t : SbState c} (hvice : (t.dataVec j).vice = (s.dataVec j).vice)
    (hvalid : (t.dataVec j).valid = (s.dataVec j).valid)
    (hv : ∀ v, (s.dataVec j).vice = some v → (t.dataVec v).valid = (s.dataVec v).valid) :
    t.entryBytes j = s.entryBytes j := by
  unfold entryBytes viceBytes
  rw [hvice, hvalid]
  cases h : (s.dataVec j).vice with
  | none => rfl
  | some v => simp [hv v h]

/-- A store of thread `tid` has gone into the buffer. -/
structure Inserted (tid : Fin c.numThreads) (p : StorePiece c) (s t : SbState c) : Prop where
  inv : t.BufInv
  bytes : t.buffered tid (c.block p.paddr) = stack p.bytes (s.buffered tid (c.block p.paddr))
  others {T B : ℕ} (hT : T < c.numThreads) (hB : c.lineSize ∣ B)
    (h : ¬ (T = tid ∧ B = c.block p.paddr)) : t.buffered T B = s.buffered T B
  origin {j : Fin c.ways} (hj : t.Live j) :
    (t.dataVec j).tid = tid ∧ (t.dataVec j).blockPaddr = c.block p.paddr ∧
        (t.dataVec j).blockVaddr = c.block p.vaddr ∨
      s.Live j ∧ (t.dataVec j).tid = (s.dataVec j).tid ∧
        (t.dataVec j).blockPaddr = (s.dataVec j).blockPaddr ∧
        (t.dataVec j).blockVaddr = (s.dataVec j).blockVaddr
  sent {j : Fin c.ways} (hj : s.Mapped j) (hsend : (s.dataVec j).sending = true) :
    (t.dataVec j).tid = (s.dataVec j).tid ∧
      (t.dataVec j).blockPaddr = (s.dataVec j).blockPaddr ∧
      (t.dataVec j).valid = (s.dataVec j).valid
  cache : t.cache = s.cache
  applied : t.applied = s.applied
  offloaded : t.offloaded = s.offloaded
  blocked : t.blockedSbufferEntry = s.blockedSbufferEntry
  storeQueue : t.storeQueue = s.storeQueue

theorem BufInv.vice_eq_none (hs : s.BufInv) (hm : s.Mapped i) (h : (s.dataVec i).sending = false) :
    (s.dataVec i).vice = none := by
  cases hv : (s.dataVec i).vice with
  | none => rfl
  | some v =>
    have hsend := (hs.vice hm hv).1
    rw [h] at hsend
    cases hsend

theorem entryBytes_setEntry_of_ne (hj : j ≠ i) (hv : (s.dataVec j).vice ≠ some i) :
    (s.setEntry i e).entryBytes j = s.entryBytes j := by
  refine entryBytes_congr (by rw [setEntry_of_ne hj]) (by rw [setEntry_of_ne hj]) fun v hjv => ?_
  rw [setEntry_of_ne]
  rintro rfl
  exact hv hjv

section
variable (hs : s.BufInv) (hmap : s.dataMap (hashKey tid (c.block p.paddr)) = some i)
include hs hmap

theorem BufInv.inserted_merge
    (hsend : (s.dataVec i).sending = false) (hblocked : s.blockedSbufferEntry = none)
    {lru : List (Fin c.ways)} (hlru : lru.Perm s.lruIndex)
    (hbytes : ((s.dataVec i).withBytes datas mask).valid = stack p.bytes (s.dataVec i).valid) :
    Inserted tid p s
      { s.setEntry i ((s.dataVec i).withBytes datas mask) with lruIndex := lru } := by
  obtain ⟨hm, htid, hblock⟩ := hs.of_dataMap tid.2 (c.dvd_block _) hmap
  have hshape : SameShape s
      { s.setEntry i ((s.dataVec i).withBytes datas mask) with lruIndex := lru } :=
    { sameShape_setEntry fun _ => ⟨hsend, by simp [hblocked]⟩ with lru := hlru }
  refine ⟨hshape.bufInv hs, ?_, ?_, ?_, ?_, rfl, rfl, rfl, rfl, rfl⟩
  · have hvice := hs.vice_eq_none hm hsend
    have hvice' : ((s.dataVec i).withBytes datas mask).vice = none := hvice
    rw [buffered, hshape.dataMap, buffered, hmap]
    simp only [elim_some, entryBytes, viceBytes, setEntry_self, hvice, hvice']
    exact hbytes
  · intro T B hT hB hne
    unfold buffered
    rw [hshape.dataMap]
    cases hj : s.dataMap (hashKey T B) with
    | none => rfl
    | some j =>
      obtain ⟨hmj, htj, hbj⟩ := hs.of_dataMap hT hB hj
      refine entryBytes_setEntry_of_ne ?_ fun hv => (hs.vice hmj hv).2.not_mapped hm
      rintro rfl
      exact hne ⟨by rw [← htj, htid], by rw [← hbj, hblock]⟩
  · intro j hj
    exact .inr ⟨hshape.live.1 hj, hshape.tid j, hshape.blockPaddr j, hshape.blockVaddr j⟩
  · intro j hmj hj
    refine ⟨hshape.tid j, hshape.blockPaddr j, ?_⟩
    have hji : j ≠ i := by
      rintro rfl
      rw [hsend] at hj
      cases hj
    exact congrArg valid (setEntry_of_ne hji _ s)

theorem BufInv.inserted_vice (hv : (s.dataVec i).vice = some v)
    (hbytes : ((s.dataVec v).withBytes datas mask).valid = stack p.bytes (s.dataVec v).valid) :
    Inserted tid p s (s.setEntry v ((s.dataVec v).withBytes datas mask)) := by
  obtain ⟨hm, htid, hblock⟩ := hs.of_dataMap tid.2 (c.dvd_block _) hmap
  obtain ⟨_, hvice⟩ := hs.vice hm hv
  have hiv : i ≠ v := by
    rintro rfl
    exact hvice.not_mapped hm
  have hshape : SameShape s (s.setEntry v ((s.dataVec v).withBytes datas mask)) :=
    sameShape_setEntry fun hmv => absurd hmv hvice.not_mapped
  refine ⟨hshape.bufInv hs, ?_, ?_, ?_, ?_, rfl, rfl, rfl, rfl, rfl⟩
  · have hvi : ((s.setEntry v ((s.dataVec v).withBytes datas mask)).dataVec i) = s.dataVec i :=
      setEntry_of_ne hiv _ s
    rw [buffered, hshape.dataMap, buffered, hmap]
    simp only [elim_some, entryBytes, viceBytes, hvi, hv, setEntry_self]
    rw [hbytes, stack_assoc]
  · intro T B hT hB hne
    unfold buffered
    rw [hshape.dataMap]
    cases hj : s.dataMap (hashKey T B) with
    | none => rfl
    | some j =>
      obtain ⟨hmj, htj, hbj⟩ := hs.of_dataMap hT hB hj
      refine entryBytes_setEntry_of_ne ?_ fun hjv => ?_
      · rintro rfl
        exact hvice.not_mapped hmj
      · -- the vice has the thread and the line of its entry
        have hvj := (hs.vice hmj hjv).2
        exact hne ⟨by rw [← htj, ← hvj.tid_eq, hvice.tid_eq, htid],
          by rw [← hbj, ← hvj.block_eq, hvice.block_eq, hblock]⟩
  · intro j hj
    exact .inr ⟨hshape.live.1 hj, hshape.tid j, hshape.blockPaddr j, hshape.blockVaddr j⟩
  · intro j hmj _
    refine ⟨hshape.tid j, hshape.blockPaddr j, ?_⟩
    have hjv : j ≠ v := by
      rintro rfl
      exact hvice.not_mapped hmj
    rw [setEntry_of_ne hjv]
end

theorem card_vld_true (hi : s.dataVld i = false) :
    (Finset.univ.filter fun j => Function.update s.dataVld i true j = true).card =
      (Finset.univ.filter fun j => s.dataVld j = true).card + 1 := by
  have hcard := Finset.card_filter_update_add Finset.univ (Finset.mem_univ i) s.dataVld true
    (· = true)
  simpa [hi] using hcard

theorem card_vld_false (hi : s.dataVld i = true) :
    (Finset.univ.filter fun j => Function.update s.dataVld i false j = true).card + 1 =
      (Finset.univ.filter fun j => s.dataVld j = true).card := by
  have hcard := Finset.card_filter_update_add Finset.univ (Finset.mem_univ i) s.dataVld false
    (· = true)
  simpa [hi] using hcard

/-! ### Parts of the operations

Each operation is made of a few of these.  None of them leaves a valid entry that is mapped twice or
a mapped one that is free. -/

/-- The free entry `v` is filled with `e`; it is not in the map yet. -/
def fill (v : Fin c.ways) (init : List (Fin c.ways)) (e : SbEntry c) (s : SbState c) :
    SbState c :=
  { s.setEntry v e with
    freeList := init
    dataVld := Function.update s.dataVld v true
    size := s.size + 1 }

section
variable {init : List (Fin c.ways)} {e : SbEntry c} (hs : s.BufInv)
  (hfree : s.freeList = init ++ [v])

include hs hfree in
theorem free_last : s.dataVld v = false ∧ ¬ s.Mapped v :=
  have hmem : v ∈ s.freeList := by rw [hfree]; exact mem_concat_self
  ⟨hs.free hmem, hs.not_mapped_of_free hmem⟩

include hs hfree in
theorem fill_mapped : (s.fill v init e).Mapped j ↔ s.Mapped j := by
  have hnv := (free_last hs hfree).2
  by_cases hj : j = v
  · subst hj
    exact iff_of_false (fun hm => hnv (hs.mapped hm)) hnv
  · have hkey : (s.fill v init e).key j = s.key j :=
      congrArg (fun e : SbEntry c => hashKey e.tid e.blockPaddr) (setEntry_of_ne hj e s)
    rw [Mapped, hkey]
    rfl

include hs hfree in
theorem BufInv.ne_of_mapped (hj : s.Mapped j) : j ≠ v := by
  rintro rfl
  exact (free_last hs hfree).2 hj

include hs hfree in
theorem BufInv.vice_ne (hj : s.Mapped j) : (s.dataVec j).vice ≠ some v := by
  intro hv
  have hvld := (hs.vice hj hv).2.vld
  rw [(free_last hs hfree).1] at hvld
  cases hvld

include hs hfree in
theorem BufInv.fill : (s.fill v init e).BufInv := by
  have hvld := (free_last hs hfree).1
  have hvec {j : Fin c.ways} (hj : s.Mapped j) : (s.fill v init e).dataVec j = s.dataVec j :=
    setEntry_of_ne (hs.ne_of_mapped hfree hj) e s
  have hvld_ne {j : Fin c.ways} (hj : j ≠ v) : (s.fill v init e).dataVld j = s.dataVld j :=
    update_of_ne hj _ _
  have hnodup := hs.free_nodup
  rw [hfree] at hnodup
  have hsame : SameMapped s (s.fill v init e) :=
    ⟨fill_mapped hs hfree, fun hj => by rw [hvec hj], fun hj => by rw [hvec hj],
      fun hj => by rw [hvec hj], fun hj => by rw [hvec hj], fun hj _ => by rw [hvec hj], rfl, rfl,
      rfl, rfl, rfl, List.Perm.refl _⟩
  refine hsame.bufInv hs ?_ ?_ ?_ (nodup_append.1 hnodup).1 ?_
  · intro j hj
    rw [hvld_ne (hs.ne_of_mapped hfree hj)]
    exact hs.vld hj
  · intro j w hj hw
    rw [hvec hj] at hw
    obtain ⟨hsj, hvj⟩ := hs.vice hj hw
    have hwv : w ≠ v := by
      rintro rfl
      exact hs.vice_ne hfree hj hw
    refine ⟨hsj, hvj.congr (setEntry_of_ne hwv e s) ?_ ?_ (hvld_ne hwv) ?_⟩
    · rw [hvec hj]
    · rw [hvec hj]
    · rw [hsame.mapped]
      exact hvj.not_mapped
  · intro j hj
    have hjv : j ≠ v := by
      rintro rfl
      exact (nodup_append.1 hnodup).2.2 j hj j (mem_singleton_self j) rfl
    rw [hvld_ne hjv]
    exact hs.free (by rw [hfree]; exact mem_append_left _ hj)
  · exact (congrArg (· + 1) hs.size_eq).trans (card_vld_true hvld).symm

include hs hfree in
theorem buffered_fill (T B : ℕ) : (s.fill v init e).buffered T B = s.buffered T B := by
  have hmap : (s.fill v init e).dataMap = s.dataMap := rfl
  rw [buffered, hmap, buffered]
  cases hj : s.dataMap (hashKey T B) with
  | none => rfl
  | some j =>
    have hmj := hs.mapped hj
    exact entryBytes_setEntry_of_ne (hs.ne_of_mapped hfree hmj) (hs.vice_ne hfree hmj)
end

section
variable (hs : s.BufInv) (hmap : s.dataMap (s.key v) = none)

include hmap in
theorem mapInsert_eq : s.mapInsert v = { s with
      dataMap := Function.update s.dataMap (s.key v) (some v)
      crossRef := Function.update s.crossRef v (s.key v)
      lruIndex := v :: s.lruIndex } := by
  have hnone : (s.dataMap (hashKey (s.dataVec v).tid (s.dataVec v).blockPaddr)).isNone = true := by
    rw [← key, hmap]
    rfl
  rw [mapInsert, hnone]
  rfl

include hmap in
theorem mapInsert_mapped : (s.mapInsert v).Mapped j ↔ j = v ∨ s.Mapped j := by
  have hkey : (s.mapInsert v).key j = s.key j := rfl
  rw [Mapped, hkey, mapInsert_eq hmap, Mapped]
  by_cases hk : s.key j = s.key v
  · rw [hk, hmap]
    simp [eq_comm]
  · have hjv : j ≠ v := by
      rintro rfl
      exact hk rfl
    simp [update_of_ne hk, hjv]

include hmap in
theorem mapInsert_dataMap_of_ne {k : ℕ} (hk : k ≠ s.key v) :
    (s.mapInsert v).dataMap k = s.dataMap k := by
  rw [mapInsert_eq hmap]
  exact update_of_ne hk _ _

include hmap in
theorem mapInsert_dataMap_self : (s.mapInsert v).dataMap (s.key v) = some v := by
  rw [mapInsert_eq hmap]
  exact update_self _ _ _

include hs hmap in
theorem BufInv.mapInsert (hvld : s.dataVld v = true) (ht : (s.dataVec v).tid < c.numThreads)
    (hB : c.lineSize ∣ (s.dataVec v).blockPaddr) (hsend : (s.dataVec v).sending = false)
    (hvice : (s.dataVec v).vice = none) (hreq : (s.dataVec v).request = none) :
    (s.mapInsert v).BufInv := by
  have hmapped {j : Fin c.ways} : (s.mapInsert v).Mapped j ↔ j = v ∨ s.Mapped j :=
    mapInsert_mapped hmap
  have hnv : ¬ s.Mapped v := by
    intro hm
    rw [Mapped, hmap] at hm
    cases hm
  have hne {j : Fin c.ways} (hj : s.Mapped j) : j ≠ v := by
    rintro rfl
    exact hnv hj
  have hlru : (s.mapInsert v).lruIndex = v :: s.lruIndex := by rw [mapInsert_eq hmap]
  constructor
  case map =>
    intro k j hk
    by_cases hkey : k = s.key v
    · subst hkey
      rw [mapInsert_dataMap_self hmap, Option.some.injEq] at hk
      subst hk
      rfl
    · rw [mapInsert_dataMap_of_ne hmap hkey] at hk
      exact hs.map hk
  case crossRef =>
    intro j hj
    rcases hmapped.1 hj with rfl | hj
    · exact update_self _ _ _
    · exact (update_of_ne (hne hj) _ _).trans (hs.crossRef hj)
  case vld =>
    intro j hj
    rcases hmapped.1 hj with rfl | hj
    · exact hvld
    · exact hs.vld hj
  case tid_lt =>
    intro j hj
    rcases hmapped.1 hj with rfl | hj
    · exact ht
    · exact hs.tid_lt hj
  case aligned =>
    intro j hj
    rcases hmapped.1 hj with rfl | hj
    · exact hB
    · exact hs.aligned hj
  case vice =>
    intro j w hj hw
    rcases hmapped.1 hj with rfl | hmj
    · have hnone : (s.dataVec j).vice = some w := hw
      rw [hvice] at hnone
      cases hnone
    · obtain ⟨hsj, hvj⟩ := hs.vice hmj hw
      refine ⟨hsj, hvj.congr rfl rfl rfl rfl ?_⟩
      rw [hmapped]
      rintro (rfl | hmw)
      · -- a vice has the key of its entry, which is taken
        rw [key, hvj.tid_eq, hvj.block_eq, ← key, hmj] at hmap
        cases hmap
      · exact hvj.not_mapped hmw
  case free => exact hs.free
  case free_nodup => exact hs.free_nodup
  case lru =>
    intro j hj
    rw [hlru, mem_cons] at hj
    rw [hmapped]
    rcases hj with rfl | hj
    · exact ⟨.inl rfl, hsend, hreq⟩
    · exact ⟨.inr (hs.lru hj).1, (hs.lru hj).2⟩
  case lru_nodup =>
    exact nodup_cons.2 ⟨fun hv => hnv (hs.lru hv).1, hs.lru_nodup⟩
  case unsent =>
    intro j hj hsj
    rcases hmapped.1 hj with rfl | hj
    · exact .inl mem_cons_self
    · exact (hs.unsent hj hsj).imp_left (mem_cons_of_mem v)
  case blocked =>
    intro j hj
    rw [hmapped]
    exact ⟨.inr (hs.blocked hj).1, (hs.blocked hj).2⟩
  case sent =>
    intro j hj hsj
    rcases hmapped.1 hj with rfl | hj
    · have hfalse : (s.dataVec j).sending = true := hsj
      rw [hsend] at hfalse
      cases hfalse
    · exact hs.sent hj hsj
  case inCache =>
    intro j
    rw [hmapped]
    constructor
    · intro hj
      exact ⟨.inr (hs.inCache.1 hj).1, (hs.inCache.1 hj).2⟩
    · rintro ⟨rfl | hmj, hsj⟩
      · have hfalse : (s.dataVec j).sending = true := hsj
        rw [hsend] at hfalse
        cases hfalse
      · exact hs.inCache.2 ⟨hmj, hsj⟩
  case applied => exact hs.applied
  case size_eq => exact hs.size_eq
end

/-- `v` becomes the vice of `i`. -/
def setVice (i v : Fin c.ways) (s : SbState c) : SbState c :=
  s.setEntry i { s.dataVec i with vice := some v }

theorem setVice_apply {α : Type} (f : SbEntry c → α)
    (hf : f { s.dataVec i with vice := some v } = f (s.dataVec i)) (j : Fin c.ways) :
    f ((s.setVice i v).dataVec j) = f (s.dataVec j) := setEntry_apply f hf j

theorem setVice_key : (s.setVice i v).key j = s.key j :=
  setVice_apply (fun e => hashKey e.tid e.blockPaddr) rfl j

theorem setVice_mapped : (s.setVice i v).Mapped j ↔ s.Mapped j := by
  rw [Mapped, setVice_key]
  rfl

theorem BufInv.setVice (hs : s.BufInv) (hm : s.Mapped i) (hsend : (s.dataVec i).sending = true)
    (hv : s.IsVice i v) : (s.setVice i v).BufInv := by
  have hvice {j w : Fin c.ways} (h : s.IsVice j w) : (s.setVice i v).IsVice j w := by
    refine h.congr (setEntry_of_ne ?_ _ s) (setVice_apply _ rfl j) (setVice_apply _ rfl j) rfl ?_
    · rintro rfl
      exact h.not_mapped hm
    · rw [setVice_mapped]
      exact h.not_mapped
  have hsame : SameMapped s (s.setVice i v) :=
    ⟨setVice_mapped, fun _ => setVice_apply _ rfl _, fun _ => setVice_apply _ rfl _,
      fun _ => setVice_apply _ rfl _, fun _ => setVice_apply _ rfl _,
      fun _ _ => setVice_apply _ rfl _, rfl, rfl, rfl, rfl, rfl, List.Perm.refl _⟩
  refine hsame.bufInv hs hs.vld ?_ hs.free hs.free_nodup hs.size_eq
  intro j w hj hw
  by_cases hji : j = i
  · subst hji
    rw [SbState.setVice, setEntry_self, some.injEq] at hw
    subst hw
    exact ⟨hsend, hvice hv⟩
  · rw [SbState.setVice, setEntry_of_ne hji] at hw
    obtain ⟨hsj, hvj⟩ := hs.vice hj hw
    exact ⟨hsj, hvice hvj⟩

/-- The entry `i` leaves the map and the cache, and is free. -/
def unmap (i : Fin c.ways) (s : SbState c) : SbState c :=
  { s with
    inCache := Function.update s.inCache i false
    applied := Function.update s.applied i false
    size := s.size - 1
    dataVld := Function.update s.dataVld i false
    dataMap := Function.update s.dataMap (s.crossRef i) none
    freeList := s.freeList ++ [i] }

section
variable (hs : s.BufInv) (hm : s.Mapped i)

include hs hm in
theorem unmap_dataMap_self : (s.unmap i).dataMap (s.key i) = none := by
  rw [unmap, hs.crossRef hm]
  exact update_self _ _ _

include hs hm in
theorem unmap_dataMap_of_ne {k : ℕ} (hk : k ≠ s.key i) : (s.unmap i).dataMap k = s.dataMap k := by
  rw [unmap, hs.crossRef hm]
  exact update_of_ne hk _ _

include hs hm in
theorem unmap_mapped : (s.unmap i).Mapped j ↔ s.Mapped j ∧ j ≠ i := by
  have hkey : (s.unmap i).key j = s.key j := rfl
  rw [Mapped, hkey]
  by_cases hk : s.key j = s.key i
  · rw [hk, unmap_dataMap_self hs hm]
    refine iff_of_false (by simp) ?_
    rintro ⟨hj, hji⟩
    rw [Mapped, hk, hm] at hj
    exact hji (some.inj hj).symm
  · rw [unmap_dataMap_of_ne hs hm hk]
    refine ⟨fun hj => ⟨hj, ?_⟩, And.left⟩
    rintro rfl
    exact hk rfl

include hs hm in
theorem BufInv.unmap (hsend : (s.dataVec i).sending = true) : (s.unmap i).BufInv := by
  have hmapped {j : Fin c.ways} : (s.unmap i).Mapped j ↔ s.Mapped j ∧ j ≠ i := unmap_mapped hs hm
  have hvld {j : Fin c.ways} (hj : j ≠ i) : (s.unmap i).dataVld j = s.dataVld j :=
    update_of_ne hj _ _
  have hne {j : Fin c.ways} (hj : (s.dataVec j).sending = false) : j ≠ i := by
    rintro rfl
    rw [hsend] at hj
    cases hj
  constructor
  case map =>
    intro k j hk
    by_cases hki : k = s.key i
    · rw [hki, unmap_dataMap_self hs hm] at hk
      cases hk
    · rw [unmap_dataMap_of_ne hs hm hki] at hk
      exact hs.map hk
  case crossRef => exact fun hj => hs.crossRef (hmapped.1 hj).1
  case vld =>
    intro j hj
    rw [hvld (hmapped.1 hj).2]
    exact hs.vld (hmapped.1 hj).1
  case tid_lt => exact fun hj => hs.tid_lt (hmapped.1 hj).1
  case aligned => exact fun hj => hs.aligned (hmapped.1 hj).1
  case vice =>
    intro j w hj hw
    obtain ⟨hsj, hvj⟩ := hs.vice (hmapped.1 hj).1 hw
    refine ⟨hsj, hvj.congr rfl rfl rfl (hvld ?_) fun hmw => hvj.not_mapped (hmapped.1 hmw).1⟩
    rintro rfl
    exact hvj.not_mapped hm
  case free =>
    intro j hj
    by_cases hji : j = i
    · subst hji
      exact update_self _ _ _
    · rw [hvld hji]
      refine hs.free ((mem_append.1 hj).resolve_right fun hj => hji ?_)
      exact mem_singleton.1 hj
  case free_nodup =>
    have hi : i ∉ s.freeList := fun hi => hs.not_mapped_of_free hi hm
    exact nodup_append.2 ⟨hs.free_nodup, nodup_singleton i, by grind⟩
  case lru =>
    intro j hj
    obtain ⟨hmj, hsj, hrj⟩ := hs.lru hj
    exact ⟨hmapped.2 ⟨hmj, hne hsj⟩, hsj, hrj⟩
  case lru_nodup => exact hs.lru_nodup
  case unsent => exact fun hj hsj => hs.unsent (hmapped.1 hj).1 hsj
  case blocked =>
    intro j hj
    obtain ⟨hmj, hsj, hrj⟩ := hs.blocked hj
    exact ⟨hmapped.2 ⟨hmj, hne hsj⟩, hsj, hrj⟩
  case sent => exact fun hj hsj => hs.sent (hmapped.1 hj).1 hsj
  case inCache =>
    intro j
    rw [hmapped]
    by_cases hji : j = i
    · subst hji
      simp [SbState.unmap]
    · have hcache : (s.unmap i).inCache j = s.inCache j := update_of_ne hji _ _
      have hvec : (s.unmap i).dataVec j = s.dataVec j := rfl
      rw [hcache, hvec, hs.inCache]
      simp [hji]
  case applied =>
    intro j hj
    by_cases hji : j = i
    · subst hji
      simp [SbState.unmap] at hj
    · have hcache : (s.unmap i).inCache j = s.inCache j := update_of_ne hji _ _
      have happ : (s.unmap i).applied j = s.applied j := update_of_ne hji _ _
      rw [happ] at hj
      rw [hcache, hs.applied hj]
  case size_eq =>
    have hcard := card_vld_false (hs.vld hm)
    rw [← hs.size_eq] at hcard
    exact Nat.sub_eq_of_eq_add hcard.symm
end

/-! ### A store into a new entry -/

theorem getEmpty_eq (hfree : s.freeList = init ++ [i]) :
    s.getEmpty = .ok (i, { s with freeList := init }) := by
  rw [getEmpty, hfree, getLast?_concat, dropLast_concat]

theorem BufInv.insert_eq (hs : s.BufInv) (hfree : s.freeList = init ++ [i]) :
    (({ s with freeList := init } : SbState c).setEntry i e).insert i =
      .ok ((s.fill i init e).mapInsert i) := by
  obtain ⟨hvld, hnm⟩ := free_last hs hfree
  have hsize : s.size < c.ways := by
    have hle := Finset.card_le_univ
      (Finset.univ.filter fun j => Function.update s.dataVld i true j = true)
    rw [card_vld_true hvld, ← hs.size_eq, Fintype.card_fin] at hle
    exact hle
  have hlru : s.lruIndex.length ≠ c.ways := by
    have hnodup : (i :: s.lruIndex).Nodup :=
      nodup_cons.2 ⟨fun hi => hnm (hs.lru hi).1, hs.lru_nodup⟩
    have hle := hnodup.length_le_card
    rw [length_cons, Fintype.card_fin] at hle
    omega
  simp only [insert, setEntry, hsize, hvld, hlru]
  rfl

theorem BufInv.inserted_new (hs : s.BufInv)
    (hmap : s.dataMap (hashKey tid (c.block p.paddr)) = none) (hfree : s.freeList = init ++ [i]) :
    Inserted tid p s ((s.fill i init (e.reset tid p)).mapInsert i) := by
  have hself : (s.fill i init (e.reset tid p)).dataVec i = e.reset tid p := setEntry_self i _ s
  have hkey : (s.fill i init (e.reset tid p)).key i = hashKey tid (c.block p.paddr) := by
    rw [key, hself]
    rfl
  have hmap' : (s.fill i init (e.reset tid p)).dataMap
      ((s.fill i init (e.reset tid p)).key i) = none := by
    rw [hkey]
    exact hmap
  have hvec {j : Fin c.ways} (hj : s.Mapped j) :
      ((s.fill i init (e.reset tid p)).mapInsert i).dataVec j = s.dataVec j :=
    setEntry_of_ne (hs.ne_of_mapped hfree hj) _ s
  refine ⟨(hs.fill hfree).mapInsert hmap' (update_self _ _ _) ?_ ?_ ?_ ?_ ?_, ?_, ?_, ?_,
    ?_, rfl, rfl, rfl, rfl, rfl⟩
  · rw [hself]
    exact tid.2
  · rw [hself]
    exact c.dvd_block _
  · rw [hself]
    rfl
  · rw [hself]
    rfl
  · rw [hself]
    rfl
  · have hvice : (e.reset tid p).vice = none := rfl
    have hsame : ((s.fill i init (e.reset tid p)).mapInsert i).entryBytes i =
      (s.fill i init (e.reset tid p)).entryBytes i := rfl
    rw [buffered, ← hkey, mapInsert_dataMap_self hmap', buffered, hmap, elim_some, hsame]
    simp only [entryBytes, viceBytes, hself, hvice, elim_none, nothing_stack,
      stack_nothing, valid_reset]
  · intro T B hT hB hTB
    have hne : hashKey T B ≠ (s.fill i init (e.reset tid p)).key i := by
      rw [hkey]
      intro hk
      exact hTB (hashKey_inj (lt_lineSize hT) (lt_lineSize tid.2) hB (c.dvd_block _) hk)
    rw [← buffered_fill hs hfree (e := e.reset tid p) T B, buffered,
      mapInsert_dataMap_of_ne hmap' hne]
    rfl
  · have hmapped {j : Fin c.ways} :
        ((s.fill i init (e.reset tid p)).mapInsert i).Mapped j ↔ j = i ∨ s.Mapped j := by
      rw [mapInsert_mapped hmap', fill_mapped hs hfree]
    rintro j (hj | ⟨k, hk, hkj⟩)
    · rcases hmapped.1 hj with rfl | hmj
      · exact .inl ⟨congrArg SbEntry.tid hself, congrArg blockPaddr hself,
          congrArg blockVaddr hself⟩
      · exact .inr (by rw [hvec hmj]; exact ⟨.inl hmj, rfl, rfl, rfl⟩)
    · rcases hmapped.1 hk with rfl | hmk
      · -- the new entry has no vice
        have hnone := (congrArg SbEntry.vice hself).symm.trans hkj
        cases hnone
      · rw [hvec hmk] at hkj
        have hji : j ≠ i := by
          rintro rfl
          exact hs.vice_ne hfree hmk hkj
        have hj : ((s.fill i init (e.reset tid p)).mapInsert i).dataVec j = s.dataVec j :=
          setEntry_of_ne hji _ s
        exact .inr (by rw [hj]; exact ⟨.inr ⟨k, hmk, hkj⟩, rfl, rfl, rfl⟩)
  · intro j hj _
    rw [hvec hj]
    exact ⟨rfl, rfl, rfl⟩

/-- What `createVice` leaves. -/
def viceCreated (i v : Fin c.ways) (init : List (Fin c.ways)) (s : SbState c) : SbState c :=
  { s.setVice i v with
    freeList := init
    size := s.size + 1
    dataVld := Function.update s.dataVld v true }

theorem createVice_eq (hfree : s.freeList = init ++ [v]) (hnone : (s.dataVec i).vice = none) :
    s.createVice i = .ok (v, s.viceCreated i v init) := by
  rw [createVice, getEmpty_eq hfree]
  simp only [hnone]
  rfl

theorem fill_setVice (hiv : i ≠ v) :
    (s.fill v init e).setVice i v = (s.viceCreated i v init).setEntry v e := by
  have hi : (s.fill v init e).dataVec i = s.dataVec i := setEntry_of_ne hiv e s
  rw [setVice, hi]
  simp only [setEntry, fill, viceCreated, setVice, update_comm hiv]

theorem BufInv.inserted_createVice (hs : s.BufInv)
    (hmap : s.dataMap (hashKey tid (c.block p.paddr)) = some i)
    (hsend : (s.dataVec i).sending = true) (hnone : (s.dataVec i).vice = none)
    (hfree : s.freeList = init ++ [v]) :
    Inserted tid p s ((s.fill v init (e.reset tid p)).setVice i v) := by
  obtain ⟨hm, htid, hblock⟩ := hs.of_dataMap tid.2 (c.dvd_block _) hmap
  have hself : (s.fill v init (e.reset tid p)).dataVec v = e.reset tid p := setEntry_self v _ s
  have hvec {j : Fin c.ways} (hj : s.Mapped j) :
      (s.fill v init (e.reset tid p)).dataVec j = s.dataVec j :=
    setEntry_of_ne (hs.ne_of_mapped hfree hj) _ s
  have hmapped {j : Fin c.ways} : (s.fill v init (e.reset tid p)).Mapped j ↔ s.Mapped j :=
    fill_mapped hs hfree
  have hvalid {j : Fin c.ways} : (((s.fill v init (e.reset tid p)).setVice i v).dataVec j).valid =
    ((s.fill v init (e.reset tid p)).dataVec j).valid := setVice_apply _ rfl j
  have hvice : (s.fill v init (e.reset tid p)).IsVice i v := by
    refine ⟨update_self _ _ _, ?_, ?_, ?_, ?_, ?_, ?_⟩
    · rw [hself, hvec hm, htid]
      rfl
    · rw [hself, hvec hm, hblock]
      rfl
    · rw [hmapped]
      exact (free_last hs hfree).2
    · rw [hself]
      rfl
    · rw [hself]
      rfl
    · rw [hself]
      rfl
  refine ⟨(hs.fill hfree).setVice (hmapped.2 hm) (by rw [hvec hm, hsend]) hvice, ?_, ?_, ?_, ?_,
    rfl, rfl, rfl, rfl, rfl⟩
  · have hmap' : ((s.fill v init (e.reset tid p)).setVice i v).dataMap = s.dataMap := rfl
    have hvi : (((s.fill v init (e.reset tid p)).setVice i v).dataVec i).vice = some v := by
      rw [SbState.setVice, setEntry_self]
    rw [buffered, hmap', buffered, hmap]
    simp only [elim_some, entryBytes, viceBytes, hvi, hvalid, hself, hvec hm,
      valid_reset, hnone, elim_none, nothing_stack]
  · intro T B hT hB hTB
    rw [← buffered_fill hs hfree (e := e.reset tid p) T B]
    have hmap' : ((s.fill v init (e.reset tid p)).setVice i v).dataMap =
      (s.fill v init (e.reset tid p)).dataMap := rfl
    rw [buffered, hmap', buffered]
    cases hj : (s.fill v init (e.reset tid p)).dataMap (hashKey T B) with
    | none => rfl
    | some j =>
      obtain ⟨hmj, htj, hbj⟩ := hs.of_dataMap hT hB hj
      have hji : j ≠ i := by
        rintro rfl
        exact hTB ⟨by rw [← htj, htid], by rw [← hbj, hblock]⟩
      refine entryBytes_setEntry_of_ne hji fun hv => ?_
      rw [hvec hmj] at hv
      exact (hs.vice hmj hv).2.not_mapped hm
  · intro j hj
    rw [setVice_apply SbEntry.tid rfl, setVice_apply blockPaddr rfl, setVice_apply blockVaddr rfl]
    by_cases hjv : j = v
    · subst hjv
      exact .inl (by rw [hself]; exact ⟨rfl, rfl, rfl⟩)
    · have hj' : (s.fill v init (e.reset tid p)).dataVec j = s.dataVec j := setEntry_of_ne hjv _ s
      rw [hj']
      refine .inr ⟨?_, rfl, rfl, rfl⟩
      rcases hj with hj | ⟨k, hk, hkj⟩
      · exact .inl (hmapped.1 (setVice_mapped.1 hj))
      · have hmk := hmapped.1 (setVice_mapped.1 hk)
        refine .inr ⟨k, hmk, ?_⟩
        by_cases hki : k = i
        · subst hki
          rw [SbState.setVice, setEntry_self, Option.some.injEq] at hkj
          exact absurd hkj.symm hjv
        · rw [SbState.setVice, setEntry_of_ne hki, hvec hmk] at hkj
          exact hkj
  · intro j hj _
    rw [setVice_apply SbEntry.tid rfl, setVice_apply blockPaddr rfl, hvalid, hvec hj]
    exact ⟨rfl, rfl, rfl⟩

theorem block_vaddr (p : StorePiece c) :
    c.block p.vaddr = c.block (p.vaddr + p.datas.length - 1) := by
  have hline := p.in_line
  have hpos := p.size_pos
  have hoff := p.offset_eq
  have hsum := c.block_add_offset p.vaddr
  have hlast : p.vaddr + p.datas.length - 1 =
      c.block p.vaddr + (c.offset p.vaddr + p.datas.length - 1) := by omega
  rw [hlast]
  exact (block_offset_of_lt (c.dvd_block _) (by omega)).1.symm

theorem full_eq_false (hfree : s.freeList = init ++ [i]) : s.full = false := by
  simp [full, hfree]

theorem BufInv.insertStoreBuffer_ok (hs : s.BufInv) (hblocked : s.blockedSbufferEntry = none)
    (tid : Fin c.numThreads) (p : StorePiece c) :
    (∃ t, s.insertStoreBuffer tid p = .ok (true, t) ∧ Inserted tid p s t) ∨
      s.insertStoreBuffer tid p = .ok (false, s) := by
  unfold insertStoreBuffer
  rw [if_neg (not_not.2 (block_vaddr p)), hs.get_eq tid.2 (c.dvd_block _)]
  cases hmap : s.dataMap (hashKey tid (c.block p.paddr)) with
  | none =>
    rcases eq_nil_or_concat' s.freeList with hnil | ⟨init, i, hfree⟩
    · right
      simp [full, hnil]
    · left
      refine ⟨_, ?_, hs.inserted_new (e := s.dataVec i) hmap hfree⟩
      simp only [full_eq_false hfree, getEmpty_eq hfree]
      rw [hs.insert_eq hfree]
      rfl
  | some i =>
    obtain ⟨hm, _, hblock⟩ := hs.of_dataMap tid.2 (c.dvd_block _) hmap
    cases hsend : (s.dataVec i).sending with
    | true =>
      cases hv : (s.dataVec i).vice with
      | some v =>
        have hvice := (hs.vice hm hv).2
        obtain ⟨datas, mask, hmerge, hbytes⟩ :=
          (s.dataVec v).merge_ok p (hvice.block_eq.trans hblock)
        left
        refine ⟨_, ?_, hs.inserted_vice hmap hv hbytes⟩
        simp only [hsend, hv, hmerge]
        rfl
      | none =>
        rcases eq_nil_or_concat' s.freeList with hnil | ⟨init, v, hfree⟩
        · right
          simp [full, hnil, hsend, hv]
        · left
          refine ⟨_, ?_, hs.inserted_createVice (e := s.dataVec v) hmap hsend hv hfree⟩
          have hiv := hs.ne_of_mapped hfree hm
          simp only [hsend, hv, full_eq_false hfree, createVice_eq hfree hv, if_true,
            false_eq_true, if_false]
          have hvec : (s.viceCreated i v init).dataVec v = s.dataVec v :=
            setEntry_of_ne hiv.symm _ s
          rw [fill_setVice hiv, hvec]
    | false =>
      have hlru : i ∈ s.lruIndex := (hs.unsent hm hsend).resolve_right (by simp [hblocked])
      obtain ⟨datas, mask, hmerge, hbytes⟩ := (s.dataVec i).merge_ok p hblock
      left
      refine ⟨_, ?_, hs.inserted_merge hmap hsend hblocked (perm_cons_erase hlru).symm hbytes⟩
      simp only [hsend, update, hlru, if_true, hmerge]
      rfl
end
end SbState
end Gem5
