import Gem5.Mmu.Fill

/-!
# Paging

How the privileged architecture translates addresses with Sv39 and Sv48, and what the page table
walker makes of it.
-/

namespace Gem5
open Walk Nat List

/-! ### The specification -/

namespace Paging

/-- The index of an address in a table of level `i`. -/
def vpn (va : Addr) (i : ℕ) : ℕ :=
  va.toNat / 2 ^ (12 + 9 * i) % 512

/-- The entry of an address in the table of level `i` at page `ppn`. -/
def entryOf (mem : Mem) (va : Addr) (i ppn : ℕ) : PTE :=
  mem.pteAt (BitVec.ofNat 64 (ppn * 4096 + vpn va i * 8))

def Invalid (pte : PTE) : Prop :=
  pte.v = false ∨ (pte.r = false ∧ pte.w = true)

def Leaf (pte : PTE) : Prop :=
  pte.r = true ∨ pte.x = true

instance (pte : PTE) : Decidable (Invalid pte) :=
  inferInstanceAs (Decidable (_ ∨ _))

instance (pte : PTE) : Decidable (Leaf pte) :=
  inferInstanceAs (Decidable (_ ∨ _))

/-- The leaf that is found from the table of level `i` at page `ppn`, with its level. -/
def findLeaf (mem : Mem) (va : Addr) : ℕ → ℕ → Option (ℕ × PTE)
  | 0, ppn =>
    let pte := entryOf mem va 0 ppn
    if Invalid pte then none else if Leaf pte then some (0, pte) else none
  | i + 1, ppn =>
    let pte := entryOf mem va (i + 1) ppn
    if Invalid pte then none
    else if Leaf pte then some (i + 1, pte)
    else findLeaf mem va i pte.ppn.toNat

/-- The right that an access needs; executable pages are readable with `MXR`. -/
def AccessAllowed (req : XlateReq) (pte : PTE) : Prop :=
  (req.mode = .read → pte.r = true ∨ (pte.x = true ∧ req.status.mxr = true)) ∧
    (req.mode = .write → pte.w = true) ∧ (req.mode = .execute → pte.x = true)

def PrivilegeAllowed (req : XlateReq) (pte : PTE) : Prop :=
  (req.pmode = .user → pte.u = true) ∧
    (req.pmode = .supervisor → pte.u = true → req.status.sum = true ∧ req.mode ≠ .execute)

def Aligned (i : ℕ) (pte : PTE) : Prop :=
  pte.ppn.toNat % 2 ^ (9 * i) = 0

def Marked (req : XlateReq) (pte : PTE) : Prop :=
  pte.a = true ∧ (req.mode = .write → pte.d = true)

def Accepts (req : XlateReq) (i : ℕ) (pte : PTE) : Prop :=
  AccessAllowed req pte ∧ PrivilegeAllowed req pte ∧ Aligned i pte ∧ Marked req pte

instance (req : XlateReq) (pte : PTE) : Decidable (AccessAllowed req pte) :=
  inferInstanceAs (Decidable (_ ∧ _))

instance (req : XlateReq) (pte : PTE) : Decidable (PrivilegeAllowed req pte) :=
  inferInstanceAs (Decidable (_ ∧ _))

instance (i : ℕ) (pte : PTE) : Decidable (Aligned i pte) :=
  inferInstanceAs (Decidable (_ = _))

instance (req : XlateReq) (pte : PTE) : Decidable (Marked req pte) :=
  inferInstanceAs (Decidable (_ ∧ _))

instance (req : XlateReq) (i : ℕ) (pte : PTE) : Decidable (Accepts req i pte) :=
  inferInstanceAs (Decidable (_ ∧ _))

def physical (va : Addr) (i : ℕ) (pte : PTE) : Addr :=
  BitVec.ofNat 64
    (pte.ppn.toNat / 2 ^ (9 * i) * 2 ^ (12 + 9 * i) + va.toNat % 2 ^ (12 + 9 * i))

def judge (req : XlateReq) : Option (ℕ × PTE) → Except MMUFault Addr
  | none => .error (createPagefault req.mode)
  | some (i, pte) =>
    if Accepts req i pte then .ok (physical req.vaddr i pte) else .error (createPagefault req.mode)

def leafOf (mem : Mem) (req : XlateReq) : Option (ℕ × PTE) :=
  findLeaf mem req.vaddr req.satp.mode.topLevel req.satp.ppn.toNat

def translate (mem : Mem) (req : XlateReq) : Except MMUFault Addr :=
  judge req (leafOf mem req)

def Canonical (mode : AddrXlateMode) (va : Addr) : Prop :=
  ∀ i, mode.vaddrBits ≤ i → i < 64 → va.getLsbD i = va.getLsbD (mode.vaddrBits - 1)

/-- None of the tables that a walk comes to, from the table of level `i` at page `ppn` on, is at
address zero. -/
def TablesNonzero (mem : Mem) (va : Addr) : ℕ → ℕ → Prop
  | 0, ppn => ppn ≠ 0
  | i + 1, ppn => ppn ≠ 0 ∧
    (¬ Invalid (entryOf mem va (i + 1) ppn) → ¬ Leaf (entryOf mem va (i + 1) ppn) →
      TablesNonzero mem va i (entryOf mem va (i + 1) ppn).ppn.toNat)
end Paging

open Paging

/-! ### The walk -/

/-- What a walk that has ended without a fault yields: of a functional walk from its own entry,
otherwise from the TLB. -/
def Walk.finish (w : Walk) (s : Tlbs) : Except String Addr :=
  if w.functional then .ok (w.entry.translate w.req.vaddr)
  else
    match s.l1.translateWithTLB (w.req.satp.mode.vaddrSext w.req.vaddr) w.req.satp.asid with
    | .error m => .error m
    | .ok (paddr, _) => .ok paddr

/-- Steps until the walk ends, with memory as it is; the requests are answered before the next line
is prefetched. -/
def walkLoop (cfg : MmuConfig) (mem : Mem) : ℕ → Tlbs → Walk → Except String (Except MMUFault Addr)
  | 0, _, _ => .error "the walk has not ended"
  | rounds + 1, s, w =>
    match w.stepWalk cfg (mem.pteLine (w.read.getD 0)) none with
    | .error m => .error m
    | .ok (some f, _, _) => .ok (.error f)
    | .ok (none, ops, w) =>
      match s.execAll cfg ops with
      | .error m => .error m
      | .ok s =>
        if w.read.isNone || w.nextline then
          match w.finish s with
          | .error m => .error m
          | .ok paddr => .ok (.ok paddr)
        else walkLoop cfg mem rounds s w

def translateByWalk (cfg : MmuConfig) (mem : Mem) (functional autoOpenNextline : Bool)
    (req : XlateReq) (s : Tlbs) : Except String (Except MMUFault Addr) :=
  match (Walk.initState req functional (!functional)).setupWalk
      ⟨0, req.vaddr, req.satp.mode.topLevel, false, autoOpenNextline, false, false⟩ with
  | .error m => .error m
  | .ok w => walkLoop cfg mem (w.level + 1) s w

/-! ### What a leaf is judged by -/

namespace PTE
variable (pte : PTE)

theorem toNat_ppn : pte.ppn.toNat = pte.word.toNat / 2 ^ 10 % 2 ^ 44 := toNat_bits _ (by decide)

theorem ppn_lt : pte.ppn.toNat < 2 ^ 44 := by
  rw [toNat_ppn]
  exact mod_lt _ (Nat.two_pow_pos 44)

theorem toNat_ppn0 : pte.ppn0.toNat = pte.word.toNat / 2 ^ 10 % 2 ^ 9 := toNat_bits _ (by decide)

theorem toNat_ppn1 : pte.ppn1.toNat = pte.word.toNat / 2 ^ 19 % 2 ^ 9 := toNat_bits _ (by decide)

theorem toNat_ppn2 : pte.ppn2.toNat = pte.word.toNat / 2 ^ 28 % 2 ^ 9 := toNat_bits _ (by decide)
end PTE

namespace Paging
theorem ne_zero_iff_toNat (v : Addr) : v ≠ 0 ↔ v.toNat ≠ 0 := by
  rw [not_iff_not, ← BitVec.toNat_inj]
  rfl

variable {i : ℕ} {pte : PTE} {f : MMUFault} {req : XlateReq}

theorem aligned_iff (hi : i ≤ 3) (pte : PTE) :
    Aligned i pte ↔ ¬ (1 ≤ i ∧ pte.ppn0 ≠ 0) ∧ ¬ (2 ≤ i ∧ pte.ppn1 ≠ 0) ∧
      ¬ (3 ≤ i ∧ pte.ppn2 ≠ 0) := by
  rw [Aligned, ne_zero_iff_toNat, ne_zero_iff_toNat, ne_zero_iff_toNat, pte.toNat_ppn,
    pte.toNat_ppn0, pte.toNat_ppn1, pte.toNat_ppn2]
  interval_cases i <;> omega

/-- A load that only `MXR` allows. -/
def MxrLoad (req : XlateReq) (pte : PTE) : Prop :=
  req.mode = .read ∧ pte.r = false ∧ AccessAllowed req pte ∧ PrivilegeAllowed req pte

/-- A fetch of a supervisor from a user page, with `SUM`. -/
def UserFetch (req : XlateReq) (pte : PTE) : Prop :=
  req.mode = .execute ∧ req.pmode = .supervisor ∧ req.status.sum = true ∧ pte.x = true ∧
    pte.u = true

/-- A leaf on which the source and the specification differ. -/
def Misjudged (req : XlateReq) (i : ℕ) (pte : PTE) : Prop :=
  Aligned i pte ∧ Marked req pte ∧ (MxrLoad req pte ∨ UserFetch req pte)

theorem checkPermissions_eq_none (req : XlateReq) (pte : PTE) :
    checkPermissions req.status req.pmode req.mode pte = none ↔
      ((req.mode = .read → pte.r = true) ∧ (req.mode = .write → pte.w = true) ∧
        (req.mode = .execute → pte.x = true)) ∧ (req.pmode = .user → pte.u = true) ∧
      (req.pmode = .supervisor → pte.u = true → req.status.sum = true) := by
  unfold checkPermissions
  split
  · rename_i h
    simp only [reduceCtorEq, false_iff, not_and]
    rintro ⟨hr, hw, hx⟩
    rcases h with ⟨hm, h⟩ | ⟨hm, h⟩ | ⟨hm, h⟩
    · simp [hr hm] at h
    · simp [hw hm] at h
    · simp [hx hm] at h
  · rename_i h
    split
    · rename_i hu
      simp [hu]
    · rename_i hu
      split
      · rename_i hs
        simp [hs]
      · rename_i hs
        simp only [not_or, not_and, Bool.not_eq_false] at h hu hs
        exact ⟨fun _ => ⟨h, hu, hs⟩, fun _ => rfl⟩

theorem checkPermissions_eq_some {status : STATUS} {pmode : PrivilegeMode} {mode : MMUMode}
    (h : checkPermissions status pmode mode pte = some f) : f = createPagefault mode := by
  unfold checkPermissions at h
  split_ifs at h
  all_goals exact (Option.some.inj h).symm

theorem leafFault_eq_some (h : leafFault req i pte = some f) : f = createPagefault req.mode := by
  unfold leafFault at h
  cases hp : checkPermissions req.status req.pmode req.mode pte with
  | some g =>
    simp only [hp] at h
    rw [← Option.some.inj h]
    exact checkPermissions_eq_some hp
  | none =>
    simp only [hp] at h
    split_ifs at h
    all_goals exact (Option.some.inj h).symm

theorem leafFault_eq_none (hi : i ≤ 3) (pte : PTE) : leafFault req i pte = none ↔
      checkPermissions req.status req.pmode req.mode pte = none ∧ Aligned i pte ∧
        Marked req pte := by
  rw [aligned_iff hi]
  unfold leafFault Marked
  cases hp : checkPermissions req.status req.pmode req.mode pte with
  | some g => simp
  | none =>
    split_ifs with h0 h1 h2 ha hd
    · exact iff_of_false id fun h => h.2.1.1 h0
    · exact iff_of_false id fun h => h.2.1.2.1 h1
    · exact iff_of_false id fun h => h.2.1.2.2 h2
    · simp [ha]
    · simp [hd]
    · have hd' : req.mode = .write → pte.d = true := by
        intro hm
        by_contra hne
        exact hd ⟨by simpa using hne, hm⟩
      exact iff_of_true rfl ⟨rfl, ⟨h0, h1, h2⟩, by simpa using ha, hd'⟩

theorem permissions_iff (hpriv : req.pmode ≠ .machine) (pte : PTE) :
    (checkPermissions req.status req.pmode req.mode pte = none ↔
      AccessAllowed req pte ∧ PrivilegeAllowed req pte) ↔
    ¬ (MxrLoad req pte ∨ UserFetch req pte) := by
  rw [checkPermissions_eq_none]
  unfold MxrLoad UserFetch AccessAllowed PrivilegeAllowed
  cases hm : req.mode with
  | read => cases hp : req.pmode <;> cases pte.r <;> simp_all
  | write => simp
  | execute => cases hp : req.pmode <;> cases pte.u <;> simp_all

theorem accepts_iff (hpriv : req.pmode ≠ .machine) (hi : i ≤ 3) (pte : PTE) :
    (leafFault req i pte = none ↔ Accepts req i pte) ↔ ¬ Misjudged req i pte := by
  have hperm := permissions_iff hpriv pte
  rw [leafFault_eq_none hi, Accepts, Misjudged]
  by_cases ha : Aligned i pte
  · by_cases hmk : Marked req pte
    · simpa [ha, hmk] using hperm
    · simp [hmk]
  · simp [ha]
end Paging

/-! ### A step of the walk -/

section
variable {cfg : MmuConfig} {mem : Mem} {req : XlateReq} {w : Walk} {i : ℕ} {ppn : Addr}

/-- The walk waits for its line of the table of level `i` at page `ppn`. -/
structure Walk.AtTable (w : Walk) (req : XlateReq) (i : ℕ) (ppn : Addr) : Prop where
  ofReq : w.req = req
  level : w.level = i
  read : w.read = some (lineAddr ppn (lineIdx req.vaddr (levelShift i)))
  vaddr : w.entry.vaddr = req.vaddr
  asid : w.entry.asid = req.satp.asid
  lineAsid : w.inl2Entry.asid = req.satp.asid
  nextline : w.nextline = false
  forward : w.entry.fromForwardPreReq = false
  back : w.entry.fromBackPreReq = false
  tlbppn : w.tlbppn = ppn

theorem toNat_lineIdx (va : Addr) (shift : ℕ) :
    (lineIdx va shift).toNat = va.toNat / 2 ^ shift % 512 / 8 * 8 := by
  have hmask : levelMask = bitMask 9 := rfl
  rw [lineIdx, hmask, BitVec.toNat_shiftLeft, BitVec.toNat_ushiftRight,
    toNat_and_bitMask _ (by decide), BitVec.toNat_ushiftRight, shiftRight_eq_div_pow,
    shiftRight_eq_div_pow, shiftLeft_eq, l2tlbBlkOffset]
  omega

theorem toNat_lineAddr {ppn idx : Addr} (hppn : ppn.toNat < 2 ^ 44) (hidx : idx.toNat < 512) :
    (lineAddr ppn idx).toNat = ppn.toNat * 4096 + idx.toNat * 8 := by
  have h8 : (8 : Addr).toNat = 8 := rfl
  rw [lineAddr, pageShift, BitVec.toNat_add, BitVec.toNat_shiftLeft, BitVec.toNat_mul,
    shiftLeft_eq, h8]
  omega

theorem lineIdx_lt (va : Addr) (shift : ℕ) : (lineIdx va shift).toNat < 512 := by
  rw [toNat_lineIdx]
  omega

theorem lineAddr_ne_zero {ppn : Addr} (hppn : ppn.toNat < 2 ^ 44) (hne : ppn.toNat ≠ 0) (va : Addr)
    (shift : ℕ) : lineAddr ppn (lineIdx va shift) ≠ 0 := by
  rw [ne_zero_iff_toNat, toNat_lineAddr hppn (lineIdx_lt va shift)]
  omega

theorem Walk.AtTable.chosen (h : w.AtTable req i ppn) (hppn : ppn.toNat < 2 ^ 44) :
    w.chosen (mem.pteLine (w.read.getD 0)) = entryOf mem req.vaddr i ppn.toNat := by
  have hmask : vaddrChooseMask = bitMask 3 := rfl
  have h8 : (8 : Addr).toNat = 8 := rfl
  have hshift : levelShift i = 12 + 9 * i := by
    rw [levelShift, levelBits, pageShift]
    omega
  rw [Walk.chosen, h.read, h.vaddr, h.level, Option.getD_some, Mem.pteLine, entryOf,
    hmask, toNat_and_bitMask _ (by decide), BitVec.toNat_ushiftRight, shiftRight_eq_div_pow]
  congr 1
  apply BitVec.eq_of_toNat_eq
  rw [BitVec.toNat_add, toNat_lineAddr hppn (lineIdx_lt _ _), toNat_lineIdx, BitVec.toNat_mul,
    BitVec.toNat_ofNat, BitVec.toNat_ofNat, h8, hshift, vpn]
  -- the line and the place in it make up the index
  generalize req.vaddr.toNat / 2 ^ (12 + 9 * i) = y
  omega

variable {n j : ℕ} {pte : PTE} {s : Tlbs} {mode : AddrXlateMode} {va : Addr}

theorem getLsbD_intAlignMask (hn : n ≤ j) (hj : j < 64) : (intAlignMask n).getLsbD j = true := by
  have hmask : intAlignMask n = ~~~bitMask (n % 32) := by
    rw [intAlignMask, bitMask, if_neg (by omega)]
  have hlt : ¬ j < n % 32 := by
    have := mod_le n 32
    omega
  rw [hmask, BitVec.getLsbD_not, getLsbD_bitMask (by omega)]
  simp [hj, hlt]

theorem Walk.leafEntry_page (w : Walk) (pte : PTE) (j : ℕ) (hj : levelShift w.level ≤ j) :
    (w.leafEntry pte).vaddr.getLsbD j = w.entry.vaddr.getLsbD j := by
  by_cases h64 : j < 64
  · simp [leafEntry, getLsbD_intAlignMask hj h64]
  · rw [BitVec.getLsbD_of_ge _ _ (by omega), BitVec.getLsbD_of_ge _ _ (by omega)]

theorem translate_eq_physical {e : TlbEntry} (hi : i ≤ 3) (haligned : Aligned i pte)
    (hpaddr : e.paddr = pte.ppn) (hbytes : e.logBytes = levelShift i) (va : Addr) :
    e.translate va = physical va i pte := by
  have hshift : levelShift i = 12 + 9 * i := by
    rw [levelShift, levelBits, pageShift]
    omega
  have h64 : 12 + 9 * i < 64 := by omega
  have hppn := pte.ppn_lt
  have hpage56 : pte.ppn.toNat * 2 ^ 12 < 2 ^ 56 := by omega
  have hlt : va.toNat % 2 ^ (12 + 9 * i) < 2 ^ (12 + 9 * i) := mod_lt _ (Nat.two_pow_pos _)
  have hle : 2 ^ (12 + 9 * i) ≤ 2 ^ 39 := Nat.pow_le_pow_right Nat.two_pos (by omega)
  have hsum : pte.ppn.toNat * 2 ^ 12 + va.toNat % 2 ^ (12 + 9 * i) < 2 ^ 64 :=
    (Nat.add_lt_add hpage56 (hlt.trans_le hle)).trans (by decide)
  -- the page number has no bits below the offset
  have hpage : pte.ppn.toNat * 2 ^ 12 = 2 ^ (12 + 9 * i) * (pte.ppn.toNat / 2 ^ (9 * i)) := by
    rw [pow_add, mul_assoc, Nat.mul_div_cancel' (dvd_of_mod_eq_zero haligned), mul_comm]
  apply BitVec.eq_of_toNat_eq
  rw [TlbEntry.translate, physical, hpaddr, hbytes, hshift, BitVec.toNat_or,
    toNat_and_bitMask _ h64, BitVec.toNat_shiftLeft, shiftLeft_eq, BitVec.toNat_ofNat,
    pageShift, mod_eq_of_lt (hpage56.trans (by decide)), hpage,
    ← two_pow_add_eq_or_of_lt hlt, mul_comm (pte.ppn.toNat / 2 ^ (9 * i)), ← hpage,
    mod_eq_of_lt hsum]

structure Tlbs.Clear (s : Tlbs) (i : ℕ) : Prop where
  l1 : s.l1.arr.Empty
  l1_pos : 0 < s.l1.arr.slots.length
  l2 : ∀ page : L2Page, page.level ≤ i → (s.l2.arrays page.array).Empty
  l2_line : ∀ page : L2Page, page.level ≤ i → 8 ≤ (s.l2.arrays page.array).slots.length

structure Tlbs.Empty (cfg : MmuConfig) (s : Tlbs) : Prop where
  l1 : s.l1.arr.Empty
  l1_size : s.l1.arr.slots.length = cfg.size
  l2 : ∀ k, (s.l2.arrays k).Empty
  l2_size : ∀ k, (s.l2.arrays k).slots.length = cfg.lines k * l2tlbLineSize

theorem Tlbs.Empty.clear (h : s.Empty cfg) (i : ℕ) : s.Clear i where
  l1 := h.l1
  l1_pos := by
    rw [h.l1_size]
    exact cfg.size_pos
  l2 page _ := h.l2 page.array
  l2_line page _ := by
    rw [h.l2_size]
    exact Nat.le_mul_of_pos_left 8 (cfg.lines_pos page.array)

theorem pointerPage_eq (hi : i + 1 ≤ mode.topLevel) :
    ∃ page, pointerPage mode (i + 1) = some page ∧ page.level = i + 1 ∧
      ∀ q : L2Page, q.level ≤ i → q.array ≠ page.array := by
  have hi3 : i < 3 := by
    cases mode
    · exact hi.trans (by decide)
    · exact hi
  interval_cases i
  · refine ⟨.l2l1, rfl, rfl, ?_⟩
    intro q
    cases q <;> decide
  · refine ⟨.l2l2, rfl, rfl, ?_⟩
    intro q
    cases q <;> decide
  · cases mode with
    | sv39 => exact absurd hi (by decide)
    | sv48 =>
      refine ⟨.l2l3, rfl, rfl, ?_⟩
      intro q
      cases q <;> decide

theorem leafPage_eq (hi : i ≤ mode.topLevel) :
    ∃ page, leafPage mode i = some page ∧ page.level = i := by
  cases mode with
  | sv39 =>
    have hi2 : i ≤ 2 := hi
    interval_cases i
    exacts [⟨.l2l0, rfl, rfl⟩, ⟨.l2sp1, rfl, rfl⟩, ⟨.l2sp2, rfl, rfl⟩]
  | sv48 =>
    have hi3 : i ≤ 3 := hi
    interval_cases i
    exacts [⟨.l2l0, rfl, rfl⟩, ⟨.l2sp1, rfl, rfl⟩, ⟨.l2sp2, rfl, rfl⟩, ⟨.l2sp3, rfl, rfl⟩]

theorem execAll_lineOps (cfg : MmuConfig) (w : Walk) (line : PteLine) {page : L2Page}
    (hempty : (s.l2.arrays page.array).Empty) (hline : 8 ≤ (s.l2.arrays page.array).slots.length) :
    ∃ t, s.execAll cfg (w.lineOps cfg line page.level (some page)) = .ok t ∧ t.l1 = s.l1 ∧
      ∀ k ≠ page.array, t.l2.arrays k = s.l2.arrays k := by
  obtain ⟨t, ht, hl1, hother, -⟩ := Tlbs.insertLine cfg
    (e := w.lineEntry cfg line page.level) hempty hline (fun _ => rfl) (fun _ => rfl)
    (fun _ => rfl) 8 le_rfl
  exact ⟨t, ht, hl1, hother⟩

/-! ### The whole walk -/

def Walk.verdict (req : XlateReq) : Option (ℕ × PTE) → Except MMUFault Addr
  | none => .error (createPagefault req.mode)
  | some (i, pte) =>
    match leafFault req i pte with
    | some f => .error f
    | none => .ok (Paging.physical req.vaddr i pte)

namespace Walk.AtTable
variable {s : Tlbs}

theorem step_eq (h : w.AtTable req i ppn) (hppn : ppn.toNat < 2 ^ 44) :
    w.stepWalk cfg (mem.pteLine (w.read.getD 0)) none =
      let pte := entryOf mem req.vaddr i ppn.toNat
      if Invalid pte then .ok (some (createPagefault req.mode), [], w.endWalk)
      else if Leaf pte then w.stepLeaf cfg (mem.pteLine (w.read.getD 0)) pte
      else w.stepPointer cfg (mem.pteLine (w.read.getD 0)) pte := by
  unfold stepWalk
  rw [h.nextline]
  rw [h.chosen hppn, h.ofReq]
  rfl

variable {pte : PTE}

theorem stepLeaf_eq (cfg : MmuConfig) (h : w.AtTable req i ppn) (hppn : ppn.toNat < 2 ^ 44)
    (hzero : ppn.toNat ≠ 0) (hfault : leafFault req i pte = none) (line : PteLine) :
    ∃ ops w', w.stepLeaf cfg line pte = .ok (none, ops, w') ∧
      (w'.read.isNone || w'.nextline) = true ∧ w'.functional = w.functional ∧
      w'.entry = w.leafEntry pte ∧ w'.req = req ∧
      ops = if w.functional then [] else .insert (w.leafEntry pte) ::
        { w with entry := w.leafEntry pte }.lineOps cfg line i (leafPage req.satp.mode i) := by
  have hops : { w with entry := w.leafEntry pte }.leafOps cfg line =
      .insert (w.leafEntry pte) ::
        { w with entry := w.leafEntry pte }.lineOps cfg line i (leafPage req.satp.mode i) := by
    simp [leafOps, leafEntry, h.forward, h.back, h.level, h.ofReq]
  have hread (va : Addr) (shift : ℕ) : lineAddr w.tlbppn (lineIdx va shift) ≠ 0 := by
    rw [h.tlbppn]
    exact lineAddr_ne_zero hppn hzero va shift
  have hnone : leafFault w.req w.level pte = none := by
    rw [h.ofReq, h.level]
    exact hfault
  unfold stepLeaf
  rw [hnone]
  dsimp only
  by_cases hfun : w.functional = true
  · rw [if_pos hfun, if_pos hfun]
    exact ⟨_, _, rfl, rfl, rfl, rfl, h.ofReq, rfl⟩
  · rw [if_neg hfun, hops]
    split
    · rw [if_neg (hread _ _)]
      exact ⟨_, _, rfl, Bool.or_true _, rfl, rfl, h.ofReq, rfl⟩
    · exact ⟨_, _, rfl, rfl, rfl, rfl, h.ofReq, rfl⟩

theorem leaf_result (cfg : MmuConfig) (h : w.AtTable req i ppn) (hi : i ≤ req.satp.mode.topLevel)
    (hsext : req.satp.mode.vaddrSext req.vaddr = req.vaddr) (hclear : s.Clear i) (line : PteLine)
    (pte : PTE) : ∃ t, s.execAll cfg (if w.functional then [] else .insert (w.leafEntry pte) ::
        { w with entry := w.leafEntry pte }.lineOps cfg line i (leafPage req.satp.mode i)) = .ok t ∧
      ∀ w' : Walk, w'.functional = w.functional → w'.entry = w.leafEntry pte → w'.req = req →
        w'.finish t = .ok ((w.leafEntry pte).translate req.vaddr) := by
  by_cases hfun : w.functional = true
  · rw [if_pos hfun]
    refine ⟨s, rfl, ?_⟩
    intro w' hfun' hentry hreq
    rw [finish, hfun', if_pos hfun, hentry, hreq]
  · rw [if_neg hfun]
    have hpage (j : ℕ) (hj : (w.leafEntry pte).logBytes ≤ j) :
        (w.leafEntry pte).vaddr.getLsbD j = req.vaddr.getLsbD j := by
      rw [w.leafEntry_page pte j hj, h.vaddr]
    obtain ⟨l1, hinsert, u, hu⟩ := L1Tlb.translate_insert hclear.l1 hclear.l1_pos
      (e := w.leafEntry pte) (Nat.le_add_left 12 _) hpage
    obtain ⟨page, hleaf, rfl⟩ := leafPage_eq hi
    obtain ⟨t, hline, hl1, -⟩ := execAll_lineOps cfg { w with entry := w.leafEntry pte } line
      (s := { s with l1 := l1 }) (hclear.l2 page le_rfl) (hclear.l2_line page le_rfl)
    refine ⟨t, ?_, ?_⟩
    · rw [hleaf, Tlbs.execAll, foldlM_cons, TlbOp.exec, hinsert]
      exact hline
    · intro w' hfun' hentry hreq
      have hasid : (w.leafEntry pte).asid = req.satp.asid := h.asid
      rw [finish, hfun', if_neg hfun, hreq, hsext, hl1, ← hasid, hu]

theorem walkLoop_leaf (h : w.AtTable req i ppn) (hppn : ppn.toNat < 2 ^ 44) (hzero : ppn.toNat ≠ 0)
    (hi : i ≤ req.satp.mode.topLevel) (hi3 : i ≤ 3)
    (hsext : req.satp.mode.vaddrSext req.vaddr = req.vaddr) (hclear : s.Clear i) (rounds : ℕ)
    (hvalid : ¬ Invalid (entryOf mem req.vaddr i ppn.toNat))
    (hleaf : Leaf (entryOf mem req.vaddr i ppn.toNat)) : walkLoop cfg mem (rounds + 1) s w =
      .ok (verdict req (some (i, entryOf mem req.vaddr i ppn.toNat))) := by
  rw [walkLoop, h.step_eq hppn]
  rw [if_neg hvalid, if_pos hleaf, verdict]
  generalize entryOf mem req.vaddr i ppn.toNat = pte
  cases hfault : leafFault req i pte with
  | some f =>
    unfold stepLeaf
    rw [h.ofReq, h.level, hfault]
  | none =>
    obtain ⟨ops, w', hstep, hdone, hfun, hentry, hreq, rfl⟩ :=
      stepLeaf_eq cfg h hppn hzero hfault (mem.pteLine (w.read.getD 0))
    obtain ⟨t, hexec, hfinish⟩ :=
      leaf_result cfg h hi hsext hclear (mem.pteLine (w.read.getD 0)) pte
    have haligned := ((leafFault_eq_none hi3 pte).1 hfault).2.1
    have hphys : (w.leafEntry pte).translate req.vaddr = physical req.vaddr i pte :=
      translate_eq_physical hi3 haligned rfl (by rw [leafEntry, h.level]) req.vaddr
    rw [hstep]
    dsimp only
    rw [hexec]
    dsimp only
    rw [if_pos hdone, hfinish w' hfun hentry hreq, hphys]

theorem stepPointer_eq (cfg : MmuConfig) (h : w.AtTable req (i + 1) ppn)
    (hchosen : w.chosen (mem.pteLine (w.read.getD 0)) = pte) (hv : pte.v = true)
    (hzero : pte.ppn.toNat ≠ 0) : ∃ w', w.stepPointer cfg (mem.pteLine (w.read.getD 0)) pte =
        .ok (none, w.lineOps cfg (mem.pteLine (w.read.getD 0)) (i + 1)
          (pointerPage req.satp.mode (i + 1)), w') ∧ w'.AtTable req i pte.ppn := by
  have hsome : ((range l2tlbLineSize).all fun j => !(mem.pteLine (w.read.getD 0) j).v) =
      false := by
    rw [all_eq_false]
    refine ⟨((w.entry.vaddr >>> levelShift w.level) &&& vaddrChooseMask).toNat, ?_, ?_⟩
    · have hmask : vaddrChooseMask = bitMask 3 := rfl
      rw [mem_range, hmask, toNat_and_bitMask _ (by decide)]
      exact mod_lt _ (by decide)
    · have hchoice : (mem.pteLine (w.read.getD 0)
          ((w.entry.vaddr >>> levelShift w.level) &&& vaddrChooseMask).toNat).v = true :=
        (congrArg PTE.v hchosen).trans hv
      rw [hchoice]
      decide
  have hread := lineAddr_ne_zero pte.ppn_lt hzero w.entry.vaddr (levelShift i)
  unfold stepPointer
  rw [h.level]
  dsimp only
  rw [hsome, if_neg hread, h.ofReq]
  refine ⟨_, rfl, ?_⟩
  exact {
    ofReq := rfl
    level := rfl
    read := by rw [h.vaddr]
    vaddr := h.vaddr
    asid := h.asid
    lineAsid := h.lineAsid
    nextline := h.nextline
    forward := h.forward
    back := h.back
    tlbppn := rfl }

theorem clear_of_pointer (cfg : MmuConfig) (w : Walk) (line : PteLine) {page : L2Page}
    (hpage : page.level = i + 1)
    (harray : ∀ q : L2Page, q.level ≤ i → q.array ≠ page.array) (hclear : s.Clear (i + 1)) :
    ∃ t, s.execAll cfg (w.lineOps cfg line (i + 1) (some page)) = .ok t ∧ t.Clear i := by
  obtain ⟨t, ht, hl1, hother⟩ :=
    execAll_lineOps cfg w line (hclear.l2 page hpage.le) (hclear.l2_line page hpage.le)
  rw [hpage] at ht
  refine ⟨t, ht, ?_, ?_, ?_, ?_⟩
  · rw [hl1]
    exact hclear.l1
  · rw [hl1]
    exact hclear.l1_pos
  · intro q hq
    rw [hother _ (harray q hq)]
    exact hclear.l2 q (by omega)
  · intro q hq
    rw [hother _ (harray q hq)]
    exact hclear.l2_line q (by omega)
end Walk.AtTable

theorem walkLoop_eq (h : w.AtTable req i ppn) (hppn : ppn.toNat < 2 ^ 44)
    (hi : i ≤ req.satp.mode.topLevel) (hsext : req.satp.mode.vaddrSext req.vaddr = req.vaddr)
    (hclear : s.Clear i) (hzero : TablesNonzero mem req.vaddr i ppn.toNat) :
    walkLoop cfg mem (i + 1) s w = .ok (verdict req (findLeaf mem req.vaddr i ppn.toNat)) := by
  have hi3 : i ≤ 3 := by
    cases hm : req.satp.mode with
    | sv39 => exact hi.trans (by rw [hm]; decide)
    | sv48 => exact hi.trans (by rw [hm]; decide)
  -- on the level; a step goes one level down
  induction i generalizing s w ppn with
  | zero =>
    by_cases hvalid : Invalid (entryOf mem req.vaddr 0 ppn.toNat)
    · rw [walkLoop, h.step_eq hppn, findLeaf]
      simp only [if_pos hvalid]
      rfl
    · by_cases hleaf : Leaf (entryOf mem req.vaddr 0 ppn.toNat)
      · rw [h.walkLoop_leaf hppn hzero hi hi3 hsext hclear 0 hvalid hleaf, findLeaf]
        simp only [if_neg hvalid, if_pos hleaf]
      · rw [walkLoop, h.step_eq hppn, findLeaf]
        simp only [if_neg hvalid, if_neg hleaf, stepPointer, h.level, h.ofReq]
        rfl
  | succ i ih =>
    obtain ⟨hne, hrest⟩ := hzero
    by_cases hvalid : Invalid (entryOf mem req.vaddr (i + 1) ppn.toNat)
    · rw [walkLoop, h.step_eq hppn, findLeaf]
      simp only [if_pos hvalid]
      rfl
    · by_cases hleaf : Leaf (entryOf mem req.vaddr (i + 1) ppn.toNat)
      · rw [h.walkLoop_leaf hppn hne hi hi3 hsext hclear (i + 1) hvalid hleaf, findLeaf]
        simp only [if_neg hvalid, if_pos hleaf]
      · have htables := hrest hvalid hleaf
        have hv : (entryOf mem req.vaddr (i + 1) ppn.toNat).v = true := by
          by_contra hv
          exact hvalid (.inl (by simpa using hv))
        have hnext : (entryOf mem req.vaddr (i + 1) ppn.toNat).ppn.toNat ≠ 0 := by
          cases i with
          | zero => exact htables
          | succ => exact htables.1
        obtain ⟨w', hstep, hat⟩ := AtTable.stepPointer_eq cfg h (h.chosen hppn) hv hnext
        obtain ⟨page, hpointer, hlevel, harray⟩ := pointerPage_eq hi
        rw [hpointer] at hstep
        obtain ⟨t, hexec, hclear'⟩ := AtTable.clear_of_pointer cfg w
          (mem.pteLine (w.read.getD 0)) hlevel harray hclear
        rw [walkLoop, h.step_eq hppn, findLeaf]
        simp only [if_neg hvalid, if_neg hleaf, hstep, hexec]
        have hgoes : (w'.read.isNone || w'.nextline) = false := by
          rw [hat.read, hat.nextline]
          rfl
        rw [hgoes]
        exact ih hat (PTE.ppn_lt _) (by omega) hclear' htables (by omega)

/-! ### The result -/

theorem vaddrSext_of_canonical (h : Canonical mode va) : mode.vaddrSext va = va := by
  unfold AddrXlateMode.vaddrSext
  split
  · rename_i hsign
    have hbits : mode.vaddrBits < 64 := by
      cases mode <;> decide
    apply BitVec.eq_of_getLsbD_eq
    intro j hj
    by_cases hlow : j < mode.vaddrBits
    · simp [getLsbD_bitMask hbits, hlow]
    · simp [hj, h j (by omega) hj, hsign]
  · rfl

theorem toNat_ppn (satp : SATP) : (satp.ppn.setWidth 64 : Addr).toNat = satp.ppn.toNat := by
  rw [BitVec.toNat_setWidth]
  exact mod_eq_of_lt (satp.ppn.isLt.trans (by decide))

theorem setupWalk_root (functional autoOpenNextline : Bool)
    (hsext : req.satp.mode.vaddrSext req.vaddr = req.vaddr) (hroot : req.satp.ppn.toNat ≠ 0) :
    ∃ w, (initState req functional (!functional)).setupWalk
        ⟨0, req.vaddr, req.satp.mode.topLevel, false, autoOpenNextline, false, false⟩ = .ok w ∧
      w.AtTable req req.satp.mode.topLevel (req.satp.ppn.setWidth 64) := by
  have hlt : (req.satp.ppn.setWidth 64 : Addr).toNat < 2 ^ 44 := by
    exact req.satp.ppn.isLt
  have hne := lineAddr_ne_zero hlt (by rwa [toNat_ppn]) req.vaddr
    (levelShift req.satp.mode.topLevel)
  have hlevel : (initState req functional (!functional)).startLevel
      ⟨0, req.vaddr, req.satp.mode.topLevel, false, autoOpenNextline, false, false⟩ =
        req.satp.mode.topLevel := by
    simp [startLevel, initState]
  unfold setupWalk
  rw [hlevel]
  dsimp only [initState]
  rw [if_neg Bool.false_ne_true, if_neg hne, hsext]
  exact ⟨_, rfl, rfl, rfl, rfl, rfl, rfl, rfl, rfl, rfl, rfl, rfl⟩

theorem translateByWalk_eq {functional autoOpenNextline : Bool}
    (hcanonical : Canonical req.satp.mode req.vaddr) (hempty : s.Empty cfg)
    (htables : TablesNonzero mem req.vaddr req.satp.mode.topLevel req.satp.ppn.toNat) :
    translateByWalk cfg mem functional autoOpenNextline req s =
      .ok (verdict req (leafOf mem req)) := by
  have hsext := vaddrSext_of_canonical hcanonical
  have hroot : req.satp.ppn.toNat ≠ 0 := by
    revert htables
    cases req.satp.mode.topLevel with
    | zero => exact id
    | succ => exact fun h => h.1
  obtain ⟨w, hsetup, hat⟩ := setupWalk_root functional autoOpenNextline hsext hroot
  rw [translateByWalk, hsetup]
  dsimp only
  rw [hat.level, walkLoop_eq hat (by rw [toNat_ppn]; exact req.satp.ppn.isLt) le_rfl hsext
    (hempty.clear _) (by rw [toNat_ppn]; exact htables), toNat_ppn, leafOf]

theorem verdict_eq_judge_some : verdict req (some (j, pte)) = judge req (some (j, pte)) ↔
      (leafFault req j pte = none ↔ Accepts req j pte) := by
  rw [verdict, judge]
  cases hfault : leafFault req j pte with
  | some f =>
    obtain rfl := leafFault_eq_some hfault
    by_cases hacc : Accepts req j pte
    · simp [hacc]
    · simp [hacc]
  | none =>
    by_cases hacc : Accepts req j pte
    · simp [hacc]
    · simp [hacc]

theorem verdict_eq_judge_iff (hpriv : req.pmode ≠ .machine) {leaf : Option (ℕ × PTE)}
    (hlevel : ∀ j pte, leaf = some (j, pte) → j ≤ 3) : verdict req leaf = judge req leaf ↔
      ∀ j pte, leaf = some (j, pte) → ¬ Misjudged req j pte := by
  rcases leaf with _ | ⟨j, pte⟩
  · refine iff_of_true rfl ?_
    intro j pte h
    cases h
  · rw [verdict_eq_judge_some, accepts_iff hpriv (hlevel j pte rfl)]
    constructor
    · intro h j' pte' heq
      obtain ⟨rfl, rfl⟩ := Prod.mk.inj (Option.some.inj heq)
      exact h
    · intro h
      exact h j pte rfl

theorem findLeaf_level (h : findLeaf mem va i n = some (j, pte)) : j ≤ i := by
  induction i generalizing n with
  | zero =>
    rw [findLeaf] at h
    split_ifs at h
    exact (Prod.mk.inj (Option.some.inj h)).1.ge
  | succ i ih =>
    rw [findLeaf] at h
    split_ifs at h
    · exact (Prod.mk.inj (Option.some.inj h)).1.ge
    · exact (ih h).trans (le_succ i)

/-- **The walk translates as it is specified**, exactly if its leaf is not one of those that it
judges otherwise. -/
theorem walk_translates_iff (cfg : MmuConfig) (mem : Mem) (functional autoOpenNextline : Bool)
    (req : XlateReq) (s : Tlbs) (hcanonical : Paging.Canonical req.satp.mode req.vaddr)
    (hpriv : req.pmode ≠ .machine) (hempty : s.Empty cfg)
    (htables : Paging.TablesNonzero mem req.vaddr req.satp.mode.topLevel req.satp.ppn.toNat) :
    translateByWalk cfg mem functional autoOpenNextline req s = .ok (Paging.translate mem req) ↔
      ∀ j pte, Paging.leafOf mem req = some (j, pte) → ¬ Paging.Misjudged req j pte := by
  rw [translateByWalk_eq hcanonical hempty htables, Paging.translate, Except.ok.injEq]
  apply verdict_eq_judge_iff hpriv
  intro j pte hleaf
  have htop : req.satp.mode.topLevel ≤ 3 := by
    cases req.satp.mode <;> decide
  exact (findLeaf_level hleaf).trans htop
end

/-! ### Two pages that are misjudged -/

namespace Tlbs
def init (cfg : MmuConfig) : Tlbs :=
  ⟨⟨.init cfg.size, 0⟩, .init cfg⟩

theorem init_isEmpty (cfg : MmuConfig) : (init cfg).Empty cfg where
  l1 := TlbArray.init_empty _
  l1_size := length_replicate
  l2 _ := TlbArray.init_empty _
  l2_size _ := length_replicate
end Tlbs

theorem fourLines_pos : 0 < 4 := succ_pos 3

def smallMmu : MmuConfig where
  size := 2
  l2TlbL3Size := 1
  l2TlbL2Size := 1
  l2TlbL1Size := 2
  l2TlbL0Size := 4
  l2TlbSpSize := 1
  openNextline := true
  enableL1L2replace := true
  size_pos := Nat.two_pos
  l3_pos := Nat.one_pos
  l2_pos := Nat.one_pos
  l1_pos := Nat.two_pos
  l0_pos := fourLines_pos
  sp_pos := Nat.one_pos

/-- A root table in the second page, whose first entry is a page of one gigabyte at `0x40000000`;
`flags` are the bits of the entry. -/
def onePageMem (flags : BitVec 64) : Mem := fun a =>
  if a.toNat / 8 = 0x200 then
    (((0x10000000 : BitVec 64) ||| flags) >>> (8 * (a.toNat % 8))).setWidth 8
  else 0

def supervisorReq (mode : MMUMode) (status : STATUS) : XlateReq where
  vaddr := 0x123
  mode := mode
  satp := ⟨.sv39, 0, 1⟩
  status := status
  pmode := .supervisor

theorem supervisorReq_canonical (mode : MMUMode) (status : STATUS) :
    Canonical (supervisorReq mode status).satp.mode (supervisorReq mode status).vaddr := by
  intro i hi hlt
  have h39 : 39 ≤ i := hi
  show BitVec.getLsbD (0x123 : BitVec 64) i = BitVec.getLsbD (0x123 : BitVec 64) 38
  interval_cases i <;> rfl

/-- A page that can only be executed is not read in spite of `MXR`; and a supervisor fetches from a
user page because of `SUM`. -/
theorem misjudged_pages :
    (translateByWalk smallMmu (onePageMem 0x49) false false
        (supervisorReq .read ⟨false, true⟩) (.init smallMmu) = .ok (.error .loadPage) ∧
      Paging.translate (onePageMem 0x49) (supervisorReq .read ⟨false, true⟩) =
        .ok 0x40000123) ∧
    translateByWalk smallMmu (onePageMem 0x5b) false false
        (supervisorReq .execute ⟨true, false⟩) (.init smallMmu) = .ok (.ok 0x40000123) ∧
      Paging.translate (onePageMem 0x5b) (supervisorReq .execute ⟨true, false⟩) =
        .error .instPage :=
  ⟨⟨rfl, rfl⟩, rfl, rfl⟩

/-- A readable page is read as specified. -/
theorem readablePage_translated :
    translateByWalk smallMmu (onePageMem 0x43) false false
        (supervisorReq .read ⟨false, true⟩) (.init smallMmu) =
      .ok (Paging.translate (onePageMem 0x43) (supervisorReq .read ⟨false, true⟩)) ∧
    Paging.translate (onePageMem 0x43) (supervisorReq .read ⟨false, true⟩) = .ok 0x40000123 := by
  have hleaf : Leaf (entryOf (onePageMem 0x43) 0x123 2 1) := Or.inl rfl
  have hfound : leafOf (onePageMem 0x43) (supervisorReq .read ⟨false, true⟩) =
      some (2, ⟨0x10000043⟩) := rfl
  refine ⟨(walk_translates_iff smallMmu (onePageMem 0x43) false false
    (supervisorReq .read ⟨false, true⟩) (.init smallMmu) (supervisorReq_canonical _ _)
    (by decide) (Tlbs.init_isEmpty _) ?_).2 ?_, rfl⟩
  · exact ⟨Nat.one_ne_zero, fun _ hpointer => absurd hleaf hpointer⟩
  · intro j pte h
    obtain ⟨rfl, rfl⟩ := Prod.mk.inj (Option.some.inj h)
    rintro ⟨-, -, hmxr | hfetch⟩
    · exact absurd hmxr.2.1 (by decide)
    · exact absurd hfetch.1 (by decide)
end Gem5
