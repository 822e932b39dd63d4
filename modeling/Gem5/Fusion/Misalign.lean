import Gem5.Fusion.SeqLoad

/-!
# Alignment of fused loads

`LSQ::isMisaligned` first takes the remainder of the address by the size of the access.  For a fused
pair of loads this is the sum of two sizes, and only if the remainder is not zero are the parts
looked at.
-/

namespace Gem5

/-- `correctMisalign`: only a pair of loads looks at its parts. -/
def FusionInst.correctMisalign : FusionInst → Addr → Bool
  | .seqLoad _ _ _ first second _ _ _ _, addr =>
    addr.toNat % first.size == 0 && (addr + (first.size : Addr)).toNat % second.size == 0
  | _, _ => false

def isMisaligned (isVector : Bool) (fusion : Option FusionInst) (vaddr : Addr) (size : ℕ) : Bool :=
  if !isVector && decide (1 < size) && decide (vaddr.toNat % size ≠ 0) then
    match fusion with
    | some f => !f.correctMisalign vaddr
    | none => true
  else false

theorem Inst.IsLoad.size_cases {i : Inst} {a : ScalarInst} {n : ℕ} (h : i.IsLoad a n) :
    n = 1 ∨ n = 2 ∨ n = 4 ∨ n = 8 := by
  obtain ⟨signed, hk⟩ := h.kind
  cases hop : a.op <;> rw [hop] at hk <;> cases hk <;> simp

theorem toNat_add_mod {addr : Addr} {m n : ℕ} (hm : m = 1 ∨ m = 2 ∨ m = 4 ∨ m = 8)
    (hn : n = 1 ∨ n = 2 ∨ n = 4 ∨ n = 8) :
    (addr + (m : Addr)).toNat % n = (addr.toNat + m) % n := by
  have hsmall : m < 2 ^ 64 := by omega
  have hcast : ((m : Addr)).toNat = m := by
    rw [BitVec.natCast_eq_ofNat, BitVec.toNat_ofNat, Nat.mod_eq_of_lt hsmall]
  rw [BitVec.toNat_add, hcast]
  apply Nat.mod_mod_of_dvd
  rcases hn with rfl | rfl | rfl | rfl <;> decide

def PartsAligned (m n addr : ℕ) : Prop :=
  m ∣ addr ∧ n ∣ addr + m

instance (m n addr : ℕ) : Decidable (PartsAligned m n addr) :=
  inferInstanceAs (Decidable (_ ∧ _))

theorem multiples_aligned_iff {m n : ℕ} (hm : m = 1 ∨ m = 2 ∨ m = 4 ∨ m = 8)
    (hn : n = 1 ∨ n = 2 ∨ n = 4 ∨ n = 8) :
    (∀ addr : Addr, addr.toNat % (m + n) = 0 → PartsAligned m n addr.toNat) ↔ m = n := by
  constructor
  · -- the sum itself is not a multiple of the larger part, and neither is twice the sum
    intro h
    have hsum := h (BitVec.ofNat 64 (m + n))
    have htwice := h (BitVec.ofNat 64 (2 * (m + n)))
    rcases hm with rfl | rfl | rfl | rfl <;> rcases hn with rfl | rfl | rfl | rfl <;>
      first | rfl | exact absurd (hsum (by decide)) (by decide) |
        exact absurd (htwice (by decide)) (by decide)
  · rintro rfl addr h
    obtain ⟨k, hk⟩ := Nat.dvd_of_mod_eq_zero h
    have hm' : m ∣ addr.toNat := ⟨2 * k, by rw [hk]; ring⟩
    exact ⟨hm', hm'.add (dvd_refl m)⟩

section
variable {first second : Inst} {a b : ScalarInst} {m n memsize : ℕ}
  {base : first.srcRegIdx 0 = second.srcRegIdx 0}
  {next : first.getImm + first.staticInst.operWid / 8 = second.getImm}
  {access : first.staticInst.memAccessFlags = second.staticInst.memAccessFlags}
  {size : first.staticInst.operWid / 8 + second.staticInst.operWid / 8 = memsize}

theorem isMisaligned_seqLoad (name : String) (op : OpClass) (ha : first.IsLoad a m)
    (hb : second.IsLoad b n) (addr : Addr) :
    isMisaligned false (some (.seqLoad memsize name op first second base next access size)) addr
        memsize = true ↔ addr.toNat % (m + n) ≠ 0 ∧ ¬ PartsAligned m n addr.toNat := by
  obtain ⟨-, -, rfl⟩ := seqLoad_layout ha hb base next size
  have hmcases := ha.size_cases
  have hncases := hb.size_cases
  have hlt : 1 < m + n := by omega
  have hparts : (FusionInst.seqLoad (m + n) name op first second base next access
      size).correctMisalign addr = decide (PartsAligned m n addr.toNat) := by
    rw [FusionInst.correctMisalign, ha.size, hb.size, toNat_add_mod hmcases hncases]
    simp [PartsAligned, Nat.dvd_iff_mod_eq_zero, Bool.beq_eq_decide_eq]
  by_cases hrem : addr.toNat % (m + n) = 0
  · simp [isMisaligned, hrem]
  · simp [isMisaligned, hrem, hlt, hparts]

/-- For a pair of loads, `isMisaligned` faults at every address exactly when one of the parts would,
exactly if the parts have the same size. -/
theorem misaligned_iff_parts_iff (name : String) (op : OpClass) (ha : first.IsLoad a m)
    (hb : second.IsLoad b n) :
    (∀ addr : Addr,
      isMisaligned false (some (.seqLoad memsize name op first second base next access size)) addr
        memsize = true ↔ ¬ m ∣ addr.toNat ∨ ¬ n ∣ addr.toNat + m) ↔ m = n := by
  rw [← multiples_aligned_iff ha.size_cases hb.size_cases]
  refine forall_congr' fun addr => ?_
  rw [isMisaligned_seqLoad name op ha hb, ← not_and_or, ← PartsAligned]
  tauto
end

/-- `ld x6, 4(x10)` -/
def ldX6 : Inst := .fetched 0x80000004 2 (.scalar ⟨.ld, 6, 10, 0, 4, by decide⟩)

/-- Two loads of four bytes fault exactly when one of them would. -/
theorem lwlw_misaligned : ∃ f, checkAndFuseInsts .full 0 .closed [.plain lwX5] lwuX6 =
      .ok (.closed, some ([], .mkFused lwX5 lwuX6 f)) ∧
    ∀ addr : Addr, isMisaligned false (some f) addr 8 = true ↔
      ¬ 4 ∣ addr.toNat ∨ ¬ 4 ∣ addr.toNat + 4 :=
  ⟨_, rfl, (misaligned_iff_parts_iff _ _ ⟨rfl, true, rfl⟩ ⟨rfl, false, rfl⟩).mpr rfl⟩

/-- Decode fuses a load of four bytes and one of eight.  At address 24 the second would read from
28, and no fault is reported. -/
theorem lwld_not_misaligned : ∃ f, checkAndFuseInsts .full 0 .closed [.plain lwX5] ldX6 =
      .ok (.closed, some ([], .mkFused lwX5 ldX6 f)) ∧
    isMisaligned false (some f) 24 12 = false ∧ ¬ 8 ∣ 24 + 4 :=
  ⟨_, rfl, rfl, by decide⟩

end Gem5
