import Gem5.Lib.Bytes
import Gem5.Arch.Reg

/-!
# Page table entries and TLB entries

What the page table walker and the TLBs share: the fields of a page table entry, the address
translation register, permissions, TLB entries and the keys under which they are found.

Translation has one stage here; the fields of entries that only the two-stage translation uses are
left out.
-/

namespace Gem5
open BitVec

/-- `mask` of `base/bitfield.hh`. -/
def bitMask (nbits : ℕ) : Addr :=
  if nbits ≥ 64 then BitVec.allOnes 64 else ((1 : Addr) <<< nbits) - 1

/-- `bits` of `base/bitfield.hh`. -/
def bits (val : BitVec 64) (first last : ℕ) : Addr :=
  (val >>> last) &&& bitMask (first - last + 1)

theorem toNat_bitMask {n : ℕ} (h : n < 64) : (bitMask n).toNat = 2 ^ n - 1 := by
  have hn : 2 ^ n < 2 ^ 64 := Nat.pow_lt_pow_right (by decide) h
  have hpos : 0 < 2 ^ n := Nat.two_pow_pos n
  have hone : (1 : Addr).toNat = 1 := rfl
  rw [bitMask, if_neg (Nat.not_le.mpr h), toNat_sub, toNat_shiftLeft, Nat.shiftLeft_eq, hone]
  omega

theorem toNat_and_bitMask (v : Addr) {n : ℕ} (h : n < 64) :
    (v &&& bitMask n).toNat = v.toNat % 2 ^ n := by
  rw [toNat_and, toNat_bitMask h, Nat.and_two_pow_sub_one_eq_mod]

theorem toNat_bits (v : BitVec 64) {first last : ℕ} (h : first - last + 1 < 64) :
    (bits v first last).toNat = v.toNat / 2 ^ last % 2 ^ (first - last + 1) := by
  rw [bits, toNat_and_bitMask _ h, toNat_ushiftRight, Nat.shiftRight_eq_div_pow]

theorem getLsbD_bitMask {n : ℕ} (h : n < 64) (i : ℕ) : (bitMask n).getLsbD i = decide (i < n) := by
  rw [← testBit_toNat, toNat_bitMask h, Nat.testBit_two_pow_sub_one]

def pageShift : ℕ := 12

def levelBits : ℕ := 9

def levelMask : Addr := 0x1ff

def l2tlbLineSize : ℕ := 8

def l2tlbBlkOffset : ℕ := 3

def vaddrChooseMask : Addr := 7

def levelShift (level : ℕ) : ℕ := level * levelBits + pageShift

/-! ### Page table entries -/

structure PTE where
  word : BitVec 64
  deriving DecidableEq

namespace PTE
variable (pte : PTE)

def ppn : Addr := bits pte.word 53 10
def ppn2 : Addr := bits pte.word 36 28
def ppn1 : Addr := bits pte.word 27 19
def ppn0 : Addr := bits pte.word 18 10
def d : Bool := pte.word.getLsbD 7
def a : Bool := pte.word.getLsbD 6
def u : Bool := pte.word.getLsbD 4
def x : Bool := pte.word.getLsbD 3
def w : Bool := pte.word.getLsbD 2
def r : Bool := pte.word.getLsbD 1
def v : Bool := pte.word.getLsbD 0
end PTE

def Mem.pteAt (mem : Mem) (a : Addr) : PTE :=
  ⟨BitVec.ofNat 64 (Bytes.leNat (Bytes.read mem a 8))⟩

/-- The modes of translation, without `BARE`. -/
inductive AddrXlateMode
  | sv39
  | sv48
  deriving DecidableEq

namespace AddrXlateMode

/-- `PTW_TOP_LEVEL`. -/
def topLevel : AddrXlateMode → ℕ
  | sv39 => 2
  | sv48 => 3

def vaddrBits : AddrXlateMode → ℕ
  | sv39 => 39
  | sv48 => 48

/-- `VADDR_SEXT`: nothing is cleared if the sign is positive. -/
def vaddrSext (m : AddrXlateMode) (vaddr : Addr) : Addr :=
  if vaddr.getLsbD (m.vaddrBits - 1) then vaddr ||| ~~~bitMask m.vaddrBits else vaddr
end AddrXlateMode

structure SATP where
  mode : AddrXlateMode
  asid : BitVec 16
  ppn : BitVec 44
  deriving DecidableEq

/-- The bits of `mstatus` that translation reads.  The whole register is compared when two requests
are merged; here its other bits do not change. -/
structure STATUS where
  sum : Bool
  mxr : Bool
  deriving DecidableEq

inductive PrivilegeMode
  | user
  | supervisor
  | machine
  deriving DecidableEq

/-- `BaseMMU::Mode`. -/
inductive MMUMode
  | read
  | write
  | execute
  deriving DecidableEq

/-- The faults of a translation; `address` is that of a physical access that is not allowed. -/
inductive MMUFault
  | loadPage
  | storePage
  | instPage
  | address
  deriving DecidableEq

def createPagefault : MMUMode → MMUFault
  | .read => .loadPage
  | .write => .storePage
  | .execute => .instPage

/-- `checkPermissions`: first the access, then the privilege. -/
def checkPermissions (status : STATUS) (pmode : PrivilegeMode) (mode : MMUMode) (pte : PTE) :
    Option MMUFault :=
  if (mode = .read ∧ pte.r = false) ∨ (mode = .write ∧ pte.w = false) ∨
      (mode = .execute ∧ pte.x = false) then
    some (createPagefault mode)
  else if pmode = .user ∧ pte.u = false then some (createPagefault mode)
  else if pmode = .supervisor ∧ pte.u = true ∧ status.sum = false then some (createPagefault mode)
  else none

/-! ### TLB entries -/

structure TlbEntry where
  paddr : Addr
  vaddr : Addr
  gpaddr : Addr
  logBytes : ℕ
  asid : BitVec 16
  vmid : BitVec 16
  pte : PTE
  lruSeq : ℕ
  level : ℕ
  index : Addr
  isSquashed : Bool
  used : Bool
  isPre : Bool
  fromForwardPreReq : Bool
  fromBackPreReq : Bool
  preSign : Bool

namespace TlbEntry
def default : TlbEntry where
  paddr := 0
  vaddr := 0
  gpaddr := 0
  logBytes := 0
  asid := 0
  vmid := 0
  pte := ⟨0⟩
  lruSeq := 0
  level := 0
  index := 0
  isSquashed := false
  used := false
  isPre := false
  fromForwardPreReq := false
  fromBackPreReq := false
  preSign := false

def size (e : TlbEntry) : Addr :=
  (1 : Addr) <<< e.logBytes

def translate (e : TlbEntry) (vaddr : Addr) : Addr :=
  (e.paddr <<< pageShift) ||| (vaddr &&& bitMask e.logBytes)

def Agrees (e : TlbEntry) : Prop :=
  e.paddr = e.pte.ppn

instance (e : TlbEntry) : Decidable e.Agrees := by
  unfold Agrees
  infer_instance

theorem default_agrees : default.Agrees := by
  decide
end TlbEntry

/-- `TlbTranslateMode`; only the first occurs with one stage. -/
inductive TlbTranslateMode
  | direct
  | vsstage
  | gstage
  | allstage
  deriving DecidableEq

def TlbTranslateMode.code : TlbTranslateMode → Addr
  | .direct => 0
  | .vsstage => 1
  | .gstage => 2
  | .allstage => 3

def buildKey (vpn : Addr) (asid : BitVec 16) (translateMode : TlbTranslateMode) : Addr :=
  (asid.setWidth 64 <<< 48) ||| (translateMode.code <<< 46) ||| ((vpn >>> 12) &&& bitMask 46)

/-- The bits of a key that matter for a page: `MaxBits - logBytes + PGSHFT` of them. -/
def nodeMask (logBytes : ℕ) : Addr :=
  BitVec.allOnes 64 <<< (logBytes - 12)

theorem getLsbD_nodeMask (n i : ℕ) :
    (nodeMask n).getLsbD i = (decide (i < 64) && decide (n - 12 ≤ i)) := by
  rw [nodeMask, getLsbD_shiftLeft, getLsbD_allOnes]
  by_cases hn : n - 12 ≤ i
  · have hlt : i < 64 → i - (n - 12) < 64 := by omega
    by_cases hi : i < 64 <;> simp [hi, hn, hlt]
  · simp [hn]

theorem getLsbD_buildKey (vpn : Addr) (asid : BitVec 16) {i : ℕ} (h : i < 46) :
    (buildKey vpn asid .direct).getLsbD i = vpn.getLsbD (12 + i) := by
  have h48 : i < 48 := by omega
  simp [buildKey, TlbTranslateMode.code, getLsbD_bitMask, h, h48]

theorem masked_key_congr {u v : Addr} {logBytes : ℕ} (h12 : 12 ≤ logBytes)
    (h : ∀ i, logBytes ≤ i → u.getLsbD i = v.getLsbD i) (asid : BitVec 16)
    (mode : TlbTranslateMode) :
    buildKey u asid mode &&& nodeMask logBytes = buildKey v asid mode &&& nodeMask logBytes := by
  apply eq_of_getLsbD_eq
  intro i hi
  by_cases hn : logBytes - 12 ≤ i
  · have huv : u.getLsbD (12 + i) = v.getLsbD (12 + i) := h (12 + i) (by omega)
    simp [buildKey, huv]
  · simp [getLsbD_nodeMask, hn]
end Gem5
