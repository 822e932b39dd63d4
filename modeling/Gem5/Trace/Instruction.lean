import Mathlib.Data.List.OfFn

/-!
# Trace instructions

The records of a ChampSim trace and the instructions that the trace reader makes of them.  The
addresses of a record are mapped into a window of memory; the type of an instruction is found from
its special registers; branch targets and sizes are not in the trace, but found when the next record
is known (`reconcilePendingWithNext`).

Fields that ChampSim traces do not fill (sizes of memory accesses, pieces, immediates) are left out.
-/

namespace Gem5

/-! ### Addresses -/

inductive AddrMapMode
  | linear
  | hash
  deriving DecidableEq

def pageBytes : UInt64 := 4096

/-- The window that addresses are mapped into.  An empty window, or one smaller than a page where
pages are kept, stops the simulation. -/
structure AddrMapConfig where
  base : UInt64
  size : UInt64
  mode : AddrMapMode
  pageAlign : Bool
  size_ne : size ≠ 0
  page_le : mode = .linear → pageAlign = true → pageBytes ≤ size

namespace AddrMapConfig
variable (cfg : AddrMapConfig)

def mapAddressHash (addr : UInt64) : UInt64 :=
  let hash := (addr ^^^ (addr >>> 16)) &&& 0x3FFFFFFF
  let mapped := cfg.base + hash % cfg.size
  if cfg.pageAlign then
    let mapped := mapped / pageBytes * pageBytes + addr % pageBytes
    if mapped - cfg.base ≥ cfg.size then cfg.base + addr % cfg.size else mapped
  else mapped

def mapAddressLinear (addr : UInt64) : UInt64 :=
  if cfg.pageAlign then
    let pages := cfg.size / pageBytes
    let page := if pages ≠ 0 then addr / pageBytes % pages else 0
    cfg.base + page * pageBytes + addr % pageBytes
  else cfg.base + addr % cfg.size

def mapTraceAddressToVirtual (addr : UInt64) : UInt64 :=
  match cfg.mode with
  | .linear => cfg.mapAddressLinear addr
  | .hash => cfg.mapAddressHash addr

def mapTracePcToVirtual (pc : UInt64) : UInt64 :=
  cfg.mapTraceAddressToVirtual pc

def mapTraceMemToVirtual (addr : UInt64) : UInt64 :=
  cfg.mapTraceAddressToVirtual addr &&& ~~~(3 : UInt64)

end AddrMapConfig

/-- A window of whole pages. -/
structure PagedMap extends AddrMapConfig where
  paged : pageAlign = true
  base_dvd : 4096 ∣ base.toNat
  size_dvd : 4096 ∣ size.toNat
  fits : base.toNat + size.toNat ≤ UInt64.size

theorem hash_page (a : ℕ) : ((a ^^^ a >>> 16) &&& 0x3FFFFFFF) / 4096 =
    (a / 4096 ^^^ (a / 4096) >>> 16) &&& 0x3FFFF := by
  have h (n : ℕ) : n / 4096 = n >>> 12 := (Nat.shiftRight_eq_div_pow n 12).symm
  rw [h, h, Nat.shiftRight_and_distrib, Nat.shiftRight_xor_distrib, ← Nat.shiftRight_add,
    ← Nat.shiftRight_add]
  rfl

namespace PagedMap
open AddrMapConfig

/-- A page of the trace goes to a page of the window. -/
theorem exists_page (m : PagedMap) : ∃ page : ℕ → ℕ, ∀ a : UInt64,
    4096 * page (a.toNat / 4096) + 4096 ≤ m.size.toNat ∧ (m.mapTracePcToVirtual a).toNat =
      m.base.toNat + 4096 * page (a.toNat / 4096) + a.toNat % 4096 := by
  obtain ⟨b, hb⟩ := m.base_dvd
  obtain ⟨k, hk⟩ := m.size_dvd
  have hfits := m.fits
  have hpos : 0 < k := Nat.pos_of_ne_zero fun h =>
    m.size_ne (UInt64.toNat_inj.1 (by rw [hk, h]; rfl))
  have hbytes : pageBytes.toNat = 4096 := rfl
  rw [UInt64.size] at hfits
  unfold mapTracePcToVirtual mapTraceAddressToVirtual
  cases m.mode with
  | linear =>
    refine ⟨(· % k), fun a => ?_⟩
    have hlt := Nat.mod_lt (a.toNat / 4096) hpos
    have hpages : (m.size / pageBytes).toNat = k := by
      rw [UInt64.toNat_div, hbytes, hk, Nat.mul_div_cancel_left k (by omega)]
    have hne : m.size / pageBytes ≠ 0 := fun h => by
      rw [h] at hpages
      exact hpos.ne hpages
    simp only [mapAddressLinear, m.paged, if_true, hne, ne_eq, not_false_eq_true,
      UInt64.toNat_add, UInt64.toNat_mul, UInt64.toNat_mod, hpages, UInt64.toNat_div, hbytes]
    omega
  | hash =>
    refine ⟨fun p => ((p ^^^ p >>> 16) &&& 0x3FFFF) % k, fun a => ?_⟩
    dsimp only
    rw [← hash_page, ← Nat.mod_mul_right_div_self, ← hk]
    generalize hhash : (a ^^^ a >>> 16) &&& 0x3FFFFFFF = hash
    have htoNat : (a.toNat ^^^ a.toNat >>> 16) &&& 0x3FFFFFFF = hash.toNat := by
      simp [← hhash]
    have hlt := Nat.mod_lt hash.toNat (show 0 < m.size.toNat by omega)
    rw [htoNat]
    have hmapped : ((m.base + hash % m.size) / pageBytes * pageBytes + a % pageBytes).toNat =
        m.base.toNat + 4096 * (hash.toNat % m.size.toNat / 4096) + a.toNat % 4096 := by
      simp only [UInt64.toNat_add, UInt64.toNat_mul, UInt64.toNat_mod, UInt64.toNat_div, hbytes]
      omega
    refine ⟨by omega, ?_⟩
    rw [mapAddressHash, hhash, if_pos m.paged, if_neg ?_, hmapped]
    rw [ge_iff_le, UInt64.le_iff_toNat_le, UInt64.toNat_sub, hmapped]
    omega

/-- **Pages are kept**: a mapped pc lies in the window at its old page offset, and two addresses of
one page go to one page at the same distance. -/
theorem keepsPages (m : PagedMap) (a b : UInt64) :
    let f := m.mapTracePcToVirtual
    m.base ≤ f a ∧ (f a).toNat < m.base.toNat + m.size.toNat ∧ f a % pageBytes = a % pageBytes ∧
      (a / pageBytes = b / pageBytes → f a / pageBytes = f b / pageBytes ∧ f b - f a = b - a) := by
  obtain ⟨page, h⟩ := m.exists_page
  obtain ⟨hlt, ha⟩ := h a
  obtain ⟨-, hb⟩ := h b
  have hbytes : pageBytes.toNat = 4096 := rfl
  have hbase := m.base_dvd
  have hfits := m.fits
  rw [UInt64.size] at hfits
  refine ⟨?_, by omega, ?_, fun hpage => ⟨?_, ?_⟩⟩
  · rw [UInt64.le_iff_toNat_le]
    omega
  · rw [← UInt64.toNat_inj, UInt64.toNat_mod, UInt64.toNat_mod, hbytes]
    omega
  all_goals
    rw [← UInt64.toNat_inj, UInt64.toNat_div, UInt64.toNat_div, hbytes] at hpage
    rw [hpage] at hlt ha
    rw [← UInt64.toNat_inj]
  · rw [UInt64.toNat_div, UInt64.toNat_div, hbytes, ha, hb]
    omega
  · have := a.toNat_lt
    rw [UInt64.toNat_sub, UInt64.toNat_sub, ha, hb]
    omega

theorem window_size_ne : (0x8000 : UInt64) ≠ 0 := by decide

theorem window_page_le (mode : AddrMapMode) :
    mode = .linear → true = true → pageBytes ≤ (0x8000 : UInt64) := fun _ _ => by decide

theorem window_base_dvd : 4096 ∣ (0x80000000 : UInt64).toNat := by decide

theorem window_size_dvd : 4096 ∣ (0x8000 : UInt64).toNat := by decide

theorem window_fits : (0x80000000 : UInt64).toNat + (0x8000 : UInt64).toNat ≤ UInt64.size := by
  decide

/-- Eight pages at `0x80000000`. -/
def window (mode : AddrMapMode) : PagedMap where
  base := 0x80000000
  size := 0x8000
  mode := mode
  pageAlign := true
  size_ne := window_size_ne
  page_le := window_page_le mode
  paged := rfl
  base_dvd := window_base_dvd
  size_dvd := window_size_dvd
  fits := window_fits

/-- Two instructions of one page, in both modes. -/
theorem window_keepsPages :
    let a : UInt64 := 0x7F0012345FF8
    let f := (window .hash).mapTracePcToVirtual
    let g := (window .linear).mapTracePcToVirtual
    f a ≠ g a ∧
    (0x80000000 ≤ f a ∧ (f a).toNat < 0x80008000 ∧ f a % pageBytes = 0xFF8 ∧
      f (a + 4) / pageBytes = f a / pageBytes ∧ f (a + 4) - f a = 4) ∧
    (0x80000000 ≤ g a ∧ (g a).toNat < 0x80008000 ∧ g a % pageBytes = 0xFF8 ∧
      g (a + 4) / pageBytes = g a / pageBytes ∧ g (a + 4) - g a = 4) := by
  intro a f g
  obtain ⟨hf₁, hf₂, hf₃, hf₄⟩ := (window .hash).keepsPages a (a + 4)
  obtain ⟨hg₁, hg₂, hg₃, hg₄⟩ := (window .linear).keepsPages a (a + 4)
  obtain ⟨hfp, hfd⟩ := hf₄ (by decide)
  obtain ⟨hgp, hgd⟩ := hg₄ (by decide)
  have hoffset : a % pageBytes = 0xFF8 := by decide
  have hdist : a + 4 - a = 4 := by decide
  exact ⟨by decide, ⟨hf₁, hf₂, hf₃.trans hoffset, hfp.symm, hfd.trans hdist⟩,
    ⟨hg₁, hg₂, hg₃.trans hoffset, hgp.symm, hgd.trans hdist⟩⟩

end PagedMap

/-! ### Records and instructions -/

structure ChampSimInstr where
  ip : UInt64
  isBranch : UInt8
  branchTaken : UInt8
  destinationRegisters : Fin 2 → UInt8
  sourceRegisters : Fin 4 → UInt8
  destinationMemory : Fin 2 → UInt64
  sourceMemory : Fin 4 → UInt64

inductive InstType
  | alu
  | load
  | store
  | condBranch
  | uncondDirectBranch
  | uncondIndirectBranch
  | fp
  | slowAlu
  | callDirect
  | callIndirect
  | ret
  | undefined
  deriving DecidableEq

def InstType.isBranch : InstType → Bool
  | .condBranch | .uncondDirectBranch | .uncondIndirectBranch | .callDirect | .callIndirect
  | .ret => true
  | _ => false

structure TraceInstruction where
  pc : UInt64
  instType : InstType
  branchTaken : Bool
  branchTarget : Option UInt64
  ctrlFlowChange : Bool
  ctrlFlowTarget : Option UInt64
  loadAddresses : List UInt64
  storeAddresses : List UInt64
  loadValues : List UInt64
  storeValues : List UInt64
  srcRegs : List UInt8
  dstRegs : List UInt8
  seqNum : ℕ
  instSizeBytes : ℕ
  valid : Bool
  lastInTrace : Bool
  deriving DecidableEq

namespace TraceInstruction
def invalid : TraceInstruction where
  pc := 0
  instType := .undefined
  branchTaken := false
  branchTarget := none
  ctrlFlowChange := false
  ctrlFlowTarget := none
  loadAddresses := []
  storeAddresses := []
  loadValues := []
  storeValues := []
  srcRegs := []
  dstRegs := []
  seqNum := 0
  instSizeBytes := 4
  valid := false
  lastInTrace := false

def isAnyBranch (i : TraceInstruction) : Bool :=
  i.instType.isBranch

def setLastInTrace (i : TraceInstruction) : TraceInstruction :=
  { i with lastInTrace := true }

/-- What `fetchTraceInstruction` makes of the head of the stream: an instruction that does not lead
to the next one in the usual way, and is not a branch, is taken to be short. -/
def fetched (traceEnableWrongPath traceBPValidation : Bool) (head : TraceInstruction) :
    TraceInstruction :=
  if traceEnableWrongPath && traceBPValidation && head.ctrlFlowChange && !head.isAnyBranch then
    { head with instSizeBytes := 2 }
  else head

end TraceInstruction

/-! ### From records to instructions -/

namespace ChampSimInstr
variable (r : ChampSimInstr)

/-- The registers of a record that have a meaning of their own: stack pointer, flags, instruction
pointer. -/
def regSP : UInt8 := 6

@[inherit_doc regSP] def regFL : UInt8 := 25

@[inherit_doc regSP] def regIP : UInt8 := 26

def determineInstType : InstType :=
  let dsts := List.ofFn r.destinationRegisters
  let srcs := List.ofFn r.sourceRegisters
  let writesSp := dsts.contains regSP
  let writesIp := dsts.contains regIP
  let readsSp := srcs.contains regSP
  let readsFl := srcs.contains regFL
  let readsIp := srcs.contains regIP
  let readsOther := srcs.any fun x => x != 0 && x != regSP && x != regFL && x != regIP
  let memory : InstType :=
    if (List.ofFn r.destinationMemory).any (· != 0) then .store
    else if (List.ofFn r.sourceMemory).any (· != 0) then .load
    else .alu
  if r.isBranch != 0 || writesIp then
    if !readsSp && !readsFl && writesIp && !readsOther then .uncondDirectBranch
    else if !readsSp && !readsFl && writesIp && readsOther then .uncondIndirectBranch
    else if !readsSp && readsIp && !writesSp && writesIp && readsFl && !readsOther then .condBranch
    else if readsSp && readsIp && writesSp && writesIp && !readsFl && !readsOther then .callDirect
    else if readsSp && readsIp && writesSp && writesIp && !readsFl && readsOther then .callIndirect
    else if readsSp && !readsIp && writesSp && writesIp then .ret
    else if writesIp then .condBranch
    else memory
  else memory

def mapIntReg (x : UInt8) : UInt8 :=
  if x = 0 ∨ x = regFL ∨ x = regIP then 0
  else if x = regSP then 2
  else if x = 1 ∨ x = 5 then 3
  else if x < 32 then x
  else 0

/-- Unconditional branches are taken; a conditional one only if the record says that it is a branch
and is taken. -/
def effTaken : Bool :=
  match r.determineInstType with
  | .condBranch => r.isBranch != 0 && r.branchTaken != 0
  | .uncondDirectBranch | .uncondIndirectBranch | .callDirect | .callIndirect | .ret => true
  | _ => false

/-- `convertInstruction`: the instruction of a record, with its number in the trace. -/
def convertInstruction (cfg : AddrMapConfig) (seqNum : ℕ) : TraceInstruction :=
  let stores := (List.ofFn r.destinationMemory).filter (· != 0)
  let loads := (List.ofFn r.sourceMemory).filter (· != 0)
  { TraceInstruction.invalid with
    pc := cfg.mapTracePcToVirtual r.ip
    instType := r.determineInstType
    branchTaken := r.effTaken
    loadAddresses := loads.map cfg.mapTraceMemToVirtual
    storeAddresses := stores.map cfg.mapTraceMemToVirtual
    loadValues := loads.map (· ^^^ 0xDEADBEEF)
    storeValues := stores.map fun a => (a ^^^ r.ip) + 0x12345678
    srcRegs := ((List.ofFn r.sourceRegisters).filter (· != 0)).map mapIntReg
    dstRegs := ((List.ofFn r.destinationRegisters).filter (· != 0)).map mapIntReg
    seqNum := seqNum
    instSizeBytes := 4
    valid := true }

end ChampSimInstr

/-! ### Two instructions in a row -/

namespace TraceInstruction
def isApproxFallthrough (pc nextPc : UInt64) : Bool :=
  nextPc = pc + 2 || nextPc = pc + 4

def correctNext (pending next : TraceInstruction) : TraceInstruction :=
  if !pending.isAnyBranch && (next.pc &&& 1) != 0 then { next with pc := pending.pc + 4 } else next

/-- The pending instruction gets its size, its branch target and what is unusual about the way to
the next one; targets that are known stay as they are. -/
def resolve (pending : TraceInstruction) (nextPc : UInt64) : TraceInstruction :=
  let takenBranch := pending.isAnyBranch && pending.branchTaken
  let delta := nextPc - pending.pc
  let sized := if !takenBranch && pending.pc ≤ nextPc && 0 < delta && delta ≤ 8 then
      { pending with instSizeBytes := delta.toNat }
    else pending
  if takenBranch then
    { sized with branchTarget := some (sized.branchTarget.getD nextPc) }
  else if isApproxFallthrough pending.pc nextPc then sized
  else { sized with ctrlFlowChange := true, ctrlFlowTarget := some nextPc }

/-- `reconcilePendingWithNext`, without repair of known targets, as the ChampSim reader calls it. -/
def reconcilePendingWithNext (pending next : TraceInstruction) :
    TraceInstruction × TraceInstruction :=
  let next := correctNext pending next
  (pending.resolve next.pc, next)

theorem correctNext_eq (pending next : TraceInstruction) :
    ∃ pc, correctNext pending next = { next with pc := pc } := by
  unfold correctNext
  split_ifs
  · exact ⟨_, rfl⟩
  · exact ⟨next.pc, rfl⟩

/-- What `resolve` leaves as it is. -/
theorem resolve_same (pending : TraceInstruction) (nextPc : UInt64) :
    (pending.resolve nextPc).pc = pending.pc ∧ (pending.resolve nextPc).seqNum = pending.seqNum ∧
      (pending.resolve nextPc).valid = pending.valid ∧
      (pending.resolve nextPc).lastInTrace = pending.lastInTrace := by
  unfold resolve
  dsimp only
  split_ifs <;> exact ⟨rfl, rfl, rfl, rfl⟩

end TraceInstruction
end Gem5
