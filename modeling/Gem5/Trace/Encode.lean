import Gem5.Trace.Seek

/-!
# Sizes of trace instructions

The size of an instruction is the distance to the next record, whatever it is, as long as it is at
most eight bytes; but only instructions of two and of four bytes can be encoded.

A record of a CBP2025 trace is first given the distance to its own next pc, after both are mapped.
This is the size that the last instruction keeps, and one whose next record is not near.  Sizes of
memory accesses are left out, as in ChampSim traces; a record that is not read whole ends the trace.
-/

namespace Gem5
open ChampSimTrace

/-! ### What can be encoded -/

namespace TraceInstruction

/-- The check of `createMachInstFromTrace`; the answer is whether the encoding is compressed. -/
def createMachInstFromTrace (i : TraceInstruction) : Except String Bool :=
  let instSize := if i.instSizeBytes ≠ 0 then i.instSizeBytes else 4
  if instSize ≠ 2 ∧ instSize ≠ 4 then .error "[TRACE-ENC] Unsupported instruction size"
  else .ok (instSize == 2)

/-- Fetch can encode the instruction. -/
def Encodes (wrongPath validation : Bool) (i : TraceInstruction) : Prop :=
  ∃ compressed, (i.fetched wrongPath validation).createMachInstFromTrace = .ok compressed

/-- The size of the instruction is taken from the address of the next one. -/
def Near (i : TraceInstruction) (nextPc : UInt64) : Prop :=
  (i.isAnyBranch && i.branchTaken) = false ∧ i.pc ≤ nextPc ∧ 0 < nextPc - i.pc ∧ nextPc - i.pc ≤ 8

/-- The next instruction, if it is not the target of a branch and near, is at the distance of an
instruction, or the size is chosen by fetch. -/
def Spaced (wrongPath validation : Bool) (i : TraceInstruction) (nextPc : UInt64) : Prop :=
  Near i nextPc → nextPc - i.pc = 2 ∨ nextPc - i.pc = 4 ∨
    (wrongPath = true ∧ validation = true ∧ i.isAnyBranch = false)

/-- Fetch chooses the size of an instruction whose next one is elsewhere. -/
def Forced (wrongPath validation : Bool) (i : TraceInstruction) (nextPc : UInt64) : Prop :=
  wrongPath = true ∧ validation = true ∧ i.isAnyBranch = false ∧
    isApproxFallthrough i.pc nextPc = false

variable {wrongPath validation : Bool} {i : TraceInstruction} {nextPc : UInt64}

theorem near_iff : Near i nextPc ↔ (!(i.isAnyBranch && i.branchTaken) && decide (i.pc ≤ nextPc) &&
    decide (0 < nextPc - i.pc) && decide (nextPc - i.pc ≤ 8)) = true := by
  simp only [Near, Bool.and_eq_true, Bool.not_eq_true', decide_eq_true_eq, and_assoc]

theorem resolve_isAnyBranch (i : TraceInstruction) (nextPc : UInt64) :
    (i.resolve nextPc).isAnyBranch = i.isAnyBranch := by
  unfold resolve isAnyBranch
  dsimp only
  split_ifs <;> rfl

theorem encodes_iff : Encodes wrongPath validation i ↔
    (i.fetched wrongPath validation).instSizeBytes ∈ [0, 2, 4] := by
  generalize h : i.fetched wrongPath validation = j
  rw [Encodes, h, createMachInstFromTrace]
  split_ifs with hzero hsize hsize <;> simp <;> omega

theorem encodes_of_plain (hplain : i.ctrlFlowChange = false) :
    Encodes wrongPath validation i ↔ i.instSizeBytes ∈ [0, 2, 4] := by
  rw [encodes_iff, fetched, hplain]
  simp

theorem encodes_last (hplain : i.ctrlFlowChange = false) :
    Encodes wrongPath validation i.setLastInTrace ↔ i.instSizeBytes ∈ [0, 2, 4] :=
  encodes_of_plain (i := i.setLastInTrace) hplain

theorem isApproxFallthrough_iff {pc : UInt64} : isApproxFallthrough pc nextPc = true ↔
    nextPc - pc = 2 ∨ nextPc - pc = 4 := by
  simp only [isApproxFallthrough]
  grind

theorem mem_sizes_iff {d : UInt64} (hpos : 0 < d) : d.toNat ∈ [0, 2, 4] ↔ d = 2 ∨ d = 4 := by
  rw [UInt64.lt_iff_toNat_lt] at hpos
  simp only [← UInt64.toNat_inj]
  simp at hpos ⊢
  omega

/-- What fetch sees of an instruction whose next one is known. -/
theorem encodes_resolve (hplain : i.ctrlFlowChange = false) :
    Encodes wrongPath validation (i.resolve nextPc) ↔
      (i.resolve nextPc).instSizeBytes ∈ [0, 2, 4] ∨ Forced wrongPath validation i nextPc := by
  have hbranch := i.resolve_isAnyBranch nextPc
  have hflow : (i.resolve nextPc).ctrlFlowChange = true ↔
      (i.isAnyBranch && i.branchTaken) = false ∧ isApproxFallthrough i.pc nextPc = false := by
    unfold resolve
    dsimp only
    split_ifs <;> simp_all
  by_cases hforced : Forced wrongPath validation i nextPc
  · obtain ⟨hw, hv, hb, ha⟩ := hforced
    have hchange := hflow.2 ⟨by simp [hb], ha⟩
    refine iff_of_true ?_ (.inr ⟨hw, hv, hb, ha⟩)
    rw [encodes_iff, fetched, if_pos (by simp [hw, hv, hb, hbranch, hchange])]
    simp
  · rw [encodes_iff, fetched, if_neg, or_iff_left hforced]
    intro h
    simp only [Bool.and_eq_true, Bool.not_eq_true', hbranch, hflow] at h
    exact hforced ⟨h.1.1.1, h.1.1.2, h.2, h.1.2.2⟩

theorem encodes_resolve_iff (hplain : i.ctrlFlowChange = false) :
    Encodes wrongPath validation (i.resolve nextPc) ↔ Spaced wrongPath validation i nextPc ∧
      (¬Near i nextPc → i.instSizeBytes ∈ [0, 2, 4] ∨ Forced wrongPath validation i nextPc) := by
  have hsize : (i.resolve nextPc).instSizeBytes =
      if (!(i.isAnyBranch && i.branchTaken) && i.pc ≤ nextPc && 0 < nextPc - i.pc &&
        nextPc - i.pc ≤ 8) then (nextPc - i.pc).toNat else i.instSizeBytes := by
    unfold resolve
    dsimp only
    split_ifs <;> rfl
  rw [encodes_resolve hplain, hsize]
  by_cases hnear : Near i nextPc
  · rw [if_pos (near_iff.1 hnear), mem_sizes_iff hnear.2.2.1]
    obtain ⟨htaken, hle, hpos, hfar⟩ := hnear
    -- a size of two or four is that of an instruction that goes on to the next one
    have happrox : isApproxFallthrough i.pc nextPc = true ↔ _ := isApproxFallthrough_iff
    simp only [Spaced, Near, htaken, hle, hpos, hfar, Forced]
    cases ha : isApproxFallthrough i.pc nextPc <;> simp [ha] at happrox ⊢ <;> tauto
  · rw [if_neg (mt near_iff.2 hnear)]
    simp [Spaced, hnear]

end TraceInstruction

/-! ### CBP2025 traces -/

/-- The classes of instructions; `undef` is any number without a class of its own. -/
inductive CBPInstClass
  | alu
  | load
  | store
  | condBr
  | uncondDirBr
  | uncondIndBr
  | fp
  | slowAlu
  | undef
  | callDir
  | callInd
  | ret
  deriving DecidableEq

namespace CBPInstClass

/-- `isBranch`. -/
def isBranch : CBPInstClass → Bool
  | .condBr | .uncondDirBr | .uncondIndBr | .callDir | .callInd | .ret => true
  | _ => false

/-- `mapInstType`: the slow arithmetic instructions are not told apart. -/
def mapInstType : CBPInstClass → InstType
  | .alu | .slowAlu => .alu
  | .load => .load
  | .store => .store
  | .condBr => .condBranch
  | .uncondDirBr => .uncondDirectBranch
  | .uncondIndBr => .uncondIndirectBranch
  | .fp => .fp
  | .callDir => .callDirect
  | .callInd => .callIndirect
  | .ret => .ret
  | .undef => .undefined

/-- `mapIntReg`: the link register and the stack pointer have other numbers, and the source of an
indirect call must not be read as a link register. -/
def mapIntReg (cls : CBPInstClass) (r : UInt8) : UInt8 :=
  if r = 0 ∨ r = 65 ∨ r = 64 then 0
  else if r = 31 then 2
  else if r = 30 then 1
  else if cls = .callInd ∧ r = 5 then 28
  else if r = 26 then 0
  else if r < 32 then r
  else 0

/-- A register of `extractRegisterDeps`: an integer one, or one of 32 others. -/
def mapReg (cls : CBPInstClass) (r : UInt8) : UInt8 :=
  if r < 32 ∨ r = 64 ∨ r = 65 then cls.mapIntReg r
  else if 32 ≤ r ∧ r < 64 then r - 32
  else 0

end CBPInstClass

/-- What the file has of an instruction.  The byte `takenByte` is there only for branches, and
`target` only for taken ones. -/
structure CBPInstr where
  pc : UInt64
  type : CBPInstClass
  effAddr : UInt64
  takenByte : UInt8
  target : UInt64
  inRegs : List UInt8
  outRegs : List UInt8

namespace CBPInstr
variable (r : CBPInstr)

/-- `readCBPInstruction` takes every branch that is not conditional to be taken. -/
def taken : Bool :=
  r.type.isBranch && (r.type != .condBr || r.takenByte != 0)

/-- Only a taken branch has its next pc in the file. -/
def nextPc : UInt64 :=
  if r.taken then r.target else r.pc + 4

/-- `CBP2025TraceReader::parseInstruction`, with the number of the record in the trace. -/
def parseInstruction (cfg : AddrMapConfig) (seqNum : ℕ) : TraceInstruction :=
  let mappedPc := cfg.mapTracePcToVirtual r.pc
  let mappedNext := cfg.mapTracePcToVirtual r.nextPc
  let delta := mappedNext - mappedPc
  { TraceInstruction.invalid with
    pc := mappedPc
    instType := r.type.mapInstType
    branchTaken := r.taken
    branchTarget := if r.taken then some mappedNext else none
    loadAddresses := if r.type = .load then [cfg.mapTraceMemToVirtual r.effAddr] else []
    storeAddresses := if r.type = .store then [cfg.mapTraceMemToVirtual r.effAddr] else []
    srcRegs := r.inRegs.map r.type.mapReg
    dstRegs := r.outRegs.map r.type.mapReg
    seqNum := seqNum
    instSizeBytes :=
      if (!r.type.isBranch || (r.type == .condBr && !r.taken)) && mappedPc ≤ mappedNext &&
        0 < delta && delta ≤ 8 then delta.toNat else 4
    valid := true }

/-- The next pc of the record, if near, is at the distance of an instruction. -/
def Sized (cfg : AddrMapConfig) : Prop :=
  (r.parseInstruction cfg 0).Spaced false false (cfg.mapTracePcToVirtual r.nextPc)

end CBPInstr

/-- A trace of CBP2025 records. -/
structure CBPTrace where
  cfg : AddrMapConfig
  records : List CBPInstr

/-- `reconcilePendingWithNext` with `fixTakenTargetMismatch`: the next record has the last word on
the target of a taken branch. -/
def TraceInstruction.resolveFixed (pending : TraceInstruction) (nextPc : UInt64) :
    TraceInstruction :=
  let resolved := pending.resolve nextPc
  if (pending.isAnyBranch && pending.branchTaken) && resolved.branchTarget != some nextPc then
    { resolved with
      branchTarget := some nextPc
      ctrlFlowChange := true
      ctrlFlowTarget := some nextPc }
  else resolved

namespace CBPTrace
variable (tr : CBPTrace)

/-- `drainPendingToBuffer` with an instruction pending, from the `n`-th record on; how many
instructions are asked for at a time makes no difference. -/
def drain (cfg : AddrMapConfig) (n : ℕ) (pending : TraceInstruction) :
    List CBPInstr → List TraceInstruction
  | [] => [pending.setLastInTrace]
  | r :: rest =>
    let next := pending.correctNext (r.parseInstruction cfg n)
    pending.resolveFixed next.pc :: drain cfg (n + 1) next rest

/-- The instructions that the reader delivers. -/
def delivered : List TraceInstruction :=
  match tr.records with
  | [] => []
  | r :: rest => drain tr.cfg 1 (r.parseInstruction tr.cfg 0) rest

/-- The instruction of a record, before the next one is known. -/
def pend : ℕ → TraceInstruction
  | 0 => (tr.records[0]?.map (·.parseInstruction tr.cfg 0)).getD .invalid
  | n + 1 => (pend n).correctNext
      ((tr.records[n + 1]?.map (·.parseInstruction tr.cfg (n + 1))).getD .invalid)

/-- The condition on a record: its next record is at the distance of an instruction, or far; then,
and for the last one, the distance that the record gives itself counts. -/
def CanEncode (wrongPath validation : Bool) (n : ℕ) (r : CBPInstr) : Prop :=
  if n + 1 < tr.records.length then
    (tr.pend n).Spaced wrongPath validation (tr.pend (n + 1)).pc ∧
      (¬(tr.pend n).Near (tr.pend (n + 1)).pc →
        r.Sized tr.cfg ∨ (tr.pend n).Forced wrongPath validation (tr.pend (n + 1)).pc)
  else r.Sized tr.cfg

end CBPTrace

open TraceInstruction

theorem CBPInstr.mem_sizes_iff_sized (r : CBPInstr) (cfg : AddrMapConfig) (n : ℕ) :
    (r.parseInstruction cfg n).instSizeBytes ∈ [0, 2, 4] ↔ r.Sized cfg := by
  have htaken : (!r.type.isBranch || (r.type == .condBr && !r.taken)) =
      !((r.parseInstruction cfg 0).isAnyBranch && (r.parseInstruction cfg 0).branchTaken) := by
    simp only [parseInstruction, isAnyBranch, taken]
    cases r.type <;> cases r.takenByte != 0 <;> rfl
  have hsize : (r.parseInstruction cfg n).instSizeBytes = if
      (!r.type.isBranch || (r.type == .condBr && !r.taken)) &&
        (r.parseInstruction cfg 0).pc ≤ cfg.mapTracePcToVirtual r.nextPc &&
        0 < cfg.mapTracePcToVirtual r.nextPc - (r.parseInstruction cfg 0).pc &&
        cfg.mapTracePcToVirtual r.nextPc - (r.parseInstruction cfg 0).pc ≤ 8 then
      (cfg.mapTracePcToVirtual r.nextPc - (r.parseInstruction cfg 0).pc).toNat else 4 := rfl
  rw [hsize, htaken]
  by_cases hnear : (r.parseInstruction cfg 0).Near (cfg.mapTracePcToVirtual r.nextPc)
  · rw [if_pos (near_iff.1 hnear), mem_sizes_iff hnear.2.2.1]
    refine ⟨fun h _ => h.imp_right .inl, fun h => ?_⟩
    simpa using h hnear
  · rw [if_neg (mt near_iff.2 hnear)]
    exact iff_of_true (by decide) fun h => absurd h hnear

/-- A repaired target has no part in the size. -/
theorem TraceInstruction.encodes_resolveFixed {wrongPath validation : Bool} (i : TraceInstruction)
    (nextPc : UInt64) : Encodes wrongPath validation (i.resolveFixed nextPc) ↔
      Encodes wrongPath validation (i.resolve nextPc) := by
  rw [resolveFixed]
  split_ifs with hfix
  · simp only [Bool.and_eq_true] at hfix
    have hbranch := (i.resolve_isAnyBranch nextPc).trans hfix.1.1
    rw [encodes_iff, encodes_iff, fetched, fetched, if_neg (by simp [isAnyBranch, ← hbranch]),
      if_neg (by simp [hbranch])]
  · rfl

namespace CBPTrace
variable {tr : CBPTrace}

theorem pend_succ {k : ℕ} (hlt : k + 1 < tr.records.length) :
    (tr.pend k).correctNext (tr.records[k + 1].parseInstruction tr.cfg (k + 1)) =
      tr.pend (k + 1) := by
  rw [pend, List.getElem?_eq_getElem hlt]
  rfl

theorem drain_get (k m : ℕ) (h : k + m < tr.records.length) :
    (drain tr.cfg (k + 1) (tr.pend k) (tr.records.drop (k + 1)))[m]? = some
      (if k + m + 1 < tr.records.length then
        (tr.pend (k + m)).resolveFixed (tr.pend (k + m + 1)).pc
      else (tr.pend (k + m)).setLastInTrace) := by
  induction m generalizing k with
  | zero =>
    by_cases hlt : k + 1 < tr.records.length
    · rw [List.drop_eq_getElem_cons hlt, drain, pend_succ hlt, Nat.add_zero, if_pos hlt]
      rfl
    · rw [List.drop_eq_nil_of_le (by omega), drain, Nat.add_zero, if_neg hlt]
      rfl
  | succ m ih =>
    have hlt : k + 1 < tr.records.length := by omega
    rw [List.drop_eq_getElem_cons hlt, drain, pend_succ hlt, List.getElem?_cons_succ,
      ih (k + 1) (by omega)]
    simp only [Nat.add_assoc, Nat.add_comm 1 m]

theorem delivered_get {n : ℕ} (h : n < tr.records.length) : tr.delivered[n]? = some
    (if n + 1 < tr.records.length then (tr.pend n).resolveFixed (tr.pend (n + 1)).pc
    else (tr.pend n).setLastInTrace) := by
  have hget := tr.drain_get 0 n (by omega)
  rw [delivered]
  cases hrec : tr.records with
  | nil => simp [hrec] at h
  | cons r rest => simpa [pend, hrec] using hget

theorem pend_plain {n : ℕ} {r : CBPInstr} (h : tr.records[n]? = some r) :
    (tr.pend n).instSizeBytes = (r.parseInstruction tr.cfg n).instSizeBytes ∧
      (tr.pend n).ctrlFlowChange = false := by
  cases n with
  | zero =>
    rw [pend, h]
    exact ⟨rfl, rfl⟩
  | succ n =>
    rw [pend, h]
    obtain ⟨pc, hpc⟩ := correctNext_eq (tr.pend n) (r.parseInstruction tr.cfg (n + 1))
    rw [Option.map_some, Option.getD_some, hpc]
    exact ⟨rfl, rfl⟩

theorem encodes_iff_canEncode {n : ℕ} {r : CBPInstr} (h : tr.records[n]? = some r)
    (wrongPath validation : Bool) : ∃ i, tr.delivered[n]? = some i ∧
      (Encodes wrongPath validation i ↔ tr.CanEncode wrongPath validation n r) := by
  obtain ⟨hlt, -⟩ := List.getElem?_eq_some_iff.1 h
  obtain ⟨hsize, hplain⟩ := pend_plain h
  refine ⟨_, delivered_get hlt, ?_⟩
  rw [CanEncode]
  split_ifs with hnext
  · rw [encodes_resolveFixed, encodes_resolve_iff hplain, hsize, r.mem_sizes_iff_sized]
  · rw [encodes_last hplain, hsize, r.mem_sizes_iff_sized]

end CBPTrace

/-! ### Both formats -/

open TraceReader

theorem champSim_encodes_iff {tr : ChampSimTrace} {b : ℕ} {s : TraceReader}
    (hs : ReaderReachable tr b s) (wrongPath validation : Bool) :
    ∃ i t, s.getNextInstruction tr = .ok (i, t) ∧ (Encodes wrongPath validation i ↔
      (s.position + 1 < tr.size → Spaced wrongPath validation (tr.pend b s.position)
        (tr.pend b (s.position + 1)).pc)) := by
  obtain ⟨t, ht, -, -⟩ := hs.ready.getNextInstruction
  refine ⟨_, t, ht, ?_⟩
  have hpend (h : s.position < tr.size) : (tr.pend b s.position).instSizeBytes = 4 ∧
      (tr.pend b s.position).ctrlFlowChange = false := by
    obtain ⟨pc, hpend⟩ := tr.pend_eq_raw b s.position
    rw [hpend, raw_of_lt h]
    exact ⟨rfl, rfl⟩
  by_cases hlt : s.position + 1 < tr.size
  · obtain ⟨hsize, hplain⟩ := hpend (by omega)
    rw [reading, if_pos hlt, encodes_resolve_iff hplain, hsize]
    simp [hlt]
  · simp only [hlt, false_imp_iff, iff_true]
    rw [reading, if_neg hlt]
    split_ifs with hlast
    · obtain ⟨hsize, hplain⟩ := hpend (by omega)
      rw [encodes_last hplain, hsize]
      decide
    · rw [encodes_of_plain rfl]
      decide

/-- **Which instructions can be encoded.**  Of a ChampSim trace, the last one, and those at a
distance of an instruction from the next one; of a CBP2025 trace, those whose record also says so
where the next one does not count. -/
theorem delivered_encodes_iff (wrongPath validation : Bool) :
    (∀ (tr : ChampSimTrace) (b : ℕ) (s : TraceReader), ReaderReachable tr b s →
      ∃ i t, s.getNextInstruction tr = .ok (i, t) ∧ (Encodes wrongPath validation i ↔
        (s.position + 1 < tr.size → Spaced wrongPath validation (tr.pend b s.position)
          (tr.pend b (s.position + 1)).pc))) ∧
    ∀ (tr : CBPTrace) (n : ℕ) (r : CBPInstr), tr.records[n]? = some r →
      ∃ i, tr.delivered[n]? = some i ∧
        (Encodes wrongPath validation i ↔ tr.CanEncode wrongPath validation n r) :=
  ⟨fun _ _ _ hs => champSim_encodes_iff hs wrongPath validation,
    fun _ _ _ h => CBPTrace.encodes_iff_canEncode h wrongPath validation⟩

/-- Two records that are six bytes apart. -/
def sixApart : ChampSimTrace where
  cfg := onePage
  records := [nopRecord 16, nopRecord 22]

theorem hashWindow_size_ne : (0x100000 : UInt64) ≠ 0 := by decide

theorem hashWindow_page_le :
    AddrMapMode.hash = .linear → false = true → pageBytes ≤ (0x100000 : UInt64) := by
  decide

/-- A window that pages are hashed into without their offsets. -/
def hashWindow : AddrMapConfig where
  base := 0
  size := 0x100000
  mode := .hash
  pageAlign := false
  size_ne := hashWindow_size_ne
  page_le := hashWindow_page_le

/-- One arithmetic instruction, whose next pc has a carry into the bits that are hashed. -/
def carryTrace : CBPTrace where
  cfg := hashWindow
  records := [⟨0xFFFE, .alu, 0, 0, 0, [1], [2]⟩]

/-- The first record of each trace. -/
theorem sixApart_first :
    (∃ i t, TraceReader.init.getNextInstruction sixApart = .ok (i, t) ∧
      (Encodes true true i ↔ ((0 : ℕ) + 1 < 2 → Spaced true true (sixApart.pend 0 0)
        (sixApart.pend 0 1).pc))) ∧
    ∃ i, carryTrace.delivered[0]? = some i ∧
      (Encodes true true i ↔ CBPInstr.Sized ⟨0xFFFE, .alu, 0, 0, 0, [1], [2]⟩ hashWindow) := by
  obtain ⟨hchamp, hcbp⟩ := delivered_encodes_iff true true
  exact ⟨hchamp sixApart 0 .init .init, hcbp carryTrace 0 _ rfl⟩

/-- The first of the two records gets six bytes, and the CBP2025 record five. -/
theorem sixApart_panics : (∃ i t, TraceReader.init.getNextInstruction sixApart = .ok (i, t) ∧
      i.valid = true ∧ (i.fetched false false).createMachInstFromTrace =
        .error "[TRACE-ENC] Unsupported instruction size") ∧
    ∃ i, carryTrace.delivered = [i] ∧ i.valid = true ∧
      (i.fetched true true).createMachInstFromTrace =
        .error "[TRACE-ENC] Unsupported instruction size" :=
  ⟨⟨_, _, rfl, rfl, rfl⟩, _, rfl, rfl, rfl⟩

end Gem5
