import Gem5.Arch.Opcode

/-!
# Instructions and their in-order meaning

A fetched instruction (`Inst`) is a static instruction with the dynamic data that decode reads and
copies (`DynInfo`).  A static instruction is one of the scalar classes of `Opcode`, or any other
instruction: its register operands, its flags and an arbitrary effect on memory and on the state
outside the scalar registers.

`Inst.exec` is the meaning of one instruction on the architectural state, `execInOrder` that of a
straight line of them, and `loadsInOrder` lists the addresses it loads from.  `x0` reads as zero and
ignores writes.
-/

namespace Gem5
inductive OpClass
  | intAlu
  | intMult
  | intABr
  | intJp
  | memRead
  | other (n : ℕ)
  deriving DecidableEq, Repr

structure Flags where
  isLoad : Bool := false
  isControl : Bool := false
  isDirectCtrl : Bool := false
  isUncondCtrl : Bool := false
  isReturn : Bool := false
  isNonSpeculative : Bool := false
  isVector : Bool := false
  isMicroop : Bool := false
  isLastMicroop : Bool := false
  deriving DecidableEq, Repr

/-- `flags | flags`. -/
def Flags.union (a b : Flags) : Flags where
  isLoad := a.isLoad || b.isLoad
  isControl := a.isControl || b.isControl
  isDirectCtrl := a.isDirectCtrl || b.isDirectCtrl
  isUncondCtrl := a.isUncondCtrl || b.isUncondCtrl
  isReturn := a.isReturn || b.isReturn
  isNonSpeculative := a.isNonSpeculative || b.isNonSpeculative
  isVector := a.isVector || b.isVector
  isMicroop := a.isMicroop || b.isMicroop
  isLastMicroop := a.isLastMicroop || b.isLastMicroop

/-! ### Static instructions -/

structure ScalarInst where
  op : Opcode
  rd : Fin 32
  rs1 : Fin 32
  rs2 : Fin 32
  imm : ℤ
  imm_ok : op.ImmOk imm

namespace ScalarInst

/-- `srcRegIdxArr`. -/
def srcRegs (a : ScalarInst) : List RegId :=
  match a.op.format with
  | .r | .b => [intReg a.rs1, intReg a.rs2]
  | .i | .load => [intReg a.rs1]
  | .u => []
  | .cr => [intReg a.rd, intReg a.rs2]
  | .ci => [intReg a.rd]
  | .loadSp => [intReg 2]
  | .orcB => [intReg a.rd, intReg a.rs1]

/-- `destRegIdxArr`. -/
def destRegs (a : ScalarInst) : List RegId :=
  match a.op.format with
  | .b => []
  | _ => [intReg a.rd]

def flags (a : ScalarInst) : Flags :=
  match a.op.kind with
  | .alu => {}
  | .branch => { isControl := true, isDirectCtrl := true }
  | .load _ _ => { isLoad := true }

def opClass (a : ScalarInst) : OpClass :=
  match a.op with
  | .mul | .mulw | .cMul => .intMult
  | .auipc => .intJp
  | _ =>
    match a.op.kind with
    | .load _ _ => .memRead
    | _ => .intAlu

/-- `operWid()`: only the loads carry an `IsOper` flag here. -/
def operWid (a : ScalarInst) : ℤ :=
  match a.op.kind with
  | .load n _ => 8 * n
  | _ => -1

def illegal (a : ScalarInst) : Bool := a.op.illegal a.rd a.imm

end ScalarInst

inductive Fault
  | illegalInst
  | other (n : ℕ)
  deriving DecidableEq, Repr

/-- The state outside the scalar registers and memory: vector registers and control registers. -/
structure SysState where
  vec : ℕ → ℕ → RegVal
  misc : ℕ → RegVal

structure Effect where
  vals : List RegVal
  npc : Addr
  mem : Mem
  sys : SysState

structure OtherInst where
  imm : ℤ
  srcRegs : List RegId
  destRegs : List RegId
  flags : Flags
  opClass : OpClass
  run : List RegVal → Addr → Mem → SysState → Except Fault Effect

inductive StaticInst
  | scalar (a : ScalarInst)
  | other (o : OtherInst)

namespace StaticInst
def typeid : StaticInst → Option Opcode
  | .scalar a => some a.op
  | .other _ => none

def getImm : StaticInst → ℤ
  | .scalar a => a.imm
  | .other o => o.imm

def srcRegs : StaticInst → List RegId
  | .scalar a => a.srcRegs
  | .other o => o.srcRegs

def destRegs : StaticInst → List RegId
  | .scalar a => a.destRegs
  | .other o => o.destRegs

def flags : StaticInst → Flags
  | .scalar a => a.flags
  | .other o => o.flags

def opClass : StaticInst → OpClass
  | .scalar a => a.opClass
  | .other o => o.opClass

def operWid : StaticInst → ℤ
  | .scalar a => a.operWid
  | .other _ => -1

/-- `MemInst::getMemAccessFlags()`: none of the scalar loads is declared with `mem_flags`. -/
def memAccessFlags : StaticInst → ℕ := fun _ => 0

end StaticInst

/-! ### Dynamic instructions -/

structure PCState where
  pc : Addr
  npc : Addr
  upc : ℕ := 0
  nupc : ℕ := 1
  compressed : Bool := false
  deriving DecidableEq, Repr

namespace PCState

/-- `set(val)`: the next pc is four bytes on. -/
def set (s : PCState) (val : Addr) : PCState :=
  { s with pc := val, npc := val + 4, upc := 0, nupc := 1 }

def setNPC (s : PCState) (val : Addr) : PCState := { s with npc := val }

/-- A default-constructed `PCState`. -/
def empty : PCState := ⟨0, 0, 0, 1, false⟩

def getFallThruPC (s : PCState) : Addr := s.pc + if s.compressed then 2 else 4

end PCState

structure DynInfo where
  pcState : PCState
  predPC : PCState
  predTaken : Bool
  seqNum : ℕ
  threadNumber : ℕ
  squashed : Bool
  faulted : Bool
  version : ℕ
  ftqId : ℕ
  loopIteration : ℕ
  fallThruPC : Addr
  /-- The trace marks the instruction as leaving the straight line. -/
  traceCtrlFlowChange : Bool
  /-- The target of the branch, when the trace has it. -/
  traceBranchTarget : Option Addr
  /-- The next pc of the branch, when the trace has it. -/
  traceBranchNextPC : Option Addr

structure Inst extends DynInfo where
  staticInst : StaticInst

namespace Inst

/-- A four-byte instruction at `pc` that is predicted to fall through. -/
def fetched (pc : Addr) (seqNum : ℕ) (si : StaticInst) : Inst where
  pcState := ⟨pc, pc + 4, 0, 1, false⟩
  predPC := ⟨pc + 4, pc + 8, 0, 1, false⟩
  predTaken := false
  seqNum := seqNum
  threadNumber := 0
  squashed := false
  faulted := false
  version := 0
  ftqId := 0
  loopIteration := 0
  fallThruPC := pc + 4
  traceCtrlFlowChange := false
  traceBranchTarget := none
  traceBranchNextPC := none
  staticInst := si

def getPC (i : Inst) : Addr := i.pcState.pc
def getNPC (i : Inst) : Addr := i.pcState.npc
def getImm (i : Inst) : ℤ := i.staticInst.getImm
def srcRegs (i : Inst) : List RegId := i.staticInst.srcRegs
def destRegs (i : Inst) : List RegId := i.staticInst.destRegs
def flags (i : Inst) : Flags := i.staticInst.flags
def opClass (i : Inst) : OpClass := i.staticInst.opClass
def typeid (i : Inst) : Option Opcode := i.staticInst.typeid

def destRegIdx (i : Inst) (k : ℕ) : RegId := i.destRegs.getD k RegId.invalid

/-- The array of destinations follows the array of sources in a generated class, so an index past
the sources reads a destination. -/
def srcRegIdx (i : Inst) (k : ℕ) : RegId := (i.srcRegs ++ i.destRegs).getD k RegId.invalid

end Inst

/-! ### In-order execution -/

structure ArchState where
  regs : RegId → RegVal
  mem : Mem
  sys : SysState
  npc : Addr

/-- Why an execution stops: a fault, a read past an operand array, or a part that has no such
operation. -/
inductive Stop
  | fault (f : Fault)
  | outOfBounds
  | unsupported
  deriving DecidableEq, Repr

def writeRegs (regs : RegId → RegVal) (ds : List RegId) (vals : List RegVal) : RegId → RegVal :=
  RegFile.writes RegId.IsHard regs ds vals

def ScalarInst.loaded (a : ScalarInst) (bytes : List (BitVec 8)) : RegVal :=
  match a.op.kind with
  | .load n signed => extendBytes signed (bytes.take n)
  | _ => 0

/-- The effective address of a load whose first source holds `base`. -/
def ScalarInst.effAddr (a : ScalarInst) (base : RegVal) : Addr := base + BitVec.ofInt 64 a.imm

def ScalarInst.branchNPC (a : ScalarInst) (pc npc : Addr) (srcs : List RegVal) : Addr :=
  if a.op.taken srcs then pc + BitVec.ofInt 64 a.imm else npc

/-- One scalar instruction at `pc`, followed by `npc` unless it branches. -/
def ScalarInst.exec (alu : AluSem) (a : ScalarInst) (pc npc : Addr) (s : ArchState) :
    Except Stop ArchState :=
  let srcs := a.srcRegs.map (readReg s.regs)
  let dest := a.destRegs.getD 0 RegId.invalid
  if a.illegal then .error (.fault .illegalInst)
  else
    match a.op.kind with
    | .alu => .ok { s with regs := writeReg s.regs dest (alu a.op a.imm pc srcs), npc := npc }
    | .branch => .ok { s with npc := a.branchNPC pc npc srcs }
    | .load n _ =>
      let bytes := Bytes.read s.mem (a.effAddr (srcs.getD 0 0)) n
      .ok { s with regs := writeReg s.regs dest (a.loaded bytes), npc := npc }

def Inst.exec (alu : AluSem) (i : Inst) (s : ArchState) : Except Stop ArchState :=
  match i.staticInst with
  | .scalar a => a.exec alu i.getPC i.getNPC s
  | .other o =>
    match o.run (o.srcRegs.map (readReg s.regs)) i.getPC s.mem s.sys with
    | .error f => .error (.fault f)
    | .ok e => .ok ⟨writeRegs s.regs o.destRegs e.vals, e.mem, e.sys, e.npc⟩

def execInOrder (alu : AluSem) : List Inst → ArchState → Except Stop ArchState
  | [], s => .ok s
  | i :: is, s =>
    match i.exec alu s with
    | .error e => .error e
    | .ok t => execInOrder alu is t

def Inst.loadAddrs (i : Inst) (regs : RegId → RegVal) : List Addr :=
  match i.staticInst with
  | .scalar a => Bytes.span (a.effAddr ((a.srcRegs.map (readReg regs)).getD 0 0)) a.op.bytes
  | .other _ => []

def loadsInOrder (alu : AluSem) : List Inst → ArchState → List Addr
  | [], _ => []
  | i :: is, s =>
    i.loadAddrs s.regs ++
      match i.exec alu s with
      | .error _ => []
      | .ok t => loadsInOrder alu is t

section
variable (a : ScalarInst)

theorem ScalarInst.destRegs_of_ne_branch (h : a.op.kind ≠ .branch) :
    a.destRegs = [intReg a.rd] := by
  obtain ⟨op, rd, rs1, rs2, imm, hi⟩ := a
  cases op <;> first | rfl | exact absurd rfl h

theorem ScalarInst.srcRegs_eq_intReg {r : RegId} (h : r ∈ a.srcRegs) : ∃ n, r = intReg n := by
  unfold ScalarInst.srcRegs at h
  split at h <;> simp only [List.mem_cons, List.not_mem_nil, or_false] at h
  · rcases h with rfl | rfl <;> exact ⟨_, rfl⟩
  · rcases h with rfl | rfl <;> exact ⟨_, rfl⟩
  · exact ⟨_, h⟩
  · exact ⟨_, h⟩
  · rcases h with rfl | rfl <;> exact ⟨_, rfl⟩
  · exact ⟨_, h⟩
  · exact ⟨_, h⟩
  · rcases h with rfl | rfl <;> exact ⟨_, rfl⟩

/-- The first source of an ALU instruction that has one; a compressed one reads its destination. -/
def ScalarInst.src₁ (a : ScalarInst) : Fin 32 :=
  if a.op.format = .cr ∨ a.op.format = .ci then a.rd else a.rs1

/-- The source of `b` that does not come from `a`; its second one when both do. -/
def otherSrc (a b : ScalarInst) : Fin 32 := if b.src₁ = a.rd then b.rs2 else b.src₁

def ScalarInst.base (a : ScalarInst) : Fin 32 := if a.op.format = .loadSp then 2 else a.rs1

theorem ScalarInst.srcRegs_of_load {n : ℕ} {signed : Bool} (h : a.op.kind = .load n signed) :
    a.srcRegs = [intReg a.base] := by
  obtain ⟨op, rd, rs1, rs2, imm, hi⟩ := a
  cases op <;> first | rfl | simp [Opcode.kind] at h

theorem ScalarInst.isLoad_flags : a.flags.isLoad = true ↔ a.op.bytes ≠ 0 := by
  obtain ⟨op, rd, rs1, rs2, imm, hi⟩ := a
  cases op <;> simp [ScalarInst.flags, Opcode.bytes, Opcode.kind]

theorem ScalarInst.load_size {n : ℕ} {signed : Bool} (h : a.op.kind = .load n signed) :
    n = 1 ∨ n = 2 ∨ n = 4 ∨ n = 8 := by
  obtain ⟨op, rd, rs1, rs2, imm, hi⟩ := a
  cases op <;> simp [Opcode.kind] at h <;> simp [← h.1]
end
end Gem5
