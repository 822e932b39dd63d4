import Gem5.Arch.Inst

/-!
# Fused instructions

The six classes of `arch/riscv/insts/fusion.cc`.  A constructor of the source that panics is a
function into `Except String`; what it has checked is a field of the value it builds, so a fused
instruction that the source cannot build does not exist here.

An operand index past the end of an array is `Stop.outOfBounds`.

The class of `x0` is `-1`, and the element before the first counter of destinations is the number of
destinations: `x0` as a destination adds a destination that was never set.  A load pair whose second
destination is `x0` thereby gets its base register as a destination.
-/

namespace Gem5

/-! ### Operand arrays -/

/-- The operands of a fused instruction: `_numSrcRegs`, `_numDestRegs` and `_numTypedDestRegs`,
which follow each other in this order, and `destRegIdxArr` of length two, followed by
`srcRegIdxArr` of length four. -/
structure OperandRecord where
  numSrcRegs : ℕ
  numDestRegs : ℕ
  numTypedDestRegs : RegClassType → ℕ
  regs : List RegId

namespace OperandRecord
def empty : OperandRecord := ⟨0, 0, fun _ => 0, List.replicate 6 RegId.invalid⟩

/-- `_numTypedDestRegs[k]++`: there are counters for the classes that are renamed; the invalid class
is the index `-1`, and the index of the misc class falls into the padding behind the array. -/
def incTyped (o : OperandRecord) (k : RegClassType) : OperandRecord :=
  match k with
  | .invalid => { o with numDestRegs := o.numDestRegs + 1 }
  | .misc => o
  | k => { o with
      numTypedDestRegs := Function.update o.numTypedDestRegs k (o.numTypedDestRegs k + 1) }

/-- `setDestRegIdx(_numDestRegs++, r)`, and the counter of its class. -/
def addDest (o : OperandRecord) (r : RegId) : OperandRecord :=
  { o with numDestRegs := o.numDestRegs + 1, regs := o.regs.set o.numDestRegs r }.incTyped
    r.regClass

/-- `setSrcRegIdx(_numSrcRegs++, r)`. -/
def addSrc (o : OperandRecord) (r : RegId) : OperandRecord :=
  { o with numSrcRegs := o.numSrcRegs + 1, regs := o.regs.set (o.numSrcRegs + 2) r }

/-- `destRegIdx(i)` for every `i` below `numDestRegs()`. -/
def destRegs (o : OperandRecord) : List RegId :=
  (List.range o.numDestRegs).map fun i => o.regs.getD i RegId.invalid

end OperandRecord

/-! ### The classes -/

inductive FusionInst
  | chain (name : String) (op : OpClass) (first second : Inst)
      (same : first.destRegIdx 0 = second.destRegIdx 0)
  | aluBr (name : String) (first second : Inst)
      (pipe : first.destRegIdx 0 = second.srcRegIdx 0 ∨ first.destRegIdx 0 = second.srcRegIdx 1)
  | macc (name : String) (op : OpClass) (first second : Inst)
      (used : first.destRegIdx 0 = second.srcRegIdx 0 ∨ first.destRegIdx 0 = second.srcRegIdx 1)
      (accum : second.srcRegs.countP (· = first.destRegIdx 0) ≠ second.srcRegs.length)
  | aluLoad (memsize : ℕ) (name : String) (op : OpClass) (first second : Inst)
      (base : first.destRegIdx 0 = second.srcRegIdx 1)
      (self : second.destRegIdx 0 = second.srcRegIdx 0)
      (size : second.staticInst.operWid / 8 = memsize)
  | slliAddLoad (memsize : ℕ) (name : String) (op : OpClass) (first second third : Inst)
      (feed : first.destRegIdx 0 = second.srcRegIdx 0 ∨ first.destRegIdx 0 = second.srcRegIdx 1)
      (base : second.destRegIdx 0 = third.srcRegIdx 1)
      (self : third.destRegIdx 0 = third.srcRegIdx 0)
  | seqLoad (memsize : ℕ) (name : String) (op : OpClass) (first second : Inst)
      (base : first.srcRegIdx 0 = second.srcRegIdx 0)
      (next : first.getImm + first.staticInst.operWid / 8 = second.getImm)
      (access : first.staticInst.memAccessFlags = second.staticInst.memAccessFlags)
      (size : first.staticInst.operWid / 8 + second.staticInst.operWid / 8 = memsize)

namespace FusionInst

/-! ### The constructors of the source -/

def newChain (name : String) (op : OpClass) (first second : Inst) : Except String FusionInst :=
  if h : first.destRegIdx 0 = second.destRegIdx 0 then .ok (.chain name op first second h)
  else .error "ChainFusionInst: first and second insts must have the same destination register"

def newAluBr (name : String) (first second : Inst) : Except String FusionInst :=
  if h : first.destRegIdx 0 = second.srcRegIdx 0 ∨ first.destRegIdx 0 = second.srcRegIdx 1 then
    .ok (.aluBr name first second h)
  else .error "AluBR: first inst must pipe a result into second inst"

def newMacc (name : String) (op : OpClass) (first second : Inst) : Except String FusionInst :=
  if h : first.destRegIdx 0 = second.srcRegIdx 0 ∨ first.destRegIdx 0 = second.srcRegIdx 1 then
    if hc : second.srcRegs.countP (· = first.destRegIdx 0) ≠ second.srcRegs.length then
      .ok (.macc name op first second h hc)
    else
      .error "MaccFusionInst: both ADD sources equal the MUL dest — use ChainFusionInst"
  else .error "MaccFusionInst: MUL result must be consumed by ADD/ADDW"

def newAluLoad (memsize : ℕ) (name : String) (op : OpClass) (first second : Inst) :
    Except String FusionInst :=
  if hb : first.destRegIdx 0 = second.srcRegIdx 1 then
    if hs : second.destRegIdx 0 = second.srcRegIdx 0 then
      if hw : second.staticInst.operWid / 8 = memsize then
        .ok (.aluLoad memsize name op first second hb hs hw)
      else .error "second->operWid() / 8 == memsize"
    else .error "AluLoadFusionInst: second's dst must be the same as its src"
  else .error "AluLoadFusionInst: first's dst must be the same as second's src"

def newSlliAddLoad (memsize : ℕ) (name : String) (op : OpClass) (first second third : Inst) :
    Except String FusionInst :=
  if hf : first.destRegIdx 0 = second.srcRegIdx 0 ∨ first.destRegIdx 0 = second.srcRegIdx 1 then
    if hb : second.destRegIdx 0 = third.srcRegIdx 1 then
      if hs : third.destRegIdx 0 = third.srcRegIdx 0 then
        .ok (.slliAddLoad memsize name op first second third hf hb hs)
      else .error "SlliAddLoad: LD dest must equal LD src[0]"
    else .error "SlliAddLoad: ADD dest must be LD base"
  else .error "SlliAddLoad: SLLI dest must feed ADD"

def newSeqLoad (memsize : ℕ) (name : String) (op : OpClass) (first second : Inst) :
    Except String FusionInst :=
  if hb : first.srcRegIdx 0 = second.srcRegIdx 0 then
    if hn : first.getImm + first.staticInst.operWid / 8 = second.getImm then
      if ha : first.staticInst.memAccessFlags = second.staticInst.memAccessFlags then
        if hw : first.staticInst.operWid / 8 + second.staticInst.operWid / 8 = memsize then
          .ok (.seqLoad memsize name op first second hb hn ha hw)
        else .error "memsize == size0 + size1"
      else .error
        "SeqLoadFusionInst: first and second insts must have the same memory access flags"
    else .error
      "SeqLoadFusionInst: second inst's offset must be first inst's offset + load size"
  else .error "SeqLoadFusionInst: first and second insts must have the same source register"

/-! ### Operands and flags -/

def parts : FusionInst → List Inst
  | chain _ _ first second _ => [first, second]
  | aluBr _ first second _ => [first, second]
  | macc _ _ first second _ _ => [first, second]
  | aluLoad _ _ _ first second _ _ _ => [first, second]
  | slliAddLoad _ _ _ first second third _ _ _ => [first, second, third]
  | seqLoad _ _ _ first second _ _ _ _ => [first, second]

def numFusedParts : FusionInst → ℕ
  | slliAddLoad .. => 3
  | _ => 2

def opClass : FusionInst → OpClass
  | aluBr .. => .intABr
  | chain _ op .. | macc _ op .. => op
  | aluLoad _ _ op .. | slliAddLoad _ _ op .. | seqLoad _ _ op .. => op

/-- The destinations in the order in which the constructor sets them. -/
def setDests : FusionInst → List RegId
  | chain _ _ first _ _ => [first.destRegIdx 0]
  | aluBr _ first _ _ => [first.destRegIdx 0]
  | macc _ _ _ second _ _ => [second.destRegIdx 0]
  | aluLoad _ _ _ _ second _ _ _ => [second.destRegIdx 0]
  | slliAddLoad _ _ _ _ _ third _ _ _ => [third.destRegIdx 0]
  | seqLoad _ _ _ first second _ _ _ _ => [first.destRegIdx 0, second.destRegIdx 0]

/-- The index of the operand of `add` that is not the shifted value. -/
def baseSrcIdx (first second : Inst) : ℕ :=
  if second.srcRegIdx 0 = first.destRegIdx 0 then 1 else 0

def srcRegs : FusionInst → List RegId
  | chain _ _ first second _ =>
    first.srcRegs ++
      second.srcRegs.map fun r => if r = first.destRegIdx 0 then fuseTmpReg else r
  | aluBr _ first second _ =>
    first.srcRegs ++ second.srcRegs.filter (· ≠ first.destRegIdx 0)
  | macc _ _ first second _ _ =>
    first.srcRegs ++ fuseTmpReg :: (second.srcRegs.find? (· ≠ first.destRegIdx 0)).toList
  | aluLoad _ _ _ first _ _ _ _ => first.srcRegs ++ [fuseTmpReg]
  | slliAddLoad _ _ _ first second _ _ _ _ =>
    [first.srcRegIdx 0, second.srcRegIdx (baseSrcIdx first second)]
  | seqLoad _ _ _ first _ _ _ _ _ => [first.srcRegIdx 0]

/-- The operands as the constructor leaves them. -/
def operands (f : FusionInst) : OperandRecord :=
  f.srcRegs.foldl .addSrc (f.setDests.foldl .addDest .empty)

/-- `destRegIdx(i)` for every `i` below `numDestRegs()`. -/
def destRegs (f : FusionInst) : List RegId := f.operands.destRegs

def flags : FusionInst → Flags
  | chain _ _ first second _ => first.flags.union second.flags
  | aluBr _ first second _ => first.flags.union second.flags
  | macc _ _ first second _ _ => first.flags.union second.flags
  | aluLoad _ _ _ _ second _ _ _ => second.flags
  | slliAddLoad _ _ _ _ _ third _ _ _ => third.flags
  | seqLoad _ _ _ first second _ _ _ _ => first.flags.union second.flags

end FusionInst

/-! ### Execution on physical registers -/

structure Operands where
  srcIdx : List VirtRegId
  destIdx : List VirtRegId

namespace Operands

/-- `extRenamedSrcIdx(i)`. -/
def src (o : Operands) (i : ℕ) : Except Stop VirtRegId :=
  match o.srcIdx[i]? with
  | some v => .ok v
  | none => .error .outOfBounds

/-- `extRenamedDestIdx(i)`. -/
def dest (o : Operands) (i : ℕ) : Except Stop VirtRegId :=
  match o.destIdx[i]? with
  | some v => .ok v
  | none => .error .outOfBounds

/-- The values of the first `n` sources. -/
def read (o : Operands) (n : ℕ) (pf : PhysRegFile) : Except Stop (List RegVal) :=
  if n ≤ o.srcIdx.length then .ok ((o.srcIdx.take n).map pf.getReg) else .error .outOfBounds

end Operands

structure MemRequest where
  addr : Addr
  size : ℕ
  deriving DecidableEq, Repr

namespace Inst

/-- `DynInst::execute()` of an ALU instruction or a branch: the registers and the next pc. -/
def execute (alu : AluSem) (i : Inst) (o : Operands) (pf : PhysRegFile) :
    Except Stop (PhysRegFile × Addr) :=
  match i.staticInst with
  | .other _ => .error .unsupported
  | .scalar a =>
    if a.illegal then .error (.fault .illegalInst)
    else
      match a.op.kind with
      | .alu => do
        let srcs ← o.read a.srcRegs.length pf
        let d ← o.dest 0
        .ok (pf.setReg d.phyReg (alu a.op a.imm i.getPC srcs), i.getNPC)
      | .branch => do
        let srcs ← o.read a.srcRegs.length pf
        .ok (pf, a.branchNPC i.getPC i.getNPC srcs)
      | .load _ _ => .error .unsupported

/-- `DynInst::completeAcc(pkt)` of a load. -/
def completeAcc (i : Inst) (o : Operands) (pf : PhysRegFile) (pkt : List (BitVec 8)) :
    Except Stop PhysRegFile :=
  match i.staticInst with
  | .other _ => .error .unsupported
  | .scalar a =>
    if a.illegal then .error (.fault .illegalInst)
    else if pkt.length < a.op.bytes then .error .outOfBounds
    else do
      let d ← o.dest 0
      .ok (pf.setReg d.phyReg (a.loaded pkt))

/-- `operWid() / 8` of a load. -/
def size (i : Inst) : ℕ := (i.staticInst.operWid / 8).toNat

end Inst

namespace FusionInst
def fuseTmp (f : FusionInst) (o : Operands) : Option PhysRegId :=
  ((f.srcRegs.zip o.srcIdx).find? (·.1 = fuseTmpReg)).map (·.2.phyReg)

def executeBoth (alu : AluSem) (first second : Inst) (o₁ o₂ : Operands) (pf : PhysRegFile) :
    Except Stop (PhysRegFile × Addr) := do
  let (pf₁, _) ← first.execute alu o₁ pf
  second.execute alu o₂ pf₁

def execute (alu : AluSem) (f : FusionInst) (o : Operands) (pf : PhysRegFile) :
    Except Stop (PhysRegFile × Addr) :=
  match f with
  | chain _ _ first second _ => do
    let d ← o.dest 0
    let d₁ := match f.fuseTmp o with
      | some tmp => VirtRegId.of tmp
      | none => d
    executeBoth alu first second
      ⟨o.srcIdx.take first.srcRegs.length, [d₁]⟩ ⟨o.srcIdx.drop first.srcRegs.length, [d]⟩ pf
  | aluBr _ first second _ => do
    let d ← o.dest 0
    let s₀ ← o.src 0
    let s₁ ← o.src 1
    let srcs₂ := if second.srcRegIdx 0 = first.destRegIdx 0 then [d, s₁] else [s₁, d]
    executeBoth alu first second ⟨[s₀], [d]⟩ ⟨srcs₂, []⟩ pf
  | macc _ _ first second _ _ => do
    let d ← o.dest 0
    let tmp ← o.src first.srcRegs.length
    let acc ← o.src (first.srcRegs.length + 1)
    let d₁ ← match f.fuseTmp o with
      | some p => .ok (VirtRegId.of p)
      | none => .error .outOfBounds
    let srcs₂ := if second.srcRegIdx 0 = first.destRegIdx 0 then [tmp, acc] else [acc, tmp]
    executeBoth alu first second
      ⟨o.srcIdx.take first.srcRegs.length, [d₁]⟩ ⟨srcs₂, [d]⟩ pf
  | _ => .error .unsupported

def initiateAcc (alu : AluSem) (f : FusionInst) (o : Operands) (pf : PhysRegFile) :
    Except Stop (PhysRegFile × MemRequest) :=
  match f with
  | aluLoad memsize _ _ first second _ _ _ => do
    let tmp ← o.src first.srcRegs.length
    let (pf₁, _) ← first.execute alu ⟨o.srcIdx.take first.srcRegs.length, [tmp]⟩ pf
    let s₀ ← Operands.src ⟨o.srcIdx.drop first.srcRegs.length, []⟩ 0
    let ea := pf₁.getReg s₀ + BitVec.ofInt 64 second.getImm
    .ok (pf₁, ⟨ea, memsize⟩)
  | slliAddLoad memsize _ _ first _ third _ _ _ => do
    let s₀ ← o.src 0
    let s₁ ← o.src 1
    let shamt := first.getImm.toNat
    let ea := (pf.getReg s₀ <<< shamt) + pf.getReg s₁ + BitVec.ofInt 64 third.getImm
    .ok (pf, ⟨ea, memsize⟩)
  | seqLoad memsize _ _ first _ _ _ _ _ => do
    let s₀ ← o.src 0
    let ea := pf.getReg s₀ + BitVec.ofInt 64 first.getImm
    .ok (pf, ⟨ea, memsize⟩)
  | _ => .error .unsupported

def completeAcc (f : FusionInst) (o : Operands) (pf : PhysRegFile) (pkt : List (BitVec 8)) :
    Except Stop PhysRegFile :=
  match f with
  | aluLoad _ _ _ _ second _ _ _ => do
    let d ← o.dest 0
    second.completeAcc ⟨[], [d]⟩ pf pkt
  | slliAddLoad _ _ _ _ _ third _ _ _ => do
    let d ← o.dest 0
    third.completeAcc ⟨[], [d]⟩ pf pkt
  | seqLoad _ _ _ first second _ _ _ _ => do
    let d₀ ← o.dest 0
    let d₁ ← o.dest 1
    let pf₁ ← first.completeAcc ⟨[], [d₀]⟩ pf (pkt.take first.size)
    second.completeAcc ⟨[], [d₁]⟩ pf₁ ((pkt.drop first.size).take second.size)
  | _ => .error .unsupported

def lastNPC : FusionInst → Addr
  | chain _ _ _ second _ => second.getNPC
  | aluBr _ _ second _ => second.getNPC
  | macc _ _ _ second _ _ => second.getNPC
  | aluLoad _ _ _ _ second _ _ _ => second.getNPC
  | slliAddLoad _ _ _ _ _ third _ _ _ => third.getNPC
  | seqLoad _ _ _ _ second _ _ _ _ => second.getNPC

def run (alu : AluSem) (f : FusionInst) (o : Operands) (pf : PhysRegFile) (mem : Mem) :
    Except Stop (PhysRegFile × Addr) :=
  match f with
  | aluBr .. => f.execute alu o pf
  | chain .. | macc .. => do
    let (pf₁, _) ← f.execute alu o pf
    .ok (pf₁, f.lastNPC)
  | aluLoad .. | slliAddLoad .. | seqLoad .. => do
    let (pf₁, req) ← f.initiateAcc alu o pf
    let pf₂ ← f.completeAcc o pf₁ (Bytes.read mem req.addr req.size)
    .ok (pf₂, f.lastNPC)

end FusionInst

/-! ### Meaning preservation -/

/-- `Rename` of one instruction: sources are looked up, then destinations are renamed. -/
def RenameState.renameInst (st : RenameState) (srcs dests : List RegId) :
    Option (Operands × RenameState) :=
  match st.renameDests dests with
  | none => none
  | some (ds, st') => some (⟨srcs.map st.map, ds⟩, st')

/-- A physical outcome agrees with an architectural one: the same error, or the same integer
registers and next pc. -/
def Agrees (st' : RenameState) :
    Except Stop (PhysRegFile × Addr) → Except Stop ArchState → Prop
  | .ok (pf', npc), .ok t =>
    st'.Represents pf' t.regs ∧ npc = t.npc
  | .error e, .error e' => e = e'
  | _, _ => False

/-- However the fused instruction is renamed, and whatever the physical registers hold (the
temporary included), it does what `g` does. -/
def FusionInst.Computes (alu : AluSem) (f : FusionInst)
    (g : ArchState → Except Stop ArchState) : Prop :=
  ∀ (st st' : RenameState) (o : Operands) (pf : PhysRegFile) (s : ArchState),
    st.Represents pf s.regs → st.renameInst f.srcRegs f.destRegs = some (o, st') →
    Agrees st' (f.run alu o pf s.mem) (g s)

/-- Does what its parts do in order. -/
def FusionInst.Preserves (alu : AluSem) (f : FusionInst) : Prop :=
  f.Computes alu (execInOrder alu f.parts)

/-- Where the parts run through in order, the fused load asks memory for exactly the bytes that they
load. -/
def FusionInst.LoadsSame (alu : AluSem) (f : FusionInst) : Prop :=
  ∀ (st st' : RenameState) (o : Operands) (pf : PhysRegFile) (s t : ArchState),
    st.Represents pf s.regs → st.renameInst f.srcRegs f.destRegs = some (o, st') →
    execInOrder alu f.parts s = .ok t →
    ∃ pf₁ req, f.initiateAcc alu o pf = .ok (pf₁, req) ∧
      Bytes.span req.addr req.size = loadsInOrder alu f.parts s

end Gem5
