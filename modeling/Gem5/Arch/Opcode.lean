import Gem5.Lib.Bytes
import Gem5.Arch.Reg

/-!
# The scalar instructions that fusion knows

One constructor for each generated instruction class that `arch/riscv/insts/fusion.cc` names in
`deCompressMap`, `fusionMap` or `fusionMap3`, with the operands, the immediate range and the meaning
that `arch/riscv/isa/decoder.isa` gives it.

The order of the source operands is that of the ISA parser (by `sort_pri`): an operand that is both
read and written stands once in each array.  `orc_b` accumulates into `Rd` with `|=`, so the parser
counts `Rd` among its sources, in front of `Rs1`.
-/

namespace Gem5
open BitVec

inductive Opcode
  | slli | srli | srai | slliw | srliw | sraiw
  | add | addw | mul | mulw | and | or | xor
  | zextH | sextH | orcB
  | addi | addiw | andi | ori | xori | slti
  | lui | auipc
  | lb | lh | lw | ld | lbu | lhu | lwu
  | beq | bne | blt | bge | bltu | bgeu
  | cSlli | cSrli | cAddi | cAddiw | cAndi | cLui
  | cAdd | cAddw | cAnd | cOr | cXor | cMul
  | cZextH | cSextH
  | cLbu | cLhu | cLh | cLw | cLd | cLwsp | cLdsp
  deriving DecidableEq, Repr

inductive Format
  /-- `Rd = f(Rs1, Rs2)` -/
  | r
  /-- `Rd = f(Rs1)` or `Rd = f(Rs1, imm)` -/
  | i
  /-- `Rd = f(imm)` or `Rd = f(PC, imm)` -/
  | u
  /-- a conditional branch on `Rs1` and `Rs2` -/
  | b
  /-- `Rd = Mem[Rs1 + offset]` -/
  | load
  /-- `Rc1 = f(Rc1, Rc2)` -/
  | cr
  /-- `Rc1 = f(Rc1)` or `Rc1 = f(Rc1, imm)` -/
  | ci
  /-- `Rc1 = Mem[sp + offset]` -/
  | loadSp
  /-- `Rd = f(Rd, Rs1)` -/
  | orcB
  deriving DecidableEq, Repr

inductive OpKind
  | alu
  | branch
  | load (bytes : ℕ) (signed : Bool)
  deriving DecidableEq, Repr

namespace Opcode
def format : Opcode → Format
  | slli | srli | srai | slliw | srliw | sraiw => .i
  | add | addw | mul | mulw | and | or | xor => .r
  | zextH | sextH => .i
  | orcB => .orcB
  | addi | addiw | andi | ori | xori | slti => .i
  | lui | auipc => .u
  | lb | lh | lw | ld | lbu | lhu | lwu => .load
  | beq | bne | blt | bge | bltu | bgeu => .b
  | cSlli | cSrli | cAddi | cAddiw | cAndi => .ci
  | cLui => .u
  | cAdd | cAddw | cAnd | cOr | cXor | cMul => .cr
  | cZextH | cSextH => .ci
  | cLbu | cLhu | cLh | cLw | cLd => .load
  | cLwsp | cLdsp => .loadSp

def kind : Opcode → OpKind
  | lb => .load 1 true
  | lh | cLh => .load 2 true
  | lw | cLw | cLwsp => .load 4 true
  | ld | cLd | cLdsp => .load 8 true
  | lbu | cLbu => .load 1 false
  | lhu | cLhu => .load 2 false
  | lwu => .load 4 false
  | beq | bne | blt | bge | bltu | bgeu => .branch
  | _ => .alu

def bytes (op : Opcode) : ℕ :=
  match op.kind with
  | .load n _ => n
  | _ => 0

/-- The smallest and the largest immediate the decoder can give the class.  A class without an
immediate inherits `getImm()` from `RiscvStaticInst`, which returns zero. -/
def immRange : Opcode → ℤ × ℤ
  | slli | srli | srai | orcB | cSlli | cSrli => (0, 63)
  | slliw | srliw | sraiw => (0, 31)
  | add | addw | mul | mulw | and | or | xor | zextH | sextH => (0, 0)
  | cAdd | cAddw | cAnd | cOr | cXor | cMul | cZextH | cSextH => (0, 0)
  | addi | addiw | andi | ori | xori | slti => (-2048, 2047)
  | lb | lh | lw | ld | lbu | lhu | lwu => (-2048, 2047)
  | lui | auipc => (-2147483648, 2147483647)
  | beq | bne | blt | bge | bltu | bgeu => (-4096, 4095)
  | cAddi | cAddiw | cAndi => (-32, 31)
  | cLui => (-131072, 131071)
  | cLbu | cLhu | cLh => (0, 3)
  | cLw => (0, 127)
  | cLd | cLwsp => (0, 255)
  | cLdsp => (0, 511)

def ImmOk (op : Opcode) (imm : ℤ) : Prop := op.immRange.1 ≤ imm ∧ imm ≤ op.immRange.2

instance (op : Opcode) (imm : ℤ) : Decidable (op.ImmOk imm) :=
  inferInstanceAs (Decidable (_ ∧ _))

theorem immOk_zero (op : Opcode) : op.ImmOk 0 := by
  cases op <;> decide

theorem ImmOk.int32 {op : Opcode} {imm : ℤ} (h : op.ImmOk imm) : -2 ^ 31 ≤ imm ∧ imm < 2 ^ 31 := by
  unfold ImmOk at h
  have hr : -2147483648 ≤ op.immRange.1 ∧ op.immRange.2 ≤ 2147483647 := by
    clear h; cases op <;> decide
  omega

def illegal (op : Opcode) (rd : Fin 32) (imm : ℤ) : Bool :=
  match op with
  | cAddiw | cLwsp | cLdsp => rd == 0
  | cLui => rd == 0 || rd == 2 || imm == 0
  | cSrli => imm == 0
  | cSlli => imm == 0 || rd == 0
  | _ => false

/-- `Rs<8i+7:8i> ? 0xff : 0`, shifted to its place. -/
def orcByte (x : RegVal) (i : ℕ) : RegVal :=
  (if (x >>> (8 * i)).setWidth 8 = (0 : BitVec 8) then 0 else 255) <<< (8 * i)

def result (op : Opcode) (imm : ℤ) (pc : Addr) (srcs : List RegVal) : RegVal :=
  let a := srcs.getD 0 0
  let b := srcs.getD 1 0
  let a32 : BitVec 32 := a.setWidth 32
  let b32 : BitVec 32 := b.setWidth 32
  let i64 := BitVec.ofInt 64 imm
  match op with
  | slli | cSlli => a <<< imm.toNat
  | srli | cSrli => a >>> imm.toNat
  | srai => a.sshiftRight imm.toNat
  | slliw => (a32 <<< imm.toNat).signExtend 64
  | srliw => (a32 >>> imm.toNat).signExtend 64
  | sraiw => (a32.sshiftRight imm.toNat).signExtend 64
  | add | cAdd => a + b
  | addw | cAddw => (a32 + b32).signExtend 64
  | mul | cMul => a * b
  | mulw => (a32 * b32).signExtend 64
  | and | cAnd => a &&& b
  | or | cOr => a ||| b
  | xor | cXor => a ^^^ b
  | zextH | cZextH => (a.setWidth 16).setWidth 64
  | sextH | cSextH => (a.setWidth 16).signExtend 64
  -- the first source is the old `Rd`, which the code overwrites with zero
  | orcB => (List.range 8).foldl (fun acc i => acc ||| orcByte b i) 0
  | addi | cAddi => a + i64
  | addiw | cAddiw => (a32 + BitVec.ofInt 32 imm).signExtend 64
  | andi | cAndi => a &&& i64
  | ori => a ||| i64
  | xori => a ^^^ i64
  | slti => if a.toInt < imm then 1 else 0
  | lui | cLui => i64
  | auipc => pc + i64
  | _ => 0

def taken (op : Opcode) (srcs : List RegVal) : Bool :=
  let a := srcs.getD 0 0
  let b := srcs.getD 1 0
  match op with
  | beq => a == b
  | bne => a != b
  | blt => a.toInt < b.toInt
  | bge => a.toInt ≥ b.toInt
  | bltu => a < b
  | bgeu => a ≥ b
  | _ => false

end Opcode

abbrev AluSem := Opcode → ℤ → Addr → List RegVal → RegVal

/-- The value of a loaded byte list: `Rd_sd = Mem_sX` sign-extends, `Rd = Mem_uX` does not. -/
def extendBytes (signed : Bool) (bs : List (BitVec 8)) : RegVal :=
  let raw := BitVec.ofNat (8 * bs.length) (Bytes.leNat bs)
  if signed then raw.signExtend 64 else raw.setWidth 64

theorem signExtend_inj {w : ℕ} (hw : w ≤ 64) {x y : BitVec w}
    (h : x.signExtend 64 = y.signExtend 64) : x = y := by
  apply eq_of_toInt_eq
  rw [← toInt_signExtend_of_le hw, ← toInt_signExtend_of_le hw, h]

theorem extendBytes_inj {signed : Bool} {bs cs : List (BitVec 8)} (hlen : bs.length = cs.length)
    (h8 : bs.length ≤ 8) (h : extendBytes signed bs = extendBytes signed cs) : bs = cs := by
  have hc := Bytes.leNat_lt cs
  rw [← hlen] at hc
  have hraw : BitVec.ofNat (8 * bs.length) (Bytes.leNat bs) =
      BitVec.ofNat (8 * bs.length) (Bytes.leNat cs) := by
    unfold extendBytes at h
    rw [← hlen] at h
    cases signed with
    | true => exact signExtend_inj (by omega) (by simpa using h)
    | false =>
      have := congrArg (setWidth (8 * bs.length)) (by simpa using h)
      simpa [setWidth_setWidth_of_le _ (show 8 * bs.length ≤ 64 by omega)] using this
  refine Bytes.leNat_inj hlen ?_
  have := congrArg BitVec.toNat hraw
  simpa [toNat_ofNat, Nat.mod_eq_of_lt (Bytes.leNat_lt bs), Nat.mod_eq_of_lt hc] using this

end Gem5
