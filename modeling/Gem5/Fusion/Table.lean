import Gem5.Fusion.Inst

/-!
# The fusion tables

`deCompressMap`, `fusionMap` and `fusionMap3` of `arch/riscv/insts/fusion.cc`, row by row.  A row's
creator is data: the class it builds, the name, the size, and the check as a formula (`Check`), so
that a property of every row is a decidable statement about the table.
-/

namespace Gem5
open FusionInst List

/-- `deCompressMap`, the identity where the map has no entry. -/
def deCompress : Opcode → Opcode
  | .cSlli => .slli
  | .cSrli => .srli
  | .cAddi => .addi
  | .cAddiw => .addiw
  | .cAdd => .add
  | .cAddw => .addw
  | .cAnd => .and
  | .cAndi => .andi
  | .cOr => .or
  | .cXor => .xor
  | .cMul => .mul
  | .cZextH => .zextH
  | .cSextH => .sextH
  | .cLui => .lui
  | .cLd => .ld
  | .cLdsp => .ld
  | .cLw => .lw
  | .cLwsp => .lw
  | .cLh => .lh
  -- unsigned load -> signed load
  | .lwu => .lw
  | .lhu => .lh
  | .lbu => .lb
  | .cLhu => .lh
  | .cLbu => .lb
  | op => op

/-! ### Keys -/

/-- `type` is `none` for a class that no table names. -/
structure FusionKey where
  type : Option Opcode
  ignoreImm : Bool
  imm : ℤ
  deriving DecidableEq, Repr

namespace FusionKey

/-- `FusionKey(type)`. -/
def anyImmKey (t : Opcode) : FusionKey := ⟨some t, true, 0⟩

/-- `FusionKey(type, i)`. -/
def immKey (t : Opcode) (i : ℤ) : FusionKey := ⟨some t, false, i⟩

/-- The key under which decode looks an instruction up; the immediate becomes an `int`. -/
def ofInst (i : Inst) : FusionKey := ⟨i.typeid.map deCompress, false, i.getImm.bmod (2 ^ 32)⟩

/-- `operator==`; `other` is the key in the map. -/
def eq (key other : FusionKey) : Bool :=
  key.type == other.type && (key.imm == other.imm || other.ignoreImm)

def admits (k : FusionKey) (i : Inst) : Bool := (ofInst i).eq k

def find {α : Type} (key : FusionKey) (tag : List (FusionKey × α)) : Option α :=
  (tag.find? fun p => key.eq p.1).map (·.2)

theorem find_mem {α : Type} {key : FusionKey} {tag : List (FusionKey × α)} {x : α}
    (h : find key tag = some x) : ∃ k, (k, x) ∈ tag ∧ key.eq k = true := by
  obtain ⟨⟨k, y⟩, hp, rfl⟩ := Option.map_eq_some_iff.1 h
  have hkey := find?_some hp
  exact ⟨k, mem_of_find?_eq_some hp, hkey⟩

end FusionKey

open FusionKey

/-! ### Checks and creators -/

/-- The macros that a row's check is made of, on the pair `vec[0]`, `vec[1]`. -/
inductive Check
  /-- `FirstDest0EqualSecond(vec[0], vec[1])` -/
  | firstDest0EqualSecond
  /-- `Dest0EqualSrc0(vec[1])` -/
  | dest0EqualSrc0
  /-- `Dest0EqualSrc0or1(vec[1])` -/
  | dest0EqualSrc0or1
  /-- `Dest0EqualSecondSrc0or1(vec[0], vec[1])` -/
  | dest0EqualSecondSrc0or1
  /-- `ImmIs(vec[0], i)` -/
  | immIs (i : ℤ)
  /-- `ImmIs(vec[1], vec[0]->staticInst->getImm() + k)` -/
  | immIsPlus (k : ℤ)
  /-- `SeqLoadCheck()` -/
  | seqLoadCheck
  | and (a b : Check)
  deriving DecidableEq, Repr

def Check.holds : Check → Inst → Inst → Bool
  | firstDest0EqualSecond, x, y => x.destRegIdx 0 = y.destRegIdx 0
  | dest0EqualSrc0, _, y => y.destRegIdx 0 = y.srcRegIdx 0
  | dest0EqualSrc0or1, _, y => y.destRegIdx 0 = y.srcRegIdx 0 ∨ y.destRegIdx 0 = y.srcRegIdx 1
  | dest0EqualSecondSrc0or1, x, y =>
    x.destRegIdx 0 = y.srcRegIdx 0 ∨ x.destRegIdx 0 = y.srcRegIdx 1
  | immIs i, x, _ => x.getImm = i
  | immIsPlus k, x, y => y.getImm = x.getImm + k
  | seqLoadCheck, x, y =>
    x.srcRegIdx 0 = y.srcRegIdx 0 ∧ x.destRegIdx 0 ≠ x.srcRegIdx 0 ∧
      x.destRegIdx 0 ≠ y.destRegIdx 0
  | and a b, x, y => a.holds x y && b.holds x y

def Check.sameDest : Check → Bool
  | firstDest0EqualSecond => true
  | and a b => a.sameDest || b.sameDest
  | _ => false

variable {x y i z : Inst} {c : FuseCreator} {k : FusionKey} {op : Opcode} {a : ScalarInst}

theorem Check.dest_eq_of_sameDest {c : Check} (hc : c.sameDest = true) (h : c.holds x y = true) :
    x.destRegIdx 0 = y.destRegIdx 0 := by
  induction c with
  | firstDest0EqualSecond => simpa [Check.holds] using h
  | and a b iha ihb =>
    simp only [Check.sameDest, Bool.or_eq_true] at hc
    simp only [Check.holds, Bool.and_eq_true] at h
    rcases hc with hc | hc
    · exact iha hc h.1
    · exact ihb hc h.2
  | _ => simp [Check.sameDest] at hc

inductive FuseCreator
  | chain (name : String) (check : Check)
  | aluBr (name : String) (check : Check)
  | macc (name : String) (check : Check)
  | aluLd (name : String) (size : ℕ) (check : Check)
  | seqLd (name : String) (size : ℕ) (check : Check)
  deriving DecidableEq, Repr

namespace FuseCreator
def check : FuseCreator → Check
  | chain _ c | aluBr _ c | macc _ c | aluLd _ _ c | seqLd _ _ c => c

def build (c : FuseCreator) (x y : Inst) : Except String FusionInst :=
  match c with
  | chain name _ => FusionInst.newChain name y.opClass x y
  | aluBr name _ => FusionInst.newAluBr name x y
  | macc name _ => FusionInst.newMacc name .intMult x y
  | aluLd name size _ => FusionInst.newAluLoad size name y.opClass x y
  | seqLd name size _ => FusionInst.newSeqLoad size name y.opClass x y

/-- `creator(inst_pair)`; `none` is the null pointer. -/
def create (c : FuseCreator) (x y : Inst) : Except String (Option FusionInst) :=
  if c.check.holds x y then
    match c.build x y with
    | .error e => .error e
    | .ok f => .ok (some f)
  else .ok none

variable {c : FuseCreator} {x y : Inst} {f : FusionInst}

theorem create_of_build (hc : c.check.holds x y = true) (hf : c.build x y = .ok f) :
    c.create x y = .ok (some f) := by
  simp [create, hc, hf]

theorem create_eq_some (h : c.create x y = .ok (some f)) :
    c.check.holds x y = true ∧ c.build x y = .ok f := by
  unfold create at h
  split at h
  · rename_i hc
    split at h
    · cases h
    · rename_i g hg
      cases h
      exact ⟨hc, hg⟩
  · cases h

theorem create_parts (h : c.create x y = .ok (some f)) : f.parts = [x, y] := by
  have hbuild := (create_eq_some h).2
  cases c <;>
    simp only [build, newChain, newAluBr, newMacc, newAluLoad, newSeqLoad] at hbuild <;>
    split_ifs at hbuild <;> cases hbuild <;> rfl

end FuseCreator

/-! ### The pair table -/

abbrev FusionTag := List (FusionKey × FuseCreator)

open FusionKey (anyImmKey immKey)

/-- `FirstDest0EqualSecond(vec[0], vec[1]) && Dest0EqualSrc0(vec[1])`. -/
def Check.overwrites : Check := .and .firstDest0EqualSecond .dest0EqualSrc0

/-- `FirstDest0EqualSecond(vec[0], vec[1]) && Dest0EqualSrc0or1(vec[1])`. -/
def Check.overwrites2 : Check := .and .firstDest0EqualSecond .dest0EqualSrc0or1

/-- `ImmIs(vec[0], i) && FirstDest0EqualSecond(vec[0], vec[1]) && Dest0EqualSrc0or1(vec[1])`. -/
def Check.overwrites2Imm (i : ℤ) : Check :=
  .and (.and (.immIs i) .firstDest0EqualSecond) .dest0EqualSrc0or1

/-- `SeqLoadCheck() && ImmIs(vec[1], vec[0]->staticInst->getImm() + k)`. -/
def Check.adjacent (k : ℤ) : Check := .and .seqLoadCheck (.immIsPlus k)

def farLoads : FusionTag :=
  [(anyImmKey .ld, .aluLd "farld" 8 .overwrites),
   (anyImmKey .lw, .aluLd "farlw" 4 .overwrites),
   (anyImmKey .lh, .aluLd "farlh" 2 .overwrites),
   (anyImmKey .lb, .aluLd "farlb" 1 .overwrites)]

/-- The branches behind the ALU instruction `alu`. -/
def branches (alu : String) : FusionTag :=
  [(anyImmKey .beq, .aluBr (alu ++ "beq") .dest0EqualSecondSrc0or1),
   (anyImmKey .bne, .aluBr (alu ++ "bne") .dest0EqualSecondSrc0or1),
   (anyImmKey .blt, .aluBr (alu ++ "blt") .dest0EqualSecondSrc0or1),
   (anyImmKey .bge, .aluBr (alu ++ "bge") .dest0EqualSecondSrc0or1),
   (anyImmKey .bltu, .aluBr (alu ++ "bltu") .dest0EqualSecondSrc0or1),
   (anyImmKey .bgeu, .aluBr (alu ++ "bgeu") .dest0EqualSecondSrc0or1)]

/-- The additions behind the multiplication `mul`. -/
def macs (mul : String) : FusionTag :=
  [(anyImmKey .add, .macc (mul ++ "add") .dest0EqualSecondSrc0or1),
   (anyImmKey .addw, .macc (mul ++ "addw") .dest0EqualSecondSrc0or1)]

def lowBits (bit half : String) : FusionTag :=
  [(immKey .andi 1, .chain bit .overwrites),
   (anyImmKey .zextH, .chain half .overwrites)]

/-- The loads behind the load `ld` of `size` bytes. -/
def nextLoads (ld : String) (size : ℕ) : FusionTag :=
  [(anyImmKey .ld, .seqLd (ld ++ "ld") (size + 8) (.adjacent size)),
   (anyImmKey .lw, .seqLd (ld ++ "lw") (size + 4) (.adjacent size)),
   (anyImmKey .lh, .seqLd (ld ++ "lh") (size + 2) (.adjacent size)),
   (anyImmKey .lb, .seqLd (ld ++ "lb") (size + 1) (.adjacent size))]

def fusionMap : List (FusionKey × FusionTag) :=
  [ -- shift + alu
    (immKey .slli 32,
      [(immKey .srli 32, .chain "low32" .overwrites),
       (immKey .srli 31, .chain "sll1zext" .overwrites),
       (immKey .srli 30, .chain "sll2zext" .overwrites),
       (immKey .srli 29, .chain "sll3zext" .overwrites)]),
    (immKey .slli 48, [(immKey .srli 48, .chain "low16" .overwrites)]),
    (immKey .slliw 16,
      [(immKey .srliw 16, .chain "low16w" .overwrites),
       (immKey .sraiw 16, .chain "sext16w" .overwrites)]),
    (immKey .slli 1, [(anyImmKey .add, .chain "sll1add" .overwrites2)]),
    (immKey .slli 2, [(anyImmKey .add, .chain "sll2add" .overwrites2)]),
    (immKey .slli 3, [(anyImmKey .add, .chain "sll3add" .overwrites2)]),
    (immKey .slli 4, [(anyImmKey .add, .chain "sll4add" .overwrites2)]),
    (immKey .srli 29, [(anyImmKey .add, .chain "srl29add" .overwrites2)]),
    (immKey .srli 30, [(anyImmKey .add, .chain "srl30add" .overwrites2)]),
    (immKey .srli 31, [(anyImmKey .add, .chain "srl31add" .overwrites2)]),
    (immKey .srli 32, [(anyImmKey .add, .chain "srl32add" .overwrites2)]),
    (immKey .srli 8, [(immKey .andi 0xff, .chain "byte2" .overwrites)]),
    -- add
    (anyImmKey .add, farLoads),
    (anyImmKey .addw,
      [(immKey .andi 255, .chain "addwbyte" .overwrites),
       (immKey .andi 1, .chain "addwbit" .overwrites),
       (anyImmKey .zextH, .chain "addwzexth" .overwrites),
       (anyImmKey .sextH, .chain "addwsexth" .overwrites)]),
    (anyImmKey .addi, farLoads ++ branches "addi"),
    (anyImmKey .lui,
      [(anyImmKey .addi, .chain "lui32" .overwrites),
       (anyImmKey .addiw, .chain "luiw32" .overwrites)]),
    (anyImmKey .auipc, farLoads),
    -- multiply-accumulate: MUL/MULW result consumed by ADD/ADDW (any destination)
    (anyImmKey .mul, macs "mul"),
    (anyImmKey .mulw, macs "mulw"),
    -- logic
    (anyImmKey .andi,
      [(anyImmKey .add, .chain "oddadd" (.overwrites2Imm 1)),
       (anyImmKey .addw, .chain "oddaddw" (.overwrites2Imm 1)),
       (anyImmKey .or, .chain "orh48" (.overwrites2Imm (-256))),
       (anyImmKey .mulw, .chain "mulw7" (.overwrites2Imm 127))] ++
      lowBits "andi1" "andi16" ++ branches "andi"),
    (anyImmKey .and, lowBits "and1" "and16"),
    (anyImmKey .ori, lowBits "ori1" "ori16"),
    (anyImmKey .or, lowBits "or1" "or16"),
    (anyImmKey .xori, lowBits "xori1" "xori16"),
    (anyImmKey .xor, lowBits "xor1" "xor16"),
    (anyImmKey .orcB, lowBits "orcb1" "orcb16"),
    (anyImmKey .srai, branches "srai"),
    (anyImmKey .slti, branches "slti"),
    -- load
    (anyImmKey .ld, nextLoads "ld" 8),
    (anyImmKey .lw, nextLoads "lw" 4),
    (anyImmKey .lh, nextLoads "lh" 2),
    (anyImmKey .lb, nextLoads "lb" 1)]

/-- The two-level search of `checkAndFuseInsts` and `checkAndFuseNonConsec`. -/
def lookup (x y : Inst) : Option FuseCreator :=
  match (FusionKey.ofInst x).find fusionMap with
  | none => none
  | some tag => (FusionKey.ofInst y).find tag

def IsRow (k₁ k₂ : FusionKey) (c : FuseCreator) : Prop := ∃ p ∈ fusionMap, p.1 = k₁ ∧ (k₂, c) ∈ p.2

theorem lookup_row (h : lookup x y = some c) :
    ∃ k₁ k₂, IsRow k₁ k₂ c ∧ k₁.admits x = true ∧ k₂.admits y = true := by
  unfold lookup at h
  split at h
  · cases h
  · rename_i tag htag
    obtain ⟨k₁, hrow, h₁⟩ := find_mem htag
    obtain ⟨k₂, hc, h₂⟩ := find_mem h
    exact ⟨k₁, k₂, ⟨(k₁, tag), hrow, rfl, hc⟩, h₁, h₂⟩

/-! ### What the rows pair -/

theorem FusionKey.admits_scalar {t : Opcode} (ht : k.type = some t) (h : k.admits i = true) :
    ∃ a, i.staticInst = .scalar a ∧ deCompress a.op = t := by
  simp only [admits, eq, Bool.and_eq_true, beq_iff_eq] at h
  have htype := h.1
  unfold ofInst Inst.typeid StaticInst.typeid at htype
  rw [ht] at htype
  split at htype
  · rename_i a ha
    exact ⟨a, ha, by simpa using htype⟩
  · cases htype

def FuseCreator.Pairs (t₁ t₂ : Opcode) : FuseCreator → Prop
  | .chain _ ch => t₁.kind = .alu ∧ t₂.kind = .alu ∧ ch.sameDest = true
  | .aluBr _ ch =>
    t₁ ∈ [.addi, .andi, .srai, .slti] ∧ t₂.kind = .branch ∧ ch = .dest0EqualSecondSrc0or1
  | .macc _ ch => t₁ ∈ [.mul, .mulw] ∧ t₂ ∈ [.add, .addw] ∧ ch = .dest0EqualSecondSrc0or1
  | .aluLd _ size ch =>
    t₁ ∈ [.add, .addi, .auipc] ∧ t₂.bytes ≠ 0 ∧ size = t₂.bytes ∧ ch = .overwrites
  | .seqLd _ size ch =>
    t₁.bytes ≠ 0 ∧ t₂.bytes ≠ 0 ∧ size = t₁.bytes + t₂.bytes ∧ ch = .adjacent t₁.bytes

instance (t₁ t₂ : Opcode) (c : FuseCreator) : Decidable (c.Pairs t₁ t₂) :=
  match c with
  | .chain _ _ => inferInstanceAs (Decidable (_ ∧ _))
  | .aluBr _ _ => inferInstanceAs (Decidable (_ ∧ _))
  | .macc _ _ => inferInstanceAs (Decidable (_ ∧ _))
  | .aluLd _ _ _ => inferInstanceAs (Decidable (_ ∧ _))
  | .seqLd _ _ _ => inferInstanceAs (Decidable (_ ∧ _))

theorem rows_pair : ∀ p ∈ fusionMap, ∀ q ∈ p.2,
    ∀ t₁ ∈ p.1.type, ∀ t₂ ∈ q.1.type, q.2.Pairs t₁ t₂ := by
  decide

theorem rows_typed : ∀ p ∈ fusionMap, ∀ q ∈ p.2, p.1.type.isSome ∧ q.1.type.isSome := by
  decide

theorem IsRow.pairs {k₁ k₂ : FusionKey} (h : IsRow k₁ k₂ c) (hx : k₁.admits x = true)
    (hy : k₂.admits y = true) : ∃ a b, x.staticInst = .scalar a ∧ y.staticInst = .scalar b ∧
      c.Pairs (deCompress a.op) (deCompress b.op) := by
  obtain ⟨p, hp, rfl, hq⟩ := h
  obtain ⟨ht₁, ht₂⟩ := rows_typed p hp _ hq
  obtain ⟨t₁, ht₁⟩ := Option.isSome_iff_exists.1 ht₁
  obtain ⟨t₂, ht₂⟩ := Option.isSome_iff_exists.1 ht₂
  obtain ⟨a, ha, rfl⟩ := admits_scalar ht₁ hx
  obtain ⟨b, hb, rfl⟩ := admits_scalar ht₂ hy
  exact ⟨a, b, ha, hb, rows_pair p hp _ hq _ ht₁ _ ht₂⟩

/-! ### Compressed and unsigned forms -/

theorem deCompress_kind_alu : (deCompress op).kind = .alu ↔ op.kind = .alu := by
  cases op <;> decide

theorem deCompress_kind_branch : (deCompress op).kind = .branch ↔ op.kind = .branch := by
  cases op <;> decide

@[simp] theorem deCompress_bytes (op : Opcode) : (deCompress op).bytes = op.bytes := by
  cases op <;> rfl

theorem class_slli (h : deCompress op = .slli) : op = .slli ∨ op = .cSlli := by
  cases op <;> revert h <;> decide

theorem class_add (h : deCompress op = .add) : op = .add ∨ op = .cAdd := by
  cases op <;> revert h <;> decide

theorem class_addw (h : deCompress op ∈ [.add, .addw]) :
    op = .add ∨ op = .addw ∨ op = .cAdd ∨ op = .cAddw := by
  cases op <;> revert h <;> decide

theorem class_mul (h : deCompress op ∈ [.mul, .mulw]) : op = .mul ∨ op = .mulw ∨ op = .cMul := by
  cases op <;> revert h <;> decide

theorem kind_of_address (h : deCompress op ∈ [.add, .addi, .auipc]) : op.kind = .alu := by
  cases op <;> revert h <;> decide

theorem srcRegs_unary (h : deCompress a.op ∈ [.slli, .addi, .andi, .srai, .slti]) :
    a.srcRegs = [intReg a.src₁] := by
  have hformat (op : Opcode) (h : deCompress op ∈ [.slli, .addi, .andi, .srai, .slti]) :
      op.format = .i ∨ op.format = .ci := by
    cases op <;> revert h <;> decide
  rcases hformat a.op h with hf | hf <;> simp [ScalarInst.srcRegs, ScalarInst.src₁, hf]

theorem srcRegs_binary (h : deCompress a.op ∈ [.add, .addw, .mul, .mulw]) :
    a.srcRegs = [intReg a.src₁, intReg a.rs2] := by
  have hformat (op : Opcode) (h : deCompress op ∈ [.add, .addw, .mul, .mulw]) :
      op.format = .r ∨ op.format = .cr := by
    cases op <;> revert h <;> decide
  rcases hformat a.op h with hf | hf <;> simp [ScalarInst.srcRegs, ScalarInst.src₁, hf]

theorem bytes_of_alu (h : op.kind = .alu) : op.bytes = 0 := by
  simp [Opcode.bytes, h]

theorem FuseCreator.Pairs.seqLd_of_load {t₁ t₂ : Opcode} (h : c.Pairs t₁ t₂)
    (hload : t₁.bytes ≠ 0) :
    ∃ name size check, c = .seqLd name size check := by
  cases c with
  | chain name ch => exact absurd (bytes_of_alu h.1) hload
  | aluBr name ch =>
    obtain ⟨ht, -⟩ := h
    simp only [mem_cons, not_mem_nil, or_false] at ht
    rcases ht with rfl | rfl | rfl | rfl <;> exact absurd rfl hload
  | macc name ch =>
    obtain ⟨ht, -⟩ := h
    simp only [mem_cons, not_mem_nil, or_false] at ht
    rcases ht with rfl | rfl <;> exact absurd rfl hload
  | aluLd name size ch =>
    obtain ⟨ht, -⟩ := h
    simp only [mem_cons, not_mem_nil, or_false] at ht
    rcases ht with rfl | rfl | rfl <;> exact absurd rfl hload
  | seqLd name size ch => exact ⟨name, size, ch, rfl⟩

/-! ### The triple table -/

def slliAddLdCheck (x y z : Inst) : Bool :=
  (x.destRegIdx 0 = y.srcRegIdx 0 ∨ x.destRegIdx 0 = y.srcRegIdx 1) ∧
    y.destRegIdx 0 = z.srcRegIdx 1 ∧ z.destRegIdx 0 = z.srcRegIdx 0

/-- `SlliAddLdCreator(name, size, SlliAddLdCheck())`. -/
structure SlliAddLdCreator where
  name : String
  size : ℕ
  deriving DecidableEq, Repr

def SlliAddLdCreator.create (c : SlliAddLdCreator) (x y z : Inst) :
    Except String (Option FusionInst) :=
  if slliAddLdCheck x y z then
    match FusionInst.newSlliAddLoad c.size c.name z.opClass x y z with
    | .error e => .error e
    | .ok f => .ok (some f)
  else .ok none

theorem SlliAddLdCreator.create_parts {c : SlliAddLdCreator} {f : FusionInst}
    (h : c.create x y z = .ok (some f)) : f.parts = [x, y, z] := by
  unfold SlliAddLdCreator.create newSlliAddLoad at h
  split_ifs at h <;> cases h
  rfl

/-- `SlliAddLdEntry(shamt)`. -/
def slliAddLdEntry (shamt : ℕ) :
    FusionKey × List (FusionKey × List (FusionKey × SlliAddLdCreator)) :=
  let name (ld : String) : String := "sll" ++ toString shamt ++ "add" ++ ld
  (immKey .slli shamt,
    [(anyImmKey .add,
      [(anyImmKey .ld, ⟨name "ld", 8⟩),
       (anyImmKey .lw, ⟨name "lw", 4⟩),
       (anyImmKey .lh, ⟨name "lh", 2⟩),
       (anyImmKey .lb, ⟨name "lb", 1⟩)])])

def fusionMap3 : List (FusionKey × List (FusionKey × List (FusionKey × SlliAddLdCreator))) :=
  [slliAddLdEntry 1, slliAddLdEntry 2, slliAddLdEntry 3, slliAddLdEntry 4,
   slliAddLdEntry 5, slliAddLdEntry 6, slliAddLdEntry 7, slliAddLdEntry 8]

/-- The three-level search of `checkAndFuseTriple`. -/
def lookup3 (x y z : Inst) : Option SlliAddLdCreator :=
  match (FusionKey.ofInst x).find fusionMap3 with
  | none => none
  | some map2 =>
    match (FusionKey.ofInst y).find map2 with
    | none => none
    | some map3 => (FusionKey.ofInst z).find map3

theorem rows3_triple : ∀ p ∈ fusionMap3, ∀ q ∈ p.2, ∀ r ∈ q.2,
    p.1.type = some .slli ∧ p.1.ignoreImm = false ∧ (1 ≤ p.1.imm ∧ p.1.imm ≤ 8) ∧
    q.1.type = some .add ∧ r.1.type.isSome ∧ ∀ t ∈ r.1.type, t.bytes ≠ 0 ∧ r.2.size = t.bytes := by
  decide

theorem FusionKey.admits_imm (hi : i.staticInst = .scalar a) (hk : k.ignoreImm = false)
    (h : k.admits i = true) : a.imm = k.imm := by
  simp only [admits, eq, ofInst, Bool.and_eq_true, hk,
    Bool.or_false, beq_iff_eq, Inst.getImm, StaticInst.getImm, hi] at h
  have hint := a.imm_ok.int32
  rw [← h.2, Int.bmod_eq_of_le] <;> omega

theorem lookup3_row {c : SlliAddLdCreator} (h : lookup3 x y z = some c) :
    ∃ a b l, x.staticInst = .scalar a ∧ y.staticInst = .scalar b ∧ z.staticInst = .scalar l ∧
      deCompress a.op = .slli ∧ (1 ≤ a.imm ∧ a.imm ≤ 8) ∧ deCompress b.op = .add ∧
      l.op.bytes ≠ 0 ∧ c.size = l.op.bytes := by
  unfold lookup3 at h
  split at h
  · cases h
  · rename_i map2 hmap2
    split at h
    · cases h
    · rename_i map3 hmap3
      obtain ⟨k₁, hp, h₁⟩ := find_mem hmap2
      obtain ⟨k₂, hq, h₂⟩ := find_mem hmap3
      obtain ⟨k₃, hr, h₃⟩ := find_mem h
      obtain ⟨ht₁, hig, himm, ht₂, ht₃, hsize⟩ := rows3_triple _ hp _ hq _ hr
      obtain ⟨t₃, ht₃⟩ := Option.isSome_iff_exists.1 ht₃
      obtain ⟨a, ha, hta⟩ := admits_scalar ht₁ h₁
      obtain ⟨b, hb, htb⟩ := admits_scalar ht₂ h₂
      obtain ⟨l, hl, rfl⟩ := admits_scalar ht₃ h₃
      have hla := admits_imm ha hig h₁
      have hls := hsize _ ht₃
      rw [deCompress_bytes] at hls
      exact ⟨a, b, l, ha, hb, hl, hta, by rw [hla]; exact himm, htb, hls⟩

end Gem5
