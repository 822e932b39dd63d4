import Gem5.Arch.Reg

/-!
# The return address stack

Predicted calls go to a ring of entries in flight, each with the place of the entry below it; a
committed call goes to the stack proper, where repeated addresses share an entry with a counter.
The speculative pointer `ssp` and the speculative counter `sctr` say where the top will be in the
stack when all is committed.
-/

namespace Gem5
structure RASEssential where
  retAddr : Addr
  ctr : ℕ
  deriving DecidableEq

/-- An entry in flight; `nos` is the place of the entry below it. -/
structure RASInflightEntry where
  data : RASEssential
  nos : ℕ

structure RasConfig where
  numEntries : ℕ
  numInflightEntries : ℕ
  ctrWidth : ℕ

def RasConfig.maxCtr (c : RasConfig) : ℕ :=
  2 ^ c.ctrWidth - 1

structure BTBRAS where
  ssp : ℕ
  nsp : ℕ
  sctr : ℕ
  TOSW : ℕ
  TOSR : ℕ
  BOS : ℕ
  inflightStack : ℕ → RASInflightEntry
  stack : ℕ → RASEssential

structure RASMeta where
  ssp : ℕ
  sctr : ℕ
  TOSR : ℕ
  TOSW : ℕ

namespace BTBRAS
variable (c : RasConfig)

/-- `ptrInc` and `inflightPtrInc`. -/
def ptrInc (size ptr : ℕ) : ℕ :=
  (ptr + 1) % size

/-- `ptrDec` and `inflightPtrDec`. -/
def ptrDec (size ptr : ℕ) : ℕ :=
  if 0 < ptr then ptr - 1 else size - 1

def init : BTBRAS where
  ssp := 0
  nsp := 0
  sctr := 0
  TOSW := 0
  TOSR := ptrDec c.numInflightEntries 0
  BOS := 0
  inflightStack := fun _ => ⟨⟨0x80000000, 0⟩, 0⟩
  stack := fun _ => ⟨0x80000000, 0⟩

def inflightInRange (r : BTBRAS) (ptr : ℕ) : Bool :=
  if r.BOS < r.TOSW then decide (r.BOS ≤ ptr) && decide (ptr < r.TOSW)
  else if r.TOSW < r.BOS then decide (ptr < r.TOSW) || decide (r.BOS ≤ ptr)
  else false

def getTop (r : BTBRAS) : RASEssential :=
  if r.inflightInRange r.TOSR then (r.inflightStack r.TOSR).data else r.stack r.ssp

/-- What `getTop_meta` records. -/
def getMeta (r : BTBRAS) : RASMeta :=
  ⟨r.ssp, r.sctr, r.TOSR, r.TOSW⟩

def pushCtr (r : BTBRAS) (retAddr : Addr) : BTBRAS :=
  if retAddr = r.getTop.retAddr ∧ r.sctr < c.maxCtr then { r with sctr := r.sctr + 1 }
  else { r with ssp := ptrInc c.numEntries r.ssp, sctr := 0 }

def push (r : BTBRAS) (retAddr : Addr) : BTBRAS :=
  let r := r.pushCtr c retAddr
  { r with
    inflightStack := Function.update r.inflightStack r.TOSW ⟨⟨retAddr, r.sctr⟩, r.TOSR⟩
    TOSR := r.TOSW
    TOSW := ptrInc c.numInflightEntries r.TOSW }

def popCtr (r : BTBRAS) : BTBRAS :=
  if 0 < r.sctr then { r with sctr := r.sctr - 1 }
  else
    let r := { r with ssp := ptrDec c.numEntries r.ssp }
    { r with sctr := r.getTop.ctr }

def pop (r : BTBRAS) : BTBRAS :=
  if r.inflightInRange r.TOSR then
    popCtr c { r with TOSR := (r.inflightStack r.TOSR).nos }
  else popCtr c r

def pushStack (r : BTBRAS) (retAddr : Addr) : BTBRAS :=
  let tos := r.stack r.nsp
  if tos.retAddr = retAddr ∧ tos.ctr < c.maxCtr then
    { r with stack := Function.update r.stack r.nsp ⟨tos.retAddr, tos.ctr + 1⟩ }
  else
    let nsp := ptrInc c.numEntries r.nsp
    { r with nsp := nsp, stack := Function.update r.stack nsp ⟨retAddr, 0⟩ }

def popStack (r : BTBRAS) : BTBRAS :=
  let tos := r.stack r.nsp
  if 0 < tos.ctr then
    { r with stack := Function.update r.stack r.nsp ⟨tos.retAddr, tos.ctr - 1⟩ }
  else { r with nsp := ptrDec c.numEntries r.nsp }

def align (r : BTBRAS) (m : RASMeta) : BTBRAS :=
  if m.ssp ≠ r.nsp ∨ m.sctr ≠ (r.stack r.nsp).ctr then { r with nsp := m.ssp } else r

end BTBRAS

/-- What a prediction does to the stack. -/
inductive RasOp
  | call (retAddr : Addr)
  | ret
  deriving DecidableEq

end Gem5
