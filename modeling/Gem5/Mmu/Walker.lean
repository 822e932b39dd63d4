import Gem5.Mmu.Tlb

/-!
# The page table walker

A walk reads a line of eight page table entries at a time and picks one of them.  A pointer leads to
the next level, a leaf ends the walk; either way the whole line goes to the second level TLB.

Translation has one stage.  The checks of physical memory protection are an input of `stepWalk`.
Faults are told apart by their kind; the addresses they report are left out.
-/

namespace Gem5

abbrev PteLine := ℕ → PTE

def Mem.pteLine (mem : Mem) (a : Addr) : PteLine :=
  fun i => mem.pteAt (a + 8 * BitVec.ofNat 64 i)

structure XlateReq where
  vaddr : Addr
  mode : MMUMode
  satp : SATP
  status : STATUS
  pmode : PrivilegeMode

/-- A walk; `reqLevel` is the level of the request, and `read` the address of the line that the walk
needs next. -/
structure Walk where
  req : XlateReq
  functional : Bool
  timing : Bool
  reqLevel : ℕ
  level : ℕ
  entry : TlbEntry
  inl2Entry : TlbEntry
  nextlineEntry : TlbEntry
  nextline : Bool
  autoNextlineSign : Bool
  preHitInPtw : Bool
  finishDefaultTranslate : Bool
  nextlineShift : ℕ
  nextlineLevel : ℕ
  tlbppn : Addr
  read : Option Addr

inductive TlbOp
  /-- `insert` in the first level -/
  | insert (e : TlbEntry)
  /-- `L2TLBInsert` in the second level -/
  | l2Insert (page : L2Page) (e : TlbEntry) (sign : ℕ)

def TlbOp.exec (cfg : MmuConfig) (op : TlbOp) (s : Tlbs) : Except String Tlbs :=
  match op with
  | .insert e =>
    match s.l1.insert e.vaddr e with
    | .error m => .error m
    | .ok l1 => .ok { s with l1 := l1 }
  | .l2Insert page e sign =>
    match s.l2.l2TLBInsertIn cfg e.vaddr e page sign with
    | .error m => .error m
    | .ok l2 => .ok { s with l2 := l2 }

/-! ### Addresses of lines -/

def lineIdx (vaddr : Addr) (shift : ℕ) : Addr :=
  (((vaddr >>> shift) &&& levelMask) >>> l2tlbBlkOffset) <<< l2tlbBlkOffset

def lineAddr (ppn idx : Addr) : Addr :=
  (ppn <<< pageShift) + idx * 8

/-- `~((1 << logBytes) - 1)`.  The shift is one of a machine integer of 32 bits, of which the
processor uses the distance modulo 32. -/
def intAlignMask (logBytes : ℕ) : Addr :=
  ~~~(((1 : Addr) <<< (logBytes % 32)) - 1)

def lineVaddr (vaddr : Addr) (level i : ℕ) : Addr :=
  (((vaddr >>> (levelShift level + l2tlbBlkOffset)) <<< l2tlbBlkOffset) + BitVec.ofNat 64 i) <<<
    levelShift level

namespace Walk

/-! ### The beginning -/

/-- `initState` of a new walk: the level of the request is the top level. -/
def initState (req : XlateReq) (functional timing : Bool) : Walk where
  req := req
  functional := functional
  timing := timing
  reqLevel := req.satp.mode.topLevel
  level := 0
  entry := .default
  inl2Entry := .default
  nextlineEntry := .default
  nextline := false
  autoNextlineSign := false
  preHitInPtw := false
  finishDefaultTranslate := false
  nextlineShift := 0
  nextlineLevel := 0
  tlbppn := 0
  read := none

structure StartArgs where
  ppn : Addr
  vaddr : Addr
  fLevel : ℕ
  fromL2tlb : Bool
  autoOpenNextline : Bool
  fromForwardPreReq : Bool
  fromBackPreReq : Bool

def startLevel (w : Walk) (args : StartArgs) : ℕ :=
  if args.fromL2tlb then args.fLevel
  else if w.reqLevel ≠ w.req.satp.mode.topLevel then w.reqLevel
  else w.req.satp.mode.topLevel

def setupWalk (w : Walk) (args : StartArgs) : Except String Walk :=
  let level := w.startLevel args
  let shift := levelShift level
  let idx := lineIdx args.vaddr shift
  let vaddr := w.req.satp.mode.vaddrSext args.vaddr
  let ppn := if args.fromL2tlb then args.ppn else w.req.satp.ppn.setWidth 64
  let topAddr := lineAddr ppn idx
  if topAddr = 0 then .error "topAddr can't be 0\n"
  else .ok { w with
    level := level
    nextline := false
    autoNextlineSign := args.autoOpenNextline
    preHitInPtw := false
    nextlineShift := shift
    tlbppn := ppn
    nextlineLevel := level
    entry := { w.entry with
      vaddr := vaddr
      asid := w.req.satp.asid
      isSquashed := false
      used := false
      isPre := false
      fromForwardPreReq := args.fromForwardPreReq
      fromBackPreReq := args.fromBackPreReq
      preSign := false }
    nextlineEntry := { w.nextlineEntry with
      vaddr := vaddr
      asid := w.req.satp.asid
      isSquashed := false
      used := false
      isPre := true
      fromBackPreReq := args.fromBackPreReq
      preSign := false }
    inl2Entry := { w.inl2Entry with
      asid := w.req.satp.asid
      isSquashed := false
      used := false
      isPre := false
      fromBackPreReq := args.fromBackPreReq
      preSign := false }
    finishDefaultTranslate := false
    read := some topAddr }

/-! ### A step -/

def endWalk (w : Walk) : Walk :=
  { w with read := none }

def chosen (w : Walk) (line : PteLine) : PTE :=
  line ((w.entry.vaddr >>> levelShift w.level) &&& vaddrChooseMask).toNat

/-- The checks of a leaf: permissions, alignment, and the two bits that the walker does not set. -/
def leafFault (req : XlateReq) (level : ℕ) (pte : PTE) : Option MMUFault :=
  match checkPermissions req.status req.pmode req.mode pte with
  | some f => some f
  | none =>
    if 1 ≤ level ∧ pte.ppn0 ≠ 0 then some (createPagefault req.mode)
    else if 2 ≤ level ∧ pte.ppn1 ≠ 0 then some (createPagefault req.mode)
    else if 3 ≤ level ∧ pte.ppn2 ≠ 0 then some (createPagefault req.mode)
    else if pte.a = false then some (createPagefault req.mode)
    else if pte.d = false ∧ req.mode = .write then some (createPagefault req.mode)
    else none

/-- The index that an entry of the second level gets; at the upper levels it keeps the old one. -/
def lineIndex (cfg : MmuConfig) (vaddr : Addr) (level i : ℕ) (old : Addr) : Addr :=
  match level with
  | 0 => cfg.l0Index vaddr
  | 1 => cfg.l1Index (lineVaddr vaddr level i)
  | _ => old

/-- `inl2Entry` for one entry of a line. -/
def lineEntry (cfg : MmuConfig) (w : Walk) (line : PteLine) (level i : ℕ) : TlbEntry :=
  { w.inl2Entry with
    logBytes := levelShift level
    level := level
    vaddr := lineVaddr w.entry.vaddr level i
    paddr := (line i).ppn
    pte := line i
    index := lineIndex cfg w.entry.vaddr level i w.inl2Entry.index }

def lineOps (cfg : MmuConfig) (w : Walk) (line : PteLine) (level : ℕ) : Option L2Page → List TlbOp
  | none => []
  | some page => (List.range l2tlbLineSize).map fun i =>
      .l2Insert page (w.lineEntry cfg line level i) i

def pointerPage (mode : AddrXlateMode) (level : ℕ) : Option L2Page :=
  match level with
  | 1 => some .l2l1
  | 2 => some .l2l2
  | 3 => if mode = .sv48 then some .l2l3 else none
  | _ => none

def leafPage (mode : AddrXlateMode) (level : ℕ) : Option L2Page :=
  match level with
  | 0 => some .l2l0
  | 1 => some .l2sp1
  | 2 => some .l2sp2
  | 3 => if mode = .sv48 then some .l2sp3 else none
  | _ => none

def stepPointer (cfg : MmuConfig) (w : Walk) (line : PteLine) (pte : PTE) :
    Except String (Option MMUFault × List TlbOp × Walk) :=
  match w.level with
  | 0 => .ok (some (createPagefault w.req.mode), [], w.endWalk)
  | level + 1 =>
    if (List.range l2tlbLineSize).all fun i => !(line i).v then
      .error "stepWalk: entries inserted into l2tlb should have valid one.\n"
    else
      let shift := levelShift level
      let nextRead := lineAddr pte.ppn (lineIdx w.entry.vaddr shift)
      if nextRead = 0 then .error "nextread can't be 0\n"
      else .ok (none, w.lineOps cfg line (level + 1) (pointerPage w.req.satp.mode (level + 1)),
        { w with
          level := level
          inl2Entry := w.lineEntry cfg line (level + 1) (l2tlbLineSize - 1)
          nextlineShift := shift
          tlbppn := pte.ppn
          nextlineLevel := level
          read := some nextRead })

def nextlineVaddr (w : Walk) : Addr :=
  w.entry.vaddr + ((8 : Addr) <<< levelShift w.nextlineLevel)

/-- Whether the line after that of the leaf is fetched too.  The source asks for a field of the walk
that is never set; here it is the option `openNextline`, so that the results hold either way. -/
def prefetches (cfg : MmuConfig) (w : Walk) : Bool :=
  (w.nextlineVaddr >>> levelShift (w.nextlineLevel + 1) ==
      w.entry.vaddr >>> levelShift (w.nextlineLevel + 1)) &&
    w.nextlineLevel == 0 && w.timing && cfg.openNextline && w.autoNextlineSign &&
    !w.entry.fromForwardPreReq && !w.entry.fromBackPreReq

def leafEntry (w : Walk) (pte : PTE) : TlbEntry :=
  { w.entry with
    logBytes := levelShift w.level
    paddr := pte.ppn
    vaddr := w.entry.vaddr &&& intAlignMask (levelShift w.level)
    pte := pte
    level := w.level }

/-- The insertions of a leaf: in the first level unless the walk is a prefetch that nobody waits
for, and its line in the second. -/
def leafOps (cfg : MmuConfig) (w : Walk) (line : PteLine) : List TlbOp :=
  (if (!w.entry.fromForwardPreReq && !w.entry.fromBackPreReq) || w.preHitInPtw then
    [.insert w.entry] else []) ++
  w.lineOps cfg line w.level (leafPage w.req.satp.mode w.level)

def stepLeaf (cfg : MmuConfig) (w : Walk) (line : PteLine) (pte : PTE) :
    Except String (Option MMUFault × List TlbOp × Walk) :=
  match leafFault w.req w.level pte with
  | some f => .ok (some f, [], w.endWalk)
  | none =>
    let w := { w with entry := w.leafEntry pte }
    if w.functional then .ok (none, [], w.endWalk)
    else
      let ops := w.leafOps cfg line
      let w := { w with
        finishDefaultTranslate := true
        inl2Entry := w.lineEntry cfg line w.level (l2tlbLineSize - 1) }
      if w.prefetches cfg then
        let nextRead := lineAddr w.tlbppn (lineIdx w.nextlineVaddr w.nextlineShift)
        if nextRead = 0 then .error "wrong in nextline pre, nextRead can't be 0\n"
        else .ok (none, ops, { w with
          nextline := true
          nextlineEntry := { w.nextlineEntry with vaddr := w.nextlineVaddr }
          read := some nextRead })
      else .ok (none, ops, w.endWalk)

/-- The line after that of the leaf has arrived; only pages of the last level are prefetched. -/
def stepNextline (cfg : MmuConfig) (w : Walk) (line : PteLine) :
    Except String (Option MMUFault × List TlbOp × Walk) :=
  let base := w.nextlineEntry.vaddr &&& intAlignMask (levelShift w.nextlineLevel)
  let e (i : ℕ) : TlbEntry := { w.nextlineEntry with
    logBytes := levelShift w.nextlineLevel
    level := w.nextlineLevel
    vaddr := lineVaddr base w.nextlineLevel i
    paddr := (line i).ppn
    pte := line i
    index := cfg.l0Index (lineVaddr base w.nextlineLevel i) }
  if w.nextlineLevel = 0 then
    .ok (none, (List.range l2tlbLineSize).map fun i => .l2Insert .l2l0 (e i) i,
      { w with nextlineEntry := e (l2tlbLineSize - 1) }.endWalk)
  else .error "nextline level can't be 1, 2 or 3\n"

/-- `stepWalk`; `pmp` is the result of the check of the read. -/
def stepWalk (cfg : MmuConfig) (line : PteLine) (pmp : Option MMUFault) (w : Walk) :
    Except String (Option MMUFault × List TlbOp × Walk) :=
  match pmp, w.nextline with
  | some f, false => .ok (some f, [], w.endWalk)
  | some _, true => .ok (none, [], w.endWalk)
  | none, true => w.stepNextline cfg line
  | none, false =>
    let pte := w.chosen line
    if pte.v = false ∨ (pte.r = false ∧ pte.w = true) then
      .ok (some (createPagefault w.req.mode), [], w.endWalk)
    else if pte.r = true ∨ pte.x = true then w.stepLeaf cfg line pte
    else w.stepPointer cfg line pte
end Walk
end Gem5
