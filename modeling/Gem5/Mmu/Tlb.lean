import Gem5.Mmu.Entry
import Mathlib.Data.List.MinMax

/-!
# The TLBs

A TLB is an array of entries, of which those in use are linked in a trie; the others are in the free
list.  The trie is left out: `find` says what a lookup in it yields, namely the entry of the node
nearest to the root of those that match, which is the largest page.

The buffers that limit prefetches hold no translations and are left out, and so are statistics.
-/

namespace Gem5
structure TrieNode where
  key : Addr
  mask : Addr
  deriving DecidableEq

namespace TrieNode

/-- `matches`. -/
def covers (n : TrieNode) (test : Addr) : Bool :=
  test &&& n.mask == n.key

/-- The node where `insert` puts a page. -/
def ofPage (key : Addr) (logBytes : ℕ) : TrieNode :=
  ⟨key &&& nodeMask logBytes, nodeMask logBytes⟩
end TrieNode

structure TlbSlot where
  entry : TlbEntry
  trieHandle : Option TrieNode

namespace TlbSlot
def unused : TlbSlot :=
  ⟨.default, none⟩

def linked (x : TlbSlot) : Bool :=
  x.trieHandle.isSome

def covers (x : TlbSlot) (key : Addr) : Bool :=
  match x.trieHandle with
  | some n => n.covers key
  | none => false

def depth (x : TlbSlot) : ℕ :=
  match x.trieHandle with
  | some n => n.mask.toNat
  | none => 0
end TlbSlot

/-! ### Arrays of entries -/

structure TlbArray where
  slots : List TlbSlot
  freeList : List ℕ

namespace TlbArray
def init (size : ℕ) : TlbArray where
  slots := List.replicate size .unused
  freeList := List.range size

def slot (a : TlbArray) (i : ℕ) : TlbSlot :=
  a.slots.getD i .unused

def find (a : TlbArray) (key : Addr) : Option ℕ :=
  ((List.range a.slots.length).filter fun i => (a.slot i).covers key).argmin
    fun i => (a.slot i).depth

def update (a : TlbArray) (i : ℕ) (f : TlbEntry → TlbEntry) : TlbArray :=
  { a with slots := a.slots.set i { a.slot i with entry := f (a.slot i).entry } }

def link (a : TlbArray) (i : ℕ) (e : TlbEntry) (key : Addr) : Except String TlbArray :=
  let n := TrieNode.ofPage key e.logBytes
  if a.slots.any fun x => x.trieHandle == some n then .error "Assertion `!node->value' failed."
  else .ok { a with slots := a.slots.set i ⟨e, some n⟩ }

def unlink (a : TlbArray) (i : ℕ) : Except String TlbArray :=
  if (a.slot i).linked then
    .ok {
      slots := a.slots.set i { a.slot i with trieHandle := none }
      freeList := a.freeList ++ [i] }
  else .error "Assertion `tlb[idx].trieHandle' failed."

def place (a : TlbArray) (e : TlbEntry) (key : Addr) : Except String TlbArray :=
  match a.freeList with
  | [] => .error "TLB::L2TLBInsertIn freeList should not be empty."
  | i :: rest => { a with freeList := rest }.link i e key

/-- The entry used least recently, `first` or one of `others`. -/
def leastRecent (a : TlbArray) (first : ℕ) (others : List ℕ) : ℕ :=
  others.foldl
    (fun lru i => if (a.slot i).entry.lruSeq < (a.slot lru).entry.lruSeq then i else lru) first

def lineStarts (a : TlbArray) : List ℕ :=
  (List.range (a.slots.length / l2tlbLineSize)).map (· * l2tlbLineSize)

structure Empty (a : TlbArray) : Prop where
  unlinked : ∀ x ∈ a.slots, x.trieHandle = none
  free : a.freeList.Perm (List.range a.slots.length)

theorem init_empty (size : ℕ) : (init size).Empty where
  unlinked x hx := by
    rw [List.eq_of_mem_replicate hx]
    rfl
  free := by
    rw [show (init size).slots.length = size from List.length_replicate]
    exact List.Perm.refl _
end TlbArray

/-! ### The first level -/

structure L1Tlb where
  arr : TlbArray
  lruSeq : ℕ

namespace L1Tlb

/-- `lookup`: a lookup that is not hidden makes the entry the one used last. -/
def lookup (vpn : Addr) (asid : BitVec 16) (hidden signUsed : Bool) (mode : TlbTranslateMode)
    (s : L1Tlb) : Option ℕ × L1Tlb :=
  match s.arr.find (buildKey vpn asid mode) with
  | none => (none, s)
  | some i =>
    let seq := if hidden then s.lruSeq else s.lruSeq + 1
    (some i, {
      arr := s.arr.update i fun e => { e with
        lruSeq := if hidden then e.lruSeq else seq
        used := e.used || signUsed }
      lruSeq := seq })

def remove (i : ℕ) (s : L1Tlb) : Except String L1Tlb :=
  match s.arr.unlink i with
  | .error m => .error m
  | .ok a => .ok { s with arr := a }

def evictLRU (s : L1Tlb) : Except String L1Tlb :=
  s.remove (s.arr.leastRecent 0 (List.range s.arr.slots.length).tail)

/-- `insert`: of an entry that is there, only the page table entry is replaced. -/
def insert (vpn : Addr) (e : TlbEntry) (s : L1Tlb) : Except String L1Tlb :=
  match s.arr.find (buildKey vpn e.asid .direct) with
  | some i => .ok { s with arr := s.arr.update i fun old => { old with pte := e.pte } }
  | none =>
    match if s.arr.freeList.isEmpty then s.evictLRU else .ok s with
    | .error m => .error m
    | .ok s =>
      match s.arr.place { e with lruSeq := s.lruSeq + 1, vaddr := vpn }
          (buildKey vpn e.asid .direct) with
      | .error m => .error m
      | .ok a => .ok ⟨a, s.lruSeq + 1⟩

def translateWithTLB (vaddr : Addr) (asid : BitVec 16) (s : L1Tlb) :
    Except String (Addr × L1Tlb) :=
  match s.lookup vaddr asid false false .direct with
  | (none, _) => .error "Assertion `e != nullptr' failed."
  | (some i, s) => .ok ((s.arr.slot i).entry.translate vaddr, s)

/-- Removes the entries in use for which `p` holds. -/
def removeIf (p : TlbEntry → Bool) (s : L1Tlb) : Except String L1Tlb :=
  (List.range s.arr.slots.length).foldlM
    (fun s i => if (s.arr.slot i).linked && p (s.arr.slot i).entry then s.remove i else .ok s) s

def flushAll (s : L1Tlb) : Except String L1Tlb :=
  s.removeIf fun _ => true

def removeFound (vpn : Addr) (asid : BitVec 16) (mode : TlbTranslateMode) (s : L1Tlb) :
    Except String L1Tlb :=
  match s.lookup vpn asid true false mode with
  | (some i, s) => s.remove i
  | (none, s) => .ok s
end L1Tlb

/-! ### The second level -/

inductive L2Array
  | l3
  | l2
  | l1
  | l0
  | sp
  deriving DecidableEq

/-- `l2TLBPage`: what a lookup in the second level is after; `sp` are superpages. -/
inductive L2Page
  | l2l3
  | l2l2
  | l2l1
  | l2l0
  | l2sp3
  | l2sp2
  | l2sp1
  deriving DecidableEq

namespace L2Page
def array : L2Page → L2Array
  | l2l3 => .l3
  | l2l2 => .l2
  | l2l1 => .l1
  | l2l0 => .l0
  | l2sp3 | l2sp2 | l2sp1 => .sp

/-- `L2L3CheckLevel` and so on. -/
def level : L2Page → ℕ
  | l2l3 | l2sp3 => 3
  | l2l2 | l2sp2 => 2
  | l2l1 | l2sp1 => 1
  | l2l0 => 0

def all : List L2Page :=
  [l2l3, l2l2, l2l1, l2l0, l2sp3, l2sp2, l2sp1]

/-- `f_vpnl2l3` and so on: the page of an address. -/
def pageOf (p : L2Page) (vpn : Addr) : Addr :=
  (vpn >>> levelShift p.level) <<< levelShift p.level

/-- `vpnl2l3` and so on: the first page of the line of an address. -/
def lineOf (p : L2Page) (vpn : Addr) : Addr :=
  (vpn >>> (levelShift p.level + l2tlbBlkOffset)) <<< (levelShift p.level + l2tlbBlkOffset)

def nthOf (p : L2Page) (vpn : Addr) (i : ℕ) : Addr :=
  p.lineOf vpn + BitVec.ofNat 64 i * ((1 : Addr) <<< levelShift p.level)

def otherSize (p : L2Page) (level : ℕ) : Bool :=
  p.array == .sp && (level == 3 || level == 2 || level == 1) && level != p.level
end L2Page

structure MmuConfig where
  size : ℕ
  l2TlbL3Size : ℕ
  l2TlbL2Size : ℕ
  l2TlbL1Size : ℕ
  l2TlbL0Size : ℕ
  l2TlbSpSize : ℕ
  openNextline : Bool
  enableL1L2replace : Bool
  size_pos : 0 < size
  l3_pos : 0 < l2TlbL3Size
  l2_pos : 0 < l2TlbL2Size
  l1_pos : 0 < l2TlbL1Size
  l0_pos : 0 < l2TlbL0Size
  sp_pos : 0 < l2TlbSpSize

namespace MmuConfig
variable (cfg : MmuConfig)

def lines : L2Array → ℕ
  | .l3 => cfg.l2TlbL3Size
  | .l2 => cfg.l2TlbL2Size
  | .l1 => cfg.l2TlbL1Size
  | .l0 => cfg.l2TlbL0Size
  | .sp => cfg.l2TlbSpSize

theorem lines_pos (k : L2Array) : 0 < cfg.lines k := by
  cases k
  exacts [cfg.l3_pos, cfg.l2_pos, cfg.l1_pos, cfg.l0_pos, cfg.sp_pos]

def l2l1LruNum : ℕ := 2

def l2l0LruNum : ℕ := 4

/-- `L2TLB_L1_MASK`. -/
def l1Mask : Addr :=
  ((1 : Addr) <<< Nat.log2 (cfg.l2TlbL1Size / l2l1LruNum)) - 1

/-- `L2TLB_L0_MASK`. -/
def l0Mask : Addr :=
  ((1 : Addr) <<< Nat.log2 (cfg.l2TlbL0Size / l2l0LruNum)) - 1

def l1Index (vaddr : Addr) : Addr :=
  (vaddr >>> (levelShift 1 + l2tlbBlkOffset)) &&& cfg.l1Mask

def l0Index (vaddr : Addr) : Addr :=
  (vaddr >>> (levelShift 0 + l2tlbBlkOffset)) &&& cfg.l0Mask
end MmuConfig

structure L2Tlb where
  arrays : L2Array → TlbArray
  lruSeq : ℕ

namespace L2Tlb
def init (cfg : MmuConfig) : L2Tlb where
  arrays k := .init (cfg.lines k * l2tlbLineSize)
  lruSeq := 0

def setArray (s : L2Tlb) (k : L2Array) (a : TlbArray) : L2Tlb :=
  { s with arrays := Function.update s.arrays k a }

def touch (k : L2Array) (i : ℕ) (hidden writeSign : Bool) (s : L2Tlb) : L2Tlb :=
  let seq := if hidden then s.lruSeq else s.lruSeq + 1
  { s.setArray k ((s.arrays k).update i fun e => { e with
      lruSeq := if hidden then e.lruSeq else seq
      preSign := e.preSign || writeSign }) with lruSeq := seq }

def touchLine (message : String) (page : L2Page) (vpn : Addr) (asid : BitVec 16)
    (mode : TlbTranslateMode) (hidden writeSign : Bool) (s : L2Tlb) : Except String L2Tlb :=
  (List.range l2tlbLineSize).foldlM (fun s i =>
    match (s.arrays page.array).find (buildKey (page.nthOf vpn i) asid mode) with
    | none => .error message
    | some j => .ok (s.touch page.array j hidden writeSign)) s

def updateL2TLBSeq (page : L2Page) (vpn : Addr) (asid : BitVec 16) (mode : TlbTranslateMode)
    (s : L2Tlb) : Except String L2Tlb :=
  s.touchLine "l2 TLB link num is empty\n" page vpn asid mode false false

/-- The line of an entry that was found: in the array of pages it is looked up even by a hidden
lookup. -/
def touchFound (page : L2Page) (vpn : Addr) (asid : BitVec 16) (mode : TlbTranslateMode)
    (hidden signUsed : Bool) (e : TlbEntry) (s : L2Tlb) : Except String L2Tlb :=
  if page = .l2l0 then
    s.touchLine "l2l0 TLB link num is empty\n" page vpn asid mode hidden
      (signUsed && e.isPre && !e.preSign)
  else if hidden then .ok s
  else s.updateL2TLBSeq page vpn asid mode

/-- `lookupL2TLB`: a superpage of another size is not a hit. -/
def lookupL2TLB (vpn : Addr) (asid : BitVec 16) (hidden : Bool) (page : L2Page) (signUsed : Bool)
    (mode : TlbTranslateMode) (s : L2Tlb) : Except String (Option ℕ × L2Tlb) :=
  match (s.arrays page.array).find (buildKey (page.pageOf vpn) asid mode) with
  | none => .ok (none, s)
  | some i =>
    let e := ((s.arrays page.array).slot i).entry
    if page.otherSize e.level then .ok (none, s)
    else
      match s.touchFound page vpn asid mode hidden signUsed e with
      | .error m => .error m
      | .ok s =>
        .ok (some i, s.setArray page.array ((s.arrays page.array).update i fun e =>
          { e with used := e.used || signUsed }))

/-- `l2TLBRemove`: the line that starts at an entry. -/
def l2TLBRemove (i : ℕ) (k : L2Array) (s : L2Tlb) : Except String L2Tlb :=
  match (List.range l2tlbLineSize).foldlM (fun a j => a.unlink (i + j)) (s.arrays k) with
  | .error m => .error m
  | .ok a => .ok (s.setArray k a)

def linesOfSet (k : L2Array) (index : Addr) (s : L2Tlb) : List ℕ :=
  (s.arrays k).lineStarts.filter fun i =>
    ((s.arrays k).slot i).entry.index == index && ((s.arrays k).slot i).linked

/-- Makes room in a set of `ways` lines. -/
def evictSet (k : L2Array) (index : Addr) (ways : ℕ) (wrong empty : String) (s : L2Tlb) :
    Except String L2Tlb :=
  match s.linesOfSet k index with
  | [] =>
    if (s.arrays k).freeList.isEmpty then .error empty else .ok s
  | i :: rest =>
    if rest.length + 1 = ways then s.l2TLBRemove ((s.arrays k).leastRecent i rest) k
    else if rest.length + 1 > ways then .error wrong
    else if (s.arrays k).freeList.isEmpty then .error empty
    else .ok s

def l2TLBEvictLRU (cfg : MmuConfig) (page : L2Page) (vaddr : Addr) (s : L2Tlb) :
    Except String L2Tlb :=
  match page with
  | .l2l1 =>
    s.evictSet .l1 (cfg.l1Index vaddr) MmuConfig.l2l1LruNum "wrong in l2l1 tlb l1_index_num\n"
      "TLB::l2TLBEvictLRU freeListL2L1 should not be empty."
  | .l2l0 =>
    s.evictSet .l0 (cfg.l0Index vaddr) MmuConfig.l2l0LruNum "wrong in l2l0 tlb l0_index_num\n"
      "TLB::l2TLBEvictLRU freeListL2L0 should not be empty."
  | page =>
    s.l2TLBRemove ((s.arrays page.array).leastRecent 0 (s.arrays page.array).lineStarts.tail)
      page.array

def keyPage (vaddr : Addr) (asid : BitVec 16) : Addr :=
  (buildKey vaddr asid .direct >>> 12) <<< 12

/-- Room for an entry that was not found: the arrays with sets are looked at for the first entry of
every line. -/
def makeRoom (cfg : MmuConfig) (vpn : Addr) (page : L2Page) (sign : ℕ) (s : L2Tlb) :
    Except String L2Tlb :=
  if (page = .l2l1 ∨ page = .l2l0) ∧ sign = 0 then s.l2TLBEvictLRU cfg page vpn
  else if (s.arrays page.array).freeList.isEmpty then s.l2TLBEvictLRU cfg page vpn
  else .ok s

/-- `L2TLBInsertIn`: of an entry that is there, only the page table entry is replaced. -/
def l2TLBInsertIn (cfg : MmuConfig) (vpn : Addr) (e : TlbEntry) (page : L2Page) (sign : ℕ)
    (s : L2Tlb) : Except String L2Tlb :=
  match s.lookupL2TLB vpn e.asid true page false .direct with
  | .error m => .error m
  | .ok (some i, s) =>
    let old := ((s.arrays page.array).slot i).entry
    if old.vaddr ≠ vpn ∧ keyPage old.vaddr old.asid ≠ keyPage e.vaddr e.asid ∧
        keyPage old.vaddr old.asid ≠ keyPage e.gpaddr e.vmid then
      .error "tlb match but key is wrong\n"
    else
      .ok (s.setArray page.array ((s.arrays page.array).update i fun old =>
        { old with pte := e.pte }))
  | .ok (none, s) =>
    match s.makeRoom cfg vpn page sign with
    | .error m => .error m
    | .ok s =>
      match (s.arrays page.array).place { e with lruSeq := s.lruSeq + 1, vaddr := vpn }
          (buildKey vpn e.asid .direct) with
      | .error m => .error m
      | .ok a => .ok { s.setArray page.array a with lruSeq := s.lruSeq + 1 }

/-- Removes the lines in use of an array for whose first entry `p` holds. -/
def removeLines (p : TlbEntry → Bool) (k : L2Array) (s : L2Tlb) : Except String L2Tlb :=
  (s.arrays k).lineStarts.foldlM (fun s i =>
    if ((s.arrays k).slot i).linked && p ((s.arrays k).slot i).entry then s.l2TLBRemove i k
    else .ok s) s

/-- The five arrays, under the pages by which `flushAll` and `demapPageL2` go through them. -/
def storePages : List L2Page :=
  [.l2l3, .l2l2, .l2l1, .l2l0, .l2sp3]

def flushAll (s : L2Tlb) : Except String L2Tlb :=
  storePages.foldlM (fun s page => s.removeLines (fun _ => true) page.array) s

def removeFound (vpn : Addr) (asid : BitVec 16) (page : L2Page) (signUsed : Bool)
    (mode : TlbTranslateMode) (found : Bool) (s : L2Tlb) : Except String L2Tlb :=
  if found then
    match s.lookupL2TLB (page.lineOf vpn) asid true page signUsed mode with
    | .error m => .error m
    | .ok (none, _) => .error "Assertion `m_newEntry != nullptr' failed."
    | .ok (some i, s) => s.l2TLBRemove i page.array
  else .ok s

/-- The lookups at the start of `demapPageL2` for one mode: which pages are found. -/
def lookupAll (vpn : Addr) (asid : BitVec 16) (signUsed : Bool) (mode : TlbTranslateMode)
    (s : L2Tlb) : Except String (List (L2Page × Bool) × L2Tlb) :=
  L2Page.all.foldlM (fun r page =>
    match r.2.lookupL2TLB (page.lineOf vpn) asid true page signUsed mode with
    | .error m => .error m
    | .ok (found, s) => .ok (r.1 ++ [(page, found.isSome)], s)) ([], s)

/-- Whether an entry is one of a page; an address or an identifier that is zero stands for all. -/
def ofPage (vpn entryAddr : Addr) (asid entryAsid : BitVec 16) (size : Addr) : Bool :=
  (vpn == 0 || vpn &&& ~~~(size - 1) == entryAddr &&& ~~~(size - 1)) &&
    (asid == 0 || entryAsid == asid)

def removeAllFound (vpn : Addr) (asid : BitVec 16) (direct gstage vsstage : List (L2Page × Bool))
    (s : L2Tlb) : Except String L2Tlb :=
  L2Page.all.foldlM (fun s page =>
    match s.removeFound vpn asid page false .direct (direct.contains (page, true)) with
    | .error m => .error m
    | .ok s =>
      match s.removeFound vpn asid page true .gstage (gstage.contains (page, true)) with
      | .error m => .error m
      | .ok s => s.removeFound vpn asid page true .vsstage (vsstage.contains (page, true))) s

/-- `demapPageL2`: without an address or without an identifier, all lines are removed before the
entries are compared. -/
def demapPageL2 (vpn : Addr) (asid : BitVec 16) (s : L2Tlb) : Except String L2Tlb :=
  match s.lookupAll vpn asid false .direct with
  | .error m => .error m
  | .ok (direct, s) =>
    match s.lookupAll vpn asid true .gstage with
    | .error m => .error m
    | .ok (gstage, s) =>
      match s.lookupAll vpn asid true .vsstage with
      | .error m => .error m
      | .ok (vsstage, s) =>
        if vpn ≠ 0 ∧ asid ≠ 0 then s.removeAllFound vpn asid direct gstage vsstage
        else
          match s.flushAll with
          | .error m => .error m
          | .ok s =>
            storePages.foldlM (fun s page => s.removeLines (fun e =>
              ofPage (page.lineOf vpn) e.vaddr asid e.asid e.size ||
                ofPage (page.lineOf vpn) e.gpaddr asid e.vmid e.size) page.array) s
end L2Tlb

/-! ### Both levels -/

structure Tlbs where
  l1 : L1Tlb
  l2 : L2Tlb

namespace Tlbs

/-- One round of `demapPage` with an address and an identifier. -/
def demapMode (vpn : Addr) (asid : BitVec 16) (mode : TlbTranslateMode) (s : Tlbs) :
    Except String Tlbs :=
  match s.l1.removeFound vpn asid mode with
  | .error m => .error m
  | .ok l1 =>
    match s.l2.demapPageL2 vpn asid with
    | .error m => .error m
    | .ok l2 => .ok ⟨l1, l2⟩

def flushAll (s : Tlbs) : Except String Tlbs :=
  match s.l1.flushAll with
  | .error m => .error m
  | .ok l1 =>
    match s.l2.flushAll with
    | .error m => .error m
    | .ok l2 => .ok ⟨l1, l2⟩

def demapPage (vpn : Addr) (asid : BitVec 16) (s : Tlbs) : Except String Tlbs :=
  if vpn = 0 ∧ asid = 0 then s.flushAll
  else if vpn ≠ 0 ∧ asid ≠ 0 then
    [TlbTranslateMode.direct, .vsstage, .gstage, .allstage].foldlM
      (fun s mode => s.demapMode vpn asid mode) s
  else
    match s.l1.removeIf fun e => L2Tlb.ofPage vpn e.vaddr asid e.asid e.size ||
        L2Tlb.ofPage vpn e.gpaddr asid e.vmid e.size with
    | .error m => .error m
    | .ok l1 =>
      match s.l2.demapPageL2 vpn asid with
      | .error m => .error m
      | .ok l2 => .ok ⟨l1, l2⟩
end Tlbs
end Gem5
