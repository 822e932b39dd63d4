import Gem5.Lib.Overlay
import Mathlib.Data.Nat.Bitwise

/-!
# The store buffer

Committed stores leave the store queues of the threads for a buffer that they share.  An entry holds
the bytes of one cache line for one thread.  An entry that has been sent to the cache is not changed
any more: further stores to its line go to a second entry, its *vice*, which takes its place when
the cache reports the write complete.

The asserts of the source are errors.  The cache applies the enabled bytes of a packet at any time
between its being sent and its completion.
-/

namespace Gem5

/-- A cache line has `2 ^ lineBits` bytes; the low bits of a line address hold a thread number. -/
structure SbConfig where
  lineBits : ℕ
  ways : ℕ
  numThreads : ℕ
  numThreads_le : numThreads ≤ 2 ^ lineBits

namespace SbConfig
variable (c : SbConfig)

def lineSize : ℕ := 2 ^ c.lineBits

/-- `addr & cacheBlockMask`. -/
def block (addr : ℕ) : ℕ := addr - addr % c.lineSize

/-- `addr & ~cacheBlockMask`. -/
def offset (addr : ℕ) : ℕ := addr % c.lineSize

end SbConfig

def hashKey (tid blockPaddr : ℕ) : ℕ := blockPaddr ||| tid

structure StorePiece (c : SbConfig) where
  vaddr : ℕ
  paddr : ℕ
  datas : List UInt8
  mask : List Bool
  mask_length : mask.length = datas.length
  size_pos : 0 < datas.length
  in_line : c.offset paddr + datas.length ≤ c.lineSize
  offset_eq : c.offset vaddr = c.offset paddr

def StorePiece.written {c : SbConfig} (p : StorePiece c) (o : ℕ) : Bool :=
  decide (c.offset p.paddr ≤ o ∧ o < c.offset p.paddr + p.datas.length) &&
    p.mask.getD (o - c.offset p.paddr) false

/-- An entry; `request` is the byte mask of the packet built for it. -/
structure SbEntry (c : SbConfig) where
  tid : ℕ
  blockVaddr : ℕ
  blockPaddr : ℕ
  blockDatas : ℕ → UInt8
  validMask : ℕ → Bool
  sending : Bool
  vice : Option (Fin c.ways)
  request : Option (ℕ → Bool)

namespace SbEntry
variable {c : SbConfig}

def empty : SbEntry c where
  tid := 0
  blockVaddr := 0
  blockPaddr := 0
  blockDatas := fun _ => 0
  validMask := fun _ => false
  sending := false
  vice := none
  request := none

def reset (e : SbEntry c) (tid : ℕ) (p : StorePiece c) : SbEntry c where
  tid := tid
  blockVaddr := c.block p.vaddr
  blockPaddr := c.block p.paddr
  blockDatas o :=
    if c.offset p.paddr ≤ o ∧ o < c.offset p.paddr + p.datas.length then
      p.datas.getD (o - c.offset p.paddr) 0
    else e.blockDatas o
  validMask := p.written
  sending := false
  vice := none
  request := none

def withBytes (e : SbEntry c) (datas : ℕ → UInt8) (mask : ℕ → Bool) : SbEntry c :=
  { e with blockDatas := datas, validMask := mask }

def merge (e : SbEntry c) (p : StorePiece c) : Except String (SbEntry c) :=
  if c.offset p.paddr + p.datas.length ≤ c.lineSize then
    .ok (e.withBytes
      (fun o => if p.written o then p.datas.getD (o - c.offset p.paddr) 0 else e.blockDatas o)
      (fun o => p.written o || e.validMask o))
  else .error "assert(offset + size <= validMask.size())"

end SbEntry

/-- The store buffer with what surrounds it.  `lruIndex` has the entries that may be evicted, the
last used first; `storeQueue` the pieces of the committed stores that are not yet in the buffer,
store by store; `inCache` the entries whose packet the cache has accepted and not completed, and
`applied` those of them whose bytes it has written; and `offloaded` all pieces that went into the
buffer, in order. -/
structure SbState (c : SbConfig) where
  dataVec : Fin c.ways → SbEntry c
  dataMap : ℕ → Option (Fin c.ways)
  crossRef : Fin c.ways → ℕ
  lruIndex : List (Fin c.ways)
  freeList : List (Fin c.ways)
  dataVld : Fin c.ways → Bool
  size : ℕ
  blockedSbufferEntry : Option (Fin c.ways)
  storeQueue : Fin c.numThreads → List (List (StorePiece c))
  cache : ℕ → UInt8
  inCache : Fin c.ways → Bool
  applied : Fin c.ways → Bool
  offloaded : List (Fin c.numThreads × StorePiece c)

/-- A load, or the piece of one that lies in a cache line.  The pieces after the first begin at a
line. -/
structure LoadPiece (c : SbConfig) where
  mainVaddr : ℕ
  mainSize : ℕ
  vaddr : ℕ
  paddr : ℕ
  size : ℕ
  main_le : mainVaddr ≤ vaddr
  size_le : vaddr - mainVaddr + size ≤ mainSize
  in_line : c.offset paddr + size ≤ c.lineSize
  aligned : mainVaddr < vaddr → c.offset paddr = 0

namespace SbState
variable {c : SbConfig}

def start (cache : ℕ → UInt8) : SbState c where
  dataVec := fun _ => .empty
  dataMap := fun _ => none
  crossRef := fun _ => 0
  lruIndex := []
  freeList := List.finRange c.ways
  dataVld := fun _ => false
  size := 0
  blockedSbufferEntry := none
  storeQueue := fun _ => []
  cache := cache
  inCache := fun _ => false
  applied := fun _ => false
  offloaded := []

/-! ### The buffer -/

def full (s : SbState c) : Bool :=
  s.freeList.isEmpty

def setEntry (i : Fin c.ways) (e : SbEntry c) (s : SbState c) : SbState c :=
  { s with dataVec := Function.update s.dataVec i e }

@[simp]
theorem setEntry_self (i : Fin c.ways) (e : SbEntry c) (s : SbState c) :
    (s.setEntry i e).dataVec i = e := by
  simp [setEntry]

theorem setEntry_of_ne {i j : Fin c.ways} (h : j ≠ i) (e : SbEntry c) (s : SbState c) :
    (s.setEntry i e).dataVec j = s.dataVec j := by
  simp [setEntry, h]

theorem setEntry_apply {α : Type} {i : Fin c.ways} {e : SbEntry c} {s : SbState c}
    (f : SbEntry c → α) (hf : f e = f (s.dataVec i)) (j : Fin c.ways) :
    f ((s.setEntry i e).dataVec j) = f (s.dataVec j) := by
  by_cases h : j = i
  · subst h
    rw [setEntry_self, hf]
  · rw [setEntry_of_ne h]

def getEmpty (s : SbState c) : Except String (Fin c.ways × SbState c) :=
  match s.freeList.getLast? with
  | none => .error "assert(!full())"
  | some i => .ok (i, { s with freeList := s.freeList.dropLast })

/-- Enters `i` in the map unless its key is taken. -/
def mapInsert (i : Fin c.ways) (s : SbState c) : SbState c :=
  let key := hashKey (s.dataVec i).tid (s.dataVec i).blockPaddr
  { s with
    dataMap := if (s.dataMap key).isNone then Function.update s.dataMap key (some i) else s.dataMap
    crossRef := Function.update s.crossRef i key
    lruIndex := i :: s.lruIndex }

def insert (i : Fin c.ways) (s : SbState c) : Except String (SbState c) :=
  if ¬ s.size < c.ways then .error "assert(_size < data_vec.size())"
  else if s.dataVld i then .error "assert(!data_vld[index])"
  else if s.lruIndex.length = c.ways then .error "assert(!lru_index.full())"
  else .ok { s.mapInsert i with
    size := s.size + 1
    dataVld := Function.update s.dataVld i true }

def get (tid : ℕ) (addr : ℕ) (s : SbState c) : Except String (Option (Fin c.ways)) :=
  match s.dataMap (hashKey tid addr) with
  | none => .ok none
  | some i =>
    if (s.dataVec i).tid ≠ tid then .ok none
    else if s.dataVld i then .ok (some i)
    else .error "assert(data_vld[iter->second->index])"

def update (i : Fin c.ways) (s : SbState c) : Except String (SbState c) :=
  if i ∈ s.lruIndex then .ok { s with lruIndex := i :: s.lruIndex.erase i }
  else .error "assert(std::find(lru_index.begin(), lru_index.end(), index) != lru_index.end())"

def getEvict (s : SbState c) : Except String (Fin c.ways × SbState c) :=
  match s.lruIndex.getLast? with
  | none => .error "assert(lru_index.size() > 0)"
  | some i =>
    if s.dataVld i then .ok (i, { s with lruIndex := s.lruIndex.dropLast })
    else .error "assert(data_vld[index])"

def createVice (i : Fin c.ways) (s : SbState c) : Except String (Fin c.ways × SbState c) :=
  match s.getEmpty with
  | .error e => .error e
  | .ok (v, s) =>
    if (s.dataVec i).vice.isSome then .error "assert(!entry->vice)"
    else .ok (v, { s.setEntry i { s.dataVec i with vice := some v } with
      size := s.size + 1
      dataVld := Function.update s.dataVld v true })

def release (i : Fin c.ways) (s : SbState c) : Except String (SbState c) :=
  if s.size = 0 then .error "assert(_size > 0)"
  else if i ∈ s.freeList then
    .error "assert(std::find(free_list.begin(), free_list.end(), index) == free_list.end())"
  else
    let t := { s with
      size := s.size - 1
      dataVld := Function.update s.dataVld i false
      dataMap := Function.update s.dataMap (s.crossRef i) none
      freeList := s.freeList ++ [i] }
    match (s.dataVec i).vice with
    | none => .ok t
    | some v => if t.dataVld v then .ok (t.mapInsert v) else .error "assert(data_vld[vice->index])"

/-! ### Stores -/

/-- `LSQUnit::insertStoreBuffer`.  `false` if there is no free entry. -/
def insertStoreBuffer (tid : Fin c.numThreads) (p : StorePiece c) (s : SbState c) :
    Except String (Bool × SbState c) :=
  if c.block p.vaddr ≠ c.block (p.vaddr + p.datas.length - 1) then
    .error "assert((vaddr & cacheBlockMask) == ((vaddr + size - 1) & cacheBlockMask))"
  else
    match s.get tid (c.block p.paddr) with
    | .error e => .error e
    | .ok none =>
      if s.full then .ok (false, s)
      else
        match s.getEmpty with
        | .error e => .error e
        | .ok (i, s) => ((s.setEntry i ((s.dataVec i).reset tid p)).insert i).map ((true, ·))
    | .ok (some i) =>
      if (s.dataVec i).sending then
        match (s.dataVec i).vice with
        | some v => ((s.dataVec v).merge p).map fun e => (true, s.setEntry v e)
        | none =>
          if s.full then .ok (false, s)
          else
            match s.createVice i with
            | .error e => .error e
            | .ok (v, s) => .ok (true, s.setEntry v ((s.dataVec v).reset tid p))
      else
        match s.update i with
        | .error e => .error e
        | .ok s => ((s.dataVec i).merge p).map fun e => (true, s.setEntry i e)

def logStore (tid : Fin c.numThreads) (p : StorePiece c) (s : SbState c) : SbState c :=
  { s with offloaded := s.offloaded ++ [(tid, p)] }

/-- The pieces of a store go into the buffer until one finds it full; those left are returned. -/
def insertPieces (tid : Fin c.numThreads) :
    List (StorePiece c) → SbState c → Except String (List (StorePiece c) × SbState c)
  | [], s => .ok ([], s)
  | p :: ps, s =>
    match s.insertStoreBuffer tid p with
    | .error e => .error e
    | .ok (false, s) => .ok (p :: ps, s)
    | .ok (true, s) => insertPieces tid ps (s.logStore tid p)

/-- `offloadToStoreBuffer` for the oldest store of a thread; nothing happens while a send is to be
retried. -/
def offload (tid : Fin c.numThreads) (s : SbState c) : Except String (SbState c) :=
  if s.blockedSbufferEntry.isSome then .ok s
  else
    match s.storeQueue tid with
    | [] => .ok s
    | store :: rest =>
      match insertPieces tid store s with
      | .error e => .error e
      | .ok (left, s) => .ok { s with
          storeQueue := Function.update s.storeQueue tid
            (if left.isEmpty then rest else left :: rest) }

/-! ### The cache -/

def markSending (i : Fin c.ways) (s : SbState c) : SbState c :=
  { s.setEntry i { s.dataVec i with sending := true } with
    inCache := Function.update s.inCache i true }

/-- `storeBufferWriteback`: the retry of a failed send comes before an eviction.  `canEvict` says
that no write stalls the cache, `evict` that there is a cause to evict, and `sent` whether the cache
takes the packet. -/
def storeBufferWriteback (canEvict evict sent : Bool) (s : SbState c) :
    Except String (SbState c) :=
  if !canEvict then .ok s
  else
    match s.blockedSbufferEntry with
    | some i => .ok (if sent then { s.markSending i with blockedSbufferEntry := none } else s)
    | none =>
      if s.lruIndex.isEmpty || !evict then .ok s
      else
        match s.getEvict with
        | .error e => .error e
        | .ok (i, s) =>
          if (s.dataVec i).request.isSome then .error "assert(entry->request == nullptr)"
          else
            let t := s.setEntry i { s.dataVec i with request := some (s.dataVec i).validMask }
            .ok (if sent then t.markSending i else { t with blockedSbufferEntry := some i })

end SbState

def SbEntry.bytes {c : SbConfig} (e : SbEntry c) (mask : ℕ → Bool) : ℕ → Option UInt8 :=
  fun a =>
    if e.blockPaddr ≤ a ∧ a < e.blockPaddr + c.lineSize ∧ mask (a - e.blockPaddr) then
      some (e.blockDatas (a - e.blockPaddr))
    else none

namespace SbState
variable {c : SbConfig}

/-- The cache applies the enabled bytes of the packet; the packet points to the data of the
entry. -/
def cacheApply (i : Fin c.ways) (s : SbState c) : Except String (SbState c) :=
  match s.inCache i && !s.applied i, (s.dataVec i).request with
  | true, some mask => .ok { s with
      cache := Overlay.layOver ((s.dataVec i).bytes mask) s.cache
      applied := Function.update s.applied i true }
  | _, _ => .error "no packet of this entry is in the cache"

/-- `completeSbufferEvict`, on the response to a packet that the cache has applied. -/
def completeSbufferEvict (i : Fin c.ways) (s : SbState c) : Except String (SbState c) :=
  if s.applied i then
    ({ s with
      inCache := Function.update s.inCache i false
      applied := Function.update s.applied i false }).release i
  else .error "no packet of this entry is complete"

/-! ### Loads -/

def forwardByte (i : Fin c.ways) (o : ℕ) (s : SbState c) : Except String (Option UInt8) :=
  let e := s.dataVec i
  let own := if e.validMask o then some (e.blockDatas o) else none
  match e.vice with
  | none => .ok own
  | some v =>
    if (s.dataVec v).validMask o then
      if (s.dataVec v).blockVaddr = e.blockVaddr then .ok (some ((s.dataVec v).blockDatas o))
      else .error "assert(vice->blockVaddr == blockVaddr)"
    else .ok own

/-- The loop over the bytes of a load: the forwarded bytes with their places in the load, and
whether there were all. -/
def recordBytes (i : Fin c.ways) (ld : LoadPiece c) (s : SbState c) :
    List ℕ → Except String (List (ℕ × UInt8) × Bool)
  | [] => .ok ([], true)
  | j :: js =>
    let goffset := ld.vaddr - ld.mainVaddr
    if ld.mainSize ≤ goffset + j then .error "assert(goffset + i < lsqreq->_size)"
    else
      match s.forwardByte i (c.offset ld.paddr + j) with
      | .error e => .error e
      | .ok byte =>
        match recordBytes i ld s js with
        | .error e => .error e
        | .ok (packets, all) =>
          match byte with
          | some b => .ok ((goffset + j, b) :: packets, all)
          | none => .ok (packets, false)

def recordForward (i : Fin c.ways) (ld : LoadPiece c) (s : SbState c) :
    Except String (List (ℕ × UInt8) × Bool) :=
  if 0 < ld.vaddr - ld.mainVaddr ∧ c.offset ld.paddr ≠ 0 then .error "assert(offset == 0)"
  else s.recordBytes i ld (List.range ld.size)

end SbState

inductive SbEvent (c : SbConfig)
  | commitStore (tid : Fin c.numThreads) (store : List (StorePiece c))
  | offload (tid : Fin c.numThreads)
  | writeback (canEvict evict sent : Bool)
  | cacheApply (i : Fin c.ways)
  | complete (i : Fin c.ways)

namespace SbState
variable {c : SbConfig}

def step (s : SbState c) : SbEvent c → Except String (SbState c)
  | .commitStore tid store =>
    .ok { s with storeQueue := Function.update s.storeQueue tid (s.storeQueue tid ++ [store]) }
  | .offload tid => s.offload tid
  | .writeback canEvict evict sent => s.storeBufferWriteback canEvict evict sent
  | .cacheApply i => s.cacheApply i
  | .complete i => s.completeSbufferEvict i

def run : List (SbEvent c) → SbState c → Except String (SbState c)
  | [], s => .ok s
  | e :: es, s => (s.step e).bind (run es)

end SbState
end Gem5
