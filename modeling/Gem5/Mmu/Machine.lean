import Gem5.Mmu.Fill

/-!
# The memory management unit

Two TLBs of the first level, for instructions and for data, each with a page table walker, in front
of one TLB of the second level.

What the environment decides is part of the events: which lines memory returns, whether the port
takes a packet, what the checks of physical memory protection say, and whether the limits on
prefetching permit a prefetch.  A walker's `log` is not in the source; it records which requests
have come and what they have been told.
-/

namespace Gem5
inductive L1Id
  | itb
  | dtb
  deriving DecidableEq

/-- `RequestorState`: a request that waits for a walk. -/
structure Requestor where
  id : ℕ
  vaddr : Addr
  fromPreReq : Bool

/-- What a request learns from a walker: `deny` is a check of the final address that fails. -/
inductive WalkAction
  | ask (id : ℕ)
  | finish (id : ℕ) (fault : Option MMUFault)
  | deny (id : ℕ)
  deriving DecidableEq

/-- A request for a walk; `known` is the table that the second level knows, with the level of its
entries and the identifier of the address space. -/
structure WalkRequest where
  id : ℕ
  req : XlateReq
  fromForwardPreReq : Bool
  fromBackPreReq : Bool
  known : Option (Addr × ℕ × BitVec 16)

def WalkRequest.fromPreReq (r : WalkRequest) : Bool :=
  r.fromForwardPreReq || r.fromBackPreReq

/-- A walk and those who wait for it; `inflight` is whether its read has been sent. -/
structure WalkerState where
  walk : Walk
  requestors : List Requestor
  inflight : Bool
  retrying : Bool

namespace WalkerState

/-- `fromPre` or `fromBackPre`. -/
def fromPreReq (ws : WalkerState) : Bool :=
  ws.walk.entry.fromForwardPreReq || ws.walk.entry.fromBackPreReq

/-! ### Joining a walk -/

/-- Whether a request is for the page of a walk that has not answered yet, under the same
registers. -/
def coalesces (ws : WalkerState) (r : WalkRequest) : Bool :=
  ws.walk.req.mode == r.req.mode && ws.walk.req.satp == r.req.satp &&
    ws.walk.req.pmode == r.req.pmode && ws.walk.req.status == r.req.status &&
    (match r.known with
      | some (_, _, asid) => ws.walk.req.satp.asid == asid
      | none => true) &&
    ((r.req.vaddr >>> pageShift) <<< pageShift ==
      (ws.walk.req.vaddr >>> pageShift) <<< pageShift) &&
    !ws.walk.finishDefaultTranslate

def coalesce (ws : WalkerState) (r : WalkRequest) : Except String WalkerState :=
  if r.fromPreReq then .ok ws
  else if ws.requestors.isEmpty then .error "wrong in ptw Coalesce\n"
  else .ok { ws with
    walk := { ws.walk with preHitInPtw := ws.walk.preHitInPtw || ws.fromPreReq }
    requestors := ws.requestors ++ [⟨r.id, r.req.vaddr, false⟩] }

/-! ### Packets -/

/-- `sendPackets`; `sent` is whether the port takes the packet. -/
def sendPackets (sent : Bool) (ws : WalkerState) : WalkerState :=
  if ws.retrying then ws
  else
    match ws.walk.read with
    | none => ws
    | some _ =>
      if sent then { ws with walk := ws.walk.endWalk, inflight := true }
      else { ws with retrying := true }

def retry (sent : Bool) (ws : WalkerState) : WalkerState :=
  { ws with retrying := false }.sendPackets sent

/-- The end of a walk without a fault.  The first request whose final address is not permitted ends
the loop: the walk of a prefetch is given up, another one stays. -/
def finishAll (w : Walk) (pmpCheck : ℕ → Addr → Option MMUFault) :
    List Requestor → L1Tlb → Except String (Bool × List WalkAction × L1Tlb)
  | [], l1 => .ok (true, [], l1)
  | r :: rest, l1 =>
    if r.fromPreReq then finishAll w pmpCheck rest l1
    else
      match l1.translateWithTLB (w.req.satp.mode.vaddrSext r.vaddr) w.req.satp.asid with
      | .error m => .error m
      | .ok (paddr, l1) =>
        match pmpCheck r.id paddr with
        | some f =>
          if w.entry.fromForwardPreReq || w.entry.fromBackPreReq then
            .ok (true, [.deny r.id], l1)
          else .ok (false, [.deny r.id, .finish r.id (some f)], l1)
        | none =>
          match finishAll w pmpCheck rest l1 with
          | .error m => .error m
          | .ok (complete, log, l1) => .ok (complete, .finish r.id none :: log, l1)

def finishFault (w : Walk) (requestors : List Requestor) : List WalkAction :=
  (requestors.filter fun r => !r.fromPreReq).map fun r =>
    .finish r.id (some (createPagefault w.req.mode))

def finishNextline (w : Walk) (pmpCheck : ℕ → Addr → Option MMUFault) :
    List Requestor → L1Tlb → Except String (List WalkAction × L1Tlb)
  | [], l1 => .ok ([], l1)
  | r :: rest, l1 =>
    match l1.translateWithTLB (w.req.satp.mode.vaddrSext r.vaddr) w.req.satp.asid with
    | .error m => .error m
    | .ok (paddr, l1) =>
      match pmpCheck r.id paddr with
      | some _ => .error "Assertion `mainFault == NoFault' failed."
      | none =>
        match finishNextline w pmpCheck rest l1 with
        | .error m => .error m
        | .ok (log, l1) => .ok (.finish r.id none :: log, l1)

/-- What follows a step of the walk: the next read, or the answers.  A walk that is complete is no
longer there. -/
def afterStep (ws : WalkerState) (fault : Option MMUFault)
    (pmpCheck : ℕ → Addr → Option MMUFault) (s : Tlbs) :
    Except String (Option WalkerState × List WalkAction × Tlbs) :=
  let idle := !ws.inflight && ws.walk.read.isNone
  if ws.walk.nextline then
    if idle then .ok (none, [], s)
    else
      match fault with
      | some _ => .ok (some ws, ws.requestors.map fun r =>
          .finish r.id (some (createPagefault ws.walk.req.mode)), s)
      | none =>
        match finishNextline ws.walk pmpCheck ws.requestors s.l1 with
        | .error m => .error m
        | .ok (log, l1) => .ok (some ws, log, { s with l1 := l1 })
  else if idle then
    match fault with
    | some _ => .ok (none, finishFault ws.walk ws.requestors, s)
    | none =>
      match finishAll ws.walk pmpCheck ws.requestors s.l1 with
      | .error m => .error m
      | .ok (complete, log, l1) =>
        .ok (if complete then none else some ws, log, { s with l1 := l1 })
  else .ok (some ws, [], s)

/-- `recvPacket`: the line arrives that the walk waits for; `pmp` is the check of the read and
`pmpCheck` that of the final addresses. -/
def recvPacket (cfg : MmuConfig) (line : PteLine) (pmp : Option MMUFault) (sent : Bool)
    (pmpCheck : ℕ → Addr → Option MMUFault) (ws : WalkerState) (s : Tlbs) :
    Except String (Option WalkerState × List WalkAction × Tlbs) :=
  if ws.inflight then
    if ws.requestors.isEmpty then .ok (none, [], s)
    else
      match ws.walk.stepWalk cfg line pmp with
      | .error m => .error m
      | .ok (fault, ops, walk) =>
        match s.execAll cfg ops with
        | .error m => .error m
        | .ok s =>
          ({ ws with walk := walk, inflight := false }.sendPackets sent).afterStep fault pmpCheck s
  else .error "Assertion `inflight' failed."
end WalkerState

/-! ### Walkers -/

/-- A page that was found in the second level; the place where it was found is looked at again when
the request is served. -/
structure L2TlbState where
  id : ℕ
  paddr : Addr
  array : L2Array
  slot : ℕ

structure Walker where
  currStates : List WalkerState
  l2TLBrequestors : List L2TlbState
  autoOpenNextLine : Bool
  log : List WalkAction

namespace Walker
def init : Walker :=
  ⟨[], [], true, []⟩

/-- `tryCoalesce`: the first walk that a request can join. -/
def tryCoalesce (r : WalkRequest) :
    List WalkerState → Except String (Option (List WalkerState))
  | [] => .ok none
  | ws :: rest =>
    if ws.coalesces r then
      match ws.coalesce r with
      | .error m => .error m
      | .ok ws => .ok (some (ws :: rest))
    else
      match tryCoalesce r rest with
      | .error m => .error m
      | .ok none => .ok none
      | .ok (some rest) => .ok (some (ws :: rest))

/-- `startWalk` of a new walk. -/
def startWalk (r : WalkRequest) (autoOpenNextline sent : Bool) : Except String WalkerState :=
  let args : Walk.StartArgs := {
    ppn := (r.known.map fun k => k.1).getD 0
    vaddr := r.req.vaddr
    fLevel := (r.known.map fun k => k.2.1).getD r.req.satp.mode.topLevel
    fromL2tlb := r.known.isSome
    autoOpenNextline := autoOpenNextline
    fromForwardPreReq := r.fromForwardPreReq
    fromBackPreReq := r.fromBackPreReq }
  match (Walk.initState r.req false true).setupWalk args with
  | .error m => .error m
  | .ok walk => .ok
      (WalkerState.sendPackets sent ⟨walk, [⟨r.id, r.req.vaddr, r.fromPreReq⟩], false, false⟩)

/-- `start`; `regulate` is what `autoOpenNextline` says. -/
def start (r : WalkRequest) (regulate sent : Bool) (w : Walker) : Except String Walker :=
  let auto := w.autoOpenNextLine && regulate
  let log := if r.fromPreReq then w.log else w.log ++ [.ask r.id]
  match tryCoalesce r w.currStates with
  | .error m => .error m
  | .ok (some states) =>
    .ok { w with currStates := states, autoOpenNextLine := auto, log := log }
  | .ok none =>
    match startWalk r auto sent with
    | .error m => .error m
    | .ok ws =>
      .ok { w with currStates := w.currStates ++ [ws], autoOpenNextLine := auto, log := log }

/-- `recvReqRetry`: every walk whose packet was refused tries again. -/
def recvReqRetry (sent : ℕ → Bool) (w : Walker) : Walker :=
  { w with currStates := w.currStates.mapIdx fun i ws =>
      if ws.retrying then ws.retry (sent i) else ws }
end Walker

/-! ### Translations -/

/-- What the environment decides about a translation: the limits on prefetching and the port. -/
structure XlateChoices where
  regulate : Bool
  forwardPre : Bool
  backPre : Bool
  sent : Bool
  sentForward : Bool
  sentBack : Bool

structure L2Found where
  main : L2Page → Option ℕ
  forwardPre : L2Page → Option ℕ
  backPre : L2Page → Option ℕ

namespace L2Found
def none : L2Found :=
  ⟨fun _ => .none, fun _ => .none, fun _ => .none⟩
end L2Found

def forwardPreBlock (vaddr : Addr) : Addr :=
  L2Page.l2l0.lineOf (vaddr + ((8 : Addr) <<< pageShift))

def backPreBlock (vaddr : Addr) : Addr :=
  L2Page.l2l0.lineOf (vaddr - ((8 : Addr) <<< pageShift))

def AddrXlateMode.pages (mode : AddrXlateMode) : List L2Page :=
  L2Page.all.filter fun p => !(mode == .sv39 && p.level == 3)

namespace L2Tlb
def lookupPage (req : XlateReq) (inL1 : Bool) (r : L2Found × L2Tlb) (page : L2Page) :
    Except String (L2Found × L2Tlb) :=
  match if inL1 then .ok (none, r.2)
    else r.2.lookupL2TLB req.vaddr req.satp.asid false page true .direct with
  | .error m => .error m
  | .ok (main, s) =>
    match s.lookupL2TLB (forwardPreBlock req.vaddr) req.satp.asid true page true .direct with
    | .error m => .error m
    | .ok (forwardPre, s) =>
      match s.lookupL2TLB (backPreBlock req.vaddr) req.satp.asid true page true .direct with
      | .error m => .error m
      | .ok (backPre, s) => .ok (⟨Function.update r.1.main page main,
          Function.update r.1.forwardPre page forwardPre,
          Function.update r.1.backPre page backPre⟩, s)

def lookupPages (req : XlateReq) (inL1 : Bool) (s : L2Tlb) : Except String (L2Found × L2Tlb) :=
  req.satp.mode.pages.foldlM (lookupPage req inL1) (.none, s)

def entryOf (s : L2Tlb) (page : L2Page) (i : ℕ) : TlbEntry :=
  ((s.arrays page.array).slot i).entry

def hitOrder : List L2Page :=
  [.l2l0, .l2sp1, .l2sp2, .l2sp3, .l2l1, .l2l2, .l2l3]

def firstHit (found : L2Page → Option ℕ) (s : L2Tlb) : Option (L2Page × ℕ) :=
  hitOrder.findSome? fun page =>
    (found page).bind fun i => if (s.entryOf page i).pte.v then some (page, i) else none

def firstFound (found : L2Page → Option ℕ) (pages : List L2Page) : Option (L2Page × ℕ) :=
  pages.findSome? fun page => (found page).map fun i => (page, i)
end L2Tlb

/-- `L2TLBCheck`: whether the entry decides the translation, and with which fault. -/
def l2TLBCheck (req : XlateReq) (level : ℕ) (pte : PTE) : Bool × Option MMUFault :=
  if pte.v = false ∨ (pte.r = false ∧ pte.w = true) then (true, some (createPagefault req.mode))
  else if pte.r = true ∨ pte.x = true then (true, Walk.leafFault req level pte)
  else if level = 0 then (true, some (createPagefault req.mode))
  else (false, none)

/-- `sendPreHitOnHitRequest`: a prefetch starts where the table of the block is known. -/
def Walker.sendPre (req : XlateReq) (id : ℕ) (block : Addr) (forward : Bool) (l2 : L2Tlb)
    (source : Option (L2Page × ℕ)) (regulate sent : Bool) (w : Walker) : Except String Walker :=
  match source with
  | none => .ok w
  | some (page, i) =>
    let e := l2.entryOf page i
    if l2TLBCheck req page.level e.pte = (false, none) then
      w.start ⟨id, { req with vaddr := block }, forward, !forward,
        some (e.pte.ppn, page.level - 1, e.asid)⟩ regulate sent
    else .ok w

def Walker.prefetch (req : XlateReq) (id : ℕ) (l2 : L2Tlb) (found : L2Found) (c : XlateChoices)
    (w : Walker) : Except String Walker :=
  let block := L2Page.l2l0.lineOf req.vaddr
  match
    if forwardPreBlock req.vaddr ≠ block ∧ found.forwardPre .l2l0 = none ∧ c.forwardPre = true then
      w.sendPre req id (forwardPreBlock req.vaddr) true l2
        (L2Tlb.firstFound found.forwardPre [.l2sp1, .l2l1, .l2sp2, .l2l2, .l2sp3, .l2l3])
        c.regulate c.sentForward
    else .ok w with
  | .error m => .error m
  | .ok w =>
    if backPreBlock req.vaddr ≠ block ∧ found.backPre .l2l0 = none ∧ c.backPre = true then
      w.sendPre req id (backPreBlock req.vaddr) false l2
        (L2Tlb.firstFound found.backPre [.l2sp1, .l2l1]) c.regulate c.sentBack
    else .ok w

structure Mmu where
  l1 : L1Id → L1Tlb
  l2 : L2Tlb
  walkers : L1Id → Walker

namespace Mmu
def init (cfg : MmuConfig) : Mmu where
  l1 _ := ⟨.init cfg.size, 0⟩
  l2 := .init cfg
  walkers _ := .init

def tlbs (m : Mmu) (k : L1Id) : Tlbs :=
  ⟨m.l1 k, m.l2⟩

def setTlbs (m : Mmu) (k : L1Id) (s : Tlbs) : Mmu :=
  { m with l1 := Function.update m.l1 k s.l1, l2 := s.l2 }

def setWalker (m : Mmu) (k : L1Id) (w : Walker) : Mmu :=
  { m with walkers := Function.update m.walkers k w }

def askWalker (k : L1Id) (r : WalkRequest) (c : XlateChoices) (m : Mmu) :
    Except String (Option (Except MMUFault Addr) × Mmu) :=
  match (m.walkers k).start r c.regulate c.sent with
  | .error e => .error e
  | .ok w => .ok (none, m.setWalker k w)

/-- The prefetches after a hit whose result is `result`. -/
def afterHit (k : L1Id) (id : ℕ) (req : XlateReq) (found : L2Found) (c : XlateChoices)
    (result : Option (Except MMUFault Addr)) (m : Mmu) :
    Except String (Option (Except MMUFault Addr) × Mmu) :=
  match (m.walkers k).prefetch req id m.l2 found c with
  | .error e => .error e
  | .ok w => .ok (result, m.setWalker k w)

def hitL1 (k : L1Id) (id : ℕ) (req : XlateReq) (found : L2Found) (c : XlateChoices)
    (e : TlbEntry) (m : Mmu) : Except String (Option (Except MMUFault Addr) × Mmu) :=
  if req.mode = .write ∧ e.pte.d = false then .ok (some (.error (createPagefault req.mode)), m)
  else
    match checkPermissions req.status req.pmode req.mode e.pte with
    | some f => .ok (some (.error f), m)
    | none => m.afterHit k id req found c (some (.ok (e.translate req.vaddr)))

/-- `doL2TLBHitSchedule`. -/
def scheduleHit (k : L1Id) (hit : L2TlbState) (m : Mmu) : Mmu :=
  m.setWalker k { m.walkers k with l2TLBrequestors := (m.walkers k).l2TLBrequestors ++ [hit] }

def missL1 (k : L1Id) (id : ℕ) (req : XlateReq) (found : L2Found) (c : XlateChoices) (m : Mmu) :
    Except String (Option (Except MMUFault Addr) × Mmu) :=
  match m.l2.firstHit found.main with
  | none => m.askWalker k ⟨id, req, false, false, none⟩ c
  | some (page, i) =>
    let e := m.l2.entryOf page i
    match l2TLBCheck req page.level e.pte with
    | (false, _) =>
      m.askWalker k ⟨id, req, false, false, some (e.pte.ppn, page.level - 1, e.asid)⟩ c
    | (true, some f) => .ok (some (.error f), m)
    | (true, none) =>
      let m := m.scheduleHit k ⟨id, e.translate req.vaddr, page.array, i⟩
      if page = .l2l0 then m.afterHit k id req found c none else .ok (none, m)

/-- `doTranslate`: the result, unless it comes later. -/
def doTranslate (k : L1Id) (id : ℕ) (req : XlateReq) (c : XlateChoices) (m : Mmu) :
    Except String (Option (Except MMUFault Addr) × Mmu) :=
  if req.satp.mode.vaddrSext req.vaddr ≠ req.vaddr then
    .ok (some (.error (createPagefault req.mode)), m)
  else
    match (m.l1 k).lookup req.vaddr req.satp.asid false true .direct with
    | (hit, l1) =>
      match m.l2.lookupPages req hit.isSome with
      | .error e => .error e
      | .ok (found, l2) =>
        let m := m.setTlbs k ⟨l1, l2⟩
        match hit with
        | some i => m.hitL1 k id req found c (l1.arr.slot i).entry
        | none => m.missL1 k id req found c

/-! ### Events -/

/-- What `dol2TLBHit` inserts: the entries that are now where the pages were found. -/
def hitOps (cfg : MmuConfig) (k : L1Id) (pmpCheck : ℕ → Addr → Option MMUFault) (m : Mmu) :
    List TlbOp :=
  if cfg.enableL1L2replace then
    ((m.walkers k).l2TLBrequestors.filter fun h => (pmpCheck h.id h.paddr).isNone).map fun h =>
      .insert ((m.l2.arrays h.array).slot h.slot).entry
  else []

def dol2TLBHit (cfg : MmuConfig) (k : L1Id) (pmpCheck : ℕ → Addr → Option MMUFault) (m : Mmu) :
    Except String Mmu :=
  match (m.tlbs k).execAll cfg (m.hitOps cfg k pmpCheck) with
  | .error e => .error e
  | .ok s => .ok ((m.setTlbs k s).setWalker k { m.walkers k with l2TLBrequestors := [] })

/-- `recvTimingResp` for the walk with some number. -/
def recvTimingResp (cfg : MmuConfig) (k : L1Id) (i : ℕ) (line : PteLine) (pmp : Option MMUFault)
    (sent : Bool) (pmpCheck : ℕ → Addr → Option MMUFault) (m : Mmu) : Except String Mmu :=
  match (m.walkers k).currStates[i]? with
  | none => .error "no walk waits for the response"
  | some ws =>
    match ws.recvPacket cfg line pmp sent pmpCheck (m.tlbs k) with
    | .error e => .error e
    | .ok (next, log, s) =>
      let states := (m.walkers k).currStates
      .ok ((m.setTlbs k s).setWalker k { m.walkers k with
        currStates := match next with
          | none => states.eraseIdx i
          | some ws => states.set i ws
        log := (m.walkers k).log ++ log })

/-- `demapPage` of one TLB of the first level. -/
def demapTlb (k : L1Id) (vpn : Addr) (asid : BitVec 16) (m : Mmu) : Except String Mmu :=
  match (m.tlbs k).demapPage vpn asid with
  | .error e => .error e
  | .ok s => .ok (m.setTlbs k s)

def demapPage (vpn : Addr) (asid : BitVec 16) (m : Mmu) : Except String Mmu :=
  match m.demapTlb .itb vpn asid with
  | .error e => .error e
  | .ok m => m.demapTlb .dtb vpn asid

/-- `flushAll` of a TLB of the first level. -/
def flushL1 (k : L1Id) (m : Mmu) : Except String Mmu :=
  match (m.l1 k).flushAll with
  | .error e => .error e
  | .ok l1 => .ok (m.setTlbs k ⟨l1, m.l2⟩)

/-- `flushAll` of the TLB of the second level. -/
def flushL2 (m : Mmu) : Except String Mmu :=
  match m.l2.flushAll with
  | .error e => .error e
  | .ok l2 => .ok { m with l2 := l2 }
end Mmu

inductive MmuEvent
  | translate (k : L1Id) (id : ℕ) (req : XlateReq) (choices : XlateChoices)
  | response (k : L1Id) (i : ℕ) (line : PteLine) (pmp : Option MMUFault) (sent : Bool)
      (pmpCheck : ℕ → Addr → Option MMUFault)
  | retry (k : L1Id) (sent : ℕ → Bool)
  | l2Hit (k : L1Id) (pmpCheck : ℕ → Addr → Option MMUFault)
  | demapPage (vpn : Addr) (asid : BitVec 16)
  | flushL1 (k : L1Id)
  | flushL2

namespace Mmu
def step (cfg : MmuConfig) (m : Mmu) : MmuEvent → Except String Mmu
  | .translate k id req c =>
    match m.doTranslate k id req c with
    | .error e => .error e
    | .ok (_, m) => .ok m
  | .response k i line pmp sent pmpCheck => m.recvTimingResp cfg k i line pmp sent pmpCheck
  | .retry k sent => .ok (m.setWalker k ((m.walkers k).recvReqRetry sent))
  | .l2Hit k pmpCheck => m.dol2TLBHit cfg k pmpCheck
  | .demapPage vpn asid => m.demapPage vpn asid
  | .flushL1 k => m.flushL1 k
  | .flushL2 => m.flushL2

def run (cfg : MmuConfig) (m : Mmu) (events : List MmuEvent) : Except String Mmu :=
  events.foldlM (step cfg) m

inductive Reachable (cfg : MmuConfig) : Mmu → Prop
  | init : Reachable cfg (init cfg)
  | step {m m' : Mmu} {event : MmuEvent} :
      Reachable cfg m → m.step cfg event = .ok m' → Reachable cfg m'
end Mmu
end Gem5
