import Mathlib.Data.List.Induction

/-!
# Arbitration of register ports

The instructions that are selected in a cycle claim ports of the register file one after the other.
A read port of a bank goes to the better priority, and among equals to the later claim.  A write
port does so too, but it also goes to the later claim when the two write in different cycles; and
an instruction can lose a port to a claim of its own.  Where neither can happen, only those lose
that had to.
-/

namespace Gem5
open List Function

inductive RfType
  | int
  | fp
  | other
  deriving DecidableEq

/-- An entry of `oport->rp`, decoded. -/
structure RfSpec where
  isWr : Bool
  type : RfType
  typePortId : ℕ
  portPri : ℕ

/-- The tables `intWrRfTPI`, `intRdRfTPI` and `fpRdRfTPI` of a port: port numbers and priorities. -/
structure RfTables where
  intWrRfTPI : List (ℕ × ℕ)
  intRdRfTPI : List (ℕ × ℕ)
  fpRdRfTPI : List (ℕ × ℕ)

/-- One entry in the constructor of `IssueQue`; the second value is `wr_pri`. -/
def addRfSpec (t : RfTables × Option ℕ) (r : RfSpec) : Except String (RfTables × Option ℕ) :=
  let q := (r.typePortId, r.portPri)
  if r.portPri ≥ 4 then .error "assert(rf_portPri < (1 << 2))"
  else if r.typePortId ≥ 64 then .error "assert(rf_typeportid < (1 << 6))"
  else if r.isWr then
    if r.type ≠ .int then .error "Unknown write RF type"
    else if r.portPri > 1 then
      .error "Num of write arbitration RF port greater than 2 are not supported"
    else .ok ({ t.1 with intWrRfTPI := t.1.intWrRfTPI ++ [q] }, some r.portPri)
  else if t.2.any (· ≠ r.portPri) && decide (r.type ≠ .other) then
    .error "Found write RF priority with different other's priority"
  else
    match r.type with
    | .int => .ok ({ t.1 with intRdRfTPI := t.1.intRdRfTPI ++ [q] }, t.2)
    | .fp => .ok ({ t.1 with fpRdRfTPI := t.1.fpRdRfTPI ++ [q] }, t.2)
    | .other => .error "Unknown RF type"

def rfTables (rp : List RfSpec) : Except String RfTables :=
  (rp.foldlM addRfSpec (⟨[], [], []⟩, none)).map Prod.fst

/-- A physical register: `fixed` for a fixed mapping, `cached` if it is in the register cache. -/
structure RfReg where
  type : RfType
  fixed : Bool
  index : ℕ
  cached : Bool

structure SelectedInst where
  seqNum : ℕ
  lat : ℕ
  dests : List RfReg
  srcs : List RfReg

inductive RfPort
  | rd (bank typePortId : ℕ)
  | wr (typePortId : ℕ)
  deriving DecidableEq

structure RfClaim where
  seqNum : ℕ
  port : RfPort
  lat : ℕ
  pri : ℕ

/-- The write ports that `selectInst` claims. -/
def wrClaims (t : RfTables) (x : SelectedInst) : List RfClaim :=
  x.dests.zipIdx.filterMap fun d =>
    if d.1.fixed || decide (d.1.type ≠ .int) then none
    else (t.intWrRfTPI[d.2]?).map fun q => ⟨x.seqNum, .wr q.1, x.lat, q.2⟩

/-- The read ports that `selectInst` claims; a register of the cache needs none, and with
`enableMainRdpOpt` the second source then has the port of the first. -/
def rdClaims (banks : ℕ) (mainRdpOpt : Bool) (t : RfTables) (x : SelectedInst) : List RfClaim :=
  x.srcs.zipIdx.filterMap fun d =>
    if d.1.fixed then none
    else
      match d.1.type with
      | .int => (t.intRdRfTPI[d.2]?).bind fun own =>
          let borrows := mainRdpOpt && d.2 == 1 && x.srcs.head?.any (·.cached)
          let q := if borrows then t.intRdRfTPI.headD own else own
          if d.1.cached then none else some ⟨x.seqNum, .rd (d.1.index % banks) q.1, x.lat, q.2⟩
      | .fp => (t.fpRdRfTPI[d.2]?).map fun q => ⟨x.seqNum, .rd 0 q.1, x.lat, q.2⟩
      | .other => none

def cycleClaims (banks : ℕ) (mainRdpOpt : Bool) (sel : List (RfTables × SelectedInst)) :
    List RfClaim :=
  sel.flatMap fun s => wrClaims s.1 s.2 ++ rdClaims banks mainRdpOpt s.1 s.2

def RfPort.isRd : RfPort → Bool
  | .rd _ _ => true
  | .wr _ => false

/-- Claims of different instructions for a read port of a bank, or for a write port in one cycle. -/
def RfClaim.Contests (r t : RfClaim) : Prop :=
  t.seqNum ≠ r.seqNum ∧ t.port = r.port ∧ (r.port.isRd = true ∨ t.lat = r.lat)

instance (r t : RfClaim) : Decidable (r.Contests t) :=
  inferInstanceAs (Decidable (_ ∧ _ ∧ _))

theorem RfClaim.Contests.symm {r t : RfClaim} (h : r.Contests t) : t.Contests r :=
  ⟨h.1.symm, h.2.1.symm, h.2.2.imp (h.2.1 ▸ ·) Eq.symm⟩

/-- Who has which port, and which instructions are marked as failed. -/
structure Arbiter where
  occupancy : RfPort → Option RfClaim
  failed : List ℕ

namespace Arbiter

/-- A claim of a port; `stays t r` says that the occupant `t` keeps it. -/
def usePort (stays : RfClaim → RfClaim → Bool) (r : RfClaim) (s : Arbiter) : Arbiter :=
  match s.occupancy r.port with
  | none => { s with occupancy := Function.update s.occupancy r.port (some r) }
  | some t =>
    if stays t r then { s with failed := r.seqNum :: s.failed }
    else ⟨Function.update s.occupancy r.port (some r), t.seqNum :: s.failed⟩

def useRfRdPort : RfClaim → Arbiter → Arbiter :=
  usePort fun t r => decide (t.pri < r.pri)

def useRfWrPort : RfClaim → Arbiter → Arbiter :=
  usePort fun t r => decide (t.lat = r.lat ∧ t.pri < r.pri)

def use (s : Arbiter) (r : RfClaim) : Arbiter :=
  if r.port.isRd then s.useRfRdPort r else s.useRfWrPort r

def arbitrate (claims : List RfClaim) : Arbiter :=
  claims.foldl use ⟨fun _ => none, []⟩

/-- Another instruction with equal or better priority has asked for a port of `x`. -/
def Contested (claims : List RfClaim) (x : ℕ) : Prop :=
  ∃ r ∈ claims, r.seqNum = x ∧ ∃ t ∈ claims, r.Contests t ∧ t.pri ≤ r.pri

/-- Instructions that are not marked do not share a port. -/
def Excludes (claims : List RfClaim) (s : Arbiter) : Prop :=
  ∀ r ∈ claims, ∀ t ∈ claims, r.seqNum ∉ s.failed → t.seqNum ∉ s.failed → ¬r.Contests t

/-- Those that are marked had to be. -/
def Needed (claims : List RfClaim) (s : Arbiter) : Prop :=
  ∀ x ∈ s.failed, Contested claims x

/-- Claims for one port are those of different instructions, and writes through it have one
latency. -/
def Uniform (claims : List RfClaim) : Prop :=
  claims.Pairwise fun r t => t.port = r.port → r.Contests t

instance (claims : List RfClaim) : Decidable (Uniform claims) :=
  inferInstanceAs (Decidable (Pairwise _ claims))

/-- An occupant has claimed its port, whoever is not marked has all ports it claimed, and with
uniform claims whoever is marked had to be. -/
structure ArbInv (claims : List RfClaim) (s : Arbiter) : Prop where
  occupied : ∀ p t, s.occupancy p = some t → t ∈ claims ∧ t.port = p
  held : ∀ r ∈ claims, r.seqNum ∈ s.failed ∨
    ∃ t, s.occupancy r.port = some t ∧ t.seqNum = r.seqNum
  lost : Uniform claims → ∀ x ∈ s.failed, Contested claims x

variable {claims : List RfClaim} {s : Arbiter} {r t : RfClaim}

theorem Contested.snoc {x : ℕ} (h : Contested claims x) : Contested (claims ++ [r]) x := by
  obtain ⟨r, hr, hx, t, ht, hc⟩ := h
  exact ⟨r, mem_append_left _ hr, hx, t, mem_append_left _ ht, hc⟩

theorem Uniform.of_snoc (h : Uniform (claims ++ [r])) :
    Uniform claims ∧ ∀ t ∈ claims, r.port = t.port → t.Contests r := by
  obtain ⟨hold, -, hnew⟩ := pairwise_append.1 h
  exact ⟨hold, fun t ht => hnew t ht r (mem_singleton_self r)⟩

theorem ArbInv.usePort (h : ArbInv claims s) {stays : RfClaim → RfClaim → Bool}
    (hstays : ∀ t, stays t r = true → t.pri ≤ r.pri)
    (hyields : ∀ t, stays t r = false → r.Contests t → r.pri ≤ t.pri) :
    ArbInv (claims ++ [r]) (s.usePort stays r) := by
  have hold {x : RfClaim} (hx : x ∈ claims) : x ∈ claims ++ [r] := mem_append_left _ hx
  have hnew : r ∈ claims ++ [r] := by simp
  have hset (p : RfPort) (u : RfClaim)
      (hu : update s.occupancy r.port (some r) p = some u) :
      u ∈ claims ++ [r] ∧ u.port = p := by
    by_cases hp : p = r.port
    · subst hp
      obtain rfl : r = u := by simpa using hu
      exact ⟨hnew, rfl⟩
    · rw [update_of_ne hp] at hu
      exact (h.occupied p u hu).imp_left hold
  have hlost (hu : Uniform (claims ++ [r])) (x : ℕ) (hx : x ∈ s.failed) :
      Contested (claims ++ [r]) x := (h.lost hu.of_snoc.1 x hx).snoc
  unfold Arbiter.usePort
  cases hocc : s.occupancy r.port with
  | none =>
    refine ⟨hset, ?_, hlost⟩
    simp only [forall_mem_append, forall_mem_singleton]
    refine ⟨fun x hx => (h.held x hx).imp_right ?_, .inr ⟨r, by simp⟩⟩
    rintro ⟨u, hu, hseq⟩
    have hp : x.port ≠ r.port := by
      intro hp
      rw [hp, hocc] at hu
      cases hu
    exact ⟨u, by rwa [update_of_ne hp], hseq⟩
  | some t =>
    have ht := h.occupied _ t hocc
    have hcon (hu : Uniform (claims ++ [r])) : t.Contests r := hu.of_snoc.2 t ht.1 ht.2.symm
    dsimp only
    split_ifs with hstay
    · refine ⟨fun p u hu => (h.occupied p u hu).imp_left hold, ?_, fun hu => ?_⟩
      · simp only [forall_mem_append, forall_mem_singleton]
        exact ⟨fun x hx => (h.held x hx).imp_left (mem_cons_of_mem _), .inl mem_cons_self⟩
      · rw [forall_mem_cons]
        exact ⟨⟨r, hnew, rfl, t, hold ht.1, (hcon hu).symm, hstays t hstay⟩, hlost hu⟩
    · refine ⟨hset, ?_, fun hu => ?_⟩
      · simp only [forall_mem_append, forall_mem_singleton]
        refine ⟨fun x hx => ?_, .inr ⟨r, by simp⟩⟩
        rcases h.held x hx with hf | ⟨u, hu, hseq⟩
        · exact .inl (mem_cons_of_mem _ hf)
        · by_cases hp : x.port = r.port
          · rw [hp, hocc] at hu
            cases hu
            exact .inl (hseq ▸ mem_cons_self)
          · exact .inr ⟨u, by rwa [update_of_ne hp], hseq⟩
      · rw [forall_mem_cons]
        have hpri := hyields t (by simpa using hstay) (hcon hu).symm
        exact ⟨⟨t, hold ht.1, rfl, r, hnew, hcon hu, hpri⟩, hlost hu⟩

theorem ArbInv.use (h : ArbInv claims s) (r : RfClaim) : ArbInv (claims ++ [r]) (s.use r) := by
  unfold Arbiter.use
  split_ifs with hrd
  · refine h.usePort (fun t ht => ?_) fun t ht _ => ?_
    · exact Nat.le_of_lt (of_decide_eq_true ht)
    · exact Nat.le_of_not_lt (of_decide_eq_false ht)
  · refine h.usePort (fun t ht => ?_) fun t ht hc => ?_
    · exact Nat.le_of_lt (of_decide_eq_true ht).2
    · exact Nat.le_of_not_lt fun hlt => of_decide_eq_false ht ⟨hc.2.2.resolve_left hrd, hlt⟩

theorem arbInv_arbitrate (claims : List RfClaim) : ArbInv claims (arbitrate claims) := by
  induction claims using List.reverseRecOn with
  | nil => exact ⟨by simp [arbitrate], by simp, by simp [arbitrate]⟩
  | append_singleton claims r ih =>
    rw [arbitrate, foldl_append]
    exact ih.use r

/-- Two instructions whose results are due in the same cycle, on ports with the write port zero and
different priorities; they read through different ports. -/
def twoPriorities : List (RfTables × SelectedInst) :=
  [(⟨[(0, 1)], [(0, 1)], []⟩, ⟨1, 1, [⟨.int, false, 8, false⟩], [⟨.int, false, 4, false⟩]⟩),
    (⟨[(0, 0)], [(1, 0)], []⟩, ⟨2, 1, [⟨.int, false, 9, false⟩], [⟨.int, false, 5, false⟩]⟩)]

/-- Two instructions on ports with the write port zero; their results are due two cycles apart. -/
def twoWrites : List (RfTables × SelectedInst) :=
  [(⟨[(0, 0)], [], []⟩, ⟨1, 1, [⟨.int, false, 8, false⟩], []⟩),
    (⟨[(0, 0)], [], []⟩, ⟨2, 3, [⟨.int, false, 9, false⟩], []⟩)]

end Arbiter
end Gem5
