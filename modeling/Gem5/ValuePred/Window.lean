import Gem5.Decode.Conserve
import Gem5.Fusion.AluLoad
import Gem5.Fusion.Chain
import Gem5.Fusion.SeqLoad

/-!
# The in-flight window of the value predictor

The stride predictor counts, for every pc, the loads that were fetched and have not committed.
Fetch adds a load under its own pc.  Commit removes an instruction under the pc of the instruction
that commits, and what commits may be a fused one: it counts as one load, at the pc of its first
part.  So the count of an address computation that was fused with a load is taken down though it
was never taken up, and of two fused loads only the first is removed.  The threads share one window.

The prediction itself and its tables are left out.
-/

namespace Gem5
open List Function DynInst

/-! ### The window -/

structure InflightWindow where
  windows : Addr → ℕ
  windowActiveCount : ℕ
  lastSeqNo : ℕ

namespace InflightWindow
def empty : InflightWindow := ⟨fun _ => 0, 0, 0⟩

def addToInflightWindow (w : InflightWindow) (pc : Addr) : InflightWindow :=
  { w with
    windows := Function.update w.windows pc (w.windows pc + 1)
    windowActiveCount := w.windowActiveCount + 1 }

/-- A key whose count falls to zero is erased: a key is there exactly if its count is positive. -/
def removeFromWindow (w : InflightWindow) (pc : Addr) (seqNo : ℕ) :
    Except String InflightWindow :=
  if seqNo ≤ w.lastSeqNo then .ok w
  else if w.windowActiveCount = 0 then .error "assert(windowActiveCount >= 0)"
  else if w.windows pc = 0 then .error "assert(windows.count(key))"
  else .ok { w with
    windows := Function.update w.windows pc (w.windows pc - 1)
    windowActiveCount := w.windowActiveCount - 1 }

def squash (_ : InflightWindow) (seqNo : ℕ) : InflightWindow := ⟨fun _ => 0, 0, seqNo⟩

end InflightWindow

open InflightWindow

/-! ### Loads -/

section
variable (lr : OtherInst → Bool)

/-- `lr` says which instructions outside the scalar classes are load-reserved. -/
def StaticInst.isLoadReserved : StaticInst → Bool
  | .scalar _ => false
  | .other o => lr o

def Inst.canLVP (i : Inst) : Bool :=
  i.flags.isLoad && !i.flags.isVector && !i.staticInst.isLoadReserved lr

def DynInst.canLVP : DynInst → Bool
  | .plain i => i.canLVP lr
  | .fused _ f => f.flags.isLoad && !f.flags.isVector

def loadsOf (l : List Inst) : Multiset (ℕ × Addr) :=
  ((l.filter (·.canLVP lr)).map fun i => (i.seqNum, i.getPC) : List (ℕ × Addr))

def DynInst.loads (d : DynInst) : Multiset (ℕ × Addr) := loadsOf lr d.parts

@[simp] theorem loadsOf_nil : loadsOf lr [] = 0 := rfl

theorem loadsOf_append (l l' : List Inst) :
    loadsOf lr (l ++ l') = loadsOf lr l + loadsOf lr l' := by
  simp [loadsOf]

theorem loadsOf_cons (i : Inst) (l : List Inst) :
    loadsOf lr (i :: l) = loadsOf lr [i] + loadsOf lr l := loadsOf_append lr [i] l

theorem loadsOf_perm {l l' : List Inst} (h : l.Perm l') : loadsOf lr l = loadsOf lr l' :=
  Multiset.coe_eq_coe.2 ((h.filter _).map _)

theorem loads_setPred (d : DynInst) (taken : Bool) (targ : PCState) :
    (d.setPred taken targ).loads lr = d.loads lr := by
  cases d with
  | plain i =>
    have hcan : ({ i with predTaken := taken, predPC := targ } : Inst).canLVP lr = i.canLVP lr :=
      rfl
    simp only [loads, setPred, parts, loadsOf]
    by_cases h : i.canLVP lr = true
    · rw [filter_cons_of_pos (hcan.trans h), filter_cons_of_pos h]
      rfl
    · rw [filter_cons_of_neg (by rw [hcan]; exact h), filter_cons_of_neg h]
  | fused info f => rfl

theorem loadsOf_flatMap (l : List DynInst) :
    loadsOf lr (l.flatMap parts) = (l.map (loads lr)).sum := by
  induction l with
  | nil => rfl
  | cons d l ih =>
    rw [flatMap_cons, loadsOf_append, ih, map_cons, sum_cons]
    rfl
end

/-! ### The pipeline -/

/-- The pipeline as the window sees it: what was fetched and not decoded, what was decoded and not
committed, the number of the last fetched instruction, and the loads that were fetched after the
last squash and have not committed, alone or in a fused instruction. -/
structure VpPipeline where
  window : InflightWindow
  buffer : List Inst
  rob : List DynInst
  lastFetched : ℕ
  outstanding : Multiset (ℕ × Addr)

/-- What can happen; a decode has its configuration, time, return addresses and fusion window. -/
inductive VpEvent
  | fetch (i : Inst)
  | decode (c : DecodeConfig) (now : ℕ) (ras : DynInst → Addr) (w : IgnoreWindow)
  | commit
  | squash (seqNo : ℕ)

inductive VpError
  | decode (e : String)
  | window (e : String)

namespace VpPipeline
def empty : VpPipeline := ⟨.empty, [], [], 0, 0⟩

def commitHead (lr : OtherInst → Bool) (st : VpPipeline) (d : DynInst) (rest : List DynInst) :
    Except VpError VpPipeline :=
  let out :=
    if st.window.lastSeqNo < d.info.seqNum then st.outstanding - d.loads lr else st.outstanding
  if d.canLVP lr then
    match st.window.removeFromWindow d.getPC d.info.seqNum with
    | .error e => .error (.window e)
    | .ok w => .ok { st with window := w, rob := rest, outstanding := out }
  else .ok { st with rob := rest, outstanding := out }

def fetch (lr : OtherInst → Bool) (st : VpPipeline) (i : Inst) : VpPipeline :=
  if i.canLVP lr then
    { st with
      window := st.window.addToInflightWindow i.getPC
      buffer := st.buffer ++ [i]
      lastFetched := i.seqNum
      outstanding := (i.seqNum, i.getPC) ::ₘ st.outstanding }
  else { st with buffer := st.buffer ++ [i], lastFetched := i.seqNum }

def step (lr : OtherInst → Bool) (st : VpPipeline) : VpEvent → Except VpError VpPipeline
  | .fetch i => .ok (st.fetch lr i)
  | .decode c now ras w =>
    match decodeInsts c now ras w st.buffer with
    | .error e => .error (.decode e)
    | .ok r => .ok { st with buffer := r.pending, rob := st.rob ++ r.fusionInst }
  | .commit =>
    match st.rob with
    | [] => .ok st
    | d :: rest => st.commitHead lr d rest
  | .squash s =>
    -- whatever is not in the reorder buffer yet is younger than `s`
    .ok { st with
      window := st.window.squash s
      buffer := []
      rob := st.rob.filter (·.info.seqNum ≤ s)
      outstanding := 0 }

def exec (lr : OtherInst → Bool) : List VpEvent → VpPipeline → Except VpError VpPipeline
  | [], st => .ok st
  | e :: evs, st =>
    match st.step lr e with
    | .error err => .error err
    | .ok st' => exec lr evs st'

/-- Instructions are fetched with increasing numbers, and a squash is at a number that was
fetched. -/
def Allowed (st : VpPipeline) : VpEvent → Prop
  | .fetch i => st.lastFetched < i.seqNum
  | .squash s => s ≤ st.lastFetched
  | .decode .. | .commit => True

def AllAllowed (lr : OtherInst → Bool) : List VpEvent → VpPipeline → Prop
  | [], _ => True
  | e :: evs, st => st.Allowed e ∧ ∀ st', st.step lr e = .ok st' → AllAllowed lr evs st'

structure Books (st : VpPipeline) : Prop where
  counts : ∀ a, st.window.windows a = (st.outstanding.map Prod.snd).count a
  active : st.window.windowActiveCount = st.outstanding.card

end VpPipeline

/-- What is removed when the instruction commits is what was added when its parts were fetched. -/
def DynInst.Accounted (lr : OtherInst → Bool) (d : DynInst) : Prop :=
  (d.loads lr).map Prod.snd = if d.canLVP lr then {d.getPC} else 0

theorem DynInst.accounted_plain (lr : OtherInst → Bool) (i : Inst) : (plain i).Accounted lr := by
  unfold Accounted loads loadsOf parts canLVP
  by_cases h : i.canLVP lr = true
  · simp only [h, filter_cons_of_pos]
    rfl
  · simp [h]

variable (lr : OtherInst → Bool) (info : DynInfo) {f : FusionInst} {i : Inst}

theorem DynInst.accounted_fused (hparts : ∀ i ∈ f.parts, i.canLVP lr = false)
    (hf : f.flags.isLoad = false) : (fused info f).Accounted lr := by
  have hnone : f.parts.filter (·.canLVP lr) = [] := by
    rw [filter_eq_nil_iff]
    intro i hi
    simp [hparts i hi]
  simp [Accounted, loads, loadsOf, parts, canLVP, hnone, hf]

/-! ### What decode does to the loads -/

theorem decodeInsts_loads {c : DecodeConfig} {now : ℕ} {ras : DynInst → Addr} {w : IgnoreWindow}
    {buffer : List Inst} {r : DecodeState} (h : decodeInsts c now ras w buffer = .ok r) :
    loadsOf lr r.pending + (r.fusionInst.map (loads lr)).sum ≤ loadsOf lr buffer ∧
    (r.fusionInst.map (·.info.seqNum) ++ r.pending.map (·.seqNum)).Sublist
      (buffer.map (·.seqNum)) := by
  have hinv : DecodeInv c now (vecDecodeLimit buffer) (fun _ => True) (fun vec pending =>
      loadsOf lr pending + (vec.map (loads lr)).sum ≤ loadsOf lr buffer ∧
      (vec.map (·.info.seqNum) ++ pending.map (·.seqNum)).Sublist (buffer.map (·.seqNum))) := by
    refine ⟨?_, ?_⟩
    · rintro vec inst pending - ⟨hloads, hnums⟩
      refine ⟨le_trans ?_ hloads, Sublist.trans ?_ hnums⟩
      · rw [loadsOf_cons]
        gcongr
        exact Multiset.le_add_left _ _
      · exact (sublist_cons_self _ _).append_left _
    · rintro s inst pending p t q - ha ⟨hloads, hnums⟩
      have hby := placeInst_placedBy ha.place
      obtain ⟨taken, targ, hlist⟩ := ha.fusionInst
      obtain ⟨consumed, hsplit, -, hperm, -⟩ := hby.parts
      have hnew : (t.fusionInst.map (loads lr)).sum =
          (s.fusionInst.map (loads lr)).sum + loadsOf lr consumed := by
        have hset : t.fusionInst.map (loads lr) =
            (p.before ++ p.inst :: p.gap).map (loads lr) := by
          rw [hlist]
          simp only [map_append, map_cons, loads_setPred]
        rw [hset, ← loadsOf_flatMap, loadsOf_perm lr hperm, loadsOf_append, loadsOf_flatMap]
      have hseq : t.fusionInst.map (·.info.seqNum) =
          (p.before ++ p.inst :: p.gap).map (·.info.seqNum) := by
        rw [hlist]
        simp only [map_append, map_cons, seqNum_setPred]
      refine ⟨?_, ?_⟩
      · rw [hsplit, loadsOf_append] at hloads
        rw [hnew]
        calc loadsOf lr p.pending + ((s.fusionInst.map (loads lr)).sum + loadsOf lr consumed)
            = loadsOf lr consumed + loadsOf lr p.pending +
                (s.fusionInst.map (loads lr)).sum := by
              rw [add_comm (s.fusionInst.map (loads lr)).sum, ← add_assoc,
                add_comm (loadsOf lr p.pending)]
          _ ≤ loadsOf lr buffer := hloads
      · rw [hseq]
        exact hby.seqNums.trans hnums
  have hstart : loadsOf lr buffer + (([] : List DynInst).map (loads lr)).sum ≤
      loadsOf lr buffer ∧ ((([] : List DynInst).map (·.info.seqNum)) ++
        buffer.map (·.seqNum)).Sublist (buffer.map (·.seqNum)) :=
    ⟨by simp, Sublist.refl _⟩
  obtain ⟨rest, ⟨hloads, hnums⟩, hrest⟩ := hinv.iter_pending (s := .start w buffer) hstart rfl
    (fun _ _ => trivial) h
  rw [hrest]
  split_ifs
  · refine ⟨le_trans ?_ hloads, Sublist.trans ?_ hnums⟩
    · rw [loadsOf_nil, zero_add]
      exact Multiset.le_add_left _ _
    · exact Sublist.append_left (nil_sublist _) _
  · exact ⟨hloads, hnums⟩

/-! ### The invariant -/

namespace VpPipeline
variable {lr : OtherInst → Bool}

/-- The loads of the instructions in the reorder buffer that are younger than the last squash. -/
def robLoads (lr : OtherInst → Bool) (last : ℕ) (rob : List DynInst) : Multiset (ℕ × Addr) :=
  ((rob.filter (last < ·.info.seqNum)).map (DynInst.loads lr)).sum

structure Inv (lr : OtherInst → Bool) (st : VpPipeline) : Prop where
  loads : loadsOf lr st.buffer + robLoads lr st.window.lastSeqNo st.rob ≤ st.outstanding
  young : ∀ i ∈ st.buffer, st.window.lastSeqNo < i.seqNum
  last : st.window.lastSeqNo ≤ st.lastFetched

theorem inv_empty : Inv lr empty := ⟨le_rfl, by simp [empty], le_rfl⟩

variable {st st' : VpPipeline} {d : DynInst} {rest : List DynInst} {e : VpEvent}
  {evs : List VpEvent}

theorem Inv.fetch (h : Inv lr st) {i : Inst} (hi : st.lastFetched < i.seqNum) :
    Inv lr (st.fetch lr i) := by
  have hlast := h.last
  have hyoung : ∀ j ∈ st.buffer ++ [i], st.window.lastSeqNo < j.seqNum := by
    intro j hj
    rcases mem_append.1 hj with hj | hj
    · exact h.young j hj
    · rw [mem_singleton.1 hj]
      omega
  unfold VpPipeline.fetch
  split_ifs with hcan
  · have hone : loadsOf lr [i] = {(i.seqNum, i.getPC)} := by
      simp [loadsOf, hcan]
    refine ⟨?_, hyoung, by dsimp only [addToInflightWindow]; omega⟩
    rw [loadsOf_append, hone, add_right_comm, ← Multiset.singleton_add, add_comm]
    exact add_le_add_right h.loads _
  · have hnone : loadsOf lr [i] = 0 := by
      simp [loadsOf, hcan]
    refine ⟨?_, hyoung, by dsimp only; omega⟩
    rw [loadsOf_append, hnone, add_zero]
    exact h.loads

theorem Inv.decode (h : Inv lr st) {c : DecodeConfig} {now : ℕ} {ras : DynInst → Addr}
    {w : IgnoreWindow} {r : DecodeState} (hr : decodeInsts c now ras w st.buffer = .ok r) :
    Inv lr { st with buffer := r.pending, rob := st.rob ++ r.fusionInst } := by
  obtain ⟨hloads, hnums⟩ := decodeInsts_loads lr hr
  have hnew : ∀ k, k ∈ r.fusionInst.map (·.info.seqNum) ++ r.pending.map (·.seqNum) →
      st.window.lastSeqNo < k := by
    intro k hk
    obtain ⟨i, hi, rfl⟩ := mem_map.1 (hnums.subset hk)
    exact h.young i hi
  have hall : r.fusionInst.filter (st.window.lastSeqNo < ·.info.seqNum) = r.fusionInst := by
    rw [filter_eq_self]
    intro d hd
    exact decide_eq_true (hnew _ (mem_append_left _ (mem_map_of_mem hd)))
  refine ⟨?_, ?_, h.last⟩
  · have hrob : robLoads lr st.window.lastSeqNo (st.rob ++ r.fusionInst) =
        robLoads lr st.window.lastSeqNo st.rob + (r.fusionInst.map (DynInst.loads lr)).sum := by
      rw [robLoads, filter_append, hall, map_append, sum_append]
      rfl
    rw [hrob, add_comm (robLoads lr st.window.lastSeqNo st.rob), ← add_assoc]
    exact (add_le_add_left hloads _).trans h.loads
  · intro i hi
    exact hnew _ (mem_append_right _ (mem_map_of_mem hi))

theorem removeFromWindow_last {w w' : InflightWindow} {pc : Addr} {seqNo : ℕ}
    (h : w.removeFromWindow pc seqNo = .ok w') : w'.lastSeqNo = w.lastSeqNo := by
  unfold removeFromWindow at h
  split_ifs at h <;> cases h <;> rfl

def outAfter (lr : OtherInst → Bool) (st : VpPipeline) (d : DynInst) : Multiset (ℕ × Addr) :=
  if st.window.lastSeqNo < d.info.seqNum then st.outstanding - d.loads lr else st.outstanding

theorem Inv.head (h : Inv lr st) (hrob : st.rob = d :: rest) :
    (st.window.lastSeqNo < d.info.seqNum → d.loads lr ≤ st.outstanding) ∧
    loadsOf lr st.buffer + robLoads lr st.window.lastSeqNo rest ≤ st.outAfter lr d := by
  have hloads := h.loads
  rw [hrob] at hloads
  unfold outAfter
  by_cases hd : st.window.lastSeqNo < d.info.seqNum
  · have hcons : robLoads lr st.window.lastSeqNo (d :: rest) =
        d.loads lr + robLoads lr st.window.lastSeqNo rest := by
      rw [robLoads, filter_cons_of_pos (by simpa using hd), map_cons, sum_cons]
      rfl
    rw [hcons, add_left_comm] at hloads
    rw [if_pos hd]
    exact ⟨fun _ => (Multiset.le_add_right _ _).trans hloads, le_tsub_of_add_le_left hloads⟩
  · have hcons : robLoads lr st.window.lastSeqNo (d :: rest) =
        robLoads lr st.window.lastSeqNo rest := by
      rw [robLoads, filter_cons_of_neg (by simpa using hd)]
      rfl
    rw [hcons] at hloads
    rw [if_neg hd]
    exact ⟨fun h => absurd h hd, hloads⟩

theorem Inv.commit (h : Inv lr st) (hrob : st.rob = d :: rest)
    (hstep : st.commitHead lr d rest = .ok st') : Inv lr st' := by
  obtain ⟨-, hrest⟩ := h.head hrob
  unfold commitHead at hstep
  by_cases hcan : d.canLVP lr = true
  · rw [if_pos hcan] at hstep
    cases hw : st.window.removeFromWindow d.getPC d.info.seqNum with
    | error e =>
      rw [hw] at hstep
      cases hstep
    | ok w =>
      rw [hw] at hstep
      cases hstep
      have hlast := removeFromWindow_last hw
      refine ⟨?_, ?_, ?_⟩
      · rw [hlast]
        exact hrest
      · rw [hlast]
        exact h.young
      · rw [hlast]
        exact h.last
  · rw [if_neg hcan] at hstep
    cases hstep
    exact ⟨hrest, h.young, h.last⟩

theorem Inv.step (h : Inv lr st) (he : st.Allowed e) (hstep : st.step lr e = .ok st') :
    Inv lr st' := by
  cases e with
  | fetch i =>
    cases hstep
    exact h.fetch he
  | decode c now ras w =>
    rw [VpPipeline.step] at hstep
    cases hr : decodeInsts c now ras w st.buffer with
    | error e =>
      rw [hr] at hstep
      cases hstep
    | ok r =>
      rw [hr] at hstep
      cases hstep
      exact h.decode hr
  | commit =>
    rw [VpPipeline.step] at hstep
    cases hrob : st.rob with
    | nil =>
      rw [hrob] at hstep
      cases hstep
      exact h
    | cons d rest =>
      rw [hrob] at hstep
      exact h.commit hrob hstep
  | squash s =>
    cases hstep
    refine ⟨?_, by simp, he⟩
    have hnone : (st.rob.filter (·.info.seqNum ≤ s)).filter (s < ·.info.seqNum) = [] := by
      rw [filter_eq_nil_iff]
      intro d hd
      have := (mem_filter.1 hd).2
      simp only [decide_eq_true_eq] at this ⊢
      omega
    show loadsOf lr [] + robLoads lr s _ ≤ 0
    rw [robLoads, hnone]
    exact le_rfl

/-! ### The books -/

theorem books_empty : Books empty := ⟨fun _ => rfl, rfl⟩

theorem Books.fetch (h : Books st) (i : Inst) : Books (st.fetch lr i) := by
  unfold VpPipeline.fetch
  split_ifs
  · refine ⟨?_, ?_⟩
    · intro a
      dsimp only [addToInflightWindow]
      rw [Multiset.map_cons, Multiset.count_cons]
      by_cases ha : a = i.getPC
      · rw [ha, update_self, if_pos rfl, h.counts]
      · rw [update_of_ne ha, if_neg ha, h.counts, add_zero]
    · dsimp only [addToInflightWindow]
      rw [Multiset.card_cons, h.active]
  · exact ⟨h.counts, h.active⟩

theorem count_out (h : Books st) (hle : d.loads lr ≤ st.outstanding) (a : Addr) :
    st.window.windows a =
      ((d.loads lr).map Prod.snd).count a +
        ((st.outstanding - d.loads lr).map Prod.snd).count a := by
  rw [h.counts, ← Multiset.count_add, ← Multiset.map_add, add_tsub_cancel_of_le hle]

theorem card_out (h : Books st) (hle : d.loads lr ≤ st.outstanding) : st.window.windowActiveCount =
      (d.loads lr).card + (st.outstanding - d.loads lr).card := by
  rw [h.active, ← Multiset.card_add, add_tsub_cancel_of_le hle]

theorem commitHead_old (hold : ¬st.window.lastSeqNo < d.info.seqNum) :
    st.commitHead lr d rest = .ok { st with rob := rest } := by
  have hret : st.window.removeFromWindow d.getPC d.info.seqNum = .ok st.window := by
    rw [removeFromWindow, if_pos (Nat.le_of_not_lt hold)]
  unfold commitHead
  rw [hret]
  split_ifs <;> rfl

theorem commitHead_load (hnew : st.window.lastSeqNo < d.info.seqNum) (hcan : d.canLVP lr = true)
    (hactive : st.window.windowActiveCount ≠ 0) (hpc : st.window.windows d.getPC ≠ 0) :
    st.commitHead lr d rest = .ok { st with
      window := { st.window with
        windows := update st.window.windows d.getPC (st.window.windows d.getPC - 1)
        windowActiveCount := st.window.windowActiveCount - 1 }
      rob := rest
      outstanding := st.outstanding - d.loads lr } := by
  have hret : ¬d.info.seqNum ≤ st.window.lastSeqNo := Nat.not_le.2 hnew
  unfold commitHead
  rw [if_pos hcan, if_pos hnew, removeFromWindow, if_neg hret, if_neg hactive, if_neg hpc]

theorem commitHead_other (hnew : st.window.lastSeqNo < d.info.seqNum) (hcan : ¬d.canLVP lr = true) :
    st.commitHead lr d rest =
      .ok { st with rob := rest, outstanding := st.outstanding - d.loads lr } := by
  unfold commitHead
  rw [if_neg hcan, if_pos hnew]

theorem commitHead_ne_decode (d : DynInst) (rest : List DynInst) (e : String) :
    st.commitHead lr d rest ≠ .error (.decode e) := by
  unfold commitHead
  by_cases hcan : d.canLVP lr = true
  · rw [if_pos hcan]
    cases st.window.removeFromWindow d.getPC d.info.seqNum with
    | error err =>
      intro h
      cases h
    | ok w =>
      intro h
      cases h
  · rw [if_neg hcan]
    intro h
    cases h

section
variable (h : Books st) (hinv : Inv lr st) (hrob : st.rob = d :: rest)
include h hinv hrob

theorem Books.commit (hacc : st.window.lastSeqNo < d.info.seqNum → d.Accounted lr) :
    ∃ st', st.commitHead lr d rest = .ok st' ∧ Books st' := by
  by_cases hnew : st.window.lastSeqNo < d.info.seqNum
  · have hle := (hinv.head hrob).1 hnew
    have hcount := count_out h hle
    have hcard := card_out h hle
    have hacc := hacc hnew
    rw [hacc] at hcount
    rw [← Multiset.card_map Prod.snd (d.loads lr), hacc] at hcard
    by_cases hcan : d.canLVP lr = true
    · rw [if_pos hcan] at hcount hcard
      simp only [Multiset.card_singleton] at hcard
      have hpc : st.window.windows d.getPC ≠ 0 := by
        rw [hcount, Multiset.count_singleton_self]
        omega
      refine ⟨_, commitHead_load hnew hcan (by omega) hpc, ?_, ?_⟩
      · intro a
        dsimp only
        by_cases ha : a = d.getPC
        · rw [ha, update_self, hcount, Multiset.count_singleton_self]
          omega
        · rw [update_of_ne ha, hcount, Multiset.count_singleton, if_neg ha, zero_add]
      · dsimp only
        omega
    · rw [if_neg hcan] at hcount hcard
      refine ⟨_, commitHead_other hnew hcan, ?_, ?_⟩
      · intro a
        rw [hcount, Multiset.count_zero, zero_add]
      · rw [hcard, Multiset.card_zero, zero_add]
  · exact ⟨_, commitHead_old hnew, h.counts, h.active⟩

theorem accounted_of_books (hstep : st.commitHead lr d rest = .ok st') (h' : Books st')
    (hnew : st.window.lastSeqNo < d.info.seqNum) : d.Accounted lr := by
  have hle := (hinv.head hrob).1 hnew
  have hcount := count_out h hle
  ext a
  by_cases hcan : d.canLVP lr = true
  · have hret : ¬d.info.seqNum ≤ st.window.lastSeqNo := Nat.not_le.2 hnew
    have hactive : st.window.windowActiveCount ≠ 0 := by
      intro hzero
      simp [commitHead, hcan, removeFromWindow, hret, hzero] at hstep
    have hpc : st.window.windows d.getPC ≠ 0 := by
      intro hzero
      simp [commitHead, hcan, removeFromWindow, hret, hactive, hzero] at hstep
    rw [commitHead_load hnew hcan hactive hpc] at hstep
    cases hstep
    have hafter := h'.counts a
    dsimp only at hafter
    rw [if_pos hcan, Multiset.count_singleton]
    have hbefore := hcount a
    by_cases ha : a = d.getPC
    · subst ha
      rw [update_self] at hafter
      rw [if_pos rfl]
      omega
    · rw [update_of_ne ha] at hafter
      rw [if_neg ha]
      omega
  · rw [commitHead_other hnew hcan] at hstep
    cases hstep
    have hafter := h'.counts a
    have hbefore := hcount a
    dsimp only at hafter
    rw [if_neg hcan, Multiset.count_zero]
    omega
end

/-! ### Runs -/

/-- At every point of the run, no assertion of the window has failed and the books are right. -/
def Sound (lr : OtherInst → Bool) (evs : List VpEvent) (st : VpPipeline) : Prop :=
  ∀ evs', evs' <+: evs → (∀ e, exec lr evs' st ≠ .error (.window e)) ∧
    ∀ st', exec lr evs' st = .ok st' → Books st'

/-- Everything that commits in the run, and is younger than the last squash, is accounted for. -/
def CommitsAccounted (lr : OtherInst → Bool) (evs : List VpEvent) (st : VpPipeline) : Prop :=
  ∀ evs' st' d rest, evs' ++ [.commit] <+: evs → exec lr evs' st = .ok st' →
    st'.rob = d :: rest → st'.window.lastSeqNo < d.info.seqNum → d.Accounted lr

theorem exec_cons_ok (h : st.step lr e = .ok st') (evs : List VpEvent) :
    exec lr (e :: evs) st = exec lr evs st' := by
  rw [exec, h]

theorem sound_cons :
    Sound lr (e :: evs) st ↔ Books st ∧ (∀ err, st.step lr e ≠ .error (.window err)) ∧
      ∀ st', st.step lr e = .ok st' → Sound lr evs st' := by
  constructor
  · intro h
    refine ⟨(h [] nil_prefix).2 st rfl, ?_, ?_⟩
    · intro err herr
      apply (h [e] ⟨evs, rfl⟩).1 err
      rw [exec, herr]
    · intro st' hst evs' hpre
      have hcons : e :: evs' <+: e :: evs := by
        obtain ⟨l, rfl⟩ := hpre
        exact ⟨l, rfl⟩
      have := h (e :: evs') hcons
      rwa [exec_cons_ok hst] at this
  · rintro ⟨hbooks, herr, hrest⟩ evs' hpre
    cases evs' with
    | nil =>
      refine ⟨(fun e he => by cases he), ?_⟩
      intro st' hst
      cases hst
      exact hbooks
    | cons e' evs' =>
      obtain ⟨l, hl⟩ := hpre
      obtain ⟨rfl, htl⟩ := List.cons.inj hl
      cases hst : st.step lr e' with
      | error err =>
        rw [exec, hst]
        refine ⟨?_, fun st' h => by cases h⟩
        rintro e heq
        obtain rfl := Except.error.inj heq
        exact herr e hst
      | ok st' =>
        rw [exec_cons_ok hst]
        exact hrest st' hst evs' ⟨l, htl⟩

theorem commitsAccounted_cons : CommitsAccounted lr (e :: evs) st ↔
      (e = .commit → ∀ d rest, st.rob = d :: rest → st.window.lastSeqNo < d.info.seqNum →
        d.Accounted lr) ∧ ∀ st', st.step lr e = .ok st' → CommitsAccounted lr evs st' := by
  constructor
  · intro h
    refine ⟨?_, ?_⟩
    · rintro rfl d rest hrob hnew
      exact h [] st d rest ⟨evs, rfl⟩ rfl hrob hnew
    · intro st' hst evs' st'' d rest hpre hexec
      apply h (e :: evs') st'' d rest
      · obtain ⟨l, rfl⟩ := hpre
        exact ⟨l, rfl⟩
      · rwa [exec_cons_ok hst]
  · rintro ⟨hhead, hrest⟩ evs' st' d rest hpre hexec hrob hnew
    obtain ⟨l, hl⟩ := hpre
    cases evs' with
    | nil =>
      obtain ⟨rfl, -⟩ := List.cons.inj hl
      cases hexec
      exact hhead rfl d rest hrob hnew
    | cons e' evs' =>
      obtain ⟨rfl, htl⟩ := List.cons.inj hl
      rw [exec] at hexec
      cases hst : st.step lr e' with
      | error err =>
        rw [hst] at hexec
        cases hexec
      | ok st₁ =>
        rw [hst] at hexec
        exact hrest st₁ hst evs' st' d rest ⟨l, htl⟩ hexec hrob hnew

theorem Books.step (h : Books st) (lr : OtherInst → Bool) (he : e ≠ .commit) :
    (∀ err, st.step lr e ≠ .error (.window err)) ∧ ∀ st', st.step lr e = .ok st' → Books st' := by
  cases e with
  | fetch i =>
    refine ⟨(fun err herr => by cases herr), ?_⟩
    intro st' hst
    cases hst
    exact h.fetch i
  | decode c now ras w =>
    rw [VpPipeline.step]
    cases decodeInsts c now ras w st.buffer with
    | error err =>
      exact ⟨(fun err herr => by cases herr), fun st' hst => by cases hst⟩
    | ok r =>
      refine ⟨(fun err herr => by cases herr), ?_⟩
      intro st' hst
      cases hst
      exact ⟨h.counts, h.active⟩
  | commit => exact absurd rfl he
  | squash s =>
    refine ⟨(fun err herr => by cases herr), ?_⟩
    intro st' hst
    cases hst
    exact ⟨fun _ => rfl, rfl⟩

theorem sound_iff (hinv : Inv lr st) (hbooks : Books st) (hall : AllAllowed lr evs st) :
    Sound lr evs st ↔ CommitsAccounted lr evs st := by
  induction evs generalizing st with
  | nil =>
    constructor
    · rintro - evs' st' d rest hpre
      have hlen := hpre.length_le
      simp at hlen
    · intro _ evs' hpre
      obtain rfl := prefix_nil.1 hpre
      refine ⟨(fun e he => by cases he), ?_⟩
      intro st' hst
      cases hst
      exact hbooks
  | cons e evs ih =>
    obtain ⟨hallowed, htail⟩ := hall
    rw [sound_cons, commitsAccounted_cons]
    by_cases he : e = .commit
    · subst he
      cases hrob : st.rob with
      | nil =>
        have hstep : st.step lr .commit = .ok st := by
          rw [step, hrob]
        constructor
        · rintro ⟨-, -, hrest⟩
          refine ⟨(fun _ d rest h => by cases h), ?_⟩
          intro st' hst
          rw [hstep] at hst
          cases hst
          exact (ih hinv hbooks (htail _ hstep)).1 (hrest _ hstep)
        · rintro ⟨-, hrest⟩
          refine ⟨hbooks, fun err herr => ?_, ?_⟩
          · rw [hstep] at herr
            cases herr
          · intro st' hst
            rw [hstep] at hst
            cases hst
            exact (ih hinv hbooks (htail _ hstep)).2 (hrest _ hstep)
      | cons d rest =>
        have hstep : st.step lr .commit = st.commitHead lr d rest := by
          rw [step, hrob]
        constructor
        · rintro ⟨-, herr, hrest⟩
          cases hc : st.commitHead lr d rest with
          | error err =>
            cases err with
            | window err => exact absurd (hstep.trans hc) (herr err)
            | decode err => exact absurd hc (commitHead_ne_decode d rest err)
          | ok st' =>
            have hst := hstep.trans hc
            have hsound := hrest st' hst
            have hbooks' : Books st' := (hsound [] nil_prefix).2 st' rfl
            refine ⟨?_, ?_⟩
            · rintro - d' rest' heq hnew
              obtain ⟨rfl, rfl⟩ := List.cons.inj heq
              exact accounted_of_books hbooks hinv hrob hc hbooks' hnew
            · intro st'' hst''
              rw [hst] at hst''
              cases hst''
              exact (ih (hinv.commit hrob hc) hbooks' (htail _ hst)).1 hsound
        · rintro ⟨hacc, hrest⟩
          obtain ⟨st', hc, hbooks'⟩ := hbooks.commit hinv hrob (hacc rfl d rest rfl)
          have hst := hstep.trans hc
          refine ⟨hbooks, fun err herr => ?_, ?_⟩
          · rw [hst] at herr
            cases herr
          · intro st'' hst''
            rw [hst] at hst''
            cases hst''
            exact (ih (hinv.commit hrob hc) hbooks' (htail _ hst)).2 (hrest _ hst)
    · obtain ⟨herr, hkeep⟩ := hbooks.step lr he
      constructor
      · rintro ⟨-, -, hrest⟩
        refine ⟨fun h => absurd h he, ?_⟩
        intro st' hst
        exact (ih (hinv.step hallowed hst) (hkeep st' hst) (htail _ hst)).1 (hrest st' hst)
      · rintro ⟨-, hrest⟩
        refine ⟨hbooks, herr, ?_⟩
        intro st' hst
        exact (ih (hinv.step hallowed hst) (hkeep st' hst) (htail _ hst)).2 (hrest st' hst)

end VpPipeline

open VpPipeline

/-- **When the books of the value predictor are right.**  Through any interleaving of fetches,
decodes, commits and squashes, no assertion of the window fails and every count is the number of
outstanding loads of its pc, exactly if every instruction that commits in the run, and is younger
than the last squash, removes what its parts have added. -/
theorem books_iff (lr : OtherInst → Bool) (evs : List VpEvent) (hall : AllAllowed lr evs .empty) :
    Sound lr evs .empty ↔ CommitsAccounted lr evs .empty :=
  sound_iff inv_empty books_empty hall

def decodeAll : VpEvent := .decode .full 0 (fun _ => 0) .closed

/-- `lw x7, 0(x10)` -/
def lwX7 : Inst := .fetched 24 3 (.scalar ⟨.lw, 7, 10, 0, 0, Opcode.immOk_zero _⟩)

def shiftsAndLoad : List VpEvent :=
  [.fetch (.fetched 16 1 slliX5X6.staticInst), .fetch (.fetched 20 2 srliX5X5.staticInst),
    .fetch lwX7, decodeAll, .commit, .commit]

/-- Two shifts that are fused, and a load behind them: fetched, decoded and committed. -/
theorem shiftsAndLoad_sound :
    (∃ st f, exec (fun _ => false) (shiftsAndLoad.take 4) .empty = .ok st ∧
      st.rob = [f, .plain lwX7] ∧ f.isFusion = true ∧ lwX7.canLVP (fun _ => false) = true) ∧
    AllAllowed (fun _ => false) shiftsAndLoad .empty ∧
    Sound (fun _ => false) shiftsAndLoad .empty := by
  have hall : AllAllowed (fun _ => false) shiftsAndLoad .empty := by
    refine ⟨Nat.zero_lt_one, fun st₁ h₁ => ?_⟩
    cases h₁
    refine ⟨Nat.lt_add_one 1, fun st₂ h₂ => ?_⟩
    cases h₂
    exact ⟨Nat.lt_add_one 2, fun _ _ => ⟨trivial, fun _ _ => ⟨trivial, fun _ _ => ⟨trivial,
      fun _ _ => trivial⟩⟩⟩⟩
  refine ⟨⟨_, _, rfl, rfl, rfl, rfl⟩, hall, (books_iff (fun _ => false) _ hall).2 ?_⟩
  refine commitsAccounted_cons.2 ⟨nofun, fun st₁ h₁ => ?_⟩
  cases h₁
  refine commitsAccounted_cons.2 ⟨nofun, fun st₂ h₂ => ?_⟩
  cases h₂
  refine commitsAccounted_cons.2 ⟨nofun, fun st₃ h₃ => ?_⟩
  cases h₃
  refine commitsAccounted_cons.2 ⟨nofun, fun st₄ h₄ => ?_⟩
  cases h₄
  refine commitsAccounted_cons.2 ⟨?_, fun st₅ h₅ => ?_⟩
  · rintro - d rest hrob -
    obtain ⟨rfl, -⟩ := cons.inj hrob
    exact accounted_fused _ _ (by decide) rfl
  cases h₅
  refine commitsAccounted_cons.2 ⟨?_, ?_⟩
  · rintro - d rest hrob -
    obtain ⟨rfl, -⟩ := cons.inj hrob
    exact accounted_plain _ _
  · intro st₆ _ evs' st' d rest hpre
    have hlen := hpre.length_le
    simp at hlen

/-- `auipc x5, 4096` and `lbu x5, -8(x5)`, fused, commit as a load at the pc of the `auipc`, which
was never added to the window. -/
theorem far_load_fails :
    AllAllowed (fun _ => false) [.fetch auipcX5, .fetch lbuX5, decodeAll, .commit] .empty ∧
    exec (fun _ => false) [.fetch auipcX5, .fetch lbuX5, decodeAll, .commit] .empty =
      .error (.window "assert(windows.count(key))") := by
  refine ⟨⟨Nat.zero_lt_one, ?_⟩, rfl⟩
  intro st₁ h₁
  cases h₁
  exact ⟨Nat.one_lt_two, fun _ _ => ⟨trivial, fun _ _ => ⟨trivial, fun _ _ => trivial⟩⟩⟩

/-! ### Threads -/

/-- The loads of each thread that are in flight, oldest first. -/
structure LoadThreads (n : ℕ) where
  window : InflightWindow
  inflight : Fin n → List (ℕ × Addr)
  lastSeqNum : ℕ

/-- A fetch also has the number of instructions since the last load. -/
inductive LoadEvent (n : ℕ)
  | fetch (tid : Fin n) (pc : Addr) (between : ℕ)
  | commit (tid : Fin n)
  | squash (tid : Fin n) (seqNo : ℕ)

namespace LoadThreads
variable {n : ℕ} {s : LoadThreads n}

def empty : LoadThreads n := ⟨.empty, fun _ => [], 0⟩

def step (s : LoadThreads n) : LoadEvent n → Except String (LoadThreads n)
  | .fetch tid pc between =>
    let seqNum := s.lastSeqNum + between + 1
    .ok ⟨s.window.addToInflightWindow pc,
      update s.inflight tid (s.inflight tid ++ [(seqNum, pc)]), seqNum⟩
  | .commit tid =>
    match s.inflight tid with
    | [] => .ok s
    | load :: rest => do
      let window ← s.window.removeFromWindow load.2 load.1
      return { s with window, inflight := update s.inflight tid rest }
  | .squash tid seqNo =>
    .ok { s with
      window := s.window.squash seqNo
      inflight := update s.inflight tid ((s.inflight tid).filter (·.1 ≤ seqNo)) }

/-- The window counts the loads in flight that are younger than the last squash. -/
def Counts (s : LoadThreads n) : Prop :=
  ∀ tid, (s.inflight tid).countP (s.window.lastSeqNo.blt ·.1) ≤ s.window.windowActiveCount ∧
    ∀ pc, (s.inflight tid).countP (fun load => s.window.lastSeqNo.blt load.1 && load.2 == pc) ≤
      s.window.windows pc

theorem Counts.step [Subsingleton (Fin n)] (hs : s.Counts) (e : LoadEvent n) :
    ∃ t, s.step e = .ok t ∧ t.Counts := by
  cases e with
  | fetch tid pc between =>
    refine ⟨_, rfl, fun i => ?_⟩
    obtain rfl := Subsingleton.elim i tid
    obtain ⟨hlength, hcount⟩ := hs i
    simp only [addToInflightWindow, update_self, countP_append, countP_singleton]
    refine ⟨by split_ifs <;> omega, fun a => ?_⟩
    have := hcount a
    by_cases ha : a = pc
    · rw [ha, update_self, ← ha]
      split_ifs <;> omega
    · rw [update_of_ne ha, if_neg (by simp [Ne.symm ha])]
      exact this
  | commit tid =>
    obtain ⟨hlength, hcount⟩ := hs tid
    rw [LoadThreads.step]
    split
    · exact ⟨s, rfl, hs⟩
    · rename_i load rest hload
      simp only [hload, countP_cons] at hlength hcount
      by_cases hold : load.1 ≤ s.window.lastSeqNo
      · rw [removeFromWindow, if_pos hold]
        refine ⟨_, rfl, fun i => ?_⟩
        obtain rfl := Subsingleton.elim i tid
        simp only [update_self]
        exact ⟨Nat.le_of_add_right_le hlength, fun a => Nat.le_of_add_right_le (hcount a)⟩
      · have hpc := hcount load.2
        have hyoung : s.window.lastSeqNo.blt load.1 = true := by simpa using hold
        simp only [hyoung, Bool.true_and, beq_self_eq_true, if_true] at hlength hpc
        rw [removeFromWindow, if_neg hold, if_neg (by omega), if_neg (by omega)]
        refine ⟨_, rfl, fun i => ?_⟩
        obtain rfl := Subsingleton.elim i tid
        simp only [update_self]
        refine ⟨by omega, fun a => ?_⟩
        by_cases ha : a = load.2
        · rw [ha, update_self]
          omega
        · rw [update_of_ne ha]
          exact Nat.le_of_add_right_le (hcount a)
  | squash tid seqNo =>
    refine ⟨_, rfl, fun i => ?_⟩
    obtain rfl := Subsingleton.elim i tid
    simp only [InflightWindow.squash, update_self, Nat.le_zero, countP_eq_zero, mem_filter]
    simp +contextual

theorem Counts.run [Subsingleton (Fin n)] (es : List (LoadEvent n)) (hs : s.Counts) :
    ∃ t, es.foldlM LoadThreads.step s = .ok t := by
  induction es generalizing s with
  | nil => exact ⟨s, rfl⟩
  | cons e es ih =>
    obtain ⟨t, ht, hcounts⟩ := hs.step e
    rw [foldlM_cons, ht]
    exact ih hcounts

/-- **No count underflows** exactly if there is at most one thread. -/
theorem neverUnderflows_iff (n : ℕ) :
    (∀ es : List (LoadEvent n), ∃ s, es.foldlM step empty = .ok s) ↔ n ≤ 1 := by
  constructor
  · intro h
    by_contra hn
    obtain ⟨s, hs⟩ := h [.fetch ⟨1, by omega⟩ 0 0, .squash ⟨0, by omega⟩ 0, .commit ⟨1, by omega⟩]
    simp [step, empty, InflightWindow.empty, removeFromWindow, InflightWindow.squash] at hs
    cases hs
  · intro hn es
    have : Subsingleton (Fin n) := Fin.subsingleton_iff_le_one.2 hn
    refine Counts.run es fun _ => ?_
    exact ⟨Nat.zero_le _, fun _ => Nat.zero_le _⟩

/-- A squash of the first thread drops a load of the second, which then commits. -/
theorem other_thread_underflows :
    [.fetch 1 0 0, .squash 0 0, .commit 1].foldlM step (empty : LoadThreads 2) =
      .error "assert(windowActiveCount >= 0)" :=
  rfl

end LoadThreads
end Gem5
