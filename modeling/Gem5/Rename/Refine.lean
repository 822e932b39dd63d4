import Gem5.Rename.Machine

/-!
# Renaming refines sequential execution

A ghost register file holds, for every physical register in use, the value that it has once the
instruction that it was given to has executed.

A physical register is given out only if nothing refers to it (`RenameStage.RefInv`), so its ghost
value may be chosen anew.  The invariant is kept as long as instructions read sequential values, and
under the invariant an instruction does so exactly if what is folded into its sources fits.
-/

namespace Gem5
open List Function Bool RenameStage RenameMachine VirtRegId InFlight PhysRegFile
open RenameConfig IEOperand
open UndoLog (Staged rollback)

/-! ### Folded immediates -/

theorem toInt32_add (a b : ℤ) : toInt32 (toInt32 a + b) = toInt32 (a + b) := by
  simp only [toInt32, BitVec.ofInt_add, BitVec.ofInt_toInt]

variable {s : ℤ} {v : VirtRegId} {ghost pf : PhysRegFile} {p : PhysRegId} {n : ℕ}

theorem fits_of_small (hlo : -2048 ≤ s) (hhi : s < 2048) : Fits s := by
  have h : toInt32 s = s := by
    rw [toInt32, BitVec.toInt_ofInt]
    exact Int.bmod_eq_of_le (by omega) (by omega)
  rw [Fits, h]

/-- The sum `s` is what is folded into the mapping. -/
def VirtRegId.Folded (v : VirtRegId) (s : ℤ) : Prop :=
  v.ieop = none ∧ s = 0 ∨ v.ieop = some (.ofAdd s)

theorem PhysRegFile.getReg_eq_correct (pf : PhysRegFile) (v : VirtRegId) :
    pf.getReg v = v.correct (pf.getReg (.of v.phyReg)) := rfl

theorem VirtRegId.Folded.getReg_iff (h : v.Folded s) (pf : PhysRegFile) :
    pf.getReg v = pf.getReg (.of v.phyReg) + BitVec.ofInt 64 s ↔ Fits s := by
  rw [pf.getReg_eq_correct v]
  rcases h with ⟨hop, rfl⟩ | hop
  · simp [correct, hop, Fits, toInt32]
  · simp [correct, hop, Fits, ofAdd, calculate]

theorem VirtRegId.Folded.fold (h : v.Folded s) (imm : ℤ) :
    ∃ w, (v.fold imm).reg = some w ∧ (v.fold imm).isEliminated = true ∧ w.phyReg = v.phyReg ∧
      w.Folded (s + imm) := by
  rcases h with ⟨hop, rfl⟩ | hop
  · refine ⟨⟨v.phyReg, some (.ofAdd imm)⟩, ?_, ?_, rfl, .inr ?_⟩
    · simp [VirtRegId.fold, hop]
    · simp [VirtRegId.fold, hop, Bypass.isEliminated]
    · rw [Int.zero_add]
  · refine ⟨⟨v.phyReg, some (.ofAdd (toInt32 s + imm))⟩, ?_, ?_, rfl, .inr ?_⟩
    · simp [VirtRegId.fold, hop, ofAdd]
    · simp [VirtRegId.fold, hop, ofAdd, Bypass.isEliminated]
    · simp only [ofAdd, toInt32_add]

/-! ### What rename does about an instruction -/

variable {c : RenameConfig}

theorem foldSum_of_not_renameable (program : List (ArchInst c)) {r : RegId}
    (hr : r.isRenameable = false) : foldSum program r = 0 := by
  induction program with
  | nil => rfl
  | cons i program ih => simp [foldSum, hr, ih]

theorem foldSum_small (hc : c.enableConstantFolding = false) (program : List (ArchInst c))
    (r : RegId) : -2048 ≤ foldSum program r ∧ foldSum program r < 2048 := by
  induction program generalizing r with
  | nil => simp [foldSum]
  | cons i program ih =>
    rw [foldSum]
    split_ifs with hr hmov hfold
    · exact ih _
    · -- only an immediate that is added to `x0` is folded
      simp only [ArchInst.folds, hc, Bool.false_or, and_eq_true, decide_eq_true_eq] at hfold
      obtain ⟨-, hadd, -, hzero⟩ := hfold
      obtain ⟨s, d, -, -, -, himm⟩ := i.addImm_eval hadd
      rw [foldSum_of_not_renameable program (by simp [RegId.isRenameable, hzero]), Int.zero_add]
      exact himm
    · simp
    · exact ih r

/-- Rename lets the destination `d` share the register of the source `s`, with `k` added. -/
structure ArchInst.Shares (i : ArchInst c) (s d : RegId) (k : ℤ) : Prop where
  srcs : i.srcRegs = [s]
  dests : i.destRegs = [(d, 0)]
  eval : ∀ x, i.eval [x] = [x + BitVec.ofInt 64 k]
  sum : ∀ program r, foldSum (i :: program) r =
    if r = d ∧ r.isRenameable = true then foldSum program s + k else foldSum program r
  bypass : ∀ (st : RenameStage 1) (z : ℤ), (st.lookup 0 s).Folded z →
    ∃ v, (st.bypassReg c 0 i.toRenameInst).reg = some v ∧
      (st.bypassReg c 0 i.toRenameInst).isEliminated = true ∧
      v.phyReg = (st.lookup 0 s).phyReg ∧ v.Folded (z + k)

structure ArchInst.Allocates (i : ArchInst c) : Prop where
  sum : ∀ program r, foldSum (i :: program) r =
    if r ∈ i.dests ∧ r.isRenameable = true then 0 else foldSum program r
  bypass : ∀ st : RenameStage 1, st.bypassReg c 0 i.toRenameInst = ⟨none, false, false⟩

theorem ArchInst.shares_or_allocates (i : ArchInst c) :
    (∃ s d k, i.Shares s d k) ∨ i.Allocates := by
  by_cases hmov : i.moves = true
  · left
    obtain ⟨s, d, hsrcs, hdests, heval⟩ := i.mov_eval (and_eq_true_iff.1 hmov).2
    have hsrc : i.srcRegIdx 0 = s := by simp [RenameInst.srcRegIdx, hsrcs]
    refine ⟨s, d, 0, hsrcs, hdests, by simpa using heval, fun program r => ?_, fun st z hz => ?_⟩
    · simp [foldSum, ArchInst.dests, hdests, hmov, hsrc]
    · have hmov' : (c.enableMoveElimination && i.isMov) = true := hmov
      refine ⟨st.lookup 0 s, ?_, ?_, rfl, by simpa using hz⟩
      · simp only [bypassReg, hmov', if_true, hsrc]
      · simp only [bypassReg, hmov', if_true, Bypass.isEliminated, Bool.true_or]
  · have hmov' : ¬(c.enableMoveElimination && i.isMov) = true := hmov
    by_cases hfold : i.folds = true
    · left
      have hadd := hfold
      simp only [ArchInst.folds, hmov, Bool.not_false, Bool.true_and] at hadd
      obtain ⟨s, d, hsrcs, hdests, heval, -⟩ := i.addImm_eval (and_eq_true_iff.1 hadd).1
      have hsrc : i.srcRegIdx 0 = s := by simp [RenameInst.srcRegIdx, hsrcs]
      refine ⟨s, d, i.imm, hsrcs, hdests, heval, fun program r => ?_, fun st z hz => ?_⟩
      · simp [foldSum, ArchInst.dests, hdests, hmov, hfold, hsrc]
      · rw [bypassReg, if_neg hmov', if_pos hadd, hsrc]
        exact hz.fold i.imm
    · right
      have hadd := hfold
      simp only [ArchInst.folds, hmov, Bool.not_false, Bool.true_and] at hadd
      refine ⟨fun program r => ?_, fun st => ?_⟩
      · simp [foldSum, hmov, hfold]
      · rw [bypassReg, if_neg hmov', if_neg hadd]

/-! ### Ghost values -/

theorem ArchInst.operand (i : ArchInst c) :
    (∀ r ∈ i.srcRegs, c.Operand r) ∧ ∀ d ∈ i.dests, c.Operand d := by
  have hclass {r : RegId} (hmisc : r.regClass ≠ .misc)
      (hmem : r.isRenameable = true → r ∈ c.archRegs) : c.Operand r := by
    by_cases hinv : r.regClass = .invalid
    · exact .inl hinv
    · exact .inr (hmem (by simp [RegId.isRenameable, hmisc, hinv]))
  refine ⟨fun r hr => hclass (i.src_class r hr) (i.valid.srcs r hr), fun d hd => ?_⟩
  obtain ⟨d, hmem, rfl⟩ := mem_map.1 hd
  exact hclass (i.dest_class d hmem) (i.valid.dests d hmem)

/-- Through the map `m`, the ghost values and the folded sums are the registers. -/
structure Tracks (c : RenameConfig) (ghost : PhysRegFile) (m : RegId → VirtRegId)
    (regs : RegId → RegVal) (sum : RegId → ℤ) : Prop where
  invalid : ∀ r : RegId, r.regClass = .invalid → m r = .invalid
  folded : ∀ r, c.Operand r → (m r).Folded (sum r)
  value : ∀ r, c.Operand r →
    readReg regs r = ghost.getReg (.of (m r).phyReg) + BitVec.ofInt 64 (sum r)

namespace Tracks
variable {ghost ghost' pf : PhysRegFile} {m : RegId → VirtRegId} {regs : RegId → RegVal}
  {sum : RegId → ℤ}

section
variable (h : Tracks c ghost m regs sum)
include h

theorem read_iff {r : RegId} (hr : c.Operand r)
    (hpf : pf.getReg (.of (m r).phyReg) = ghost.getReg (.of (m r).phyReg)) :
    pf.getReg (m r) = readReg regs r ↔ Fits (sum r) := by
  rw [h.value r hr, ← hpf]
  exact (h.folded r hr).getReg_iff pf

theorem congr
    (hg : ∀ r, c.Operand r → ghost'.getReg (.of (m r).phyReg) = ghost.getReg (.of (m r).phyReg)) :
    Tracks c ghost' m regs sum :=
  ⟨h.invalid, h.folded, fun r hr => by rw [hg r hr]; exact h.value r hr⟩

theorem bind {d : RegId} (hd : c.Operand d) {v : VirtRegId}
    {x : RegVal} {z : ℤ} (hv : d.isRenameable = true → v.Folded z ∧
      x = ghost.getReg (.of v.phyReg) + BitVec.ofInt 64 z) :
    Tracks c ghost (bindEntry m (d, v)) (writeReg regs d x)
      fun r => if r = d ∧ r.isRenameable = true then z else sum r := by
  rcases hd with hinv | hmem
  · -- a write to the invalid register is dropped
    have hfix : d.isRenameable = false := by simp [RegId.isRenameable, hinv]
    have hregs : writeReg regs d x = regs := by simp [writeReg, RegFile.write, hinv]
    have hsum : (fun r => if r = d ∧ r.isRenameable = true then z else sum r) = sum := by
      funext r
      rw [if_neg]
      rintro ⟨rfl, hr⟩
      simp [hfix] at hr
    rw [hregs, hsum, bindEntry, if_neg (by simp [hfix])]
    exact h
  · have hren := isRenameable_of_mem hmem
    obtain ⟨hfold, hx⟩ := hv hren
    have hcls : d.regClass ≠ .invalid := by
      intro hinv
      simp [RegId.isRenameable, hinv] at hren
    rw [bindEntry, if_pos hren]
    refine ⟨fun r hr => ?_, fun r hr => ?_, fun r hr => ?_⟩
    · have hrd : r ≠ d := by
        rintro rfl
        exact hcls hr
      rw [update_of_ne hrd]
      exact h.invalid r hr
    · by_cases hrd : r = d
      · subst hrd
        rwa [update_self, if_pos ⟨rfl, hren⟩]
      · rw [update_of_ne hrd, if_neg (fun hboth => hrd hboth.1)]
        exact h.folded r hr
    · by_cases hrd : r = d
      · subst hrd
        rw [update_self, if_pos ⟨rfl, hren⟩, readReg_writeReg_self regs x hcls, hx]
      · rw [update_of_ne hrd, if_neg (fun hboth => hrd hboth.1), readReg_writeReg_of_ne regs x hrd]
        exact h.value r hr
end

theorem bindAll {ds : List RegId} {news : List VirtRegId} {vals : List RegVal}
    (h : Tracks c ghost m regs sum) (hnews : news.length = ds.length)
    (hvals : vals.length = ds.length) (hds : ∀ d ∈ ds, c.Operand d)
    (hval : ∀ w ∈ ds.zip (news.zip vals), w.1.isRenameable = true →
      w.2.1.ieop = none ∧ ghost.getReg w.2.1 = w.2.2) :
    Tracks c ghost ((ds.zip news).foldl bindEntry m)
      ((ds.zip vals).foldl (fun regs w => writeReg regs w.1 w.2) regs)
      fun r => if r ∈ ds ∧ r.isRenameable = true then 0 else sum r := by
  induction ds generalizing m regs sum news vals with
  | nil => simpa using h
  | cons d ds ih =>
    obtain ⟨v, news, rfl⟩ := exists_cons_of_length_eq_add_one hnews
    obtain ⟨x, vals, rfl⟩ := exists_cons_of_length_eq_add_one hvals
    obtain ⟨hd, hds⟩ := forall_mem_cons.1 hds
    obtain ⟨hv, hval⟩ := forall_mem_cons.1 hval
    have hfirst := h.bind hd (v := v) (x := x) (z := 0) fun hren => by
      obtain ⟨hop, hget⟩ := hv hren
      have hof : of v.phyReg = v := by
        obtain ⟨p, op⟩ := v
        cases hop
        rfl
      exact ⟨.inl ⟨hop, rfl⟩, by simp [hof, hget]⟩
    have hrest := ih hfirst (by simpa using hnews) (by simpa using hvals) hds hval
    have hsum : (fun r => if r ∈ d :: ds ∧ r.isRenameable = true then 0 else sum r) =
        fun r => if r ∈ ds ∧ r.isRenameable = true then 0
          else if r = d ∧ r.isRenameable = true then 0 else sum r := by
      funext r
      grind
    rw [hsum]
    exact hrest

end Tracks

theorem foldl_bindEntry_cases (ds : List RegId) (news : List VirtRegId) (m : RegId → VirtRegId)
    (r : RegId) : (ds.zip news).foldl bindEntry m r = m r ∨
      (ds.zip news).foldl bindEntry m r ∈ news := by
  induction ds generalizing m news with
  | nil => exact .inl rfl
  | cons d ds ih =>
    cases news with
    | nil => exact .inl rfl
    | cons v news =>
      rw [zip_cons_cons, foldl_cons]
      rcases ih news (bindEntry m (d, v)) with hsame | hmem
      · rw [hsame, bindEntry]
        split_ifs
        · by_cases hrd : r = d
          · rw [hrd, update_self]
            exact .inr mem_cons_self
          · exact .inl (update_of_ne hrd ..)
        · exact .inl rfl
      · exact .inr (mem_cons_of_mem v hmem)

def Settled (c : RenameConfig) (ghost pf : PhysRegFile) (m : RegId → VirtRegId)
    (ts : List (InFlight c)) : Prop :=
  ∀ r, c.Operand r → pf.getReg (.of (m r).phyReg) = ghost.getReg (.of (m r).phyReg) ∨
    ∃ o ∈ ts, o.pending = true ∧ o.writes (m r).phyReg = true

theorem getReg_writes {l : List (VirtRegId × RegVal)}
    (hl : ∀ w ∈ l, ghost.getReg (.of w.1.phyReg) = w.2 ∨ w.1.phyReg.regClass = .invalid)
    (hp : pf.getReg (.of p) = ghost.getReg (.of p) ∨ p ∈ l.map fun w => w.1.phyReg) :
    (pf.writes l).getReg (.of p) = ghost.getReg (.of p) := by
  induction l generalizing pf with
  | nil => simpa [PhysRegFile.writes] using hp
  | cons w l ih =>
    obtain ⟨hw, hl⟩ := forall_mem_cons.1 hl
    refine ih hl ?_
    by_cases hwp : w.1.phyReg = p
    · left
      by_cases hinv : p.regClass = .invalid
      · simp [PhysRegFile.getReg, hinv]
      · subst hwp
        rw [getReg_setReg_self pf w.2 hinv, hw.resolve_right hinv]
    · rw [getReg_setReg_of_ne pf w.2 (v := .of p) (Ne.symm hwp)]
      refine hp.imp_right fun hmem => ?_
      exact (mem_cons.1 hmem).resolve_left (Ne.symm hwp)

theorem PhysRegFile.getReg_of_congr {pf' : PhysRegFile} (h : p.regClass ≠ .invalid → pf' p = pf p) :
    pf'.getReg (.of p) = pf.getReg (.of p) := by
  by_cases hp : p.regClass = .invalid
  · simp [getReg, hp]
  · simp [getReg, hp, h hp]

theorem renameDests_allocates {tid : Fin n} {inst : RenameInst}
    (hby : ∀ st : RenameStage n, st.bypassReg c tid inst = ⟨none, false, false⟩)
    {ds : List (RegId × ℕ)} (hds : ∀ d ∈ ds, d.1.isRenameable = true → d.1 ∈ c.archRegs)
    (hpins : ∀ d ∈ ds, d.2 = 0) {st st' : RenameStage n} {news : List VirtRegId} {eliminated : Bool}
    (hrefs : st.RefInv c none) (hst : ∀ p, st.numPinnedWrites p = 0)
    (h : renameDests c tid inst ds st = .ok (news, eliminated, st'))
    (vals : List RegVal) (ghost : PhysRegFile) :
    eliminated = false ∧ (∀ p, st'.numPinnedWrites p = 0) ∧
      ∃ ghost' : PhysRegFile, (∀ p, st.numRef p ≠ 0 → ghost' p = ghost p) ∧
        ∀ w ∈ (ds.map Prod.fst).zip (news.zip vals), w.1.isRenameable = true →
          w.2.1.ieop = none ∧ ghost'.getReg w.2.1 = w.2.2 := by
  induction ds generalizing st news eliminated vals ghost with
  | nil =>
    cases h
    exact ⟨rfl, hst, ghost, fun _ _ => rfl, by simp⟩
  | cons d ds ih =>
    obtain ⟨new, prev, st₁, news', eliminated', hren, hrest, rfl, rfl⟩ :=
      renameDests_cons h
    obtain ⟨hd, hds⟩ := forall_mem_cons.1 hds
    obtain ⟨hpin, hpins⟩ := forall_mem_cons.1 hpins
    have hnext := hrefs.renamedBy hren hd (by simp [hby]) inst.seqNum
    rw [hby] at hren ⊢
    cases hren with
    | fixed _ hfix =>
      obtain ⟨rfl, hst', ghost', hsame, hval⟩ := ih hds hpins hnext hst hrest vals.tail ghost
      refine ⟨rfl, hst', ghost', hsame, ?_⟩
      cases vals with
      | nil => simp
      | cons x vals => exact forall_mem_cons.2 ⟨by simp [hfix], hval⟩
    | pinned _ _ hpos => simp [hst] at hpos
    | @fresh hrenD p ps hfree =>
      have hmem : p ∈ st.freeRegs d.1.regClass := by simp [hfree]
      have hfresh := hrefs.free.ref_of_mem hmem
      have hcls := (hrefs.free.phys _ p hmem).2.class_ne
      have hpin₂ (q : PhysRegId) : (update (((st.setFree d.1.regClass ps).incRef
          p).setEntry tid d.1 (.of p)).numPinnedWrites p d.2) q = 0 := by
        rw [numPinnedWrites_setEntry, hpin]
        by_cases hq : q = p
        · rw [hq, update_self]
        · rw [update_of_ne hq]
          exact hst q
      -- from here on the register is in use, and its ghost value is the value of the destination
      obtain ⟨rfl, hst', ghost', hsame, hval⟩ := ih hds hpins hnext hpin₂ hrest vals.tail
        (update ghost p (vals.headD 0))
      have hsame' (q : PhysRegId) (hq : update st.numRef p (st.numRef p + 1) q ≠ 0) :
          ghost' q = update ghost p (vals.headD 0) q := by
        refine hsame q ?_
        change (((st.setFree d.1.regClass ps).incRef p).setEntry tid d.1 (.of p)).numRef q ≠ 0
        rwa [numRef_setEntry]
      refine ⟨rfl, hst', ghost', fun q hq => ?_, ?_⟩
      · have hqp : q ≠ p := by
          rintro rfl
          exact hq hfresh
        rw [hsame' q (by rwa [update_of_ne hqp]), update_of_ne hqp]
      · cases vals with
        | nil => simp
        | cons x vals =>
          refine forall_mem_cons.2 ⟨fun _ => ⟨rfl, ?_⟩, hval⟩
          have hp : ghost' p = x := by simpa using hsame' p (by simp)
          simp [PhysRegFile.getReg, of, correct, hcls, hp]

/-! ### The invariant -/

namespace InFlight
theorem seqNum_markExecuted (f : InFlight c) (seqNum : ℕ) :
    (f.markExecuted seqNum).seqNum = f.seqNum := by
  unfold markExecuted
  split_ifs <;> rfl

theorem map_inst_markExecuted (fs : List (InFlight c)) (seqNum : ℕ) :
    (fs.map (markExecuted seqNum)).map inst = fs.map inst := by
  rw [map_map]
  refine map_congr_left fun f _ => ?_
  simp only [comp_apply, markExecuted]
  split_ifs <;> rfl

end InFlight

/-- What is known of an instruction in flight: `m` is the map that it found, `batch` what it has put
on the history, `program` the instructions before it. -/
structure Issued (regs : RegId → RegVal) (ghost : PhysRegFile) (t : InFlight c)
    (program : List (ArchInst c)) (m : RegId → VirtRegId) (batch : List RenameHistory) : Prop where
  srcs : t.srcs = t.inst.srcRegs.map m
  length : t.dests.length = t.inst.destRegs.length
  dests : ∀ v ∈ t.dests, v.phyReg.regClass = .invalid ∨
    ∃ e ∈ batch, e.newPhysReg = v ∧ e.archReg ∈ c.archRegs
  values : t.eliminated = false →
    ∀ w ∈ t.dests.zip (t.inst.values (seqRegs regs program)),
      ghost.getReg (.of w.1.phyReg) = w.2 ∨ w.1.phyReg.regClass = .invalid

/-- The instructions in flight are open transactions over the history; at every level the ghost
values track sequential execution. -/
def InFlightOrder (regs : RegId → RegVal) (committed : List (ArchInst c)) (ghost pf : PhysRegFile) :
    ℕ → (RegId → VirtRegId) → List RenameHistory → List (InFlight c) → Prop :=
  Staged RenameHistory.instSeqNum InFlight.seqNum
    (fun m ts => Tracks c ghost m (seqRegs regs (ts.map InFlight.inst ++ committed))
      (foldSum (ts.map InFlight.inst ++ committed)) ∧ Settled c ghost pf m ts)
    (fun t ts m batch => Issued regs ghost t (ts.map InFlight.inst ++ committed) m batch)

structure MachineInv (regs : RegId → RegVal) (m : RenameMachine c) : Prop where
  refs : m.stage.RefInv c none
  pins : ∀ p, m.stage.numPinnedWrites p = 0
  inOrder : ∃ ghost,
    InFlightOrder regs m.committed ghost m.regFile m.lastCommitted (m.stage.lookup 0)
      (m.stage.historyBuffer 0) m.rob

theorem InFlightOrder.congr {regs : RegId → RegVal} {committed : List (ArchInst c)}
    {ghost' : PhysRegFile} {bound : ℕ} {st : RenameStage 1} {rob : List (InFlight c)}
    (h : InFlightOrder regs committed ghost pf bound (st.lookup 0) (st.historyBuffer 0) rob)
    (hrefs : st.RefInv c none) (hg : ∀ p, st.numRef p ≠ 0 → ghost' p = ghost p) :
    InFlightOrder regs committed ghost' pf bound (st.lookup 0) (st.historyBuffer 0) rob := by
  suffices hmap : InFlightOrder regs committed ghost' pf bound (st.lookup 0) (st.historyBuffer 0)
      (rob.map id) by
    rwa [map_id] at hmap
  refine Staged.map id h (fun _ _ => rfl) ?_ ?_
  · rintro l₁ l₂ us hlog - ⟨htracks, hsettled⟩
    rw [map_id]
    have hgetReg (r : RegId) (hr : c.Operand r) :
        ghost'.getReg (.of (rollback (st.lookup 0) l₁ r).phyReg) =
          ghost.getReg (.of (rollback (st.lookup 0) l₁ r).phyReg) := by
      refine getReg_of_congr fun hcls => hg _ ?_
      rcases hr with hinv | hmem
      · rw [htracks.invalid r hinv] at hcls
        exact absurd rfl hcls
      · exact hrefs.ref_ne_zero_of_rollback hlog hmem hcls
    refine ⟨htracks.congr hgetReg, fun r hr => ?_⟩
    rw [hgetReg r hr]
    exact hsettled r hr
  · rintro l₁ batch l₂ t us hlog - hissued
    rw [map_id]
    refine ⟨hissued.srcs, hissued.length, hissued.dests, fun hel w hw => ?_⟩
    refine (hissued.values hel w hw).imp_left fun hval => ?_
    rw [← hval]
    refine getReg_of_congr fun hcls => hg _ ?_
    obtain ⟨e, he, hew, harch⟩ :=
      (hissued.dests w.1 (of_mem_zip hw).1).resolve_left hcls
    -- the entry of the history that gave the register out, and those above it
    obtain ⟨b₁, b₂, rfl⟩ := append_of_mem he
    have hlog' : st.historyBuffer 0 = (l₁ ++ b₁) ++ (e :: (b₂ ++ l₂)) := by simp [hlog]
    have hcons := (hrefs.history 0).consistent
    rw [hlog'] at hcons
    have hheld := UndoLog.held_new (φ := phyReg) hcons
    rw [RenameHistory.new_eq, hew] at hheld
    exact hrefs.ref_ne_zero_of_held hlog' harch hcls hheld

namespace MachineInv
variable {regs : RegId → RegVal} {m : RenameMachine c}

theorem lastSeq_lt (h : MachineInv regs m) {k : ℕ} (hk : m.lastSeq < k) :
    m.lastCommitted < k ∧ ∀ u ∈ m.rob, u.seqNum < k := by
  obtain ⟨ghost, hstaged⟩ := h.inOrder
  unfold lastSeq at hk
  cases hrob : m.rob with
  | nil =>
    rw [hrob] at hk
    exact ⟨hk, by simp⟩
  | cons f rob =>
    rw [hrob] at hk hstaged
    have hbound := hstaged.bound_lt mem_cons_self
    have hlt := (pairwise_cons.1 hstaged.pairwise).1
    refine ⟨hbound.trans hk, forall_mem_cons.2 ⟨hk, fun u hu => (hlt u hu).trans hk⟩⟩

variable {i : ArchInst c} {news : List VirtRegId} {eliminated : Bool} {st : RenameStage 1}
  {f : InFlight c} {seqNum : ℕ}

section
variable (h : MachineInv regs m)
include h

theorem push {ghost : PhysRegFile} (hseq : m.lastSeq < i.seqNum)
    (hren : m.stage.renameDestRegs c 0 i.toRenameInst = .ok (news, eliminated, st))
    (hpins : ∀ p, st.numPinnedWrites p = 0)
    (hold : InFlightOrder regs m.committed ghost m.regFile m.lastCommitted (m.stage.lookup 0)
      (m.stage.historyBuffer 0) m.rob) (htracks : Tracks c ghost (st.lookup 0)
      (i.seq (seqRegs regs (m.rob.map inst ++ m.committed)))
      (foldSum (i :: (m.rob.map inst ++ m.committed))))
    (hvalues : eliminated = false → ∀ w ∈ news.zip
      (i.values (seqRegs regs (m.rob.map inst ++ m.committed))),
        ghost.getReg (.of w.1.phyReg) = w.2 ∨ w.1.phyReg.regClass = .invalid)
    (hsettled : ∀ r, c.Operand r → (∃ s, c.Operand s ∧
      (st.lookup 0 r).phyReg = (m.stage.lookup 0 s).phyReg) ∨
        eliminated = false ∧ st.lookup 0 r ∈ news) : MachineInv regs { m with
      stage := st
      rob := ⟨i, m.stage.renameSrcRegs 0 i.toRenameInst, news, eliminated, false⟩ :: m.rob } := by
  obtain ⟨batch, hhist, htag, hnews, hroll, hlook, -⟩ := renameDests_spec hren
  obtain ⟨hlen, hinv⟩ := renameDests_news hren
  obtain ⟨hbound, hlt⟩ := h.lastSeq_lt hseq
  refine ⟨h.refs.renameDestRegs i.valid hren, hpins, ghost, ⟨htracks, fun r hr => ?_⟩, hbound, hlt,
    batch, _, hhist, htag, ?_, ?_⟩
  · rcases hsettled r hr with ⟨s, hs, heq⟩ | ⟨hel, hmem⟩
    · rw [heq]
      exact (hold.now.2 s hs).imp_right fun ⟨o, ho, hpend⟩ => ⟨o, mem_cons_of_mem _ ho, hpend⟩
    · refine .inr ⟨_, mem_cons_self, by simp [pending, hel], ?_⟩
      simp only [InFlight.writes, contains_iff_mem]
      exact mem_map_of_mem hmem
  · rw [hroll]
    refine ⟨rfl, hlen, fun v hv => ?_, hvalues⟩
    have hsnd : ((i.destRegs.map Prod.fst).zip news).map Prod.snd = news :=
      map_snd_zip (by simp [hlen])
    rw [← hsnd] at hv
    obtain ⟨w, hw, rfl⟩ := mem_map.1 hv
    rcases i.operand.2 w.1 (of_mem_zip hw).1 with hcls | harch
    · rw [hinv w hw hcls]
      exact .inl rfl
    · right
      rw [← hnews] at hw
      obtain ⟨e, he, rfl⟩ := mem_map.1 hw
      exact ⟨e, mem_reverse.1 he, rfl, harch⟩
  · rw [hroll]
    exact hold

theorem rename_shares {s d : RegId} {k : ℤ} (hi : i.Shares s d k) (hseq : m.lastSeq < i.seqNum)
    (hren : m.stage.renameDestRegs c 0 i.toRenameInst = .ok (news, eliminated, st)) :
    MachineInv regs { m with
      stage := st
      rob := ⟨i, m.stage.renameSrcRegs 0 i.toRenameInst, news, eliminated, false⟩ :: m.rob } := by
  obtain ⟨ghost, hold⟩ := h.inOrder
  obtain ⟨htracks, -⟩ := hold.now
  have hs : c.Operand s := i.operand.1 s (by simp [hi.srcs])
  have hd : c.Operand d := i.operand.2 d (by simp [ArchInst.dests, hi.dests])
  obtain ⟨v, hv, hel, hphys, hfold⟩ := hi.bypass m.stage _ (htracks.folded s hs)
  have hloop := hren
  rw [renameDestRegs, hi.dests] at hloop
  obtain ⟨new, prev, st₁, news', eliminated', hby, hnil, rfl, rfl⟩ :=
    renameDests_cons hloop
  cases hnil
  rw [hv] at hby
  have hspec := hby.spec
  have hpins : st₁.numPinnedWrites = m.stage.numPinnedWrites := by
    cases hby with
    | fixed => rfl
    | shared => rw [numPinnedWrites_setEntry]; split_ifs <;> rfl
  have hnew : d.isRenameable = true → new = v := by
    cases hby with
    | fixed _ hfix => simp [hfix]
    | shared => exact fun _ => rfl
  refine h.push hseq hren ?_ hold ?_ (by simp [hel]) fun r hr => .inl ?_
  · intro p
    change st₁.numPinnedWrites p = 0
    rw [hpins]
    exact h.pins p
  · rw [lookup_setHistory, hspec.lookup_eq]
    have hbind := htracks.bind hd (v := new)
      (z := foldSum (m.rob.map inst ++ m.committed) s + k)
      (x := readReg (seqRegs regs (m.rob.map inst ++ m.committed)) s + BitVec.ofInt 64 k)
      fun hrend => by
        rw [hnew hrend]
        refine ⟨hfold, ?_⟩
        rw [htracks.value s hs, hphys, BitVec.ofInt_add, add_assoc]
    have hseqd : i.seq (seqRegs regs (m.rob.map inst ++ m.committed)) =
        writeReg (seqRegs regs (m.rob.map inst ++ m.committed)) d
          (readReg (seqRegs regs (m.rob.map inst ++ m.committed)) s + BitVec.ofInt 64 k) := by
      simp [ArchInst.seq, ArchInst.dests, ArchInst.values, hi.dests, hi.srcs, hi.eval]
    rw [hseqd, funext (hi.sum _)]
    exact hbind
  · rw [lookup_setHistory, hspec.lookup_eq, bindEntry]
    split_ifs with hrend
    · by_cases hrd : r = d
      · refine ⟨s, hs, ?_⟩
        rw [hrd, update_self, hnew hrend, hphys]
      · exact ⟨r, hr, by rw [update_of_ne hrd]⟩
    · exact ⟨r, hr, rfl⟩

theorem rename_allocates (hi : i.Allocates) (hseq : m.lastSeq < i.seqNum)
    (hren : m.stage.renameDestRegs c 0 i.toRenameInst = .ok (news, eliminated, st)) :
    MachineInv regs { m with
      stage := st
      rob := ⟨i, m.stage.renameSrcRegs 0 i.toRenameInst, news, eliminated, false⟩ :: m.rob } := by
  obtain ⟨ghost, hold⟩ := h.inOrder
  obtain ⟨vals, hvals_eq⟩ : ∃ vals, vals =
      i.values (seqRegs regs (m.rob.map inst ++ m.committed)) := ⟨_, rfl⟩
  have hvals : vals.length = i.destRegs.length := hvals_eq ▸ i.eval_length _
  obtain ⟨hel, hpins, ghost', hsame, hval⟩ := renameDests_allocates hi.bypass i.valid.dests
    i.not_pinned h.refs h.pins hren vals ghost
  have hold' := hold.congr h.refs hsame
  obtain ⟨hlen, hinv⟩ := renameDests_news hren
  obtain ⟨-, -, -, -, -, hlook, -⟩ := renameDests_spec hren
  refine h.push hseq hren hpins hold' ?_ (fun _ => hvals_eq ▸ fun w hw => ?_) fun r hr => ?_
  · rw [ArchInst.seq, ← hvals_eq, hlook, funext (hi.sum _)]
    exact hold'.now.1.bindAll (by simpa using hlen) (by simpa using hvals) i.operand.2 hval
  · -- `w` is about the destination `d`
    have hsnd : ((i.destRegs.map Prod.fst).zip (news.zip vals)).map Prod.snd = news.zip vals :=
      map_snd_zip (by simp [hlen])
    rw [← hsnd] at hw
    obtain ⟨⟨d, w⟩, hdw, rfl⟩ := mem_map.1 hw
    rcases i.operand.2 d (of_mem_zip hdw).1 with hcls | harch
    · have hfst : (news.zip vals).map Prod.fst = news := map_fst_zip (by simp [hlen, hvals])
      have hmem : (d, w.1) ∈ (i.destRegs.map Prod.fst).zip news := by
        rw [← hfst, zip_map_right]
        exact mem_map.2 ⟨(d, w), hdw, rfl⟩
      have hw : w.1 = invalid := hinv _ hmem hcls
      exact .inr (by rw [hw]; rfl)
    · obtain ⟨hop, hget⟩ : w.1.ieop = none ∧ ghost'.getReg w.1 = w.2 :=
        hval _ hdw (isRenameable_of_mem harch)
      left
      rw [← hget, ghost'.getReg_eq_correct w.1]
      simp [correct, hop]
  · rw [hlook]
    rcases foldl_bindEntry_cases (i.destRegs.map Prod.fst) news (m.stage.lookup 0) r with hr' | hr'
    · exact .inl ⟨r, hr, by rw [hr']⟩
    · exact .inr ⟨hel, hr'⟩

theorem older_eq {us ts : List (InFlight c)} (hrob : m.rob = us ++ f :: ts) :
    m.older f.seqNum = ts := by
  obtain ⟨ghost, hstaged⟩ := h.inOrder
  have hpair := hstaged.pairwise
  rw [hrob, pairwise_append, pairwise_cons] at hpair
  obtain ⟨-, ⟨hts, -⟩, hus⟩ := hpair
  unfold older
  rw [hrob, filter_append, filter_cons_of_neg (by simp)]
  have h₁ : us.filter (·.seqNum < f.seqNum) = [] := by
    rw [filter_eq_nil_iff]
    intro u hu
    have := hus u hu f mem_cons_self
    simp only [decide_eq_true_eq]
    omega
  have h₂ : ts.filter (·.seqNum < f.seqNum) = ts := by
    rw [filter_eq_self]
    intro t ht
    simpa using hts t ht
  rw [h₁, h₂, nil_append]
end

theorem executable_cases (hf : m.executable seqNum = some f) :
    ∃ us ts, m.rob = us ++ f :: ts ∧ f.seqNum = seqNum ∧ f.pending = true ∧ m.ready f = true := by
  rw [executable, Option.filter_eq_some_iff] at hf
  obtain ⟨hfind, hok⟩ := hf
  obtain ⟨hseq, us, ts, hrob, -⟩ := find?_eq_some_iff_append.1 hfind
  obtain ⟨hpend, hready⟩ := and_eq_true_iff.1 hok
  exact ⟨us, ts, hrob, by simpa using hseq, hpend, hready⟩

section
variable (h : MachineInv regs m)
include h

/-- **Reading.**  An instruction that executes reads sequential values exactly if what is folded
into its sources fits. -/
theorem readsSeq_iff (hf : m.executable seqNum = some f) : m.ReadsSeq regs f ↔ m.ReadsFit f := by
  obtain ⟨us, ts, hrob, -, -, hready⟩ := executable_cases hf
  have holder := h.older_eq hrob
  obtain ⟨ghost, hstaged⟩ := h.inOrder
  rw [hrob] at hstaged
  obtain ⟨l₁, batch, l₂, -, ⟨htracks, hsettled⟩, hissued⟩ := hstaged.level
  rw [RenameMachine.ReadsSeq, RenameMachine.ReadsFit, RenameMachine.read, RenameMachine.program,
    holder, hissued.srcs, map_map, map_inj_left]
  refine forall₂_congr fun r hr => htracks.read_iff (f.inst.operand.1 r hr) ?_
  -- no older instruction is still to write the source
  refine (hsettled r (f.inst.operand.1 r hr)).resolve_right ?_
  rintro ⟨o, ho, hpend, hwrites⟩
  rw [ready, holder, all_eq_true] at hready
  have hsrc := hready o ho
  rw [hpend, Bool.not_true, Bool.false_or, all_eq_true, hissued.srcs] at hsrc
  have := hsrc _ (mem_map_of_mem hr)
  simp [hwrites] at this

theorem execute (hf : m.executable seqNum = some f) (hread : m.ReadsSeq regs f) :
    MachineInv regs { m with
      regFile := m.regFile.writes (f.dests.zip (f.inst.eval (m.read f)))
      rob := m.rob.map (markExecuted seqNum) } := by
  obtain ⟨us, ts, hrob, hseq, hpend, -⟩ := executable_cases hf
  have holder := h.older_eq hrob
  obtain ⟨ghost, hstaged⟩ := h.inOrder
  have hlevel := hstaged
  rw [hrob] at hlevel
  obtain ⟨l₁, batch, l₂, -, -, hissued⟩ := hlevel.level
  have hel : f.eliminated = false := by
    simp only [pending, and_eq_true, not_eq_true'] at hpend
    exact hpend.1
  have hvals : f.inst.eval (m.read f) =
      f.inst.values (seqRegs regs (ts.map inst ++ m.committed)) := by
    rw [ReadsSeq, program, holder] at hread
    rw [hread, ArchInst.values]
  have hwritten {p : PhysRegId}
      (hp : m.regFile.getReg (.of p) = ghost.getReg (.of p) ∨ f.writes p = true) :
      (m.regFile.writes (f.dests.zip (f.inst.eval (m.read f)))).getReg (.of p) =
        ghost.getReg (.of p) := by
    refine getReg_writes (by rw [hvals]; exact hissued.values hel) (hp.imp_right fun hw => ?_)
    have hfst : (f.dests.zip (f.inst.eval (m.read f))).map Prod.fst = f.dests :=
      map_fst_zip (by rw [f.inst.eval_length, hissued.length])
    have hmap : (f.dests.zip (f.inst.eval (m.read f))).map (fun w => w.1.phyReg) =
        f.dests.map phyReg := by
      rw [← hfst, map_map, hfst]
      rfl
    rw [hmap]
    simpa [InFlight.writes] using hw
  -- the number of `f` is its own
  have huniq {o : InFlight c} (ho : o ∈ m.rob) (hoseq : o.seqNum = seqNum) : o = f := by
    by_contra hne
    have hpair := hstaged.pairwise
    rw [hrob, pairwise_append, pairwise_cons] at hpair
    obtain ⟨-, ⟨hts, -⟩, hus⟩ := hpair
    rw [hrob, mem_append, mem_cons] at ho
    rcases ho with ho | rfl | ho
    · have := hus o ho f mem_cons_self
      omega
    · exact hne rfl
    · have := hts o ho
      omega
  refine ⟨h.refs, h.pins, ghost,
    Staged.map _ hstaged (fun t _ => t.seqNum_markExecuted seqNum) ?_ ?_⟩
  · rintro l₁ l₂ vs - hvs ⟨htracks, hsettled⟩
    rw [map_inst_markExecuted]
    refine ⟨htracks, fun r hr => ?_⟩
    rcases hsettled r hr with hthere | ⟨o, ho, hopend, howrites⟩
    · exact .inl (hwritten (.inl hthere))
    · by_cases hoseq : o.seqNum = seqNum
      · rw [huniq (hvs.subset ho) hoseq] at howrites
        exact .inl (hwritten (.inr howrites))
      · exact .inr ⟨o, mem_map.2 ⟨o, ho, if_neg hoseq⟩, hopend, howrites⟩
  · rintro l₁ b l₂ t vs - - hb
    rw [map_inst_markExecuted, markExecuted]
    split_ifs
    · exact ⟨hb.srcs, hb.length, hb.dests, hb.values⟩
    · exact hb

theorem squash (hseq : m.lastCommitted ≤ seqNum) : MachineInv regs { m with
      stage := m.stage.doSquash seqNum 0
      rob := m.rob.dropWhile (seqNum < ·.seqNum) } := by
  obtain ⟨hlook, hhist, -⟩ := doSquash_spec (h.refs.history 0) seqNum
  obtain ⟨ghost, hstaged⟩ := h.inOrder
  refine ⟨h.refs.doSquash seqNum 0, fun p => ?_, ghost, ?_⟩
  · rw [numPinnedWrites_doSquash]
    exact h.pins p
  · rw [hlook, hhist]
    exact hstaged.squash hseq

theorem commit (hf : m.rob.getLast? = some f) (hpend : f.pending = false) : MachineInv regs { m with
      rob := m.rob.dropLast
      committed := f.inst :: m.committed
      lastCommitted := f.seqNum } := by
  obtain ⟨ghost, hstaged⟩ := h.inOrder
  obtain ⟨rob, hrob⟩ := getLast?_eq_some_iff.1 hf
  rw [hrob] at hstaged
  refine ⟨h.refs, h.pins, ghost, ?_⟩
  rw [hrob, dropLast_concat]
  refine Staged.commit hstaged (fun n us hus => ?_) fun t us n batch hb => ?_
  · rw [map_append, append_assoc] at hus
    refine ⟨hus.1, fun r hr => (hus.2 r hr).imp_right ?_⟩
    rintro ⟨o, ho, hopend, howrites⟩
    rcases mem_append.1 ho with ho | ho
    · exact ⟨o, ho, hopend, howrites⟩
    · rw [mem_singleton.1 ho, hpend] at hopend
      cases hopend
  · rw [map_append, append_assoc] at hb
    exact hb

theorem release (hseq : seqNum ≤ m.lastCommitted) :
    MachineInv regs { m with stage := m.stage.removeFromHistory seqNum 0 } := by
  obtain ⟨hlook, hhist, -⟩ := m.stage.removeFromHistory_spec seqNum 0
  obtain ⟨ghost, hstaged⟩ := h.inOrder
  refine ⟨h.refs.removeFromHistory seqNum 0, fun p => ?_, ghost, ?_⟩
  · rw [numPinnedWrites_removeFromHistory]
    exact h.pins p
  · rw [hlook, hhist]
    exact hstaged.release hseq

/-- **A step** keeps the invariant, if what executes in it reads sequential values. -/
theorem step {e : RenameEvent c} {m' : RenameMachine c}
    (hread : ∀ f ∈ m.executes e, m.ReadsSeq regs f) (hstep : m.step e = some m') :
    MachineInv regs m' := by
  cases e with
  | rename i =>
    simp only [RenameMachine.step] at hstep
    split_ifs at hstep with hseq
    split at hstep
    · cases hstep
    · rename_i news eliminated st hren
      cases hstep
      rcases i.shares_or_allocates with ⟨s, d, k, hi⟩ | hi
      · exact h.rename_shares hi hseq hren
      · exact h.rename_allocates hi hseq hren
  | execute seqNum =>
    simp only [RenameMachine.step] at hstep
    split at hstep
    · cases hstep
    · rename_i f hf
      cases hstep
      exact h.execute hf (hread f hf)
  | squash seqNum =>
    simp only [RenameMachine.step] at hstep
    split_ifs at hstep with hseq
    cases hstep
    exact h.squash hseq
  | commit =>
    simp only [RenameMachine.step] at hstep
    split at hstep
    · cases hstep
    · rename_i f hf
      split_ifs at hstep with hpend
      cases hstep
      exact h.commit hf (by simpa using hpend)
  | release seqNum =>
    simp only [RenameMachine.step] at hstep
    split_ifs at hstep with hseq
    cases hstep
    exact h.release hseq

/-- **A run** reads sequential values exactly if what is folded into the sources fits. -/
theorem along_iff (es : List (RenameEvent c)) :
    m.Along (ReadsSeq regs) es ↔ m.Along ReadsFit es := by
  induction es generalizing m with
  | nil => exact Iff.rfl
  | cons e es ih =>
    have hhead : (∀ f ∈ m.executes e, m.ReadsSeq regs f) ↔ ∀ f ∈ m.executes e, m.ReadsFit f := by
      refine forall₂_congr fun f hf => ?_
      cases e with
      | execute seqNum => exact h.readsSeq_iff hf
      | _ => cases hf
    constructor
    · rintro ⟨hread, hrest⟩
      exact ⟨hhead.1 hread, fun m' hm' => (ih (h.step hread hm')).1 (hrest m' hm')⟩
    · rintro ⟨hfit, hrest⟩
      exact ⟨hhead.2 hfit, fun m' hm' => (ih (h.step (hhead.2 hfit) hm')).2 (hrest m' hm')⟩
end
end MachineInv

/-! ### Runs -/

theorem RenameConfig.assign_plain {es : List (Fin n × RegId)} {st st' : RenameStage n}
    (h : assign es st = .ok st') (hmap : ∀ e, (st.map e).ieop = none)
    (hpins : ∀ p, st.numPinnedWrites p = 0) :
    (∀ e, (st'.map e).ieop = none) ∧ ∀ p, st'.numPinnedWrites p = 0 := by
  induction es generalizing st with
  | nil =>
    cases h
    exact ⟨hmap, hpins⟩
  | cons e es ih =>
    cases hfree : st.freeRegs e.2.regClass with
    | nil => simp [assign, RenameStage.getReg, hfree] at h
    | cons p ps =>
      simp only [assign, RenameStage.getReg, hfree] at h
      refine ih h (fun e' => ?_) fun q => ?_
      · unfold RenameStage.setEntry
        split_ifs
        · by_cases he : e' = (e.1, e.2)
          · simp [he, of]
          · exact (congrArg ieop (update_of_ne he ..)).trans (hmap e')
        · exact hmap e'
      · rw [numPinnedWrites_setEntry]
        exact hpins q

theorem machineInv_start {st : RenameStage 1} (h : c.initial 1 = .ok st) (pf : PhysRegFile) :
    MachineInv (startRegs st pf) (start st pf : RenameMachine c) := by
  obtain ⟨hplain, hpins⟩ := assign_plain h (fun _ => rfl) fun _ => rfl
  have hof (r : RegId) : (st.lookup 0 r).ieop = none := by
    unfold RenameStage.lookup
    split_ifs
    · rfl
    · rfl
    · exact hplain _
  refine ⟨initial_refInv h, hpins, pf, ⟨⟨?_, ?_, ?_⟩, ?_⟩, ?_⟩
  · intro r hr
    simp only [RenameStage.lookup, hr, if_true]
  · intro r _
    exact .inl ⟨hof r, rfl⟩
  · intro r _
    have hget : pf.getReg (st.lookup 0 r) = pf.getReg (.of (st.lookup 0 r).phyReg) := by
      rw [pf.getReg_eq_correct]
      simp [correct, hof r]
    change readReg (startRegs st pf) r = pf.getReg (.of (st.lookup 0 r).phyReg) + 0
    rw [← hget]
    by_cases hr : r.regClass = .invalid
    · simp [readReg, RegFile.read, hr, RenameStage.lookup]
    · simp [readReg, RegFile.read, hr, startRegs]
  · exact fun r _ => .inl rfl
  · simp [start, initial_history h]

/-- **Renaming with move elimination refines sequential execution.**  Without constant folding,
every instruction that executes along any run reads what sequential execution gives its sources. -/
theorem renaming_refines (hc : c.enableConstantFolding = false) {st : RenameStage 1}
    (h : c.initial 1 = .ok st) (pf : PhysRegFile) (es : List (RenameEvent c)) :
    (RenameMachine.start st pf).Along
      (RenameMachine.ReadsSeq (RenameMachine.startRegs st pf)) es := by
  refine ((machineInv_start h pf).along_iff es).2 ?_
  generalize (start st pf : RenameMachine c) = m
  induction es generalizing m with
  | nil => trivial
  | cons e es ih =>
    refine ⟨fun f _ r _ => ?_, fun m' _ => ih m'⟩
    exact fits_of_small (foldSum_small hc _ r).1 (foldSum_small hc _ r).2

theorem RenameConfig.twoRegs_operand {k : ℕ} (hk : k < 2) : twoRegs.Operand ⟨.int, k⟩ :=
  .inr (mem_archRegs.2 ⟨mem_cons_self, hk⟩)

def moveAndRead : List (RenameEvent .twoRegs) :=
  [.rename (.ordinary 1 [⟨.int, 1⟩] [⟨.int, 0⟩] (fun xs => [xs.headD 0 * 3])
      (forall_mem_singleton.2 (RenameConfig.twoRegs_operand Nat.one_lt_two))
      (forall_mem_singleton.2 (RenameConfig.twoRegs_operand Nat.two_pos)) (fun _ => rfl)),
    .rename (.mv 2 ⟨.int, 0⟩ ⟨.int, 1⟩ (RenameConfig.twoRegs_operand Nat.two_pos)
      (RenameConfig.twoRegs_operand Nat.one_lt_two)),
    .rename (.ordinary 3 [] [⟨.int, 0⟩] (fun _ => []) (forall_mem_nil _)
      (forall_mem_singleton.2 (RenameConfig.twoRegs_operand Nat.two_pos)) (fun _ => rfl)),
    .execute 1, .execute 3]

/-- All of these events happen, and the last instruction reads the product. -/
theorem move_renaming_refines : ∃ st : RenameStage 1, RenameConfig.twoRegs.initial 1 = .ok st ∧
    (moveAndRead.foldlM RenameMachine.step (.start st fun _ => 7)).isSome = true ∧
    (RenameMachine.start st fun _ => 7).Along
      (RenameMachine.ReadsSeq (RenameMachine.startRegs st fun _ => 7)) moveAndRead := by
  obtain ⟨st, h⟩ : ∃ st : RenameStage 1, twoRegs.initial 1 = .ok st := ⟨_, rfl⟩
  refine ⟨st, h, ?_, renaming_refines rfl h _ moveAndRead⟩
  cases h
  rfl

end Gem5
