import Gem5.Decode.Insts
import Gem5.Decode.NonConsec

/-!
# Restarting behind a committed instruction

If the first instructions of the list for rename commit and the program goes on at the next pc of
the last of them, then every instruction of the group should be executed once.  So it is while the
list is in program order (`InOrder`), and only the fusion of loads that are not neighbours leaves
that order.
-/

namespace Gem5
open List DynInst

/-! ### Straight-line groups -/

/-- A group of live instructions that follow one another, short of going round the address
space. -/
structure StraightLine (group : List Inst) : Prop where
  live : ∀ i ∈ group, i.squashed = false
  size : ∀ i ∈ group, i.getNPC = i.getPC + 2 ∨ i.getNPC = i.getPC + 4
  chain : group.IsChain fun x y => y.getPC = x.getNPC
  length : 4 * group.length < 2 ^ 64

/-- The sequential continuation at `npc` inside the group. -/
def resume (group : List Inst) (npc : Addr) : List Inst :=
  group.dropWhile fun i => i.getPC ≠ npc

namespace StraightLine
variable {A B group : List Inst} {i j last : Inst}

theorem of_infix (h : StraightLine group) (hA : A <:+: group) : StraightLine A where
  live k hk := h.live k (hA.subset hk)
  size k hk := h.size k (hA.subset hk)
  chain := h.chain.infix hA
  length := lt_of_le_of_lt (Nat.mul_le_mul_left 4 hA.length_le) h.length

section
variable (h : StraightLine (i :: A)) (hlast : (i :: A).getLast? = some last)
include h hlast

theorem last_npc :
    ∃ δ : ℕ, 0 < δ ∧ δ ≤ 4 * (i :: A).length ∧ last.getNPC = i.getPC + BitVec.ofNat 64 δ := by
  induction A generalizing i with
  | nil =>
    obtain rfl : i = last := by simpa using hlast
    rcases h.size i (by simp) with hi | hi
    · exact ⟨2, by omega, by simp, hi⟩
    · exact ⟨4, by omega, by simp, hi⟩
  | cons j A ih =>
    have htail : StraightLine (j :: A) := h.of_infix (suffix_cons i _).isInfix
    obtain ⟨δ, hpos, hle, hδ⟩ := ih htail (by simpa using hlast)
    have hnext : j.getPC = i.getNPC := (isChain_cons_cons.1 h.chain).1
    rw [hδ, hnext]
    simp only [length_cons] at hle ⊢
    rcases h.size i (by simp) with hi | hi
    · exact ⟨2 + δ, by omega, by omega, by rw [hi, BitVec.ofNat_add, ← add_assoc]; rfl⟩
    · exact ⟨4 + δ, by omega, by omega, by rw [hi, BitVec.ofNat_add, ← add_assoc]; rfl⟩

theorem last_npc_ne : last.getNPC ≠ i.getPC := by
  obtain ⟨δ, hpos, hle, hδ⟩ := h.last_npc hlast
  have hlen := h.length
  rw [hδ]
  intro heq
  have hzero : BitVec.ofNat 64 δ = 0 := by simpa using heq
  have := congrArg BitVec.toNat hzero
  simp only [BitVec.toNat_ofNat, BitVec.ofNat_eq_ofNat] at this
  omega
end

theorem resume_append (h : StraightLine (A ++ B)) (hlast : A.getLast? = some last) :
    resume (A ++ B) last.getNPC = B := by
  unfold resume
  have hA : ∀ k ∈ A, (decide (k.getPC ≠ last.getNPC)) = true := by
    intro k hk
    obtain ⟨A₁, A₂, rfl⟩ := append_of_mem hk
    have hk' : StraightLine (k :: A₂) := h.of_infix ⟨A₁, B, by simp⟩
    have hl : (k :: A₂).getLast? = some last := by simpa using hlast
    exact decide_eq_true (hk'.last_npc_ne hl).symm
  rw [dropWhile_append_of_pos hA]
  cases B with
  | nil => rfl
  | cons j B =>
    have hj : j.getPC = last.getNPC := (isChain_append.1 h.chain).2.2 last hlast j rfl
    rw [dropWhile_cons_of_neg (by simpa using hj)]

end StraightLine

/-! ### In program order -/

/-- The list for rename is the group up to `rest`, in order, and each instruction leads to the
next. -/
structure InOrder (group : List Inst) (vec : List DynInst) (rest : List Inst) : Prop where
  sites : ∃ taken, group = taken ++ rest ∧ vec.flatMap DynInst.sites = taken.map Inst.site
  npc : ∀ d ∈ vec, ∃ l last, d.sites = l ++ [last] ∧ last.1.npc = d.getNPC

/-- Behind each emitted instruction a restart executes the rest once. -/
def Restarts (group : List Inst) (emitted : List DynInst) : Prop :=
  ∀ k d, emitted[k]? = some d →
    ((emitted.take (k + 1)).flatMap DynInst.sites ++
      (resume group d.getNPC).map Inst.site).Perm (group.map Inst.site)

variable {group rest pending : List Inst} {vec : List DynInst} {w : IgnoreWindow} {inst : Inst}
  {p : Placement}

theorem InOrder.restarts (hg : StraightLine group) (h : InOrder group vec rest) :
    Restarts group vec := by
  intro k d hd
  obtain ⟨taken, rfl, hsites⟩ := h.sites
  obtain ⟨l, last, hl, hnpc⟩ := h.npc d (mem_of_getElem? hd)
  obtain ⟨hk, rfl⟩ := List.getElem?_eq_some_iff.1 hd
  rw [← take_append_drop (k + 1) vec, List.flatMap_append] at hsites
  obtain ⟨A, B, rfl, hA, hB⟩ := map_eq_append_iff.1 hsites.symm
  -- the last site of the committed ones is the last one of `A`
  have hlast : (A.map Inst.site).getLast? = some last := by
    rw [hA, ← take_concat_get' vec k hk, flatMap_append, flatMap_singleton, hl]
    simp
  obtain ⟨i, hi, rfl⟩ : ∃ i, A.getLast? = some i ∧ i.site = last := by
    simpa [getLast?_map] using hlast
  have hres : resume (A ++ B ++ rest) vec[k].getNPC = B ++ rest := by
    rw [← hnpc, append_assoc]
    rw [append_assoc] at hg
    exact hg.resume_append hi
  rw [hres, ← hA]
  simp

/-! ### Loads apart -/

/-- What `checkAndFuseNonConsec` asks of a head and a tail: two loads with the same base. -/
def SameBaseLoads (x y : Inst) : Prop :=
  x.flags.isLoad = true ∧ y.flags.isLoad = true ∧ x.srcRegIdx 0 = y.srcRegIdx 0

instance (x y : Inst) : Decidable (SameBaseLoads x y) :=
  inferInstanceAs (Decidable (_ ∧ _ ∧ _))

/-- Loads of the group with the same base are neighbours. -/
def Apart (group : List Inst) : Prop :=
  ∀ j < group.length, ∀ i < j - 1, ∀ x ∈ group[i]?, ∀ y ∈ group[j]?, ¬SameBaseLoads x y

theorem placeInst_nonConsec {c : DecodeConfig} {now : ℕ}
    (h : placeInst c now w vec inst pending = .ok p) (hpath : p.path = .nonConsec) :
    ∃ pre x gap, vec = pre ++ .plain x :: gap ∧ gap ≠ [] ∧ SameBaseLoads x inst := by
  unfold placeInst at h
  split at h
  · cases h
  · cases h
    cases hpath
  · split at h
    · cases h
    · cases h
      cases hpath
    · split at h
      · cases h
      · rename_i pre d gap hnon
        obtain ⟨x, hx, hgap, -⟩ := checkAndFuseNonConsec_fused hnon
        obtain ⟨a, b, m, n, hl⟩ := hx.loads
        refine ⟨pre, x, gap, hx.split, hgap, hx.load, ?_, ?_⟩
        · obtain ⟨signed, hkind⟩ := hl.tail.kind
          simp [Inst.flags, hl.tail.static, StaticInst.flags, ScalarInst.flags, hkind]
        · rw [hl.head.srcRegIdx_zero, hl.tail.srcRegIdx_zero, hl.sameBase]
      · cases h
        cases hpath

/-- What stands in the list, with others behind it, is in the group, and not next to what comes
now. -/
theorem InOrder.far {pre gap : List DynInst} {x : Inst}
    (h : InOrder group (pre ++ .plain x :: gap) (inst :: pending)) (hgap : gap ≠ []) :
    ∃ i j y, i < j - 1 ∧ j < group.length ∧ group[i]? = some y ∧ y.site = x.site ∧
      group[j]? = some inst := by
  obtain ⟨taken, rfl, hsites⟩ := h.sites
  obtain ⟨g, gap, rfl⟩ := exists_cons_of_ne_nil hgap
  obtain ⟨z, zs, hz⟩ := exists_cons_of_ne_nil g.sites_ne_nil
  have hlen := congrArg length hsites
  have hget := congrArg (·[(pre.flatMap DynInst.sites).length]?) hsites
  simp only [flatMap_append, flatMap_cons, sites_plain, hz, length_append, length_cons, length_map,
    cons_append, nil_append, getElem?_append_right le_rfl, Nat.sub_self, getElem?_cons_zero,
    getElem?_map] at hlen hget
  obtain ⟨y, hy, hyx⟩ := Option.map_eq_some_iff.1 hget.symm
  refine ⟨(pre.flatMap DynInst.sites).length, taken.length, y, by omega, by simp, ?_, hyx, by simp⟩
  rw [getElem?_append_left (by omega), hy]

/-! ### Whole runs -/

section
variable {c : DecodeConfig} {now : ℕ} {ras : DynInst → Addr} {vecLimit : Bool}
  {group : List Inst} {s t : DecodeState} {inst : Inst} {pending : List Inst} {p : Placement}
  {q : Option DecodeSquash}

section
variable (h : Advances c now vecLimit s inst pending p t q)
include h

theorem Advances.inOrder (hpath : roundPath c now vecLimit s ≠ .nonConsec)
    (hord : InOrder group s.fusionInst (inst :: pending)) :
    InOrder group t.fusionInst p.pending := by
  have hplaced := placeInst_placedBy h.place
  obtain ⟨b, targ, ht⟩ := h.fusionInst
  constructor
  · obtain ⟨taken, rfl, heq⟩ := hord.sites
    obtain ⟨consumed, hcons, -, hsites⟩ := hplaced.sites
    have hsites := hsites (h.path ▸ hpath)
    refine ⟨taken ++ consumed, by simp [hcons], ?_⟩
    simp only [ht, flatMap_append, flatMap_cons, sites_setPred, map_append]
      at hsites ⊢
    rw [hsites, heq]
  · intro d hd
    obtain ⟨m, hm, -, -⟩ := hplaced.splice
    rw [ht, mem_append, mem_cons] at hd
    rcases hd with hd | rfl | hd
    · exact hord.npc d (by simp [hm, hd])
    · simpa using hplaced.npc
    · exact hord.npc d (by simp [hm, hd])
end

theorem StraightLine.not_squashed {taken : List Inst}
    (hg : StraightLine (taken ++ inst :: pending)) : ¬inst.squashed = true := by
  simp [hg.live inst (by simp)]

section
variable (hg : StraightLine group)
include hg

theorem inOrder_inv (hfar : Apart group) :
    DecodeInv c now vecLimit (fun _ => True) (InOrder group) where
  skip vec inst pending hsq hord := by
    obtain ⟨taken, rfl, -⟩ := hord.sites
    exact absurd hsq hg.not_squashed
  place s inst pending p t q _ ha hord := by
    refine ha.inOrder (fun hpath => ?_) hord
    rw [ha.path] at hpath
    obtain ⟨pre, x, gap, hvec, hgap, hload, hload', hbase⟩ := placeInst_nonConsec ha.place hpath
    rw [hvec] at hord
    obtain ⟨i, j, y, hij, hj, hy, hsite, hinst⟩ := hord.far hgap
    have hstatic : y.staticInst = x.staticInst := congrArg Prod.snd hsite
    refine hfar j hj i hij y hy inst hinst ⟨?_, hload', ?_⟩
    · rw [Inst.flags, hstatic]
      exact hload
    · rw [← hbase]
      simp only [Inst.srcRegIdx, Inst.srcRegs, Inst.destRegs, hstatic]
end
end

/-- `addi x7, x7, 1` and then `lw x9, 0(x11)`. -/
def addiThenLoad : List Inst :=
  [.fetched (lwuX6.getPC + 4) 3 addiX7.staticInst,
    .fetched (lwuX6.getPC + 8) 4 (.scalar ⟨.lw, 9, 11, 0, 0, Opcode.immOk_zero _⟩)]

end Gem5
