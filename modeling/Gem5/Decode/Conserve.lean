import Gem5.Decode.Insts
import Gem5.Fusion.SlliAddLoad

/-!
# What decode does with the buffer

Decode takes the first instructions of the buffer, drops the squashed ones and emits the others,
each of them as a part of one instruction.

`checkAndFuseTriple` looks at the front of the buffer before the loop has tested whether that
instruction is squashed.
-/

namespace Gem5
open List DynInst DecodeState

def Inst.unpredicted (i : Inst) : Inst :=
  { i with predTaken := false, predPC := PCState.empty }

def DynInst.origins (d : DynInst) : List Inst := d.parts.map Inst.unpredicted

@[simp] theorem Inst.squashed_unpredicted (i : Inst) : i.unpredicted.squashed = i.squashed := rfl

section
variable (d : DynInst) (t : Bool) (p : PCState)

@[simp] theorem DynInst.origins_setPred : (d.setPred t p).origins = d.origins := by
  cases d <;> rfl

@[simp] theorem DynInst.seqNum_setPred : (d.setPred t p).info.seqNum = d.info.seqNum := by
  cases d <;> rfl
end

theorem flatMap_origins (l : List DynInst) :
    l.flatMap origins = (l.flatMap parts).map Inst.unpredicted := map_flatMap.symm

/-- Decode loses, doubles and revives nothing. -/
structure DecodesWell (decodeWidth : ℕ) (buffer : List Inst) (r : DecodeState) : Prop where
  /-- Each live instruction taken from the buffer is a part of one emitted instruction; the rest of
  the buffer stays unless a squash has cleared it. -/
  once : ∃ taken rest, buffer = taken ++ rest ∧
    ((r.fusionInst.flatMap DynInst.origins).filter (!·.squashed)).Perm
      ((taken.filter (!·.squashed)).map Inst.unpredicted) ∧
    r.pending = if r.squash.isSome then [] else rest
  live : ∀ d ∈ r.fusionInst, ∀ i ∈ d.parts, i.squashed = false
  increasing : (buffer.map (·.seqNum)).Pairwise (· < ·) →
    (r.fusionInst.map (·.info.seqNum)).Pairwise (· < ·)
  width : r.fusionInst.length ≤ decodeWidth

/-! ### A round -/

section
variable {w : IgnoreWindow} {vec : List DynInst} {inst : Inst} {pending : List Inst}
  {p : Placement}

theorem PlacedBy.seqNums (h : PlacedBy w vec inst pending p) :
    ((p.before ++ p.inst :: p.gap).map (·.info.seqNum) ++ p.pending.map (·.seqNum)).Sublist
      (vec.map (·.info.seqNum) ++ (inst :: pending).map (·.seqNum)) := by
  cases h with
  | unfused w' => simp [info]
  | pair w' hvec => simp [hvec, info, mkFused]
  | triple hvec hbuf =>
    simp only [hvec, hbuf, map_append, append_assoc]
    refine ((List.Sublist.cons_cons _ ?_).append_left _)
    exact (sublist_cons_self _ _).trans (sublist_cons_self _ _)
  | nonConsec w' hvec =>
    simp only [hvec, map_append, append_assoc]
    exact (((sublist_cons_self _ _).append_left _).cons_cons _).append_left _

theorem PlacedBy.length_le (h : PlacedBy w vec inst pending p) :
    (p.before ++ p.inst :: p.gap).length ≤ vec.length + 1 := by
  cases h with
  | unfused w' => simp
  | pair w' hvec => simp [hvec]
  | triple hvec => simp [hvec]
  | nonConsec w' hvec =>
    simp only [hvec, length_append, length_cons]
    omega
end

section
variable {c : DecodeConfig} {now : ℕ} {ras : DynInst → Addr} {vecLimit : Bool}
  {s t : DecodeState} {inst : Inst} {pending : List Inst} {p : Placement}
  {q : Option DecodeSquash}

section
variable (h : Advances c now vecLimit s inst pending p t q)
include h

theorem Advances.origins :
    ∃ consumed, inst :: pending = consumed ++ p.pending ∧ consumed.length = p.consumed ∧
      (t.fusionInst.flatMap DynInst.origins).Perm
        (s.fusionInst.flatMap DynInst.origins ++ consumed.map Inst.unpredicted) := by
  obtain ⟨consumed, hsplit, hlen, hperm, -⟩ := (placeInst_placedBy h.place).parts
  obtain ⟨taken, targ, ht⟩ := h.fusionInst
  refine ⟨consumed, hsplit, hlen, ?_⟩
  have heq : t.fusionInst.flatMap DynInst.origins =
      (p.before ++ p.inst :: p.gap).flatMap DynInst.origins := by
    simp [ht]
  rw [heq, flatMap_origins, flatMap_origins, ← map_append]
  exact hperm.map _

theorem Advances.seqNums : (t.fusionInst.map (·.info.seqNum) ++ p.pending.map (·.seqNum)).Sublist
      (s.fusionInst.map (·.info.seqNum) ++ (inst :: pending).map (·.seqNum)) := by
  obtain ⟨taken, targ, ht⟩ := h.fusionInst
  simpa [ht] using (placeInst_placedBy h.place).seqNums

theorem Advances.width : s.toRenameIndex < c.decodeWidth := by
  by_contra hge
  have := h.placed
  simp [roundPlacement, not_lt.1 hge] at this
end

def TakesSquashed (c : DecodeConfig) (now : ℕ) (vecLimit : Bool) (s : DecodeState) : Prop :=
  roundPath c now vecLimit s = .triple ∧ ∃ z, s.pending[1]? = some z ∧ z.squashed = true

section
variable (h : Advances c now vecLimit s inst pending p t q)
include h

theorem Advances.takesSquashed_iff
    {consumed : List Inst} (hsplit : inst :: pending = consumed ++ p.pending)
    (hlen : consumed.length = p.consumed) :
    (∃ i ∈ consumed, i.squashed = true) ↔ TakesSquashed c now vecLimit s := by
  rw [(placeInst_placedBy h.place).consumed_eq] at hlen
  unfold TakesSquashed
  rw [h.path, h.buffer]
  by_cases htriple : p.path = .triple
  · rw [if_pos htriple, length_eq_two] at hlen
    obtain ⟨x, z, rfl⟩ := hlen
    injection hsplit with hx hz
    subst hx
    simp [h.live, htriple, hz]
  · rw [if_neg htriple, length_eq_one_iff] at hlen
    obtain ⟨x, rfl⟩ := hlen
    injection hsplit with hx hz
    subst hx
    simp [h.live, htriple]

theorem Advances.exists_squashed_iff :
    (∃ i ∈ t.fusionInst.flatMap DynInst.origins, i.squashed = true) ↔
      (∃ i ∈ s.fusionInst.flatMap DynInst.origins, i.squashed = true) ∨
        TakesSquashed c now vecLimit s := by
  obtain ⟨consumed, hsplit, hlen, hperm⟩ := h.origins
  rw [← h.takesSquashed_iff hsplit hlen]
  simp only [hperm.mem_iff, mem_append, or_and_right, exists_or, mem_map,
    exists_exists_and_eq_and, Inst.squashed_unpredicted]
end
end

theorem not_takesSquashed_of_none {c : DecodeConfig} {now : ℕ} {vecLimit : Bool} {s : DecodeState}
    (h : roundPlacement c now vecLimit s = none) : ¬TakesSquashed c now vecLimit s := by
  simp [TakesSquashed, roundPath, h]

/-! ### The loop -/

section
variable {c : DecodeConfig} {now : ℕ} {ras : DynInst → Addr} {w : IgnoreWindow}
  {vecLimit : Bool} {buffer : List Inst} {r : DecodeState}

def Conserved (buffer : List Inst) (vec : List DynInst) (rest : List Inst) : Prop :=
  ∃ taken, buffer = taken ++ rest ∧
    ((vec.flatMap DynInst.origins).filter (!·.squashed)).Perm
      ((taken.filter (!·.squashed)).map Inst.unpredicted)

theorem filter_live_map (l : List Inst) : (l.map Inst.unpredicted).filter (!·.squashed) =
      (l.filter (!·.squashed)).map Inst.unpredicted := by
  rw [filter_map]
  rfl

theorem conserved_inv : DecodeInv c now vecLimit (fun _ => True) (Conserved buffer) where
  skip vec inst pending hsq := by
    rintro ⟨taken, rfl, hperm⟩
    exact ⟨taken ++ [inst], by simp, by simpa [hsq] using hperm⟩
  place s inst pending p t q _ ha := by
    rintro ⟨taken, rfl, hperm⟩
    obtain ⟨consumed, hsplit, -, hnew⟩ := ha.origins
    refine ⟨taken ++ consumed, by rw [hsplit, append_assoc], ?_⟩
    refine (hnew.filter _).trans ?_
    rw [filter_append, filter_append, map_append, filter_live_map]
    exact hperm.append_right _

theorem increasing_inv : DecodeInv c now vecLimit (fun _ => True) (fun vec rest =>
    (vec.map (·.info.seqNum) ++ rest.map (·.seqNum)).Pairwise (· < ·)) where
  skip _ _ _ _ h :=
    h.sublist ((sublist_cons_self _ _).append_left _)
  place _ _ _ _ _ _ _ ha h := h.sublist ha.seqNums

section
variable (h : decodeInsts c now ras w buffer = .ok r)
include h

theorem decodeInsts_increasing (hbuffer : (buffer.map (·.seqNum)).Pairwise (· < ·)) :
    (r.fusionInst.map (·.info.seqNum)).Pairwise (· < ·) := by
  obtain ⟨rest, hrest⟩ := increasing_inv.iter (s := .start w buffer)
    (by simpa [start] using hbuffer) (fun _ _ => trivial) h
  exact (pairwise_append.1 hrest).1

theorem decodeInsts_length_le : r.fusionInst.length ≤ c.decodeWidth := by
  have hstep (s t : DecodeState)
      (hs : s.fusionInst.length ≤ s.toRenameIndex ∧ s.toRenameIndex ≤ c.decodeWidth)
      (hst : decodeRound c now ras (vecDecodeLimit buffer) s = .ok (.again t) ∨
        decodeRound c now ras (vecDecodeLimit buffer) s = .ok (.done t)) :
      t.fusionInst.length ≤ t.toRenameIndex ∧ t.toRenameIndex ≤ c.decodeWidth := by
    rcases decodeRound_next hst with ⟨rfl, -⟩ | ⟨pending, rfl, -⟩ | ⟨inst, pending, p, q, ha⟩
    · exact hs
    · exact hs
    · have hlen := (placeInst_placedBy ha.place).length_le
      have hwidth := ha.width
      obtain ⟨taken, targ, rfl⟩ := ha.result
      simp only [advance, length_append, length_cons] at hlen ⊢
      omega
  have hend := Loop.iter_inv
    (fun s => s.fusionInst.length ≤ s.toRenameIndex ∧ s.toRenameIndex ≤ c.decodeWidth)
    (fun s t hs hst => hstep s t hs (.inl hst)) (fun s t hs hst => hstep s t hs (.inr hst))
    (by simp [start]) h
  exact hend.1.trans hend.2

theorem decodeInsts_exists_squashed_iff : (∃ i ∈ r.fusionInst.flatMap origins, i.squashed = true) ↔
      ∃ s ∈ decodeHeads c now ras w buffer, TakesSquashed c now (vecDecodeLimit buffer) s := by
  have hstart : ¬∃ i ∈ (start w buffer).fusionInst.flatMap origins,
      i.squashed = true := by
    simp [start]
  refine (Loop.iter_or_heads (fun s => ∃ i ∈ s.fusionInst.flatMap origins, i.squashed = true) _
    (fun s t hst => ?_) h).trans (or_iff_right hstart)
  rcases decodeRound_next hst with ⟨rfl, hnone⟩ | ⟨pending, rfl, hnone⟩ | ⟨inst, pending, p, q, ha⟩
  · exact (or_iff_left (not_takesSquashed_of_none hnone)).symm
  · exact (or_iff_left (not_takesSquashed_of_none hnone)).symm
  · exact ha.exists_squashed_iff
end

theorem exists_origins_squashed (l : List DynInst) : (∃ i ∈ l.flatMap origins, i.squashed = true) ↔
      ¬∀ d ∈ l, ∀ i ∈ d.parts, i.squashed = false := by
  simp [origins, and_assoc]

end

end Gem5
