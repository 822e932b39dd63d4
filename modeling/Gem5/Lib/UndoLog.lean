import Mathlib.Data.List.DropRight

/-!
# Undo logs

A map `m : K → V` is overwritten entry by entry, and a log keeps, newest first, what each write has
put there and what was there before.
-/

namespace UndoLog
open List Function

/-- An entry of a log: the key that was written, the new value and the old one. -/
class Entry (ω : Type) (K V : outParam Type) where
  key : ω → K
  new : ω → V
  old : ω → V

variable {ω K V : Type} [DecidableEq K] [Entry ω K V]

open Entry (key new old)

def rollback (m : K → V) : List ω → K → V
  | [] => m
  | e :: log => rollback (Function.update m (key e) (old e)) log

def Consistent (m : K → V) : List ω → Prop
  | [] => True
  | e :: log => m (key e) = new e ∧ Consistent (Function.update m (key e) (old e)) log

@[simp] theorem consistent_nil (m : K → V) : Consistent m ([] : List ω) := trivial

@[simp] theorem consistent_cons {m : K → V} {e : ω} {log : List ω} : Consistent m (e :: log) ↔
      m (key e) = new e ∧ Consistent (update m (key e) (old e)) log := Iff.rfl

theorem rollback_append (m : K → V) (l₁ l₂ : List ω) :
    rollback m (l₁ ++ l₂) = rollback (rollback m l₁) l₂ := by
  induction l₁ generalizing m with
  | nil => rfl
  | cons e l₁ ih => exact ih _

theorem rollback_cases (m : K → V) (log : List ω) (k : K) :
    rollback m log k = m k ∨ ∃ e ∈ log, key e = k ∧ rollback m log k = old e := by
  induction log generalizing m with
  | nil => exact .inl rfl
  | cons e log ih =>
    rcases ih (update m (key e) (old e)) with h | ⟨e', he', hk, h⟩
    · by_cases hk : k = key e
      · subst hk
        rw [update_self] at h
        exact .inr ⟨e, mem_cons_self, rfl, h⟩
      · rw [update_of_ne hk] at h
        exact .inl h
    · exact .inr ⟨e', mem_cons_of_mem e he', hk, h⟩

theorem consistent_append {m : K → V} {l₁ l₂ : List ω} :
    Consistent m (l₁ ++ l₂) ↔ Consistent m l₁ ∧ Consistent (rollback m l₁) l₂ := by
  induction l₁ generalizing m with
  | nil => simp [rollback]
  | cons e l₁ ih => simp [ih, rollback, and_assoc]

theorem update_undo (m : K → V) {e : ω} (hold : old e = m (key e)) (v : V) :
    update (update m (key e) v) (key e) (old e) = m := by
  rw [update_idem, hold, update_eq_self]

theorem Consistent.push {m : K → V} {log : List ω} (h : Consistent m log) {e : ω}
    (hold : old e = m (key e)) : Consistent (update m (key e) (new e)) (e :: log) := by
  rw [consistent_cons, update_self, update_undo m hold]
  exact ⟨rfl, h⟩

/-! ### Resources -/

section
variable {ρ : Type} (φ : V → ρ)

/-- The map uses `p` for the key `k`, or the log keeps it for an entry that has been taken from
it. -/
def Held (m : K → V) (log : List ω) (k : K) (p : ρ) : Prop :=
  φ (m k) = p ∨ ∃ e ∈ log, φ (old e) = p ∧ φ (new e) ≠ p

variable {φ} {m : K → V} {log : List ω} {k : K} {p : ρ}

theorem held_rollback (hc : Consistent m log) (hk : φ (rollback m log k) = p) :
    Held φ m log k p := by
  induction log generalizing m with
  | nil => exact .inl hk
  | cons e log ih =>
    obtain ⟨hnew, hc⟩ := hc
    rcases ih hc hk with hk | ⟨e', he', hp⟩
    · by_cases hkey : k = key e
      · -- the old value of `e`: kept by the log, unless the new one uses the same resource
        subst hkey
        rw [update_self] at hk
        by_cases hsame : φ (new e) = p
        · exact .inl (by rw [hnew, hsame])
        · exact .inr ⟨e, mem_cons_self, hk, hsame⟩
      · rw [update_of_ne hkey] at hk
        exact .inl hk
    · exact .inr ⟨e', mem_cons_of_mem e he', hp⟩

theorem held_new {l₁ l₂ : List ω} {e : ω} (hc : Consistent m (l₁ ++ e :: l₂)) :
    Held φ m l₁ (key e) (φ (new e)) := by
  obtain ⟨h₁, hnew, -⟩ := consistent_append.1 hc
  exact held_rollback h₁ (by rw [hnew])
end

/-! ### Transactions -/

section
variable {τ : Type} (tag : ω → ℕ) (num : τ → ℕ)

/-- The open transactions `ts`, newest first, with their writes on top of the log; the number of
every open transaction is above `bound`, and the rest of the log is about closed ones.  `R m ts` is
what is known of the map after the transactions `ts`, and `B t ts m batch` of the writes `batch` of
`t`, which came after `ts` and found the map `m`. -/
def Staged (R : (K → V) → List τ → Prop) (B : τ → List τ → (K → V) → List ω → Prop) (bound : ℕ) :
    (K → V) → List ω → List τ → Prop
  | m, log, [] => R m [] ∧ ∀ e ∈ log, tag e ≤ bound
  | m, log, t :: ts =>
    R m (t :: ts) ∧ bound < num t ∧ (∀ u ∈ ts, num u < num t) ∧
      ∃ batch rest, log = batch ++ rest ∧ (∀ e ∈ batch, tag e = num t) ∧
        B t ts (rollback m batch) batch ∧ Staged R B bound (rollback m batch) rest ts

variable {tag num} {R R' : (K → V) → List τ → Prop}
  {B B' : τ → List τ → (K → V) → List ω → Prop} {bound s : ℕ} {m : K → V} {log : List ω}
  {t : τ} {ts : List τ}

section
variable (h : Staged tag num R B bound m log ts)
include h

theorem Staged.now : R m ts := by
  cases ts <;> exact h.1

theorem Staged.bound_lt {t : τ} (ht : t ∈ ts) : bound < num t := by
  induction ts generalizing m log with
  | nil => cases ht
  | cons u ts ih =>
    obtain ⟨-, hbound, -, batch, rest, -, -, -, hrest⟩ := h
    rcases mem_cons.1 ht with rfl | ht
    · exact hbound
    · exact ih hrest ht

theorem Staged.base : ∃ l₁ l₂, log = l₁ ++ l₂ ∧ R (rollback m l₁) [] := by
  induction ts generalizing m log with
  | nil => exact ⟨[], log, rfl, h.1⟩
  | cons t ts ih =>
    obtain ⟨-, -, -, batch, rest, rfl, -, -, hrest⟩ := h
    obtain ⟨l₁, l₂, rfl, hl⟩ := ih hrest
    exact ⟨batch ++ l₁, l₂, by rw [append_assoc], by rwa [rollback_append]⟩

theorem Staged.pairwise : ts.Pairwise fun t u => num u < num t := by
  induction ts generalizing m log with
  | nil => exact List.Pairwise.nil
  | cons t ts ih =>
    obtain ⟨-, -, hlt, batch, rest, -, -, -, hrest⟩ := h
    exact pairwise_cons.2 ⟨hlt, ih hrest⟩
end

theorem Staged.level {us : List τ} (h : Staged tag num R B bound m log (us ++ t :: ts)) :
    ∃ l₁ batch l₂, log = l₁ ++ batch ++ l₂ ∧ R (rollback m (l₁ ++ batch)) ts ∧
      B t ts (rollback m (l₁ ++ batch)) batch := by
  induction us generalizing m log with
  | nil =>
    obtain ⟨-, -, -, batch, rest, rfl, -, hB, hrest⟩ := h
    exact ⟨[], batch, rest, rfl, hrest.now, hB⟩
  | cons u us ih =>
    obtain ⟨-, -, -, batch', rest, rfl, -, -, hrest⟩ := h
    obtain ⟨l₁, batch, l₂, rfl, hR, hB⟩ := ih hrest
    rw [← rollback_append, ← append_assoc] at hR hB
    exact ⟨batch' ++ l₁, batch, l₂, by simp, hR, hB⟩

theorem Staged.map {τ' : Type} {num' : τ' → ℕ} {R' : (K → V) → List τ' → Prop}
    {B' : τ' → List τ' → (K → V) → List ω → Prop} (φ : τ → τ')
    (h : Staged tag num R B bound m log ts) (hnum : ∀ t ∈ ts, num' (φ t) = num t)
    (hR : ∀ l₁ l₂ us, log = l₁ ++ l₂ → us <:+ ts → R (rollback m l₁) us →
      R' (rollback m l₁) (us.map φ))
    (hB : ∀ l₁ batch l₂ t us, log = l₁ ++ batch ++ l₂ → t :: us <:+ ts →
      B t us (rollback m (l₁ ++ batch)) batch →
      B' (φ t) (us.map φ) (rollback m (l₁ ++ batch)) batch) :
    Staged tag num' R' B' bound m log (ts.map φ) := by
  induction ts generalizing m log with
  | nil => exact ⟨hR [] log [] rfl suffix_rfl h.1, h.2⟩
  | cons t ts ih =>
    obtain ⟨hnow, hbound, hlt, batch, rest, rfl, htag, hbatch, hrest⟩ := h
    obtain ⟨ht, hts⟩ := forall_mem_cons.1 hnum
    refine ⟨hR [] _ _ rfl suffix_rfl hnow, ht ▸ hbound, ?_, batch, rest, rfl, ?_, ?_, ?_⟩
    · rw [forall_mem_map]
      intro u hu
      rw [hts u hu, ht]
      exact hlt u hu
    · rw [ht]
      exact htag
    · exact hB [] batch rest t ts rfl suffix_rfl hbatch
    · refine ih hrest hts (fun l₁ l₂ us hlog hus hRus => ?_) fun l₁ b l₂ u us hlog hus hBus => ?_
      · rw [← rollback_append] at hRus ⊢
        exact hR (batch ++ l₁) l₂ us (by rw [hlog, append_assoc])
          (hus.trans (suffix_cons t ts)) hRus
      · rw [← rollback_append, ← append_assoc] at hBus ⊢
        exact hB (batch ++ l₁) b l₂ u us (by simp [hlog]) (hus.trans (suffix_cons t ts)) hBus

theorem Staged.tag_cases (h : Staged tag num R B bound m log ts) {e : ω} (he : e ∈ log) :
    tag e ≤ bound ∨ ∃ t ∈ ts, tag e = num t := by
  induction ts generalizing m log with
  | nil => exact .inl (h.2 e he)
  | cons t ts ih =>
    obtain ⟨-, -, -, batch, rest, rfl, htag, -, hrest⟩ := h
    rcases mem_append.1 he with he | he
    · exact .inr ⟨t, mem_cons_self, htag e he⟩
    · exact (ih hrest he).imp_right fun ⟨u, hu, heq⟩ => ⟨u, mem_cons_of_mem t hu, heq⟩

omit [Entry ω K V] in
theorem takeWhile_dropWhile_of_not {p : ω → Bool} {l : List ω} (h : ∀ e ∈ l, ¬p e = true) :
    l.takeWhile p = [] ∧ l.dropWhile p = l := by
  cases l with
  | nil => exact ⟨rfl, rfl⟩
  | cons e l => simp [h e mem_cons_self]

theorem Staged.squash (h : Staged tag num R B bound m log ts) (hs : bound ≤ s) :
    Staged tag num R B bound (rollback m (log.takeWhile (s < tag ·)))
      (log.dropWhile (s < tag ·)) (ts.dropWhile (s < num ·)) := by
  induction ts generalizing m log with
  | nil =>
    have hnone := takeWhile_dropWhile_of_not (p := (s < tag ·)) fun e he => by
      have := h.2 e he
      simp only [decide_eq_true_eq]
      omega
    rw [hnone.1, hnone.2]
    exact h
  | cons t ts ih =>
    by_cases hst : s < num t
    · obtain ⟨-, -, -, batch, rest, rfl, htag, -, hrest⟩ := h
      have hbatch : ∀ e ∈ batch, decide (s < tag e) = true := by
        intro e he
        simpa [htag e he] using hst
      rw [takeWhile_append_of_pos hbatch, dropWhile_append_of_pos hbatch, rollback_append,
        dropWhile_cons_of_pos (by simpa using hst)]
      exact ih hrest
    · -- every write is at most the newest open transaction
      have hle : ∀ e ∈ log, ¬decide (s < tag e) = true := by
        intro e he
        rw [decide_eq_true_eq]
        rcases h.tag_cases he with hb | ⟨u, hu, heq⟩
        · omega
        · rcases mem_cons.1 hu with rfl | hu
          · omega
          · have := h.2.2.1 u hu
            omega
      have hnone := takeWhile_dropWhile_of_not hle
      rw [hnone.1, hnone.2, dropWhile_cons_of_neg (by simpa using hst)]
      exact h

omit [Entry ω K V] in
theorem rdropWhile_append {p : ω → Bool} {l : List ω} (l' : List ω) (h : ∀ e ∈ l, ¬p e = true) :
    (l ++ l').rdropWhile p = l ++ l'.rdropWhile p := by
  have hl : l.reverse.dropWhile p = l.reverse :=
    (takeWhile_dropWhile_of_not fun e he => h e (mem_reverse.1 he)).2
  rw [List.rdropWhile, List.rdropWhile, reverse_append, dropWhile_append, hl]
  split_ifs with hnil
  · simp [List.isEmpty_iff.1 hnil]
  · simp

theorem Staged.release (h : Staged tag num R B bound m log ts) (hs : s ≤ bound) :
    Staged tag num R B bound m (log.rdropWhile (tag · ≤ s)) ts := by
  induction ts generalizing m log with
  | nil =>
    refine ⟨h.1, fun e he => h.2 e ?_⟩
    have hsplit := rdropWhile_append_rtakeWhile (p := (tag · ≤ s)) (l := log)
    exact hsplit ▸ mem_append_left _ he
  | cons t ts ih =>
    obtain ⟨hR, hbound, hlt, batch, rest, rfl, htag, hB, hrest⟩ := h
    refine ⟨hR, hbound, hlt, batch, rest.rdropWhile (tag · ≤ s), ?_, htag, hB, ih hrest⟩
    refine rdropWhile_append rest fun e he => ?_
    have := htag e he
    simp only [decide_eq_true_eq]
    omega

theorem Staged.commit (h : Staged tag num R B bound m log (ts ++ [t]))
    (hR : ∀ m us, R m (us ++ [t]) → R' m us)
    (hB : ∀ u us m batch, B u (us ++ [t]) m batch → B' u us m batch) :
    Staged tag num R' B' (num t) m log ts := by
  induction ts generalizing m log with
  | nil =>
    obtain ⟨hm, hbound, -, batch, rest, rfl, htag, -, -, hrest⟩ := h
    refine ⟨hR m [] hm, fun e he => ?_⟩
    rcases mem_append.1 he with he | he
    · exact (htag e he).le
    · exact (hrest e he).trans hbound.le
  | cons u ts ih =>
    obtain ⟨hm, -, hlt, batch, rest, hlog, htag, hbatch, hrest⟩ := h
    exact ⟨hR m _ hm, hlt t (by simp), fun v hv => hlt v (by simp [hv]), batch, rest, hlog, htag,
      hB _ _ _ _ hbatch, ih hrest⟩
end
end UndoLog
