import Mathlib.Data.List.Basic

/-!
# Loops that may stop early or fail

`iter body n s` runs `body` at most `n` times from the state `s`.  A round ends with `again t` (the
loop goes on from `t`), with `done t` (a `break`, or a guard that failed) or with an error.

`iter_inv` is the invariant rule, `foldlM_inv` and `foldlM_ok` are those for loops over lists.
-/

namespace Loop
open List
variable {σ ε : Type}

inductive Next (σ : Type)
  | again (s : σ)
  | done (s : σ)

/-- At most `n` rounds of a loop. -/
def iter (body : σ → Except ε (Next σ)) : ℕ → σ → Except ε σ
  | 0, s => .ok s
  | n + 1, s =>
    match body s with
    | .error e => .error e
    | .ok (.done t) => .ok t
    | .ok (.again t) => iter body n t

def heads (body : σ → Except ε (Next σ)) : ℕ → σ → List σ
  | 0, _ => []
  | n + 1, s =>
    s :: match body s with
      | .ok (.again t) => heads body n t
      | _ => []

variable {body : σ → Except ε (Next σ)}

variable {s t r : σ} {n : ℕ} {α : Type}

theorem iter_again (h : body s = .ok (.again t)) (n : ℕ) : iter body (n + 1) s = iter body n t := by
  simp [iter, h]

theorem iter_done (h : body s = .ok (.done t)) (n : ℕ) : iter body (n + 1) s = .ok t := by
  simp [iter, h]

theorem heads_again (h : body s = .ok (.again t)) (n : ℕ) :
    heads body (n + 1) s = s :: heads body n t := by
  simp [heads, h]

theorem iter_succ_ok (h : iter body (n + 1) s = .ok r) :
    body s = .ok (.done r) ∨ ∃ t, body s = .ok (.again t) ∧ iter body n t = .ok r := by
  rcases hb : body s with e | ⟨t⟩ | ⟨t⟩
  · simp [iter, hb] at h
  · exact .inr ⟨t, rfl, iter_again hb n ▸ h⟩
  · rw [iter_done hb] at h
    cases h
    exact .inl rfl

theorem iter_inv_heads (I Q C : σ → Prop)
    (hagain : ∀ s t, I s → C s → body s = .ok (.again t) → I t)
    (hdone : ∀ s t, I s → C s → body s = .ok (.done t) → Q t) (hQ : ∀ s, I s → Q s) (hs : I s)
    (hC : ∀ t ∈ heads body n s, C t) (h : iter body n s = .ok r) : Q r := by
  induction n generalizing s with
  | zero =>
    simp only [iter, Except.ok.injEq] at h
    subst h
    exact hQ s hs
  | succ n ih =>
    have hCs : C s := hC s (by simp [heads])
    rcases iter_succ_ok h with hb | ⟨t, hb, h⟩
    · exact hdone s r hs hCs hb
    · rw [heads_again hb] at hC
      exact ih (hagain s t hs hCs hb) (fun u hu => hC u (mem_cons_of_mem s hu)) h

section
variable (I : σ → Prop) (hagain : ∀ s t, I s → body s = .ok (.again t) → I t)
include hagain

theorem iter_inv
    (hdone : ∀ s t, I s → body s = .ok (.done t) → I t) (hs : I s) (h : iter body n s = .ok r) :
    I r :=
  iter_inv_heads I I (fun _ => True) (fun s t hs _ => hagain s t hs)
    (fun s t hs _ => hdone s t hs) (fun _ hs => hs) hs (fun _ _ => trivial) h

theorem exists_head {u : σ}
    (hs : I s) (hu : u ∈ heads body n s) : I u ∧ ∃ m, iter body n s = iter body (m + 1) u := by
  induction n generalizing s with
  | zero => simp [heads] at hu
  | succ n ih =>
    by_cases hus : u = s
    · subst hus
      exact ⟨hs, n, rfl⟩
    · rcases hb : body s with e | ⟨t⟩ | ⟨t⟩
      · simp [heads, hb, hus] at hu
      · rw [heads_again hb, mem_cons] at hu
        rw [iter_again hb]
        exact ih (hagain s t hs hb) (hu.resolve_left hus)
      · simp [heads, hb, hus] at hu
end

theorem iter_or_heads (P E : σ → Prop)
    (hstep : ∀ s t, body s = .ok (.again t) ∨ body s = .ok (.done t) → (P t ↔ P s ∨ E s))
    (h : iter body n s = .ok r) : P r ↔ P s ∨ ∃ u ∈ heads body n s, E u := by
  induction n generalizing s with
  | zero =>
    cases h
    simp [heads]
  | succ n ih =>
    rcases iter_succ_ok h with hb | ⟨t, hb, h⟩
    · have hheads : heads body (n + 1) s = [s] := by simp [heads, hb]
      rw [hstep s r (.inr hb), hheads]
      simp
    · rw [ih h, hstep s t (.inl hb), heads_again hb]
      simp [or_assoc]

section
variable {f : σ → α → Except ε σ}

theorem foldlM_inv (I : σ → Prop)
    (hstep : ∀ s a t, I s → f s a = .ok t → I t) {l : List α} (hs : I s)
    (hl : l.foldlM f s = .ok t) :
    I t := by
  induction l generalizing s with
  | nil =>
    cases hl
    exact hs
  | cons a l ih =>
    rw [foldlM_cons] at hl
    cases ha : f s a with
    | error e =>
      rw [ha] at hl
      cases hl
    | ok u =>
      rw [ha] at hl
      exact ih (hstep s a u hs ha) hl

theorem foldlM_done_ok (I : List α → σ → Prop) {l : List α}
    (hstep : ∀ done a rest, l = done ++ a :: rest → ∀ s, I done s →
      ∃ t, f s a = .ok t ∧ I (done ++ [a]) t) (hs : I [] s) :
    ∃ t, l.foldlM f s = .ok t ∧ I l t := by
  have hrest : ∀ rest done s, l = done ++ rest → I done s →
      ∃ t, rest.foldlM f s = .ok t ∧ I l t := by
    intro rest
    induction rest with
    | nil =>
      intro done s hl hs
      rw [append_nil] at hl
      subst hl
      exact ⟨s, rfl, hs⟩
    | cons a rest ih =>
      intro done s hl hs
      obtain ⟨u, hu, hIu⟩ := hstep done a rest hl s hs
      obtain ⟨t, ht, hIt⟩ := ih (done ++ [a]) u (by rw [hl, append_assoc]; rfl) hIu
      refine ⟨t, ?_, hIt⟩
      rw [foldlM_cons, hu]
      exact ht
  exact hrest l [] s rfl hs

theorem foldlM_ok (I : σ → Prop) {l : List α}
    (hstep : ∀ s, ∀ a ∈ l, I s → ∃ t, f s a = .ok t ∧ I t) (hs : I s) :
    ∃ t, l.foldlM f s = .ok t ∧ I t := by
  apply foldlM_done_ok (fun _ s => I s) _ hs
  intro done a rest hl s hs
  refine hstep s a ?_ hs
  rw [hl]
  exact mem_append_right done mem_cons_self
end

theorem foldlM_range_ok {f : σ → ℕ → Except ε σ} (I : ℕ → σ → Prop)
    (hstep : ∀ i < n, ∀ s, I i s → ∃ t, f s i = .ok t ∧ I (i + 1) t) (hs : I 0 s) :
    ∃ t, (List.range n).foldlM f s = .ok t ∧ I n t := by
  induction n with
  | zero => exact ⟨s, rfl, hs⟩
  | succ n ih =>
    obtain ⟨u, hu, hIu⟩ := ih fun i hi => hstep i (Nat.lt_succ_of_lt hi)
    obtain ⟨t, ht, hIt⟩ := hstep n (Nat.lt_succ_self n) u hIu
    refine ⟨t, ?_, hIt⟩
    rw [range_succ, foldlM_append, hu]
    simp only [bind, Except.bind, foldlM_cons, foldlM_nil, ht]
    rfl

end Loop
