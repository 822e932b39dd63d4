import Mathlib.Tactic

/-!
# Register files with hard-wired registers, and the frame rule

A register file is a function; some registers are hard-wired, that is, they read as a fixed value
and ignore writes.  An instruction is given by its operands: the registers it reads, the registers
it writes, and what it computes from the values read and from the rest of the state.

The frame rule is `run_write_comm`.
-/

namespace RegFile
variable {R V M ε : Type} [DecidableEq R] (hard : R → Prop) [DecidablePred hard] (z : V)

/-- Read a register; a hard-wired one reads as `z`. -/
def read (regs : R → V) (r : R) : V := if hard r then z else regs r

def write (regs : R → V) (r : R) (x : V) : R → V :=
  if hard r then regs else Function.update regs r x

def writes (regs : R → V) (ds : List R) (xs : List V) : R → V :=
  (ds.zip xs).foldl (fun rs p => write hard rs p.1 p.2) regs

theorem read_write (regs : R → V) (d r : R) (x : V) :
    read hard z (write hard regs d x) r = if r = d ∧ ¬hard r then x else read hard z regs r := by
  unfold read write
  by_cases hr : hard r
  · simp [hr]
  · by_cases hd : r = d
    · subst hd; simp [hr]
    · by_cases hdh : hard d <;> simp [hr, hd, hdh]

variable {hard z}

section
variable (regs : R → V)

theorem read_write_of_ne {d r : R} (x : V) (h : r ≠ d) :
    read hard z (write hard regs d x) r = read hard z regs r := by
  simp [read_write, h]

theorem read_write_self {d : R} (x : V) (h : ¬hard d) :
    read hard z (write hard regs d x) d = x := by
  simp [read_write, h]

theorem map_read_write {d : R} (x : V) {srcs : List R} (h : d ∉ srcs) :
    srcs.map (read hard z (write hard regs d x)) = srcs.map (read hard z regs) :=
  List.map_congr_left fun _ hr => read_write_of_ne regs x fun hrd => h (hrd ▸ hr)

theorem write_comm {d r : R} (x y : V) (h : r ≠ d) :
    write hard (write hard regs r x) d y = write hard (write hard regs d y) r x := by
  unfold write
  by_cases hr : hard r <;> by_cases hd : hard d <;> simp [hr, hd]
  exact Function.update_comm h x y regs

theorem writes_write_comm {r : R} (x : V) {ds : List R} (xs : List V) (h : r ∉ ds) :
    writes hard (write hard regs r x) ds xs = write hard (writes hard regs ds xs) r x := by
  unfold writes
  induction ds generalizing regs xs with
  | nil => rfl
  | cons d ds ih =>
    cases xs with
    | nil => rfl
    | cons y xs =>
      simp only [List.mem_cons, not_or] at h
      simp only [List.zip_cons_cons, List.foldl_cons]
      rw [write_comm regs x y h.1, ih _ _ h.2]

theorem read_writes_of_not_mem {r : R} {ds : List R} (xs : List V) (h : r ∉ ds) :
    read hard z (writes hard regs ds xs) r = read hard z regs r := by
  unfold writes
  induction ds generalizing regs xs with
  | nil => rfl
  | cons d ds ih =>
    cases xs with
    | nil => rfl
    | cons y xs =>
      simp only [List.mem_cons, not_or] at h
      simp only [List.zip_cons_cons, List.foldl_cons]
      rw [ih _ _ h.2, read_write_of_ne regs y h.1]
end

theorem writes_of_hard {ds : List R} (h : ∀ d ∈ ds, hard d) (regs : R → V) (xs : List V) :
    writes hard regs ds xs = regs := by
  unfold writes
  induction ds generalizing regs xs with
  | nil => rfl
  | cons d ds ih =>
    obtain ⟨hd, hds⟩ := List.forall_mem_cons.1 h
    cases xs with
    | nil => rfl
    | cons y xs =>
      simp only [List.zip_cons_cons, List.foldl_cons, write, if_pos hd]
      exact ih hds regs xs

/-! ### Instructions by operands -/

structure Instr (R V M ε : Type) where
  srcs : List R
  dests : List R
  effect : List V → M → Except ε (List V × M)

variable (hard z)

def exec (i : Instr R V M ε) (s : (R → V) × M) : Except ε ((R → V) × M) :=
  (i.effect (i.srcs.map (read hard z s.1)) s.2).map fun p => (writes hard s.1 i.dests p.1, p.2)

def run : List (Instr R V M ε) → (R → V) × M → Except ε ((R → V) × M)
  | [], s => .ok s
  | i :: is, s =>
    match exec hard z i s with
    | .error e => .error e
    | .ok t => run is t

variable {hard z}

theorem run_append (l₁ l₂ : List (Instr R V M ε)) (s : (R → V) × M) : run hard z (l₁ ++ l₂) s =
      match run hard z l₁ s with
      | .error e => .error e
      | .ok t => run hard z l₂ t := by
  induction l₁ generalizing s with
  | nil => rfl
  | cons i l₁ ih =>
    simp only [List.cons_append, run]
    cases exec hard z i s with
    | error e => rfl
    | ok t => exact ih t

theorem run_cons_ok {i : Instr R V M ε} {l : List (Instr R V M ε)} {s u : (R → V) × M}
    (h : run hard z (i :: l) s = .ok u) :
    ∃ t, exec hard z i s = .ok t ∧ run hard z l t = .ok u := by
  simp only [run] at h
  cases ht : exec hard z i s with
  | error e => rw [ht] at h; cases h
  | ok t => rw [ht] at h; exact ⟨t, rfl, h⟩

theorem exec_write_comm {i : Instr R V M ε} {r : R} (hs : r ∉ i.srcs) (hd : r ∉ i.dests) (x : V)
    (regs : R → V) (m : M) : exec hard z i (write hard regs r x, m) =
      (exec hard z i (regs, m)).map fun t => (write hard t.1 r x, t.2) := by
  simp only [exec, map_read_write regs x hs]
  cases i.effect (i.srcs.map (read hard z regs)) m with
  | error e => rfl
  | ok p => simp [Except.map, writes_write_comm regs x p.1 hd]

/-- **The frame rule**: a write to a register that nobody mentions moves over the run. -/
theorem run_write_comm {l : List (Instr R V M ε)} {r : R}
    (h : ∀ i ∈ l, r ∉ i.srcs ∧ r ∉ i.dests) (x : V) (regs : R → V) (m : M) :
    run hard z l (write hard regs r x, m) =
      (run hard z l (regs, m)).map fun t => (write hard t.1 r x, t.2) := by
  induction l generalizing regs m with
  | nil => rfl
  | cons i l ih =>
    obtain ⟨⟨hs, hd⟩, hl⟩ := List.forall_mem_cons.1 h
    simp only [run, exec_write_comm hs hd]
    cases exec hard z i (regs, m) with
    | error e => rfl
    | ok t => exact ih hl t.1 t.2

theorem run_read_of_not_mem {l : List (Instr R V M ε)} {r : R} (h : ∀ i ∈ l, r ∉ i.dests)
    {s t : (R → V) × M} (hrun : run hard z l s = .ok t) :
    read hard z t.1 r = read hard z s.1 r := by
  induction l generalizing s with
  | nil =>
    cases hrun
    rfl
  | cons i l ih =>
    obtain ⟨hd, hl⟩ := List.forall_mem_cons.1 h
    obtain ⟨u, hu, hut⟩ := run_cons_ok hrun
    rw [ih hl hut]
    unfold exec at hu
    cases he : i.effect (i.srcs.map (read hard z s.1)) s.2 with
    | error e => rw [he] at hu; cases hu
    | ok p =>
      rw [he] at hu
      cases hu
      exact read_writes_of_not_mem s.1 p.1 hd

end RegFile
