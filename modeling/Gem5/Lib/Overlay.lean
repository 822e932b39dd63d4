import Mathlib.Data.List.Basic

/-!
# Writes laid over a memory

A write is a partial function: it has a value where it writes and none elsewhere.  `layOver w m` is
the memory `m` after the write `w`, and `stack v w` is the write `w` followed by `v`.
-/

namespace Overlay
open List Function
variable {α β : Type}

/-- The values of `w` where it has one, those of `m` elsewhere. -/
def layOver (w : α → Option β) (m : α → β) : α → β :=
  fun a => (w a).getD (m a)

/-- The newer write `v` on the older `w`. -/
def stack (v w : α → Option β) : α → Option β :=
  fun a => (v a).or (w a)

def nothing : α → Option β :=
  fun _ => none

@[simp]
theorem layOver_nothing (m : α → β) : layOver nothing m = m := rfl

@[simp]
theorem stack_nothing (w : α → Option β) : stack w nothing = w := by
  funext a
  simp [stack, nothing]

@[simp]
theorem nothing_stack (w : α → Option β) : stack nothing w = w := by
  funext a
  simp [stack, nothing]

theorem stack_assoc (u v w : α → Option β) : stack (stack u v) w = stack u (stack v w) := by
  funext a
  simp [stack, Option.or_assoc]

theorem layOver_stack (v w : α → Option β) (m : α → β) :
    layOver (stack v w) m = layOver v (layOver w m) := by
  funext a
  cases hv : v a <;> simp [layOver, stack, hv]

variable {w : α → Option β} {a : α} {m : α → β}

theorem layOver_apply_of_none (h : w a = none) (m : α → β) : layOver w m a = m a := by
  simp [layOver, h]

theorem layOver_apply_of_holds (h : ∀ b, w a = some b → m a = b) : layOver w m a = m a := by
  cases hw : w a with
  | none => exact layOver_apply_of_none hw m
  | some b => simp [layOver, hw, h b hw]

theorem layOver_stack_over (v w : α → Option β) (m : α → β) :
    layOver (stack v w) (layOver w m) = layOver (stack v w) m := by
  funext a
  cases hv : v a <;> cases hw : w a <;> simp [layOver, stack, hv, hw]

theorem layOver_apply_congr (w : α → Option β) {m' : α → β} (h : m a = m' a) :
    layOver w m a = layOver w m' a := by
  simp [layOver, h]

def writes (ws : List (α → Option β)) (m : α → β) : α → β :=
  ws.foldl (fun m w => layOver w m) m

theorem writes_concat (ws : List (α → Option β)) (w : α → Option β) (m : α → β) :
    writes (ws ++ [w]) m = layOver w (writes ws m) := by
  rw [writes, writes, foldl_append]
  rfl

section
variable [DecidableEq α]

def writePoints (ps : List (α × β)) (m : α → β) : α → β :=
  ps.foldl (fun m p => Function.update m p.1 p.2) m

theorem writePoints_cons (p : α × β) (ps : List (α × β)) (m : α → β) :
    writePoints (p :: ps) m = writePoints ps (update m p.1 p.2) := rfl

variable {ps : List (α × β)} {a : α} {w : α → Option β}

theorem writePoints_apply_of_ne (h : ∀ p ∈ ps, p.1 ≠ a) (m : α → β) : writePoints ps m a = m a := by
  induction ps generalizing m with
  | nil => rfl
  | cons p ps ih =>
    have hne : a ≠ p.1 := (h p mem_cons_self).symm
    rw [writePoints_cons, ih fun q hq => h q (mem_cons_of_mem p hq), update_of_ne hne]

theorem writePoints_apply_of_eq {b : β} (h : ∀ p ∈ ps, p.1 = a → p.2 = b) (m : α → β)
    (hb : m a = b ∨ (a, b) ∈ ps) : writePoints ps m a = b := by
  induction ps generalizing m with
  | nil => exact hb.resolve_right not_mem_nil
  | cons p ps ih =>
    rw [writePoints_cons]
    apply ih fun q hq => h q (mem_cons_of_mem p hq)
    by_cases hp : p.1 = a
    · left
      rw [← hp, update_self]
      exact h p mem_cons_self hp
    · rw [update_of_ne (Ne.symm hp)]
      refine hb.imp_right fun hmem => ?_
      rcases mem_cons.1 hmem with rfl | hmem
      · exact absurd rfl hp
      · exact hmem

def Lists (ps : List (α × β)) (w : α → Option β) : Prop :=
  ∀ a b, (a, b) ∈ ps ↔ w a = some b

omit [DecidableEq α] in
theorem Lists.append {qs : List (α × β)} (hps : Lists ps w) (hqs : Lists qs w) :
    Lists (ps ++ qs) w := by
  intro a b
  rw [mem_append, hps, hqs, or_self]

theorem Lists.writePoints_eq (h : Lists ps w) (m : α → β) : writePoints ps m = layOver w m := by
  funext a
  cases hw : w a with
  | none =>
    rw [layOver_apply_of_none hw]
    refine writePoints_apply_of_ne (fun p hp hpa => ?_) m
    have hval : w a = some p.2 := (h a p.2).1 (hpa ▸ hp)
    simp [hval] at hw
  | some b =>
    have hval : layOver w m a = b := by simp [layOver, hw]
    rw [hval]
    refine writePoints_apply_of_eq (fun p hp hpa => ?_) m (.inr ((h a b).2 hw))
    have hpb : w a = some p.2 := (h a p.2).1 (hpa ▸ hp)
    rw [hw] at hpb
    exact (Option.some.inj hpb).symm
end
end Overlay
