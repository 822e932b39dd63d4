import Mathlib.Algebra.BigOperators.Fin
import Mathlib.Algebra.Order.BigOperators.Group.Finset

/-!
# Counting under updates

How a sum over the values of a function changes when one value changes, and the same for the number
of arguments whose value satisfies a predicate; a count in a list that loses a member, and when two
predicates select the same members of a list.
-/

namespace Finset

variable {ι α : Type} [DecidableEq ι]

section
variable (s : Finset ι) {i : ι} (hi : i ∈ s) (f : ι → α) (a : α)
include hi

theorem sum_update_add (g : α → ℕ) :
    ∑ j ∈ s, g (Function.update f i a j) + g (f i) = ∑ j ∈ s, g (f j) + g a := by
  have hcomp (j : ι) : g (Function.update f i a j) = Function.update (g ∘ f) i (g a) j := by
    rw [← Function.comp_update]
    rfl
  simp only [hcomp]
  rw [sum_update_of_mem hi, sdiff_singleton_eq_erase]
  have hold : g (f i) + ∑ j ∈ s.erase i, g (f j) = ∑ j ∈ s, g (f j) :=
    add_sum_erase s (fun j => g (f j)) hi
  simp only [Function.comp_apply]
  omega

theorem card_filter_update_add (q : α → Prop) [DecidablePred q] :
    #{j ∈ s | q (Function.update f i a j)} + (if q (f i) then 1 else 0) =
      #{j ∈ s | q (f j)} + if q a then 1 else 0 := by
  rw [card_filter, card_filter]
  exact sum_update_add s hi f a fun x => if q x then 1 else 0
end
end Finset

section
variable {α : Type} {q r : α → Bool} {l : List α}

theorem List.countP_lt_countP (h : ∀ a, q a → r a) {a : α}
    (ha : a ∈ l) (hr : r a) (hq : ¬ q a) : l.countP q < l.countP r := by
  induction l with
  | nil => cases ha
  | cons b l ih =>
    have hle : l.countP q ≤ l.countP r := List.countP_mono_left fun b _ => h b
    rw [List.countP_cons, List.countP_cons]
    rcases List.mem_cons.1 ha with rfl | ha
    · rw [if_neg hq, if_pos hr]
      omega
    · have hlt := ih ha
      by_cases hb : q b
      · rw [if_pos hb, if_pos (h b hb)]
        omega
      · rw [if_neg hb]
        omega

theorem List.filter_eq_filter_iff : l.filter q = l.filter r ↔ ∀ a ∈ l, q a = r a := by
  refine ⟨fun h a ha => Bool.eq_iff_iff.2 ?_, List.filter_congr⟩
  have hmem : a ∈ l.filter q ↔ a ∈ l.filter r := by rw [h]
  simpa [ha] using hmem
end
