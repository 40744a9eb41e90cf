import Mathlib.Algebra.BigOperators.Group.Finset.Piecewise
import Mathlib.Tactic.Common

/-!
# Facts about sums and lists

A sum over the values of a function that is updated at one place, the ways to split a list that has
one more element at its end, and `mapM` on a list whose elements all have a result.
-/

namespace Cs5600

/-- A sum over an updated function has the new summand in the place of the old one. -/
theorem sum_apply_update {ι κ : Type} [Fintype ι] [DecidableEq ι] (g : κ → ℕ) (c : ι → κ) (i : ι)
    (x : κ) : ∑ j, g (Function.update c i x j) + g (c i) = ∑ j, g (c j) + g x := by
  have hfun : (fun j => g (Function.update c i x j)) = Function.update
    (fun j => g (c j)) i (g x) := by
    funext j
    exact Function.apply_update (fun _ => g) c i x j
  have hsum := Finset.sum_update_of_mem (Finset.mem_univ i) (fun j => g (c j)) (g x)
  have hold := Finset.sum_eq_add_sum_sdiff_singleton_of_mem (Finset.mem_univ i) fun j => g (c j)
  rw [hfun, hsum, hold]
  omega

/-- An element of a list with one more at its end is the last one or is an element of the list. -/
theorem concat_eq_append_cons {α : Type} {l l₁ l₂ : List α} {a x : α}
    (h : l ++ [a] = l₁ ++ x :: l₂) :
    (l = l₁ ∧ a = x ∧ l₂ = []) ∨ ∃ l₃, l₂ = l₃ ++ [a] ∧ l = l₁ ++ x :: l₃ := by
  rcases List.eq_nil_or_concat l₂ with rfl | ⟨l₃, y, rfl⟩
  · obtain ⟨rfl, hlast⟩ := List.append_inj' h rfl
    exact .inl ⟨rfl, (List.cons.inj hlast).1, rfl⟩
  · rw [List.concat_eq_append, ← List.cons_append, ← List.append_assoc] at h
    obtain ⟨rfl, hlast⟩ := List.append_inj' h rfl
    obtain rfl := (List.cons.inj hlast).1
    exact .inr ⟨l₃, List.concat_eq_append, rfl⟩

/-- A `mapM` in which every element has a result. -/
theorem mapM_eq_some_map {α β : Type} {f : α → Option β} {g : α → β} {l : List α}
    (h : ∀ a ∈ l, f a = some (g a)) : l.mapM f = some (l.map g) := by
  induction l with
  | nil => rfl
  | cons a l ih =>
    rw [List.forall_mem_cons] at h
    rw [List.mapM_cons, h.1, ih h.2]
    rfl

end Cs5600
