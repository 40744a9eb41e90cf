import Mathlib.Algebra.BigOperators.Group.Finset.Basic
import Mathlib.Data.Multiset.Basic
import Mathlib.Tactic.Common

/-!
# What threads carry

Every thread of a finite type has at most one thing in hand. `carried` is what they have together,
with repetitions. When each thread puts down and takes up some, they do so together
(`carried_step`).
-/

namespace Cs5600

variable {T α : Type} [Fintype T] {f f' : T → Option α}

/-- What the threads carry, together. -/
def carried (f : T → Option α) : Multiset α := ∑ t, ((f t).toList : Multiset α)

/-- Threads that have nothing carry nothing together. -/
theorem carried_eq_zero (h : ∀ t, f t = none) : carried f = 0 := by
  refine Finset.sum_eq_zero fun t _ => ?_
  rw [h t]
  rfl

/-- Every thread puts down what is in `x`, and takes up what is in `y`. -/
theorem carried_step {x y : T → List α} (h : ∀ t, x t ++ (f' t).toList = (f t).toList ++ y t) :
    ∑ t, (x t : Multiset α) + carried f' = carried f + ∑ t, (y t : Multiset α) := by
  rw [carried, carried, ← Finset.sum_add_distrib, ← Finset.sum_add_distrib]
  refine Finset.sum_congr rfl fun t _ => ?_
  rw [Multiset.coe_add, Multiset.coe_add, h]

/-- What one thread does is all that is done. -/
theorem sum_ite_thread [DecidableEq T] (t : T) (x : List α) :
    ∑ t', ((if t = t' then x else [] : List α) : Multiset α) = x := by
  rw [Finset.sum_eq_single t (fun t' _ hne => by rw [if_neg hne.symm, Multiset.coe_nil])
    (fun h => absurd (Finset.mem_univ t) h), if_pos rfl]

/-- One thread changes its number. -/
theorem sum_change [DecidableEq T] {r r' : T → ℕ} {t : T} (h : ∀ t' ≠ t, r' t' = r t') :
    ∑ t, r' t + r t = ∑ t, r t + r' t := by
  have hrest : ∑ t' ∈ Finset.univ.erase t, r' t' = ∑ t' ∈ Finset.univ.erase t, r t' :=
    Finset.sum_congr rfl fun t' ht' => h t' (Finset.ne_of_mem_erase ht')
  rw [← Finset.add_sum_erase _ r' (Finset.mem_univ t),
    ← Finset.add_sum_erase _ r (Finset.mem_univ t), hrest]
  omega

end Cs5600
