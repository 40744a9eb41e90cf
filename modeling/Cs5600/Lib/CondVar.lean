import Mathlib.Data.Fintype.Basic
import Mathlib.Logic.Function.Basic
import Mathlib.Tactic.Common

/-!
# Condition variables

Threads that share one condition variable, with Mesa semantics: a thread that is woken has to test
its condition again before it goes on, and a thread may be woken for no reason. `Place` is where a
thread is, with what it wants. `pthread_cond_signal` wakes one waiting thread, whichever (`signal`,
with the choice as an argument), and `pthread_cond_broadcast` wakes all of them.
-/

namespace Cs5600

/-- Where a thread is. `κ` is what it wants from the monitor. -/
inductive Place (κ : Type) where
  /-- It has no call under way. -/
  | outside
  /-- It waits on the condition variable. -/
  | waiting (k : κ)
  /-- It has been woken and has not tested its condition since. -/
  | woken (k : κ)
  /-- It is past the entry of the monitor. -/
  | inside (k : κ)
  deriving DecidableEq

namespace Place

variable {T κ : Type} [DecidableEq T] {place : T → Place κ}

def isWaiting : Place κ → Bool
  | .waiting _ => true
  | _ => false

def isWoken : Place κ → Bool
  | .woken _ => true
  | _ => false

def wake : Place κ → Place κ
  | .waiting k => .woken k
  | p => p

/-- `pthread_cond_broadcast`. -/
def broadcast (place : T → Place κ) : T → Place κ := fun t => (place t).wake

/-- The thread is woken, by a signal or for no reason. -/
def wakeOne (t : T) (place : T → Place κ) : T → Place κ := Function.update place t (place t).wake

/-- `pthread_cond_signal`, which wakes the thread chosen. Without a choice no thread waits, and it
does nothing. -/
def signal [Fintype T] (choice : Option T) (place : T → Place κ) : Option (T → Place κ) :=
  match choice with
  | some t => if (place t).isWaiting then some (wakeOne t place) else none
  | none => if ∀ t, (place t).isWaiting = false then some place else none

/-- A thread inside stays inside when threads are woken, and no other one gets there. -/
@[simp]
theorem wake_eq_inside {p : Place κ} {k : κ} : p.wake = .inside k ↔ p = .inside k := by
  cases p <;> simp [wake]

/-- A thread that is woken does not wait. -/
theorem isWaiting_wake (p : Place κ) : p.wake.isWaiting = false := by
  cases p <;> rfl

/-- A thread that waits is woken. -/
theorem isWoken_wake {p : Place κ} (h : p.isWaiting = true) : p.wake.isWoken = true := by
  cases p <;> first | rfl | cases h

/-- A thread that waits after another one was woken has waited before. -/
theorem waiting_of_wakeOne {t t' : T} {k : κ} (h : wakeOne t place t' = .waiting k) :
    place t' = .waiting k := by
  unfold wakeOne at h
  obtain rfl | hne := eq_or_ne t' t
  · rw [Function.update_self] at h
    have hnot := isWaiting_wake (place t')
    rw [h] at hnot
    cases hnot
  · rwa [Function.update_of_ne hne] at h

/-- What a signal does: it wakes a thread that waits, or finds none. -/
theorem signal_cases [Fintype T] {choice : Option T} {place' : T → Place κ}
    (h : signal choice place = some place') :
    (∃ t, (place t).isWaiting = true ∧ place' = wakeOne t place) ∨
      (∀ t, (place t).isWaiting = false) ∧ place' = place := by
  cases choice with
  | some t =>
    simp only [signal] at h
    split_ifs at h with hwait
    exact .inl ⟨t, hwait, (Option.some.inj h).symm⟩
  | none =>
    simp only [signal] at h
    split_ifs at h with hnone
    exact .inr ⟨hnone, (Option.some.inj h).symm⟩

/-- There is always a choice for a signal: a thread that waits, or none. -/
theorem exists_signal [Fintype T] (place : T → Place κ) :
    ∃ choice place', signal choice place = some place' := by
  by_cases hwait : ∃ t, (place t).isWaiting = true
  · obtain ⟨t, ht⟩ := hwait
    exact ⟨some t, wakeOne t place, if_pos ht⟩
  · exact ⟨none, place, if_pos fun t => Bool.eq_false_iff.mpr fun ht => hwait ⟨t, ht⟩⟩

end Place

end Cs5600
