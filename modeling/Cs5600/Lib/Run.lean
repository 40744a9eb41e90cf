import Mathlib.Data.List.Basic
import Mathlib.Tactic.Common

/-!
# Runs with a history

A component takes one input after the other: `exec i s` is the state after the input `i` and what
was returned, or nothing when the component does not return. `run` feeds it a list of inputs and
keeps the history, the inputs with what each returned, oldest first.

`run_invariant` is the induction over a run: an invariant of the history so far and the state holds
at its end, when every input meets a condition on the state that it finds and such an input keeps
the invariant. `run_returns` is the same for getting to the end at all.
-/

namespace Cs5600

variable {σ ι ρ : Type} {exec : ι → σ → Option (σ × ρ)}

/-- The state and the history after a list of inputs. -/
def run (exec : ι → σ → Option (σ × ρ)) : List ι → σ → Option (σ × List (ι × ρ))
  | [], s => some (s, [])
  | i :: is, s => do
    let (s, r) ← exec i s
    let (s, hist) ← run exec is s
    some (s, (i, r) :: hist)

/-- Every input of the run meets a condition on it and on the state that it finds. -/
def Meets (exec : ι → σ → Option (σ × ρ)) (C : σ → ι → Prop) : List ι → σ → Prop
  | [], _ => True
  | i :: is, s => C s i ∧ ∀ s' r, exec i s = some (s', r) → Meets exec C is s'

/-- A run meets a condition when its first step does and the rest does from there. -/
theorem meets_cons {C : σ → ι → Prop} {i : ι} {is : List ι} {s s' : σ} {r : ρ}
    (h : exec i s = some (s', r)) :
    Meets exec C (i :: is) s ↔ C s i ∧ Meets exec C is s' := by
  rw [Meets]
  refine and_congr_right fun _ => ⟨fun hC => hC s' r h, fun hC s₁ r₁ h₁ => ?_⟩
  rw [h] at h₁
  obtain ⟨rfl, -⟩ := Prod.mk.inj (Option.some.inj h₁)
  exact hC

instance Meets.decidable {C : σ → ι → Prop} [∀ s i, Decidable (C s i)] :
    ∀ is s, Decidable (Meets exec C is s)
  | [], _ => isTrue trivial
  | i :: is, s =>
    match h : exec i s with
    | none =>
      decidable_of_iff (C s i) ⟨fun hC => ⟨hC, fun _ _ h' => by simp [h] at h'⟩, fun hC => hC.1⟩
    | some (s', r) =>
      have := Meets.decidable (C := C) is s'
      decidable_of_iff (C s i ∧ Meets exec C is s') (meets_cons h).symm

/-- A condition on the inputs alone is met when it holds of each. -/
theorem Meets.of_forall {P : ι → Prop} {is : List ι} (h : ∀ i ∈ is, P i) (s : σ) :
    Meets exec (fun _ i => P i) is s := by
  induction is generalizing s with
  | nil => trivial
  | cons i is ih =>
    rw [List.forall_mem_cons] at h
    exact ⟨h.1, fun s' _ _ => ih h.2 s'⟩

/-- A condition that always holds is met. -/
theorem meets_true (is : List ι) (s : σ) : Meets exec (fun _ _ => True) is s :=
  Meets.of_forall (fun _ _ => trivial) s

/-- The history has the inputs in order. -/
theorem run_fst {is : List ι} {s s' : σ} {hist : List (ι × ρ)}
    (h : run exec is s = some (s', hist)) : hist.map Prod.fst = is := by
  induction is generalizing s hist with
  | nil =>
    obtain ⟨-, rfl⟩ := Prod.mk.inj (Option.some.inj h)
    rfl
  | cons i is ih =>
    simp only [run, Option.bind_eq_bind, Option.bind_eq_some_iff] at h
    obtain ⟨⟨s₁, r⟩, -, ⟨s₂, new⟩, hrun, heq⟩ := h
    obtain ⟨rfl, rfl⟩ := Prod.mk.inj (Option.some.inj heq)
    rw [List.map_cons, ih hrun]

/-- A run that goes on after another one. -/
theorem run_append {is js : List ι} {s s₁ s₂ : σ} {hist new : List (ι × ρ)}
    (h : run exec is s = some (s₁, hist)) (h' : run exec js s₁ = some (s₂, new)) :
    run exec (is ++ js) s = some (s₂, hist ++ new) := by
  induction is generalizing s hist with
  | nil =>
    obtain ⟨rfl, rfl⟩ := Prod.mk.inj (Option.some.inj h)
    exact h'
  | cons i is ih =>
    simp only [run, Option.bind_eq_bind, Option.bind_eq_some_iff] at h
    obtain ⟨⟨s', r⟩, hexec, ⟨s₁', rest⟩, hrun, heq⟩ := h
    obtain ⟨rfl, rfl⟩ := Prod.mk.inj (Option.some.inj heq)
    simp only [List.cons_append, run, hexec, ih hrun, Option.bind_eq_bind, Option.bind_some]

/-- Induction over a run that goes on from a history. -/
theorem run_invariant_from {C : σ → ι → Prop} {I : List (ι × ρ) → σ → Prop}
    (hstep : ∀ hist s i s' r, I hist s → C s i → exec i s = some (s', r) → I (hist ++ [(i, r)]) s')
    {is : List ι} {hist new : List (ι × ρ)} {s s' : σ} (hs : I hist s) (hC : Meets exec C is s)
    (hrun : run exec is s = some (s', new)) : I (hist ++ new) s' := by
  induction is generalizing hist s new with
  | nil =>
    obtain ⟨rfl, rfl⟩ := Prod.mk.inj (Option.some.inj hrun)
    rwa [List.append_nil]
  | cons i is ih =>
    simp only [run, Option.bind_eq_bind, Option.bind_eq_some_iff] at hrun
    obtain ⟨⟨s₁, r⟩, hexec, ⟨s₂, new⟩, hrun, heq⟩ := hrun
    obtain ⟨rfl, rfl⟩ := Prod.mk.inj (Option.some.inj heq)
    have hs' := ih (hstep hist s i s₁ r hs hC.1 hexec) (hC.2 s₁ r hexec) hrun
    rwa [List.append_assoc] at hs'

/-- Induction over a run that gets to its end. -/
theorem run_invariant {C : σ → ι → Prop} (I : List (ι × ρ) → σ → Prop)
    (hstep : ∀ hist s i s' r, I hist s → C s i → exec i s = some (s', r) → I (hist ++ [(i, r)]) s')
    {is : List ι} {hist : List (ι × ρ)} {s s' : σ} (hs : I [] s) (hC : Meets exec C is s)
    (hrun : run exec is s = some (s', hist)) : I hist s' :=
  run_invariant_from hstep hs hC hrun

/-- A run gets to its end when every input that meets the condition returns. -/
theorem run_returns {C : σ → ι → Prop} (I : σ → Prop)
    (hstep : ∀ s i, I s → C s i → ∃ s' r, exec i s = some (s', r) ∧ I s') {is : List ι} {s : σ}
    (hs : I s) (hC : Meets exec C is s) : ∃ s' hist, run exec is s = some (s', hist) := by
  induction is generalizing s with
  | nil => exact ⟨s, [], rfl⟩
  | cons i is ih =>
    obtain ⟨s₁, r, hexec, hs₁⟩ := hstep s i hs hC.1
    obtain ⟨s', new, hrun⟩ := ih hs₁ (hC.2 s₁ r hexec)
    refine ⟨s', (i, r) :: new, ?_⟩
    simp only [run, hexec, hrun, Option.bind_eq_bind, Option.bind_some]

/-- A run is no longer than a measure that each of its steps makes smaller. -/
theorem run_length_le {C : σ → ι → Prop} (I : σ → Prop) (measure : σ → ℕ)
    (hstep : ∀ s i s' r, I s → C s i → exec i s = some (s', r) → I s' ∧ measure s' < measure s)
    {is : List ι} {s s' : σ} {hist : List (ι × ρ)} (hs : I s) (hC : Meets exec C is s)
    (hrun : run exec is s = some (s', hist)) : is.length + measure s' ≤ measure s := by
  induction is generalizing s hist with
  | nil =>
    obtain ⟨rfl, -⟩ := Prod.mk.inj (Option.some.inj hrun)
    exact Nat.le_of_eq (Nat.zero_add _)
  | cons i is ih =>
    simp only [run, Option.bind_eq_bind, Option.bind_eq_some_iff] at hrun
    obtain ⟨⟨s₁, r⟩, hexec, ⟨s₂, new⟩, hrun, heq⟩ := hrun
    obtain ⟨rfl, -⟩ := Prod.mk.inj (Option.some.inj heq)
    obtain ⟨hs₁, hlt⟩ := hstep s i s₁ r hs hC.1 hexec
    have hrest := ih hs₁ (hC.2 s₁ r hexec) hrun
    rw [List.length_cons]
    omega

/-! ## Refinement -/

/-- A specification that answers every input, fed with a list of them. -/
def play {τ κ : Type} (spec : κ → τ → τ × ρ) : List κ → τ → τ × List ρ
  | [], t => (t, [])
  | k :: ks, t =>
    let rest := play spec ks (spec k t).1
    (rest.1, (spec k t).2 :: rest.2)

/-- A component refines a specification when each of its steps does: every run then gets to its end
with the answers of the specification. -/
theorem run_refines {τ κ : Type} {C : σ → ι → Prop} {spec : κ → τ → τ × ρ} (f : ι → κ)
    (R : σ → τ → Prop) (hstep : ∀ s t i, R s t → C s i →
      ∃ s', exec i s = some (s', (spec (f i) t).2) ∧ R s' (spec (f i) t).1)
    {is : List ι} {s : σ} {t : τ} (hs : R s t) (hC : Meets exec C is s) :
    ∃ s' hist, run exec is s = some (s', hist) ∧
      hist.map Prod.snd = (play spec (is.map f) t).2 ∧ R s' (play spec (is.map f) t).1 := by
  induction is generalizing s t with
  | nil => exact ⟨s, [], rfl, rfl, hs⟩
  | cons i is ih =>
    obtain ⟨s₁, hexec, hs₁⟩ := hstep s t i hs hC.1
    obtain ⟨s', hist, hrun, hreplies, hs'⟩ := ih hs₁ (hC.2 s₁ _ hexec)
    refine ⟨s', (i, (spec (f i) t).2) :: hist, ?_, ?_, hs'⟩
    · simp only [run, hexec, hrun, Option.bind_eq_bind, Option.bind_some]
    · rw [List.map_cons, hreplies, List.map_cons, play]

end Cs5600
