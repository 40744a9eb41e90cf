import Mathlib.Logic.Relation
import Mathlib.Logic.Function.Basic
import Mathlib.Tactic.Common

/-!
# Sections under a readers-writer lock

Threads run sections on a state that they share. A section is a machine with a local state: it
starts from its input, takes one step on the shared state after the other, and has a result at its
end. Some sections only read. The lock lets a section that writes in alone, and sections that read
together (`Shared.Step`).

Every section then works as if it ran alone: the sections that have been left, in the order in which
they were left, are a sequential run with the same results, and a section that is inside has taken
its steps on the state at the end of this run (`Shared.linear`).
-/

namespace Cs5600

/-- Sections of code with local states `L`, on a state `σ`. -/
structure Machine (ι L σ ρ : Type) where
  start : ι → L
  act : L → σ → Option (L × σ)
  result : L → Option ρ
  /-- Whether the section that a local state belongs to may change the state. -/
  writes : L → Bool
  writes_act : ∀ {l l' s s'}, act l s = some (l', s') → writes l' = writes l
  act_of_reads : ∀ {l l' s s'}, writes l = false → act l s = some (l', s') → s' = s
  act_of_result : ∀ {l r} (s), result l = some r → act l s = none

namespace Machine

variable {ι L σ ρ : Type} {M : Machine ι L σ ρ}

/-- Any number of steps of one section, with nobody else at work. -/
def Steps (M : Machine ι L σ ρ) : L × σ → L × σ → Prop :=
  Relation.ReflTransGen fun x y => M.act x.1 x.2 = some y

/-- A section that runs alone, from its start to its result. -/
def Runs (M : Machine ι L σ ρ) (i : ι) (s : σ) (r : ρ) (s' : σ) : Prop :=
  ∃ l, M.Steps (M.start i, s) (l, s') ∧ M.result l = some r

/-- Sections that run one after the other, with their results. -/
inductive Log (M : Machine ι L σ ρ) (s₀ : σ) : List (ι × ρ) → σ → Prop
  | nil : Log M s₀ [] s₀
  | concat {log s i r s'} : Log M s₀ log s → M.Runs i s r s' → Log M s₀ (log ++ [(i, r)]) s'

/-- Steps of a section do not change whether it writes. -/
theorem Steps.writes {x y : L × σ} (h : M.Steps x y) : M.writes y.1 = M.writes x.1 := by
  induction h with
  | refl => rfl
  | tail _ hact ih => exact (M.writes_act hact).trans ih

/-- A section that reads leaves the state as it is. -/
theorem Steps.of_reads {x y : L × σ} (h : M.Steps x y) (hx : M.writes x.1 = false) : y.2 = x.2 := by
  induction h with
  | refl => rfl
  | tail hsteps hact ih => exact (M.act_of_reads ((Steps.writes hsteps).trans hx) hact).trans ih

/-- A section has one way to go on, so every part of its run leads to its end. -/
theorem Steps.to_end {x y z : L × σ} {r : ρ} (hy : M.Steps x y) (hz : M.Steps x z)
    (hr : M.result z.1 = some r) : M.Steps y z := by
  have hunique : Relator.RightUnique fun x y : L × σ => M.act x.1 x.2 = some y := by
    intro a b c hb hc
    exact Option.some.inj (hb.symm.trans hc)
  rcases hy.total_of_right_unique hunique hz with h | h
  · exact h
  · rcases h.cases_head with rfl | ⟨w, hw, -⟩
    · exact .refl
    · rw [M.act_of_result z.2 hr] at hw
      cases hw

/-- A section has one result and leaves one state. -/
theorem Runs.unique {i : ι} {s s₁ s₂ : σ} {r₁ r₂ : ρ} (h₁ : M.Runs i s r₁ s₁)
    (h₂ : M.Runs i s r₂ s₂) : r₁ = r₂ ∧ s₁ = s₂ := by
  obtain ⟨l₁, hsteps₁, hr₁⟩ := h₁
  obtain ⟨l₂, hsteps₂, hr₂⟩ := h₂
  rcases (hsteps₁.to_end hsteps₂ hr₂).cases_head with heq | ⟨w, hw, -⟩
  · obtain ⟨rfl, rfl⟩ := Prod.mk.inj heq
    exact ⟨Option.some.inj (hr₁.symm.trans hr₂), rfl⟩
  · rw [M.act_of_result s₁ hr₁] at hw
    cases hw

end Machine

/-- The state, the section that each thread is inside of, and the sections that have been left, the
first one first. -/
structure Shared (T ι L σ ρ : Type) where
  state : σ
  inside : T → Option (ι × L)
  log : List (ι × ρ)

namespace Shared

variable {T ι L σ ρ : Type} [DecidableEq T] {M : Machine ι L σ ρ} {s s' : Shared T ι L σ ρ} {s₀ : σ}

/-- A step of a thread: it goes in, takes a step of its section, or leaves with the result. -/
inductive Step (M : Machine ι L σ ρ) : Shared T ι L σ ρ → Shared T ι L σ ρ → Prop
  | enter {s t i} : s.inside t = none →
      (∀ t' x, s.inside t' = some x → M.writes (M.start i) = false ∧ M.writes x.2 = false) →
      Step M s ⟨s.state, Function.update s.inside t (some (i, M.start i)), s.log⟩
  | act {s t i l l' state} : s.inside t = some (i, l) → M.act l s.state = some (l', state) →
      Step M s ⟨state, Function.update s.inside t (some (i, l')), s.log⟩
  | leave {s t i l r} : s.inside t = some (i, l) → M.result l = some r →
      Step M s ⟨s.state, Function.update s.inside t none, s.log ++ [(i, r)]⟩

/-- The sections behind `s` as a sequential run from `s₀`, which ends in `base`. -/
structure Linear (M : Machine ι L σ ρ) (s₀ : σ) (s : Shared T ι L σ ρ) (base : σ) : Prop where
  log : M.Log s₀ s.log base
  /-- The section of a thread inside has begun in `base`. -/
  steps : ∀ {t i l}, s.inside t = some (i, l) → M.Steps (M.start i, base) (l, s.state)
  /-- Two threads are inside only to read. -/
  apart : ∀ {t t' x x'}, s.inside t = some x → s.inside t' = some x' → t ≠ t' →
    M.writes x.2 = false
  /-- Without a section that writes, the state is `base`. -/
  still : (∀ t x, s.inside t = some x → M.writes x.2 = false) → s.state = base

omit [DecidableEq T] in
/-- At the start nothing has been run. -/
theorem linear_init (M : Machine ι L σ ρ) (s₀ : σ) :
    Linear M s₀ (⟨s₀, fun _ => none, []⟩ : Shared T ι L σ ρ) s₀ where
  log := .nil
  steps h := by cases h
  apart h := by cases h
  still _ := rfl

omit [DecidableEq T] in
/-- A thread inside to read has seen no change of the state. -/
theorem Linear.of_reads {base : σ} (h : Linear M s₀ s base) {t : T} {i : ι} {l : L}
    (ht : s.inside t = some (i, l)) (hl : M.writes l = false) : s.state = base := by
  have hsteps := h.steps ht
  exact hsteps.of_reads (hsteps.writes.symm.trans hl)

/-- A step of a thread goes along with a serial run, at most one section longer. -/
theorem Linear.step {base : σ} (h : Linear M s₀ s base) (hstep : Step M s s') :
    ∃ base', Linear M s₀ s' base' := by
  cases hstep with
  | @enter t i hout hfree =>
    have hstate : s.state = base := h.still fun t' x hx => (hfree t' x hx).2
    refine ⟨base, h.log, fun {t' i' l'} h' => ?_, fun {t₁ t₂ x₁ x₂} h₁ h₂ hne => ?_,
      fun _ => hstate⟩
    · simp only [Function.update_apply] at h'
      split_ifs at h' with ht
      · obtain ⟨rfl, rfl⟩ := Prod.mk.inj (Option.some.inj h')
        rw [hstate]
        exact .refl
      · exact h.steps h'
    · simp only [Function.update_apply] at h₁ h₂
      split_ifs at h₁ h₂ with ht₁ ht₂ ht₂
      · exact absurd (ht₁.trans ht₂.symm) hne
      · rw [← Option.some.inj h₁]
        exact (hfree t₂ x₂ h₂).1
      · exact (hfree t₁ x₁ h₁).2
      · exact h.apart h₁ h₂ hne
  | @act t i l l' state hin hact =>
    -- The other threads inside only read when there are any, and then nothing changes.
    have hothers : ∀ t' x, t' ≠ t → s.inside t' = some x → state = s.state := fun t' x hne hx =>
      M.act_of_reads (h.apart hin hx hne.symm) hact
    refine ⟨base, h.log, fun {t' i' l₁} h' => ?_, fun {t₁ t₂ x₁ x₂} h₁ h₂ hne => ?_,
      fun hreads => ?_⟩
    · simp only [Function.update_apply] at h'
      split_ifs at h' with ht
      · obtain ⟨rfl, rfl⟩ := Prod.mk.inj (Option.some.inj h')
        exact (h.steps hin).tail hact
      · dsimp only
        rw [hothers t' _ ht h']
        exact h.steps h'
    · simp only [Function.update_apply] at h₁ h₂
      split_ifs at h₁ h₂ with ht₁ ht₂ ht₂
      · exact absurd (ht₁.trans ht₂.symm) hne
      · rw [← Option.some.inj h₁]
        exact (M.writes_act hact).trans (h.apart hin h₂ (ht₁ ▸ hne))
      · exact h.apart h₁ hin (ht₂ ▸ hne)
      · exact h.apart h₁ h₂ hne
    · have hl : M.writes l = false :=
        (M.writes_act hact).symm.trans (hreads t (i, l') (Function.update_self ..))
      exact (M.act_of_reads hl hact).trans (h.of_reads hin hl)
  | @leave t i l r hin hr =>
    refine ⟨s.state, h.log.concat ⟨l, h.steps hin, hr⟩, fun {t' i' l'} h' => ?_,
      fun {t₁ t₂ x₁ x₂} h₁ h₂ hne => ?_, fun _ => rfl⟩
    · simp only [Function.update_apply] at h'
      split_ifs at h' with ht
      -- Another thread inside reads, so this one did as well, and the state is still `base`.
      have hsteps := h.steps h'
      rwa [← h.of_reads h' (h.apart h' hin ht)] at hsteps
    · simp only [Function.update_apply] at h₁ h₂
      split_ifs at h₁ h₂
      exact h.apart h₁ h₂ hne

/-- **Sections are atomic.** Whatever the order of the threads' steps, the sections that have been
left are a sequential run in this order, and those inside have begun at its end. -/
theorem linear (h : Relation.ReflTransGen (Step M) (⟨s₀, fun _ => none, []⟩ : Shared T ι L σ ρ) s) :
    ∃ base, Linear M s₀ s base := by
  induction h with
  | refl => exact ⟨s₀, linear_init M s₀⟩
  | tail _ hstep ih =>
    obtain ⟨base, hlinear⟩ := ih
    exact hlinear.step hstep

end Shared

end Cs5600
