import Mathlib.Data.List.Induction
import Mathlib.Tactic.Common

/-!
# Walks in a deterministic labelled graph

A graph is a function `step` that gives, at a node and a label, the node that the labelled edge
leads to. A walk follows a list of labels from a root. When distinct walks from the root end at
distinct nodes the reachable part is a tree, and changing one edge of it changes the walks in one
place only: `walk_setEdge` adds or removes a leaf, and the `walk_relabel` lemmas rename an edge with
everything below it. The nodes that no walk reaches may change freely.
-/

namespace Cs5600

variable {V L : Type*} {step step' : V → L → Option V} {root parent : V} {p : List L} {n n' : L}

/-- The node that a list of labels leads to. -/
def walk (step : V → L → Option V) : V → List L → Option V
  | v, [] => some v
  | v, l :: ls => (step v l).bind fun w => walk step w ls

/-- A walk along no labels stays where it is. -/
@[simp]
theorem walk_nil (v : V) : walk step v [] = some v := rfl

/-- A walk takes the first step and walks on from there. -/
theorem walk_cons (v : V) (l : L) (ls : List L) :
    walk step v (l :: ls) = (step v l).bind fun w => walk step w ls := rfl

/-- A walk along two lists is a walk along the first and then along the second. -/
theorem walk_append (v : V) (ls ms : List L) :
    walk step v (ls ++ ms) = (walk step v ls).bind fun w => walk step w ms := by
  induction ls generalizing v with
  | nil => rfl
  | cons l ls ih =>
    rw [List.cons_append, walk_cons, walk_cons]
    cases step v l with
    | none => rfl
    | some w => exact ih w

/-- A walk ends with one step from where the rest of it ends. -/
theorem walk_concat (v : V) (ls : List L) (l : L) :
    walk step v (ls ++ [l]) = (walk step v ls).bind fun w => step w l := by
  rw [walk_append]
  cases walk step v ls with
  | none => rfl
  | some w => simp [walk_cons, Option.bind]; cases step w l <;> rfl

variable (step step') in
/-- Walks depend only on the edges of the nodes that they reach. -/
theorem walk_congr (h : ∀ q v, walk step root q = some v → step' v = step v) (q : List L) :
    walk step' root q = walk step root q := by
  induction q using List.reverseRecOn with
  | nil => rfl
  | append_singleton q l ih =>
    rw [walk_concat, walk_concat, ih]
    cases hv : walk step root q with
    | none => rfl
    | some v => simp [h q v hv]

/-- Edges added to a graph keep the walks that were there. -/
theorem walk_mono (h : ∀ q v l w, walk step' root q = some v → step v l = some w →
    step' v l = some w)
    {q : List L} : ∀ {v : V}, walk step root q = some v → walk step' root q = some v := by
  induction q using List.reverseRecOn with
  | nil => intro v hv; exact hv
  | append_singleton q l ih =>
    intro w hw
    rw [walk_concat] at hw ⊢
    obtain ⟨v, hv, hstep⟩ := Option.bind_eq_some_iff.mp hw
    rw [ih hv, Option.bind_some]
    exact h q v l w (ih hv) hstep

variable (step step') in
/-- Changing the edge `n` of `parent`, where the old and the new edge each lead to a leaf or to
nothing, changes the walk that ends with this edge and keeps every other. -/
theorem walk_setEdge [DecidableEq L] (hp : walk step root p = some parent)
    (huniq : ∀ q, walk step root q = some parent → q = p)
    (hold : ∀ leaf, step parent n = some leaf → ∀ l, step leaf l = none)
    (hnew : ∀ leaf, step' parent n = some leaf → ∀ l, step' leaf l = none)
    (hkeep : ∀ q v l, walk step root q = some v → ¬ (v = parent ∧ l = n) → step' v l = step v l)
    (q : List L) :
    walk step' root q = if q = p ++ [n] then step' parent n else walk step root q := by
  -- Induction on the path from its end: what the last label does where the path without it leads.
  induction q using List.reverseRecOn with
  | nil => simp
  | append_singleton q l ih =>
    rw [walk_concat, ih]
    by_cases hq : q = p ++ [n]
    · -- Below the changed edge there is nothing, before and after.
      have hne : ¬ q ++ [l] = p ++ [n] := by
        intro h
        have := congrArg List.length h
        rw [hq] at this
        simp at this
      have h1 : ((step' parent n).bind fun w => step' w l) = none := by
        cases h : step' parent n with
        | none => rfl
        | some leaf => exact hnew leaf h l
      have h2 : ((step parent n).bind fun w => step w l) = none := by
        cases h : step parent n with
        | none => rfl
        | some leaf => exact hold leaf h l
      rw [if_pos hq, if_neg hne, walk_concat, hq, walk_concat, hp, h1]
      exact h2.symm
    · rw [if_neg hq]
      cases hv : walk step root q with
      | none =>
        have hne : ¬ q ++ [l] = p ++ [n] := by
          intro h
          rw [(List.append_inj' h rfl).1, hp] at hv
          cases hv
        rw [if_neg hne, walk_concat, hv]
        rfl
      | some v =>
        -- The changed edge itself, or another one out of `v`.
        by_cases hvl : v = parent ∧ l = n
        · obtain ⟨rfl, rfl⟩ := hvl
          rw [huniq q hv, if_pos rfl]
          rfl
        · have hne : ¬ q ++ [l] = p ++ [n] := by
            intro h
            obtain ⟨hqp, hln⟩ := List.append_inj' h rfl
            apply hvl
            rw [hqp, hp, Option.some.injEq] at hv
            exact ⟨hv.symm, by simpa using hln⟩
          rw [if_neg hne, walk_concat, hv]
          exact hkeep q v l hv hvl

section Relabel

variable (hp : walk step root p = some parent)
  (huniq : ∀ q, walk step root q = some parent → q = p)
  (hkeep : ∀ q v l, walk step root q = some v → ¬ (v = parent ∧ (l = n ∨ l = n')) →
    step' v l = step v l)
include hp huniq hkeep

/-- Renaming an edge of `parent` keeps every walk that does not pass through it. -/
theorem walk_relabel_outside {q : List L} (hn : ¬ p ++ [n] <+: q) (hn' : ¬ p ++ [n'] <+: q) :
    walk step' root q = walk step root q := by
  induction q using List.reverseRecOn with
  | nil => rfl
  | append_singleton q l ih =>
    have hq : ¬ p ++ [n] <+: q := fun h => hn (h.trans (List.prefix_append _ _))
    have hq' : ¬ p ++ [n'] <+: q := fun h => hn' (h.trans (List.prefix_append _ _))
    rw [walk_concat, walk_concat, ih hq hq']
    cases hv : walk step root q with
    | none => rfl
    | some v =>
      refine hkeep q v l hv ?_
      rintro ⟨rfl, rfl | rfl⟩
      · exact hn (huniq q hv ▸ List.prefix_rfl)
      · exact hn' (huniq q hv ▸ List.prefix_rfl)

/-- Renaming an edge of `parent` keeps the walk to `parent` itself. -/
theorem walk_relabel_parent : walk step' root p = some parent := by
  have hlen : ∀ l : L, ¬ p ++ [l] <+: p := by
    intro l hpre
    have := hpre.length_le
    rw [List.length_append, List.length_singleton] at this
    omega
  rw [← hp]
  exact walk_relabel_outside hp huniq hkeep (hlen n) (hlen n')

/-- Below the renamed edge the walks are those that were below it before. -/
theorem walk_relabel_below (h : step' parent n' = step parent n) (r : List L) :
    walk step' root (p ++ n' :: r) = walk step root (p ++ n :: r) := by
  have hp' : walk step' root p = some parent := walk_relabel_parent hp huniq hkeep
  rw [walk_append, walk_append, hp, hp']
  simp only [Option.bind_some, walk_cons, h]
  cases hf : step parent n with
  | none => rfl
  | some f =>
    apply walk_congr
    intro q v hv
    have hroot : walk step root (p ++ n :: q) = some v := by
      rw [walk_append, hp]
      simpa [walk_cons, hf] using hv
    funext l
    refine hkeep _ v l hroot ?_
    rintro ⟨rfl, -⟩
    have := congrArg List.length (huniq _ hroot)
    simp at this

/-- Below the old label of the renamed edge there is nothing. -/
theorem walk_relabel_old (h : step' parent n = none) (r : List L) :
    walk step' root (p ++ n :: r) = none := by
  have hp' : walk step' root p = some parent := walk_relabel_parent hp huniq hkeep
  rw [walk_append, hp']
  simp [walk_cons, h]

end Relabel

end Cs5600
