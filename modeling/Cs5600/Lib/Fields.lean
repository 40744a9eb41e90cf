import Mathlib.Data.List.Forall2
import Mathlib.Tactic.Common

/-!
# Fields of a separated list

The fields of a list are the non-empty runs between the occurrences of a separator, as `strtok`
finds them with a delimiter of one character: separators that follow each other count as one, and
those at the ends do not count.
-/

namespace Cs5600

variable {α : Type*} [DecidableEq α]

/-- The non-empty runs of a list between separators. -/
def fields (sep : α) (s : List α) : List (List α) := (s.splitOn sep).filter fun w => decide (w ≠ [])

variable {sep : α}

/-- An empty list has no fields. -/
@[simp]
theorem fields_nil : fields sep [] = [] := by
  simp [fields]

/-- Nothing joins the fields in front of a separator and those behind it. -/
theorem fields_append (s t : List α) :
    fields sep (s ++ sep :: t) = fields sep s ++ fields sep t := by
  rw [fields, List.splitOn_append_cons_self, List.filter_append]
  rfl

/-- A separator at the start makes no field. -/
@[simp]
theorem fields_sep_cons (s : List α) : fields sep (sep :: s) = fields sep s := by
  rw [← List.nil_append (sep :: s), fields_append, fields_nil, List.nil_append]

/-- A separator at the end makes no field. -/
@[simp]
theorem fields_concat_sep (s : List α) : fields sep (s ++ [sep]) = fields sep s := by
  rw [fields_append, fields_nil, List.append_nil]

/-- A run without separators is its only field. -/
theorem fields_of_notMem {w : List α} (hne : w ≠ []) (hw : sep ∉ w) : fields sep w = [w] := by
  rw [fields, List.splitOn_eq_singleton hw]
  simp [hne]

/-- A list is a run without separators, with or without a separator and a rest behind it. -/
theorem fields_induction (sep : α) {motive : List α → Prop} (run : ∀ w, sep ∉ w → motive w)
    (step : ∀ w s, sep ∉ w → motive s → motive (w ++ sep :: s)) (s : List α) : motive s := by
  induction hn : s.length using Nat.strongRecOn generalizing s with
  | _ n ih =>
    by_cases hs : sep ∈ s
    · obtain ⟨w, t, rfl, hw⟩ := List.eq_append_cons_of_mem hs
      refine step w t hw (ih t.length ?_ t rfl)
      rw [← hn]
      simp only [List.length_append, List.length_cons]
      omega
    · exact run s hs

/-- The fields of a run, which may be empty. -/
theorem fields_run {w : List α} (hw : sep ∉ w) : fields sep w = if w = [] then [] else [w] := by
  split_ifs with h
  · rw [h, fields_nil]
  · exact fields_of_notMem h hw

/-- A field is not empty, has no separator, and is part of the list. -/
theorem mem_fields {s w : List α} (h : w ∈ fields sep s) : w ≠ [] ∧ sep ∉ w ∧ ∀ a ∈ w, a ∈ s := by
  induction s using fields_induction sep with
  | run v hv =>
    rw [fields_run hv] at h
    split_ifs at h with hnil
    · cases h
    · obtain rfl := List.mem_singleton.mp h
      exact ⟨hnil, hv, fun _ ha => ha⟩
  | step v s hv ih =>
    rw [fields_append, fields_run hv] at h
    rcases List.mem_append.mp h with h | h
    · split_ifs at h with hnil
      · cases h
      · obtain rfl := List.mem_singleton.mp h
        exact ⟨hnil, hv, fun a ha => List.mem_append_left _ ha⟩
    · obtain ⟨hne, hw, hmem⟩ := ih h
      exact ⟨hne, hw, fun a ha => List.mem_append_right _ (List.mem_cons_of_mem _ (hmem a ha))⟩

/-- The fields of the first part of a list are the first fields of the list; its last field may be
cut short. -/
theorem fields_of_append (s t : List α) : ∃ ws zs, fields sep (s ++ t) = ws ++ zs ∧
    List.Forall₂ (· <+: ·) (fields sep s) ws := by
  induction s using fields_induction sep with
  | run w hw =>
    rw [fields_run hw]
    split_ifs with hnil
    · exact ⟨[], _, rfl, .nil⟩
    · -- What follows may belong to the same field.
      by_cases ht : sep ∈ t
      · obtain ⟨v, t, rfl, hv⟩ := List.eq_append_cons_of_mem ht
        refine ⟨[w ++ v], fields sep t, ?_, .cons (List.prefix_append w v) .nil⟩
        rw [← List.append_assoc, fields_append,
          fields_of_notMem (by simp [hnil]) (by simp [hw, hv])]
      · exact ⟨[w ++ t], [], by rw [fields_of_notMem (by simp [hnil]) (by simp [hw, ht])]; rfl,
          .cons (List.prefix_append w t) .nil⟩
  | step w s hw ih =>
    obtain ⟨ws, zs, heq, hprefix⟩ := ih
    refine ⟨fields sep w ++ ws, zs, ?_, ?_⟩
    · rw [List.append_assoc, List.cons_append, fields_append, heq, List.append_assoc]
    · rw [fields_append]
      exact List.rel_append (List.forall₂_same.mpr fun v _ => List.prefix_rfl) hprefix

/-- A field of the first part of a list is the beginning of a field of the list. -/
theorem exists_prefix_of_mem_fields {s w : List α} (h : w ∈ fields sep s) (t : List α) :
    ∃ v ∈ fields sep (s ++ t), w <+: v := by
  obtain ⟨ws, zs, heq, hprefix⟩ := @fields_of_append _ _ sep s t
  have hmem : ∃ v ∈ ws, w <+: v := by
    clear heq
    generalize fields sep s = vs at h hprefix
    induction hprefix with
    | nil => cases h
    | cons hwv _ ih =>
      rcases List.mem_cons.mp h with rfl | h
      · exact ⟨_, List.mem_cons_self, hwv⟩
      · obtain ⟨v, hv, hwv⟩ := ih h
        exact ⟨v, List.mem_cons_of_mem _ hv, hwv⟩
  obtain ⟨v, hv, hwv⟩ := hmem
  exact ⟨v, by rw [heq]; exact List.mem_append_left zs hv, hwv⟩

/-- A list with a separator in front of each field, and no other, is spelled by its fields; another
one is longer. -/
theorem length_fields_le (s : List α) :
    ((fields sep s).flatMap fun w => sep :: w).length ≤ s.length + 1 ∧
      (((fields sep s).flatMap fun w => sep :: w).length = s.length + 1 →
        ((fields sep s).flatMap fun w => sep :: w) = sep :: s) := by
  induction s using fields_induction sep with
  | run w hw =>
    rw [fields_run hw]
    split_ifs with hnil
    · simp
    · simp
  | step w s hw ih =>
    obtain ⟨hle, heq⟩ := ih
    rw [fields_append, List.flatMap_append, fields_run hw]
    simp only [List.length_append, List.length_cons]
    split_ifs with hnil
    · simp only [List.flatMap_nil, List.length_nil]
      exact ⟨by omega, fun h => by omega⟩
    · simp only [List.flatMap_singleton, List.length_cons]
      exact ⟨by omega, fun h => by rw [heq (by omega)]; rfl⟩

end Cs5600
