import Cs5600.Lib.Fields
import Cs5600.Lab4.Resolve

/-!
# Path strings

What `sep_path`, `path2inum`, and `par_path` do with any string, with repeated slashes and with any
number of components of any length. `par_path` copies as many bytes of the string as the components
in front of the last one have with one slash each, so where the string has more slashes the copy is
cut short.
-/

namespace Cs5600.Lab4

/-- The components of a string. -/
def components (s : CString) : Path := fields slash s

/-- A component is a name. -/
theorem isName_of_mem_components {s n : CString} (h0 : 0 ∉ s) (h : n ∈ components s) :
    IsName n := by
  obtain ⟨hne, hslash, hmem⟩ := mem_fields h
  exact ⟨hne, fun hn => h0 (hmem 0 hn), hslash⟩

/-- The components of a path that is written out are its names. -/
theorem components_render {ns : Path} (h : ∀ n ∈ ns, n ≠ [] ∧ slash ∉ n) :
    components (render ns) = ns := by
  induction ns with
  | nil => exact fields_nil
  | cons n ns ih =>
    obtain ⟨hne, hn⟩ := h n List.mem_cons_self
    have hrec := ih fun m hm => h m (List.mem_cons_of_mem n hm)
    rw [render_cons, List.cons_append, components, fields_sep_cons]
    cases ns with
    | nil => rw [render_nil, List.append_nil, fields_of_notMem hne hn]
    | cons m ms =>
      rw [render_cons, List.cons_append, components, fields_sep_cons] at hrec
      rw [render_cons, List.cons_append, fields_append, fields_of_notMem hne hn, hrec]
      rfl

/-! ## `sep_path` -/

/-- Slashes in front of a string do not matter. -/
theorem components_dropWhile (s : CString) :
    components (s.dropWhile (· == slash)) = components s := by
  induction s with
  | nil => rfl
  | cons c s ih =>
    rw [List.dropWhile_cons]
    split_ifs with hc
    · rw [ih, components, components, eq_of_beq hc, fields_sep_cons]
    · rfl

/-- The first component of a string that does not begin with a slash ends in front of the next
one. -/
theorem components_of_head {t : CString} (ht : t ≠ []) (hhead : t.head? ≠ some slash) :
    components t = t.takeWhile (· != slash) :: components ((t.dropWhile (· != slash)).drop 1) := by
  obtain ⟨c, t', rfl⟩ := List.exists_cons_of_ne_nil ht
  have hc : c ≠ slash := fun h => hhead (congrArg some h)
  -- A path that begins with a name is that name, then nothing or a slash.
  have hsplit := @List.takeWhile_append_dropWhile _ (· != slash) (c :: t')
  have hword : (c :: t').takeWhile (· != slash) ≠ [] := by
    rw [List.takeWhile_cons_of_pos (by simpa using hc)]
    simp
  have hnotMem : slash ∉ (c :: t').takeWhile (· != slash) := fun h => by
    simpa using List.mem_takeWhile_imp h
  have hrest := List.head?_dropWhile_not (· != slash) (c :: t')
  generalize (c :: t').takeWhile (· != slash) = w at hsplit hword hnotMem ⊢
  generalize (c :: t').dropWhile (· != slash) = r at hsplit hrest ⊢
  rw [← hsplit]
  cases r with
  | nil =>
    rw [List.append_nil, List.drop_nil]
    exact fields_of_notMem hword hnotMem
  | cons e r =>
    have he : e = slash := by simpa using hrest
    rw [he, components, fields_append, fields_of_notMem hword hnotMem]
    rfl

/-- Behind the slashes there is no slash. -/
theorem head_dropWhile_slash (s : CString) : (s.dropWhile (· == slash)).head? ≠ some slash := by
  have hhead := List.head?_dropWhile_not (· == slash) s
  intro h
  rw [h] at hhead
  cases hhead

/-- `strtok` finds no token in a string without components. -/
theorem strtok_none {s : CString} (h : strtok s = none) : components s = [] := by
  rw [strtok] at h
  split_ifs at h with hnil
  rw [← components_dropWhile s, hnil]
  exact fields_nil

/-- `strtok` finds the first component, and the others are behind it. -/
theorem strtok_some {s token rest : CString} (h : strtok s = some (token, rest)) :
    components s = token :: components rest := by
  rw [strtok] at h
  split_ifs at h with hnil
  obtain ⟨rfl, rfl⟩ := Prod.mk.inj (Option.some.inj h)
  rw [← components_dropWhile s]
  exact components_of_head hnil (head_dropWhile_slash s)

/-- The loop of `sep_path` stores components as long as there is room, and then fails. -/
theorem sepPathLoop_components (room : ℕ) (s : CString) :
    sepPathLoop room s = ((components s).take room, decide (room < (components s).length)) := by
  induction room generalizing s with
  | zero =>
    cases hs : strtok s with
    | none => simp [sepPathLoop, hs, strtok_none hs]
    | some r => simp [sepPathLoop, hs, strtok_some hs]
  | succ room ih =>
    cases hs : strtok s with
    | none => simp [sepPathLoop, hs, strtok_none hs]
    | some r => simp [sepPathLoop, hs, strtok_some hs, ih]

/-- `sep_path` finds the components when there are at most 10. -/
theorem sepPath_components (s : CString) : sepPath s =
    if 10 < (components s).length then ((-1 : ℤ), (components s).take 10)
    else (((components s).length : ℤ), components s) := by
  rw [sepPath, sepPathLoop_components]
  dsimp only
  by_cases h : 10 < (components s).length
  · simp [h]
  · simp [h, List.take_of_length_le (not_lt.mp h)]

/-- `sep_path` returns the components when there are at most 10. -/
theorem sepPath_of_le {s : CString} (h : (components s).length ≤ 10) :
    sepPath s = (((components s).length : ℤ), components s) := by
  rw [sepPath_components, if_neg (not_lt.mpr h)]

/-- `sep_path` returns -1 when there are more than 10 components. -/
theorem sepPath_of_gt {s : CString} (h : 10 < (components s).length) :
    sepPath s = ((-1 : ℤ), (components s).take 10) := by
  rw [sepPath_components, if_pos h]

/-- The token behind the others. -/
theorem tokenAt_last {s n : CString} {ns : Path} (h : components s = ns ++ [n])
    (hlen : ns.length < 10) :
    tokenAt (components s) (((components s).length : ℤ) - 1) = .ok n := by
  rw [h, tokenAt, if_neg (by simp; omega)]
  simp

/-- The token in front of the first one. -/
theorem tokenAt_neg {k : ℤ} (hk : k < 0) (tokens : List CString) :
    tokenAt tokens k = .error .outOfRange := by
  rw [tokenAt, if_pos (.inl hk)]

/-! ## `path2inum` -/

section

variable {d : Disk} (hT : Tree d) (u : Stack)

include hT

/-- `path2inum` walks along the components of any string. -/
theorem path2inum_components {s : CString} (hs : s.head? = some slash) :
    path2inum u d s =
      if 10 < (components s).length then -ENOENT else walkInum d 2 (components s) := by
  rw [path2inum, if_neg (by simp [hs])]
  split_ifs with h
  · rw [sepPath_of_gt h]
    rfl
  · rw [sepPath_of_le (not_lt.mp h)]
    cases hc : components s with
    | nil => rfl
    | cons n ns =>
      have hpos : ¬ (((n :: ns).length : ℤ) < 0) := by omega
      have hne : ¬ (((n :: ns).length : ℤ) = 0) := by simp; omega
      simp only [hpos, hne, if_false]
      exact path2inumLoop_eq hT (n :: ns) [] 2 _ _ rfl

end

/-! ## `par_path` -/

/-- What `par_path` copies of a string. -/
def cutParent (s : CString) : CString := s.take (render (components s).dropLast).length

/-- Writing out the components of a string makes it no longer. -/
theorem render_components_le {s : CString} (hs : s.head? = some slash) :
    (render (components s)).length ≤ s.length ∧
      ((render (components s)).length = s.length → render (components s) = s) := by
  obtain ⟨t, rfl⟩ : ∃ t, s = slash :: t := by
    cases s with
    | nil => cases hs
    | cons c t => exact ⟨t, by rw [Option.some.inj hs]⟩
  have h := @length_fields_le _ _ slash t
  rw [components, fields_sep_cons, render]
  simpa using h

/-- Writing out the components but the last one makes it no longer. -/
theorem length_render_dropLast (ns : Path) : (render ns.dropLast).length ≤ (render ns).length := by
  rcases List.eq_nil_or_concat' ns with rfl | ⟨ms, n, rfl⟩
  · exact le_rfl
  · rw [List.dropLast_concat, render_append, List.length_append]
    omega

/-- What `par_path` copies is as long as the components but the last one. -/
theorem length_cutParent {s : CString} (hs : s.head? = some slash) :
    (cutParent s).length = (render (components s).dropLast).length := by
  have h1 := (render_components_le hs).1
  have h2 := length_render_dropLast (components s)
  rw [cutParent, List.length_take]
  omega

/-- The string that `par_path` makes, when there are at most 10 components. -/
theorem parPath_components {s : CString} (hs : s.head? = some slash) :
    parPath (components s) s (components s).length =
      if 298 < (render (components s).dropLast).length then .error .outOfRange
      else .ok (cutParent s ++ [slash]) := by
  have hsum : (((components s).take (((components s).length : ℤ) - 1).toNat).map fun t =>
      t.length + 1).sum = (render (components s).dropLast).length := by
    rw [length_render, List.dropLast_eq_take, show (((components s).length : ℤ) - 1).toNat =
      (components s).length - 1 by omega]
  have h1 := (render_components_le hs).1
  have h2 := length_render_dropLast (components s)
  rw [parPath, copyParent, hsum, if_pos (h2.trans h1)]
  split_ifs with h3 h4 h4
  · rfl
  · omega
  · omega
  · rfl

/-- A slash at the end adds no component. -/
theorem components_copy (s : CString) :
    components (cutParent s ++ [slash]) = components (cutParent s) :=
  fields_concat_sep _

/-- The copy is the first part of the string. -/
theorem cutParent_append (s : CString) :
    cutParent s ++ s.drop (render (components s).dropLast).length = s := List.take_append_drop _ s

/-- The components of the copy are the first ones of the string, the last one perhaps cut short. -/
theorem length_components_cutParent (s : CString) :
    (components (cutParent s)).length ≤ (components s).length := by
  obtain ⟨ws, zs, heq, hprefix⟩ := @fields_of_append _ _ slash (cutParent s)
    (s.drop (render (components s).dropLast).length)
  rw [cutParent_append] at heq
  rw [components, components, heq, List.length_append, hprefix.length_eq]
  omega

/-- The components of what `par_path` copies begin components of the string. -/
theorem exists_component_of_mem {s n : CString} (h : n ∈ components (cutParent s)) :
    ∃ m ∈ components s, n <+: m := by
  have hmem := exists_prefix_of_mem_fields h (s.drop (render (components s).dropLast).length)
  rwa [cutParent_append] at hmem

/-- What `par_path` copies starts with a slash. -/
theorem head_copy {s : CString} (hs : s.head? = some slash) :
    (cutParent s ++ [slash]).head? = some slash := by
  rw [cutParent]
  cases s with
  | nil => cases hs
  | cons c s =>
    cases (render (components (c :: s)).dropLast).length with
    | zero => rfl
    | succ k => exact hs

/-- The copy has the components in front of the last one exactly when the string spells them with
one slash each. -/
theorem components_cutParent_iff {s : CString} (hs : s.head? = some slash) :
    components (cutParent s) = (components s).dropLast ↔ render (components s).dropLast <+: s := by
  have hlen := length_cutParent hs
  constructor
  -- The parent has no more components than its spelling has room for, so the two are equal.
  · intro h
    by_cases hnil : (components s).dropLast = []
    · rw [hnil]
      exact List.nil_prefix
    · have hhead : (cutParent s).head? = some slash := by
        have := head_copy hs
        cases hc : cutParent s with
        | nil =>
          rw [hc] at h
          exact absurd (h.symm.trans fields_nil) hnil
        | cons c t =>
          rw [hc] at this
          exact this
      have heq := (render_components_le hhead).2 (by rw [h, hlen])
      rw [h] at heq
      rw [heq, cutParent]
      exact List.take_prefix _ _
  · intro h
    have hcut : cutParent s = render (components s).dropLast := by
      rw [cutParent]
      exact (List.prefix_iff_eq_take.mp h).symm
    rw [hcut]
    refine components_render fun n hn => ?_
    obtain ⟨hne, hslash, -⟩ := mem_fields (List.mem_of_mem_dropLast hn)
    exact ⟨hne, hslash⟩

end Cs5600.Lab4
