import Cs5600.Lab4.Layout

/-!
# Path strings

`sep_path` cuts a path into its components with `strtok`, and `par_path` copies the part of the path
in front of the last component into a 300-byte buffer. On a normalised absolute path, which is what
FUSE passes, `sep_path` returns the components (`sepPath_str`) and `par_path` returns a path with
the components of the parent (`parPath_str`), unless the parent's part does not fit into the buffer.
-/

namespace Cs5600.Lab4

/-- The character `/`. -/
abbrev slash : UInt8 := 47

/-- `strtok(s, "/")`: the next token and the string behind it. -/
def strtok (s : CString) : Option (CString × CString) :=
  let t := s.dropWhile (· == slash)
  if t = [] then none else some (t.takeWhile (· != slash), (t.dropWhile (· != slash)).drop 1)

/-- The loop of `sep_path` with room for `room` more tokens: the tokens that it stores, and whether
another one is left. -/
def sepPathLoop : ℕ → CString → List CString × Bool
  | 0, s => ([], (strtok s).isSome)
  | room + 1, s =>
    match strtok s with
    | none => ([], false)
    | some (token, rest) =>
      let (tokens, more) := sepPathLoop room rest
      (token :: tokens, more)

/-- `sep_path(path, hierpath, "/", 10)`: its result and the tokens in `hierpath`. -/
def sepPath (path : CString) : ℤ × List CString :=
  let (tokens, more) := sepPathLoop 10 path
  if more then (-1, tokens) else (tokens.length, tokens)

/-- `tokens[k]` of an array that holds the tokens and null pointers behind them. -/
def tokenAt (tokens : List CString) (k : ℤ) : Except Fault CString :=
  if k < 0 ∨ 10 ≤ k then .error .outOfRange
  else match tokens[k.toNat]? with
    | some t => .ok t
    | none => .error .nullDeref

/-- The first `len` bytes of `src`, a slash, and a NUL, in a 300-byte buffer: what `par_path` and
`fs_rename` build with `strncpy`. -/
def copyParent (src : CString) (len : ℕ) : Except Fault CString :=
  if 300 ≤ len + 1 then .error .outOfRange
  -- `strncpy` pads a shorter string with NULs, which then end the result.
  else .ok (if len ≤ src.length then src.take len ++ [slash] else src)

/-- `par_path`. -/
def parPath (hierpath : List CString) (src : CString) (levels : ℤ) : Except Fault CString :=
  copyParent src ((hierpath.take (levels - 1).toNat).map fun t => t.length + 1).sum

/-! ## Normalised paths -/

/-- A string that can be a path component. -/
structure IsName (n : CString) : Prop where
  ne_nil : n ≠ []
  noNul : 0 ∉ n
  noSlash : slash ∉ n

/-- The string of a list of components, each behind a slash. -/
def render (ns : List CString) : CString := ns.flatMap fun n => slash :: n

/-- A normalised absolute path of 1 to 10 components. -/
structure NormPath where
  /-- The components in front of the last one. -/
  parent : List CString
  /-- The last component. -/
  name : CString
  parent_isName : ∀ n ∈ parent, IsName n
  name_isName : IsName name
  parent_lt : parent.length < 10

namespace NormPath

/-- The components of the path. -/
def comps (p : NormPath) : List CString := p.parent ++ [p.name]

/-- The path as a string. -/
def str (p : NormPath) : CString := render p.comps

/-- The components of a path are names. -/
theorem isName (p : NormPath) : ∀ n ∈ p.comps, IsName n := by
  intro n hn
  rcases List.mem_append.mp hn with h | h
  · exact p.parent_isName n h
  · rw [List.mem_singleton.mp h]; exact p.name_isName

/-- A path has one component more than its parent. -/
theorem length_comps (p : NormPath) : p.comps.length = p.parent.length + 1 := by simp [comps]

end NormPath

/-- The empty path is written as nothing. -/
@[simp]
theorem render_nil : render [] = [] := rfl

/-- A path is written with a slash in front of each component. -/
theorem render_cons (n : CString) (ns : List CString) :
    render (n :: ns) = slash :: n ++ render ns := by
  simp [render]

/-- Paths are written one after the other. -/
theorem render_append (ms ns : List CString) : render (ms ++ ns) = render ms ++ render ns := by
  simp [render]

/-- A path is as long as its components and slashes. -/
theorem length_render (ns : List CString) :
    (render ns).length = (ns.map fun n => n.length + 1).sum := by
  induction ns with
  | nil => rfl
  | cons n ns ih =>
    rw [render_cons, List.map_cons, List.sum_cons, ← ih]
    simp
    omega

/-- Names of at most 27 bytes take at most 28 bytes each. -/
theorem length_render_le {ns : List CString} (h : ∀ n ∈ ns, n.length ≤ 27) :
    (render ns).length ≤ 28 * ns.length := by
  induction ns with
  | nil => exact le_rfl
  | cons n ns ih =>
    have hrec := ih fun m hm => h m (List.mem_cons_of_mem n hm)
    have := h n List.mem_cons_self
    rw [render_cons]
    simp only [List.length_append, List.length_cons]
    omega

/-- A string with the components `ns`: the path, or the path with a slash behind it. -/
def Spells (s : CString) (ns : List CString) : Prop := s = render ns ∨ s = render ns ++ [slash]

/-- `strtok` on the string of a path, with or without its first slash, returns the first
component. -/
theorem strtok_spells {n : CString} {ns : List CString} {s : CString} (hn : IsName n)
    (hs : Spells s (n :: ns)) (k : ℕ) (hk : k ≤ 1) :
    ∃ t, Spells t ns ∧ strtok (s.drop k) = some (n, t.drop 1) := by
  obtain ⟨t, ht, hst⟩ : ∃ t, Spells t ns ∧ s = slash :: n ++ t := by
    rcases hs with rfl | rfl
    · exact ⟨render ns, .inl rfl, render_cons n ns⟩
    · exact ⟨render ns ++ [slash], .inr rfl, by rw [render_cons]; simp⟩
  refine ⟨t, ht, ?_⟩
  -- Behind the component the string ends or goes on with a slash.
  have hhead : t = [] ∨ ∃ r, t = slash :: r := by
    rcases ht with rfl | rfl
    · cases ns with
      | nil => exact .inl rfl
      | cons m ms => exact .inr ⟨_, render_cons m ms⟩
    · cases ns with
      | nil => exact .inr ⟨[], rfl⟩
      | cons m ms => exact .inr ⟨_, by rw [render_cons]; rfl⟩
  have hall : ∀ c ∈ n, (c != slash) = true := by
    intro c hc
    simp only [bne_iff_ne, ne_eq]
    rintro rfl
    exact hn.noSlash hc
  have hdrop : (s.drop k).dropWhile (· == slash) = n ++ t := by
    obtain ⟨c, n', rfl⟩ := List.exists_cons_of_ne_nil hn.ne_nil
    have hc : ¬ c = slash := fun h => hn.noSlash (by simp [h])
    have hk' : k = 0 ∨ k = 1 := by omega
    rw [hst]
    rcases hk' with rfl | rfl <;> simp [hc]
  have hne : ¬ n ++ t = [] := by simp [hn.ne_nil]
  unfold strtok
  simp only [hdrop, hne, if_false]
  have htake : (n ++ t).takeWhile (· != slash) = n := by
    rw [List.takeWhile_append_of_pos hall]
    rcases hhead with rfl | ⟨r, rfl⟩ <;> simp
  have hrest : (n ++ t).dropWhile (· != slash) = t := by
    rw [List.dropWhile_append_of_pos hall]
    rcases hhead with rfl | ⟨r, rfl⟩ <;> simp
  rw [htake, hrest]

/-- The loop of `sep_path` on the string of a path that fits. -/
theorem sepPathLoop_spells {ns : List CString} (hn : ∀ n ∈ ns, IsName n) :
    ∀ (room : ℕ) (s : CString) (k : ℕ), ns.length ≤ room → k ≤ 1 → Spells s ns →
      sepPathLoop room (s.drop k) = (ns, false) := by
  induction ns with
  | nil =>
    intro room s k _ hk hs
    have hnone : strtok (s.drop k) = none := by
      have hk' : k = 0 ∨ k = 1 := by omega
      rcases hs with rfl | rfl <;> rcases hk' with rfl | rfl <;> rfl
    cases room with
    | zero => simp [sepPathLoop, hnone]
    | succ room => simp [sepPathLoop, hnone]
  | cons n ns ih =>
    intro room s k hroom hk hs
    obtain ⟨room, rfl⟩ : ∃ r, room = r + 1 := ⟨room - 1, by simp at hroom; omega⟩
    obtain ⟨t, ht, htok⟩ := strtok_spells (hn n (by simp)) hs k hk
    have hrec := ih (fun m hm => hn m (by simp [hm])) room t 1 (by simpa using hroom) le_rfl ht
    simp only [sepPathLoop, htok, hrec]

/-- `sep_path` returns the components of a path of at most 10 components. -/
theorem sepPath_spells {ns : List CString} {s : CString} (hn : ∀ n ∈ ns, IsName n)
    (hlen : ns.length ≤ 10) (hs : Spells s ns) : sepPath s = ((ns.length : ℤ), ns) := by
  have h := sepPathLoop_spells hn 10 s 0 hlen (by omega) hs
  rw [List.drop_zero] at h
  simp [sepPath, h]

/-- `sep_path` splits a path into its components. -/
theorem sepPath_str (p : NormPath) : sepPath p.str = ((p.parent.length : ℤ) + 1, p.comps) := by
  have h := p.length_comps
  rw [NormPath.str, sepPath_spells p.isName (by have := p.parent_lt; omega) (.inl rfl), h]
  push_cast
  rfl

/-- `par_path` on a normalised path: the parent's path with a slash behind it, when it fits. -/
theorem parPath_str (p : NormPath) :
    parPath p.comps p.str (p.parent.length + 1) =
      if 298 < (render p.parent).length then .error .outOfRange
      else .ok (render p.parent ++ [slash]) := by
  have htake : (p.comps.take ((p.parent.length : ℤ) + 1 - 1).toNat) = p.parent := by
    rw [show ((p.parent.length : ℤ) + 1 - 1).toNat = p.parent.length by omega, NormPath.comps]
    simp
  have hstr : p.str = render p.parent ++ render [p.name] := by
    rw [NormPath.str, NormPath.comps, render_append]
  rw [parPath, htake, ← length_render, copyParent, hstr]
  by_cases h : 298 < (render p.parent).length
  · rw [if_pos (by omega), if_pos h]
  · rw [if_neg (by omega), if_neg h, if_pos (by simp)]
    simp

/-- The last token of a path is its name. -/
theorem tokenAt_comps (p : NormPath) :
    tokenAt p.comps ((p.parent.length : ℤ) + 1 - 1) = .ok p.name := by
  have h := p.parent_lt
  rw [tokenAt, if_neg (by omega),
    show ((p.parent.length : ℤ) + 1 - 1).toNat = p.parent.length by omega, NormPath.comps]
  simp

/-- The first character of a normalised path is a slash. -/
theorem head_str (p : NormPath) : p.str.head? = some slash := by
  rw [NormPath.str, NormPath.comps]
  cases p.parent with
  | nil => rfl
  | cons n ns => rw [List.cons_append, render_cons]; rfl

/-! ## Paths of more than 10 components -/

/-- A normalised absolute path with more components than the code has room for. -/
structure DeepPath where
  comps : List CString
  isName : ∀ n ∈ comps, IsName n
  length_gt : 10 < comps.length

/-- The path as a string. -/
def DeepPath.str (p : DeepPath) : CString := render p.comps

/-- The loop of `sep_path` on the string of a path that does not fit. -/
theorem sepPathLoop_deep {ns : List CString} (hn : ∀ n ∈ ns, IsName n) :
    ∀ (room : ℕ) (s : CString) (k : ℕ), room < ns.length → k ≤ 1 → Spells s ns →
      (sepPathLoop room (s.drop k)).2 = true := by
  induction ns with
  | nil => intro room s k hroom; simp at hroom
  | cons n ns ih =>
    intro room s k hroom hk hs
    obtain ⟨t, ht, htok⟩ := strtok_spells (hn n (by simp)) hs k hk
    cases room with
    | zero => simp [sepPathLoop, htok]
    | succ room =>
      have hrec := ih (fun m hm => hn m (by simp [hm])) room t 1 (by simpa using hroom) le_rfl ht
      simp only [sepPathLoop, htok, hrec]

/-- `sep_path` of such a path returns -1. -/
theorem sepPath_deep (p : DeepPath) : (sepPath p.str).1 = -1 := by
  have h := sepPathLoop_deep p.isName 10 p.str 0 p.length_gt (by omega) (.inl rfl)
  rw [List.drop_zero] at h
  simp [sepPath, h]

end Cs5600.Lab4
