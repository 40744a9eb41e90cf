import Cs5600.Lab4.Device

/-!
# What a rename changes

`fs_rename` between any two normalised paths, also the root and paths of more than 10 components.
With a name of at most 27 bytes it changes that name and nothing else. The length of the new name is
not checked: a longer one is copied over the entries behind it.
-/

namespace Cs5600.Lab4

/-! ## Normalised paths of any length -/

/-- A normalised absolute path. -/
structure AnyPath where
  comps : Path
  isName : ∀ n ∈ comps, IsName n

/-- The path as a string. -/
def AnyPath.str (p : AnyPath) : CString := if p.comps = [] then [slash] else render p.comps

/-- The root, a path that fits into the token array, or one that does not. -/
theorem AnyPath.cases (p : AnyPath) : p.comps = [] ∧ p.str = [slash] ∨
    (∃ n : NormPath, n.comps = p.comps ∧ n.str = p.str) ∨
    ∃ q : DeepPath, q.comps = p.comps ∧ q.str = p.str := by
  obtain ⟨comps, hname⟩ := p
  rcases List.eq_nil_or_concat' comps with rfl | ⟨par, n, rfl⟩
  · exact .inl ⟨rfl, rfl⟩
  have hstr : AnyPath.str ⟨par ++ [n], hname⟩ = render (par ++ [n]) := if_neg (by simp)
  rw [hstr]
  by_cases hlen : par.length < 10
  · exact .inr
      (.inl ⟨⟨par, n, fun m hm => hname m (by simp [hm]), hname n (by simp), hlen⟩, rfl, rfl⟩)
  · exact .inr (.inr ⟨⟨par ++ [n], hname, by simp; omega⟩, rfl, rfl⟩)

/-- The path of the root has no components. -/
theorem sepPath_slash : sepPath [slash] = (0, []) := by decide

/-! ## The frame of a rename -/

/-- Between `d` and `d'`, the last name of `src` has become that of `dst`. All blocks but that of
the directory, and there all bytes but those of one entry, are as before; that entry keeps its
inode. -/
structure OneName (d d' : Disk) (src dst : Path) : Prop where
  wellFormed : WellFormed d'
  moved : ∀ q, resolve d' (dst ++ q) = resolve d (src ++ q)
  gone : resolve d' src = none
  frame : ∃ par n n' P s f, src = par ++ [n] ∧ dst = par ++ [n'] ∧ resolve d par = some P ∧
    slot (dirBlock d P) s = some (f, n) ∧ slot (dirBlock d' P) s = some (f, n') ∧
    d'.nblks = d.nblks ∧ (∀ j, j ≠ (inodeAt d P).ptr 0 → d'.blk j = d.blk j) ∧
    ∀ i, i < 32 * s ∨ 32 * s + 32 ≤ i → (dirBlock d' P).get i = (dirBlock d P).get i

/-- What a rename on `d` should do: change one name when it returns 0, and refuse a name that does
not fit into an entry. -/
structure RenamesOne (u : Stack) (d : Disk) (src dst : AnyPath) : Prop where
  oneName : ∀ d', fsRename u src.str dst.str d = .ok (0, d') → OneName d d' src.comps dst.comps
  refuses : ∀ n, dst.comps.getLast? = some n → 27 < n.length →
    ∃ rc < 0, ∃ d', fsRename u src.str dst.str d = .ok (rc, d')

/-- The new name fits, or the rename is refused because of the paths: the source is not there, or
the parents differ. -/
def NameFits (d : Disk) (src dst : AnyPath) : Prop :=
  ∀ par n n', src.comps = par ++ [n] → dst.comps = par ++ [n'] → src.comps.length ≤ 10 →
    resolve d src.comps ≠ none → n'.length ≤ 27

section

variable {d : Disk} {src dst : AnyPath}

/-- A rename that is refused meets what it should do. -/
theorem renamesOne_of_error {u : Stack} {rc : ℤ} {d' : Disk} (hrc : rc < 0)
    (h : fsRename u src.str dst.str d = .ok (rc, d')) : RenamesOne u d src dst where
  oneName d'' h0 := by
    rw [h] at h0
    obtain ⟨hzero, -⟩ := Prod.mk.inj (Except.ok.inj h0)
    omega
  refuses _ _ _ := ⟨rc, hrc, d', h⟩

/-- A rename between paths of different kinds, or of two roots or two deep paths, is refused. -/
theorem fsRename_refused {u : Stack} {s t : CString}
    (h : (sepPath s).1 ≠ (sepPath t).1 ∨ path2inum u d s < 0 ∨ 0 < path2inum u d t) :
    ∃ rc < 0, fsRename u s t d = .ok (rc, d) := by
  simp only [fsRename]
  split_ifs with h1 h2 h3 h4
  · exact ⟨-ENOENT, by decide, rfl⟩
  · exact ⟨-ENOENT, by decide, rfl⟩
  · exact ⟨-EEXIST, by decide, rfl⟩
  · exact ⟨-EINVAL, by decide, rfl⟩
  · exact ⟨-EINVAL, by decide, rfl⟩
  · rcases h with h | h | h
    · exact absurd h h4
    · exact absurd h h2
    · exact absurd h h3

/-- Two paths that fit into the token arrays, or a rename that is refused because of the paths. -/
theorem norm_or_refused (hT : Tree d) (u : Stack) (src dst : AnyPath) :
    (∃ s t : NormPath, s.comps = src.comps ∧ s.str = src.str ∧ t.comps = dst.comps ∧
      t.str = dst.str) ∨
    (∃ rc < 0, fsRename u src.str dst.str d = .ok (rc, d)) ∧ NameFits d src dst := by
  have hroot : 0 < path2inum u d [slash] := by
    have h := @path2inum_spells d hT u [slash] [] (by simp) (by simp) (.inr rfl) rfl
    rw [h]
    exact two_pos
  have hnorm : ∀ s : NormPath, 0 < (sepPath s.str).1 := fun s => by
    rw [sepPath_str]
    dsimp only
    omega
  have hdiffer : src.comps.length ≠ dst.comps.length → NameFits d src dst := by
    intro hne par n n' hsrc hdst
    exact absurd (by rw [hsrc, hdst]; simp) hne
  -- A path is the root, fits into the token array, or has too many components.
  rcases src.cases with ⟨hsrc, hs⟩ | ⟨s, hsrc, hs⟩ | ⟨s, hsrc, hs⟩
  · refine .inr ⟨fsRename_refused ?_, fun par n n' h => ?_⟩
    · rcases dst.cases with ⟨-, ht⟩ | ⟨t, -, ht⟩ | ⟨t, -, ht⟩
      · exact .inr (.inr (ht ▸ hroot))
      · refine .inl ?_
        rw [hs, ← ht, sepPath_slash]
        exact (hnorm t).ne
      · refine .inl ?_
        rw [hs, ← ht, sepPath_slash, sepPath_deep]
        decide
    · rw [hsrc] at h
      simp at h
  · rcases dst.cases with ⟨hdst, ht⟩ | ⟨t, hdst, ht⟩ | ⟨t, hdst, ht⟩
    · refine .inr ⟨fsRename_refused (.inr (.inr (ht ▸ hroot))), hdiffer ?_⟩
      rw [hdst, ← hsrc, s.length_comps]
      simp
    · exact .inl ⟨s, t, hsrc, hs, hdst, ht⟩
    · refine .inr ⟨fsRename_refused (.inl ?_), hdiffer ?_⟩
      · rw [← hs, ← ht, sepPath_deep]
        have := hnorm s
        omega
      · have := t.length_gt
        have := s.parent_lt
        rw [← hsrc, ← hdst, s.length_comps]
        omega
  · refine .inr ⟨fsRename_refused (.inr (.inl ?_)), fun par n n' _ _ hle => ?_⟩
    · rw [← hs, path2inum_deep]
      decide
    · have := s.length_gt
      rw [hsrc] at this
      omega

/-- A name that is changed in its entry. -/
theorem NameEdit.oneName (hW : WellFormed d) {d' : Disk} {p : Path} {n n' : CString} {P s f : ℕ}
    (e : NameEdit d d' p n n' P s f) : OneName d d' (p ++ [n]) (p ++ [n']) where
  wellFormed := e.wellFormed hW
  moved q := by
    have hprefix : p ++ [n'] <+: p ++ [n'] ++ q := List.prefix_append _ _
    rw [e.resolve_eq hW.toTree, unrename, if_pos hprefix, Option.bind_some, List.drop_left]
  gone := by
    have hne : ¬ p ++ [n'] <+: p ++ [n] := by
      intro h
      have heq := h.eq_of_length (by simp)
      exact e.ne hW.toTree (List.singleton_inj.mp (List.append_cancel_left heq))
    rw [e.resolve_eq hW.toTree, unrename, if_neg hne, if_pos List.prefix_rfl, Option.bind_none]
  frame := by
    refine ⟨p, n, n', P, s, f, rfl, rfl, e.parent, e.slot_old, ?_, e.nblks, e.keep, fun i hi => ?_⟩
    · rw [e.slot_eq hW.toTree, Function.update_self]
    · rw [e.dirBlock_eq hW.toTree]
      exact e.slots.outside i hi

/-- Between paths that fit into the token arrays, a rename does one thing exactly when the new name
fits or the paths forbid it. -/
theorem renamesOne_iff_of_norm (hW : WellFormed d) (u : Stack) {s t : NormPath}
    (hsrc : s.comps = src.comps) (hs : s.str = src.str) (hdst : t.comps = dst.comps)
    (ht : t.str = dst.str) : RenamesOne u d src dst ↔ NameFits d src dst := by
  have hT := hW.toTree
  have hcases := fsRename_cases hT u s t
  rw [hs, ht] at hcases
  have hfits : NameFits d src dst ↔
      (s.parent = t.parent → resolve d s.comps ≠ none → t.name.length ≤ 27) := by
    rw [NameFits, ← hsrc, ← hdst]
    constructor
    · intro h hpar hres
      refine h s.parent s.name t.name rfl (by rw [hpar]; rfl) ?_ hres
      have := s.parent_lt
      rw [s.length_comps]
      omega
    · intro h par n n' hn hn' _ hres
      obtain ⟨hpar, -⟩ := List.append_inj' hn rfl
      obtain ⟨hpar', hname⟩ := List.append_inj' hn' rfl
      rw [← List.singleton_inj.mp hname]
      exact h (hpar.trans hpar'.symm) hres
  rw [hfits]
  rcases hcases with ⟨hnone, h⟩ | ⟨-, hres, h⟩ | ⟨-, -, hpar, h⟩ |
    ⟨P, k, f, hP, hdir, hk, hfree, hpar, h⟩
  · exact iff_of_true (renamesOne_of_error (by decide) h) fun _ hres => absurd hnone hres
  · refine iff_of_true (renamesOne_of_error (by decide) h) fun _ _ => ?_
    obtain ⟨i, hi⟩ := Option.isSome_iff_exists.mp hres
    exact hT.length_le_of_resolve hi _ (by simp [NormPath.comps])
  · exact iff_of_true (renamesOne_of_error (by decide) h) fun heq => absurd heq hpar
  · have hres : resolve d s.comps ≠ none := by
      rw [NormPath.comps, hT.resolve_of_slot hP hdir hk]
      simp
    constructor
    · intro hone _ _
      -- A longer name is copied all the same, or the copy leaves the block.
      by_contra hlong
      obtain ⟨rc, hrc, d', hrun⟩ := hone.refuses t.name (by rw [← hdst, NormPath.comps]; simp)
        (by omega)
      rw [h] at hrun
      cases hcopy : strcpyName (dirBlock d P) k t.name with
      | error e =>
        rw [hcopy] at hrun
        cases hrun
      | ok buf =>
        rw [hcopy, ok_bind] at hrun
        obtain ⟨hzero, -⟩ := Prod.mk.inj (Except.ok.inj hrun)
        omega
    · intro hlen
      have hlen := hlen hpar hres
      rw [strcpyName_eq _ (slot_lt hk) hlen, ok_bind] at h
      refine ⟨fun d' hrun => ?_, fun n hn hlong => ?_⟩
      · rw [h] at hrun
        obtain ⟨-, rfl⟩ := Prod.mk.inj (Except.ok.inj hrun)
        have e := nameEdit_write hT hP hdir hk (hpar ▸ hfree) t.name_isName hlen
        have hone := e.oneName hW
        rw [← hsrc, ← hdst, NormPath.comps, NormPath.comps, ← hpar]
        exact hone
      · rw [← hdst, NormPath.comps, List.getLast?_concat, Option.some.injEq] at hn
        rw [← hn] at hlong
        omega

/-- `fs_rename` between two normalised paths changes one name and nothing else when it returns 0,
and refuses a name that is too long, exactly when the new name fits or the paths forbid the
rename. -/
theorem fsRename_oneName_iff (hW : WellFormed d) (u : Stack) (src dst : AnyPath) :
    RenamesOne u d src dst ↔ NameFits d src dst := by
  rcases norm_or_refused hW.toTree u src dst with ⟨s, t, hsrc, hs, hdst, ht⟩ | ⟨⟨rc, hrc, h⟩, hfits⟩
  · exact renamesOne_iff_of_norm hW u hsrc hs hdst ht
  · exact iff_of_true (renamesOne_of_error hrc h) hfits

end

/-! ## A name of 28 bytes -/

/-- Some letters `b` are a name. -/
theorem isName_bs (n : ℕ) : IsName (List.replicate (n + 1) 98) := by
  refine ⟨by simp, fun h => ?_, fun h => ?_⟩ <;> cases List.eq_of_mem_replicate h

/-- A path of one component. -/
def AnyPath.single (n : CString) (hn : IsName n) : AnyPath :=
  ⟨[n], fun m hm => by rw [List.mem_singleton.mp hm]; exact hn⟩

/-- `/a`. -/
def anyPathA : AnyPath := .single [97] pathA.name_isName

/-- `/b`. -/
def anyPathB : AnyPath := .single (List.replicate 1 98) (isName_bs 0)

/-- A name of 28 bytes in the root directory. -/
def anyPathLong : AnyPath := .single (List.replicate 28 98) (isName_bs 27)

/-- Renaming `/a` to `/b` on the image of `disk2.in` with one file. -/
theorem fsRename_oneName_disk2 : ∃ d, WellFormed d ∧ (resolve d [[97]]).isSome ∧
    RenamesOne zeroStack d anyPathA anyPathB := by
  obtain ⟨d, n, -, hW, hn, -⟩ := disk2_create
  obtain ⟨i, hi, -⟩ := Option.map_eq_some_iff.mp hn
  refine ⟨d, hW, Option.isSome_iff_exists.mpr ⟨i, hi⟩,
    (fsRename_oneName_iff hW zeroStack anyPathA anyPathB).mpr ?_⟩
  intro par m m' _ hdst _ _
  obtain ⟨-, hm⟩ := List.append_inj' (show [] ++ [[98]] = par ++ [m'] from hdst) rfl
  rw [← List.singleton_inj.mp hm]
  decide

/-- Renaming `/a` to a name of 28 bytes returns 0, or leaves the block. -/
theorem not_renamesOne_disk2 :
    ∃ d n, fsCreate someCtx zeroStack pathA.str 0o644 disk2 = .ok (0, d) ∧
    WellFormed d ∧ anyPathLong.comps.getLast? = some n ∧ n.length = 28 ∧
    ¬ RenamesOne zeroStack d anyPathA anyPathLong := by
  obtain ⟨d, n, hcreate, hW, hn, -⟩ := disk2_create
  obtain ⟨i, hi, -⟩ := Option.map_eq_some_iff.mp hn
  refine ⟨d, _, hcreate, hW, rfl, by decide, fun h => ?_⟩
  have hfits := (@renamesOne_iff_of_norm d anyPathA anyPathLong hW zeroStack pathA
    ⟨[], List.replicate 28 98, by simp, isName_bs 27, by simp⟩ rfl rfl rfl rfl).mp h
  have hle := hfits [] [97] (List.replicate 28 98) rfl rfl (by decide) (by
    rw [show anyPathA.comps = pathA.comps from rfl, hi]
    simp)
  rw [List.length_replicate] at hle
  omega

end Cs5600.Lab4
