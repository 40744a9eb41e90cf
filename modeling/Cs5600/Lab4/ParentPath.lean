import Cs5600.Lab4.Components
import Cs5600.Lab4.Namespace

/-!
# Parents of paths with repeated slashes

The operations that change a directory look it up with the string that `par_path` makes. It leads to
the same node as the components in front of the last one exactly when these are spelled with one
slash each, or when neither leads anywhere for the same reason.
-/

namespace Cs5600.Lab4

section

variable {d : Disk}

/-! ## Walks that end in the same way -/

/-- A path with a component behind a file. -/
def ThroughFile (d : Disk) (q : Path) : Prop :=
  ∃ p n r i, q = p ++ n :: r ∧ resolve d p = some i ∧ (inodeAt d i).isDir = false

/-- A walk returns -ENOTDIR when it comes to a file with a component left. -/
theorem walkInum_enotdir_iff {ns : Path} (hlen : ∀ n ∈ ns, n.length ≤ 27) (i : ℕ) :
    walkInum d i ns = -ENOTDIR ↔
      ∃ p n r j, ns = p ++ n :: r ∧ walk (entry d) i p = some j ∧ (inodeAt d j).isDir = false := by
  induction ns generalizing i with
  | nil =>
    refine iff_of_false ?_ ?_
    · rw [walkInum]
      have : -ENOTDIR < 0 := by decide
      omega
    · rintro ⟨p, n, r, j, h, -⟩
      simp at h
  | cons n ns ih =>
    have hrec := ih fun m hm => hlen m (List.mem_cons_of_mem n hm)
    rw [walkInum, if_neg (not_lt.mpr (hlen n List.mem_cons_self))]
    cases hdir : (inodeAt d i).isDir with
    | false => exact iff_of_true rfl ⟨[], n, ns, i, rfl, rfl, hdir⟩
    | true =>
      rw [if_pos rfl]
      -- The path goes into the directory before it meets a file.
      have hcons : ∀ {p m r j}, n :: ns = p ++ m :: r → walk (entry d) i p = some j →
          (inodeAt d j).isDir = false → ∃ q, p = n :: q ∧ ns = q ++ m :: r := by
        intro p m r j heq hwalk hj
        cases p with
        | nil =>
          cases hwalk
          rw [hdir] at hj
          cases hj
        | cons m' p =>
          obtain ⟨rfl, htail⟩ := List.cons.inj heq
          exact ⟨p, rfl, htail⟩
      cases hentry : entry d i n with
      | none =>
        refine iff_of_false (show ¬ -ENOENT = -ENOTDIR by decide) ?_
        rintro ⟨p, m, r, j, heq, hwalk, hj⟩
        obtain ⟨q, rfl, -⟩ := hcons heq hwalk hj
        rw [walk_cons, hentry] at hwalk
        cases hwalk
      | some w =>
        refine (hrec w).trans ⟨?_, ?_⟩
        · rintro ⟨p, m, r, j, rfl, hwalk, hj⟩
          exact ⟨n :: p, m, r, j, rfl, by rw [walk_cons, hentry]; exact hwalk, hj⟩
        · rintro ⟨p, m, r, j, heq, hwalk, hj⟩
          obtain ⟨q, rfl, htail⟩ := hcons heq hwalk hj
          rw [walk_cons, hentry] at hwalk
          exact ⟨q, m, r, j, htail, hwalk, hj⟩

/-- Two walks have the same result when their paths are the same, or both end in the same error. -/
theorem walkInum_eq_iff (hT : Tree d) {q t : Path} (hq : ∀ n ∈ q, n.length ≤ 27)
    (ht : ∀ n ∈ t, n.length ≤ 27) : walkInum d 2 q = walkInum d 2 t ↔
      q = t ∨ resolve d t = none ∧ resolve d q = none ∧ (ThroughFile d t ↔ ThroughFile d q) := by
  have herr : ∀ {q : Path}, (∀ n ∈ q, n.length ≤ 27) →
    (ThroughFile d q ↔ walkInum d 2 q = -ENOTDIR) :=
    fun h => (walkInum_enotdir_iff h 2).symm
  -- A live node is at one path only, so equal inode numbers mean equal paths.
  cases hr : resolve d t with
  | some i =>
    rw [walkInum_some hT hr]
    constructor
    · intro h
      cases hrq : resolve d q with
      | none =>
        have := walkInum_none hrq
        omega
      | some j =>
        rw [walkInum_some hT hrq] at h
        obtain rfl : j = i := by omega
        exact .inl (LiveKey.inode.inj (hT.inj (.inode q) (.inode t) j hrq hr))
    · rintro (rfl | ⟨h, -⟩)
      · exact walkInum_some hT hr
      · cases h
  | none =>
    rw [herr hq, herr ht]
    constructor
    · intro h
      refine .inr ⟨rfl, ?_, by rw [h]⟩
      cases hrq : resolve d q with
      | none => rfl
      | some j =>
        rw [walkInum_some hT hrq] at h
        have := walkInum_none hr
        omega
    · rintro (rfl | ⟨-, hrq, h⟩)
      · rfl
      · rcases walkInum_neg t 2 hr with ht | ht <;> rcases walkInum_neg q 2 hrq with hq | hq
        · rw [ht, hq]
        · rw [h.mpr hq, hq]
        · rw [ht, h.mp ht]
        · rw [ht, hq]

/-! ## The two strings of a parent -/

/-- The components in front of the last one are spelled with one slash each; or neither they nor
what `par_path` copies of them lead anywhere, both or none of them because of a file. -/
def ParentSpelled (d : Disk) (s : CString) : Prop :=
  render (components s).dropLast <+: s ∨
    resolve d (components s).dropLast = none ∧ resolve d (components (cutParent s)) = none ∧
      (ThroughFile d (components s).dropLast ↔ ThroughFile d (components (cutParent s)))

/-- A string that `path2inum` splits into 1 to 10 components of at most 27 bytes. -/
structure Walkable (s : CString) : Prop where
  noNul : 0 ∉ s
  head : s.head? = some slash
  ne_nil : components s ≠ []
  length_le : (components s).length ≤ 10
  name_le : ∀ n ∈ components s, n.length ≤ 27

variable {s : CString}

/-- The names in the copy are not longer. -/
theorem Walkable.cutParent_le (hs : Walkable s) :
    ∀ n ∈ components (cutParent s), n.length ≤ 27 := by
  intro n hn
  obtain ⟨m, hm, hnm⟩ := exists_component_of_mem hn
  exact hnm.length_le.trans (hs.name_le m hm)

/-- The parent of such a string fits into the buffer. -/
theorem Walkable.parent_le (hs : Walkable s) : (render (components s).dropLast).length ≤ 298 := by
  have hle := length_render_le fun _ hn => hs.name_le _ (List.mem_of_mem_dropLast hn)
  have := hs.length_le
  rw [List.length_dropLast] at hle
  omega

/-- What `path2inum` says about the copy. -/
theorem path2inum_copy (hT : Tree d) (u : Stack) (hs : Walkable s) :
    path2inum u d (cutParent s ++ [slash]) = walkInum d 2 (components (cutParent s)) := by
  have hle := length_components_cutParent s
  have := hs.length_le
  rw [path2inum_components hT u (head_copy hs.head), components_copy, if_neg (by omega)]

/-- What `par_path` copies leads where the parent's components do when they are spelled with one
slash each, or when neither leads anywhere, for the same reason. -/
theorem path2inum_copy_iff (hT : Tree d) (u : Stack) (hs : Walkable s) :
    path2inum u d (cutParent s ++ [slash]) = walkInum d 2 (components s).dropLast ↔
      ParentSpelled d s := by
  have hname : ∀ n ∈ (components s).dropLast, n.length ≤ 27 := fun n hn =>
    hs.name_le n (List.mem_of_mem_dropLast hn)
  rw [path2inum_copy hT u hs, walkInum_eq_iff hT hs.cutParent_le hname,
    components_cutParent_iff hs.head, ParentSpelled]

/-! ## `fs_rename` between any two strings -/

/-- The part of `fs_rename` behind the comparison of the paths, for what the copy of the parent
leads to and the last components of the two paths. -/
def renameIn (u : Stack) (d : Disk) (parent : ℤ) (src dst : CString) : Except Fault (ℤ × Disk) :=
  let ino := blockRead d (u .buf) parent
  if ino.2 ≠ 0 then .ok (- EIO, d)
  else
    let srcInode := lbaOf ((Inode.ofBlock ino.1).ptr0)
    let dir := blockRead d ino.1 srcInode
    if dir.2 ≠ 0 then .ok (- EIO, d)
    else match findDirent dir.1 src with
      | none => .error .nullDeref
      | some dirent => do
        let buf ← strcpyName dir.1 dirent dst
        let d := (← blockWrite d buf srcInode).1
        .ok (0, d)

/-- The paths `s` and `t` of a rename that searches a directory: the source is there, the
destination is not, and their parents have the same components. -/
structure Renamable (d : Disk) (s t : CString) (ns : Path) (n n' : CString) : Prop where
  head : s.head? = some slash
  head' : t.head? = some slash
  src : components s = ns ++ [n]
  dst : components t = ns ++ [n']
  length_le : (components s).length ≤ 10
  found : resolve d (components s) ≠ none
  free : resolve d (components t) = none

/-- The paths of a rename that is looked at have the same length. -/
theorem Renamable.length_eq {t n n' : CString} {ns : Path} (h : Renamable d s t ns n n') :
    (components s).length = ns.length + 1 ∧ (components t).length = ns.length + 1 := by
  rw [h.src, h.dst]
  simp

/-- The path of a rename that is looked at can be walked. -/
theorem Renamable.walkable (hT : Tree d) (h0 : 0 ∉ s) {t n n' : CString} {ns : Path}
    (h : Renamable d s t ns n n') : Walkable s := by
  obtain ⟨f, hf⟩ := Option.ne_none_iff_exists'.mp h.found
  exact ⟨h0, h.head, by rw [h.src]; simp, h.length_le, hT.length_le_of_resolve hf⟩

/-- A rename with other paths is refused. -/
theorem fsRename_of_not_renamable (hT : Tree d) (u : Stack) {t : CString}
    (h : ∀ ns n n', ¬ Renamable d s t ns n n') : ∃ rc < 0, fsRename u s t d = .ok (rc, d) := by
  simp only [fsRename]
  split_ifs with h1 h2 h3 h4 h5
  · exact ⟨-ENOENT, by decide, rfl⟩
  · exact ⟨-ENOENT, by decide, rfl⟩
  · exact ⟨-EEXIST, by decide, rfl⟩
  · exact ⟨-EINVAL, by decide, rfl⟩
  · exact ⟨-EINVAL, by decide, rfl⟩
  -- All the tests passed, so the two strings differ in their last components only.
  · exfalso
    rw [not_or, not_not, not_not] at h1
    obtain ⟨hs, ht⟩ := h1
    rw [not_not] at h4
    have hlen : (components s).length ≤ 10 := by
      by_contra hgt
      rw [path2inum_components hT u hs, if_pos (by omega)] at h2
      exact h2 (by decide)
    have hlen' : (components t).length = (components s).length := by
      rw [sepPath_of_le hlen, sepPath_components] at h4
      split_ifs at h4
      · dsimp only at h4
        omega
      · dsimp only at h4
        omega
    rw [path2inum_components hT u hs, if_neg (by omega)] at h2
    rw [path2inum_components hT u ht, if_neg (by omega), walkInum_pos_iff hT] at h3
    have hnil : components s ≠ [] := by
      intro h
      rw [h, List.length_nil, List.length_eq_zero_iff] at hlen'
      exact h3 ⟨2, by rw [hlen']; rfl⟩
    obtain ⟨ns, n, hns⟩ := (List.eq_nil_or_concat' (components s)).resolve_left hnil
    obtain ⟨ns', n', hns'⟩ := (List.eq_nil_or_concat' (components t)).resolve_left fun h => by
      rw [h] at hlen'
      exact hnil (List.length_eq_zero_iff.mp hlen'.symm)
    have hcount : ns'.length = ns.length := by
      rw [hns, hns', List.length_append, List.length_append] at hlen'
      exact Nat.add_right_cancel hlen'
    have hlast : (((ns ++ [n]).length : ℤ) - 1).toNat = ns.length := by
      rw [List.length_append, List.length_singleton]
      omega
    rw [not_not, sepPath_of_le hlen, sepPath_of_le (hlen'.trans_le hlen), hns, hns', hlast,
      List.take_left, ← hcount, List.take_left] at h5
    refine h ns n n'
      ⟨hs, ht, hns, by rw [hns', ← h5], hlen, fun hnone => h2 (walkInum_none hnone), ?_⟩
    rw [Option.eq_none_iff_forall_ne_some]
    exact fun i hi => h3 ⟨i, hi⟩

/-- A rename that searches a directory. -/
theorem fsRename_of_renamable (hT : Tree d) (u : Stack) (h0 : 0 ∉ s) {t n n' : CString} {ns : Path}
    (h : Renamable d s t ns n n') :
    fsRename u s t d = renameIn u d (path2inum u d (cutParent s ++ [slash])) n n' := by
  have hwalk := h.walkable hT h0
  obtain ⟨hlen, hlen'⟩ := h.length_eq
  have hle := h.length_le
  obtain ⟨f, hf⟩ := Option.ne_none_iff_exists'.mp h.found
  have hpar := parPath_components h.head
  rw [if_neg (not_lt.mpr hwalk.parent_le), parPath] at hpar
  have htok := tokenAt_last h.src (by omega)
  have htok' := tokenAt_last h.dst (by omega)
  have hsep := sepPath_of_le hle
  have hsep' := @sepPath_of_le t (by omega)
  rw [hlen'] at htok' hsep'
  rw [hlen] at htok hsep hpar
  -- The source resolves, the destination does not.
  have hnum : ¬ path2inum u d s < 0 := by
    rw [path2inum_components hT u h.head, if_neg (by omega), walkInum_some hT hf]
    omega
  have hnum' : ¬ 0 < path2inum u d t := by
    rw [path2inum_components hT u h.head', if_neg (by omega)]
    have := walkInum_none h.free
    omega
  -- The tokens before the last are the same, those of the common parent.
  have hcount : (((ns.length + 1 : ℕ) : ℤ) - 1).toNat = ns.length := by omega
  have htake : (components s).take ns.length = ns := by rw [h.src, List.take_left]
  have htake' : (components t).take ns.length = ns := by rw [h.dst, List.take_left]
  rw [hcount, htake] at hpar
  simp only [fsRename, h.head, h.head', ne_eq, not_true, or_self, if_false, hnum, hnum',
    hsep, hsep', hcount, htake, htake', hpar, htok, htok', ok_bind]
  rfl

/-- The search in a directory. -/
theorem renameIn_dir (hT : Tree d) (u : Stack) {p : Path} {P : ℕ} (hP : resolve d p = some P)
    (hdir : (inodeAt d P).isDir = true) (src dst : CString) :
    renameIn u d P src dst = match findDirent (dirBlock d P) src with
      | none => .error .nullDeref
      | some dirent => (do
        let buf ← strcpyName (dirBlock d P) dirent dst
        .ok (0, d.write ((inodeAt d P).ptr 0) buf)) := by
  obtain ⟨-, hP', hP''⟩ := hT.inode_range hP
  obtain ⟨hD2, hD', hD''⟩ := hT.dirData_range hP hdir
  have hx : Inode.ofBlock (d.blk P) = inodeAt d P := rfl
  have hD : d.blk ((inodeAt d P).ptr 0) = dirBlock d P := rfl
  simp only [renameIn, blockRead_of_lt d _ hP' hP'', hx, hT.lbaOf_dir hP hdir,
    blockRead_of_lt d _ hD' hD'', hD, blockWrite_of_lt _ _
      (show 0 < (inodeAt d P).ptr 0 by omega) hD',
    ne_eq, not_true, if_false]
  rfl

/-- The directory that binds the last name of a path. -/
theorem exists_parent (hT : Tree d) {ns : Path} {n : CString} {f : ℕ}
    (hf : resolve d (ns ++ [n]) = some f) : ∃ P k, resolve d ns = some P ∧
      (inodeAt d P).isDir = true ∧ slot (dirBlock d P) k = some (f, n) := by
  obtain ⟨P, hP, hentry⟩ := Option.bind_eq_some_iff.mp ((resolve_concat d ns n).symm.trans hf)
  have hdir : (inodeAt d P).isDir = true := by
    unfold entry at hentry
    split_ifs at hentry with h
    exact h
  rw [entry, if_pos hdir] at hentry
  obtain ⟨k, hk⟩ := (dirEntry_eq_some (hT.dirOk hP hdir)).mp hentry
  exact ⟨P, k, hP, hdir, hk⟩

/-! ## The operations that use it -/

/-- The string of the components of `s`, with one slash each. -/
def spelled (s : CString) : CString := render (components s)

/-- What looking up the parent of `s` should do: the string of `par_path`, and the copy in
`fs_rename`, lead where the components in front of the last one lead; so the operations do with `s`
what they do with the normalised string, and `fs_rename` finds the name where it searches. -/
structure ParentAgrees (u : Stack) (d : Disk) (s : CString) : Prop where
  par : ∃ par, parPath (components s) s (components s).length = .ok par ∧
    path2inum u d par = walkInum d 2 (components s).dropLast
  copy : ∃ par, copyParent s
      (((components s).take (((components s).length : ℤ) - 1).toNat).map fun t =>
        t.length + 1).sum =
        .ok par ∧ path2inum u d par = walkInum d 2 (components s).dropLast
  create : ∀ ctx mode, fsCreate ctx u s mode d = fsCreate ctx u (spelled s) mode d
  mkdir : ∀ ctx mode, fsMkdir ctx u s mode d = fsMkdir ctx u (spelled s) mode d
  unlink : ∀ ctx, fsUnlink ctx u s d = fsUnlink ctx u (spelled s) d
  rmdir : ∀ ctx, fsRmdir ctx u s d = fsRmdir ctx u (spelled s) d
  rename : ∀ dst, fsRename u s dst d = fsRename u (spelled s) dst d
  found : ∀ dst, fsRename u s dst d ≠ .error .nullDeref

/-- Spelling a path out keeps its components. -/
theorem Walkable.components_spelled (hs : Walkable s) : components (spelled s) = components s :=
  components_render fun _ hn =>
    have h := isName_of_mem_components hs.noNul hn
    ⟨h.ne_nil, h.noSlash⟩

/-- A path that is spelled out can be walked. -/
theorem Walkable.normal (hs : Walkable s) : Walkable (spelled s) := by
  have hcomps := hs.components_spelled
  refine ⟨fun h => ?_, ?_, by rw [hcomps]; exact hs.ne_nil, by rw [hcomps]; exact hs.length_le,
    by rw [hcomps]; exact hs.name_le⟩
  · obtain ⟨n, hn, h⟩ := List.mem_flatMap.mp h
    rcases List.mem_cons.mp h with h | h
    · exact absurd h (by decide)
    · exact (isName_of_mem_components hs.noNul hn).noNul h
  · obtain ⟨n, ns, hns⟩ := List.exists_cons_of_ne_nil hs.ne_nil
    rw [spelled, hns, render_cons]
    rfl

/-- The parent of a path that is spelled out is spelled out. -/
theorem Walkable.cutParent_spelled (hs : Walkable s) :
    cutParent (spelled s) = render (components s).dropLast := by
  rw [cutParent, hs.components_spelled, spelled]
  obtain ⟨ns, n, hns⟩ := List.eq_nil_or_concat' (components s) |>.resolve_left hs.ne_nil
  rw [hns, List.dropLast_concat, render_append, List.take_left]

/-- Where the copies lead to the same node, the operations do the same with `s` and with its
normalised string. -/
theorem Walkable.parentAgrees (hT : Tree d) {u : Stack} (hs : Walkable s)
    (h : path2inum u d (cutParent s ++ [slash]) = walkInum d 2 (components s).dropLast) :
    ParentAgrees u d s := by
  have hs' := hs.normal
  have hcomps := hs.components_spelled
  have hpar := parPath_components hs.head
  have hpar' := parPath_components hs'.head
  rw [if_neg (not_lt.mpr hs.parent_le)] at hpar
  rw [if_neg (not_lt.mpr hs'.parent_le), hcomps, hs.cutParent_spelled] at hpar'
  have h' : path2inum u d (render (components s).dropLast ++ [slash]) =
      walkInum d 2 (components s).dropLast := by
    have hcopy := path2inum_copy hT u hs'
    rw [hs.cutParent_spelled, components_render fun n hn => ?_] at hcopy
    · exact hcopy
    · have hname := isName_of_mem_components hs.noNul (List.mem_of_mem_dropLast hn)
      exact ⟨hname.ne_nil, hname.noSlash⟩
  have hsep := sepPath_of_le hs.length_le
  have hsep' := sepPath_of_le hs'.length_le
  have hnum : path2inum u d (spelled s) = path2inum u d s := by
    rw [path2inum_components hT u hs.head, path2inum_components hT u hs'.head, hcomps]
  rw [hcomps] at hsep'
  have hcopy := hpar
  have hcopy' := hpar'
  rw [parPath] at hcopy hcopy'
  -- The two calls are equal step by step up to the lookup of the parent, and so is what follows.
  refine ⟨⟨_, hpar, h⟩, ⟨_, hcopy, h⟩, fun ctx mode => ?_, fun ctx mode => ?_, fun ctx => ?_,
    fun ctx => ?_, fun dst => ?_, fun dst => ?_⟩
  · simp only [fsCreate, hs.head, hs'.head, hnum, hsep, hsep', hpar, hpar', ok_bind, h, h']
  · simp only [fsMkdir, hs.head, hs'.head, hnum, hsep, hsep', hpar, hpar', ok_bind, h, h']
  · simp only [fsUnlink, hs.head, hs'.head, hsep, hsep', hpar, hpar', ok_bind, h, h']
  · simp only [fsRmdir, hs.head, hs'.head, hsep, hsep', hpar, hpar', ok_bind, h, h']
  · simp only [fsRename, hs.head, hs'.head, hnum, hsep, hsep', hcopy, hcopy', ok_bind, h, h']
  · by_cases hren : ∃ ns n n', Renamable d s dst ns n n'
    · obtain ⟨ns, n, n', hren⟩ := hren
      obtain ⟨f, hf⟩ := Option.ne_none_iff_exists'.mp hren.found
      rw [hren.src] at hf
      obtain ⟨P, k, hP, hdir, hk⟩ := exists_parent hT hf
      rw [hren.src, List.dropLast_concat, walkInum_some hT hP] at h
      rw [fsRename_of_renamable hT u hs.noNul hren, h, renameIn_dir hT u hP hdir,
        (findDirent_eq_some (hT.dirOk hP hdir)).mpr ⟨f, hk⟩]
      show (strcpyName (dirBlock d P) k n' >>= _) ≠ _
      rw [strcpyName]
      split_ifs
      · rw [ok_bind]
        simp
      · rw [error_bind]
        simp
    · obtain ⟨rc, -, hrun⟩ := fsRename_of_not_renamable hT u fun ns n n' hr => hren ⟨ns, n, n', hr⟩
      rw [hrun]
      simp

/-- The parent of a path string is what a walk goes through exactly when it is spelled with one
slash in front of each component, or when it and its copy lead nowhere for the same reason. -/
theorem parentAgrees_iff (hW : WellFormed d) (u : Stack) (hs : Walkable s) :
    ParentAgrees u d s ↔ ParentSpelled d s := by
  have hT := hW.toTree
  rw [← path2inum_copy_iff hT u hs]
  refine ⟨fun h => ?_, hs.parentAgrees hT⟩
  obtain ⟨par, hpar, hwalk⟩ := h.par
  rw [parPath_components hs.head, if_neg (not_lt.mpr hs.parent_le)] at hpar
  rw [Except.ok.inj hpar]
  exact hwalk

end

/-! ## A slash too many -/

/-- `/a/b`. -/
def slashAB : CString := [47, 97, 47, 98]

/-- `//a/b`. -/
def slashSlashAB : CString := [47, 47, 97, 47, 98]

/-- The path `/a/b` can be walked. -/
theorem walkable_slashAB : Walkable slashAB := by
  refine ⟨?_, ?_, ?_, ?_, ?_⟩ <;> decide

/-- The path `//a/b` can be walked. -/
theorem walkable_slashSlashAB : Walkable slashSlashAB := by
  refine ⟨?_, ?_, ?_, ?_, ?_⟩ <;> decide

/-- On the image of `disk2.in` the parent of `/a/b` is found as it should be. -/
theorem parentAgrees_disk2 : ParentAgrees zeroStack disk2 slashAB :=
  (parentAgrees_iff disk2_wellFormed zeroStack walkable_slashAB).mpr (.inl (by decide))

/-- The parent of `//a/b` should be `/a`, which is not there, but `par_path` gives the root. -/
theorem not_parentAgrees_disk2 : WellFormed disk2 ∧ Walkable slashSlashAB ∧
    parPath (components slashSlashAB) slashSlashAB 2 = .ok [47, 47, 47] ∧
    path2inum zeroStack disk2 [47, 47, 47] = 2 ∧ walkInum disk2 2 [[97]] < 0 ∧
    ¬ ParentAgrees zeroStack disk2 slashSlashAB := by
  have hpar : parPath (components slashSlashAB) slashSlashAB 2 = .ok [47, 47, 47] := by decide
  have hroot : path2inum zeroStack disk2 [47, 47, 47] = 2 := by
    rw [path2inum_components disk2_wellFormed.toTree zeroStack rfl]
    rfl
  have hnone := walkInum_none (disk2_resolve [97] [])
  refine ⟨disk2_wellFormed, walkable_slashSlashAB, hpar, hroot, hnone, fun h => ?_⟩
  obtain ⟨par, hpar', hwalk⟩ := h.par
  obtain rfl := Except.ok.inj (hpar.symm.trans hpar')
  rw [hroot, show (components slashSlashAB).dropLast = [[97]] by decide] at hwalk
  omega

end Cs5600.Lab4
