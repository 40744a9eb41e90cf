import Cs5600.Lab4.Tree

/-!
# Path translation on a well-formed disk

On a disk whose live blocks form a tree every read that `path2inum` makes succeeds, so it computes
`walkInum`, the walk of `resolve` with its error numbers (`path2inum_spells`). It returns the inode
number of a path that resolves and a negative number otherwise.
-/

namespace Cs5600.Lab4

variable {d d' : Disk}

/-- The empty path leads to the root. -/
@[simp]
theorem resolve_nil (d : Disk) : resolve d [] = some 2 := rfl

/-- A path leads to what its parent binds its name to. -/
theorem resolve_concat (d : Disk) (p : Path) (n : CString) :
    resolve d (p ++ [n]) = (resolve d p).bind fun i => entry d i n := walk_concat _ _ _

/-- The inode of a path is live. -/
theorem live_inode (d : Disk) (p : Path) : live d (.inode p) = resolve d p := rfl

/-- The block of a directory is live. -/
theorem live_dirData (d : Disk) (p : Path) :
    live d (.dirData p) = (resolve d p).bind fun i =>
      if (inodeAt d i).isDir then some ((inodeAt d i).ptr 0) else none := rfl

/-- The blocks of a file up to its size are live. -/
theorem live_fileData (d : Disk) (p : Path) (k : ℕ) :
    live d (.fileData p k) = (resolve d p).bind fun i =>
      if (inodeAt d i).isDir = false ∧ k < (inodeAt d i).nblocks then some ((inodeAt d i).ptr k)
      else none := rfl

/-- A live block belongs to a path that resolves. -/
theorem resolve_of_live {k : LiveKey} {b : ℕ} (h : live d k = some b) :
    ∃ i, resolve d k.path = some i := by
  cases k with
  | inode p => exact ⟨b, h⟩
  | dirData p =>
    obtain ⟨i, hi, -⟩ := Option.bind_eq_some_iff.mp h
    exact ⟨i, hi⟩
  | fileData p j =>
    obtain ⟨i, hi, -⟩ := Option.bind_eq_some_iff.mp h
    exact ⟨i, hi⟩

namespace Tree

variable (hT : Tree d)
include hT

/-- The root is in the image. -/
theorem two_lt : 2 < d.nblks := (hT.range (.inode []) 2 rfl).2.2

/-- The bitmap is in the image. -/
theorem one_lt : 1 < d.nblks := by have := hT.two_lt; omega

/-- Distinct paths resolve to distinct inodes. -/
theorem resolve_inj {p q : Path} {i : ℕ} (hp : resolve d p = some i) (hq : resolve d q = some i) :
    p = q := by
  have := hT.inj (.inode p) (.inode q) i hp hq
  simpa using this

/-- The inode of a path is in the image. -/
theorem inode_range {p : Path} {i : ℕ} (hp : resolve d p = some i) :
    2 ≤ i ∧ i < 32768 ∧ i < d.nblks := hT.range (.inode p) i hp

section Dir

variable {p : Path} {i : ℕ} (hp : resolve d p = some i) (hdir : (inodeAt d i).isDir = true)
include hp hdir

omit hT in
/-- The block of a directory is live. -/
theorem dirData_live : live d (.dirData p) = some ((inodeAt d i).ptr 0) := by
  simp [live_dirData, hp, hdir]

/-- The block of a directory is in the image. -/
theorem dirData_range :
    2 ≤ (inodeAt d i).ptr 0 ∧ (inodeAt d i).ptr 0 < 32768 ∧ (inodeAt d i).ptr 0 < d.nblks :=
  hT.range (.dirData p) _ (dirData_live hp hdir)

/-- A directory has the size of one block. -/
theorem dir_size : (inodeAt d i).size.toInt = 4096 := by
  have h := hT.node p i hp
  rw [NodeOk, if_pos hdir] at h
  exact h.1

/-- The entries of a directory are proper. -/
theorem dirOk : DirOk (dirBlock d i) := by
  have h := hT.node p i hp
  rw [NodeOk, if_pos hdir] at h
  exact h.2

/-- The first pointer of a directory is the number of its data block. -/
theorem lbaOf_dir : lbaOf ((inodeAt d i).ptr0) = (inodeAt d i).ptr 0 :=
  lbaOf_of_lt (hT.dirData_range hp hdir).2.1

end Dir

section File

variable {p : Path} {i : ℕ} (hp : resolve d p = some i) (hfile : (inodeAt d i).isDir = false)
include hp hfile

/-- The size of a file is within its limits. -/
theorem file_size :
    0 ≤ (inodeAt d i).size.toInt ∧ (inodeAt d i).size.toInt ≤ 1019 * 4096 := by
  have h := hT.node p i hp
  rwa [NodeOk, if_neg (by simp [hfile])] at h

/-- A file has the blocks for its size. -/
theorem nblocks_eq : (inodeAt d i).nblocks = ((inodeAt d i).size.toInt.toNat + 4095) / 4096 :=
  Inode.nblocks_eq (hT.file_size hp hfile).1 (hT.file_size hp hfile).2

/-- A file has at most 1019 blocks. -/
theorem nblocks_le : (inodeAt d i).nblocks ≤ 1019 := by
  have h1 := hT.nblocks_eq hp hfile
  have h2 := hT.file_size hp hfile
  omega

omit hT in
/-- The blocks of a file are live. -/
theorem fileData_live {k : ℕ} (hk : k < (inodeAt d i).nblocks) :
    live d (.fileData p k) = some ((inodeAt d i).ptr k) := by
  simp [live_fileData, hp, hfile, hk]

/-- The blocks of a file are in the image. -/
theorem fileData_range {k : ℕ} (hk : k < (inodeAt d i).nblocks) :
    2 ≤ (inodeAt d i).ptr k ∧ (inodeAt d i).ptr k < 32768 ∧ (inodeAt d i).ptr k < d.nblks :=
  hT.range (.fileData p k) _ (fileData_live hp hfile hk)

end File

/-- A name that a reachable directory binds has at most 27 bytes. -/
theorem entry_length {p : Path} {i j : ℕ} {n : CString} (hp : resolve d p = some i)
    (h : entry d i n = some j) : n.length ≤ 27 := by
  unfold entry at h
  split_ifs at h with hdir
  obtain ⟨s, hs⟩ := (dirEntry_eq_some (hT.dirOk hp hdir)).mp h
  exact (hT.dirOk hp hdir).length_le hs

/-- The path of a directory's entry resolves to what the entry says. -/
theorem resolve_of_slot {p : Path} {P s f : ℕ} {n : CString} (hP : resolve d p = some P)
    (hdir : (inodeAt d P).isDir = true) (hs : slot (dirBlock d P) s = some (f, n)) :
    resolve d (p ++ [n]) = some f := by
  rw [resolve_concat, hP, Option.bind_some, entry, if_pos hdir]
  exact (dirEntry_eq_some (hT.dirOk hP hdir)).mpr ⟨s, hs⟩

/-- A directory without entries binds no name. -/
theorem entry_of_empty {p : Path} {f : ℕ} (hf : resolve d p = some f)
    (hdir : (inodeAt d f).isDir = true) (h : ∀ s, slot (dirBlock d f) s = none) (n : CString) :
    entry d f n = none := by
  rw [entry, if_pos hdir, Option.eq_none_iff_forall_ne_some]
  intro i hi
  obtain ⟨s, hs⟩ := (dirEntry_eq_some (hT.dirOk hf hdir)).mp hi
  rw [h s] at hs
  cases hs

end Tree

/-! ## `path2inum` -/

/-- The walk of `path2inum` from inode `i`: the inode number, or the error of the first component
that cannot be entered. -/
def walkInum (d : Disk) : ℕ → Path → ℤ
  | i, [] => i
  | i, n :: ns =>
    if 27 < n.length then -ENOENT
    else if (inodeAt d i).isDir then
      match entry d i n with
      | none => -ENOENT
      | some j => walkInum d j ns
    else -ENOTDIR

/-- What `path2inum` needs of a disk: the inodes and directory blocks that it comes to are in the
image, and no name in them is longer than the field. -/
structure Walks (d : Disk) : Prop where
  inode_range : ∀ p i, resolve d p = some i → i < 32768 ∧ i < d.nblks
  dir_range : ∀ p i, resolve d p = some i → (inodeAt d i).isDir = true →
    (inodeAt d i).size ≠ 0 ∧ (inodeAt d i).ptr 0 < 32768 ∧ (inodeAt d i).ptr 0 < d.nblks
  entry_length : ∀ p i n j, resolve d p = some i → entry d i n = some j → n.length ≤ 27

/-- A tree can be walked. -/
theorem Tree.walks (hT : Tree d) : Walks d where
  inode_range _ _ hp := (hT.inode_range hp).2
  dir_range _ _ hp hdir := by
    refine ⟨fun h0 => ?_, (hT.dirData_range hp hdir).2⟩
    have := hT.dir_size hp hdir
    rw [h0] at this
    exact absurd this (by decide)
  entry_length _ _ _ _ hp h := hT.entry_length hp h

namespace Walks

variable (h : Walks d)
include h

/-- The loop of `path2inum` walks along the components. -/
theorem path2inumLoop_eq (ns : Path) :
    ∀ (p : Path) (i : ℕ) (parIn parDataIn : Block), resolve d p = some i →
      path2inumLoop d ns i parIn parDataIn = walkInum d i ns := by
  -- Induction on the names left; the blocks read on the way are those of the node reached.
  induction ns with
  | nil => intros; rfl
  | cons n ns ih =>
    intro p i parIn parDataIn hp
    obtain ⟨hi1, hi2⟩ := h.inode_range p i hp
    have hx : Inode.ofBlock (d.blk i) = inodeAt d i := rfl
    rw [path2inumLoop, walkInum]
    by_cases hlen : 27 < n.length
    · rw [if_pos hlen, if_pos hlen]
    · simp only [hlen, if_false, blockRead_of_lt d parIn hi1 hi2, hx]
      cases hdir : (inodeAt d i).isDir with
      | false => simp
      -- A directory of a size that is not 0, so its one data block is searched.
      | true =>
        obtain ⟨hne, hD1, hD2⟩ := h.dir_range p i hp hdir
        have hsize : ((inodeAt d i).size == 0) = false := beq_eq_false_iff_ne.mpr hne
        have hD : d.blk ((inodeAt d i).ptr 0) = dirBlock d i := rfl
        have hlba : lbaOf ((inodeAt d i).ptr0) = (inodeAt d i).ptr 0 := lbaOf_of_lt hD1
        have hentry : entry d i n =
            (findDirent (dirBlock d i) n).map (direntInode (dirBlock d i)) := by
          rw [entry, if_pos hdir, dirEntry]
        simp only [hsize, Bool.not_true, Bool.or_self, Bool.false_eq_true, if_false, if_true,
          hlba, blockRead_of_lt d parDataIn hD1 hD2, hD, hentry]
        cases hf : findDirent (dirBlock d i) n with
        | none => rfl
        | some s =>
          refine ih (p ++ [n]) _ _ _ ?_
          rw [resolve_concat, hp]
          simp [hentry, hf]

/-- `path2inum` walks along the components that a string spells. -/
theorem path2inum_spells (u : Stack) {s : CString} {ns : Path} (hn : ∀ n ∈ ns, IsName n)
    (hlen : ns.length ≤ 10) (hs : Spells s ns) (hhead : s.head? = some slash) :
    path2inum u d s = walkInum d 2 ns := by
  rw [path2inum, if_neg (by simp [hhead]), sepPath_spells hn hlen hs]
  cases ns with
  | nil => rfl
  | cons n ns =>
    have hpos : ¬ (((n :: ns).length : ℤ) < 0) := by omega
    have hne : ¬ (((n :: ns).length : ℤ) = 0) := by simp; omega
    simp only [hpos, hne, if_false]
    exact h.path2inumLoop_eq (n :: ns) [] 2 _ _ rfl

/-- `path2inum` walks along the components of the parent. -/
theorem path2inum_parent (u : Stack) (p : NormPath) :
    path2inum u d (render p.parent ++ [slash]) = walkInum d 2 p.parent := by
  have h1 := p.parent_lt
  refine h.path2inum_spells u p.parent_isName (by omega) (.inr rfl) ?_
  cases p.parent with
  | nil => rfl
  | cons n ns => rw [render_cons]; rfl

/-- A walk that arrives is the walk of `resolve`. -/
theorem walkInum_of_walk (ns : Path) :
    ∀ (p : Path) (i j : ℕ), resolve d p = some i → walk (entry d) i ns = some j →
      walkInum d i ns = j := by
  induction ns with
  | nil =>
    intro p i j _ hj
    rw [walk_nil, Option.some.injEq] at hj
    rw [walkInum, hj]
  | cons n ns ih =>
    intro p i j hp hj
    rw [walk_cons] at hj
    obtain ⟨w, hw, hj⟩ := Option.bind_eq_some_iff.mp hj
    have hlen := h.entry_length p i n w hp hw
    have hdir : (inodeAt d i).isDir = true := by
      unfold entry at hw
      split_ifs at hw with hdir
      exact hdir
    rw [walkInum, if_neg (by omega), if_pos hdir, hw]
    refine ih (p ++ [n]) w j ?_ hj
    rw [resolve_concat, hp]
    exact hw

/-- The result of a walk for a path that resolves. -/
theorem walkInum_some {p : Path} {i : ℕ} (hp : resolve d p = some i) : walkInum d 2 p = i :=
  h.walkInum_of_walk p [] 2 i rfl hp

/-- The names on the way to an inode have at most 27 bytes. -/
theorem length_le {p : Path} {i : ℕ} (hp : resolve d p = some i) : ∀ n ∈ p, n.length ≤ 27 := by
  induction p using List.reverseRecOn generalizing i with
  | nil => intro n hn; cases hn
  | append_singleton q m ih =>
    rw [resolve_concat] at hp
    obtain ⟨P, hP, he⟩ := Option.bind_eq_some_iff.mp hp
    intro n hn
    rcases List.mem_append.mp hn with hn | hn
    · exact ih hP n hn
    · rw [List.mem_singleton.mp hn]
      exact h.entry_length q P m i hP he

end Walks

/-- The loop of `path2inum` walks along the components. -/
theorem path2inumLoop_eq (hT : Tree d) (ns : Path) :
    ∀ (p : Path) (i : ℕ) (parIn parDataIn : Block), resolve d p = some i →
      path2inumLoop d ns i parIn parDataIn = walkInum d i ns := hT.walks.path2inumLoop_eq ns

/-- `path2inum` of a path string is the walk along its components. -/
theorem path2inum_spells (hT : Tree d) (u : Stack) {s : CString} {ns : Path}
    (hn : ∀ n ∈ ns, IsName n) (hlen : ns.length ≤ 10) (hs : Spells s ns)
    (hhead : s.head? = some slash) : path2inum u d s = walkInum d 2 ns :=
  hT.walks.path2inum_spells u hn hlen hs hhead

/-- `path2inum` walks along the components of a path. -/
theorem path2inum_str (hT : Tree d) (u : Stack) (p : NormPath) :
    path2inum u d p.str = walkInum d 2 p.comps := by
  have h1 := p.parent_lt
  have h2 := p.length_comps
  exact path2inum_spells hT u p.isName (by omega) (.inl rfl) (head_str p)

/-- `path2inum` walks along the components of the parent. -/
theorem path2inum_parent (hT : Tree d) (u : Stack) (p : NormPath) :
    path2inum u d (render p.parent ++ [slash]) = walkInum d 2 p.parent :=
  hT.walks.path2inum_parent u p

/-- A walk that does not arrive ends with an error number. -/
theorem walkInum_neg (ns : Path) :
    ∀ i : ℕ, walk (entry d) i ns = none →
    walkInum d i ns = -ENOENT ∨ walkInum d i ns = -ENOTDIR := by
  induction ns with
  | nil => intro i h; cases h
  | cons n ns ih =>
    intro i h
    rw [walkInum]
    rw [walk_cons] at h
    split_ifs with hlen hdir
    · exact .inl rfl
    · cases he : entry d i n with
      | none => exact .inl rfl
      | some w =>
        rw [he] at h
        exact ih w h
    · exact .inr rfl

/-- The result of a walk for a path that resolves. -/
theorem walkInum_some (hT : Tree d) {p : Path} {i : ℕ} (h : resolve d p = some i) :
    walkInum d 2 p = i := hT.walks.walkInum_some h

/-- The result of a walk for a path that does not resolve is an error. -/
theorem walkInum_none {p : Path} (h : resolve d p = none) : walkInum d 2 p < 0 := by
  rcases walkInum_neg p 2 h with h | h <;> rw [h] <;> decide

/-- A walk returns an inode number when the path leads to something. -/
theorem walkInum_pos_iff (hT : Tree d) {p : Path} :
    0 < walkInum d 2 p ↔ ∃ i, resolve d p = some i := by
  constructor
  · intro h
    cases hr : resolve d p with
    | none => have := walkInum_none hr; omega
    | some i => exact ⟨i, rfl⟩
  · rintro ⟨i, hi⟩
    have := hT.inode_range hi
    rw [walkInum_some hT hi]
    omega

end Cs5600.Lab4
