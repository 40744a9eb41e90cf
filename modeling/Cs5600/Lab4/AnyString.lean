import Cs5600.Lab4.ParentPath

/-!
# Any path string

When `fs_create`, `fs_mkdir`, `fs_unlink`, `fs_rmdir`, and `fs_rename` return, for strings of any
length with any number of components. The token array has no entry in front of the first component
or behind the tenth, and the string of the parent has 298 bytes in front of its last slash.
-/

namespace Cs5600.Lab4

/-- A call that returns 0 or an error number. -/
def Returns (r : Except Fault (ℤ × Disk)) : Prop := ∃ rc d', r = .ok (rc, d') ∧ rc ≤ 0

/-- A call that returns 0 or an error number. It copies the last name of `s` into an entry only when
it returns 0, and then the name fits. -/
def ReturnsNamed (s : CString) (r : Except Fault (ℤ × Disk)) : Prop :=
  ∃ rc d', r = .ok (rc, d') ∧ rc ≤ 0 ∧
    (rc = 0 → ∀ n, (components s).getLast? = some n → n.length ≤ 27)

/-- A call that stops does not return. -/
theorem not_returns_error (e : Fault) : ¬ Returns (.error e) := by
  rintro ⟨rc, d', h, -⟩
  cases h

/-- A call that stops does not return with its name. -/
theorem not_returnsNamed_error (s : CString) (e : Fault) : ¬ ReturnsNamed s (.error e) := by
  rintro ⟨rc, d', h, -⟩
  cases h

/-- An error is a return. -/
theorem returnsNamed_of_neg (s : CString) {rc : ℤ} (h : rc < 0) (d : Disk) :
    ReturnsNamed s (.ok (rc, d)) := ⟨rc, d, rfl, h.le, fun h0 => absurd h0 h.ne⟩

/-- An error is a return. -/
theorem returns_of_neg {rc : ℤ} (h : rc < 0) (d : Disk) :
    Returns (.ok (rc, d)) := ⟨rc, d, rfl, h.le⟩

/-- A string whose components fit into the token array, and its parent into the buffer. -/
def FitsArrays (s : CString) : Prop :=
  (components s).length ≤ 10 ∧ (render (components s).dropLast).length ≤ 298

section

variable {d : Disk} {s : CString} (hT : Tree d) (u : Stack) (hs : s.head? = some slash)

/-- Without a last token the string of the parent is a slash. -/
theorem parPath_nonpos {levels : ℤ} (h : levels ≤ 0) (tokens : List CString) (s : CString) :
    parPath tokens s levels = .ok [slash] := by
  rw [parPath, show (levels - 1).toNat = 0 by omega]
  rfl

/-- The path of the parent leads to a node or is an error. -/
theorem path2inum_parent_cases (hT : Tree d) (u : Stack) (hs : s.head? = some slash) :
    path2inum u d (cutParent s ++ [slash]) < 0 ∨
      ∃ p P, resolve d p = some P ∧ path2inum u d (cutParent s ++ [slash]) = P := by
  rw [path2inum_components hT u (head_copy hs)]
  split_ifs
  · exact .inl (by decide)
  · cases hr : resolve d (components (cutParent s ++ [slash])) with
    | none => exact .inl (walkInum_none hr)
    | some P => exact .inr ⟨_, P, hr, walkInum_some hT hr⟩

include hT in
/-- The root as the parent. -/
theorem path2inum_slash : path2inum u d [slash] = 2 := by
  rw [path2inum_components hT u rfl]
  rfl

/-- The number of tokens of a string that does not fit into the array, or has none. -/
theorem sepPath_nonpos (h : 10 < (components s).length ∨ components s = []) :
    (sepPath s).1 ≤ 0 := by
  rcases h with h | h
  · rw [sepPath_of_gt h]
    exact neg_one_lt_zero.le
  · rw [sepPath_of_le (by rw [h]; decide), h]
    rfl

/-- The last token of a string that fits. -/
theorem exists_last (hne : components s ≠ []) (hlen : (components s).length ≤ 10) :
    ∃ n, (components s).getLast? = some n ∧
      tokenAt (components s) (((components s).length : ℤ) - 1) = .ok n := by
  obtain ⟨ns, n, hns⟩ := (List.eq_nil_or_concat' (components s)).resolve_left hne
  refine ⟨n, by rw [hns]; simp, tokenAt_last hns ?_⟩
  rw [hns, List.length_append, List.length_singleton] at hlen
  omega

end

/-! ## Making entries -/

section

variable {d : Disk} {name : CString} {k D : ℕ} (h1 : 1 < d.nblks) (hk : k < 128)
  (hname : name.length ≤ 27) (hD0 : 0 < D) (hD : D < 32768)
include h1 hk hname hD0 hD

/-- Once the entry is found, `fs_create` returns. -/
theorem createEntry_returns (ctx : Ctx) (u : Stack) (mode : UInt32) (buf : Block) :
    Returns (createEntry ctx u name mode D buf k d) := by
  simp only [createEntry, allocBlk_eq u h1]
  cases hf : firstClear (d.blk 1) with
  | none =>
    simp only [ok_bind, show -ENOSPC < 0 by decide, if_true]
    exact returns_of_neg (by decide) d
  | some f =>
    obtain ⟨-, hf3, hf', -⟩ := firstClear_eq_some.mp hf
    simp only [ok_bind, show ¬ ((f : ℤ) < 0) by omega, if_false, strcpyName_eq _ hk hname,
      blockWrite_of_lt _ _ (show 0 < f by omega) hf', blockWrite_of_lt _ _ hD0 hD]
    exact ⟨0, _, rfl, le_rfl⟩

/-- Once the entry is found, `fs_mkdir` returns. -/
theorem mkdirEntry_returns (ctx : Ctx) (u : Stack) (mode : UInt32) (buf : Block) :
    Returns (mkdirEntry ctx u name mode D buf k d) := by
  simp only [mkdirEntry, allocBlk_eq u h1]
  -- No block, one block (handed out and given back), or two.
  cases hf : firstClear (d.blk 1) with
  | none =>
    simp only [ok_bind, show -ENOSPC < 0 by decide, if_true]
    exact returns_of_neg (by decide) d
  | some f =>
    obtain ⟨-, hf3, hf', -⟩ := firstClear_eq_some.mp hf
    have h1' : 1 < (d.alloc f).nblks := by rw [alloc_nblks h1]; exact h1
    simp only [ok_bind, show ¬ ((f : ℤ) < 0) by omega, if_false, allocBlk_eq u h1']
    cases hb : firstClear ((d.alloc f).blk 1) with
    | none =>
      simp only [ok_bind, show -ENOSPC < 0 by decide, if_true, freeBlk_eq u h1' hf']
      exact returns_of_neg (by decide) _
    | some b =>
      obtain ⟨-, hb3, hb', -⟩ := firstClear_eq_some.mp hb
      simp only [ok_bind, show ¬ ((b : ℤ) < 0) by omega, if_false,
        blockWrite_of_lt _ _ (show 0 < b by omega) hb',
        blockWrite_of_lt _ _ (show 0 < f by omega) hf', strcpyName_eq _ hk hname,
        blockWrite_of_lt _ _ hD0 hD]
      exact ⟨0, _, rfl, le_rfl⟩

end

/-! ## The operations with one path -/

section

variable {d : Disk} {s : CString} (hT : Tree d) (u : Stack) (hs : s.head? = some slash)

/-- The search for a free entry in a directory that the parent leads to: it returns, or it is an
entry of the directory's block. -/
theorem parent_dir (hT : Tree d) {p : Path} {P : ℕ} (hP : resolve d p = some P) (buf : Block) :
    blockRead d buf P = (d.blk P, 0) ∧ 0 < P ∧ P < 32768 ∧ ((inodeAt d P).isDir = true →
      lbaOf ((inodeAt d P).ptr0) = (inodeAt d P).ptr 0 ∧
      (∀ buf, blockRead d buf ((inodeAt d P).ptr 0) = (dirBlock d P, 0)) ∧
      0 < (inodeAt d P).ptr 0 ∧ (inodeAt d P).ptr 0 < 32768) := by
  obtain ⟨hP2, hP', hP''⟩ := hT.inode_range hP
  refine ⟨blockRead_of_lt d buf hP' hP'', by omega, hP', fun hdir => ?_⟩
  obtain ⟨hD2, hD', hD''⟩ := hT.dirData_range hP hdir
  exact ⟨hT.lbaOf_dir hP hdir, fun buf => blockRead_of_lt d buf hD' hD'', by omega, hD'⟩

include hT hs

/-- The lookup returns when the string fits into the arrays, if what follows it returns. -/
theorem lookupNew_returnsNamed_iff {inParent : CString → ℤ → Except Fault (ℤ × Disk)}
    (hin : ∀ {name p P}, name.length ≤ 27 → resolve d p = some P → Returns (inParent name P)) :
    ReturnsNamed s (lookupNew u s d inParent) ↔ FitsArrays s := by
  simp only [lookupNew, hs, ne_eq, not_true, if_false]
  by_cases hgt : 10 < (components s).length
  · -- There is no token -2.
    have hnum : ¬ 0 < path2inum u d s := by
      rw [path2inum_components hT u hs, if_pos hgt]
      decide
    have hn := sepPath_nonpos (.inl hgt)
    simp only [hnum, if_false, parPath_nonpos hn, ok_bind,
      tokenAt_neg (show (sepPath s).1 - 1 < 0 by omega),
      error_bind]
    exact iff_of_false (not_returnsNamed_error s _) fun h => absurd h.1 (by omega)
  -- At most ten components: the tokens are the components, and the last one is the name.
  have hle : (components s).length ≤ 10 := by omega
  rw [path2inum_components hT u hs, if_neg hgt, sepPath_of_le hle]
  by_cases hpos : 0 < walkInum d 2 (components s)
  · rw [if_pos hpos]
    obtain ⟨i, hi⟩ := (walkInum_pos_iff hT).mp hpos
    refine iff_of_true (returnsNamed_of_neg s (by decide) d) ⟨hle, ?_⟩
    have hbound := length_render_le fun n hn =>
      hT.length_le_of_resolve hi n (List.mem_of_mem_dropLast hn)
    rw [List.length_dropLast] at hbound
    omega
  rw [if_neg hpos, parPath_components hs]
  -- The parent's spelling has to fit into the array `par_path` copies it to.
  by_cases hlong : 298 < (render (components s).dropLast).length
  · rw [if_pos hlong, error_bind]
    exact iff_of_false (not_returnsNamed_error s _) fun h => absurd h.2 (by omega)
  rw [if_neg hlong, ok_bind]
  refine iff_of_true ?_ ⟨hle, by omega⟩
  have hne : components s ≠ [] := by
    intro h
    rw [h] at hpos
    exact hpos two_pos
  obtain ⟨name, hlast, htok⟩ := exists_last hne hle
  rw [htok, ok_bind]
  by_cases hname : 27 < name.length
  · rw [if_pos hname]
    exact returnsNamed_of_neg s (by decide) d
  rw [if_neg hname]
  rcases path2inum_parent_cases hT u hs with hneg | ⟨p, P, hP, hPar⟩
  · rw [if_pos hneg]
    exact returnsNamed_of_neg s (by decide) d
  rw [hPar, if_neg (by omega)]
  obtain ⟨rc, d', hr, hrc⟩ := hin (not_lt.mp hname) hP
  refine ⟨rc, d', hr, hrc, fun _ n hn => ?_⟩
  rw [Option.some.inj (hn.symm.trans hlast)]
  omega

omit hs in
/-- Looking for a free entry of the parent returns, when filling it does. -/
theorem inFree_returns (buf : Block) (buf' : Block → Block) {p : Path} {P : ℕ}
    (hP : resolve d p = some P) {fill : ℤ → Block → ℕ → Except Fault (ℤ × Disk)}
    (hfill : ∀ (D : ℕ) (b : Block) (k : ℕ), k < 128 → 0 < D → D < 32768 → Returns (fill D b k)) :
    Returns (inFree d buf buf' fill P) := by
  have hx : Inode.ofBlock (d.blk P) = inodeAt d P := rfl
  obtain ⟨hread, -, -, hdata⟩ := parent_dir hT hP buf
  simp only [inFree, hread, hx]
  cases hdir : (inodeAt d P).isDir with
  | false => exact returns_of_neg (by decide) d
  | true =>
    obtain ⟨hlba, hblk, hD0, hD⟩ := hdata hdir
    simp only [Bool.not_true, Bool.false_eq_true, if_false, hlba, hblk]
    cases hempty : findEmpty (dirBlock d P) with
    | none => exact returns_of_neg (by decide) d
    | some k => exact hfill _ _ k (findEmpty_some hempty).1 hD0 hD

/-- `fs_create` returns when its strings fit the arrays. -/
theorem fsCreate_returnsNamed_iff (ctx : Ctx) (mode : UInt32) :
    ReturnsNamed s (fsCreate ctx u s mode d) ↔ FitsArrays s := by
  rw [fsCreate_eq]
  exact lookupNew_returnsNamed_iff hT u hs fun hname hP => inFree_returns hT _ _ hP
    fun D b k hk hD0 hD =>
    createEntry_returns hT.one_lt hk hname hD0 hD ctx u mode b

/-- `fs_mkdir` returns when its strings fit the arrays. -/
theorem fsMkdir_returnsNamed_iff (ctx : Ctx) (mode : UInt32) :
    ReturnsNamed s (fsMkdir ctx u s mode d) ↔ FitsArrays s := by
  rw [fsMkdir_eq]
  exact lookupNew_returnsNamed_iff hT u hs fun hname hP => inFree_returns hT _ _ hP
    fun D b k hk hD0 hD =>
    mkdirEntry_returns hT.one_lt hk hname hD0 hD ctx u mode b

/-- The lookup returns when the string has components and fits into the arrays, if what follows it
returns. -/
theorem lookupOld_returns_iff {use : ℤ → Inode → Block → ℕ → Except Fault (ℤ × Disk)}
    (huse : ∀ {p : Path} {P k f : ℕ} {n : CString}, resolve d p = some P →
      (inodeAt d P).isDir = true →
      slot (dirBlock d P) k = some (f, n) → Returns (use P (inodeAt d P) (dirBlock d P) k)) :
    Returns (lookupOld u s d use) ↔ components s ≠ [] ∧ FitsArrays s := by
  have hx : ∀ i, Inode.ofBlock (d.blk i) = inodeAt d i := fun _ => rfl
  rw [lookupOld]
  by_cases hbad : 10 < (components s).length ∨ components s = []
  · -- The root is searched, and then there is no token for the name.
    have hn := sepPath_nonpos hbad
    have hroot : blockRead d (u .parIn) 2 = (d.blk 2, 0) := (parent_dir hT (resolve_nil d) _).1
    simp only [parPath_nonpos hn, ok_bind, path2inum_slash hT,
      show ¬ (2 : ℤ) < 0 by decide, if_false, hroot, hx, hT.root, Bool.not_true, Bool.false_eq_true,
      tokenAt_neg (show (sepPath s).1 - 1 < 0 by omega), error_bind]
    refine iff_of_false (not_returns_error _) fun h => ?_
    rcases hbad with hgt | hnil
    · exact absurd h.2.1 (by omega)
    · exact h.1 hnil
  rw [not_or] at hbad
  have hle : (components s).length ≤ 10 := by omega
  rw [sepPath_of_le hle, parPath_components hs]
  by_cases hlong : 298 < (render (components s).dropLast).length
  · rw [if_pos hlong, error_bind]
    exact iff_of_false (not_returns_error _) fun h => absurd h.2.2 (by omega)
  rw [if_neg hlong, ok_bind]
  refine iff_of_true ?_ ⟨hbad.2, hle, by omega⟩
  -- Path, parent and entry are in range; each search that fails ends the call.
  obtain ⟨name, hlast, htok⟩ := exists_last hbad.2 hle
  rcases path2inum_parent_cases hT u hs with hneg | ⟨p, P, hP, hPar⟩
  · rw [if_pos hneg]
    exact returns_of_neg (by decide) d
  obtain ⟨hread, -, -, hdata⟩ := parent_dir hT hP (u .parIn)
  rw [hPar, if_neg (by omega), hread]
  simp only [hx]
  cases hdir : (inodeAt d P).isDir with
  | false => exact returns_of_neg (by decide) d
  | true =>
    obtain ⟨hlba, hblk, -, -⟩ := hdata hdir
    simp only [Bool.not_true, Bool.false_eq_true, if_false, hlba, hblk, htok, ok_bind]
    cases hfind : findDirent (dirBlock d P) name with
    | none => exact returns_of_neg (by decide) d
    | some k =>
      obtain ⟨f, hslot⟩ := (findDirent_eq_some (hT.dirOk hP hdir)).mp hfind
      exact huse hP hdir hslot

/-- `fs_unlink` has no entry of the token array for the last name of the root. -/
theorem fsUnlink_returns_iff (ctx : Ctx) :
    Returns (fsUnlink ctx u s d) ↔ components s ≠ [] ∧ FitsArrays s := by
  rw [fsUnlink_eq, if_neg (not_not.mpr hs)]
  refine lookupOld_returns_iff hT u hs fun {p P k f n} hP hdir hslot => ?_
  have hf := hT.resolve_of_slot hP hdir hslot
  obtain ⟨-, hP0, hP', hdata⟩ := parent_dir hT hP (u .parIn)
  obtain ⟨hlba, -, hD0, hD⟩ := hdata hdir
  obtain ⟨hread, -, hf', -⟩ := parent_dir hT hf (u .fileIn)
  have hx : Inode.ofBlock (d.blk f) = inodeAt d f := rfl
  simp only [unlinkEntry, (slot_eq_some.mp hslot).2.1, hread, hx]
  cases hfd : (inodeAt d f).isDir with
  | true => exact returns_of_neg (by decide) d
  | false =>
    have hone : ∀ b, 1 < (d.write 1 b).nblks := by simp
    simp only [Bool.false_eq_true, if_false, freeBlocks_eq u hT hf hfd, ok_bind,
      freeBlk_eq u (hone _) hf', hlba, blockWrite_of_lt _ _ hP0 hP', blockWrite_of_lt _ _ hD0 hD]
    exact ⟨0, _, rfl, le_rfl⟩

/-- `fs_rmdir` returns when its strings fit the arrays. -/
theorem fsRmdir_returns_iff (ctx : Ctx) : Returns (fsRmdir ctx u s d) ↔ FitsArrays s := by
  rw [fsRmdir_eq, if_neg (not_not.mpr hs)]
  by_cases hnil : components s = []
  -- The root has no parent; `fs_rmdir` has a test for it, unlike `fs_unlink`.
  · have hfits : FitsArrays s := by
      rw [FitsArrays, hnil]
      exact ⟨by decide, by decide⟩
    rw [sepPath_of_le hfits.1, hnil]
    exact iff_of_true (returns_of_neg (by decide) d) hfits
  have hlen : ¬ (sepPath s).1 = 0 := by
    rw [sepPath_components]
    split_ifs
    · show ¬ (-1 : ℤ) = 0
      decide
    · simpa using hnil
  rw [if_neg hlen]
  refine (lookupOld_returns_iff hT u hs fun {p P k f n} hP hdir hslot => ?_).trans
    (and_iff_right hnil)
  have hf := hT.resolve_of_slot hP hdir hslot
  obtain ⟨-, hP0, hP', hdata⟩ := parent_dir hT hP (u .parIn)
  obtain ⟨hlba, -, hD0, hD⟩ := hdata hdir
  obtain ⟨hread, -, hf', hdata'⟩ := parent_dir hT hf (u .subIn)
  have hx : Inode.ofBlock (d.blk f) = inodeAt d f := rfl
  simp only [rmdirEntry, (slot_eq_some.mp hslot).2.1, hread, hx]
  cases hfd : (inodeAt d f).isDir with
  | false => exact returns_of_neg (by decide) d
  | true =>
    obtain ⟨hlba', hblk', -, hB⟩ := hdata' hfd
    simp only [Bool.not_true, Bool.false_eq_true, if_false, hlba', hblk']
    cases findFull (dirBlock d f) with
    | some _ => exact returns_of_neg (by decide) d
    | none =>
      have hone : 1 < (d.free ((inodeAt d f).ptr 0)).nblks := by
        rw [free_nblks hT.one_lt]
        exact hT.one_lt
      simp only [freeBlk_eq u hT.one_lt hB, ok_bind, freeBlk_eq u hone hf', hlba,
        blockWrite_of_lt _ _ hP0 hP', blockWrite_of_lt _ _ hD0 hD]
      exact ⟨0, _, rfl, le_rfl⟩

end

/-! ## `fs_rename` -/

section

variable {d : Disk} {s t : CString}

/-- The search of `fs_rename` for `n` in the block that the first pointer of the node at `p` points
to: if the path leads somewhere and the block can be read, it is a block that can be written, the
name is there, and the new name fits. -/
def SearchFinds (d : Disk) (p : Path) (n n' : CString) : Prop :=
  ∀ P, resolve d p = some P → ∀ b, blockRead d (d.blk P) (lbaOf ((inodeAt d P).ptr0)) = (b, 0) →
    0 < lbaOf ((inodeAt d P).ptr0) ∧ (findDirent b n).isSome ∧ n'.length ≤ 27

/-- A rename is refused because of the paths, or the search where `par_path`'s copy leads
succeeds. -/
def RenameFinds (d : Disk) (s t : CString) : Prop :=
  ∀ ns n n', Renamable d s t ns n n' → SearchFinds d (components (cutParent s)) n n'

/-- Reading the block of an error number fails. -/
theorem blockRead_neg (d : Disk) (buf : Block) {rc : ℤ} (h : rc = -ENOENT ∨ rc = -ENOTDIR) :
    blockRead d buf rc = (buf, - EIO) := by
  have hneg : bytePos rc < 0 := by
    unfold bytePos
    rcases h with rfl | rfl <;> decide
  rw [blockRead, if_pos hneg]

/-- Writing a block with a positive number succeeds. -/
theorem blockWrite_of_pos (d : Disk) (buf : Block) {lba : ℤ} (h : 0 < lba) :
    ∃ w, blockWrite d buf lba = .ok w := by
  rw [blockWrite, if_neg (by omega)]
  split_ifs
  · exact ⟨_, rfl⟩
  · exact ⟨_, rfl⟩
  · exact ⟨_, rfl⟩

/-- The part of `fs_rename` behind the lookup returns when the search succeeds. -/
theorem renameIn_returnsNamed_iff (hT : Tree d) (u : Stack) {p ns : Path} {n n' : CString}
    (ht : components t = ns ++ [n']) :
    ReturnsNamed t (renameIn u d (walkInum d 2 p) n n') ↔ SearchFinds d p n n' := by
  have hlast : (components t).getLast? = some n' := by rw [ht]; simp
  cases hP : resolve d p with
  | none =>
    refine iff_of_true ?_ fun P h => by rw [hP] at h; cases h
    simp only [renameIn, blockRead_neg d _ (walkInum_neg p 2 hP), show (- EIO : ℤ) ≠ 0 by decide,
      ne_eq, not_false_eq_true, if_true]
    exact returnsNamed_of_neg t (by decide) d
  | some P =>
    have hx : Inode.ofBlock (d.blk P) = inodeAt d P := rfl
    obtain ⟨hread, -, -, -⟩ := parent_dir hT hP (u .buf)
    rw [walkInum_some hT hP]
    simp only [renameIn, hread, hx, ne_eq, not_true, if_false]
    have hfinds : SearchFinds d p n n' ↔ ∀ b,
        blockRead d (d.blk P) (lbaOf ((inodeAt d P).ptr0)) = (b, 0) →
          0 < lbaOf ((inodeAt d P).ptr0) ∧ (findDirent b n).isSome ∧ n'.length ≤ 27 :=
      ⟨fun h => h P hP, fun h Q hQ => Option.some.inj (hP.symm.trans hQ) ▸ h⟩
    rw [hfinds]
    obtain ⟨b, rc⟩ := blockRead d (d.blk P) (lbaOf ((inodeAt d P).ptr0))
    dsimp only
    by_cases hrc : rc = 0
    · subst hrc
      simp only [Prod.mk.injEq, and_true, forall_eq', not_true, if_false]
      cases hfind : findDirent b n with
      | none => exact iff_of_false (not_returnsNamed_error t _) fun h => by cases h.2.1
      | some k =>
        have hk : k < 128 := List.mem_range.mp (List.mem_of_find?_eq_some hfind)
        dsimp only
        -- The copy of the name and the write of the block are what can go wrong.
        constructor
        · intro hret
          cases hbuf : strcpyName b k n' with
          | error e =>
            rw [hbuf, error_bind] at hret
            exact absurd hret (not_returnsNamed_error t e)
          | ok buf =>
            rw [hbuf, ok_bind] at hret
            by_cases hlba : 0 < lbaOf ((inodeAt d P).ptr0)
            · obtain ⟨w, hw⟩ := blockWrite_of_pos d buf hlba
              rw [hw, ok_bind] at hret
              obtain ⟨rc, d', hrun, -, hname⟩ := hret
              obtain ⟨rfl, -⟩ := Prod.mk.inj (Except.ok.inj hrun)
              exact ⟨hlba, rfl, hname rfl n' hlast⟩
            · rw [blockWrite, if_pos (not_lt.mp hlba), error_bind] at hret
              exact absurd hret (not_returnsNamed_error t _)
        · rintro ⟨hlba, -, hname⟩
          rw [strcpyName_eq b hk hname, ok_bind]
          obtain ⟨w, hw⟩ := blockWrite_of_pos d (b.blit (32 * k + 4) (n' ++ [0])) hlba
          rw [hw, ok_bind]
          refine ⟨0, w.1, rfl, le_rfl, fun _ m hm => ?_⟩
          rw [Option.some.inj (hm.symm.trans hlast)]
          exact hname
    · rw [if_pos hrc]
      exact iff_of_true (returnsNamed_of_neg t (by decide) d) fun b' h =>
        absurd (Prod.mk.inj h).2 hrc

/-- `fs_rename` returns, with its name in place if it returns 0, when it refuses the paths or finds
the entry to rename. -/
theorem fsRename_returnsNamed_iff (hT : Tree d) (u : Stack) (h0 : 0 ∉ s) (t : CString) :
    ReturnsNamed t (fsRename u s t d) ↔ RenameFinds d s t := by
  by_cases hren : ∃ ns n n', Renamable d s t ns n n'
  · obtain ⟨ns, n, n', hren⟩ := hren
    rw [fsRename_of_renamable hT u h0 hren, path2inum_copy hT u (hren.walkable hT h0),
      renameIn_returnsNamed_iff hT u hren.dst]
    constructor
    · intro h ms m m' hren'
      obtain ⟨-, hm⟩ := List.append_inj' (hren.src.symm.trans hren'.src) rfl
      obtain ⟨-, hm'⟩ := List.append_inj' (hren.dst.symm.trans hren'.dst) rfl
      rw [← List.singleton_inj.mp hm, ← List.singleton_inj.mp hm']
      exact h
    · exact fun h => h ns n n' hren
  · have hnot : ∀ ns n n', ¬ Renamable d s t ns n n' := fun ns n n' h => hren ⟨ns, n, n', h⟩
    obtain ⟨rc, hrc, hrun⟩ := fsRename_of_not_renamable hT u hnot
    rw [hrun]
    exact iff_of_true (returnsNamed_of_neg t hrc d) fun ns n n' h => absurd h (hnot ns n n')

end

/-- The five operations return, and index their arrays in range, exactly when the path does not
begin with a slash or its components fit into the token array and its parent into the buffer;
`fs_unlink` needs a component, and `fs_rename` has to find the name in the block where it
searches. -/
theorem returns_iff {d : Disk} (hW : WellFormed d) (u : Stack) (ctx : Ctx) (mode : UInt32)
    {s : CString} (h0 : 0 ∉ s) :
    (ReturnsNamed s (fsCreate ctx u s mode d) ↔ s.head? ≠ some slash ∨ FitsArrays s) ∧
    (ReturnsNamed s (fsMkdir ctx u s mode d) ↔ s.head? ≠ some slash ∨ FitsArrays s) ∧
    (Returns (fsUnlink ctx u s d) ↔ s.head? ≠ some slash ∨ components s ≠ [] ∧ FitsArrays s) ∧
    (Returns (fsRmdir ctx u s d) ↔ s.head? ≠ some slash ∨ FitsArrays s) ∧
    ∀ t, ReturnsNamed t (fsRename u s t d) ↔ RenameFinds d s t := by
  have hT := hW.toTree
  -- A path that does not begin with a slash is refused by each of them before anything else.
  refine ⟨?_, ?_, ?_, ?_, fsRename_returnsNamed_iff hT u h0⟩ <;> by_cases hs : s.head? = some slash
  · rw [fsCreate_returnsNamed_iff hT u hs, or_iff_right (not_not.mpr hs)]
  · rw [fsCreate, if_pos hs]
    exact iff_of_true (returnsNamed_of_neg s (by decide) d) (.inl hs)
  · rw [fsMkdir_returnsNamed_iff hT u hs, or_iff_right (not_not.mpr hs)]
  · rw [fsMkdir, if_pos hs]
    exact iff_of_true (returnsNamed_of_neg s (by decide) d) (.inl hs)
  · rw [fsUnlink_returns_iff hT u hs, or_iff_right (not_not.mpr hs)]
  · rw [fsUnlink, if_pos hs]
    exact iff_of_true (returns_of_neg (by decide) d) (.inl hs)
  · rw [fsRmdir_returns_iff hT u hs, or_iff_right (not_not.mpr hs)]
  · rw [fsRmdir, if_pos hs]
    exact iff_of_true (returns_of_neg (by decide) d) (.inl hs)

/-- `/a/b`, on the image of `disk2.in`. -/
theorem returns_slashAB : ReturnsNamed slashAB (fsCreate someCtx zeroStack slashAB 0o644 disk2) ∧
    Returns (fsUnlink someCtx zeroStack slashAB disk2) := by
  obtain ⟨hcreate, -, hunlink, -⟩ := returns_iff disk2_wellFormed zeroStack someCtx 0o644
    walkable_slashAB.noNul
  have hfits : FitsArrays slashAB := by
    refine ⟨?_, ?_⟩ <;> decide
  exact ⟨hcreate.mpr (.inr hfits), hunlink.mpr (.inr ⟨walkable_slashAB.ne_nil, hfits⟩)⟩

/-- `fs_unlink("/")` indexes the token array at -1, and `fs_create` with 11 components at -2. -/
theorem not_returns_disk2 : WellFormed disk2 ∧
    ¬ Returns (fsUnlink someCtx zeroStack [slash] disk2) ∧
    ¬ ReturnsNamed (render (List.replicate 11 [97]))
      (fsCreate someCtx zeroStack (render (List.replicate 11 [97])) 0o644 disk2) := by
  refine ⟨disk2_wellFormed, ?_, ?_⟩
  · rw [fsUnlink_returns_iff disk2_wellFormed.toTree zeroStack rfl]
    exact fun h => h.1 (by decide)
  · rw [fsCreate_returnsNamed_iff disk2_wellFormed.toTree zeroStack rfl, FitsArrays,
      components_render]
    · exact fun h => absurd h.1 (by decide)
    · intro n hn
      rw [List.eq_of_mem_replicate hn]
      decide

end Cs5600.Lab4
