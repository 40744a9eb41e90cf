import Cs5600.Lab4.Header

/-!
# Operations that free blocks

`fs_truncate`, `fs_unlink`, and `fs_rmdir` on a well-formed disk. The calls of `free_blk` only
change the bitmap, so a sequence of them amounts to one write of block 1 (`freeBlocks_eq`).

`fs_unlink` and `fs_rmdir` begin with the same lookup (`lookupOld`); they differ in which node may
go.
-/

namespace Cs5600.Lab4

variable {d : Disk}

/-- The loop over the pointers frees their blocks. -/
theorem foldlM_freeBlk (u : Stack) (x : Inode) (ks : List ℕ) :
    ∀ d : Disk, 1 < d.nblks → (∀ k ∈ ks, k < 1019 ∧ x.ptr k < 32768) →
      ks.foldlM (fun d k => do freeBlk u d (lbaOf (← x.ptrAt k))) d =
        .ok (d.write 1 (clearAll (d.blk 1) (ks.map x.ptr))) := by
  induction ks with
  | nil =>
    intro d h _
    rw [List.map_nil, clearAll, List.foldl_nil, d.write_self 1 h]
    rfl
  | cons k ks ih =>
    intro d h hks
    rw [List.forall_mem_cons] at hks
    rw [List.foldlM_cons, x.ptrAt_eq hks.1.1, ok_bind, lbaOf_ofNat hks.1.2,
      freeBlk_eq u h hks.1.2, ok_bind,
      ih _ (by rw [free_nblks h]; exact h) hks.2, Disk.free, Disk.write_blk_self,
      d.write_write 1 _ _ h]
    rfl

/-- The loop that frees the blocks of a file. -/
theorem freeBlocks_eq (u : Stack) (hT : Tree d) {p : Path} {i : ℕ} (hp : resolve d p = some i)
    (hfile : (inodeAt d i).isDir = false) :
    freeBlocks u (inodeAt d i) d =
      .ok (d.write 1 (clearAll (d.blk 1) (nodeView d i).ptrs)) := by
  rw [freeBlocks]
  refine foldlM_freeBlk u (inodeAt d i) _ d hT.one_lt ?_
  intro k hk
  have hk' := List.mem_range.mp hk
  have hle := hT.nblocks_le hp hfile
  exact ⟨by omega, (hT.fileData_range hp hfile hk').2.1⟩

/-! ## `fs_truncate` -/

/-- The disk after the blocks of file `i` have been freed and its size set to zero. -/
theorem WellFormed.truncate (hW : WellFormed d) {p : Path} {i : ℕ} (hp : resolve d p = some i)
    (hfile : (inodeAt d i).isDir = false) {d' : Disk}
    (hd' : d' = (d.write 1 (clearAll (d.blk 1) (nodeView d i).ptrs)).write i
      { inodeAt d i with size := 0 }.toBlock) :
    WellFormed d' ∧ view d' =
      { view d with
        bitmap := clearAll (d.blk 1) (nodeView d i).ptrs
        nodes := Function.update (liveNode d) p
          (some { nodeView d i with size := 0, ptrs := [], body := .file [] }) } := by
  have hT := hW.toTree
  have h1 := hT.one_lt
  obtain ⟨hi2, -, hi⟩ := hT.inode_range hp
  -- Only the bitmap and the inode are written.
  have hblk : ∀ j, j ≠ i → j ≠ 1 → d'.blk j = d.blk j := by
    intro j hji hj1
    rw [hd', Disk.write_blk_of_lt _ i _ (by simp; omega), if_neg hji,
      Disk.write_blk_of_lt d 1 _ h1, if_neg hj1]
  have hbm : d'.blk 1 = clearAll (d.blk 1) (nodeView d i).ptrs := by
    rw [hd', Disk.write_blk_of_lt _ i _ (by simp; omega), if_neg (by omega), Disk.write_blk_self]
  have hx : inodeAt d' i = { inodeAt d i with size := 0 } := by rw [hd', inodeAt_write]
  have hfile' : (inodeAt d' i).isDir = false := by rw [hx]; exact hfile
  have hsize : (inodeAt d' i).size.toInt = 0 := by rw [hx]; rfl
  have hn0 : (inodeAt d' i).nblocks = 0 := by
    rw [Inode.nblocks_eq (by omega) (by omega), hsize]
    rfl
  have hview : nodeView d' i = { nodeView d i with size := 0, ptrs := [], body := .file [] } := by
    have hbody : bodyOf d' (inodeAt d' i) = .file [] := by
      rw [bodyOf, if_neg (by simp [hfile']), contents, hx]
      rfl
    simp only [nodeView, hn0, hbody]
    rw [hx]
    rfl
  have e : InodeEdit d d' p i := by
    refine ⟨hp, by rw [hfile', hfile], by simp [hfile], ?_⟩
    intro k b hk hne
    refine hblk b ?_ (by have := hT.range k b hk; omega)
    rintro rfl
    exact hne (by rw [hT.inj k (.inode p) b hk hp]; rfl)
  refine ⟨e.wellFormed hT hW (by rw [hd']; simp) ?_ (by simp [hview]) (by simp [hview]) ?_,
    View.ext (hblk 0 (by omega) (by omega)) hbm ?_⟩
  · rw [NodeOk, if_neg (by simp [hfile'])]
    omega
  · intro j hj
    rw [hbm, bit_clearAll _ _ _ fun b hb =>
      (hW.block_spec hp (List.mem_cons_of_mem _ hb)).1.2.1, hview]
    simp [and_comm]
  · funext q
    rw [view_nodes, e.liveNode_eq hT, hview]
    simp only [Function.update_apply]

/-- `fs_truncate` on a well-formed disk. -/
theorem fsTruncate_refines (hW : WellFormed d) (u : Stack) (p : NormPath) (len : ℤ) :
    Refines d (fsTruncate u p.str len d) ((view d).truncate p.comps len) := by
  have hT := hW.toTree
  simp only [fsTruncate, path2inum_str hT, View.truncate, view_nodes, view_bitmap, inum_view]
  by_cases hlen : len ≠ 0
  · rw [if_pos hlen, if_pos hlen]
    exact refines_fail d _
  rw [if_neg hlen, if_neg hlen]
  -- `fs_truncate` to 0: the data blocks are given back, then the inode is rewritten.
  cases hr : resolve d p.comps with
  | none =>
    have hneg := walkInum_none hr
    simp only [show walkInum d 2 p.comps ≤ 0 by omega, if_true, liveNode_none hr]
    exact refines_fail d _
  | some i =>
    obtain ⟨h2, h1, hi⟩ := hT.inode_range hr
    have hx : Inode.ofBlock (d.blk i) = inodeAt d i := rfl
    rw [walkInum_some hT hr, liveNode_some hr]
    simp only [show ¬ ((i : ℤ) ≤ 0) by omega, if_false, blockRead_of_lt d _ h1 hi, hx,
      nodeView_isDir]
    split_ifs with hdir
    · exact refines_fail d _
    · have hf : (inodeAt d i).isDir = false := by simpa using hdir
      simp only [freeBlocks_eq u hT hr hf, blockWrite_of_lt _ _ (show 0 < i by omega) h1, ok_bind]
      obtain ⟨hW', hv⟩ := hW.truncate hr hf rfl
      refine refines_done rfl hW' hv (.of_eq [] ?_)
      simp only [Disk.write_nblks]
      omega

/-- The image with entry `s` of directory `P` cleared, a new bitmap, and a new modification time of
the directory. -/
def Disk.unbind (d : Disk) (P s : ℕ) (bitmap : Block) (mtime : UInt32) : Disk :=
  ((d.write 1 bitmap).write ((inodeAt d P).ptr 0) (setDirentValid (dirBlock d P) s false)).write P
    { inodeAt d P with mtime := mtime }.toBlock

/-- The inode of a directory is another block than its data. -/
theorem Tree.dirData_ne (hT : Tree d) {p : Path} {P : ℕ} (hP : resolve d p = some P)
    (hdir : (inodeAt d P).isDir = true) : (inodeAt d P).ptr 0 ≠ P := by
  intro h
  cases hT.inj (.dirData p) (.inode p) P (by rw [dirData_live hP hdir, h]) hP

section

variable (hW : WellFormed d) {p : Path} {n : CString} {P f s : ℕ} (hP : resolve d p = some P)
  (hdir : (inodeAt d P).isDir = true) (hs : slot (dirBlock d P) s = some (f, n))
include hW hP hdir

/-- Unbinding a name writes the bitmap, the inode of the directory, and its block. -/
theorem unbind_blk (bitmap : Block) (mtime : UInt32) (j : ℕ) :
    (d.unbind P s bitmap mtime).blk j =
      if j = P then { inodeAt d P with mtime := mtime }.toBlock
      else if j = (inodeAt d P).ptr 0 then setDirentValid (dirBlock d P) s false
      else if j = 1 then bitmap else d.blk j := by
  have h1 := hW.one_lt
  obtain ⟨-, -, hP'⟩ := hW.inode_range hP
  obtain ⟨-, -, hD⟩ := hW.dirData_range hP hdir
  rw [Disk.unbind, Disk.write_blk_of_lt _ P _ (by simp; omega), Disk.write_blk_of_lt _ _ _
    (by simp; omega), Disk.write_blk_of_lt d 1 _ h1]

include hs

/-- Clearing an entry that refers to a leaf, and freeing the leaf's blocks. -/
theorem WellFormed.unbind (hn : IsName n) (hleaf : ∀ m, entry d f m = none) (mtime : UInt32)
    {d' : Disk} {bitmap : Block}
    (hbm : bitmap = bitClear (clearAll (d.blk 1) (nodeView d f).ptrs) f)
    (hd' : d' = d.unbind P s bitmap mtime) :
    WellFormed d' ∧ view d' =
      { view d with
        bitmap := bitmap
        nodes := (view d).setEntry p (nodeView d P) (slot (dirBlock d P)) s n mtime none } := by
  have hT := hW.toTree
  have hblk := unbind_blk hW hP hdir (s := s) bitmap mtime
  rw [← hd'] at hblk
  obtain ⟨hP2, -, -⟩ := hT.inode_range hP
  obtain ⟨hD2, -, -⟩ := hT.dirData_range hP hdir
  have hDP := hT.dirData_ne hP hdir
  have hbD : d'.blk ((inodeAt d P).ptr 0) = setDirentValid (dirBlock d P) s false := by
    rw [hblk, if_neg hDP, if_pos rfl]
  have hb1 : d'.blk 1 = bitmap := by
    rw [hblk, if_neg (by omega), if_neg (by omega), if_pos rfl]
  -- What is live at other paths is in none of the three blocks that are written.
  have e : EntryEdit d d' p n P s (some f) none mtime := by
    refine ⟨hP, hdir, ?_, hs, ?_, hn, ?_, ?_, ?_, by simp⟩
    · rw [hbD]
      exact slotSet_clear _ (slot_lt hs)
    · intro t j ht hj
      exact ht ((hT.dirOk hP hdir).slot_unique hs hj)
    · rw [inodeAt, hblk, if_pos rfl, Inode.ofBlock_toBlock]
    · intro k b hk hne
      have h2 := hT.range k b hk
      rw [hblk, if_neg, if_neg, if_neg (by omega)]
      · rintro rfl
        exact hne (by rw [hT.inj k (.dirData p) _ hk (Tree.dirData_live hP hdir)]; rfl)
      · rintro rfl
        exact hne (by rw [hT.inj k (.inode p) b hk hP]; rfl)
    · rintro g hg m
      rw [← Option.some.inj hg]
      exact hleaf m
  have hf : resolve d (p ++ [n]) = some f := e.resolve_old hT
  have hspec : ∀ b ∈ f :: (nodeView d f).ptrs, b < 32768 := fun b hb => (hW.block_spec hf hb).1.2.1
  have hle : d.nblks ≤ d'.nblks := by rw [hd']; simp [Disk.unbind]
  refine ⟨e.wellFormed_remove hT hW rfl rfl hle ?_, View.ext ?_ hb1 ?_⟩
  · intro j hj
    rw [hb1, hbm, bit_bitClear _ (hspec f (by simp)),
      bit_clearAll _ _ _ fun b hb => hspec b (List.mem_cons_of_mem _ hb)]
    simp [and_comm, and_assoc]
  · rw [view_super, hblk, if_neg (by omega), if_neg (by omega), if_neg (by omega)]
    rfl
  · funext q
    rw [view_nodes, e.liveNode_eq hT]
    simp only [View.setEntry, Function.update_apply, Option.map_none, view_nodes]

end

/-- The lookup that `fs_unlink` and `fs_rmdir` begin with: `use` is for the parent, its inode, its
block, and the entry of the name. -/
def lookupOld (u : Stack) (path : CString) (d : Disk)
    (use : ℤ → Inode → Block → ℕ → Except Fault (ℤ × Disk)) : Except Fault (ℤ × Disk) := do
  let parPaths ← parPath (sepPath path).2 path (sepPath path).1
  let parInode := path2inum u d parPaths
  if parInode < 0 then .ok (-ENOENT, d)
  else
    let parIn := Inode.ofBlock (blockRead d (u .parIn) parInode).1
    if !parIn.isDir then .ok (-ENOTDIR, d)
    else do
      let parDataIn := (blockRead d (u .parDataIn) (lbaOf (parIn.ptr0))).1
      let name ← tokenAt (sepPath path).2 ((sepPath path).1 - 1)
      match findDirent parDataIn name with
      | none => .ok (-ENOENT, d)
      | some dirent => use parInode parIn parDataIn dirent

/-- The part of `fs_unlink` behind the lookup. -/
def unlinkEntry (ctx : Ctx) (u : Stack) (d : Disk) (parInode : ℤ) (parIn : Inode)
    (parDataIn : Block) (dirent : ℕ) : Except Fault (ℤ × Disk) :=
  let fileInode := direntInode parDataIn dirent
  let fileIn := Inode.ofBlock (blockRead d (u .fileIn) fileInode).1
  if fileIn.isDir then .ok (-EISDIR, d)
  else do
    let d ← freeBlocks u fileIn d
    let d ← freeBlk u d fileInode
    let d := (← blockWrite d (setDirentValid parDataIn dirent false) (lbaOf (parIn.ptr0))).1
    let d := (← blockWrite d { parIn with mtime := ctx.now }.toBlock parInode).1
    .ok (0, d)

/-- `fs_unlink` looks for the name and removes it. -/
theorem fsUnlink_eq (ctx : Ctx) (u : Stack) (s : CString) : fsUnlink ctx u s d =
    if s.head? ≠ some slash then .ok (-ENOENT, d) else lookupOld u s d (unlinkEntry ctx u d) := by
  unfold fsUnlink lookupOld
  rfl

/-- `fs_rmdir` looks for the name, which is not the root, and removes it. -/
theorem fsRmdir_eq (ctx : Ctx) (u : Stack) (s : CString) : fsRmdir ctx u s d =
    if s.head? ≠ some slash then .ok (-ENOENT, d)
    else if (sepPath s).1 = 0 then .ok (-ENOENT, d)
    else lookupOld u s d fun parInode parIn parDataIn dirent =>
      rmdirEntry ctx u parInode parIn parDataIn dirent d := by
  unfold fsRmdir lookupOld
  rfl

/-- The lookup that `fs_unlink` and `fs_rmdir` begin with does what `View.removeWith` does: it gives
up with the node in place, or what follows it removes the node. -/
theorem lookupOld_refines (hW : WellFormed d) (ctx : Ctx) (u : Stack) (p : NormPath)
    {use : ℤ → Inode → Block → ℕ → Except Fault (ℤ × Disk)} {remove : LiveNode → Option ℤ}
    (hkeep : ∀ {P s f rc}, resolve d p.parent = some P → (inodeAt d P).isDir = true →
      slot (dirBlock d P) s = some (f, p.name) → resolve d p.comps = some f →
      remove (nodeView d f) = some rc → use P (inodeAt d P) (dirBlock d P) s = .ok (rc, d))
    (hgone : ∀ {P s f}, resolve d p.parent = some P → (inodeAt d P).isDir = true →
      slot (dirBlock d P) s = some (f, p.name) → resolve d p.comps = some f →
      remove (nodeView d f) = none → Refines d (use P (inodeAt d P) (dirBlock d P) s)
        (done 0 [] { view d with
          bitmap := bitClear (clearAll (d.blk 1) (nodeView d f).ptrs) f
          nodes := (view d).setEntry p.parent (nodeView d P) (slot (dirBlock d P)) s p.name ctx.now
            none })) :
    Refines d (lookupOld u p.str d use) ((view d).removeWith ctx p remove) := by
  have hT := hW.toTree
  have hx : ∀ i, Inode.ofBlock (d.blk i) = inodeAt d i := fun _ => rfl
  simp only [lookupOld, sepPath_str, parPath_str, tokenAt_comps, View.removeWith]
  by_cases hlen : 298 < (render p.parent).length
  · simp only [hlen, if_true, error_bind]
    exact refines_error d _
  simp only [hlen, if_false, ok_bind, path2inum_parent hT]
  cases hP : resolve d p.parent with
  | none =>
    simp only [walkInum_none hP, if_true, dirAt_none hP]
    exact refines_fail d _
  | some P =>
    obtain ⟨hP2, hP', hP''⟩ := hT.inode_range hP
    simp only [walkInum_some hT hP, show ¬ ((P : ℤ) < 0) by omega, if_false,
      blockRead_of_lt d _ hP' hP'', hx]
    cases hdir : (inodeAt d P).isDir with
    | false =>
      simp only [Bool.not_false, if_true, dirAt_file hP hdir]
      exact refines_fail d _
    | true =>
      obtain ⟨hD2, hD', hD''⟩ := hT.dirData_range hP hdir
      have hD : d.blk ((inodeAt d P).ptr 0) = dirBlock d P := rfl
      simp only [Bool.not_true, Bool.false_eq_true, if_false, hT.lbaOf_dir hP hdir,
        blockRead_of_lt d _ hD' hD'', hD, dirAt_dir hP hdir, findDirent_eq]
      cases hs : slotOf (slot (dirBlock d P)) p.name with
      | none => exact refines_fail d _
      | some s =>
        obtain ⟨f, hslot⟩ := (findDirent_eq_some (hT.dirOk hP hdir)).mp
          ((findDirent_eq _ _).trans hs)
        have hf : resolve d p.comps = some f := hT.resolve_of_slot hP hdir hslot
        simp only [view_nodes, liveNode_some hf]
        -- The node is there; whether it may go is up to the caller.
        cases hr : remove (nodeView d f) with
        | some rc =>
          rw [hkeep hP hdir hslot hf hr]
          exact refines_fail d _
        | none => exact hgone hP hdir hslot hf hr

/-- `fs_unlink` on a well-formed disk. -/
theorem fsUnlink_refines (hW : WellFormed d) (ctx : Ctx) (u : Stack) (p : NormPath) :
    Refines d (fsUnlink ctx u p.str d) ((view d).unlink ctx p) := by
  have hT := hW.toTree
  have hx : ∀ i, Inode.ofBlock (d.blk i) = inodeAt d i := fun _ => rfl
  simp only [fsUnlink_eq, head_str, ne_eq, not_true, if_false, View.unlink]
  refine lookupOld_refines hW ctx u p ?_ ?_
  -- The entry is a directory, which `fs_unlink` refuses.
  · intro P s f rc _ _ hslot hf hr
    obtain ⟨-, hf', hf''⟩ := hT.inode_range hf
    simp only [nodeView_isDir, Option.ite_none_right_eq_some, Option.some.injEq] at hr
    simp only [unlinkEntry, (slot_eq_some.mp hslot).2.1, blockRead_of_lt d _ hf' hf'', hx, hr.1,
      if_true, hr.2]
  -- A file: its blocks, its inode and its entry are given back.
  · intro P s f hP hdir hslot hf hr
    obtain ⟨hP2, hP', hP''⟩ := hT.inode_range hP
    obtain ⟨hD2, hD', hD''⟩ := hT.dirData_range hP hdir
    obtain ⟨-, hf', hf''⟩ := hT.inode_range hf
    have hfd : (inodeAt d f).isDir = false := by simpa [nodeView_isDir] using hr
    have hone : 1 < (d.write 1 (clearAll (d.blk 1) (nodeView d f).ptrs)).nblks := by simp
    simp only [unlinkEntry, (slot_eq_some.mp hslot).2.1, blockRead_of_lt d _ hf' hf'', hx, hfd,
      Bool.false_eq_true, if_false, freeBlocks_eq u hT hf hfd, ok_bind, freeBlk_eq u hone hf',
      Disk.free, Disk.write_blk_self, d.write_write 1 _ _ hT.one_lt, hT.lbaOf_dir hP hdir,
      blockWrite_of_lt _ _ (show 0 < P by omega) hP',
      blockWrite_of_lt _ _ (show 0 < (inodeAt d P).ptr 0 by omega) hD']
    obtain ⟨hW', hv⟩ := hW.unbind hP hdir hslot p.name_isName
      (fun m => by rw [entry, if_neg (by simp [hfd])]) ctx.now rfl rfl
    refine refines_done rfl hW' hv (.of_eq [] ?_)
    simp only [Disk.write_nblks]
    omega

/-- `fs_rmdir` on a well-formed disk. -/
theorem fsRmdir_refines (hW : WellFormed d) (ctx : Ctx) (u : Stack) (p : NormPath) :
    Refines d (fsRmdir ctx u p.str d) ((view d).rmdir ctx p) := by
  have hT := hW.toTree
  have hx : ∀ i, Inode.ofBlock (d.blk i) = inodeAt d i := fun _ => rfl
  simp only [fsRmdir_eq, head_str, sepPath_str, ne_eq, not_true, if_false,
    show ¬ ((p.parent.length : ℤ) + 1 = 0) by omega, View.rmdir]
  refine lookupOld_refines hW ctx u p ?_ ?_
  -- No directory, or one that is not empty.
  · intro P s f rc _ _ hslot hf hr
    obtain ⟨-, hf', hf''⟩ := hT.inode_range hf
    simp only [rmdirEntry, (slot_eq_some.mp hslot).2.1, blockRead_of_lt d _ hf' hf'', hx]
    simp only [nodeView_isDir] at hr
    cases hfd : (inodeAt d f).isDir with
    | false =>
      simp only [hfd, Bool.false_eq_true, if_false, Option.some.injEq] at hr
      simp only [Bool.not_false, if_true, hr]
    | true =>
      obtain ⟨-, hB', hB''⟩ := hT.dirData_range hf hfd
      have hB : d.blk ((inodeAt d f).ptr 0) = dirBlock d f := rfl
      simp only [hfd, if_true, nodeView_slots hfd, Option.ite_none_right_eq_some,
        Option.some.injEq] at hr
      obtain ⟨t, ht⟩ := Option.isSome_iff_exists.mp hr.1
      simp only [Bool.not_true, Bool.false_eq_true, if_false, hT.lbaOf_dir hf hfd,
        blockRead_of_lt d _ hB' hB'', hB, findFull_eq, ht, hr.2]
  · intro P s f hP hdir hslot hf hr
    obtain ⟨hP2, hP', hP''⟩ := hT.inode_range hP
    obtain ⟨hD2, hD', hD''⟩ := hT.dirData_range hP hdir
    obtain ⟨-, hf', hf''⟩ := hT.inode_range hf
    simp only [nodeView_isDir] at hr
    have hfd : (inodeAt d f).isDir = true := by
      cases hfd : (inodeAt d f).isDir with
      | false => simp [hfd] at hr
      | true => rfl
    obtain ⟨-, hB', hB''⟩ := hT.dirData_range hf hfd
    have hB : d.blk ((inodeAt d f).ptr 0) = dirBlock d f := rfl
    have hfull : usedSlot (slot (dirBlock d f)) = none := by
      simpa [hfd, nodeView_slots hfd] using hr
    -- No slot of the directory is used, so nothing lies below it.
    have hempty : ∀ t, slot (dirBlock d f) t = none :=
      findFull_eq_none.mp ((findFull_eq _).trans hfull)
    have hone : ∀ b, 1 < (d.write 1 b).nblks := by simp
    have hclear : clearAll (d.blk 1) (nodeView d f).ptrs =
        bitClear (d.blk 1) ((inodeAt d f).ptr 0) := by
      simp [clearAll, nodeView, (hT.node _ _ hf).nblocks_dir hfd]
    simp only [rmdirEntry, (slot_eq_some.mp hslot).2.1, blockRead_of_lt d _ hf' hf'', hx, hfd,
      Bool.not_true, Bool.false_eq_true, if_false, hT.lbaOf_dir hf hfd,
        blockRead_of_lt d _ hB' hB'',
      hB, findFull_eq, hfull, hT.lbaOf_dir hP hdir, freeBlk_eq u hT.one_lt hB',
      freeBlk_eq u (hone _) hf', ok_bind, Disk.free, Disk.write_blk_self,
      d.write_write 1 _ _ hT.one_lt, blockWrite_of_lt _ _ (show 0 < P by omega) hP',
      blockWrite_of_lt _ _ (show 0 < (inodeAt d P).ptr 0 by omega) hD', hclear]
    obtain ⟨hW', hv⟩ := hW.unbind hP hdir hslot p.name_isName
      (hT.entry_of_empty hf hfd hempty) ctx.now (by rw [hclear]) rfl
    refine refines_done rfl hW' hv (.of_eq [] ?_)
    simp only [Disk.write_nblks]
    omega

end Cs5600.Lab4
