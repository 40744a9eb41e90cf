import Cs5600.Lab4.Remove

/-!
# Operations that allocate nodes

`fs_create` and `fs_mkdir` on a well-formed disk. Both begin with the same lookup (`lookupNew`),
take free blocks for a new node, and bind its name in a free entry of the parent
(`WellFormed.bind`).
-/

namespace Cs5600.Lab4

variable {d : Disk}

/-- A disk that differs from `d` in a new node on free blocks, in the entry of the parent that binds
it, and in the bitmap. -/
theorem WellFormed.bind (hW : WellFormed d) {p : Path} {n : CString} {P f s : ℕ} {d' : Disk}
    (hP : resolve d p = some P) (hdir : (inodeAt d P).isDir = true)
    (hnone : resolve d (p ++ [n]) = none) (hn : IsName n) (hs : slot (dirBlock d P) s = none)
    (hslots : SlotSet (dirBlock d P) (d'.blk ((inodeAt d P).ptr 0)) s (some (f, n)))
    (hnblks : d.nblks ≤ d'.nblks) (hnode : NodeOk d' f) (hleaf : ∀ m, entry d' f m = none)
    (hnd : (f :: (nodeView d' f).ptrs).Nodup)
    (hfree : ∀ b ∈ f :: (nodeView d' f).ptrs,
      (2 ≤ b ∧ b < 32768 ∧ b < d'.nblks) ∧ bit (d.blk 1) b = false)
    (hbit : ∀ j < 32768, bit (d'.blk 1) j = true ↔
      bit (d.blk 1) j = true ∨ j ∈ f :: (nodeView d' f).ptrs)
    (hkeep : ∀ j < d.nblks, j ≠ 1 → j ≠ (inodeAt d P).ptr 0 → j ∉ f :: (nodeView d' f).ptrs →
      d'.blk j = d.blk j) :
    WellFormed d' ∧ view d' =
      { view d with
        bitmap := d'.blk 1
        nodes := (view d).setEntry p (nodeView d P) (slot (dirBlock d P)) s n (nodeView d P).mtime
          (some (nodeView d' f)) } := by
  have hT := hW.toTree
  -- A live block is marked, so it is not one of the new node's.
  have hlive : ∀ k b, live d k = some b → b ≠ (inodeAt d P).ptr 0 → d'.blk b = d.blk b := by
    intro k b hk hb
    obtain ⟨h2, h1, hlt⟩ := hT.range k b hk
    refine hkeep b hlt (by omega) hb fun hmem => ?_
    have := (hfree b hmem).2
    rw [(hW.exact b h1).mpr (.inr (.inr ⟨k, hk⟩))] at this
    cases this
  have e : EntryEdit d d' p n P s none (some f) (nodeView d P).mtime := by
    refine ⟨hP, hdir, hslots, hs, ?_, hn, ?_, ?_, by simp, ?_⟩
    · intro t j _ ht
      rw [hT.resolve_of_slot hP hdir ht] at hnone
      cases hnone
    · rw [inodeAt, hlive (.inode p) P hP (hT.dirData_ne hP hdir).symm]
      rfl
    · intro k b hk hne
      refine hlive k b hk ?_
      rintro rfl
      exact hne (by rw [hT.inj k (.dirData p) _ hk (Tree.dirData_live hP hdir)]; rfl)
    · intro g hg
      rw [← Option.some.inj hg]
      exact hleaf
  refine ⟨e.wellFormed_add hT hW rfl rfl hnblks hnode hnd hfree hbit, View.ext ?_ rfl ?_⟩
  · have hD2 := (hT.dirData_range hP hdir).1
    refine hkeep 0 (by have := hT.one_lt; omega) (by omega) (by omega) fun hmem => ?_
    have := (hfree 0 hmem).1
    omega
  · funext q
    rw [view_nodes, e.liveNode_eq hT]
    simp only [View.setEntry, Function.update_apply, Option.map_some, view_nodes]
    rfl

/-! ## The lookup -/

/-- The lookup that `fs_create` and `fs_mkdir` begin with, and what they do in the parent. -/
def lookupNew (u : Stack) (path : CString) (d : Disk)
    (inParent : CString → ℤ → Except Fault (ℤ × Disk)) : Except Fault (ℤ × Disk) :=
  if path.head? ≠ some slash then .ok (-ENOENT, d)
  else if 0 < path2inum u d path then .ok (-EEXIST, d)
  else do
    let parPaths ← parPath (sepPath path).2 path (sepPath path).1
    let name ← tokenAt (sepPath path).2 ((sepPath path).1 - 1)
    if 27 < name.length then .ok (-EINVAL, d)
    else if path2inum u d parPaths < 0 then .ok (-ENOENT, d)
    else inParent name (path2inum u d parPaths)

/-- What `fs_create` and `fs_mkdir` do in the parent: `fill` is for its block and a free entry. The
blocks are read into buffers that hold `buf` and what `buf'` makes of the parent's inode. -/
def inFree (d : Disk) (buf : Block) (buf' : Block → Block)
    (fill : ℤ → Block → ℕ → Except Fault (ℤ × Disk)) (inode : ℤ) : Except Fault (ℤ × Disk) :=
  let parIn := (blockRead d buf inode).1
  if !(Inode.ofBlock parIn).isDir then .ok (-ENOTDIR, d)
  else
    let data := (blockRead d (buf' parIn) (lbaOf ((Inode.ofBlock parIn).ptr0))).1
    match findEmpty data with
    | none => .ok (-ENOSPC, d)
    | some dirent => fill (lbaOf ((Inode.ofBlock parIn).ptr0)) data dirent

/-- `fs_create` looks for a new name, then for a free entry, and fills it. -/
theorem fsCreate_eq (ctx : Ctx) (u : Stack) (s : CString) (mode : UInt32) :
    fsCreate ctx u s mode d =
    lookupNew u s d fun name => inFree d (u .buf) id fun inode buf dirent =>
      createEntry ctx u name mode inode buf dirent d := by
  unfold fsCreate lookupNew
  rfl

/-- `fs_mkdir` looks for a new name, then for a free entry, and fills it. -/
theorem fsMkdir_eq (ctx : Ctx) (u : Stack) (s : CString) (mode : UInt32) : fsMkdir ctx u s mode d =
    lookupNew u s d fun name => inFree d (u .parIn) (fun _ => u .parDataIn) fun inode buf dirent =>
      mkdirEntry ctx u name mode inode buf dirent d := by
  unfold fsMkdir lookupNew
  rfl

/-- What `fs_create` and `fs_mkdir` do on a view up to the free entry of the parent; `make` is for
that entry. -/
def View.makeWith (p : NormPath) (make : LiveNode → Slots → ℕ → Except Fault Outcome) (v : View) :
    Except Fault Outcome :=
  if (v.nodes p.comps).isSome then fail (-EEXIST)
  else if 298 < (render p.parent).length then .error .outOfRange
  else if 27 < p.name.length then fail (-EINVAL)
  else match v.dirAt p.parent with
    | .error rc => fail rc
    | .ok (par, slots) => match freeSlot slots with
      | some k => make par slots k
      | none => fail (-ENOSPC)

/-- The lookup that `fs_create` and `fs_mkdir` begin with does what `View.makeWith` does, if they
fill the free entry as `make` says. -/
theorem lookupNew_refines (hW : WellFormed d) (u : Stack) (p : NormPath) (buf : Block)
    (buf' : Block → Block) {fill : CString → ℤ → Block → ℕ → Except Fault (ℤ × Disk)}
    {make : LiveNode → Slots → ℕ → Except Fault Outcome}
    (hfill : ∀ {P s : ℕ}, resolve d p.parent = some P → (inodeAt d P).isDir = true →
      resolve d p.comps = none → p.name.length ≤ 27 → s < 128 ∧ slot (dirBlock d P) s = none →
      Refines d (fill p.name ((inodeAt d P).ptr 0) (dirBlock d P) s)
        (make (nodeView d P) (slot (dirBlock d P)) s)) :
    Refines d (lookupNew u p.str d fun name => inFree d buf buf' (fill name))
      ((view d).makeWith p make) := by
  have hT := hW.toTree
  have hx : ∀ i, Inode.ofBlock (d.blk i) = inodeAt d i := fun _ => rfl
  simp only [lookupNew, inFree, head_str, sepPath_str, parPath_str, tokenAt_comps, ne_eq, not_true,
    if_false, path2inum_str hT, View.makeWith, view_nodes]
  -- The checks of the source in their order, each beside that of the specification.
  cases hr : resolve d p.comps with
  | some i =>
    have hpos := (walkInum_pos_iff hT).mpr ⟨i, hr⟩
    simp only [hpos, if_true, liveNode_some hr, Option.isSome_some]
    exact refines_fail d _
  | none =>
    have hneg := walkInum_none hr
    simp only [show ¬ 0 < walkInum d 2 p.comps by omega, if_false, liveNode_none hr,
      Option.isSome_none, Bool.false_eq_true]
    by_cases hlen : 298 < (render p.parent).length
    · simp only [hlen, if_true, error_bind]
      exact refines_error d _
    simp only [hlen, if_false, ok_bind, path2inum_parent hT]
    by_cases hname : 27 < p.name.length
    · simp only [hname, if_true]
      exact refines_fail d _
    simp only [hname, if_false]
    cases hP : resolve d p.parent with
    | none =>
      simp only [walkInum_none hP, if_true, dirAt_none hP]
      exact refines_fail d _
    | some P =>
      obtain ⟨hP2, hP', hP''⟩ := hT.inode_range hP
      simp only [walkInum_some hT hP, show ¬ ((P : ℤ) < 0) by omega, if_false,
        blockRead_of_lt d _ hP' hP'', hx]
      cases hdir : (inodeAt d P).isDir with
      | false =>
        simp only [Bool.not_false, if_true, dirAt_file hP hdir]
        exact refines_fail d _
      | true =>
        obtain ⟨hD2, hD', hD''⟩ := hT.dirData_range hP hdir
        have hD : d.blk ((inodeAt d P).ptr 0) = dirBlock d P := rfl
        simp only [Bool.not_true, Bool.false_eq_true, if_false, hT.lbaOf_dir hP hdir,
          blockRead_of_lt d _ hD' hD'', hD, dirAt_dir hP hdir, findEmpty_eq]
        -- What is left is the free slot, and then `fill`.
        cases hs : freeSlot (slot (dirBlock d P)) with
        | none => exact refines_fail d _
        | some s =>
          exact hfill hP hdir hr (not_lt.mp hname) (findEmpty_some ((findEmpty_eq _).trans hs))

/-! ## `fs_create` -/

/-- What a new file looks like, whatever its pointers are. -/
def fileNode (ctx : Ctx) (mode : UInt32) (f : ℕ) : LiveNode :=
  { inum := f, uid := ctx.uid.toUInt16, gid := ctx.gid.toUInt16, mode := newMode mode S_IFREG
    ctime := ctx.now, mtime := ctx.now, size := 0, ptrs := [], body := .file [] }

/-- A new file is no directory. -/
theorem newFile_isDir (ctx : Ctx) (u : Stack) (mode : UInt32) :
    (newFile ctx u mode).isDir = false := by
  rw [Inode.isDir, newFile, newMode, sIsDir_perm_or _ _ (by decide)]
  decide

/-- A new file is an empty one with the caller as its owner. -/
theorem nodeView_newFile {ctx : Ctx} {u : Stack} {mode : UInt32} {f : ℕ}
    (h : inodeAt d f = newFile ctx u mode) : nodeView d f = fileNode ctx mode f ∧ NodeOk d f := by
  have hdir : (inodeAt d f).isDir = false := by rw [h, newFile_isDir]
  have hsize : (inodeAt d f).size.toInt = 0 := by rw [h]; rfl
  have hn : (inodeAt d f).nblocks = 0 := by
    rw [Inode.nblocks_eq (by omega) (by omega), hsize]
    rfl
  have hbody : bodyOf d (inodeAt d f) = .file [] := by
    rw [bodyOf, if_neg (by simp [hdir]), contents, hsize]
    rfl
  refine ⟨?_, by rw [NodeOk, if_neg (by simp [hdir])]; omega⟩
  simp only [nodeView, hn, hbody]
  rw [h]
  rfl

/-- The image after `fs_create` has bound a new file. -/
def Disk.created (d : Disk) (ctx : Ctx) (u : Stack) (mode : UInt32) (D s f : ℕ) (b : Block)
    (name : CString) : Disk :=
  ((d.alloc f).write f (newFile ctx u mode).toBlock).write D
    (setDirentInode (setDirentValid (b.blit (32 * s + 4) (name ++ [0])) s true) s f)

section

variable (hW : WellFormed d) (ctx : Ctx) (u : Stack) {p : Path} {n : CString} {P s f : ℕ}
  (mode : UInt32) (hP : resolve d p = some P) (hdir : (inodeAt d P).isDir = true)
  (hnone : resolve d (p ++ [n]) = none) (hn : IsName n) (hlen : n.length ≤ 27)
  (hs : s < 128 ∧ slot (dirBlock d P) s = none) (hf : firstClear (d.blk 1) = some f)
include hW hP hdir hnone hn hlen hs hf

/-- A free block is none of the blocks in use. -/
theorem WellFormed.created {d' : Disk}
    (hd' : d' = d.created ctx u mode ((inodeAt d P).ptr 0) s f (dirBlock d P) n) :
    WellFormed d' ∧ view d' =
      { view d with
        bitmap := bitSet (d.blk 1) f
        nodes := (view d).setEntry p (nodeView d P) (slot (dirBlock d P)) s n (nodeView d P).mtime
          (some (fileNode ctx mode f)) } := by
  have hT := hW.toTree
  have h1 := hT.one_lt
  obtain ⟨hbf, hf3, hf', -⟩ := firstClear_eq_some.mp hf
  obtain ⟨hD2, hD', hD''⟩ := hT.dirData_range hP hdir
  -- A free block is not the directory's, whose bit is set.
  have hDf : f ≠ (inodeAt d P).ptr 0 := by
    rintro rfl
    rw [(hW.exact _ hD').mpr (.inr (.inr ⟨_, Tree.dirData_live hP hdir⟩))] at hbf
    cases hbf
  have hbD : d'.blk ((inodeAt d P).ptr 0) = setDirentInode (setDirentValid
      ((dirBlock d P).blit (32 * s + 4) (n ++ [0])) s true) s f := by
    rw [hd', Disk.created, Disk.write_blk_self]
  have hnb : (d.alloc f).nblks = d.nblks := alloc_nblks h1 f
  have hbf' : d'.blk f = (newFile ctx u mode).toBlock := by
    rw [hd', Disk.created, Disk.write_blk_of_lt _ _ _ (by simp [hnb]; omega), if_neg hDf,
      Disk.write_blk_self]
  -- Only the directory's block and the new inode are written.
  have hblk : ∀ j < d.nblks, j ≠ (inodeAt d P).ptr 0 → j ≠ f →
      d'.blk j = (d.alloc f).blk j := by
    intro j hj hjD hjf
    rw [hd', Disk.created, Disk.write_blk_of_lt _ _ _ (by simp [hnb]; omega), if_neg hjD,
      Disk.write_blk_of_ne _ _ _ hjf (by omega)]
  have hb1 : d'.blk 1 = bitSet (d.blk 1) f := by
    rw [hblk 1 h1 (by omega) (by omega), alloc_blk h1, if_pos rfl]
  have hx : inodeAt d' f = newFile ctx u mode := by rw [inodeAt, hbf', Inode.ofBlock_toBlock]
  obtain ⟨hview, hnode⟩ := nodeView_newFile hx
  have hptrs : (nodeView d' f).ptrs = [] := by rw [hview]; rfl
  have hle : d.nblks ≤ d'.nblks := by rw [hd']; simp [Disk.created, hnb]
  have hfn : f < d'.nblks := by
    rw [hd', Disk.created, Disk.write_nblks, Disk.write_nblks]
    omega
  -- The image is the old one with the new node bound to its name.
  have h := hW.bind hP hdir hnone hn hs.2 (by
      rw [hbD]
      exact slotSet_create _ hs.1 hlen hn.noNul (by omega)) hle hnode
    (fun m => by rw [entry, hx, newFile_isDir]; rfl) (by simp [hptrs])
    (by rw [hptrs]; simpa using ⟨⟨by omega, hf', hfn⟩, hbf⟩)
    (by
      intro j _
      rw [hb1, bit_bitSet _ hf', hptrs]
      simp [or_comm])
    (by
      intro j hj hj1 hjD hjf
      rw [hptrs, List.mem_singleton] at hjf
      rw [hblk j hj hjD hjf, alloc_blk h1, if_neg hj1])
  rw [hview, hb1] at h
  exact h

end

/-- `create` makes a node with one new block. -/
theorem View.create_eq (v : View) (ctx : Ctx) (p : NormPath) (mode : UInt32) :
    v.create ctx p mode = v.makeWith p fun par slots k =>
      (firstClear v.bitmap).elim (fail (-ENOSPC)) fun f =>
        done 0 [f] { v with
          bitmap := bitSet v.bitmap f
          nodes := v.setEntry p.parent par slots k p.name par.mtime
            (some (fileNode ctx mode f)) } := by
  unfold View.create View.makeWith
  cases v.dirAt p.parent with
  | error rc => rfl
  | ok dir =>
    dsimp only
    cases freeSlot dir.2 <;> cases firstClear v.bitmap <;> rfl

/-- `fs_create` on a well-formed disk. -/
theorem fsCreate_refines (hW : WellFormed d) (ctx : Ctx) (u : Stack) (p : NormPath)
    (mode : UInt32) :
    Refines d (fsCreate ctx u p.str mode d) ((view d).create ctx p mode) := by
  have hT := hW.toTree
  rw [fsCreate_eq, View.create_eq]
  refine lookupNew_refines hW u p _ _ fun {P s} hP hdir hr hname hslot => ?_
  obtain ⟨hD2, hD', hD''⟩ := hT.dirData_range hP hdir
  simp only [createEntry, allocBlk_eq u hT.one_lt, view_bitmap]
  -- No free block, or the first one becomes the inode.
  cases hf : firstClear (d.blk 1) with
  | none =>
    simp only [ok_bind, show -ENOSPC < 0 by decide, if_true, Option.elim_none]
    exact refines_fail d _
  | some f =>
    obtain ⟨-, hf3, hf', -⟩ := firstClear_eq_some.mp hf
    simp only [ok_bind, show ¬ ((f : ℤ) < 0) by omega, if_false, Option.elim_some,
      strcpyName_eq _ hslot.1 hname, blockWrite_of_lt _ _ (show 0 < f by omega) hf',
      blockWrite_of_lt _ _ (show 0 < (inodeAt d P).ptr 0 by omega) hD']
    obtain ⟨hW', hv⟩ := hW.created ctx u mode hP hdir hr p.name_isName hname hslot hf rfl
    refine refines_done rfl hW' hv ⟨?_, fun n hn hh => ?_⟩
    · simp only [Disk.write_nblks, alloc_nblks hT.one_lt]
      omega
    · have hfn := hh f (by simp)
      simp only [Disk.write_nblks, alloc_nblks hT.one_lt]
      omega

/-! ## `fs_mkdir` -/

/-- What a new directory looks like. -/
def dirNode (ctx : Ctx) (mode : UInt32) (f b : ℕ) : LiveNode :=
  { inum := f, uid := ctx.uid.toUInt16, gid := ctx.gid.toUInt16, mode := newMode mode S_IFDIR
    ctime := ctx.now, mtime := ctx.now, size := 4096, ptrs := [b], body := .dir fun _ => none }

/-- A new directory is one. -/
theorem newDir_isDir (ctx : Ctx) (u : Stack) (mode : UInt32) (b : ℤ) :
    (newDir ctx u mode b).isDir = true := by
  rw [Inode.isDir, newDir, newMode, sIsDir_perm_or _ _ (by decide)]
  decide

/-- A new directory has its data in the block that it was given. -/
theorem newDir_ptr (ctx : Ctx) (u : Stack) (mode : UInt32) {b : ℕ} (hb : b < 32768) :
    (newDir ctx u mode b).ptr 0 = b := by
  rw [Inode.ptr, dif_pos (by omega), newDir]
  simp only [Fin.zero_eta, if_true]
  exact toNat_ofInt_u32 hb

/-- A new directory is an empty one with the caller as its owner. -/
theorem nodeView_newDir {ctx : Ctx} {u : Stack} {mode : UInt32} {f b : ℕ} (hb : b < 32768)
    (h : inodeAt d f = newDir ctx u mode b) (hz : d.blk b = Bytes.zero) :
    nodeView d f = dirNode ctx mode f b ∧ NodeOk d f := by
  have hdir : (inodeAt d f).isDir = true := by rw [h, newDir_isDir]
  have hsize : (inodeAt d f).size.toInt = 4096 := by rw [h]; rfl
  have hptr : (inodeAt d f).ptr 0 = b := by rw [h, newDir_ptr ctx u mode hb]
  have hD : dirBlock d f = Bytes.zero := by rw [dirBlock, hptr, hz]
  have hslot : slot (dirBlock d f) = fun _ => none := by
    rw [hD]
    exact funext slot_zero
  have hinvalid : ∀ s, direntValid (dirBlock d f) s = false := fun s =>
    slot_eq_none.mp (congrFun hslot s)
  have hnode : NodeOk d f := by
    rw [NodeOk, if_pos hdir]
    exact ⟨hsize, by simp [hinvalid], by simp [hinvalid], by simp [hinvalid], by simp [hinvalid]⟩
  refine ⟨?_, hnode⟩
  have hbody : bodyOf d (inodeAt d f) = .dir fun _ => none := by
    rw [bodyOf, if_pos hdir, ← dirBlock, hslot]
  simp only [nodeView, hnode.nblocks_dir hdir, List.range_one, List.map_singleton, hptr, hbody]
  rw [h]
  rfl

/-- The image after `fs_mkdir` has bound a new directory. -/
def Disk.madeDir (d : Disk) (ctx : Ctx) (u : Stack) (mode : UInt32) (D s f b : ℕ) (blk : Block)
    (name : CString) : Disk :=
  ((((d.alloc f).alloc b).write b Bytes.zero).write f (newDir ctx u mode b).toBlock).write D
    (setDirentInode ((setDirentValid blk s true).blit (32 * s + 4) (name ++ [0])) s f)

section

variable (hW : WellFormed d) (ctx : Ctx) (u : Stack) {p : Path} {n : CString} {P s f b : ℕ}
  (mode : UInt32) (hP : resolve d p = some P) (hdir : (inodeAt d P).isDir = true)
  (hnone : resolve d (p ++ [n]) = none) (hn : IsName n) (hlen : n.length ≤ 27)
  (hs : s < 128 ∧ slot (dirBlock d P) s = none) (hf : firstClear (d.blk 1) = some f)
  (hb : firstClear (bitSet (d.blk 1) f) = some b)
include hW hP hdir hnone hn hlen hs hf hb

/-- The disk with a new directory is well-formed, and shows it. -/
theorem WellFormed.madeDir {d' : Disk}
    (hd' : d' = d.madeDir ctx u mode ((inodeAt d P).ptr 0) s f b (dirBlock d P) n) :
    WellFormed d' ∧ view d' =
      { view d with
        bitmap := bitSet (bitSet (d.blk 1) f) b
        nodes := (view d).setEntry p (nodeView d P) (slot (dirBlock d P)) s n (nodeView d P).mtime
          (some (dirNode ctx mode f b)) } := by
  have hT := hW.toTree
  have h1 := hT.one_lt
  obtain ⟨hbf, hf3, hf', -⟩ := firstClear_eq_some.mp hf
  obtain ⟨hbb, hb3, hb', -⟩ := firstClear_eq_some.mp hb
  rw [bit_bitSet _ hf', Bool.or_eq_false_iff, decide_eq_false_iff_not] at hbb
  obtain ⟨hbne, hbb⟩ := hbb
  obtain ⟨hD2, hD', hD''⟩ := hT.dirData_range hP hdir
  -- Neither of the free blocks is the data block of the parent.
  have hmark : bit (d.blk 1) ((inodeAt d P).ptr 0) = true :=
    (hW.exact _ hD').mpr (.inr (.inr ⟨_, Tree.dirData_live hP hdir⟩))
  have hDf : f ≠ (inodeAt d P).ptr 0 := by
    rintro rfl
    rw [hmark] at hbf
    cases hbf
  have hDb : b ≠ (inodeAt d P).ptr 0 := by
    rintro rfl
    rw [hmark] at hbb
    cases hbb
  have hnb : ((d.alloc f).alloc b).nblks = d.nblks := by
    rw [alloc_nblks (by rw [alloc_nblks h1]; exact h1), alloc_nblks h1]
  have hbD : d'.blk ((inodeAt d P).ptr 0) = setDirentInode
      ((setDirentValid (dirBlock d P) s true).blit (32 * s + 4) (n ++ [0])) s f := by
    rw [hd', Disk.madeDir, Disk.write_blk_self]
  have hbf' : d'.blk f = (newDir ctx u mode b).toBlock := by
    rw [hd', Disk.madeDir, Disk.write_blk_of_lt _ _ _ (by simp [hnb]; omega), if_neg hDf,
      Disk.write_blk_self]
  have hbz : d'.blk b = Bytes.zero := by
    rw [hd', Disk.madeDir, Disk.write_blk_of_lt _ _ _ (by simp [hnb]; omega), if_neg hDb,
      Disk.write_blk_of_ne _ _ _ hbne (by simp), Disk.write_blk_self]
  have hblk : ∀ j < d.nblks, j ≠ (inodeAt d P).ptr 0 → j ≠ f → j ≠ b →
      d'.blk j = ((d.alloc f).alloc b).blk j := by
    intro j hj hjD hjf hjb
    rw [hd', Disk.madeDir, Disk.write_blk_of_lt _ _ _ (by simp [hnb]; omega), if_neg hjD,
      Disk.write_blk_of_ne _ _ _ hjf (by simp [hnb]; omega),
      Disk.write_blk_of_ne _ _ _ hjb (by omega)]
  have halloc : ∀ j, ((d.alloc f).alloc b).blk j =
      if j = 1 then bitSet (bitSet (d.blk 1) f) b else d.blk j := by
    intro j
    rw [alloc_blk (by rw [alloc_nblks h1]; exact h1), alloc_blk h1 f 1, if_pos rfl,
      alloc_blk h1 f j]
    by_cases hj : j = 1
    · rw [if_pos hj, if_pos hj]
    · rw [if_neg hj, if_neg hj, if_neg hj]
  have hb1 : d'.blk 1 = bitSet (bitSet (d.blk 1) f) b := by
    rw [hblk 1 h1 (by omega) (by omega) (by omega), halloc, if_pos rfl]
  have hx : inodeAt d' f = newDir ctx u mode b := by rw [inodeAt, hbf', Inode.ofBlock_toBlock]
  obtain ⟨hview, hnode⟩ := nodeView_newDir hb' hx hbz
  have hptrs : (nodeView d' f).ptrs = [b] := by rw [hview]; rfl
  have hle : d.nblks ≤ d'.nblks := by rw [hd']; simp [Disk.madeDir, hnb]
  have hlt : f < d'.nblks ∧ b < d'.nblks := by
    rw [hd', Disk.madeDir, Disk.write_nblks, Disk.write_nblks, Disk.write_nblks]
    omega
  have h := hW.bind hP hdir hnone hn hs.2 (by
      rw [hbD]
      exact slotSet_mkdir _ hs.1 hlen hn.noNul (by omega)) hle hnode
    (fun m => by
      rw [entry, hx, newDir_isDir, if_pos rfl, dirBlock, hx, newDir_ptr ctx u mode hb',
        hbz, dirEntry, findDirent]
      simp [slot_eq_none.mp (slot_zero _)])
    (by simpa [hptrs] using Ne.symm hbne)
    (by
      rw [hptrs]
      simpa using ⟨⟨⟨by omega, hf', hlt.1⟩, hbf⟩, ⟨by omega, hb', hlt.2⟩, hbb⟩)
    (by
      intro j _
      rw [hb1, bit_bitSet _ hb', bit_bitSet _ hf', hptrs]
      simp [or_comm, or_left_comm, or_assoc])
    (by
      intro j hj hj1 hjD hjf
      rw [hptrs, List.mem_cons, List.mem_singleton, not_or] at hjf
      rw [hblk j hj hjD hjf.1 hjf.2, halloc, if_neg hj1])
  rw [hview, hb1] at h
  exact h

end

/-- A block that is handed out and given back leaves every block as it was. -/
theorem free_alloc (h1 : 1 < d.nblks) {f : ℕ} (hf : firstClear (d.blk 1) = some f) :
    ((d.alloc f).free f).nblks = d.nblks ∧ ((d.alloc f).free f).blk = d.blk := by
  obtain ⟨hbf, -, hf', -⟩ := firstClear_eq_some.mp hf
  have h1' : 1 < (d.alloc f).nblks := by rw [alloc_nblks h1]; exact h1
  refine ⟨by rw [free_nblks h1', alloc_nblks h1], ?_⟩
  funext j
  rw [free_blk h1', alloc_blk h1 f 1, if_pos rfl, bitClear_bitSet hf' hbf, alloc_blk h1]
  by_cases hj : j = 1
  · rw [if_pos hj, hj]
  · rw [if_neg hj, if_neg hj]

/-- `mkdir` makes a node with two new blocks. -/
theorem View.mkdir_eq (v : View) (ctx : Ctx) (p : NormPath) (mode : UInt32) :
    v.mkdir ctx p mode = v.makeWith p fun par slots k =>
      (firstClear v.bitmap).elim (fail (-ENOSPC)) fun f =>
        (firstClear (bitSet v.bitmap f)).elim (.ok ⟨-ENOSPC, [f], none⟩) fun b =>
          done 0 [b, f] { v with
            bitmap := bitSet (bitSet v.bitmap f) b
            nodes :=
              v.setEntry p.parent par slots k p.name par.mtime (some (dirNode ctx mode f b)) } := by
  unfold View.mkdir View.makeWith
  cases v.dirAt p.parent with
  | error rc => rfl
  | ok dir =>
    dsimp only
    cases freeSlot dir.2 with
    | none => rfl
    | some k =>
      -- Two blocks are needed; with one alone the call fails though it was handed out.
      cases firstClear v.bitmap with
      | none => rfl
      | some f =>
        cases h : firstClear (bitSet v.bitmap f) with
        | none => simp only [h, Option.elim]
        | some b =>
          simp only [h, Option.elim]
          rfl

/-- `fs_mkdir` on a well-formed disk. -/
theorem fsMkdir_refines (hW : WellFormed d) (ctx : Ctx) (u : Stack) (p : NormPath) (mode : UInt32) :
    Refines d (fsMkdir ctx u p.str mode d) ((view d).mkdir ctx p mode) := by
  have hT := hW.toTree
  rw [fsMkdir_eq, View.mkdir_eq]
  refine lookupNew_refines hW u p _ _ fun {P s} hP hdir hr hname hslot => ?_
  obtain ⟨hD2, hD', hD''⟩ := hT.dirData_range hP hdir
  simp only [mkdirEntry, allocBlk_eq u hT.one_lt, view_bitmap]
  cases hf : firstClear (d.blk 1) with
  | none =>
    simp only [ok_bind, show -ENOSPC < 0 by decide, if_true, Option.elim_none]
    exact refines_fail d _
  | some f =>
    obtain ⟨-, hf3, hf', -⟩ := firstClear_eq_some.mp hf
    have h1' : 1 < (d.alloc f).nblks := by rw [alloc_nblks hT.one_lt]; exact hT.one_lt
    have hbm : (d.alloc f).blk 1 = bitSet (d.blk 1) f := by
      rw [alloc_blk hT.one_lt, if_pos rfl]
    simp only [ok_bind, show ¬ ((f : ℤ) < 0) by omega, if_false, Option.elim_some,
      allocBlk_eq u h1', hbm]
    cases hb : firstClear (bitSet (d.blk 1) f) with
    | none =>
      simp only [ok_bind, show -ENOSPC < 0 by decide, if_true, freeBlk_eq u h1' hf',
        Option.elim_none]
      -- The block of the inode was handed out and is free again.
      exact ⟨rfl, rfl, fun _ => free_alloc hT.one_lt hf, (fun _ h => by cases h),
        .of_eq _ (free_alloc hT.one_lt hf).1⟩
    | some b =>
      obtain ⟨-, hb3, hb', -⟩ := firstClear_eq_some.mp hb
      simp only [ok_bind, show ¬ ((b : ℤ) < 0) by omega, if_false, Option.elim_some,
        blockWrite_of_lt _ _ (show 0 < b by omega) hb',
        blockWrite_of_lt _ _ (show 0 < f by omega) hf', strcpyName_eq _ hslot.1 hname,
        blockWrite_of_lt _ _ (show 0 < (inodeAt d P).ptr 0 by omega) hD']
      obtain ⟨hW', hv⟩ := hW.madeDir ctx u mode hP hdir hr p.name_isName hname hslot hf hb rfl
      refine refines_done rfl hW' hv ⟨?_, fun n hn hh => ?_⟩
      · simp only [Disk.write_nblks, alloc_nblks h1', alloc_nblks hT.one_lt]
        omega
      · have hbn := hh b (by simp)
        have hfn := hh f (by simp)
        simp only [Disk.write_nblks, alloc_nblks h1', alloc_nblks hT.one_lt]
        omega

end Cs5600.Lab4
