import Cs5600.Lab4.Listing

/-!
# Directories of several blocks

An image may hold directories of more than one block, as `/dir2` of `disk1.in`, and `read-img.py`
goes through all of their blocks. The file system looks at `ptrs[0]` alone: an entry in another
block is neither found nor listed nor in the way of `fs_rmdir`, which frees only the first block.
`handles_iff` says on which images this makes no difference.
-/

namespace Cs5600.Lab4

variable {d : Disk}

/-! ## Images with such directories -/

/-- Block `j` of the data of inode `i`. -/
def dataBlock (d : Disk) (i j : ℕ) : Block := d.blk ((inodeAt d i).ptr j)

/-- One of the blocks of directory `i` has a valid entry with inode number `f` and name `n`. -/
def HasEntry (d : Disk) (i f : ℕ) (n : CString) : Prop :=
  ∃ j < (inodeAt d i).nblocks, ∃ s, slot (dataBlock d i j) s = some (f, n)

/-- What directory `i` binds a name to, in the first of its blocks that binds it. -/
def wideEntry (d : Disk) (i : ℕ) (n : CString) : Option ℕ :=
  if (inodeAt d i).isDir then
    (List.range (inodeAt d i).nblocks).findSome? fun j => dirEntry (dataBlock d i j) n
  else none

/-- The inode number of a path, looked up in all blocks of the directories on the way. -/
def wideResolve (d : Disk) (p : Path) : Option ℕ := walk (wideEntry d) 2 p

/-- A directory whose entries are in `ptrs[0]` to `ptrs[k-1]`, for a size of `4096 * k`. -/
structure WideDir (d : Disk) (i : ℕ) : Prop where
  size : (inodeAt d i).size.toInt = 4096 * (inodeAt d i).nblocks
  pos : 0 < (inodeAt d i).nblocks
  le : (inodeAt d i).nblocks ≤ 1019
  range : ∀ j < (inodeAt d i).nblocks, 2 ≤ (inodeAt d i).ptr j ∧ (inodeAt d i).ptr j < 32768 ∧
    (inodeAt d i).ptr j < d.nblks ∧ bit (d.blk 1) ((inodeAt d i).ptr j) = true
  ne_self : ∀ j < (inodeAt d i).nblocks, (inodeAt d i).ptr j ≠ i
  inj : ∀ j < (inodeAt d i).nblocks, ∀ k < (inodeAt d i).nblocks,
    (inodeAt d i).ptr j = (inodeAt d i).ptr k → j = k
  dirOk : ∀ j < (inodeAt d i).nblocks, DirOk (dataBlock d i j)
  distinct : ∀ j < (inodeAt d i).nblocks, ∀ k < (inodeAt d i).nblocks, ∀ s t f g n,
    slot (dataBlock d i j) s = some (f, n) → slot (dataBlock d i k) t = some (g, n) → j = k

/-- Every path leads to an inode in the image that the bitmap marks, and every directory is one of
several good blocks. -/
structure WideTree (d : Disk) : Prop where
  root : (inodeAt d 2).isDir = true
  range : ∀ p i, wideResolve d p = some i →
    2 ≤ i ∧ i < 32768 ∧ i < d.nblks ∧ bit (d.blk 1) i = true
  dir : ∀ p i, wideResolve d p = some i → (inodeAt d i).isDir = true → WideDir d i

/-! ## What the operations owe to such directories -/

/-- The operations look at every block of a directory: `path2inum` finds the names of all blocks,
`fs_readdir` reports all blocks, `fs_rmdir` fails exactly when one of them has an entry, and clears
the bits of the inode and of all blocks when it succeeds. -/
structure Handles (ctx : Ctx) (u : Stack) (d : Disk) : Prop where
  lookup : ∀ (p : AbsPath) (hp : p.comps.length ≤ 9) (i : ℕ), wideResolve d p.comps = some i →
    (inodeAt d i).isDir = true → ∀ (n : CString) (hn : IsName n) (f : ℕ),
      path2inum u d (p.child hp hn).str = f ↔ HasEntry d i f n
  list : ∀ (p : AbsPath) (i : ℕ), wideResolve d p.comps = some i → (inodeAt d i).isDir = true →
    ∃ rc, fsReaddir u 128 p.str d = .ok (rc, (List.range (inodeAt d i).nblocks).flatMap fun j =>
      (List.range 128).filterMap (reported d (dataBlock d i j)))
  notEmpty : ∀ (p : NormPath) (i : ℕ), wideResolve d p.comps = some i →
    (inodeAt d i).isDir = true →
      ((∃ d', fsRmdir ctx u p.str d = .ok (-ENOTEMPTY, d')) ↔ ∃ f n, HasEntry d i f n)
  freed : ∀ (p : NormPath) (i : ℕ), wideResolve d p.comps = some i → (inodeAt d i).isDir = true →
    ∀ d', fsRmdir ctx u p.str d = .ok (0, d') → ∀ b < 32768,
      bit (d'.blk 1) b = true ↔
        bit (d.blk 1) b = true ∧ b ≠ i ∧ ∀ j < (inodeAt d i).nblocks, b ≠ (inodeAt d i).ptr j

/-- No directory has an entry behind its first block, and a directory of several blocks, other than
the root, has one in its first block. -/
def FirstBlockOnly (d : Disk) : Prop :=
  ∀ (p : AbsPath) (i : ℕ), wideResolve d p.comps = some i → (inodeAt d i).isDir = true →
    (∀ j, 0 < j → j < (inodeAt d i).nblocks → ∀ s, slot (dataBlock d i j) s = none) ∧
    (p.comps ≠ [] → 1 < (inodeAt d i).nblocks → ∃ s, slot (dataBlock d i 0) s ≠ none)

/-! ## The walk through first blocks -/

/-- A path leads to what its parent binds its name to. -/
theorem wideResolve_concat (d : Disk) (p : Path) (n : CString) :
    wideResolve d (p ++ [n]) = (wideResolve d p).bind fun i => wideEntry d i n := walk_concat _ _ _

/-- What a directory binds a name to is what one of its entries says. -/
theorem WideDir.wideEntry_eq_some {i f : ℕ} {n : CString} (h : WideDir d i)
    (hdir : (inodeAt d i).isDir = true) : wideEntry d i n = some f ↔ HasEntry d i f n := by
  rw [wideEntry, if_pos hdir]
  constructor
  · intro hf
    obtain ⟨j, hj, hentry⟩ := List.exists_of_findSome?_eq_some hf
    have hlt := List.mem_range.mp hj
    exact ⟨j, hlt, (dirEntry_eq_some (h.dirOk j hlt)).mp hentry⟩
  · rintro ⟨j, hj, s, hs⟩
    have hentry : dirEntry (dataBlock d i j) n = some f :=
      (dirEntry_eq_some (h.dirOk j hj)).mpr ⟨s, hs⟩
    -- Whichever block the search stops in, the names of a directory are distinct.
    cases hf : (List.range (inodeAt d i).nblocks).findSome? fun j =>
      dirEntry (dataBlock d i j) n with
    | none =>
      have hnone := List.findSome?_eq_none_iff.mp hf j (List.mem_range.mpr hj)
      rw [hentry] at hnone
      cases hnone
    | some g =>
      obtain ⟨k, hk, hg⟩ := List.exists_of_findSome?_eq_some hf
      have hlt := List.mem_range.mp hk
      obtain ⟨t, ht⟩ := (dirEntry_eq_some (h.dirOk k hlt)).mp hg
      obtain rfl := h.distinct j hj k hlt s t f g n hs ht
      rw [← hentry, hg]

/-- The first block is one of the blocks. -/
theorem WideDir.wideEntry_of_entry {i f : ℕ} {n : CString} (h : WideDir d i)
    (he : entry d i n = some f) : wideEntry d i n = some f := by
  unfold entry at he
  split_ifs at he with hdir
  obtain ⟨s, hs⟩ := (dirEntry_eq_some (h.dirOk 0 h.pos)).mp he
  exact (h.wideEntry_eq_some hdir).mpr ⟨0, h.pos, s, hs⟩

/-- A directory with entries in its first block only binds what that block binds. -/
theorem WideDir.entry_eq {i : ℕ} (h : WideDir d i) (hdir : (inodeAt d i).isDir = true)
    (hfirst : ∀ j, 0 < j → j < (inodeAt d i).nblocks → ∀ s, slot (dataBlock d i j) s = none)
    (n : CString) : entry d i n = wideEntry d i n := by
  have hiff : ∀ f, entry d i n = some f ↔ wideEntry d i n = some f := by
    intro f
    refine ⟨h.wideEntry_of_entry, fun hf => ?_⟩
    obtain ⟨j, hj, s, hs⟩ := (h.wideEntry_eq_some hdir).mp hf
    rcases Nat.eq_zero_or_pos j with rfl | hpos
    · rw [entry, if_pos hdir]
      exact (dirEntry_eq_some (h.dirOk 0 hj)).mpr ⟨s, hs⟩
    · rw [hfirst j hpos hj s] at hs
      cases hs
  exact Option.ext hiff

namespace WideTree

variable (hT : WideTree d)
include hT

/-- The root is in the image. -/
theorem two_range : 2 < d.nblks := (hT.range [] 2 rfl).2.2.1

/-- A path through first blocks is a path. -/
theorem wideResolve_of_resolve {p : Path} {i : ℕ} (hp : resolve d p = some i) :
    wideResolve d p = some i := by
  refine walk_mono (fun q v n w hv hw => ?_) hp
  have hdir : (inodeAt d v).isDir = true := by
    unfold entry at hw
    split_ifs at hw with hdir
    exact hdir
  exact (hT.dir q v hv hdir).wideEntry_of_entry hw

/-- Every read of `path2inum` succeeds. -/
theorem walks : Walks d where
  inode_range p i hp := by
    have h := hT.range p i (hT.wideResolve_of_resolve hp)
    exact ⟨h.2.1, h.2.2.1⟩
  dir_range p i hp hdir := by
    have h := hT.dir p i (hT.wideResolve_of_resolve hp) hdir
    refine ⟨fun h0 => ?_, (h.range 0 h.pos).2.1, (h.range 0 h.pos).2.2.1⟩
    have hsize := h.size
    have hpos := h.pos
    rw [h0, show (0 : Int32).toInt = 0 by decide] at hsize
    omega
  entry_length p i n j hp he := by
    unfold entry at he
    split_ifs at he with hdir
    have h := hT.dir p i (hT.wideResolve_of_resolve hp) hdir
    obtain ⟨s, hs⟩ := (dirEntry_eq_some (h.dirOk 0 h.pos)).mp he
    exact (h.dirOk 0 h.pos).length_le hs

/-- `path2inum` is the walk through first blocks. -/
theorem path2inum_eq_iff (u : Stack) (p : AbsPath) (i : ℕ) :
    path2inum u d p.str = i ↔ resolve d p.comps = some i := by
  rw [hT.walks.path2inum_spells u p.isName p.length_le p.spells p.head_str]
  cases hr : resolve d p.comps with
  | none =>
    have hneg := walkInum_none hr
    exact ⟨fun h => by omega, fun h => (nomatch h)⟩
  | some j => rw [hT.walks.walkInum_some hr, Nat.cast_inj, Option.some.injEq]

section Dir

variable {p : Path} {i : ℕ} (hp : wideResolve d p = some i) (hdir : (inodeAt d i).isDir = true)
include hp hdir

/-- An entry leads to an inode in the image. -/
theorem child_range {j s f : ℕ} {n : CString} (hj : j < (inodeAt d i).nblocks)
    (hs : slot (dataBlock d i j) s = some (f, n)) : f < 32768 ∧ f < d.nblks := by
  have hf : wideResolve d (p ++ [n]) = some f := by
    rw [wideResolve_concat, hp, Option.bind_some]
    exact ((hT.dir p i hp hdir).wideEntry_eq_some hdir).mpr ⟨j, hj, s, hs⟩
  have h := hT.range _ f hf
  exact ⟨h.2.1, h.2.2.1⟩

/-- Every entry of a directory can be reported. -/
theorem reported_eq_none {j s : ℕ} (hj : j < (inodeAt d i).nblocks) :
    reported d (dataBlock d i j) s = none ↔ slot (dataBlock d i j) s = none := by
  cases hs : slot (dataBlock d i j) s with
  | none => exact ⟨fun _ => rfl, fun _ => by rw [reported, hs, Option.bind_none]⟩
  | some e =>
    obtain ⟨hlt, hlt'⟩ := hT.child_range hp hdir hj hs
    rw [reported, hs, Option.bind_some, readBlock_of_lt d hlt hlt', Option.map_some]
    simp only [reduceCtorEq]

/-- A listing of a block is empty when the block is. -/
theorem listing_eq_nil {j : ℕ} (hj : j < (inodeAt d i).nblocks) :
    (List.range 128).filterMap (reported d (dataBlock d i j)) = [] ↔
      ∀ s, slot (dataBlock d i j) s = none := by
  rw [List.filterMap_eq_nil_iff]
  constructor
  · intro h s
    rcases Nat.lt_or_ge s 128 with hs | hs
    · exact (hT.reported_eq_none hp hdir hj).mp (h s (List.mem_range.mpr hs))
    · exact slot_of_ge _ hs
  · intro h s _
    exact (hT.reported_eq_none hp hdir hj).mpr (h s)

/-- The inodes of all entries can be read. -/
theorem allReadable : AllReadable d (dirBlock d i) := by
  intro s _ hvalid
  obtain ⟨hlt, hlt'⟩ := hT.child_range hp hdir (hT.dir p i hp hdir).pos
    (slot_eq_some.mpr ⟨hvalid, rfl, rfl⟩ : slot (dataBlock d i 0) s = _)
  exact Option.isSome_iff_exists.mpr ⟨_, readBlock_of_lt d hlt hlt'⟩

end Dir

/-- `fs_readdir` lists the first block. -/
theorem fsReaddir_first (u : Stack) {p : AbsPath} {i : ℕ} (hp : resolve d p.comps = some i)
    (hdir : (inodeAt d i).isDir = true) :
    ∃ rc,
    fsReaddir u 128 p.str d = .ok (rc, (List.range 128).filterMap (reported d (dirBlock d i))) := by
  have hwide := hT.wideResolve_of_resolve hp
  obtain ⟨h2, hi, hi', -⟩ := hT.range _ _ hwide
  obtain ⟨-, hD, hD', -⟩ := (hT.dir _ _ hwide hdir).range 0 (hT.dir _ _ hwide hdir).pos
  have hinum := (hT.path2inum_eq_iff u p i).mpr hp
  have hx : (Inode.ofBlock (d.blk i)) = inodeAt d i := rfl
  have hlba : lbaOf ((inodeAt d i).ptr0) = (inodeAt d i).ptr 0 := lbaOf_of_lt hD
  have hscan : scanned u p.str d = some (dirBlock d i) := by
    rw [scanned, hinum, if_neg (by omega), readBlock_of_lt d hi hi', Option.bind_some, hx,
      if_pos hdir, hlba, readBlock_of_lt d hD hD', dirBlock]
  obtain ⟨rc, hrc⟩ := lists_of_readable hscan (hT.allReadable hwide hdir)
  refine ⟨rc, ?_⟩
  rw [hrc, hscan, Option.map_some, Option.getD_some]

/-- `fs_rmdir` of a directory reached through first blocks comes to its entry in the parent. -/
theorem fsRmdir_eq_entry (ctx : Ctx) (u : Stack) {p : NormPath} {i : ℕ}
    (hp : resolve d p.comps = some i) : ∃ P s, 2 ≤ P ∧ P < 32768 ∧ 2 ≤ (inodeAt d P).ptr 0 ∧
      (inodeAt d P).ptr 0 < 32768 ∧ direntInode (dirBlock d P) s = i ∧
      fsRmdir ctx u p.str d = rmdirEntry ctx u P (inodeAt d P) (dirBlock d P) s d := by
  rw [NormPath.comps, resolve_concat] at hp
  obtain ⟨P, hP, he⟩ := Option.bind_eq_some_iff.mp hp
  unfold entry at he
  split_ifs at he with hdir
  have hwide := hT.wideResolve_of_resolve hP
  obtain ⟨hP2, hP', hP'', -⟩ := hT.range _ _ hwide
  have hw := hT.dir _ _ hwide hdir
  obtain ⟨hD2, hD, hD', -⟩ := hw.range 0 hw.pos
  obtain ⟨s, hs, hi⟩ := Option.map_eq_some_iff.mp he
  have hx : Inode.ofBlock (d.blk P) = inodeAt d P := rfl
  have hlba : lbaOf ((inodeAt d P).ptr0) = (inodeAt d P).ptr 0 := lbaOf_of_lt hD
  have hblk : d.blk ((inodeAt d P).ptr 0) = dirBlock d P := rfl
  -- The names on the way are those of entries, so the parent's path fits in its buffer.
  have hshort : ¬ 298 < (render p.parent).length := by
    have hle : (render p.parent).length ≤ 28 * p.parent.length :=
      length_render_le (hT.walks.length_le hP)
    have := p.parent_lt
    omega
  refine ⟨P, s, hP2, hP', hD2, hD, hi, ?_⟩
  simp only [fsRmdir, head_str, sepPath_str, parPath_str, tokenAt_comps, ne_eq, not_true, if_false,
    show ¬ ((p.parent.length : ℤ) + 1 = 0) by omega, hshort, ok_bind, hT.walks.path2inum_parent,
    hT.walks.walkInum_some hP,
      show ¬ ((P : ℤ) < 0) by omega, blockRead_of_lt d _ hP' hP'', hx, hdir,
    Bool.not_true, Bool.false_eq_true, hlba, blockRead_of_lt d _ hD hD', hblk, hs]

section Rmdir

variable (ctx : Ctx) (u : Stack) {p : NormPath} {i : ℕ} (hp : resolve d p.comps = some i)
  (hdir : (inodeAt d i).isDir = true)
include hp hdir

/-- `fs_rmdir` returns -ENOTEMPTY when the first block has an entry. -/
theorem fsRmdir_of_full (hfull : ∃ s, slot (dirBlock d i) s ≠ none) :
    fsRmdir ctx u p.str d = .ok (-ENOTEMPTY, d) := by
  obtain ⟨P, s, -, -, -, -, hi, heq⟩ := hT.fsRmdir_eq_entry ctx u hp
  obtain ⟨-, hi', hi'', -⟩ := hT.range _ _ (hT.wideResolve_of_resolve hp)
  have hw := hT.dir _ _ (hT.wideResolve_of_resolve hp) hdir
  obtain ⟨-, hD, hD', -⟩ := hw.range 0 hw.pos
  have hx : Inode.ofBlock (d.blk i) = inodeAt d i := rfl
  have hlba : lbaOf ((inodeAt d i).ptr0) = (inodeAt d i).ptr 0 := lbaOf_of_lt hD
  have hblk : d.blk ((inodeAt d i).ptr 0) = dirBlock d i := rfl
  rw [heq, rmdirEntry]
  simp only [hi, blockRead_of_lt d _ hi' hi'', hx, hdir, Bool.not_true,
    Bool.false_eq_true, if_false, hlba, blockRead_of_lt d _ hD hD', hblk]
  cases hfind : findFull (dirBlock d i) with
  | none =>
    obtain ⟨t, ht⟩ := hfull
    exact absurd (findFull_eq_none.mp hfind t) ht
  | some t => rfl

/-- A successful `fs_rmdir` clears two bits. -/
theorem fsRmdir_of_empty (hempty : ∀ s, slot (dirBlock d i) s = none) :
    ∃ d', fsRmdir ctx u p.str d = .ok (0, d') ∧
      d'.blk 1 = bitClear (bitClear (d.blk 1) ((inodeAt d i).ptr 0)) i := by
  obtain ⟨P, s, hP, hP', hB, hB', hi, heq⟩ := hT.fsRmdir_eq_entry ctx u hp
  obtain ⟨-, hi', hi'', -⟩ := hT.range _ _ (hT.wideResolve_of_resolve hp)
  have hw := hT.dir _ _ (hT.wideResolve_of_resolve hp) hdir
  obtain ⟨-, hD, hD', -⟩ := hw.range 0 hw.pos
  have hx : Inode.ofBlock (d.blk i) = inodeAt d i := rfl
  have hlba : lbaOf ((inodeAt d i).ptr0) = (inodeAt d i).ptr 0 := lbaOf_of_lt hD
  have hlbaP : lbaOf ((inodeAt d P).ptr0) = (inodeAt d P).ptr 0 := lbaOf_of_lt hB'
  have hblk : d.blk ((inodeAt d i).ptr 0) = dirBlock d i := rfl
  have hone : 1 < d.nblks := by have := hT.two_range; omega
  have hone' : ∀ b, 1 < (d.write 1 b).nblks := by simp
  -- The first data block is empty, so the directory goes; only that block and the inode are
  -- freed.
  rw [heq, rmdirEntry]
  simp only [hi, blockRead_of_lt d _ hi' hi'', hx, hdir, Bool.not_true,
    Bool.false_eq_true, if_false, hlba, blockRead_of_lt d _ hD hD', hblk,
      findFull_eq_none.mpr hempty, freeBlk_eq u hone hD, ok_bind,
    Disk.free, freeBlk_eq u (hone' _) hi', hlbaP, blockWrite_of_lt _ _ (show 0 < P by omega) hP',
    blockWrite_of_lt _ _ (show 0 < (inodeAt d P).ptr 0 by omega) hB']
  refine ⟨_, rfl, ?_⟩
  rw [Disk.write_blk_of_ne _ _ _ (by omega) (by simp),
    Disk.write_blk_of_ne _ _ _ (by omega) (by simp), Disk.write_blk_self, Disk.write_blk_self]

end Rmdir

end WideTree

/-! ## The exact images -/

/-- The lists of a range put together are the first of them when the others are empty. -/
theorem flatMap_range_eq_first {α : Type} {f : ℕ → List α} {n : ℕ} (hn : 0 < n) :
    (List.range n).flatMap f = f 0 ↔ ∀ j, 0 < j → j < n → f j = [] := by
  obtain ⟨k, rfl⟩ : ∃ k, n = k + 1 := ⟨n - 1, by omega⟩
  rw [List.range_succ_eq_map, List.flatMap_cons, List.append_right_eq_self, List.flatMap_map,
    List.flatMap_eq_nil_iff]
  constructor
  · intro h j hpos hj
    have hnil := h (j - 1) (List.mem_range.mpr (by omega))
    rwa [show Nat.succ (j - 1) = j by omega] at hnil
  · intro h j hj
    exact h _ (Nat.succ_pos j) (Nat.succ_lt_succ (List.mem_range.mp hj))

section

variable {ctx : Ctx} {u : Stack} (hT : WideTree d)
include hT

/-- When `path2inum` finds the names of all blocks, every path leads through first blocks. -/
theorem Handles.resolve_of_wideResolve (h : Handles ctx u d) {p : AbsPath} {i : ℕ}
    (hp : wideResolve d p.comps = some i) : resolve d p.comps = some i := by
  obtain ⟨comps, hname, hlen⟩ := p
  rcases List.eq_nil_or_concat' comps with rfl | ⟨q, n, rfl⟩
  · exact hp
  have hlen' : q.length ≤ 9 := by
    rw [List.length_append, List.length_singleton] at hlen
    omega
  have hq : ∀ m ∈ q, IsName m := fun m hm => hname m (List.mem_append_left _ hm)
  have hn : IsName n := hname n (by simp)
  rw [wideResolve_concat] at hp
  obtain ⟨P, hP, he⟩ := Option.bind_eq_some_iff.mp hp
  have hdir : (inodeAt d P).isDir = true := by
    unfold wideEntry at he
    split_ifs at he with hdir
    exact hdir
  have hentry := ((hT.dir q P hP hdir).wideEntry_eq_some hdir).mp he
  have hfound := (h.lookup ⟨q, hq, by omega⟩ hlen' P hP hdir n hn i).mpr hentry
  exact (hT.path2inum_eq_iff u _ i).mp hfound

/-- Without entries behind the first blocks, every path leads through first blocks. -/
theorem FirstBlockOnly.resolve_eq (h : FirstBlockOnly d) {p : Path} (hp : ∀ n ∈ p, IsName n)
    (hlen : p.length ≤ 10) : resolve d p = wideResolve d p := by
  induction p using List.reverseRecOn with
  | nil => rfl
  | append_singleton q n ih =>
    have hlen' : q.length ≤ 10 := by
      rw [List.length_append, List.length_singleton] at hlen
      omega
    have hq : ∀ m ∈ q, IsName m := fun m hm => hp m (List.mem_append_left _ hm)
    rw [resolve_concat, wideResolve_concat, ih hq hlen']
    cases hP : wideResolve d q with
    | none => rfl
    | some P =>
      rw [Option.bind_some, Option.bind_some]
      cases hdir : (inodeAt d P).isDir with
      | false => simp [entry, wideEntry, hdir]
      | true => exact (hT.dir q P hP hdir).entry_eq hdir (h ⟨q, hq, hlen'⟩ P hP hdir).1 n

/-- With no entry behind the first block, the entries are those of the first block. -/
theorem hasEntry_iff_first {p : Path} {i f : ℕ} {n : CString} (hp : wideResolve d p = some i)
    (hdir : (inodeAt d i).isDir = true)
    (hfirst : ∀ j, 0 < j → j < (inodeAt d i).nblocks → ∀ s, slot (dataBlock d i j) s = none) :
    HasEntry d i f n ↔ ∃ s, slot (dirBlock d i) s = some (f, n) := by
  constructor
  · rintro ⟨j, hj, s, hs⟩
    rcases Nat.eq_zero_or_pos j with rfl | hpos
    · exact ⟨s, hs⟩
    · rw [hfirst j hpos hj s] at hs
      cases hs
  · rintro ⟨s, hs⟩
    exact ⟨0, (hT.dir p i hp hdir).pos, s, hs⟩

/-- On images whose directories have their entries in the first block, the operations handle
directories of several blocks. -/
theorem FirstBlockOnly.handles (h : FirstBlockOnly d) : Handles ctx u d where
  lookup p hp i hi hdir n hn f := by
    have hres : resolve d (p.comps ++ [n]) = wideResolve d (p.comps ++ [n]) :=
      h.resolve_eq hT (p.child hp hn).isName (p.child hp hn).length_le
    have hchild : (p.child hp hn).comps = p.comps ++ [n] := rfl
    rw [hT.path2inum_eq_iff, hchild, hres, wideResolve_concat, hi, Option.bind_some]
    exact (hT.dir _ _ hi hdir).wideEntry_eq_some hdir
  list p i hi hdir := by
    have hp : resolve d p.comps = some i := (h.resolve_eq hT p.isName p.length_le).trans hi
    obtain ⟨rc, hrc⟩ := hT.fsReaddir_first u hp hdir
    have hrest := (flatMap_range_eq_first (hT.dir _ _ hi hdir).pos).mpr fun j hpos hj =>
      (hT.listing_eq_nil hi hdir hj).mpr ((h p i hi hdir).1 j hpos hj)
    rw [hrest, hrc]
    exact ⟨rc, rfl⟩
  notEmpty p i hi hdir := by
    have hp : resolve d p.comps = some i :=
      (h.resolve_eq hT p.isName p.toAbsPath.length_le).trans hi
    have hfirst := (h p.toAbsPath i hi hdir).1
    simp only [hasEntry_iff_first hT hi hdir hfirst]
    by_cases hfull : ∃ s, slot (dirBlock d i) s ≠ none
    · obtain ⟨s, hs⟩ := hfull
      obtain ⟨e, he⟩ := Option.ne_none_iff_exists'.mp hs
      exact ⟨fun _ => ⟨e.1, e.2, s, he⟩, fun _ => ⟨d, hT.fsRmdir_of_full ctx u hp hdir ⟨s, hs⟩⟩⟩
    · push Not at hfull
      obtain ⟨d', hd', -⟩ := hT.fsRmdir_of_empty ctx u hp hdir hfull
      constructor
      · rintro ⟨d'', hd''⟩
        rw [hd'] at hd''
        cases hd''
      · rintro ⟨f, n, s, hs⟩
        rw [hfull s] at hs
        cases hs
  freed p i hi hdir d' hd' b hb := by
    have hp : resolve d p.comps = some i :=
      (h.resolve_eq hT p.isName p.toAbsPath.length_le).trans hi
    have hw := hT.dir _ _ hi hdir
    by_cases hfull : ∃ s, slot (dirBlock d i) s ≠ none
    · rw [hT.fsRmdir_of_full ctx u hp hdir hfull] at hd'
      cases hd'
    · have hmany := (h p.toAbsPath i hi hdir).2
      -- A directory of several blocks would have had an entry in the way.
      have hone : (inodeAt d i).nblocks = 1 := by
        by_contra hne
        have hpos := hw.pos
        exact hfull (hmany (by simp [NormPath.comps]) (by omega))
      push Not at hfull
      obtain ⟨d'', hd'', hmap⟩ := hT.fsRmdir_of_empty ctx u hp hdir hfull
      obtain ⟨-, rfl⟩ := Prod.mk.inj (Except.ok.inj (hd'.symm.trans hd''))
      rw [hmap, bit_bitClear _ (hT.range _ _ hi).2.1, bit_bitClear _ (hw.range 0 hw.pos).2.1, hone]
      simp only [Bool.and_eq_true, Bool.not_eq_true', decide_eq_false_iff_not, Nat.lt_one_iff,
        forall_eq]
      constructor
      · rintro ⟨hself, h0, hbit⟩
        exact ⟨hbit, hself, h0⟩
      · rintro ⟨hbit, hself, h0⟩
        exact ⟨hself, h0, hbit⟩

/-- The operations handle directories of several blocks on no other image. -/
theorem Handles.firstBlockOnly (h : Handles ctx u d) : FirstBlockOnly d := by
  intro p i hi hdir
  have hp := h.resolve_of_wideResolve hT hi
  have hw := hT.dir _ _ hi hdir
  constructor
  · intro j hpos hj s
    obtain ⟨rc, hrc⟩ := hT.fsReaddir_first u hp hdir
    obtain ⟨rc', hrc'⟩ := h.list p i hi hdir
    have hlists := (Prod.mk.inj (Except.ok.inj (hrc'.symm.trans hrc))).2
    exact (hT.listing_eq_nil hi hdir hj).mp ((flatMap_range_eq_first hw.pos).mp hlists j hpos hj) s
  · intro hne hmany
    by_contra hempty
    push Not at hempty
    obtain ⟨q, n, hq⟩ := (List.eq_nil_or_concat' p.comps).resolve_left hne
    have hlen := p.length_le
    rw [hq, List.length_append, List.length_singleton] at hlen
    let r : NormPath := ⟨q, n, fun m hm => p.isName m (by rw [hq]; exact List.mem_append_left _ hm),
      p.isName n (by rw [hq]; simp), by omega⟩
    have hr : r.comps = p.comps := hq.symm
    rw [← hr] at hi hp
    obtain ⟨d', hd', hmap⟩ := hT.fsRmdir_of_empty ctx u hp hdir hempty
    -- The bit of the second block is still set.
    obtain ⟨-, hlt, -, hbit⟩ := hw.range 1 hmany
    have hkept : bit (d'.blk 1) ((inodeAt d i).ptr 1) = true := by
      have h0 : (inodeAt d i).ptr 1 ≠ (inodeAt d i).ptr 0 := fun h0 => by
        have := hw.inj 1 hmany 0 hw.pos h0
        omega
      rw [hmap, bit_bitClear _ (hT.range _ _ hi).2.1, bit_bitClear _ (hw.range 0 hw.pos).2.1, hbit,
        decide_eq_false (hw.ne_self 1 hmany), decide_eq_false h0]
      rfl
    exact ((h.freed r i hi hdir d' hd' _ hlt).mp hkept).2.2 1 hmany rfl

/-- The operations handle directories of several blocks exactly on the images on which no directory
has an entry behind its first block, and none of several blocks, other than the root, is empty. -/
theorem handles_iff (ctx : Ctx) (u : Stack) : Handles ctx u d ↔ FirstBlockOnly d :=
  ⟨Handles.firstBlockOnly hT, FirstBlockOnly.handles hT⟩

end

/-- A root directory of size 8192 with its data in blocks 3 and 4. -/
def twoRoot : Inode :=
  { genRoot 3 with
    size := 8192
    ptrs := fun k => if (k : ℕ) = 0 then 3 else if (k : ℕ) = 1 then 4 else 0 }

/-- The bitmap of an image of 6 blocks that are all in use. -/
def twoBitmap : Block := bitSet (bitSet (genBitmap 3) 4) 5

/-- An image of 6 blocks: a root directory whose second block is `second`, and the inode 5 of an
empty file. -/
def twoDisk (second : Block) : Disk where
  nblks := 6
  blk := fun i =>
    if i = 0 then genSuper 6
    else if i = 1 then twoBitmap
    else if i = 2 then twoRoot.toBlock
    else if i = 4 then second
    else Bytes.zero
  handed := []

/-- A directory block whose first entry is the file `a` of inode 5. -/
def blockA : Block :=
  setDirentInode (setDirentValid (Bytes.zero.blit (32 * 0 + 4) ([97] ++ [0])) 0 true) 0 (5 : ℕ)

/-- The block has the entry `a` in its first slot. -/
theorem slotSet_blockA : SlotSet Bytes.zero blockA 0 (some (5, [97])) :=
  slotSet_create Bytes.zero (by norm_num) (by decide) (by decide) (by norm_num)

section

variable {second : Block}

/-- The root inode of the image. -/
theorem twoDisk_root : inodeAt (twoDisk second) 2 = twoRoot := Inode.ofBlock_toBlock _

/-- The root has two blocks. -/
theorem twoRoot_nblocks : twoRoot.nblocks = 2 := by decide

/-- The blocks of the root are 3 and 4. -/
theorem twoRoot_ptr : twoRoot.ptr 0 = 3 ∧ twoRoot.ptr 1 = 4 := by decide

/-- The root is a directory. -/
theorem twoRoot_isDir : twoRoot.isDir = true := by
  show sIsDir 0o040777 = true
  decide

/-- The blocks 2 to 5 are marked. -/
theorem bit_twoBitmap {i : ℕ} (h2 : 2 ≤ i) (h5 : i ≤ 5) : bit twoBitmap i = true := by
  rw [twoBitmap, bit_bitSet _ (by norm_num), bit_bitSet _ (by norm_num), Bool.or_eq_true,
    Bool.or_eq_true, decide_eq_true_iff, decide_eq_true_iff, bit_genBitmap (by norm_num)]
  omega

/-- The root of the image has two blocks. -/
theorem twoDisk_nblocks : (inodeAt (twoDisk second) 2).nblocks = 2 := by
  rw [twoDisk_root, twoRoot_nblocks]

/-- The blocks of the root are 3 and 4. -/
theorem twoDisk_ptr {j : ℕ} (hj : j < 2) : (inodeAt (twoDisk second) 2).ptr j = 3 + j := by
  rw [twoDisk_root]
  interval_cases j
  · exact twoRoot_ptr.1
  · exact twoRoot_ptr.2

/-- The first block of the root is empty. -/
theorem twoDisk_first : dataBlock (twoDisk second) 2 0 = Bytes.zero := by
  rw [dataBlock, twoDisk_ptr (by norm_num)]
  rfl

/-- The second block of the root is the one that is given. -/
theorem twoDisk_second : dataBlock (twoDisk second) 2 1 = second := by
  rw [dataBlock, twoDisk_ptr (by norm_num)]
  rfl

/-- The entries of the root are those of its second block. -/
theorem twoDisk_slot {j s : ℕ} {e : ℕ × CString} (hj : j < 2)
    (hs : slot (dataBlock (twoDisk second) 2 j) s = some e) : j = 1 ∧ slot second s = some e := by
  interval_cases j
  · rw [twoDisk_first, slot_zero] at hs
    cases hs
  · rw [twoDisk_second] at hs
    exact ⟨rfl, hs⟩

/-- Inode 5 is a file. -/
theorem twoDisk_file : (inodeAt (twoDisk second) 5).isDir = false := by
  have hfive : inodeAt (twoDisk second) 5 = Inode.ofBlock Bytes.zero := rfl
  rw [hfive]
  decide

/-- The entries of an empty block are proper. -/
theorem dirOk_zero : DirOk Bytes.zero := by
  have h : ∀ s, direntValid Bytes.zero s ≠ true := fun s => by
    rw [slot_eq_none.mp (slot_zero s)]
    decide
  exact ⟨fun s _ hs => absurd hs (h s), fun s _ hs => absurd hs (h s),
    fun s _ hs => absurd hs (h s), fun s _ _ _ hs => absurd hs (h s)⟩

section

variable (hsecond : DirOk second) (hfile : ∀ s f n, slot second s = some (f, n) → f = 5)
include hsecond

/-- The root is a directory of two blocks. -/
theorem twoDisk_wideDir : WideDir (twoDisk second) 2 := by
  have hnb : (inodeAt (twoDisk second) 2).nblocks = 2 := twoDisk_nblocks
  have hmap : (twoDisk second).blk 1 = twoBitmap := rfl
  have hnblks : (twoDisk second).nblks = 6 := rfl
  refine ⟨?_, ?_, ?_, ?_, ?_, ?_, ?_, ?_⟩
  -- The two blocks of the root: range, marks, and no name twice.
  · rw [hnb, twoDisk_root]
    rfl
  · omega
  · omega
  · intro j hj
    rw [hnb] at hj
    rw [twoDisk_ptr hj, hmap, hnblks]
    exact ⟨by omega, by omega, by omega, bit_twoBitmap (by omega) (by omega)⟩
  · intro j hj
    rw [hnb] at hj
    rw [twoDisk_ptr hj]
    omega
  · intro j hj k hk h
    rw [hnb] at hj hk
    rw [twoDisk_ptr hj, twoDisk_ptr hk] at h
    omega
  · intro j hj
    rw [hnb] at hj
    interval_cases j
    · rw [twoDisk_first]
      exact dirOk_zero
    · rw [twoDisk_second]
      exact hsecond
  · intro j hj k hk s t f g n hs ht
    rw [hnb] at hj hk
    rw [(twoDisk_slot hj hs).1, (twoDisk_slot hk ht).1]

include hfile

/-- Below the root there is only the file. -/
theorem twoDisk_wideResolve {p : Path} {i : ℕ} (hp : wideResolve (twoDisk second) p = some i) :
    p = [] ∧ i = 2 ∨ i = 5 := by
  have hroot : (inodeAt (twoDisk second) 2).isDir = true := twoDisk_root ▸ twoRoot_isDir
  induction p using List.reverseRecOn generalizing i with
  | nil => exact .inl ⟨rfl, (Option.some.inj hp).symm⟩
  | append_singleton q n ih =>
    rw [wideResolve_concat] at hp
    obtain ⟨P, hP, he⟩ := Option.bind_eq_some_iff.mp hp
    rcases ih hP with ⟨-, rfl⟩ | rfl
    · obtain ⟨j, hj, s, hs⟩ := ((twoDisk_wideDir hsecond).wideEntry_eq_some hroot).mp he
      rw [twoDisk_nblocks] at hj
      exact .inr (hfile s i n (twoDisk_slot hj hs).2)
    · rw [wideEntry, twoDisk_file] at he
      cases he

/-- All paths of the image lead to sound inodes. -/
theorem twoDisk_wideTree : WideTree (twoDisk second) := by
  have hmap : (twoDisk second).blk 1 = twoBitmap := rfl
  have hnblks : (twoDisk second).nblks = 6 := rfl
  refine ⟨twoDisk_root ▸ twoRoot_isDir, fun p i hp => ?_, fun p i hp hdir => ?_⟩
  · rw [hmap, hnblks]
    rcases twoDisk_wideResolve hsecond hfile hp with ⟨-, rfl⟩ | rfl
    · exact ⟨by omega, by omega, by omega, bit_twoBitmap (by omega) (by omega)⟩
    · exact ⟨by omega, by omega, by omega, bit_twoBitmap (by omega) (by omega)⟩
  · rcases twoDisk_wideResolve hsecond hfile hp with ⟨-, rfl⟩ | rfl
    · exact twoDisk_wideDir hsecond
    · rw [twoDisk_file] at hdir
      cases hdir

end

/-- The operations handle an empty root directory of two blocks. -/
theorem handles_twoDisk : Handles someCtx zeroStack (twoDisk Bytes.zero) := by
  have hfile : ∀ s f n, slot Bytes.zero s = some (f, n) → f = 5 := by
    intro s f n hs
    rw [slot_zero] at hs
    cases hs
  refine (handles_iff (twoDisk_wideTree dirOk_zero hfile) someCtx zeroStack).mpr
    fun p i hi hdir => ?_
  rcases twoDisk_wideResolve dirOk_zero hfile hi with ⟨hp, rfl⟩ | rfl
  · refine ⟨fun j hpos hj s => ?_, fun hne => absurd hp hne⟩
    rw [twoDisk_nblocks] at hj
    obtain rfl : j = 1 := by omega
    rw [twoDisk_second, slot_zero]
  · rw [twoDisk_file] at hdir
    cases hdir

/-- They do not, once there is a file in the second block. -/
theorem not_handles_twoDisk : WideTree (twoDisk blockA) ∧ HasEntry (twoDisk blockA) 2 5 [97] ∧
    ¬ Handles someCtx zeroStack (twoDisk blockA) := by
  -- The second block holds the one entry, in slot 0.
  have hslot : ∀ s f n, slot blockA s = some (f, n) → s = 0 ∧ f = 5 := by
    intro s f n hs
    by_cases h0 : s = 0
    · rw [h0, slotSet_blockA.slot_self] at hs
      cases hs
      exact ⟨h0, rfl⟩
    · rw [slotSet_blockA.slot_of_ne dirOk_zero h0, slot_zero] at hs
      cases hs
  have hA : DirOk blockA := by
    refine slotSet_blockA.dirOk dirOk_zero fun i name h => ?_
    cases h
    refine ⟨by decide, by decide, fun t j _ => ?_⟩
    rw [slot_zero]
    exact fun h => (nomatch h)
  have hT : WideTree (twoDisk blockA) := twoDisk_wideTree hA fun s f n hs => (hslot s f n hs).2
  have hroot : (inodeAt (twoDisk blockA) 2).isDir = true := twoDisk_root ▸ twoRoot_isDir
  have hone : 1 < (inodeAt (twoDisk blockA) 2).nblocks := by
    rw [twoDisk_nblocks]
    norm_num
  refine ⟨hT, ⟨1, hone, 0, ?_⟩, fun h => ?_⟩
  · rw [twoDisk_second, slotSet_blockA.slot_self]
  -- `Handles` would leave every block but the first without entries.
  · have hnone := (h.firstBlockOnly hT ⟨[], by simp, by simp⟩ 2 rfl hroot).1 1 (by norm_num) hone 0
    rw [twoDisk_second, slotSet_blockA.slot_self] at hnone
    cases hnone

end

end Cs5600.Lab4
