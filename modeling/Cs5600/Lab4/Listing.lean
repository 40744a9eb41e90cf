import Cs5600.Lab4.Namespace

/-!
# Directory listings

What `fs_readdir` hands to `filler`. Its loop goes on with the same entry after a failed read of the
entry's inode, so on an image with such an entry it never ends (`lists_iff`). On a well-formed disk
every entry has an inode in the image, and a listing agrees with what `fs_getattr` says of each name
(`fsReaddir_agrees`).
-/

namespace Cs5600.Lab4

variable {d : Disk} {b : Block}

/-! ## Any image -/

/-- What `block_read` finds in a block, when it does not fail. -/
def readBlock (d : Disk) (lba : ℤ) : Option Block :=
  if (blockRead d Bytes.zero lba).2 = 0 then some (blockRead d Bytes.zero lba).1 else none

/-- A read leaves its buffer as it was exactly when it fails. -/
theorem blockRead_cases (d : Disk) (lba : ℤ) :
    (∃ b, ∀ buf, blockRead d buf lba = (b, 0)) ∨ ∀ buf, blockRead d buf lba = (buf, - EIO) := by
  by_cases hneg : bytePos lba < 0
  · exact .inr fun buf => by rw [blockRead, if_pos hneg]
  by_cases hend : d.nblks ≤ (bytePos lba / 4096).toNat
  · exact .inr fun buf => by rw [blockRead, if_neg hneg, if_pos hend]
  · exact .inl ⟨_, fun buf => by rw [blockRead, if_neg hneg, if_neg hend]⟩

/-- A block that can be read is read. -/
theorem blockRead_of_some {lba : ℤ} (h : readBlock d lba = some b) (buf : Block) :
    blockRead d buf lba = (b, 0) := by
  unfold readBlock at h
  rcases blockRead_cases d lba with ⟨c, hc⟩ | hc
  · rw [hc, if_pos rfl] at h
    obtain rfl : c = b := Option.some.inj h
    exact hc buf
  · rw [hc, if_neg (by decide)] at h
    cases h

/-- A block that cannot be read gives -EIO and leaves the buffer. -/
theorem blockRead_of_none {lba : ℤ} (h : readBlock d lba = none) (buf : Block) :
    blockRead d buf lba = (buf, - EIO) := by
  unfold readBlock at h
  rcases blockRead_cases d lba with ⟨c, hc⟩ | hc
  · rw [hc, if_pos rfl] at h
    cases h
  · exact hc buf

/-- A block of the image can be read. -/
theorem readBlock_of_lt (d : Disk) {i : ℕ} (h : i < 32768) (hd : i < d.nblks) :
    readBlock d i = some (d.blk i) := by
  rw [readBlock, blockRead_of_lt d _ h hd, if_pos rfl]

/-- A block behind the image cannot be read. -/
theorem readBlock_of_ge (d : Disk) {i : ℕ} (h : i < 32768) (hd : d.nblks ≤ i) :
    readBlock d i = none := by
  rw [readBlock, blockRead_of_ge d _ h hd, if_neg (by decide)]

/-- What `fs_readdir` hands to `filler` for entry `s` of a directory block. -/
def reported (d : Disk) (b : Block) (s : ℕ) : Option (CString × Stat) :=
  (slot b s).bind fun e => (readBlock d e.1).map fun child =>
    (e.2, inode2stat (Inode.ofBlock child) e.1)

/-- An empty slot is not reported. -/
theorem reported_of_not_valid {s : ℕ} (h : direntValid b s = false) : reported d b s = none := by
  rw [reported, slot_eq_none.mpr h, Option.bind_none]

/-- A slot whose inode can be read is reported with its attributes. -/
theorem reported_of_valid {s : ℕ} {child : Block} (h : direntValid b s = true)
    (hchild : readBlock d (direntInode b s) = some child) :
    reported d b s = some (direntName b s, inode2stat (Inode.ofBlock child) (direntInode b s)) := by
  have hslot : slot b s = some (direntInode b s, direntName b s) := slot_eq_some.mpr ⟨h, rfl, rfl⟩
  rw [reported, hslot, Option.bind_some, hchild, Option.map_some]

/-- The directory block whose entries `fs_readdir` goes through, if it comes to that. -/
def scanned (u : Stack) (path : CString) (d : Disk) : Option Block :=
  if path2inum u d path ≤ 0 then none
  else (readBlock d (path2inum u d path)).bind fun ino =>
    if (Inode.ofBlock ino).isDir then readBlock d (lbaOf ((Inode.ofBlock ino).ptr0)) else none

/-- `fs_readdir` returns after 128 passes of its loop, and has reported the readable entries of the
directory in their order. -/
def Lists (u : Stack) (path : CString) (d : Disk) : Prop :=
  ∃ rc, fsReaddir u 128 path d =
    .ok (rc, ((scanned u path d).map fun b => (List.range 128).filterMap (reported d b)).getD [])

/-- Each valid entry of a directory block has an inode block that can be read. -/
def AllReadable (d : Disk) (b : Block) : Prop :=
  ∀ s < 128, direntValid b s = true → (readBlock d (direntInode b s)).isSome

/-- The loop over the last `fuel` entries, where each of them can be read. -/
theorem readdirLoop_of_readable (h : AllReadable d b) : ∀ (fuel s : ℕ) (childIn : Block),
    s + fuel = 128 →
    readdirLoop d b fuel s childIn = .ok ((List.range' s fuel).filterMap (reported d b)) := by
  intro fuel
  -- Induction on the entries left.
  induction fuel with
  | zero =>
    intro s childIn hs
    rw [readdirLoop, if_pos (by omega)]
    rfl
  | succ fuel ih =>
    intro s childIn hs
    rw [readdirLoop, if_neg (by omega), List.range'_succ, List.filterMap_cons]
    cases hvalid : direntValid b s with
    | false =>
      simp only [reported_of_not_valid hvalid, Bool.false_eq_true, if_false]
      exact ih (s + 1) childIn (by omega)
    | true =>
      obtain ⟨child, hchild⟩ := Option.isSome_iff_exists.mp (h s (by omega) hvalid)
      have hrest := ih (s + 1) child (by omega)
      simp only [reported_of_valid hvalid hchild, if_true, blockRead_of_some hchild,
        ne_eq, not_true, if_false, hrest, ok_bind]

/-- The loop does not get past a valid entry whose inode block cannot be read. -/
theorem readdirLoop_of_unreadable {s : ℕ} (hs : s < 128) (hvalid : direntValid b s = true)
    (hread : readBlock d (direntInode b s) = none) : ∀ (fuel t : ℕ) (childIn : Block), t ≤ s →
    readdirLoop d b fuel t childIn = .error .fuel := by
  intro fuel
  -- Induction on the fuel: no step gets past the entry that cannot be read.
  induction fuel with
  | zero =>
    intro t childIn ht
    rw [readdirLoop, if_neg (by omega)]
  | succ fuel ih =>
    intro t childIn ht
    rw [readdirLoop, if_neg (by omega)]
    rcases eq_or_lt_of_le ht with rfl | hlt
    · -- The `continue` of the failed read leads back here.
      simp only [hvalid, if_true, blockRead_of_none hread, show (- EIO : ℤ) ≠ 0 by decide, ne_eq,
        not_false_eq_true]
      exact ih t childIn ht
    · cases direntValid b t with
      | false =>
        simp only [Bool.false_eq_true, if_false]
        exact ih (t + 1) childIn hlt
      | true =>
        simp only [if_true, ih (t + 1) _ hlt, error_bind]
        split_ifs
        · exact ih t _ ht
        · rfl

/-- What `fs_readdir` does in front of its loop. -/
theorem fsReaddir_of_scanned (u : Stack) (path : CString) (fuel : ℕ)
    (h : scanned u path d = some b) :
    fsReaddir u fuel path d = (do .ok (0, ← readdirLoop d b fuel 0 (u .childIn))) := by
  unfold scanned at h
  split_ifs at h with hpos
  obtain ⟨ino, hino, h⟩ := Option.bind_eq_some_iff.mp h
  split_ifs at h with hdir
  simp only [fsReaddir, hpos, if_false, blockRead_of_some hino, hdir, blockRead_of_some h, ne_eq,
    not_true, Bool.not_true, Bool.false_eq_true]

/-- Where no directory is found, nothing is listed. -/
theorem fsReaddir_of_not_scanned (u : Stack) (path : CString) (fuel : ℕ)
    (h : scanned u path d = none) : ∃ rc, fsReaddir u fuel path d = .ok (rc, []) := by
  -- The ways out of `fs_readdir` before its loop.
  unfold scanned at h
  unfold fsReaddir
  split_ifs at h with hpos
  · exact ⟨_, if_pos hpos⟩
  simp only [hpos, if_false]
  cases hino : readBlock d (path2inum u d path) with
  | none =>
    simp only [blockRead_of_none hino]
    exact ⟨- EIO, rfl⟩
  | some ino =>
    rw [hino, Option.bind_some] at h
    simp only [blockRead_of_some hino, ne_eq, not_true, if_false]
    cases hdir : (Inode.ofBlock ino).isDir with
    | false => exact ⟨_, rfl⟩
    | true =>
      rw [hdir, if_pos rfl] at h
      simp only [blockRead_of_none h, Bool.not_true, Bool.false_eq_true, if_false]
      exact ⟨- EIO, rfl⟩

/-- Where all inodes can be read, the listing is complete. -/
theorem lists_of_readable {u : Stack} {path : CString} (h : scanned u path d = some b)
    (hall : AllReadable d b) : Lists u path d := by
  refine ⟨0, ?_⟩
  rw [fsReaddir_of_scanned u path 128 h, readdirLoop_of_readable hall 128 0 _ rfl, h,
    ← List.range_eq_range']
  rfl

/-- With an entry that cannot be read, `fs_readdir` does not return after any number of passes. -/
theorem fsReaddir_of_unreadable {u : Stack} {path : CString} (h : scanned u path d = some b)
    (hall : ¬ AllReadable d b) (fuel : ℕ) : fsReaddir u fuel path d = .error .fuel := by
  unfold AllReadable at hall
  push Not at hall
  obtain ⟨s, hs, hvalid, hread⟩ := hall
  rw [fsReaddir_of_scanned u path fuel h, readdirLoop_of_unreadable hs hvalid
    (Option.not_isSome_iff_eq_none.mp hread) fuel 0 _ (Nat.zero_le s), error_bind]

/-- Where some inode cannot be read, the listing is not complete. -/
theorem not_lists_of_unreadable {u : Stack} {path : CString} (h : scanned u path d = some b)
    (hall : ¬ AllReadable d b) : ¬ Lists u path d := by
  rintro ⟨rc, hrc⟩
  rw [fsReaddir_of_unreadable h hall] at hrc
  cases hrc

/-- `fs_readdir` returns after at most 128 passes, with a report of every valid entry whose inode
can be read, exactly when there is no other valid entry. With one, it does not return after any
number of passes. -/
theorem lists_iff (u : Stack) (path : CString) (d : Disk) :
    (Lists u path d ↔ ∀ b, scanned u path d = some b → AllReadable d b) ∧
    (¬ Lists u path d → ∀ fuel, fsReaddir u fuel path d = .error .fuel) := by
  cases h : scanned u path d with
  | none =>
    have hlists : Lists u path d := by
      rw [Lists, h]
      exact fsReaddir_of_not_scanned u path 128 h
    exact ⟨⟨fun _ _ hb => (nomatch hb), fun _ => hlists⟩, fun hnot => absurd hlists hnot⟩
  | some b =>
    by_cases hall : AllReadable d b
    · have hlists := lists_of_readable h hall
      exact ⟨⟨fun _ _ hb => Option.some.inj hb ▸ hall, fun _ => hlists⟩,
        fun hnot => absurd hlists hnot⟩
    · exact ⟨⟨fun hl => absurd hl (not_lists_of_unreadable h hall),
        fun hb => absurd (hb b rfl) hall⟩, fun _ => fsReaddir_of_unreadable h hall⟩

/-- A directory block whose first entry is valid and names the inode 9. -/
def lostBlock : Block := setDirentInode (setDirentValid Bytes.zero 0 true) 0 9

/-- An image of 4 blocks, with that directory block as the root directory's. -/
def lostDisk : Disk := (genDisk 4 3).write 3 lostBlock

/-- The first entry of the block is valid and leads to inode 9. -/
theorem lostBlock_valid : direntValid lostBlock 0 = true ∧ direntInode lostBlock 0 = 9 := by
  have hword : direntWord lostBlock 0 = 19 := by
    rw [lostBlock, direntWord_setDirentInode _ (by norm_num),
      direntWord_setDirentValid _ (by norm_num)]
    rfl
  rw [direntValid, direntInode, hword]
  decide

/-- The root of the image has that block. -/
theorem scanned_lostDisk : scanned zeroStack [slash] lostDisk = some lostBlock := by
  have hnblks : lostDisk.nblks = 4 := rfl
  have hroot : path2inum zeroStack lostDisk [slash] = (2 : ℕ) := rfl
  have h2 : lostDisk.blk 2 = (genDisk 4 3).blk 2 :=
    Disk.write_blk_of_ne _ 3 _ (by decide) (by decide)
  have hdir : (Inode.ofBlock (lostDisk.blk 2)).isDir = true := by
    rw [h2]
    exact genDisk_isDir
  have hptr : lbaOf ((Inode.ofBlock (lostDisk.blk 2)).ptr0) = (3 : ℕ) := by
    rw [h2]
    have hW : WellFormed (genDisk 4 3) :=
      genDisk_wellFormed (by norm_num) (by norm_num) (by norm_num)
    exact (hW.toTree.lbaOf_dir (resolve_nil _) genDisk_isDir).trans
      (congrArg Nat.cast (genDisk_ptr (by norm_num) (by norm_num)))
  rw [scanned, hroot, if_neg (by decide),
    readBlock_of_lt _ (by norm_num) (by rw [hnblks]; norm_num), Option.bind_some, if_pos hdir, hptr,
      readBlock_of_lt _ (by norm_num) (by rw [hnblks]; norm_num)]
  exact congrArg some (Disk.write_blk_self _ 3 _)

/-- On that image, `fs_readdir("/")` does not return. -/
theorem not_lists_lostDisk : ¬ Lists zeroStack [slash] lostDisk ∧
    ∀ fuel, fsReaddir zeroStack fuel [slash] lostDisk = .error .fuel := by
  have hall : ¬ AllReadable lostDisk lostBlock := by
    intro h
    obtain ⟨hvalid, hinode⟩ := lostBlock_valid
    have hread := h 0 (by norm_num) hvalid
    rw [hinode, readBlock_of_ge _ (by norm_num) (by decide)] at hread
    cases hread
  exact ⟨not_lists_of_unreadable scanned_lostDisk hall,
    fsReaddir_of_unreadable scanned_lostDisk hall⟩

/-! ## Well-formed disks -/

namespace AbsPath

/-- The path of a name in a directory. -/
def child (p : AbsPath) (hp : p.comps.length ≤ 9) {n : CString} (hn : IsName n) : AbsPath where
  comps := p.comps ++ [n]
  isName := by
    intro m hm
    rcases List.mem_append.mp hm with hm | hm
    · exact p.isName m hm
    · exact List.mem_singleton.mp hm ▸ hn
  length_le := by
    rw [List.length_append, List.length_singleton]
    omega

end AbsPath

section

variable (hT : Tree d) {p : Path} {i : ℕ} (hp : resolve d p = some i)
  (hdir : (inodeAt d i).isDir = true)
include hT hp hdir

/-- The names that `fs_readdir` reports, with their attributes, are those in the directory. -/
theorem mem_readdir {n : CString} {st : Stat} :
    (n, st) ∈ ((view d).readdir p).2 ↔ ∃ c, liveNode d (p ++ [n]) = some c ∧ c.stat = st := by
  simp only [View.readdir, view_nodes, liveNode_some hp, nodeView_isDir, hdir, if_true,
    nodeView_slots hdir, List.mem_filterMap, List.mem_range, Option.bind_eq_some_iff,
    Option.map_eq_some_iff, Prod.mk.injEq]
  constructor
  · rintro ⟨s, -, e, -, c, hc, rfl, rfl⟩
    exact ⟨c, hc, rfl⟩
  · rintro ⟨c, hc, rfl⟩
    obtain ⟨f, hf, -⟩ := Option.map_eq_some_iff.mp hc
    rw [resolve_concat, hp, Option.bind_some, entry, if_pos hdir] at hf
    obtain ⟨s, hs⟩ := (dirEntry_eq_some (hT.dirOk hp hdir)).mp hf
    exact ⟨s, slot_lt hs, (f, n), hs, c, hc, rfl, rfl⟩

/-- `fs_readdir` reports no name twice. -/
theorem nodup_readdir : (((view d).readdir p).2.map Prod.fst).Nodup := by
  simp only [View.readdir, view_nodes, liveNode_some hp, nodeView_isDir, hdir, if_true,
    nodeView_slots hdir, List.map_filterMap]
  refine List.nodup_range.filterMap fun s t n hs ht => ?_
  have hslot : ∀ {k}, n ∈ ((slot (dirBlock d i) k).bind fun e =>
      (liveNode d (p ++ [e.2])).map fun c => (e.2, c.stat)).map Prod.fst →
      ∃ j, slot (dirBlock d i) k = some (j, n) := by
    intro k hk
    obtain ⟨r, hr, rfl⟩ := Option.map_eq_some_iff.mp hk
    obtain ⟨e, he, hc⟩ := Option.bind_eq_some_iff.mp hr
    obtain ⟨c, -, rfl⟩ := Option.map_eq_some_iff.mp hc
    exact ⟨e.1, he⟩
  obtain ⟨j, hj⟩ := hslot hs
  obtain ⟨j', hj'⟩ := hslot ht
  exact (hT.dirOk hp hdir).slot_unique hj' hj

end

/-- `fs_getattr` returns 0 for what is in the tree. -/
theorem getattr_eq_zero_iff (d : Disk) (p : Path) :
    ((view d).getattr p).1 = 0 ↔ ∃ n, liveNode d p = some n := by
  rw [View.getattr, view_nodes]
  cases hr : resolve d p with
  | none =>
    rw [liveNode_none hr, inum_view]
    have hneg := walkInum_none hr
    constructor
    · exact fun h0 => absurd h0 hneg.ne
    · rintro ⟨n, hn⟩
      cases hn
  | some i =>
    rw [liveNode_some hr]
    exact ⟨fun _ => ⟨_, rfl⟩, fun _ => rfl⟩

/-- `fs_readdir` of a directory returns 0 and reports distinct names. It reports a name exactly when
`fs_getattr` of that name below the directory returns 0, and then with the attributes that
`fs_getattr` fills in. -/
theorem fsReaddir_agrees (h : WellFormed d) (u u' : Stack) (p : AbsPath) (hp : p.comps.length ≤ 9)
    {i : ℕ} (hi : resolve d p.comps = some i) (hdir : (inodeAt d i).isDir = true) :
    ∃ filled, fsReaddir u 128 p.str d = .ok (0, filled) ∧ (filled.map Prod.fst).Nodup ∧
      ∀ n, (hn : IsName n) →
        (n ∈ filled.map Prod.fst ↔ (fsGetattr u' (p.child hp hn).str d).1 = 0) ∧
        ∀ st, (n, st) ∈ filled → fsGetattr u' (p.child hp hn).str d = (0, some st) := by
  have hT := h.toTree
  have hrc : ((view d).readdir p.comps).1 = 0 := by
    simp only [View.readdir, view_nodes, liveNode_some hi, nodeView_isDir, hdir, if_true]
  refine ⟨((view d).readdir p.comps).2, ?_, nodup_readdir hT hi hdir, fun n hn => ⟨?_, ?_⟩⟩
  · rw [fsReaddir_eq hT, ← hrc]
  -- A name is listed if and only if the path with it resolves.
  · rw [fsGetattr_eq hT, getattr_eq_zero_iff, List.mem_map]
    constructor
    · rintro ⟨⟨m, st⟩, hm, rfl⟩
      obtain ⟨c, hc, -⟩ := (mem_readdir hT hi hdir).mp hm
      exact ⟨c, hc⟩
    · rintro ⟨c, hc⟩
      exact ⟨(n, c.stat), (mem_readdir hT hi hdir).mpr ⟨c, hc, rfl⟩, rfl⟩
  · intro st hst
    obtain ⟨c, hc, rfl⟩ := (mem_readdir hT hi hdir).mp hst
    have hnode : (view d).nodes (p.child hp hn).comps = some c := hc
    rw [fsGetattr_eq hT, View.getattr, hnode]

/-- In the image of `disk2.in` with the file `/a`, `fs_readdir("/")` reports `a`. -/
theorem fsReaddir_agrees_disk2 : ∃ d filled, WellFormed d ∧
    fsReaddir zeroStack 128 [slash] d = .ok (0, filled) ∧ (filled.map Prod.fst).Nodup ∧
    [97] ∈ filled.map Prod.fst := by
  obtain ⟨d, n, -, hW, hn, -⟩ := disk2_create
  obtain ⟨filled, hfilled, hnodup, hagree⟩ := fsReaddir_agrees hW zeroStack zeroStack
    ⟨[], by simp, by simp⟩ (by simp) (resolve_nil d) hW.root
  refine ⟨d, filled, hW, hfilled, hnodup, ?_⟩
  refine (hagree [97] pathA.name_isName).1.mpr ?_
  rw [fsGetattr_eq hW.toTree]
  exact (getattr_eq_zero_iff d _).mpr ⟨n, hn⟩

end Cs5600.Lab4
