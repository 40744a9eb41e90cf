import Cs5600.Lab4.Resolve

/-!
# Images of an empty file system

`gen-disk.py` writes an image from a description. `disk2.in` describes a file system of 400 blocks
that holds a root directory without entries, whose data is in block 399; `genDisk size data` is such
an image of any size. It is well-formed.
-/

namespace Cs5600.Lab4

/-- The superblock of an image. -/
def genSuper (size : ℕ) : Block :=
  (Bytes.zero.blit 0 (Bytes.leBytes 4 fsMagic)).blit 4 (Bytes.leBytes 4 size)

/-- The bitmap of an image whose root directory has its data in block `data`. -/
def genBitmap (data : ℕ) : Block := bitSet (bitSet (bitSet (bitSet Bytes.zero 0) 1) 2) data

/-- The inode of the root directory, `dir 2 / $root $root $d_rwx $t1 $t2 4096 data` of
`disk2.in`. -/
def genRoot (data : ℕ) : Inode where
  uid := 0
  gid := 0
  mode := 0o040777
  ctime := 1565283152
  mtime := 1565283167
  size := 4096
  ptrs := fun k => if (k : ℕ) = 0 then UInt32.ofNat data else 0

/-- The image of `size` blocks with an empty root directory. -/
def genDisk (size data : ℕ) : Disk where
  nblks := size
  blk := fun i =>
    if i = 0 then genSuper size
    else if i = 1 then genBitmap data
    else if i = 2 then (genRoot data).toBlock
    else Bytes.zero
  handed := []

/-- The image of `disk2.in`, without the names that it has in two entries that are not valid. -/
def disk2 : Disk := genDisk 400 399

section

variable {d : Disk}

/-- Below a root directory without entries there is nothing. -/
theorem resolve_of_empty (hdir : (inodeAt d 2).isDir = true) (hempty : dirBlock d 2 = Bytes.zero)
    (p : Path) (i : ℕ) : resolve d p = some i ↔ p = [] ∧ i = 2 := by
  have hentry : ∀ n, entry d 2 n = none := by
    intro n
    have hfind : findDirent (dirBlock d 2) n = none := by
      rw [findDirent, List.find?_eq_none]
      intro s _
      rw [hempty, slot_eq_none.mp (slot_zero s)]
      simp
    rw [entry, if_pos hdir, dirEntry, hfind, Option.map_none]
  cases p with
  | nil => simp [eq_comm]
  | cons n ns => simp [resolve, walk_cons, hentry]

/-- A disk whose root directory has no entries is a tree of one node. -/
theorem Tree.of_empty (hdir : (inodeAt d 2).isDir = true) (hsize : (inodeAt d 2).size.toInt = 4096)
    (hempty : dirBlock d 2 = Bytes.zero) (h2 : 2 < d.nblks) {b : ℕ}
    (hb : (inodeAt d 2).ptr 0 = b) (hb2 : 2 < b) (hb' : b < 32768) (hbn : b < d.nblks) :
    Tree d ∧ ∀ i, (∃ k, live d k = some i) ↔ i = 2 ∨ i = b := by
  have hres := resolve_of_empty hdir hempty
  -- There is the inode of the root and its block, and nothing below them.
  have hlive : ∀ k i, live d k = some i ↔ k = .inode [] ∧ i = 2 ∨ k = .dirData [] ∧ i = b := by
    intro k i
    cases k with
    | inode p => simp [live_inode, hres]
    | dirData p =>
      rw [live_dirData, Option.bind_eq_some_iff]
      simp only [hres]
      constructor
      · rintro ⟨j, ⟨rfl, rfl⟩, h⟩
        rw [if_pos hdir, hb, Option.some.injEq] at h
        exact .inr ⟨rfl, h.symm⟩
      · rintro (⟨h, -⟩ | ⟨h, rfl⟩)
        · cases h
        · obtain rfl := LiveKey.dirData.inj h
          exact ⟨2, ⟨rfl, rfl⟩, by rw [if_pos hdir, hb]⟩
    | fileData p k =>
      rw [live_fileData, Option.bind_eq_some_iff]
      simp only [hres]
      constructor
      · rintro ⟨j, ⟨rfl, rfl⟩, h⟩
        simp [hdir] at h
      · rintro (⟨h, -⟩ | ⟨h, -⟩) <;> cases h
  refine ⟨⟨hdir, ?_, ?_, ?_⟩, ?_⟩
  · intro p i hp
    obtain ⟨-, rfl⟩ := (hres p i).mp hp
    rw [NodeOk, if_pos hdir, hempty]
    have hvalid : ∀ s, direntValid Bytes.zero s = true → False := by
      intro s hs
      rw [slot_eq_none.mp (slot_zero s)] at hs
      cases hs
    exact ⟨hsize, ⟨fun s _ h => (hvalid s h).elim, fun s _ h => (hvalid s h).elim,
      fun s _ h => (hvalid s h).elim, fun s _ _ _ h => (hvalid s h).elim⟩⟩
  · intro k k' i hk hk'
    rcases (hlive k i).mp hk with ⟨rfl, rfl⟩ | ⟨rfl, rfl⟩ <;>
      rcases (hlive k' _).mp hk' with ⟨rfl, h⟩ | ⟨rfl, h⟩
    · rfl
    · omega
    · omega
    · rfl
  · intro k i hk
    rcases (hlive k i).mp hk with ⟨-, rfl⟩ | ⟨-, rfl⟩ <;> omega
  · intro i
    constructor
    · rintro ⟨k, hk⟩
      rcases (hlive k i).mp hk with ⟨-, rfl⟩ | ⟨-, rfl⟩
      · exact .inl rfl
      · exact .inr rfl
    · rintro (rfl | rfl)
      · exact ⟨.inode [], (hlive _ _).mpr (.inl ⟨rfl, rfl⟩)⟩
      · exact ⟨.dirData [], (hlive _ _).mpr (.inr ⟨rfl, rfl⟩)⟩

end

/-- The bits of the bitmap of an empty image. -/
theorem bit_genBitmap {data : ℕ} (hdata : data < 32768) (i : ℕ) :
    bit (genBitmap data) i = true ↔ i = data ∨ i = 2 ∨ i = 1 ∨ i = 0 := by
  have hzero : bit Bytes.zero i = false := by
    rw [bit, Bytes.get_zero]
    simp
  rw [genBitmap, bit_bitSet _ hdata, bit_bitSet _ (by norm_num), bit_bitSet _ (by norm_num),
    bit_bitSet _ (by norm_num), hzero]
  simp

section

variable {size data : ℕ} (h3 : 3 ≤ data) (hdata : data < size) (hsize : size ≤ 32768)

/-- The root inode of the image. -/
theorem genDisk_root : inodeAt (genDisk size data) 2 = genRoot data := Inode.ofBlock_toBlock _

/-- The root of the image is a directory. -/
theorem genDisk_isDir : (inodeAt (genDisk size data) 2).isDir = true := by
  rw [genDisk_root]
  show sIsDir 0o040777 = true
  decide

include hdata hsize in
/-- The data of the root are in their block. -/
theorem genDisk_ptr : (inodeAt (genDisk size data) 2).ptr 0 = data := by
  rw [genDisk_root, Inode.ptr, dif_pos (by norm_num)]
  show (UInt32.ofNat data).toNat = data
  rw [UInt32.toNat_ofNat']
  omega

include h3 hdata hsize

/-- The root of the image has no entries. -/
theorem genDisk_dirBlock : dirBlock (genDisk size data) 2 = Bytes.zero := by
  rw [dirBlock, genDisk_ptr hdata hsize]
  simp only [genDisk]
  rw [if_neg (by omega), if_neg (by omega), if_neg (by omega)]

/-- An image with an empty root directory is well-formed. -/
theorem genDisk_wellFormed : WellFormed (genDisk size data) := by
  obtain ⟨hT, hlive⟩ := Tree.of_empty genDisk_isDir (by rw [genDisk_root]; rfl)
    (genDisk_dirBlock h3 hdata hsize) (show 2 < size by omega) (genDisk_ptr hdata hsize) (by omega)
    (by omega) hdata
  refine ⟨hT, fun i _ => ?_⟩
  rw [hlive, show (genDisk size data).blk 1 = genBitmap data from rfl, bit_genBitmap (by omega)]
  omega

/-- Nothing but the root directory is in the image. -/
theorem genDisk_resolve (n : CString) (ns : Path) :
    resolve (genDisk size data) (n :: ns) = none := by
  rw [Option.eq_none_iff_forall_ne_some]
  intro i hi
  have := (resolve_of_empty genDisk_isDir (genDisk_dirBlock h3 hdata hsize) _ i).mp hi
  exact absurd this.1 (by simp)

end

/-- The image of `disk2.in` is well-formed. -/
theorem disk2_wellFormed : WellFormed disk2 :=
  genDisk_wellFormed (by norm_num) (by norm_num) (by norm_num)

/-- Nothing is below the root of `disk2.in`. -/
theorem disk2_resolve (n : CString) (ns : Path) : resolve disk2 (n :: ns) = none :=
  genDisk_resolve (by norm_num) (by norm_num) (by norm_num) n ns

/-- The blocks from 3 on are free, but for the root directory's. -/
theorem disk2_bit {i : ℕ} (h3 : 3 ≤ i) (hi : i ≠ 399) : bit (disk2.blk 1) i = false := by
  rw [← Bool.not_eq_true]
  exact (bit_genBitmap (by norm_num : 399 < 32768) i).not.mpr (by omega)

end Cs5600.Lab4
