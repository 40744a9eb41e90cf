import Cs5600.Lab4.Disk
import Mathlib.Tactic.IntervalCases

/-!
# The on-disk structures

The structures of `fs5600.h` as `fs5600.c` lays them over a block: the superblock's two words, the
inode, and the 128 directory entries of 32 bytes. An inode fills its block exactly, so
`Inode.ofBlock` and `Inode.toBlock` are the two directions of the C cast (`ofBlock_toBlock`). A
directory block is read and written in place, one field of one entry at a time, since a name without
its NUL runs into the entry behind it.
-/

namespace Cs5600.Lab4

/-- A NUL-terminated string, without its NUL. -/
abbrev CString := List UInt8

/-! ## Superblock -/

/-- `((super_t *)b)->magic`. -/
def superMagic (b : Block) : ℕ := b.word 4 0

/-- `((super_t *)b)->disk_size`. -/
def superDiskSize (b : Block) : ℕ := b.word 4 4

/-! ## Inodes -/

/-- `struct fs_inode`. -/
@[ext]
structure Inode where
  uid : UInt16
  gid : UInt16
  mode : UInt32
  ctime : UInt32
  mtime : UInt32
  size : Int32
  ptrs : Fin 1019 → UInt32

/-- Byte `j` of a word in memory. -/
def byteOf (w j : ℕ) : UInt8 := UInt8.ofNat (w / 256 ^ j)

/-- The inode that a block holds. -/
def Inode.ofBlock (b : Block) : Inode where
  uid := UInt16.ofNat (b.word 2 0)
  gid := UInt16.ofNat (b.word 2 2)
  mode := UInt32.ofNat (b.word 4 4)
  ctime := UInt32.ofNat (b.word 4 8)
  mtime := UInt32.ofNat (b.word 4 12)
  size := (UInt32.ofNat (b.word 4 16)).toInt32
  ptrs := fun k => UInt32.ofNat (b.word 4 (20 + 4 * k))

/-- The block that holds an inode. -/
def Inode.toBlock (x : Inode) : Block := Bytes.ofFn fun i =>
  if i < 2 then byteOf x.uid.toNat i
  else if i < 4 then byteOf x.gid.toNat (i - 2)
  else if i < 8 then byteOf x.mode.toNat (i - 4)
  else if i < 12 then byteOf x.ctime.toNat (i - 8)
  else if i < 16 then byteOf x.mtime.toNat (i - 12)
  else if i < 20 then byteOf x.size.toUInt32.toNat (i - 16)
  else if h : (i - 20) / 4 < 1019 then byteOf (x.ptrs ⟨(i - 20) / 4, h⟩).toNat ((i - 20) % 4)
  else 0

/-- A four-byte word of an inode's block, from its bytes. -/
theorem word_toBlock {b : Block} {off : ℕ} {w : UInt32}
    (h : ∀ j < 4, b.get (off + j) = byteOf w.toNat j) : UInt32.ofNat (b.word 4 off) = w := by
  have hw := w.toNat_lt
  rw [Bytes.word_of_leBytes w.toNat h]
  apply UInt32.toNat_inj.mp
  rw [UInt32.toNat_ofNat']
  omega

/-- A two-byte word of an inode's block, from its bytes. -/
theorem halfword_toBlock {b : Block} {off : ℕ} {w : UInt16}
    (h : ∀ j < 2, b.get (off + j) = byteOf w.toNat j) : UInt16.ofNat (b.word 2 off) = w := by
  have hw := w.toNat_lt
  rw [Bytes.word_of_leBytes w.toNat h]
  apply UInt16.toNat_inj.mp
  rw [UInt16.toNat_ofNat']
  omega

/-- An inode read back from the block that was written. -/
@[simp]
theorem Inode.ofBlock_toBlock (x : Inode) : Inode.ofBlock x.toBlock = x := by
  -- Field by field: each lies at its own offset of the block.
  have hget : ∀ off j, off + j < 4096 → x.toBlock.get (off + j) = _ :=
    fun off j h => Bytes.get_ofFn _ h
  apply Inode.ext
  · refine halfword_toBlock fun j hj => ?_
    rw [hget _ _ (by omega), if_pos (by omega), Nat.zero_add]
  · refine halfword_toBlock fun j hj => ?_
    rw [hget _ _ (by omega), if_neg (by omega), if_pos (by omega), Nat.add_sub_cancel_left]
  · refine word_toBlock fun j hj => ?_
    rw [hget _ _ (by omega), if_neg (by omega), if_neg (by omega), if_pos (by omega),
      Nat.add_sub_cancel_left]
  · refine word_toBlock fun j hj => ?_
    rw [hget _ _ (by omega), if_neg (by omega), if_neg (by omega), if_neg (by omega),
      if_pos (by omega), Nat.add_sub_cancel_left]
  · refine word_toBlock fun j hj => ?_
    rw [hget _ _ (by omega), if_neg (by omega), if_neg (by omega), if_neg (by omega),
      if_neg (by omega), if_pos (by omega), Nat.add_sub_cancel_left]
  · have hs : UInt32.ofNat (x.toBlock.word 4 16) = x.size.toUInt32 := by
      refine word_toBlock fun j hj => ?_
      rw [hget _ _ (by omega), if_neg (by omega), if_neg (by omega), if_neg (by omega),
        if_neg (by omega), if_neg (by omega), if_pos (by omega), Nat.add_sub_cancel_left]
    show (UInt32.ofNat (x.toBlock.word 4 16)).toInt32 = x.size
    rw [hs, Int32.toInt32_toUInt32]
  · funext k
    have hk := k.isLt
    refine word_toBlock fun j hj => ?_
    have hd : (20 + 4 * (k : ℕ) + j - 20) / 4 = k := by omega
    have hm : (20 + 4 * (k : ℕ) + j - 20) % 4 = j := by omega
    rw [hget _ _ (by omega), if_neg (by omega), if_neg (by omega), if_neg (by omega),
      if_neg (by omega), if_neg (by omega), if_neg (by omega), dif_pos (by omega)]
    simp only [hd, hm]

/-- The conversion of a `uint32_t` block pointer to the `int` that the block functions take. -/
def lbaOf (p : UInt32) : ℤ := p.toInt32.toInt

/-- A block pointer below 32768 is its own block number. -/
theorem lbaOf_of_lt {p : UInt32} (h : p.toNat < 32768) : lbaOf p = p.toNat := by
  have h1 : p.toInt32.toInt = (p.toNat : ℤ).bmod (2^32) := by
    rw [show p.toInt32 = Int32.ofBitVec p.toBitVec by rfl, Int32.toInt_ofBitVec,
      BitVec.toInt_eq_toNat_bmod]
    rfl
  rw [lbaOf, h1]
  exact Int.bmod_eq_of_le (by omega) (by omega)

/-- The number of a block is stored as it is. -/
theorem lbaOf_ofNat {n : ℕ} (h : n < 32768) : lbaOf (UInt32.ofNat n) = n := by
  have hn : (UInt32.ofNat n).toNat = n := by
    rw [UInt32.toNat_ofNat']
    omega
  rw [lbaOf_of_lt (by omega), hn]

/-- A block number fits into a pointer. -/
theorem toNat_ofInt_u32 {n : ℕ} (h : n < 32768) : (UInt32.ofInt n).toNat = n := by
  rw [UInt32.ofInt, UInt32.toNat_ofNat']
  omega

/-- `in.ptrs[0]`, the data block of a directory. -/
def Inode.ptr0 (x : Inode) : UInt32 := x.ptrs 0

/-- `in.ptrs[k]`, where it is in range. -/
def Inode.ptrAt (x : Inode) (k : ℤ) : Except Fault UInt32 :=
  if h : 0 ≤ k ∧ k < 1019 then .ok (x.ptrs ⟨k.toNat, by omega⟩) else .error .outOfRange

/-- The inode with pointer `k` replaced. -/
def Inode.withPtr (x : Inode) (k : ℕ) (p : UInt32) : Inode :=
  { x with ptrs := fun j => if (j : ℕ) = k then p else x.ptrs j }

/-- `in.ptrs[k] = p`, where it is in range. -/
def Inode.setPtrAt (x : Inode) (k : ℤ) (p : UInt32) : Except Fault Inode :=
  if 0 ≤ k ∧ k < 1019 then .ok (x.withPtr k.toNat p) else .error .outOfRange

/-- The block number in pointer `k`. -/
def Inode.ptr (x : Inode) (k : ℕ) : ℕ := if h : k < 1019 then (x.ptrs ⟨k, h⟩).toNat else 0

/-- `in.ptrs[k]` in range reads pointer `k`. -/
theorem Inode.ptrAt_eq (x : Inode) {k : ℕ} (h : k < 1019) :
    x.ptrAt k = .ok (UInt32.ofNat (x.ptr k)) := by
  rw [ptrAt, dif_pos (by omega), ptr, dif_pos h]
  simp

/-- The pointers after one of them has been replaced. -/
theorem Inode.ptr_withPtr (x : Inode) {k : ℕ} (p : UInt32) (h : k < 1019) (j : ℕ) :
    (x.withPtr k p).ptr j = if j = k then p.toNat else x.ptr j := by
  unfold ptr withPtr
  by_cases hj : j = k
  · simp [hj, h]
  · simp [hj]

/-- A pointer inside the array is set. -/
theorem Inode.setPtrAt_eq (x : Inode) {k : ℕ} (p : UInt32) (h : k < 1019) :
    x.setPtrAt k p = .ok (x.withPtr k p) := by
  rw [setPtrAt, if_pos (by omega), Int.toNat_natCast]

/-! ## Modes and sizes -/

/-- `S_ISDIR`. -/
def sIsDir (mode : UInt32) : Bool := mode &&& 0o170000 == 0o040000

/-- `S_IFREG`. -/
def S_IFREG : UInt32 := 0o100000

/-- `S_IFDIR`. -/
def S_IFDIR : UInt32 := 0o040000

/-- Whether an inode is a directory. -/
def Inode.isDir (x : Inode) : Bool := sIsDir x.mode

/-- `DIV_ROUND_UP(n, FS_BLOCK_SIZE)` of an `int`. -/
def divRoundUp (n : Int32) : Int32 := (n + 4096 - 1) / 4096

/-- The number of blocks that the size of an inode spans. -/
def Inode.nblocks (x : Inode) : ℕ := (divRoundUp x.size).toInt.toNat

/-- Division with rounding up. -/
theorem divRoundUp_toInt {n : Int32} (h0 : 0 ≤ n.toInt) (h1 : n.toInt ≤ 1019 * 4096) :
    (divRoundUp n).toInt = (n.toInt + 4095) / 4096 := by
  have ha : (n + 4096 - 1).toInt = n.toInt + 4095 := by
    have h4096 : (4096 : Int32).toInt = 4096 := rfl
    have h1' : (1 : Int32).toInt = 1 := rfl
    have hadd : (n.toInt + 4096).bmod (2^32) = n.toInt + 4096 :=
      Int.bmod_eq_of_le (by omega) (by omega)
    rw [Int32.toInt_sub, Int32.toInt_add, h4096, h1', hadd,
      Int.bmod_eq_of_le (by omega) (by omega)]
    omega
  rw [divRoundUp, Int32.toInt_div, ha, show (4096 : Int32).toInt = 4096 by rfl,
    Int.tdiv_eq_ediv_of_nonneg (by omega)]
  exact Int.bmod_eq_of_le (by omega) (by omega)

/-- The number of blocks of a size in range is the size over 4096, rounded up. -/
theorem Inode.nblocks_eq {x : Inode} (h0 : 0 ≤ x.size.toInt) (h1 : x.size.toInt ≤ 1019 * 4096) :
    x.nblocks = (x.size.toInt.toNat + 4095) / 4096 := by
  rw [nblocks, divRoundUp_toInt h0 h1]
  omega

/-- Masking distributes over setting bits. -/
theorem or_and_u32 (x y z : UInt32) : (x ||| y) &&& z = (x &&& z) ||| (y &&& z) :=
  UInt32.toBitVec_inj.mp BitVec.and_or_distrib_right

/-- The permission bits of `mode` combined with a type and other bits. -/
theorem and_fmt_perm (mode m : UInt32) :
    ((mode &&& 0xfffff000) ||| (0x00000fff &&& m)) &&& 0o170000 = mode &&& 0o170000 := by
  have h1 : (0xfffff000 : UInt32) &&& 0o170000 = 0o170000 := by decide
  have h2 : (0x00000fff : UInt32) &&& 0o170000 = 0 := by decide
  rw [or_and_u32, UInt32.and_assoc, h1, UInt32.and_comm 0x00000fff m,
    UInt32.and_assoc, h2]
  simp

/-- `fs_chmod` does not change the type of a file. -/
theorem sIsDir_chmod (mode m : UInt32) :
    sIsDir ((mode &&& 0xfffff000) ||| (0x00000fff &&& m)) = sIsDir mode := by
  rw [sIsDir, and_fmt_perm, sIsDir]

/-- A mode of permission bits and one type bit has the type of that bit. -/
theorem sIsDir_perm_or (m t : UInt32) (ht : t &&& 0o170000 = t) :
    sIsDir (0 ||| (0x00000fff &&& m) ||| t) = (t == 0o040000) := by
  have h2 : (0x00000fff : UInt32) &&& 0o170000 = 0 := by decide
  rw [sIsDir, or_and_u32, ht, or_and_u32,
    UInt32.and_comm 0x00000fff m, UInt32.and_assoc, h2]
  simp

end Cs5600.Lab4
