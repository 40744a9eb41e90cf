import Cs5600.Lib.Bytes
import Mathlib.Tactic.NormNum
import Mathlib.Tactic.SplitIfs

/-!
# The block device

`block_read` and `block_write` of `misc.c` over an image file of whole 4096-byte blocks. A read that
fails leaves its buffer as it was, and most callers in `fs5600.c` ignore the return code, so
`blockRead` returns the buffer together with the code. A write past the end makes the image longer.

Block numbers are C `int`s. The byte position `lba * FS_BLOCK_SIZE` is computed in 32 bits, so it is
reduced to a signed 32-bit value here as well.
-/

namespace Cs5600.Lab4

/-- One disk block, `FS_BLOCK_SIZE` bytes. -/
abbrev Block := Bytes 4096

/-! ## Error numbers -/

/-- No such file or directory. -/
abbrev ENOENT : ℤ := 2
/-- Input/output error. -/
abbrev EIO : ℤ := 5
/-- File exists. -/
abbrev EEXIST : ℤ := 17
/-- Not a directory. -/
abbrev ENOTDIR : ℤ := 20
/-- Is a directory. -/
abbrev EISDIR : ℤ := 21
/-- Invalid argument. -/
abbrev EINVAL : ℤ := 22
/-- No space left on device. -/
abbrev ENOSPC : ℤ := 28
/-- Directory not empty. -/
abbrev ENOTEMPTY : ℤ := 39

/-- How a call can fail to return. -/
inductive Fault where
  /-- The `assert(lba > 0)` of `block_write` stops the process. -/
  | assertion
  /-- An array is accessed outside its bounds, which C leaves undefined. -/
  | outOfRange
  /-- A null pointer is dereferenced. -/
  | nullDeref
  /-- A loop is still running after the number of passes it was given. -/
  | fuel
  /-- The process calls `exit(1)`. -/
  | exit
  deriving DecidableEq, Repr

/-- A step that returns hands its value on. -/
@[simp]
theorem ok_bind {α β : Type} (a : α) (f : α → Except Fault β) : (Except.ok a >>= f) = f a :=
  -- Not as a definitional equality: `simp` would leave the kernel to compare whole operations.
  (rfl)

/-- A step that stops is not followed by another one. -/
@[simp]
theorem error_bind {α β : Type} (e : Fault) (f : α → Except Fault β) :
    ((Except.error e : Except Fault α) >>= f) = .error e := (rfl)

/-- The image file, and the block numbers that `alloc_blk` has handed out so far. The latter is not
part of the program's state: no function reads it. -/
@[ext]
structure Disk where
  /-- The length of the image in blocks. -/
  nblks : ℕ
  /-- The contents of each block; only those below `nblks` are in the image. -/
  blk : ℕ → Block
  /-- The blocks that `alloc_blk` has handed out, the latest first. -/
  handed : List ℕ

/-- The block-sized locals of `fs5600.c` that are not assigned before a read into them may fail, or
before their fields are set one by one. -/
inductive Local where
  | bitmap | super | parIn | parDataIn | ino | buf | childIn | data | buffer | f | subIn | subDataIn
  | fileIn
  deriving DecidableEq, Repr

/-- What the uninitialised locals happen to hold. -/
abbrev Stack := Local → Block

/-- The image with block `i` replaced. A write past the end extends the image, with zeros in
between. -/
def Disk.write (d : Disk) (i : ℕ) (b : Block) : Disk :=
  { d with
    nblks := max d.nblks (i + 1)
    blk := fun j => if j = i then b else if d.nblks ≤ j ∧ j < i then Bytes.zero else d.blk j }

/-- The byte position of a block, computed as a 32-bit `int`. -/
@[irreducible]
def bytePos (lba : ℤ) : ℤ := (4096 * lba).bmod (2^32)

/-- `block_read(buf, lba, 1)`: the buffer afterwards, and the return code. The `lseek` fails on a
negative position, and the `read` is short when the image ends before the block. -/
@[irreducible]
def blockRead (d : Disk) (buf : Block) (lba : ℤ) : Block × ℤ :=
  if bytePos lba < 0 then (buf, - EIO)
  else if d.nblks ≤ (bytePos lba / 4096).toNat then (buf, - EIO)
  else (d.blk (bytePos lba / 4096).toNat, 0)

/-- `block_write(buf, lba, 1)`: the image afterwards, and the return code. -/
@[irreducible]
def blockWrite (d : Disk) (buf : Block) (lba : ℤ) : Except Fault (Disk × ℤ) :=
  if lba ≤ 0 then .error .assertion
  else if (bytePos lba + 4096).bmod (2^32) < 0 then .ok (d, - EIO)
  else if bytePos lba < 0 then .ok (d, - EIO)
  else .ok (d.write (bytePos lba / 4096).toNat buf, 0)

/-- The byte position of a block of the 32768 that the bitmap describes does not wrap. -/
theorem bytePos_of_lt {i : ℕ} (h : i < 32768) : bytePos i = 4096 * i := by
  unfold bytePos
  exact Int.bmod_eq_of_le (by omega) (by omega)

/-- A read of a block below 32768 succeeds when the block is in the image. -/
theorem blockRead_of_lt (d : Disk) (buf : Block) {i : ℕ} (h : i < 32768) (hd : i < d.nblks) :
    blockRead d buf i = (d.blk i, 0) := by
  have hp := bytePos_of_lt h
  have hi : (4096 * (i : ℤ) / 4096).toNat = i := by omega
  rw [blockRead, hp, hi, if_neg (by omega), if_neg (by omega)]

/-- A read of a block past the end of the image leaves the buffer unchanged. -/
theorem blockRead_of_ge (d : Disk) (buf : Block) {i : ℕ} (h : i < 32768) (hd : d.nblks ≤ i) :
    blockRead d buf i = (buf, - EIO) := by
  have hp := bytePos_of_lt h
  have hi : (4096 * (i : ℤ) / 4096).toNat = i := by omega
  rw [blockRead, hp, hi, if_neg (by omega), if_pos hd]

/-- A write to a block in `(0, 32768)` succeeds. -/
theorem blockWrite_of_lt (d : Disk) (buf : Block) {i : ℕ} (h0 : 0 < i) (h : i < 32768) :
    blockWrite d buf i = .ok (d.write i buf, 0) := by
  have hp := bytePos_of_lt h
  have hq : (4096 * (i : ℤ) + 4096).bmod (2^32) = 4096 * i + 4096 :=
    Int.bmod_eq_of_le (by omega) (by omega)
  have hi : (4096 * (i : ℤ) / 4096).toNat = i := by omega
  rw [blockWrite, hp, hq, if_neg (by omega), if_neg (by omega), if_neg (by omega), hi]

namespace Disk

variable (d : Disk) (i : ℕ) (b : Block)

/-- A block that is written is there. -/
@[simp]
theorem write_blk_self : (d.write i b).blk i = b := by simp [write]

/-- Inside the image a write changes only the block written. -/
theorem write_blk_of_ne {j : ℕ} (h : j ≠ i) (hj : j < d.nblks) : (d.write i b).blk j = d.blk j := by
  simp [write, h, Nat.not_le.mpr hj]

/-- A write inside the image changes only the block written. -/
theorem write_blk_of_lt {j : ℕ} (hi : i < d.nblks) :
    (d.write i b).blk j = if j = i then b else d.blk j := by
  have : ¬ (d.nblks ≤ j ∧ j < i) := by omega
  simp [write, this]

/-- Writing a block makes the image large enough for it. -/
@[simp]
theorem write_nblks : (d.write i b).nblks = max d.nblks (i + 1) := rfl

/-- Writing a block of the image does not change its size. -/
theorem write_nblks_of_lt (hi : i < d.nblks) : (d.write i b).nblks = d.nblks := by
  rw [write_nblks]
  omega

/-- Writing a block does not allocate one. -/
@[simp]
theorem write_handed : (d.write i b).handed = d.handed := rfl

/-- Writing a block back does nothing. -/
theorem write_self (hi : i < d.nblks) : d.write i (d.blk i) = d := by
  refine Disk.ext (write_nblks_of_lt d i _ hi) ?_ rfl
  funext j
  rw [write_blk_of_lt d i _ hi]
  split_ifs with h
  · rw [h]
  · rfl

/-- Of two writes to a block the second one counts. -/
theorem write_write (c : Block) (hi : i < d.nblks) : (d.write i b).write i c = d.write i c := by
  refine Disk.ext (by simp) ?_ rfl
  funext j
  rw [write_blk_of_lt _ i _ (by simp), write_blk_of_lt d i _ hi, write_blk_of_lt d i _ hi]
  split_ifs <;> rfl

end Disk

end Cs5600.Lab4
