import Cs5600.Lab4.Bitmap
import Cs5600.Lab4.Dirent
import Cs5600.Lab4.Path

/-!
# Path translation and the operations that only read

`path2inum`, `inode2stat`, and the operations of `fs_ops` that do not write to the disk, as
`fs5600.c` computes them. A buffer that a failed `block_read` leaves as it was is threaded through
the loops, and an uninitialised local starts as what the `Stack` says it holds.
-/

namespace Cs5600.Lab4

/-- The loop of `path2inum` over the components that are left. -/
def path2inumLoop (d : Disk) : List CString → ℤ → Block → Block → ℤ
  | [], parInode, _, _ => parInode
  | name :: names, parInode, parIn, parDataIn =>
    if 27 < name.length then -ENOENT
    else
      let parIn := (blockRead d parIn parInode).1
      if !(Inode.ofBlock parIn).isDir || (Inode.ofBlock parIn).size == 0 then -ENOTDIR
      else
        let parDataInode := lbaOf ((Inode.ofBlock parIn).ptr0)
        let parDataIn := (blockRead d parDataIn parDataInode).1
        match findDirent parDataIn name with
        | none => -ENOENT
        | some dirent => path2inumLoop d names (direntInode parDataIn dirent) parIn parDataIn

/-- `path2inum`: the inode number of a path, or a negative error number. -/
def path2inum (u : Stack) (d : Disk) (path : CString) : ℤ :=
  if path.head? ≠ some slash then -ENOENT
  else
    let (nests, hierpath) := sepPath path
    if nests < 0 then -ENOENT
    else if nests = 0 then 2
    else path2inumLoop d hierpath 2 (u .parIn) (u .parDataIn)

/-- The fields of `struct stat` that `inode2stat` sets; it clears the others. -/
@[ext]
structure Stat where
  ino : ℕ
  mode : UInt32
  nlink : ℕ
  uid : UInt16
  gid : UInt16
  size : ℤ
  blocks : ℤ
  atime : UInt32
  mtime : UInt32
  ctime : UInt32
  deriving DecidableEq

/-- `inode2stat`. -/
def inode2stat (x : Inode) (inodeNum : ℕ) : Stat where
  ino := inodeNum
  mode := x.mode
  nlink := 1
  uid := x.uid
  gid := x.gid
  size := x.size.toInt
  blocks := if x.isDir then 1 else (divRoundUp x.size).toInt
  atime := x.ctime
  mtime := x.mtime
  ctime := x.ctime

/-- `FS_MAGIC`. -/
abbrev fsMagic : ℕ := 0x30303635

/-- `fs_init`. -/
def fsInit (u : Stack) (d : Disk) : Except Fault Unit :=
  let r := blockRead d (u .buf) 0
  if r.2 ≠ 0 then .error .exit
  else if superMagic r.1 ≠ fsMagic then .error .exit
  else .ok ()

/-- The fields of `struct statvfs` that `fs_statfs` sets. -/
@[ext]
structure Statvfs where
  bsize : ℕ
  namemax : ℕ
  blocks : ℕ
  bfree : ℕ
  bavail : ℕ
  deriving DecidableEq

/-- The number of set bits from 2 on that `fs_statfs` counts. -/
def usedBlocks (bitmap : Block) : ℕ :=
  (List.range' 2 (4096 * 8 - 2)).countP fun i => bitTest bitmap i != 0

/-- `fs_statfs`: the return code, and the structure when it is filled in. `disk_size - 2` is a
32-bit and `f_blocks - used_blocks` a 64-bit unsigned subtraction. -/
def fsStatfs (u : Stack) (d : Disk) : ℤ × Option Statvfs :=
  let super := blockRead d (u .super) 0
  if super.2 ≠ 0 then (- EIO, none)
  else
    let bitmap := blockRead d (u .bitmap) 1
    if bitmap.2 ≠ 0 then (- EIO, none)
    else
      let blocks := (superDiskSize super.1 + (2^32 - 2)) % 2^32
      let bfree := (blocks + (2^64 - usedBlocks bitmap.1)) % 2^64
      (0, some ⟨4096, 27, blocks, bfree, bfree⟩)

/-- `fs_getattr`. -/
def fsGetattr (u : Stack) (path : CString) (d : Disk) : ℤ × Option Stat :=
  let inode := path2inum u d path
  if inode < 0 then (inode, none)
  else
    let ino := blockRead d (u .ino) inode
    if ino.2 ≠ 0 then (- EIO, none) else (0, some (inode2stat (Inode.ofBlock ino.1) inode.toNat))

/-- The loop of `fs_readdir` from entry `s` on, in at most `fuel` passes: what it hands to `filler`.
The `continue` on a failed read does not advance to the next entry. -/
def readdirLoop (d : Disk) (buf : Block) : ℕ → ℕ → Block → Except Fault (List (CString × Stat))
  | 0, s, _ => if 128 ≤ s then .ok [] else .error .fuel
  | fuel + 1, s, childIn =>
    if 128 ≤ s then .ok []
    else if direntValid buf s then
      let child := blockRead d childIn (direntInode buf s)
      if child.2 ≠ 0 then readdirLoop d buf fuel s child.1
      else do
        let rest ← readdirLoop d buf fuel (s + 1) child.1
        .ok ((direntName buf s, inode2stat (Inode.ofBlock child.1) (direntInode buf s)) :: rest)
    else readdirLoop d buf fuel (s + 1) childIn

/-- `fs_readdir`: the return code, and what it hands to `filler`. -/
def fsReaddir (u : Stack) (fuel : ℕ) (path : CString) (d : Disk) :
    Except Fault (ℤ × List (CString × Stat)) :=
  let inode := path2inum u d path
  if inode ≤ 0 then .ok (inode, [])
  else
    let ino := blockRead d (u .buf) inode
    if ino.2 ≠ 0 then .ok (- EIO, [])
    else if !(Inode.ofBlock ino.1).isDir then .ok (-ENOTDIR, [])
    else
      let dir := blockRead d ino.1 (lbaOf ((Inode.ofBlock ino.1).ptr0))
      if dir.2 ≠ 0 then .ok (- EIO, [])
      else do
        let filled ← readdirLoop d dir.1 fuel 0 (u .childIn)
        .ok (0, filled)

/-- `data[start + i]` for `i < n`, where all of it is in range. -/
def copyOut (data : Block) (start n : ℤ) : Except Fault (List UInt8) :=
  if n ≤ 0 then .ok []
  else if 0 ≤ start ∧ start + n ≤ 4096 then .ok (data.slice start.toNat n.toNat)
  else .error .outOfRange

/-- A pointer that can be read is inside the array. -/
theorem Inode.ptrAt_lt {x : Inode} {k : ℤ} {p : UInt32} (h : x.ptrAt k = .ok p) :
    0 ≤ k ∧ k < 1019 := by
  unfold ptrAt at h
  split_ifs at h with hk
  exact hk

/-- The loop of `fs_read`: the number of bytes read, and the bytes in the caller's buffer. -/
def readLoop (d : Disk) (x : Inode) (len : ℕ) (offset nread startBlock startOffset : ℤ)
    (data : Block) (out : List UInt8) : Except Fault (ℤ × List UInt8) :=
  if nread < len ∧ nread + offset < x.size.toInt then
    match _hp : x.ptrAt startBlock with
    | .error e => .error e
    | .ok p =>
      let data := (blockRead d data (lbaOf p)).1
      let pread := 4096 - startOffset
      let pread := if (len : ℤ) < nread + pread then len - nread else pread
      let pread :=
        if x.size.toInt < nread + pread + offset then x.size.toInt - offset - nread else pread
      match copyOut data startOffset pread with
      | .error e => .error e
      | .ok bytes =>
        readLoop d x len offset (nread + pread) (startBlock + 1) 0 data (out ++ bytes)
  else .ok (nread, out)
termination_by (1019 - startBlock).toNat
decreasing_by
  have := Inode.ptrAt_lt _hp
  omega

/-- `fs_read`: the return code, and the bytes in the caller's buffer. `start_block` is an `int`. -/
def fsRead (u : Stack) (path : CString) (len : ℕ) (offset : Int64) (d : Disk) :
    Except Fault (ℤ × List UInt8) :=
  let offset := offset.toInt
  let inode := path2inum u d path
  if inode < 0 then .ok (inode, [])
  else
    let ino := blockRead d (u .ino) inode
    if ino.2 ≠ 0 then .ok (- EIO, [])
    else
      let x := Inode.ofBlock ino.1
      if x.isDir then .ok (-EISDIR, [])
      else if x.size.toInt ≤ offset then .ok (0, [])
      else readLoop d x len offset 0 ((offset.tdiv 4096).bmod (2^32)) (offset.tmod 4096)
        (u .data) []

end Cs5600.Lab4
