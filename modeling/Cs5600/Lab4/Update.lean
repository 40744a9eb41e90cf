import Cs5600.Lab4.Lookup

/-!
# The operations that write

The operations of `fs_ops` that change the disk, as `fs5600.c` computes them, each on a disk and
returning its result and the disk afterwards. The clock and the caller's ids, which the code takes
from `time` and `fuse_get_context`, are in `Ctx`.
-/

namespace Cs5600.Lab4

/-- What a call takes from its surroundings: the caller's ids and the clock. -/
structure Ctx where
  uid : UInt32
  gid : UInt32
  time : ℤ

/-- The clock as the `uint32_t` that inodes hold. -/
def Ctx.now (ctx : Ctx) : UInt32 := UInt32.ofInt ctx.time

/-- `ut->modtime` as an inode holds it, or the current time without a `utimbuf`. -/
def Ctx.modtime (ctx : Ctx) : Option ℤ → UInt32
  | none => ctx.now
  | some t => UInt32.ofInt t

/-- `fs_rename`. -/
def fsRename (u : Stack) (srcPath dstPath : CString) (d : Disk) : Except Fault (ℤ × Disk) :=
  if srcPath.head? ≠ some slash ∨ dstPath.head? ≠ some slash then .ok (-ENOENT, d)
  -- Whatever is wrong with the source's path, the answer is -ENOENT.
  else if path2inum u d srcPath < 0 then .ok (-ENOENT, d)
  else if 0 < path2inum u d dstPath then .ok (-EEXIST, d)
  else
    let srcLen := (sepPath srcPath).1
    let srcTokens := (sepPath srcPath).2
    let dstLen := (sepPath dstPath).1
    let dstTokens := (sepPath dstPath).2
    -- The two paths have to agree but for the last token.
    if srcLen ≠ dstLen then .ok (-EINVAL, d)
    else if srcTokens.take (srcLen - 1).toNat ≠ dstTokens.take (srcLen - 1).toNat then
      .ok (-EINVAL, d)
    else do
      let parPath ← copyParent srcPath
        ((srcTokens.take (srcLen - 1).toNat).map fun t => t.length + 1).sum
      let ino := blockRead d (u .buf) (path2inum u d parPath)
      if ino.2 ≠ 0 then .ok (- EIO, d)
      else
        let srcInode := lbaOf ((Inode.ofBlock ino.1).ptr0)
        let dir := blockRead d ino.1 srcInode
        if dir.2 ≠ 0 then .ok (- EIO, d)
        else do
          let src ← tokenAt srcTokens (srcLen - 1)
          match findDirent dir.1 src with
          -- The source does not test what `find_dirent` returns.
          | none => .error .nullDeref
          | some dirent => do
            let dst ← tokenAt dstTokens (dstLen - 1)
            let buf ← strcpyName dir.1 dirent dst
            let d := (← blockWrite d buf srcInode).1
            .ok (0, d)

/-- `fs_chmod`. -/
def fsChmod (u : Stack) (path : CString) (mode : UInt32) (d : Disk) : Except Fault (ℤ × Disk) :=
  let inode := path2inum u d path
  if inode ≤ 0 then .ok (-ENOENT, d)
  else
    let ino := blockRead d (u .buf) inode
    if ino.2 ≠ 0 then .ok (- EIO, d)
    else do
      let x := Inode.ofBlock ino.1
      let x := { x with mode := (x.mode &&& 0xfffff000) ||| (0x00000fff &&& mode) }
      let w ← blockWrite d x.toBlock inode
      if w.2 ≠ 0 then .ok (- EIO, w.1) else .ok (0, w.1)

/-- The mode of a new inode, `mode = 0; mode |= 0x00000fff & perm; mode |= type`. -/
def newMode (perm type : UInt32) : UInt32 := 0 ||| (0x00000fff &&& perm) ||| type

/-- The inode `f` of a new file. Its pointers are never assigned. -/
def newFile (ctx : Ctx) (u : Stack) (mode : UInt32) : Inode :=
  { Inode.ofBlock (u .f) with
    uid := ctx.uid.toUInt16
    gid := ctx.gid.toUInt16
    mode := newMode mode ((1 : UInt32) <<< 15)
    size := 0
    ctime := ctx.now
    mtime := ctx.now }

/-- The part of `fs_create` behind the search for a free entry `dirent` of the parent. -/
def createEntry (ctx : Ctx) (u : Stack) (name : CString) (mode : UInt32) (inode : ℤ) (buf : Block)
    (dirent : ℕ) (d : Disk) : Except Fault (ℤ × Disk) := do
  let alloc ← allocBlk u d
  let fInode := alloc.1
  let d := alloc.2
  if fInode < 0 then .ok (fInode, d)
  else do
    let buf ← strcpyName buf dirent name
    let buf := setDirentInode (setDirentValid buf dirent true) dirent fInode
    let d := (← blockWrite d (newFile ctx u mode).toBlock fInode).1
    let d := (← blockWrite d buf inode).1
    .ok (0, d)

/-- `fs_create`. -/
def fsCreate (ctx : Ctx) (u : Stack) (path : CString) (mode : UInt32) (d : Disk) :
    Except Fault (ℤ × Disk) :=
  if path.head? ≠ some slash then .ok (-ENOENT, d)
  else if 0 < path2inum u d path then .ok (-EEXIST, d)
  else do
    let pathLen := (sepPath path).1
    let pathTokens := (sepPath path).2
    let parPaths ← parPath pathTokens path pathLen
    let name ← tokenAt pathTokens (pathLen - 1)
    -- Only the name is measured, and only here; `strcpy` copies it later.
    if 27 < name.length then .ok (-EINVAL, d)
    else
      let inode := path2inum u d parPaths
      if inode < 0 then .ok (-ENOENT, d)
      else
        -- The results of the two `block_read`s are not tested.
        let buf := (blockRead d (u .buf) inode).1
        if !(Inode.ofBlock buf).isDir then .ok (-ENOTDIR, d)
        else
          let inode := lbaOf ((Inode.ofBlock buf).ptr0)
          let buf := (blockRead d buf inode).1
          match findEmpty buf with
          | none => .ok (-ENOSPC, d)
          | some dirent => createEntry ctx u name mode inode buf dirent d

/-- The inode `sub_in` of a new directory. Only its first pointer is assigned. -/
def newDir (ctx : Ctx) (u : Stack) (mode : UInt32) (subDataInode : ℤ) : Inode :=
  { uid := ctx.uid.toUInt16
    gid := ctx.gid.toUInt16
    mode := newMode mode ((1 : UInt32) <<< 14)
    size := 4096
    ctime := ctx.now
    mtime := ctx.now
    ptrs := fun k =>
      if (k : ℕ) = 0 then UInt32.ofInt subDataInode else (Inode.ofBlock (u .subIn)).ptrs k }

/-- The part of `fs_mkdir` behind the search for a free entry `dirent` of the parent. -/
def mkdirEntry (ctx : Ctx) (u : Stack) (name : CString) (mode : UInt32) (parDataInode : ℤ)
    (parDataIn : Block) (dirent : ℕ) (d : Disk) : Except Fault (ℤ × Disk) := do
  let alloc ← allocBlk u d
  let subInode := alloc.1
  let d := alloc.2
  if subInode < 0 then .ok (subInode, d)
  else do
    let alloc ← allocBlk u d
    let subDataInode := alloc.1
    let d := alloc.2
    -- The block taken for the inode is given back.
    if subDataInode < 0 then do
      let d ← freeBlk u d subInode
      .ok (subDataInode, d)
    else do
      let d := (← blockWrite d Bytes.zero subDataInode).1
      let d := (← blockWrite d (newDir ctx u mode subDataInode).toBlock subInode).1
      let parDataIn := setDirentValid parDataIn dirent true
      let parDataIn ← strcpyName parDataIn dirent name
      let parDataIn := setDirentInode parDataIn dirent subInode
      let d := (← blockWrite d parDataIn parDataInode).1
      .ok (0, d)

/-- `fs_mkdir`. -/
def fsMkdir (ctx : Ctx) (u : Stack) (path : CString) (mode : UInt32) (d : Disk) :
    Except Fault (ℤ × Disk) :=
  if path.head? ≠ some slash then .ok (-ENOENT, d)
  else if 0 < path2inum u d path then .ok (-EEXIST, d)
  else do
    let pathLen := (sepPath path).1
    let pathTokens := (sepPath path).2
    let parPaths ← parPath pathTokens path pathLen
    let name ← tokenAt pathTokens (pathLen - 1)
    if 27 < name.length then .ok (-EINVAL, d)
    else
      let inode := path2inum u d parPaths
      if inode < 0 then .ok (-ENOENT, d)
      else
        let parIn := Inode.ofBlock (blockRead d (u .parIn) inode).1
        if !parIn.isDir then .ok (-ENOTDIR, d)
        else
          let parDataInode := lbaOf (parIn.ptr0)
          let parDataIn := (blockRead d (u .parDataIn) parDataInode).1
          match findEmpty parDataIn with
          | none => .ok (-ENOSPC, d)
          | some dirent => mkdirEntry ctx u name mode parDataInode parDataIn dirent d

/-- `for (i = 0; i < DIV_ROUND_UP(in.size, FS_BLOCK_SIZE); i++) free_blk(in.ptrs[i])`. -/
def freeBlocks (u : Stack) (x : Inode) (d : Disk) : Except Fault Disk :=
  (List.range x.nblocks).foldlM (fun d (k : ℕ) => do freeBlk u d (lbaOf (← x.ptrAt k))) d

/-- `fs_unlink`. -/
def fsUnlink (ctx : Ctx) (u : Stack) (path : CString) (d : Disk) : Except Fault (ℤ × Disk) :=
  if path.head? ≠ some slash then .ok (-ENOENT, d)
  else do
    let pathLen := (sepPath path).1
    let pathTokens := (sepPath path).2
    let parPaths ← parPath pathTokens path pathLen
    let parInode := path2inum u d parPaths
    if parInode < 0 then .ok (-ENOENT, d)
    else
      let parIn := Inode.ofBlock (blockRead d (u .parIn) parInode).1
      if !parIn.isDir then .ok (-ENOTDIR, d)
      else do
        let parDataInode := lbaOf (parIn.ptr0)
        let parDataIn := (blockRead d (u .parDataIn) parDataInode).1
        let name ← tokenAt pathTokens (pathLen - 1)
        match findDirent parDataIn name with
        | none => .ok (-ENOENT, d)
        | some dirent =>
          let fileInode := direntInode parDataIn dirent
          let fileIn := Inode.ofBlock (blockRead d (u .fileIn) fileInode).1
          -- A directory is left to `fs_rmdir`.
          if fileIn.isDir then .ok (-EISDIR, d)
          else do
            -- First the data, then the inode, then the entry and the parent's time.
            let d ← freeBlocks u fileIn d
            let d ← freeBlk u d fileInode
            let parDataIn := setDirentValid parDataIn dirent false
            let d := (← blockWrite d parDataIn parDataInode).1
            let parIn := { parIn with mtime := ctx.now }
            let d := (← blockWrite d parIn.toBlock parInode).1
            .ok (0, d)

/-- The part of `fs_rmdir` behind the lookup, for entry `dirent` of the parent. -/
def rmdirEntry (ctx : Ctx) (u : Stack) (parInode : ℤ) (parIn : Inode) (parDataIn : Block)
    (dirent : ℕ) (d : Disk) : Except Fault (ℤ × Disk) :=
  let subInode := direntInode parDataIn dirent
  let subIn := Inode.ofBlock (blockRead d (u .subIn) subInode).1
  if !subIn.isDir then .ok (-ENOTDIR, d)
  else
    let subDataInode := lbaOf (subIn.ptr0)
    let subDataIn := (blockRead d (u .subDataIn) subDataInode).1
    match findFull subDataIn with
    | some _ => .ok (-ENOTEMPTY, d)
    | none => do
      let d ← freeBlk u d subDataInode
      let d ← freeBlk u d subInode
      let parDataIn := setDirentValid parDataIn dirent false
      let d := (← blockWrite d parDataIn (lbaOf (parIn.ptr0))).1
      let parIn := { parIn with mtime := ctx.now }
      let d := (← blockWrite d parIn.toBlock parInode).1
      .ok (0, d)

/-- `fs_rmdir`. -/
def fsRmdir (ctx : Ctx) (u : Stack) (path : CString) (d : Disk) : Except Fault (ℤ × Disk) :=
  if path.head? ≠ some slash then .ok (-ENOENT, d)
  else
    let pathLen := (sepPath path).1
    let pathTokens := (sepPath path).2
    if pathLen = 0 then .ok (-ENOENT, d)
    else do
      let parPaths ← parPath pathTokens path pathLen
      let parInode := path2inum u d parPaths
      if parInode < 0 then .ok (-ENOENT, d)
      else
        let parIn := Inode.ofBlock (blockRead d (u .parIn) parInode).1
        if !parIn.isDir then .ok (-ENOTDIR, d)
        else do
          let parDataIn := (blockRead d (u .parDataIn) (lbaOf (parIn.ptr0))).1
          let name ← tokenAt pathTokens (pathLen - 1)
          match findDirent parDataIn name with
          | none => .ok (-ENOENT, d)
          | some dirent => rmdirEntry ctx u parInode parIn parDataIn dirent d

/-- A `size_t` from an `off_t` or an `int`. -/
def sizeT (n : ℤ) : ℕ := (n % 2^64).toNat

/-- `memcpy(buffer + off, src, src.length)`, where it stays inside the buffer. -/
def memcpy (buffer : Block) (off : ℕ) (src : List UInt8) : Except Fault Block :=
  if off + src.length ≤ 4096 then .ok (buffer.blit off src) else .error .outOfRange

/-- The head of the loop of `fs_write`: a block past the end of the file gets a new block. The
pointer is unsigned, so the test for a negative result of `alloc_blk` never succeeds. -/
def writeAlloc (u : Stack) (blockIni : ℤ) (x : Inode) (d : Disk) : Except Fault (Inode × Disk) :=
  if sizeT (divRoundUp x.size).toInt ≤ blockIni then do
    let alloc ← allocBlk u d
    let x ← x.setPtrAt blockIni (UInt32.ofInt alloc.1)
    .ok (x, alloc.2)
  else .ok (x, d)

/-- The loop of `fs_write`, on the data that is left: the inode with its new pointers, and the
disk. -/
def writeLoop (u : Stack) (blockIni : ℤ) (blockOffset : ℕ) (buf : List UInt8) (x : Inode)
    (buffer : Block) (d : Disk) : Except Fault (Inode × Disk) :=
  if buf = [] then .ok (x, d)
  else
    match writeAlloc u blockIni x d with
    | .error e => .error e
    | .ok r =>
      let x := r.1
      let d := r.2
      -- A failed `alloc_blk` has left its error number in the pointer.
      match _hp : x.ptrAt blockIni with
      | .error e => .error e
      | .ok p =>
        let buffer := (blockRead d buffer (lbaOf p)).1
        let room := sizeT (4096 - blockOffset)
        match memcpy buffer blockOffset (buf.take room) with
        | .error e => .error e
        | .ok buffer =>
          match blockWrite d buffer (lbaOf p) with
          | .error e => .error e
          | .ok w =>
            writeLoop u (blockIni + 1) (if room < buf.length then 0 else blockOffset)
              (buf.drop room) x buffer w.1
termination_by (1019 - blockIni).toNat
decreasing_by
  have := Inode.ptrAt_lt _hp
  omega

/-- The data that a caller passes to `fs_write`. No C object is larger than `PTRDIFF_MAX`. -/
structure Buf where
  bytes : List UInt8
  fits : bytes.length < 2^63

/-- `fs_write`. -/
def fsWrite (ctx : Ctx) (u : Stack) (path : CString) (buf : Buf) (offset : Int64) (d : Disk) :
    Except Fault (ℤ × Disk) :=
  let offset := offset.toInt
  let inode := path2inum u d path
  if inode < 0 then .ok (inode, d)
  else
    let x := Inode.ofBlock (blockRead d (u .ino) inode).1
    let len := buf.bytes.length
    if x.isDir then .ok (-EISDIR, d)
    else if x.size.toInt < offset then .ok (-EINVAL, d)
    -- The sum and the bound are compared as `size_t`.
    else if 4096 * 1019 < sizeT (offset + len) then .ok (-ENOSPC, d)
    else do
      let r ← writeLoop u (sizeT (offset.tdiv 4096)) (sizeT (offset.tmod 4096)) buf.bytes x
        (u .buffer) d
      let x := r.1
      let d := r.2
      let size := if sizeT x.size.toInt < sizeT (offset + len) then Int32.ofInt (offset + len)
        else x.size
      let x := { x with size := size, mtime := ctx.now }
      let d := (← blockWrite d x.toBlock inode).1
      -- `ret_code` is an `int`.
      .ok ((len : ℤ).bmod (2^32), d)

/-- `fs_truncate`. -/
def fsTruncate (u : Stack) (path : CString) (len : ℤ) (d : Disk) : Except Fault (ℤ × Disk) :=
  if len ≠ 0 then .ok (-EINVAL, d)
  else
    let inode := path2inum u d path
    if inode ≤ 0 then .ok (inode, d)
    else
      let x := Inode.ofBlock (blockRead d (u .ino) inode).1
      if x.isDir then .ok (-EISDIR, d)
      else do
        let d ← freeBlocks u x d
        let x := { x with size := 0 }
        let d := (← blockWrite d x.toBlock inode).1
        .ok (0, d)

/-- `fs_utime`; without a `utimbuf` the modification time becomes the current time. -/
def fsUtime (ctx : Ctx) (u : Stack) (path : CString) (ut : Option ℤ) (d : Disk) :
    Except Fault (ℤ × Disk) :=
  let inode := path2inum u d path
  if inode ≤ 0 then .ok (inode, d)
  else
    let x := Inode.ofBlock (blockRead d (u .ino) inode).1
    if x.isDir then .ok (-EISDIR, d)
    else do
      let x := { x with mtime := ctx.modtime ut }
      let d := (← blockWrite d x.toBlock inode).1
      .ok (0, d)

end Cs5600.Lab4
