import Cs5600.Lib.Walk
import Cs5600.Lab4.Calls

/-!
# The tree on the disk

What the blocks of a disk say as a file system. A directory inode binds names to inode numbers
(`entry`), and walking these from inode 2 gives the inode number of each path (`resolve`). The live
blocks are the inodes, the directory blocks, and the file blocks in use, each listed under the path
that it belongs to (`live`), so that "no live block occurs twice" says that `live` is injective.
`Tree` collects the conditions on the live blocks and `WellFormed` adds that the bitmap is exact.

`liveNode` is everything that the file system can observe at a path: the inode number, the header,
the pointers in use, and what the directory block says or the bytes of the file below its size.
-/

namespace Cs5600.Lab4

/-- A path as the list of its components. -/
abbrev Path := List CString

/-- The inode in block `i`. -/
def inodeAt (d : Disk) (i : ℕ) : Inode := Inode.ofBlock (d.blk i)

/-- The data block of the directory in block `i`. -/
def dirBlock (d : Disk) (i : ℕ) : Block := d.blk ((inodeAt d i).ptr 0)

/-- The inode number that inode `i` binds a name to, when it is a directory. -/
def entry (d : Disk) (i : ℕ) (name : CString) : Option ℕ :=
  if (inodeAt d i).isDir then dirEntry (dirBlock d i) name else none

/-- The inode number of a path. -/
def resolve (d : Disk) (p : Path) : Option ℕ := walk (entry d) 2 p

/-- The place of a live block: a path's inode, a directory's data block, or one of a file's
blocks. -/
inductive LiveKey where
  | inode (p : Path)
  | dirData (p : Path)
  | fileData (p : Path) (k : ℕ)
  deriving DecidableEq

/-- The path that a live block belongs to. -/
def LiveKey.path : LiveKey → Path
  | .inode p => p
  | .dirData p => p
  | .fileData p _ => p

/-- The pointers in use at inode `i`, by their place. -/
def livePtr (x : Inode) : LiveKey → Option ℕ
  | .inode _ => none
  | .dirData _ => if x.isDir then some (x.ptr 0) else none
  | .fileData _ k => if x.isDir = false ∧ k < x.nblocks then some (x.ptr k) else none

/-- The live block at a place. -/
def live (d : Disk) (k : LiveKey) : Option ℕ :=
  match k with
  | .inode p => resolve d p
  | k => (resolve d k.path).bind fun i => livePtr (inodeAt d i) k

/-- A reachable inode is a directory of one good block, or a file whose size is in range. -/
def NodeOk (d : Disk) (i : ℕ) : Prop :=
  if (inodeAt d i).isDir then (inodeAt d i).size.toInt = 4096 ∧ DirOk (dirBlock d i)
  else 0 ≤ (inodeAt d i).size.toInt ∧ (inodeAt d i).size.toInt ≤ 1019 * 4096

/-- The live blocks form a tree of directories and files below inode 2. -/
structure Tree (d : Disk) : Prop where
  root : (inodeAt d 2).isDir = true
  node : ∀ p i, resolve d p = some i → NodeOk d i
  inj : ∀ k k' b, live d k = some b → live d k' = some b → k = k'
  range : ∀ k b, live d k = some b → 2 ≤ b ∧ b < 32768 ∧ b < d.nblks

/-- The bitmap marks the superblock, itself, and exactly the live blocks. -/
def Exact (d : Disk) : Prop :=
  ∀ i < 32768, bit (d.blk 1) i = true ↔ i = 0 ∨ i = 1 ∨ ∃ k, live d k = some i

/-- A well-formed disk. The live blocks are blocks of the image, so that they have contents. -/
structure WellFormed (d : Disk) : Prop extends Tree d where
  exact : Exact d

/-! ## What can be observed at a path -/

/-- What an inode describes. -/
inductive Body where
  /-- A directory, with what each of its entries says. -/
  | dir (slots : ℕ → Option (ℕ × CString))
  /-- A file, with its bytes. -/
  | file (bytes : List UInt8)

/-- Everything live at a path. -/
@[ext]
structure LiveNode where
  inum : ℕ
  uid : UInt16
  gid : UInt16
  mode : UInt32
  ctime : UInt32
  mtime : UInt32
  size : Int32
  ptrs : List ℕ
  body : Body

/-- The bytes of a file below its size. -/
def contents (d : Disk) (x : Inode) : List UInt8 :=
  (List.range x.size.toInt.toNat).map fun j => (d.blk (x.ptr (j / 4096))).get (j % 4096)

/-- What an inode describes. -/
def bodyOf (d : Disk) (x : Inode) : Body :=
  if x.isDir then .dir (slot (d.blk (x.ptr 0))) else .file (contents d x)

/-- Everything live at inode `i`. -/
def nodeView (d : Disk) (i : ℕ) : LiveNode :=
  let x := inodeAt d i
  ⟨i, x.uid, x.gid, x.mode, x.ctime, x.mtime, x.size, (List.range x.nblocks).map x.ptr, bodyOf d x⟩

/-- Everything live at a path. -/
def liveNode (d : Disk) (p : Path) : Option LiveNode := (resolve d p).map (nodeView d)

end Cs5600.Lab4
