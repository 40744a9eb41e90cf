import Cs5600.Lib.Trace
import Cs5600.Lab4.Namespace
import Mathlib.Algebra.BigOperators.Finprod
import Mathlib.Data.Set.Card

/-!
# The file system as its user sees it

A `FileSys` has a numbered node at each path, and no blocks, bitmap, or directory entries. `exec`
says what each request returns and leaves: what needs space is refused when the nodes and the bytes
of the files take up more than the device has, and a directory has room for 128 names. `Says` is
what a request hands back. A listing may come in any order, and the number of a new node is any that
no other node has; this is all the choice that there is.
-/

namespace Cs5600.Lab4

/-! ## Nodes -/

namespace Node

/-- Whether a node is a directory. -/
def isDir (n : Node) : Bool :=
  match n.body with
  | .dir => true
  | .file _ => false

/-- The bytes of a file. -/
def bytes (n : Node) : List UInt8 :=
  match n.body with
  | .dir => []
  | .file bytes => bytes

/-- The size of a node; a directory has one block. -/
def size (n : Node) : ℕ := if n.isDir then 4096 else n.bytes.length

/-- The number of blocks with the contents of a node. -/
def blocks (n : Node) : ℕ := (n.size + 4095) / 4096

/-- The number of blocks that a node takes up, with its inode. -/
def cost (n : Node) : ℕ := 1 + n.blocks

end Node

/-- A node with its number. -/
@[ext]
structure Vnode extends Node where
  ino : ℕ

/-- What `fs_getattr` and `fs_readdir` say about a node. -/
def Vnode.stat (n : Vnode) : Stat where
  ino := n.ino
  mode := n.mode
  nlink := 1
  uid := n.uid
  gid := n.gid
  size := n.size
  blocks := n.blocks
  atime := n.ctime
  mtime := n.mtime
  ctime := n.ctime

/-- The numbered node of a live node. -/
def LiveNode.vnode (n : LiveNode) : Vnode := { n.node with ino := n.inum }

/-! ## File systems -/

/-- What a user sees of the file system: what the superblock says, and a node at each path. -/
@[ext]
structure FileSys where
  magic : ℕ
  size : ℕ
  nodes : Path → Option Vnode

/-- What a user sees of a view. -/
def View.fileSys (v : View) : FileSys where
  magic := superMagic v.super
  size := superDiskSize v.super
  nodes p := (v.nodes p).map LiveNode.vnode

/-- What a user sees of a disk. -/
def fileSys (d : Disk) : FileSys := (view d).fileSys

namespace FileSys

variable (fs : FileSys)

/-- The directory at a path, or an error. -/
def dirAt (p : Path) : Except ℤ Vnode :=
  match fs.nodes p with
  | none => .error (-ENOENT)
  | some n => if n.isDir then .ok n else .error (-ENOTDIR)

/-- The names in a directory. -/
def entries (p : Path) : Set CString := {n | (fs.nodes (p ++ [n])).isSome}

/-- The error of a walk from `q` that does not arrive: that of the first component that cannot be
entered. -/
def walkError : Path → Path → ℤ
  | _, [] => -ENOENT
  | q, n :: ns =>
    if 27 < n.length then -ENOENT
    else match fs.dirAt q with
      | .ok _ => if (fs.nodes (q ++ [n])).isSome then walkError (q ++ [n]) ns else -ENOENT
      | .error _ => -ENOTDIR

/-- The number of blocks that the nodes take up. -/
noncomputable def used : ℕ := ∑ᶠ p, (fs.nodes p).elim 0 fun n => n.cost

/-- The number of blocks that are left; the first two of the 32768 have no node. -/
noncomputable def free : ℕ := 32766 - fs.used

/-- No node has the number. -/
def Fresh (ino : ℕ) : Prop := ∀ p n, fs.nodes p = some n → n.ino ≠ ino

/-- The file system with a node at `p`, or with none. -/
def put (p : Path) (n : Option Vnode) : FileSys := { fs with nodes := Function.update fs.nodes p n }

/-- Putting a node at a path changes that path. -/
theorem put_nodes (p : Path) (n : Option Vnode) :
    (fs.put p n).nodes = Function.update fs.nodes p n := rfl

/-- The file system with what is at and below `src` at and below `dst`. -/
def move (src dst : Path) : FileSys :=
  { fs with nodes := fun q => (unrename src dst q).bind fs.nodes }

/-- Moving a node takes those below it along. -/
theorem move_nodes (src dst q : Path) :
    (fs.move src dst).nodes q = (unrename src dst q).bind fs.nodes := rfl

/-! ## The operations that write -/

/-- `fs_create` and `fs_mkdir` of a node. The modification time of its directory stays as it is. -/
noncomputable def make (p : NormPath) (n : Vnode) : Except Fault (ℤ × FileSys) :=
  if (fs.nodes p.comps).isSome then .ok (-EEXIST, fs)
  else if 298 < (render p.parent).length then .error .outOfRange
  else if 27 < p.name.length then .ok (-EINVAL, fs)
  else match fs.dirAt p.parent with
    | .error rc => .ok (rc, fs)
    | .ok _ =>
      if (fs.entries p.parent).ncard < 128 ∧ n.cost ≤ fs.free then .ok (0, fs.put p.comps (some n))
      else .ok (-ENOSPC, fs)

/-- `fs_unlink` and `fs_rmdir`, which may refuse a node. -/
def remove (ctx : Ctx) (p : NormPath) (refuse : Vnode → Option ℤ) : Except Fault (ℤ × FileSys) :=
  if 298 < (render p.parent).length then .error .outOfRange
  else match fs.dirAt p.parent with
    | .error rc => .ok (rc, fs)
    | .ok par => match fs.nodes p.comps with
      | none => .ok (-ENOENT, fs)
      | some n => match refuse n with
        | some rc => .ok (rc, fs)
        | none =>
          .ok (0, (fs.put p.parent (some { par with mtime := ctx.now })).put p.comps none)

/-- `fs_rename`, which takes what is below the node along. -/
def rename (src dst : NormPath) : ℤ × FileSys :=
  if (fs.nodes src.comps).isNone then (-ENOENT, fs)
  else if (fs.nodes dst.comps).isSome then (-EEXIST, fs)
  else if src.parent ≠ dst.parent then (-EINVAL, fs)
  else (0, fs.move src.comps dst.comps)

/-- `fs_chmod`. -/
def chmod (p : Path) (mode : UInt32) : ℤ × FileSys :=
  match fs.nodes p with
  | none => (-ENOENT, fs)
  | some n =>
    (0, fs.put p (some { n with mode := (n.mode &&& 0xfffff000) ||| (mode &&& 0o7777) }))

/-- `fs_utime`, which refuses directories. -/
def utime (ctx : Ctx) (p : Path) (ut : Option ℤ) : ℤ × FileSys :=
  match fs.nodes p with
  | none => (fs.walkError [] p, fs)
  | some n =>
    if n.isDir then (-EISDIR, fs)
    else (0, fs.put p (some { n with mtime := ctx.modtime ut }))

/-- `fs_truncate`, which only truncates to nothing, and then keeps the modification time. -/
def truncate (p : Path) (len : ℤ) : ℤ × FileSys :=
  if len ≠ 0 then (-EINVAL, fs)
  else match fs.nodes p with
    | none => (fs.walkError [] p, fs)
    | some n =>
      if n.isDir then (-EISDIR, fs)
      else (0, fs.put p (some { n with body := .file [] }))

/-- A file after a write. -/
def written (ctx : Ctx) (n : Vnode) (buf : Buf) (offset : ℕ) : Vnode :=
  { n with mtime := ctx.now, body := .file (View.splice n.bytes offset buf.bytes) }

/-- `fs_write`. The process is aborted when there is not enough space. -/
noncomputable def write (ctx : Ctx) (p : Path) (buf : Buf) (offset : ℤ) :
    Except Fault (ℤ × FileSys) :=
  match fs.nodes p with
  | none => .ok (fs.walkError [] p, fs)
  | some n =>
    if n.isDir then .ok (-EISDIR, fs)
    else if (n.bytes.length : ℤ) < offset then .ok (-EINVAL, fs)
    else if 4096 * 1019 < sizeT (offset + buf.bytes.length) then .ok (-ENOSPC, fs)
    else if offset < 0 then .error .outOfRange
    else if fs.free + n.cost < (written ctx n buf offset.toNat).cost then .error .assertion
    else .ok (buf.bytes.length, fs.put p (some (written ctx n buf offset.toNat)))

/-! ## The operations that only read -/

/-- What `fs_statfs` reports. The differences are unsigned numbers of 32 and 64 bits. -/
noncomputable def statvfs : Statvfs :=
  let blocks := (fs.size + (2^32 - 2)) % 2^32
  let bfree := (blocks + (2^64 - fs.used)) % 2^64
  ⟨4096, 27, blocks, bfree, bfree⟩

/-- A listing has each name in the directory once, with what `fs_getattr` says of it. -/
structure Lists (p : Path) (l : List (CString × Stat)) : Prop where
  nodup : (l.map Prod.fst).Nodup
  mem : ∀ n st, (n, st) ∈ l ↔ ∃ c, fs.nodes (p ++ [n]) = some c ∧ c.stat = st

/-- The bytes that `fs_read` finds. -/
def found (p : Path) (len offset : ℕ) : List UInt8 :=
  (fs.nodes p).elim [] fun n => (n.bytes.drop offset).take len

/-- The result of an operation that reads a node. -/
def look (p : Path) (rc : Vnode → ℤ) : ℤ := (fs.nodes p).elim (fs.walkError [] p) rc

/-! ## Requests -/

open scoped Classical in
/-- What a request returns and leaves, when a node that it makes gets the number `ino`. -/
noncomputable def exec (ctx : Ctx) (ino : ℕ) : Request → Except Fault (ℤ × FileSys)
  | .init => if fs.magic ≠ fsMagic then .error .exit else .ok (0, fs)
  | .statfs _ => .ok (0, fs)
  | .getattr p => .ok (fs.look p.comps fun _ => 0, fs)
  | .readdir p => .ok (fs.look p.comps fun n => if n.isDir then 0 else -ENOTDIR, fs)
  | .read p len offset => .ok (fs.look p.comps fun n =>
      if n.isDir then -EISDIR else (fs.found p.comps len offset.toInt.toNat).length, fs)
  | .rename src dst => .ok (fs.rename src dst)
  | .chmod p mode => .ok (fs.chmod p.comps mode)
  | .create p mode => fs.make p ⟨⟨S_IFREG ||| (mode &&& 0o7777), ctx.uid.toUInt16, ctx.gid.toUInt16,
      ctx.now, ctx.now, .file []⟩, ino⟩
  | .mkdir p mode => fs.make p ⟨⟨S_IFDIR ||| (mode &&& 0o7777), ctx.uid.toUInt16, ctx.gid.toUInt16,
      ctx.now, ctx.now, .dir⟩, ino⟩
  | .unlink p => fs.remove ctx p fun n => if n.isDir then some (-EISDIR) else none
  | .rmdir p => fs.remove ctx p fun n =>
      if n.isDir then if (fs.entries p.comps).Nonempty then some (-ENOTEMPTY) else none
      else some (-ENOTDIR)
  | .write p buf offset => fs.write ctx p.comps buf offset.toInt
  | .truncate p len => .ok (fs.truncate p.comps len)
  | .utime p ut => .ok (fs.utime ctx p.comps ut)

/-- What a request hands back. -/
def Says : Request → Output → Prop
  | .statfs _, out => out = .statvfs (some fs.statvfs)
  | .getattr p, out => out = .stat ((fs.nodes p.comps).map Vnode.stat)
  | .readdir p, out => ∃ l, out = .entries l ∧ fs.Lists p.comps l
  | .read p len offset, out => out = .data (fs.found p.comps len offset.toInt.toNat)
  | _, out => out = .none

/-- A way to treat a request: what it returns, hands back, and leaves, or the fault that it runs
into. -/
inductive Step (r : Ctx × Request) (fs : FileSys) :
    Except Fault ((ℤ × Output) × FileSys) → Prop
  | returns {ino : ℕ} {rc : ℤ} {out : Output} {fs' : FileSys} (hfresh : fs.Fresh ino)
    (hexec : fs.exec r.1 ino r.2 = .ok (rc, fs')) (hout : fs.Says r.2 out) :
    Step r fs (.ok ((rc, out), fs'))
  | faults {ino : ℕ} {e : Fault} (hfresh : fs.Fresh ino) (hexec : fs.exec r.1 ino r.2 = .error e) :
    Step r fs (.error e)

end FileSys

end Cs5600.Lab4
