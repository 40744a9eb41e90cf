import Cs5600.Lab4.Resolve
import Mathlib.Logic.Function.Basic

/-!
# The abstract file system

A `View` is what the file system keeps on the disk, without the blocks: the superblock, the bitmap,
and what is live at each path. The operations of `fs_ops` are stated on views below. An operation
changes the view or leaves every block of the disk as it was; `Refines` relates such an `Outcome` to
what the code does on a disk.
-/

namespace Cs5600.Lab4

/-- What the entries of a directory block say. -/
abbrev Slots := ℕ → Option (ℕ × CString)

namespace LiveNode

/-- Whether a node is a directory. -/
def isDir (n : LiveNode) : Bool :=
  match n.body with
  | .dir _ => true
  | .file _ => false

/-- The entries of a directory; a file has none. -/
def slots (n : LiveNode) : Slots :=
  match n.body with
  | .dir slots => slots
  | .file _ => fun _ => none

/-- The bytes of a file; a directory has none. -/
def bytes (n : LiveNode) : List UInt8 :=
  match n.body with
  | .dir _ => []
  | .file bytes => bytes

/-- What `inode2stat` says about a node. -/
def stat (n : LiveNode) : Stat where
  ino := n.inum
  mode := n.mode
  nlink := 1
  uid := n.uid
  gid := n.gid
  size := n.size.toInt
  blocks := if n.isDir then 1 else (divRoundUp n.size).toInt
  atime := n.ctime
  mtime := n.mtime
  ctime := n.ctime

end LiveNode

/-- What the file system keeps on the disk. -/
@[ext]
structure View where
  super : Block
  bitmap : Block
  nodes : Path → Option LiveNode

/-- The view of a disk. -/
def view (d : Disk) : View := ⟨d.blk 0, d.blk 1, liveNode d⟩

/-- The view has the superblock. -/
@[simp]
theorem view_super (d : Disk) : (view d).super = d.blk 0 := rfl

/-- The view has the bitmap. -/
@[simp]
theorem view_bitmap (d : Disk) : (view d).bitmap = d.blk 1 := rfl

/-- The view has what paths lead to. -/
@[simp]
theorem view_nodes (d : Disk) : (view d).nodes = liveNode d := rfl

/-- What an operation does: its result, the blocks that it takes from the allocator with the latest
first, and the view afterwards, or `none` when no block changes. -/
structure Outcome where
  rc : ℤ
  handed : List ℕ
  view : Option View

/-- The outcome of an operation that fails without changing a block. -/
def fail (rc : ℤ) : Except Fault Outcome := .ok ⟨rc, [], none⟩

/-- The outcome of an operation that succeeds. -/
def done (rc : ℤ) (handed : List ℕ) (v : View) : Except Fault Outcome := .ok ⟨rc, handed, some v⟩

/-- The image of `d'` is as long as that of `d`, or longer by blocks of `bs`. -/
structure Disk.Grows (d d' : Disk) (bs : List ℕ) : Prop where
  le : d.nblks ≤ d'.nblks
  bound : ∀ n, d.nblks ≤ n → (∀ b ∈ bs, b < n) → d'.nblks ≤ n

/-- An image that keeps its length. -/
theorem Disk.Grows.of_eq {d d' : Disk} (bs : List ℕ) (h : d'.nblks = d.nblks) : d.Grows d' bs :=
  ⟨h.ge, fun _ hn _ => h.trans_le hn⟩

/-- An image that grows twice. -/
theorem Disk.Grows.trans {d d₁ d₂ : Disk} {bs : List ℕ} (h₁ : d.Grows d₁ bs) (h₂ : d₁.Grows d₂ bs) :
    d.Grows d₂ bs :=
  ⟨h₁.le.trans h₂.le, fun n hn hall => h₂.bound n (h₁.bound n hn hall) hall⟩

/-- A call that was made on `d` returned `rc` and left `d'`, as the outcome says. The image grows
over the blocks that the call takes only. -/
structure Outcome.Holds (o : Outcome) (d : Disk) (rc : ℤ) (d' : Disk) : Prop where
  rc : rc = o.rc
  handed : d'.handed = o.handed ++ d.handed
  unchanged : o.view = none → d'.nblks = d.nblks ∧ d'.blk = d.blk
  changed : ∀ v, o.view = some v → WellFormed d' ∧ Cs5600.Lab4.view d' = v
  grows : d.Grows d' o.handed

/-- What the code does on `d` is what the outcome says: the same fault, or a return. -/
def Refines (d : Disk) : Except Fault (ℤ × Disk) → Except Fault Outcome → Prop
  | .ok (rc, d'), .ok o => o.Holds d rc d'
  | .error e, .error e' => e = e'
  | _, _ => False

/-- An error with an unchanged disk refines an error. -/
theorem refines_fail (d : Disk) (rc : ℤ) : Refines d (.ok (rc, d)) (fail rc) :=
  ⟨rfl, rfl, fun _ => ⟨rfl, rfl⟩, fun _ h => (nomatch h), .of_eq [] rfl⟩

/-- A call that stops refines one that does. -/
theorem refines_error (d : Disk) (e : Fault) : Refines d (.error e) (.error e) := rfl

/-- A call that succeeds refines its outcome. -/
theorem refines_done {d d' : Disk} {rc : ℤ} {handed : List ℕ} {v : View}
    (hh : d'.handed = handed ++ d.handed) (hW : WellFormed d') (hv : view d' = v)
    (hgrows : d.Grows d' handed) :
    Refines d (.ok (rc, d')) (done rc handed v) :=
  ⟨rfl, hh, (nomatch ·), fun _ h => Option.some.inj h ▸ ⟨hW, hv⟩, hgrows⟩

/-- Whether a disk is well-formed depends on its blocks only. -/
theorem WellFormed.congr {d d' : Disk} (hW : WellFormed d) (hn : d'.nblks = d.nblks)
    (hb : d'.blk = d.blk) : WellFormed d' := by
  obtain ⟨n, b, h⟩ := d
  obtain ⟨n', b', h'⟩ := d'
  subst hn hb
  exact ⟨⟨hW.root, hW.node, hW.inj, hW.range⟩, hW.exact⟩

/-- A call that returns as an outcome says keeps the disk well-formed. -/
theorem Outcome.Holds.wellFormed {o : Outcome} {d d' : Disk} {rc : ℤ} (h : o.Holds d rc d')
    (hW : WellFormed d) : WellFormed d' := by
  cases hv : o.view with
  | none => exact hW.congr (h.unchanged hv).1 (h.unchanged hv).2
  | some v => exact (h.changed v hv).1

/-- The view of a disk after a call that returns as an outcome says. -/
theorem Outcome.Holds.view_eq {o : Outcome} {d d' : Disk} {rc : ℤ} (h : o.Holds d rc d') :
    Cs5600.Lab4.view d' = o.view.getD (Cs5600.Lab4.view d) := by
  cases hv : o.view with
  | some v => exact (h.changed v hv).2
  | none =>
    obtain ⟨n, b, l⟩ := d
    obtain ⟨n', b', l'⟩ := d'
    have hb : b' = b := (h.unchanged hv).2
    subst hb
    rfl

/-! ## Directories -/

/-- The first free entry of a directory. -/
def freeSlot (slots : Slots) : Option ℕ := (List.range 128).find? fun k => (slots k).isNone

/-- The first entry of a directory that is in use. -/
def usedSlot (slots : Slots) : Option ℕ := (List.range 128).find? fun k => (slots k).isSome

/-- The entry of a name. -/
def slotOf (slots : Slots) (name : CString) : Option ℕ :=
  (List.range 128).find? fun k => (slots k).any fun e => e.2 == name

/-- The path before `src` was renamed to `dst`; nothing is left at and below `src`. -/
def unrename (src dst q : Path) : Option Path :=
  if dst <+: q then some (src ++ q.drop dst.length) else if src <+: q then none else some q

namespace View

/-- The directory at a path and its entries, or an error. -/
def dirAt (v : View) (p : Path) : Except ℤ (LiveNode × Slots) :=
  match v.nodes p with
  | none => .error (-ENOENT)
  | some n => if n.isDir then .ok (n, n.slots) else .error (-ENOTDIR)

/-- The walk of `path2inum` from the path `q`: the inode number of what it arrives at, or the error
of the first component that cannot be entered. -/
def inum (v : View) : Path → Path → ℤ
  | q, [] => match v.nodes q with
    | some n => n.inum
    | none => -ENOENT
  | q, n :: ns =>
    if 27 < n.length then -ENOENT
    else match v.dirAt q with
      | .ok _ => if (v.nodes (q ++ [n])).isSome then v.inum (q ++ [n]) ns else -ENOENT
      | .error _ => -ENOTDIR

/-- The nodes with entry `k` of the directory `par` at `p` set to a new node of the given name, or
cleared. -/
def setEntry (v : View) (p : Path) (par : LiveNode) (slots : Slots) (k : ℕ) (name : CString)
    (mtime : UInt32) (child : Option LiveNode) : Path → Option LiveNode :=
  Function.update (Function.update v.nodes p (some { par with
    mtime := mtime
    body := .dir (Function.update slots k (child.map fun n => (n.inum, name))) }))
    (p ++ [name]) child

/-! ## The operations that write -/

/-- `fs_chmod` keeps the bits of the mode above the twelve permission bits. -/
def chmod (p : Path) (mode : UInt32) (v : View) : Except Fault Outcome :=
  match v.nodes p with
  | none => fail (-ENOENT)
  | some n =>
    let n := { n with mode := (n.mode &&& 0xfffff000) ||| (0x00000fff &&& mode) }
    done 0 [] { v with nodes := Function.update v.nodes p (some n) }

/-- `fs_utime`, which refuses directories. -/
def utime (ctx : Ctx) (p : Path) (ut : Option ℤ) (v : View) : Except Fault Outcome :=
  match v.nodes p with
  | none => fail (v.inum [] p)
  | some n =>
    if n.isDir then fail (-EISDIR)
    else
      let n := { n with mtime := ctx.modtime ut }
      done 0 [] { v with nodes := Function.update v.nodes p (some n) }

/-- `fs_truncate`, which only truncates to nothing. -/
def truncate (p : Path) (len : ℤ) (v : View) : Except Fault Outcome :=
  if len ≠ 0 then fail (-EINVAL)
  else match v.nodes p with
    | none => fail (v.inum [] p)
    | some n =>
      if n.isDir then fail (-EISDIR)
      else
        done 0 []
          { v with
            bitmap := clearAll v.bitmap n.ptrs
            nodes := Function.update v.nodes p
              (some { n with size := 0, ptrs := [], body := .file [] }) }

/-- `fs_create`. A parent whose part of the path has more than 298 bytes overruns the buffer of
`par_path`. -/
def create (ctx : Ctx) (p : NormPath) (mode : UInt32) (v : View) : Except Fault Outcome :=
  if (v.nodes p.comps).isSome then fail (-EEXIST)
  else if 298 < (render p.parent).length then .error .outOfRange
  else if 27 < p.name.length then fail (-EINVAL)
  else match v.dirAt p.parent with
    | .error rc => fail rc
    | .ok (par, slots) => match freeSlot slots, firstClear v.bitmap with
      | some k, some f =>
        let child : LiveNode :=
          { inum := f, uid := ctx.uid.toUInt16, gid := ctx.gid.toUInt16
            mode := newMode mode S_IFREG, ctime := ctx.now, mtime := ctx.now
            size := 0, ptrs := [], body := .file [] }
        done 0 [f]
          { v with
            bitmap := bitSet v.bitmap f
            nodes := v.setEntry p.parent par slots k p.name par.mtime (some child) }
      | _, _ => fail (-ENOSPC)

/-- `fs_mkdir`. When there is one free block only, it is handed out and given back. -/
def mkdir (ctx : Ctx) (p : NormPath) (mode : UInt32) (v : View) : Except Fault Outcome :=
  if (v.nodes p.comps).isSome then fail (-EEXIST)
  else if 298 < (render p.parent).length then .error .outOfRange
  else if 27 < p.name.length then fail (-EINVAL)
  else match v.dirAt p.parent with
    | .error rc => fail rc
    | .ok (par, slots) => match freeSlot slots, firstClear v.bitmap with
      | some k, some f => match firstClear (bitSet v.bitmap f) with
        | some b =>
          let child : LiveNode :=
            { inum := f, uid := ctx.uid.toUInt16, gid := ctx.gid.toUInt16
              mode := newMode mode S_IFDIR, ctime := ctx.now, mtime := ctx.now
              size := 4096, ptrs := [b], body := .dir fun _ => none }
          done 0 [b, f]
            { v with
              bitmap := bitSet (bitSet v.bitmap f) b
              nodes := v.setEntry p.parent par slots k p.name par.mtime (some child) }
        | none => .ok ⟨-ENOSPC, [f], none⟩
      | _, _ => fail (-ENOSPC)

/-- `fs_unlink` and `fs_rmdir` look the name up in its directory; `remove` says for the node that
they find whether it may go. -/
def removeWith (ctx : Ctx) (p : NormPath) (remove : LiveNode → Option ℤ) (v : View) :
    Except Fault Outcome :=
  if 298 < (render p.parent).length then .error .outOfRange
  else match v.dirAt p.parent with
    | .error rc => fail rc
    | .ok (par, slots) => match slotOf slots p.name, v.nodes p.comps with
      | some k, some n => match remove n with
        | some rc => fail rc
        | none =>
          done 0 []
            { v with
              bitmap := bitClear (clearAll v.bitmap n.ptrs) n.inum
              nodes := v.setEntry p.parent par slots k p.name ctx.now none }
      | _, _ => fail (-ENOENT)

/-- `fs_unlink`. -/
def unlink (ctx : Ctx) (p : NormPath) (v : View) : Except Fault Outcome :=
  v.removeWith ctx p fun n => if n.isDir then some (-EISDIR) else none

/-- `fs_rmdir`. -/
def rmdir (ctx : Ctx) (p : NormPath) (v : View) : Except Fault Outcome :=
  v.removeWith ctx p fun n =>
    if n.isDir then
      if (usedSlot n.slots).isSome then some (-ENOTEMPTY) else none
    else some (-ENOTDIR)

/-- The bytes `c` with those from `offset` on replaced by `bytes`. -/
def splice (c : List UInt8) (offset : ℕ) (bytes : List UInt8) : List UInt8 :=
  c.take offset ++ bytes ++ c.drop (offset + bytes.length)

/-- The number of blocks that a write makes a file longer by. -/
def blocksNeeded (size : ℕ) (stop : ℕ) : ℕ := (stop + 4095) / 4096 - (size + 4095) / 4096

/-- `fs_write`. A negative offset passes the checks and then runs off the inode's array or the block
buffer. When the allocator runs dry in the middle of a write, the process is aborted. -/
def write (ctx : Ctx) (p : Path) (buf : Buf) (offset : ℤ) (v : View) : Except Fault Outcome :=
  match v.nodes p with
  | none => fail (v.inum [] p)
  | some n =>
    if n.isDir then fail (-EISDIR)
    else
      let c := n.bytes
      let len := buf.bytes.length
      if (c.length : ℤ) < offset then fail (-EINVAL)
      else if 4096 * 1019 < sizeT (offset + len) then fail (-ENOSPC)
      else if offset < 0 then .error .outOfRange
      else match allocN (blocksNeeded c.length (offset.toNat + len)) v.bitmap with
        | none => .error .assertion
        | some (bs, bitmap) =>
          let c := splice c offset.toNat buf.bytes
          let n : LiveNode :=
            { n with
              size := Int32.ofInt c.length, ptrs := n.ptrs ++ bs, mtime :=
                ctx.now, body := .file c }
          done len bs.reverse
            { v with bitmap := bitmap, nodes := Function.update v.nodes p (some n) }

/-- `fs_rename` to a name of at most 27 bytes. -/
def rename (src dst : NormPath) (v : View) : Except Fault Outcome :=
  if (v.nodes src.comps).isNone then fail (-ENOENT)
  else if (v.nodes dst.comps).isSome then fail (-EEXIST)
  else if src.parent ≠ dst.parent then fail (-EINVAL)
  else match v.dirAt src.parent with
    | .error rc => fail rc
    | .ok (par, slots) => match slotOf slots src.name with
      | none => .error .nullDeref
      | some k =>
        let entry := (slots k).map fun e => (e.1, dst.name)
        let par : LiveNode := { par with body := .dir (Function.update slots k entry) }
        let nodes : Path → Option LiveNode := fun q =>
          if q = src.parent then some par else (unrename src.comps dst.comps q).bind v.nodes
        done 0 [] { v with nodes := nodes }

/-! ## The operations that only read -/

/-- `fs_init` accepts an image with the right magic number. -/
def init (v : View) : Except Fault Unit :=
  if superMagic v.super ≠ fsMagic then .error .exit else .ok ()

/-- `fs_statfs`. -/
def statfs (v : View) : ℤ × Option Statvfs :=
  let blocks := (superDiskSize v.super + (2^32 - 2)) % 2^32
  let bfree := (blocks + (2^64 - usedBlocks v.bitmap)) % 2^64
  (0, some ⟨4096, 27, blocks, bfree, bfree⟩)

/-- `fs_getattr`. -/
def getattr (p : Path) (v : View) : ℤ × Option Stat :=
  match v.nodes p with
  | none => (v.inum [] p, none)
  | some n => (0, some n.stat)

/-- `fs_readdir`: the entries of the directory in their order, each with its node. -/
def readdir (p : Path) (v : View) : ℤ × List (CString × Stat) :=
  match v.nodes p with
  | none => (v.inum [] p, [])
  | some n =>
    if n.isDir then
      (0, (List.range 128).filterMap fun k => (n.slots k).bind fun e =>
        (v.nodes (p ++ [e.2])).map fun c => (e.2, c.stat))
    else (-ENOTDIR, [])

/-- `fs_read` from an offset that is not negative. -/
def read (p : Path) (len offset : ℕ) (v : View) : ℤ × List UInt8 :=
  match v.nodes p with
  | none => (v.inum [] p, [])
  | some n =>
    if n.isDir then (-EISDIR, [])
    else
      let bytes := (n.bytes.drop offset).take len
      (bytes.length, bytes)

end View

/-! ## The view of a disk -/

section

variable {d : Disk} {p : Path} {i : ℕ}

/-- There is nothing at a path that leads nowhere. -/
theorem liveNode_none (h : resolve d p = none) : liveNode d p = none := by
  rw [liveNode, h, Option.map_none]

/-- What is at a path is the node of its inode. -/
theorem liveNode_some (h : resolve d p = some i) : liveNode d p = some (nodeView d i) := by
  rw [liveNode, h, Option.map_some]

/-- A node is a directory when its inode is. -/
@[simp]
theorem nodeView_isDir (d : Disk) (i : ℕ) : (nodeView d i).isDir = (inodeAt d i).isDir := by
  simp only [nodeView, LiveNode.isDir, bodyOf]
  cases (inodeAt d i).isDir <;> rfl

/-- The slots of a directory are those of its block. -/
theorem nodeView_slots (h : (inodeAt d i).isDir = true) :
    (nodeView d i).slots = slot (dirBlock d i) := by
  simp only [nodeView, LiveNode.slots, bodyOf, h, if_true]
  rfl

/-- The bytes of a file are its contents. -/
theorem nodeView_bytes (h : (inodeAt d i).isDir = false) :
    (nodeView d i).bytes = contents d (inodeAt d i) := by
  simp only [nodeView, LiveNode.bytes, bodyOf, h, Bool.false_eq_true, if_false]

/-- There is no directory at a path that leads nowhere. -/
theorem dirAt_none (h : resolve d p = none) : (view d).dirAt p = .error (-ENOENT) := by
  simp only [View.dirAt, view_nodes, liveNode_none h]

/-- A file is no directory. -/
theorem dirAt_file (h : resolve d p = some i) (hf : (inodeAt d i).isDir = false) :
    (view d).dirAt p = .error (-ENOTDIR) := by
  simp [View.dirAt, liveNode_some h, hf]

/-- A directory is found with its slots. -/
theorem dirAt_dir (h : resolve d p = some i) (hd : (inodeAt d i).isDir = true) :
    (view d).dirAt p = .ok (nodeView d i, slot (dirBlock d i)) := by
  simp [View.dirAt, liveNode_some h, hd, nodeView_slots hd]

/-- The walk over the view returns what `path2inum` does. -/
theorem inum_eq (ns : Path) :
    ∀ (q : Path) (i : ℕ), resolve d q = some i → (view d).inum q ns = walkInum d i ns := by
  -- Induction on the names left.
  induction ns with
  | nil =>
    intro q i hq
    simp only [View.inum, walkInum, view_nodes, liveNode_some hq, nodeView]
  | cons n ns ih =>
    intro q i hq
    have hnext := resolve_concat d q n
    rw [hq, Option.bind_some] at hnext
    rw [View.inum, walkInum]
    by_cases hlen : 27 < n.length
    · rw [if_pos hlen, if_pos hlen]
    · rw [if_neg hlen, if_neg hlen]
      cases hdir : (inodeAt d i).isDir with
      | false => simp [dirAt_file hq hdir]
      | true =>
        rw [dirAt_dir hq hdir]
        cases he : entry d i n with
        | none => simp [liveNode_none (hnext.trans he)]
        | some j =>
          have hj := hnext.trans he
          simp [liveNode_some hj, ← ih (q ++ [n]) j hj]

/-- The walk on the view of a disk is the walk on the disk. -/
theorem inum_view (p : Path) : (view d).inum [] p = walkInum d 2 p := inum_eq p [] 2 rfl

end

/-- `find_empty` returns the first free slot. -/
theorem findEmpty_eq (b : Block) : findEmpty b = freeSlot (slot b) := by
  unfold findEmpty freeSlot
  congr 1
  funext s
  cases h : slot b s with
  | none => simp [slot_eq_none.mp h]
  | some e => simp [slot_eq_some.mp h]

/-- `find_full` returns the first used slot. -/
theorem findFull_eq (b : Block) : findFull b = usedSlot (slot b) := by
  unfold findFull usedSlot
  congr 1
  funext s
  cases h : slot b s with
  | none => simp [slot_eq_none.mp h]
  | some e => simp [slot_eq_some.mp h]

/-- `find_dirent` returns the slot of the name. -/
theorem findDirent_eq (b : Block) (name : CString) : findDirent b name = slotOf (slot b) name := by
  unfold findDirent slotOf
  congr 1
  funext s
  cases h : slot b s with
  | none => simp [slot_eq_none.mp h]
  | some e => simp [slot_eq_some.mp h]

end Cs5600.Lab4
