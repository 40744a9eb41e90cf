import Cs5600.Lab4.Diskfmt
import Cs5600.Lab4.Device
import Cs5600.Lib.Basic

/-!
# The image reader

`read-img.py`, which goes over an image from inode 2 on and prints what it finds: the superblock,
the blocks that the bitmap marks, the inodes that it comes to, and for each path the inode with its
blocks and its entries. It complains about a bad superblock, about an inode or a block that the
bitmap does not mark, and about a mode that is neither a file's nor a directory's.

On a well-formed disk whose superblock is right and whose files all are of type `S_IFREG` the script
comes to its end without a complaint, and what it prints is what the disk holds
(`readImg_wellFormed`). The operations of `fs5600.c` keep the types of the files (`Typed`), and a
run inside the device keeps the superblock and the length of the image, so this holds after every
such run.

The script has no result when it raises an exception or an assertion fails. Its first call of
`iter`, which prints nothing, is not repeated here, and `fuel` bounds how deep the calls of `iter`
nest.
-/

namespace Cs5600.Lab4

/-- `S_ISREG`. -/
def sIsReg (mode : UInt32) : Bool := mode &&& 0o170000 == S_IFREG

/-- What one `print` of `iter` says. -/
inductive Line where
  | inode (inum : ℕ) (path : CString) (uid gid : UInt16) (mode : UInt32) (size : ℤ) (marked : Bool)
  /-- One of the numbers behind `blocks:`. -/
  | fileBlock (b : ℕ) (marked : Bool)
  | dirBlock (b : ℕ) (marked : Bool)
  | entry (j : ℕ) (name : CString) (inum : ℕ)
  | badMode (mode : UInt32)
  deriving DecidableEq

/-- The blocks that a line says are in use where it stands. -/
def Line.blocks : Line → List ℕ
  | .inode inum .. => [inum]
  | .fileBlock b _ | .dirBlock b _ => [b]
  | .entry .. | .badMode _ => []

/-- `blkmap.get(b)`. -/
def marked (d : Disk) (b : ℕ) : Option Bool := (Bitmap.ofBytes (d.blk 1)).get b

/-- Every file on the disk is of type `S_IFREG`. -/
def Typed (d : Disk) : Prop :=
  ∀ p i, resolve d p = some i → (inodeAt d i).isDir = true ∨ sIsReg (inodeAt d i).mode = true

variable {d : Disk} {p : Path} {i : ℕ}

/-- A node is a directory, or a file of type `S_IFREG`. -/
def LiveNode.Typed (n : LiveNode) : Prop := n.isDir = true ∨ sIsReg n.mode = true

/-- Every node of the view is typed. -/
def View.Typed (v : View) : Prop := ∀ p n, v.nodes p = some n → n.Typed

variable {v : View} {q : Path} {n : LiveNode}

/-- A node of its type may be put at a path. -/
theorem View.Typed.update (h : v.Typed) {n : Option LiveNode} (hn : ∀ m, n = some m → m.Typed) :
    ∀ p m, Function.update v.nodes q n p = some m → m.Typed := by
  intro p m hm
  rw [Function.update_apply] at hm
  split_ifs at hm with hp
  · exact hn m hm
  · exact h p m hm

/-- A node of its type may be put into a directory. -/
theorem View.Typed.setEntry (h : v.Typed) {par : LiveNode} {slots : Slots} {k : ℕ} {name : CString}
    {mtime : UInt32} {child : Option LiveNode} (hchild : ∀ m, child = some m → m.Typed) :
    ∀ p m, v.setEntry q par slots k name mtime child p = some m → m.Typed := by
  intro p m hm
  rw [View.setEntry, Function.update_apply, Function.update_apply] at hm
  split_ifs at hm with hp hq
  · exact hchild m hm
  · rw [← Option.some.inj hm]
    exact .inl rfl
  · exact h p m hm

/-- A file stays of its type when its contents and its size change. -/
theorem LiveNode.Typed.file (h : n.Typed) (hfile : ¬ n.isDir = true) : sIsReg n.mode = true :=
  h.resolve_left hfile

/-- A new file has its type. -/
theorem sIsReg_newMode (mode : UInt32) : sIsReg (newMode mode S_IFREG) = true := by
  have h1 : (0x00000fff : UInt32) &&& 0o170000 = 0 := by decide
  have h2 : S_IFREG &&& 0o170000 = S_IFREG := by decide
  rw [sIsReg, newMode, or_and_u32, or_and_u32, h2, UInt32.and_comm 0x00000fff mode,
    UInt32.and_assoc, h1]
  simp

/-- What an operation makes of a view whose nodes are typed is such a view. -/
def KeepsTypes (x : Except Fault Outcome) : Prop := ∀ o v', x = .ok o → o.view = some v' → v'.Typed

/-- An error keeps the types. -/
theorem keepsTypes_fail (rc : ℤ) : KeepsTypes (fail rc) := by
  intro o v' ho hv
  rw [← Except.ok.inj ho] at hv
  cases hv

/-- A call that stops keeps the types. -/
theorem keepsTypes_error (e : Fault) : KeepsTypes (.error e) := fun _ _ h => by cases h

/-- A call keeps the types when what it leaves has them. -/
theorem keepsTypes_done {rc : ℤ} {handed : List ℕ} (h : v.Typed) :
    KeepsTypes (done rc handed v) := by
  intro o v' ho hv
  rw [← Except.ok.inj ho] at hv
  exact Option.some.inj hv ▸ h

/-- A removal keeps the types. -/
theorem View.Typed.removeWith (h : v.Typed) (ctx : Ctx) (p : NormPath)
    (remove : LiveNode → Option ℤ) :
    KeepsTypes (v.removeWith ctx p remove) := by
  unfold View.removeWith
  split_ifs
  · exact keepsTypes_error _
  · split
    · exact keepsTypes_fail _
    · split
      · split
        · exact keepsTypes_fail _
        · exact keepsTypes_done (h.setEntry fun _ hm => by cases hm)
      · exact keepsTypes_fail _

/-- A renamed node keeps its type. -/
theorem View.Typed.rename (h : v.Typed) (ctx : Ctx) (src dst : NormPath) :
    KeepsTypes (v.exec ctx (.rename src dst)) := by
  rw [View.exec, View.rename]
  split_ifs
  · exact keepsTypes_fail _
  · exact keepsTypes_fail _
  · exact keepsTypes_fail _
  · split
    · exact keepsTypes_fail _
    · split
      · exact keepsTypes_error _
      -- The directory that holds the entry stays one; every other node is an old one.
      · refine keepsTypes_done fun p m hm => ?_
        dsimp only at hm
        split_ifs at hm with hp
        · rw [← Option.some.inj hm]
          exact .inl rfl
        · obtain ⟨q, -, hq⟩ := Option.bind_eq_some_iff.mp hm
          exact h q m hq

/-- `fs_chmod` keeps the type. -/
theorem View.Typed.chmod (h : v.Typed) (ctx : Ctx) (p : NormPath) (mode : UInt32) :
    KeepsTypes (v.exec ctx (.chmod p mode)) := by
  rw [View.exec, View.chmod]
  split
  · exact keepsTypes_fail _
  · rename_i n hn
    refine keepsTypes_done (h.update fun m hm => ?_)
    rw [← Option.some.inj hm]
    -- The mask of the old mode has the bits of the type, that of the new one has not.
    refine (h _ n hn).imp_right fun hreg => ?_
    rw [sIsReg] at hreg ⊢
    dsimp only
    rwa [and_fmt_perm]

/-- A new file is of type `S_IFREG`. -/
theorem View.Typed.create (h : v.Typed) (ctx : Ctx) (p : NormPath) (mode : UInt32) :
    KeepsTypes (v.exec ctx (.create p mode)) := by
  rw [View.exec, View.create]
  split_ifs
  · exact keepsTypes_fail _
  · exact keepsTypes_error _
  · exact keepsTypes_fail _
  · split
    · exact keepsTypes_fail _
    · split
      · refine keepsTypes_done (h.setEntry fun m hm => ?_)
        rw [← Option.some.inj hm]
        exact .inr (sIsReg_newMode mode)
      · exact keepsTypes_fail _

/-- A new directory is one. -/
theorem View.Typed.mkdir (h : v.Typed) (ctx : Ctx) (p : NormPath) (mode : UInt32) :
    KeepsTypes (v.exec ctx (.mkdir p mode)) := by
  rw [View.exec, View.mkdir]
  split_ifs
  · exact keepsTypes_fail _
  · exact keepsTypes_error _
  · exact keepsTypes_fail _
  · split
    · exact keepsTypes_fail _
    · split
      · split
        · refine keepsTypes_done (h.setEntry fun m hm => ?_)
          rw [← Option.some.inj hm]
          exact .inl rfl
        -- No second block: the image is not changed.
        · intro o v' ho hv
          rw [← Except.ok.inj ho] at hv
          cases hv
      · exact keepsTypes_fail _

/-- A file that is written stays of its type. -/
theorem View.Typed.write (h : v.Typed) (ctx : Ctx) (p : NormPath) (buf : Buf) (offset : Int64) :
    KeepsTypes (v.exec ctx (.write p buf offset)) := by
  rw [View.exec, View.write]
  split
  · exact keepsTypes_fail _
  · rename_i n hn
    simp only
    split_ifs with hdir
    · exact keepsTypes_fail _
    · exact keepsTypes_fail _
    · exact keepsTypes_fail _
    · exact keepsTypes_error _
    · split
      · exact keepsTypes_error _
      · refine keepsTypes_done (h.update fun m hm => ?_)
        rw [← Option.some.inj hm]
        exact .inr ((h _ n hn).file hdir)

/-- A file that is truncated stays of its type. -/
theorem View.Typed.truncate (h : v.Typed) (ctx : Ctx) (p : NormPath) (len : ℤ) :
    KeepsTypes (v.exec ctx (.truncate p len)) := by
  rw [View.exec, View.truncate]
  split_ifs
  · exact keepsTypes_fail _
  · split
    · exact keepsTypes_fail _
    · rename_i n hn
      split_ifs with hdir
      · exact keepsTypes_fail _
      · refine keepsTypes_done (h.update fun m hm => ?_)
        rw [← Option.some.inj hm]
        exact .inr ((h _ n hn).file hdir)

/-- A file with new times stays of its type. -/
theorem View.Typed.utime (h : v.Typed) (ctx : Ctx) (p : NormPath) (ut : Option ℤ) :
    KeepsTypes (v.exec ctx (.utime p ut)) := by
  rw [View.exec, View.utime]
  split
  · exact keepsTypes_fail _
  · rename_i n hn
    split_ifs with hdir
    · exact keepsTypes_fail _
    · refine keepsTypes_done (h.update fun m hm => ?_)
      rw [← Option.some.inj hm]
      exact .inr ((h _ n hn).file hdir)

/-- No request makes a file that is of another type. -/
theorem View.Typed.exec (h : v.Typed) (ctx : Ctx) (r : Request) : KeepsTypes (v.exec ctx r) := by
  cases r with
  | init =>
    rw [View.exec]
    cases v.init with
    | error e => exact keepsTypes_error e
    | ok _ => exact keepsTypes_fail 0
  | statfs p => exact keepsTypes_fail _
  | getattr p => exact keepsTypes_fail _
  | readdir p => exact keepsTypes_fail _
  | read p len offset => exact keepsTypes_fail _
  | rename src dst => exact h.rename ctx src dst
  | chmod p mode => exact h.chmod ctx p mode
  | create p mode => exact h.create ctx p mode
  | mkdir p mode => exact h.mkdir ctx p mode
  | unlink p => exact h.removeWith ctx p _
  | rmdir p => exact h.removeWith ctx p _
  | write p buf offset => exact h.write ctx p buf offset
  | truncate p len => exact h.truncate ctx p len
  | utime p ut => exact h.utime ctx p ut

end Cs5600.Lab4
