import Cs5600.Lab4.Image
import Cs5600.Lab4.Request

/-!
# The name space

What a user of the file system sees is a map from paths to nodes, where a node is a directory or a
file with its attributes, and the block numbers are hidden. `fs_create`, `fs_mkdir`, `fs_unlink`,
and `fs_rmdir` succeed exactly when the map, the directory of the parent, and the bitmap admit it,
and then change the map at one path only, up to the parent's modification time.
-/

namespace Cs5600.Lab4

/-- What a node holds. -/
inductive NodeBody where
  | dir
  | file (bytes : List UInt8)
  deriving DecidableEq

/-- A node of the name space; `mode` has its type and permissions. -/
@[ext]
structure Node where
  mode : UInt32
  uid : UInt16
  gid : UInt16
  ctime : UInt32
  mtime : UInt32
  body : NodeBody
  deriving DecidableEq

/-- What a live node is in the name space. -/
def LiveNode.node (n : LiveNode) : Node where
  mode := n.mode
  uid := n.uid
  gid := n.gid
  ctime := n.ctime
  mtime := n.mtime
  body := if n.isDir then .dir else .file n.bytes

/-- A directory whose entries and modification time have changed. -/
theorem LiveNode.node_dir {n : LiveNode} (h : n.isDir = true) (mtime : UInt32) (slots : Slots) :
    LiveNode.node { n with mtime := mtime, body := .dir slots } =
      { n.node with mtime := mtime } := by
  unfold node
  rw [if_pos h]
  rfl

/-- The name space of a view. -/
def View.names (v : View) (p : AbsPath) : Option Node := (v.nodes p.comps).map LiveNode.node

/-- The name space of a disk. -/
def names (d : Disk) : AbsPath → Option Node := (view d).names

/-- The path of the directory that holds the last component of a path. -/
def NormPath.dir (p : NormPath) : AbsPath := ⟨p.parent, p.parent_isName, p.parent_lt.le⟩

/-- The directory of a path has the components but the last one. -/
@[simp]
theorem NormPath.dir_comps (p : NormPath) : p.dir.comps = p.parent := rfl

/-- The number of valid entries of a directory block. -/
def validEntries (b : Block) : ℕ := (List.range 128).countP fun s => direntValid b s

/-- A block that `alloc_blk` may hand out. -/
def FreeBlock (d : Disk) (i : ℕ) : Prop := 3 ≤ i ∧ i < 32768 ∧ bit (d.blk 1) i = false

/-- A name that may be created: nothing has it, and there is room for it in its directory. -/
structure Creatable (d : Disk) (p : NormPath) : Prop where
  absent : resolve d p.comps = none
  parent : ∃ P, resolve d p.parent = some P ∧ (inodeAt d P).isDir = true ∧
    validEntries (dirBlock d P) < 128
  name_le : p.name.length ≤ 27

/-! ## Directory searches -/

/-- A directory has a free entry when fewer than 128 are valid. -/
theorem freeSlot_isSome (b : Block) : (freeSlot (slot b)).isSome ↔ validEntries b < 128 := by
  have hall := List.countP_eq_length (p := fun s => direntValid b s) (l := List.range 128)
  have hle := List.countP_le_length (p := fun s => direntValid b s) (l := List.range 128)
  rw [List.length_range] at hall hle
  rw [← findEmpty_eq, findEmpty, List.find?_isSome, validEntries, Nat.lt_iff_le_and_ne,
    and_iff_right hle, Ne, hall]
  simp

/-- A directory has a valid entry when their number is not 0. -/
theorem usedSlot_isSome (b : Block) : (usedSlot (slot b)).isSome ↔ validEntries b ≠ 0 := by
  rw [← findFull_eq, findFull, List.find?_isSome, validEntries, Ne, List.countP_eq_zero]
  simp

/-! ## Operations that succeed -/

section

variable {d : Disk}

/-- Whether an operation returns 0 can be read off its outcome. -/
theorem Refines.returns_zero {x : Except Fault (ℤ × Disk)} {o : Except Fault Outcome}
    (h : Refines d x o) : (∃ d', x = .ok (0, d')) ↔ ∃ o', o = .ok o' ∧ o'.rc = 0 := by
  cases x with
  | error e =>
    cases o with
    | error e' => simp
    | ok o' => exact h.elim
  | ok r =>
    cases o with
    | error e' => exact h.elim
    | ok o' =>
      have hrc : r.1 = o'.rc := h.rc
      constructor
      · rintro ⟨d', hd'⟩
        exact ⟨o', rfl, by rw [← hrc, Except.ok.inj hd']⟩
      · rintro ⟨o'', ho, h0⟩
        obtain rfl := Except.ok.inj ho
        exact ⟨r.2, congrArg _ (Prod.ext (hrc.trans h0) rfl)⟩

/-- The disk after an operation that returned. -/
theorem Refines.of_ok {rc : ℤ} {d' : Disk} {o : Except Fault Outcome}
    (h : Refines d (.ok (rc, d')) o) (hW : WellFormed d) :
    ∃ o', o = .ok o' ∧ o'.rc = rc ∧ WellFormed d' ∧ view d' = o'.view.getD (view d) := by
  cases o with
  | error e => exact h.elim
  | ok o' =>
    exact ⟨o', rfl, (Outcome.Holds.rc h).symm, Outcome.Holds.wellFormed h hW,
      Outcome.Holds.view_eq h⟩

end

namespace View

variable {v : View} {ctx : Ctx} {p : NormPath} {mode : UInt32} {o : Outcome}

/-- The name space after an entry of the directory of `p` has been set or cleared. -/
theorem names_setEntry {par : LiveNode} {slots : Slots} (k : ℕ) (mtime : UInt32)
    (child : Option LiveNode) {bitmap super : Block} (hdir : v.dirAt p.parent = .ok (par, slots)) :
    (View.mk super bitmap (v.setEntry p.parent par slots k p.name mtime child)).names =
      Function.update
        (Function.update v.names p.dir (some { par.node with mtime := mtime }))
        p.toAbsPath (child.map LiveNode.node) := by
  have hpar : par.isDir = true := by
    unfold dirAt at hdir
    split at hdir
    · cases hdir
    · split_ifs at hdir with h
      rw [← (Prod.mk.inj (Except.ok.inj hdir)).1]
      exact h
  funext q
  simp only [names, setEntry, Function.update_apply, AbsPath.ext_iff, NormPath.toAbsPath_comps,
    NormPath.dir_comps, NormPath.comps]
  split_ifs with h1 h2
  · rfl
  · rw [Option.map_some, LiveNode.node_dir hpar]
  · rfl

/-- The errors of a directory that is not there. -/
theorem dirAt_error {q : Path} {rc : ℤ} (h : v.dirAt q = .error rc) : rc < 0 := by
  unfold dirAt at h
  split at h
  · rw [← Except.error.inj h]; decide
  · split_ifs at h
    rw [← Except.error.inj h]; decide

/-- The directory at a path is a node of the name space. -/
theorem names_dir {par : LiveNode} {slots : Slots} (h : v.dirAt p.parent = .ok (par, slots)) :
    v.names p.dir = some par.node := by
  unfold dirAt at h
  split at h
  · cases h
  · rename_i n hn
    split_ifs at h
    rw [names, NormPath.dir_comps, hn, ← (Prod.mk.inj (Except.ok.inj h)).1, Option.map_some]

/-- A new entry in the directory of `p`, whose modification time stays as it is. -/
theorem names_addEntry {par child : LiveNode} {slots : Slots} {k : ℕ} {bitmap : Block}
    (h : v.dirAt p.parent = .ok (par, slots)) :
    View.names { v with
      bitmap := bitmap
      nodes := v.setEntry p.parent par slots k p.name par.mtime (some child) } =
      Function.update v.names p.toAbsPath (some child.node) := by
  rw [names_setEntry k par.mtime (some child) h, Option.map_some,
    show ({ par.node with mtime := par.mtime } : Node) = par.node from rfl, ← names_dir h,
    Function.update_eq_self]

/-- The mode of a new node. -/
theorem newMode_eq (mode type : UInt32) : newMode mode type = type ||| (mode &&& 0o7777) := by
  rw [newMode, UInt32.zero_or, UInt32.or_comm, UInt32.and_comm]

/-- `fs_create` that returns 0 has found a free entry and a free block, and made an empty file. -/
theorem create_zero (h : v.create ctx p mode = .ok o) (h0 : o.rc = 0) :
    v.nodes p.comps = none ∧ p.name.length ≤ 27 ∧
      (∃ f, firstClear v.bitmap = some f ∧ o.handed = [f] ∧
        (o.view.getD v).bitmap = bitSet v.bitmap f) ∧
      (∃ par slots, v.dirAt p.parent = .ok (par, slots) ∧ (freeSlot slots).isSome) ∧
      (o.view.getD v).names = Function.update v.names p.toAbsPath
        (some ⟨S_IFREG ||| (mode &&& 0o7777), ctx.uid.toUInt16, ctx.gid.toUInt16, ctx.now, ctx.now,
          .file []⟩) := by
  unfold create fail at h
  -- The outcomes other than success return an error number.
  split_ifs at h with h1 h2 h3
  · cases h; cases h0
  · cases h; cases h0
  · split at h
    · rename_i rc hrc
      have hneg := dirAt_error hrc
      cases h
      exact absurd h0 hneg.ne
    · rename_i par slots hdir
      split at h
      · rename_i k f hk hf
        cases h
        refine ⟨by simpa using h1, by omega, ⟨f, hf, rfl, rfl⟩,
          ⟨par, slots, hdir, by simp [hk]⟩, ?_⟩
        rw [Option.getD_some, names_addEntry hdir]
        simp only [LiveNode.node, LiveNode.isDir, LiveNode.bytes, newMode_eq, Bool.false_eq_true,
          if_false]
      · cases h; cases h0

/-- `fs_mkdir` that returns 0 has found a free entry and two free blocks, and made an empty
directory. -/
theorem mkdir_zero (h : v.mkdir ctx p mode = .ok o) (h0 : o.rc = 0) :
    v.nodes p.comps = none ∧ p.name.length ≤ 27 ∧
      (∃ f, firstClear v.bitmap = some f ∧ (firstClear (bitSet v.bitmap f)).isSome) ∧
      (∃ par slots, v.dirAt p.parent = .ok (par, slots) ∧ (freeSlot slots).isSome) ∧
      (o.view.getD v).names = Function.update v.names p.toAbsPath
        (some ⟨S_IFDIR ||| (mode &&& 0o7777), ctx.uid.toUInt16, ctx.gid.toUInt16, ctx.now, ctx.now,
          .dir⟩) := by
  unfold mkdir fail at h
  -- Only with both blocks is the outcome a success.
  split_ifs at h with h1 h2 h3
  · cases h; cases h0
  · cases h; cases h0
  · split at h
    · rename_i rc hrc
      have hneg := dirAt_error hrc
      cases h
      exact absurd h0 hneg.ne
    · rename_i par slots hdir
      split at h
      · rename_i k f hk hf
        split at h
        · rename_i b hb
          cases h
          refine ⟨by simpa using h1, by omega, ⟨f, hf, by simp [hb]⟩,
            ⟨par, slots, hdir, by simp [hk]⟩, ?_⟩
          rw [Option.getD_some, names_addEntry hdir]
          simp only [LiveNode.node, LiveNode.isDir, newMode_eq, if_true]
        · cases h; cases h0
      · cases h; cases h0

/-- `fs_unlink` and `fs_rmdir` that return 0 have found the node and taken it away. -/
theorem removeWith_zero {remove : LiveNode → Option ℤ} (h : v.removeWith ctx p remove = .ok o)
    (h0 : o.rc = 0) (hremove : ∀ n rc, remove n = some rc → rc ≠ 0) :
    ∃ par n, v.names p.dir = some par ∧ v.nodes p.comps = some n ∧ remove n = none ∧
      (o.view.getD v).names = Function.update
        (Function.update v.names p.dir (some { par with mtime := ctx.now })) p.toAbsPath none := by
  unfold removeWith fail at h
  split_ifs at h with h1
  split at h
  · rename_i rc hrc
    have hneg := dirAt_error hrc
    cases h
    exact absurd h0 hneg.ne
  · rename_i par slots hdir
    -- The entry is there, and `remove` raises no objection.
    split at h
    · rename_i k n hk hn
      split at h
      · rename_i rc hrc
        cases h
        exact absurd h0 (hremove n rc hrc)
      · rename_i hrm
        cases h
        refine ⟨par.node, n, names_dir hdir, hn, hrm, ?_⟩
        rw [Option.getD_some, names_setEntry k ctx.now none hdir, Option.map_none]
    · cases h; cases h0

/-- `fs_chmod` that returns 0 has changed the permissions of a node. -/
theorem chmod_zero (h : v.chmod p.comps mode = .ok o) (h0 : o.rc = 0) :
    ∃ n, v.names p.toAbsPath = some n ∧ (o.view.getD v).names = Function.update v.names p.toAbsPath
      (some { n with mode := (n.mode &&& 0xfffff000) ||| (mode &&& 0o7777) }) := by
  unfold chmod fail at h
  split at h
  · cases h; cases h0
  · rename_i n hn
    cases h
    refine ⟨n.node, by rw [names, NormPath.toAbsPath_comps, hn, Option.map_some], ?_⟩
    funext q
    simp only [Option.getD_some, names, Function.update_apply, AbsPath.ext_iff,
      NormPath.toAbsPath_comps]
    split_ifs
    · rw [Option.map_some, UInt32.and_comm mode]
      rfl
    · rfl

/-- What `fs_unlink` does not remove it reports as an error. -/
theorem unlink_rc (n : LiveNode) (rc : ℤ)
    (h : (if n.isDir then some (-EISDIR) else none) = some rc) : rc ≠ 0 := by
  split_ifs at h
  rw [← Option.some.inj h]
  decide

/-- What `fs_rmdir` does not remove it reports as an error. -/
theorem rmdir_rc (n : LiveNode) (rc : ℤ)
    (h : (if n.isDir then if (usedSlot n.slots).isSome then some (-ENOTEMPTY) else none
      else some (-ENOTDIR)) = some rc) : rc ≠ 0 := by
  split_ifs at h <;> rw [← Option.some.inj h] <;> decide

end View

/-! ## When the operations succeed -/

section

variable {d : Disk}

/-- A clear bit from 3 on is what `alloc_blk` looks for. -/
theorem firstClear_isSome {map : Block} :
    (firstClear map).isSome ↔ ∃ i, 3 ≤ i ∧ i < 32768 ∧ bit map i = false := by
  rw [← not_iff_not, Bool.not_eq_true, Option.isSome_eq_false_iff, Option.isNone_iff_eq_none,
    firstClear_eq_none]
  simp only [not_exists, not_and, Bool.not_eq_false]

/-- After one block has been handed out there is another one if two were free. -/
theorem firstClear_twice {map : Block} :
    (∃ f, firstClear map = some f ∧ (firstClear (bitSet map f)).isSome) ↔
      ∃ i j, i ≠ j ∧ (3 ≤ i ∧ i < 32768 ∧ bit map i = false) ∧
        3 ≤ j ∧ j < 32768 ∧ bit map j = false := by
  constructor
  · rintro ⟨f, hf, hsome⟩
    obtain ⟨hclear, h3, hlt, -⟩ := firstClear_eq_some.mp hf
    obtain ⟨j, hj3, hj, hbit⟩ := firstClear_isSome.mp hsome
    rw [bit_bitSet _ hlt, Bool.or_eq_false_iff, decide_eq_false_iff_not] at hbit
    exact ⟨f, j, Ne.symm hbit.1, ⟨h3, hlt, hclear⟩, hj3, hj, hbit.2⟩
  · rintro ⟨i, j, hne, hi, hj⟩
    obtain ⟨f, hf⟩ := Option.isSome_iff_exists.mp (firstClear_isSome.mpr ⟨i, hi⟩)
    obtain ⟨-, -, hlt, -⟩ := firstClear_eq_some.mp hf
    refine ⟨f, hf, firstClear_isSome.mpr ?_⟩
    -- The block that was handed out is at most one of the two.
    by_cases hfi : i = f
    · refine ⟨j, hj.1, hj.2.1, ?_⟩
      rw [bit_bitSet _ hlt, hj.2.2, decide_eq_false (fun h => hne (hfi.trans h.symm))]
      rfl
    · refine ⟨i, hi.1, hi.2.1, ?_⟩
      rw [bit_bitSet _ hlt, hi.2.2, decide_eq_false hfi]
      rfl

/-- The directory at a path of the tree. -/
theorem dirAt_eq_ok {q : Path} {par : LiveNode} {slots : Slots} :
    (view d).dirAt q = .ok (par, slots) ↔ ∃ P, resolve d q = some P ∧
      (inodeAt d P).isDir = true ∧ par = nodeView d P ∧ slots = slot (dirBlock d P) := by
  constructor
  · intro h
    cases hq : resolve d q with
    | none => rw [dirAt_none hq] at h; cases h
    | some P =>
      cases hdir : (inodeAt d P).isDir with
      | false => rw [dirAt_file hq hdir] at h; cases h
      | true =>
        rw [dirAt_dir hq hdir] at h
        obtain ⟨hpar, hslots⟩ := Prod.mk.inj (Except.ok.inj h)
        exact ⟨P, rfl, hdir, hpar.symm, hslots.symm⟩
  · rintro ⟨P, hP, hdir, rfl, rfl⟩
    exact dirAt_dir hP hdir

/-- There is nothing at a path that leads nowhere. -/
theorem liveNode_eq_none {q : Path} : liveNode d q = none ↔ resolve d q = none :=
  Option.map_eq_none_iff

/-- What makes a name creatable, on the view. -/
theorem creatable_iff {p : NormPath} :
    Creatable d p ↔ (view d).nodes p.comps = none ∧ p.name.length ≤ 27 ∧
      ∃ par slots, (view d).dirAt p.parent = .ok (par, slots) ∧ (freeSlot slots).isSome := by
  simp only [dirAt_eq_ok, view_nodes, liveNode_eq_none]
  constructor
  · rintro ⟨habsent, ⟨P, hP, hdir, hfree⟩, hlen⟩
    exact ⟨habsent, hlen, _, _, ⟨P, hP, hdir, rfl, rfl⟩, (freeSlot_isSome _).mpr hfree⟩
  · rintro ⟨habsent, hlen, par, slots, ⟨P, hP, hdir, rfl, rfl⟩, hfree⟩
    exact ⟨habsent, ⟨P, hP, hdir, (freeSlot_isSome _).mp hfree⟩, hlen⟩

variable (hW : WellFormed d) (ctx : Ctx) (u : Stack) (p : NormPath) (mode : UInt32)
include hW

/-- `fs_create` returns 0 when the name is new, its parent has room for it, and a block is free. -/
theorem fsCreate_zero_iff : (∃ d', fsCreate ctx u p.str mode d = .ok (0, d')) ↔
    Creatable d p ∧ ∃ i, FreeBlock d i := by
  rw [(fsCreate_refines hW ctx u p mode).returns_zero, creatable_iff]
  simp only [FreeBlock, ← firstClear_isSome]
  constructor
  · rintro ⟨o, ho, h0⟩
    obtain ⟨hnone, hlen, ⟨f, hf, -, -⟩, hdir, -⟩ := View.create_zero ho h0
    exact ⟨⟨hnone, hlen, hdir⟩, by rw [← view_bitmap, hf]; rfl⟩
  · rintro ⟨⟨hnone, hlen, par, slots, hdir, hslot⟩, hfree⟩
    obtain ⟨k, hk⟩ := Option.isSome_iff_exists.mp hslot
    obtain ⟨f, hf⟩ := Option.isSome_iff_exists.mp hfree
    obtain ⟨P, hP, -⟩ := dirAt_eq_ok.mp hdir
    have hfit := hW.render_parent_le p hP
    rw [View.create, hnone, if_neg (by simp), if_neg (by omega), if_neg (by omega), hdir]
    simp only [hk, view_bitmap, hf]
    exact ⟨_, rfl, rfl⟩

/-- `fs_mkdir` returns 0 when the name is new, its parent has room for it, and two blocks are
free. -/
theorem fsMkdir_zero_iff : (∃ d', fsMkdir ctx u p.str mode d = .ok (0, d')) ↔
    Creatable d p ∧ ∃ i j, i ≠ j ∧ FreeBlock d i ∧ FreeBlock d j := by
  rw [(fsMkdir_refines hW ctx u p mode).returns_zero, creatable_iff]
  simp only [FreeBlock, ← firstClear_twice]
  constructor
  · rintro ⟨o, ho, h0⟩
    obtain ⟨hnone, hlen, hfree, hdir, -⟩ := View.mkdir_zero ho h0
    exact ⟨⟨hnone, hlen, hdir⟩, hfree⟩
  · rintro ⟨⟨hnone, hlen, par, slots, hdir, hslot⟩, f, hf, hfree⟩
    obtain ⟨k, hk⟩ := Option.isSome_iff_exists.mp hslot
    obtain ⟨b, hb⟩ := Option.isSome_iff_exists.mp hfree
    obtain ⟨P, hP, -⟩ := dirAt_eq_ok.mp hdir
    have hfit := hW.render_parent_le p hP
    rw [View.mkdir, hnone, if_neg (by simp), if_neg (by omega), if_neg (by omega), hdir]
    simp only [hk, view_bitmap, hf, hb]
    exact ⟨_, rfl, rfl⟩

/-- `fs_unlink` and `fs_rmdir` find every node. -/
theorem removeWith_of_resolve {remove : LiveNode → Option ℤ} {i : ℕ}
    (hi : resolve d p.comps = some i) (hremove : remove (nodeView d i) = none) :
    ∃ o, (view d).removeWith ctx p remove = .ok o ∧ o.rc = 0 := by
  obtain ⟨P, hP, he⟩ := Option.bind_eq_some_iff.mp (resolve_concat d p.parent p.name ▸ hi)
  have hdir : (inodeAt d P).isDir = true := by
    unfold entry at he
    split_ifs at he with h
    exact h
  rw [entry, if_pos hdir, dirEntry] at he
  obtain ⟨k, hk, -⟩ := Option.map_eq_some_iff.mp he
  rw [findDirent_eq] at hk
  have hfit := hW.render_parent_le p hP
  rw [View.removeWith, if_neg (by omega), dirAt_dir hP hdir]
  simp only [hk, view_nodes, liveNode_some hi, hremove]
  exact ⟨_, rfl, rfl⟩

/-- `fs_unlink` returns 0 when the path leads to a file. -/
theorem fsUnlink_zero_iff : (∃ d', fsUnlink ctx u p.str d = .ok (0, d')) ↔
    ∃ i, resolve d p.comps = some i ∧ (inodeAt d i).isDir = false := by
  rw [(fsUnlink_refines hW ctx u p).returns_zero]
  constructor
  · rintro ⟨o, ho, h0⟩
    obtain ⟨-, n, -, hn, hrm, -⟩ := View.removeWith_zero ho h0 View.unlink_rc
    obtain ⟨i, hi, rfl⟩ := Option.map_eq_some_iff.mp hn
    refine ⟨i, hi, ?_⟩
    split_ifs at hrm with hdir
    simpa using hdir
  · rintro ⟨i, hi, hfile⟩
    exact removeWith_of_resolve hW ctx p hi (by simp [hfile])

/-- `fs_rmdir` returns 0 when the path leads to an empty directory. -/
theorem fsRmdir_zero_iff : (∃ d', fsRmdir ctx u p.str d = .ok (0, d')) ↔
    ∃ i, resolve d p.comps = some i ∧ (inodeAt d i).isDir = true ∧
      validEntries (dirBlock d i) = 0 := by
  rw [(fsRmdir_refines hW ctx u p).returns_zero]
  constructor
  · rintro ⟨o, ho, h0⟩
    obtain ⟨-, n, -, hn, hrm, -⟩ := View.removeWith_zero ho h0 View.rmdir_rc
    obtain ⟨i, hi, rfl⟩ := Option.map_eq_some_iff.mp hn
    split_ifs at hrm with hdir hused
    rw [nodeView_isDir] at hdir
    rw [nodeView_slots hdir, usedSlot_isSome, not_not] at hused
    exact ⟨i, hi, hdir, hused⟩
  · rintro ⟨i, hi, hdir, hempty⟩
    have hused : (usedSlot (nodeView d i).slots).isSome = false := by
      rw [nodeView_slots hdir, ← Bool.not_eq_true, usedSlot_isSome, not_not]
      exact hempty
    exact removeWith_of_resolve hW ctx p hi (by simp [hdir, hused])

omit ctx in
/-- `fs_chmod` returns 0 when the path leads to something. -/
theorem fsChmod_zero_iff : (∃ d', fsChmod u p.str mode d = .ok (0, d')) ↔
    ∃ i, resolve d p.comps = some i := by
  rw [(fsChmod_refines hW u p mode).returns_zero]
  constructor
  · rintro ⟨o, ho, h0⟩
    obtain ⟨n, hn, -⟩ := View.chmod_zero ho h0
    obtain ⟨n', hn', -⟩ := Option.map_eq_some_iff.mp hn
    obtain ⟨i, hi, -⟩ := Option.map_eq_some_iff.mp hn'
    exact ⟨i, hi⟩
  · rintro ⟨i, hi⟩
    rw [View.chmod, view_nodes, liveNode_some hi]
    exact ⟨_, rfl, rfl⟩

/-! ## The name space after an operation -/

variable {ctx u p mode} {d' : Disk}

/-- After `fs_create` there is an empty file at the path, and all else is as before. -/
theorem fsCreate_names (h : fsCreate ctx u p.str mode d = .ok (0, d')) :
    WellFormed d' ∧ names d' = Function.update (names d) p.toAbsPath
      (some ⟨S_IFREG ||| (mode &&& 0o7777), ctx.uid.toUInt16, ctx.gid.toUInt16, ctx.now, ctx.now,
        .file []⟩) := by
  have href := fsCreate_refines hW ctx u p mode
  rw [h] at href
  obtain ⟨o, ho, h0, hW', hview⟩ := href.of_ok hW
  rw [names, hview]
  exact ⟨hW', (View.create_zero ho h0).2.2.2.2⟩

/-- After `fs_mkdir` there is an empty directory at the path, and all else is as before. -/
theorem fsMkdir_names (h : fsMkdir ctx u p.str mode d = .ok (0, d')) :
    WellFormed d' ∧ names d' = Function.update (names d) p.toAbsPath
      (some ⟨S_IFDIR ||| (mode &&& 0o7777), ctx.uid.toUInt16, ctx.gid.toUInt16, ctx.now, ctx.now,
        .dir⟩) := by
  have href := fsMkdir_refines hW ctx u p mode
  rw [h] at href
  obtain ⟨o, ho, h0, hW', hview⟩ := href.of_ok hW
  rw [names, hview]
  exact ⟨hW', (View.mkdir_zero ho h0).2.2.2.2⟩

/-- After `fs_unlink` there is nothing at the path, its directory has a new time, and all else is as
before. -/
theorem fsUnlink_names (h : fsUnlink ctx u p.str d = .ok (0, d')) :
    WellFormed d' ∧ ∃ par, names d p.dir = some par ∧ names d' = Function.update
      (Function.update (names d) p.dir (some { par with mtime := ctx.now })) p.toAbsPath none := by
  have href := fsUnlink_refines hW ctx u p
  rw [h] at href
  obtain ⟨o, ho, h0, hW', hview⟩ := href.of_ok hW
  obtain ⟨par, n, hpar, -, -, hnames⟩ := View.removeWith_zero ho h0 View.unlink_rc
  rw [names, names, hview]
  exact ⟨hW', par, hpar, hnames⟩

/-- After `fs_rmdir` there is nothing at the path, its directory has a new time, and all else is as
before. -/
theorem fsRmdir_names (h : fsRmdir ctx u p.str d = .ok (0, d')) :
    WellFormed d' ∧ ∃ par, names d p.dir = some par ∧ names d' = Function.update
      (Function.update (names d) p.dir (some { par with mtime := ctx.now })) p.toAbsPath none := by
  have href := fsRmdir_refines hW ctx u p
  rw [h] at href
  obtain ⟨o, ho, h0, hW', hview⟩ := href.of_ok hW
  obtain ⟨par, n, hpar, -, -, hnames⟩ := View.removeWith_zero ho h0 View.rmdir_rc
  rw [names, names, hview]
  exact ⟨hW', par, hpar, hnames⟩

/-- After `fs_chmod` the permissions at the path are new, and all else is as before. -/
theorem fsChmod_names (h : fsChmod u p.str mode d = .ok (0, d')) :
    WellFormed d' ∧ ∃ n, names d p.toAbsPath = some n ∧
      names d' = Function.update (names d) p.toAbsPath
        (some { n with mode := (n.mode &&& 0xfffff000) ||| (mode &&& 0o7777) }) := by
  have href := fsChmod_refines hW u p mode
  rw [h] at href
  obtain ⟨o, ho, h0, hW', hview⟩ := href.of_ok hW
  rw [names, names, hview]
  exact ⟨hW', View.chmod_zero ho h0⟩

omit hW in
/-- The block device refines the name space: `fs_create`, `fs_mkdir`, `fs_unlink`, and `fs_rmdir`
succeed exactly under the conditions on the name, its directory, and the bitmap, and then bind or
unbind one path; `fs_chmod` changes the permissions at one. Removal sets the modification time of
the directory. -/
theorem names_refinement (hW : WellFormed d) (ctx : Ctx) (u : Stack) (p : NormPath)
    (mode : UInt32) :
    (((∃ d', fsCreate ctx u p.str mode d = .ok (0, d')) ↔ Creatable d p ∧ ∃ i, FreeBlock d i) ∧
      ∀ d', fsCreate ctx u p.str mode d = .ok (0, d') →
        WellFormed d' ∧ names d' = Function.update (names d) p.toAbsPath
          (some ⟨S_IFREG ||| (mode &&& 0o7777), ctx.uid.toUInt16, ctx.gid.toUInt16,
            ctx.now, ctx.now, .file []⟩)) ∧
    (((∃ d', fsMkdir ctx u p.str mode d = .ok (0, d')) ↔
        Creatable d p ∧ ∃ i j, i ≠ j ∧ FreeBlock d i ∧ FreeBlock d j) ∧
      ∀ d', fsMkdir ctx u p.str mode d = .ok (0, d') →
        WellFormed d' ∧ names d' = Function.update (names d) p.toAbsPath
          (some ⟨S_IFDIR ||| (mode &&& 0o7777), ctx.uid.toUInt16, ctx.gid.toUInt16,
            ctx.now, ctx.now, .dir⟩)) ∧
    (((∃ d', fsUnlink ctx u p.str d = .ok (0, d')) ↔
        ∃ i, resolve d p.comps = some i ∧ (inodeAt d i).isDir = false) ∧
      ∀ d', fsUnlink ctx u p.str d = .ok (0, d') →
        WellFormed d' ∧ ∃ par, names d p.dir = some par ∧ names d' = Function.update
          (Function.update (names d) p.dir (some { par with mtime := ctx.now })) p.toAbsPath none) ∧
    (((∃ d', fsRmdir ctx u p.str d = .ok (0, d')) ↔
        ∃ i, resolve d p.comps = some i ∧ (inodeAt d i).isDir = true ∧
          validEntries (dirBlock d i) = 0) ∧
      ∀ d', fsRmdir ctx u p.str d = .ok (0, d') →
        WellFormed d' ∧ ∃ par, names d p.dir = some par ∧ names d' = Function.update
          (Function.update (names d) p.dir (some { par with mtime := ctx.now })) p.toAbsPath none) ∧
    (((∃ d', fsChmod u p.str mode d = .ok (0, d')) ↔ ∃ i, resolve d p.comps = some i) ∧
      ∀ d', fsChmod u p.str mode d = .ok (0, d') →
        WellFormed d' ∧ ∃ n, names d p.toAbsPath = some n ∧
          names d' = Function.update (names d) p.toAbsPath
            (some { n with mode := (n.mode &&& 0xfffff000) ||| (mode &&& 0o7777) })) :=
  ⟨⟨fsCreate_zero_iff hW ctx u p mode, fun _ => fsCreate_names hW⟩,
    ⟨fsMkdir_zero_iff hW ctx u p mode, fun _ => fsMkdir_names hW⟩,
    ⟨fsUnlink_zero_iff hW ctx u p, fun _ => fsUnlink_names hW⟩,
    ⟨fsRmdir_zero_iff hW ctx u p, fun _ => fsRmdir_names hW⟩,
    ⟨fsChmod_zero_iff hW u p mode, fun _ => fsChmod_names hW⟩⟩

end

/-- The path `/a`. -/
def pathA : NormPath where
  parent := []
  name := [97]
  parent_isName := by simp
  name_isName := ⟨by decide, by decide, by decide⟩
  parent_lt := by decide

/-- The path `/b`. -/
def pathB : NormPath where
  parent := []
  name := [98]
  parent_isName := by simp
  name_isName := ⟨by decide, by decide, by decide⟩
  parent_lt := by decide

/-- The letter `b` is a name. -/
theorem isName_b : IsName [98] := pathB.name_isName

/-- One byte. -/
def oneByte : Buf where
  bytes := [120]
  fits := by decide

/-- A caller and a clock. -/
def someCtx : Ctx := ⟨500, 500, 1565283167⟩

/-- Uninitialised locals that hold zeros. -/
def zeroStack : Stack := fun _ => Bytes.zero

section

variable {size data : ℕ} (h3 : 3 ≤ data) (hdata : data < size) (hsize : size ≤ 32768)
include h3 hdata hsize

/-- Every name of at most 27 bytes may be created in the root directory of an empty image. -/
theorem genDisk_creatable {p : NormPath} (hp : p.parent = []) (hlen : p.name.length ≤ 27) :
    Creatable (genDisk size data) p where
  absent := by
    rw [NormPath.comps, hp]
    exact genDisk_resolve h3 hdata hsize _ _
  parent := by
    refine ⟨2, by rw [hp]; rfl, genDisk_isDir, ?_⟩
    have hzero : validEntries (Bytes.zero : Block) = 0 := by
      rw [validEntries, List.countP_eq_zero]
      intro s _
      simp [slot_eq_none.mp (slot_zero s)]
    rw [genDisk_dirBlock h3 hdata hsize, hzero]
    norm_num
  name_le := hlen

end

/-- `fs_create("/a")` on the image of `disk2.in`. -/
theorem disk2_create : ∃ d' n, fsCreate someCtx zeroStack pathA.str 0o644 disk2 = .ok (0, d') ∧
    WellFormed d' ∧ liveNode d' pathA.comps = some n ∧ n.isDir = false ∧ n.bytes = [] ∧
      1 ≤ (clearBits (d'.blk 1) 32768).card := by
  obtain ⟨d', hd'⟩ := (fsCreate_zero_iff disk2_wellFormed someCtx zeroStack pathA 0o644).mpr
    ⟨genDisk_creatable (by norm_num) (by norm_num) (by norm_num) rfl (by decide), 3, by norm_num,
      by norm_num, disk2_bit (by norm_num) (by norm_num)⟩
  obtain ⟨hW', hnames⟩ := fsCreate_names disk2_wellFormed hd'
  have href := fsCreate_refines disk2_wellFormed someCtx zeroStack pathA 0o644
  rw [hd'] at href
  obtain ⟨o, ho, h0, -, hview⟩ := href.of_ok disk2_wellFormed
  obtain ⟨-, -, ⟨f, hf, -, hbitmap⟩, -, -⟩ := View.create_zero ho h0
  rw [← hview, view_bitmap, view_bitmap] at hbitmap
  obtain ⟨-, -, hlt, -⟩ := firstClear_eq_some.mp hf
  have hnode := congrFun hnames pathA.toAbsPath
  rw [Function.update_self] at hnode
  obtain ⟨n, hn, hbody⟩ := Option.map_eq_some_iff.mp hnode
  have hbody' : (if n.isDir then NodeBody.dir else .file n.bytes) = .file [] :=
    congrArg Node.body hbody
  refine ⟨d', n, hd', hW', hn, ?_⟩
  split_ifs at hbody' with hdir
  refine ⟨by simpa using hdir, NodeBody.file.inj hbody', ?_⟩
  -- Of the free blocks 3 and 4 at most one has been handed out.
  rw [hbitmap, clearBits_bitSet hlt, Nat.one_le_iff_ne_zero, Ne, Finset.card_eq_zero,
    ← Ne, ← Finset.nonempty_iff_ne_empty]
  by_cases h3 : f = 3
  · exact ⟨4, Finset.mem_erase.mpr ⟨by omega, mem_clearBits.mpr ⟨by norm_num,
      disk2_bit (by norm_num) (by norm_num)⟩⟩⟩
  · exact ⟨3, Finset.mem_erase.mpr ⟨by omega, mem_clearBits.mpr ⟨by norm_num,
      disk2_bit (by norm_num) (by norm_num)⟩⟩⟩

/-- On the image of `disk2.in`, `fs_create("/a")` succeeds and binds `/a` to an empty file. -/
theorem names_refinement_disk2 : WellFormed disk2 ∧ ∃ d',
    fsCreate someCtx zeroStack pathA.str 0o644 disk2 = .ok (0, d') ∧
      names d' pathA.toAbsPath = some ⟨0o100644, 500, 500, 1565283167, 1565283167, .file []⟩ := by
  obtain ⟨⟨hiff, hnames⟩, -⟩ := names_refinement disk2_wellFormed someCtx zeroStack pathA 0o644
  obtain ⟨d', hd'⟩ := hiff.mpr ⟨genDisk_creatable (by norm_num) (by norm_num) (by norm_num) rfl
    (by decide), 3, by norm_num, by norm_num, by
      rw [← Bool.not_eq_true]
      exact (bit_genBitmap (by norm_num) 3).not.mpr (by norm_num)⟩
  refine ⟨disk2_wellFormed, d', hd', ?_⟩
  rw [(hnames d' hd').2, Function.update_self]
  rfl

end Cs5600.Lab4
