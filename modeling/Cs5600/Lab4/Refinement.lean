import Cs5600.Lab4.FileSystem
import Cs5600.Lab4.Full
import Cs5600.Lab4.Listing
import Cs5600.Lab4.Usage

/-!
# What a user sees of a run

The code refines the file system of `FileSystem.lean`: on a well-formed disk each of the fourteen
requests does what `FileSys.exec` says of what the disk shows, and hands back what `FileSys.Says`
(`Request.run_step`). So every run of requests looks like a run of that file system, up to the fault
that may end it (`trace_fileSys`).
-/

namespace Cs5600.Lab4

/-! ## Nodes -/

section

variable (n : LiveNode)

/-- A node is seen with its number. -/
@[simp]
theorem LiveNode.vnode_ino : n.vnode.ino = n.inum := rfl

/-- A node is seen as a directory when it is one. -/
@[simp]
theorem LiveNode.vnode_isDir : n.vnode.isDir = n.isDir := by
  show Node.isDir { n.node with } = n.isDir
  unfold node Node.isDir
  cases h : n.isDir <;> rfl

/-- A node is seen with its bytes. -/
@[simp]
theorem LiveNode.vnode_bytes : n.vnode.bytes = n.bytes := by
  unfold vnode node Node.bytes
  cases hbody : n.body with
  | dir slots =>
    have hdir : n.isDir = true := by rw [isDir, hbody]
    simp only [hdir, if_true, bytes, hbody]
  | file data =>
    have hfile : n.isDir = false := by rw [isDir, hbody]
    simp only [hfile, Bool.false_eq_true, if_false]

/-- A directory has no bytes. -/
theorem LiveNode.bytes_of_isDir (h : n.isDir = true) : n.bytes = [] := by
  unfold isDir at h
  unfold bytes
  cases hbody : n.body with
  | dir slots => rfl
  | file data => rw [hbody] at h; cases h

end

variable {d : Disk}

/-- The nodes that a user sees are those that paths lead to. -/
theorem fileSys_nodes (d : Disk) (p : Path) :
    (fileSys d).nodes p = (liveNode d p).map LiveNode.vnode := rfl

/-- The nodes that a user sees are those of the view. -/
theorem View.fileSys_nodes (v : View) (p : Path) :
    v.fileSys.nodes p = (v.nodes p).map LiveNode.vnode := rfl

/-- The directories of a view are those that its user sees. -/
theorem View.fileSys_dirAt (v : View) (p : Path) :
    v.fileSys.dirAt p = (v.dirAt p).map fun x => x.1.vnode := by
  unfold FileSys.dirAt View.dirAt
  rw [v.fileSys_nodes]
  cases v.nodes p with
  | none => rfl
  | some n =>
    simp only [Option.map_some, LiveNode.vnode_isDir]
    split_ifs <;> rfl

/-- The error of a walk that does not arrive. -/
theorem View.inum_of_none (v : View) (ns : Path) : ∀ q : Path, v.nodes (q ++ ns) = none →
    v.inum q ns = v.fileSys.walkError q ns := by
  induction ns with
  | nil =>
    intro q h
    rw [List.append_nil] at h
    rw [inum, h, FileSys.walkError]
  | cons n ns ih =>
    intro q h
    have hrec := ih (q ++ [n]) (by rwa [List.append_assoc])
    rw [inum, FileSys.walkError, v.fileSys_dirAt, v.fileSys_nodes, Option.isSome_map, hrec]
    cases v.dirAt q <;> rfl

section

variable (hT : Tree d) {p : Path} {n : LiveNode} (hn : liveNode d p = some n)
include hT hn

/-- The size of a node. -/
theorem Tree.vnode_size : n.size.toInt = n.vnode.size := by
  obtain ⟨i, hi, rfl⟩ := Option.map_eq_some_iff.mp hn
  rw [Node.size, LiveNode.vnode_isDir, LiveNode.vnode_bytes, nodeView_isDir]
  cases hdir : (inodeAt d i).isDir with
  | true => exact hT.dir_size hi hdir
  | false =>
    have hsize : 0 ≤ (inodeAt d i).size.toInt := (hT.file_size hi hdir).1
    rw [if_neg (by simp), nodeView_bytes hdir, length_contents, Int.toNat_of_nonneg hsize]
    rfl

/-- What the code says about a node. -/
theorem Tree.vnode_stat : n.vnode.stat = n.stat := by
  have hsize := hT.vnode_size hn
  obtain ⟨i, hi, rfl⟩ := Option.map_eq_some_iff.mp hn
  have hblocks : (((nodeView d i).vnode.blocks : ℕ) : ℤ) = (nodeView d i).stat.blocks := by
    simp only [LiveNode.stat, nodeView_isDir, Node.blocks]
    cases hdir : (inodeAt d i).isDir with
    | true =>
      rw [show (nodeView d i).vnode.size = 4096 by
        rw [Node.size, LiveNode.vnode_isDir, nodeView_isDir, hdir, if_pos rfl]]
      rfl
    | false =>
      have hrange := hT.file_size hi hdir
      have hdiv : (divRoundUp (nodeView d i).size).toInt = _ := divRoundUp_toInt hrange.1 hrange.2
      rw [if_neg (by simp), hdiv, hsize]
      omega
  rw [Vnode.stat, hblocks, ← hsize]
  rfl

/-- The blocks that a path occupies. -/
theorem Tree.vnode_cost : n.vnode.cost = occupied d p := by
  have hstat := hT.vnode_stat hn
  obtain ⟨i, hi, rfl⟩ := Option.map_eq_some_iff.mp hn
  have hblocks : (nodeView d i).stat.blocks = (inode2stat (inodeAt d i) i).blocks := by
    rw [LiveNode.stat, inode2stat, nodeView_isDir]
    rfl
  have hcost : (((nodeView d i).vnode.blocks : ℕ) : ℤ) = (inode2stat (inodeAt d i) i).blocks :=
    (congrArg Stat.blocks hstat).trans hblocks
  rw [Node.cost, occupied, hi, Option.elim_some, ← hcost, Int.toNat_natCast]

end

/-! ## Space -/

/-- The blocks that the nodes take up are those that the bitmap marks. -/
theorem fileSys_used (hW : WellFormed d) : (fileSys d).used = usedBlocks (d.blk 1) := by
  obtain ⟨paths, hpaths⟩ := exists_paths hW.toTree
  have hcost : ∀ p, ((fileSys d).nodes p).elim 0 (fun n => n.cost) = occupied d p := by
    intro p
    rw [fileSys_nodes]
    cases hn : liveNode d p with
    | none => rw [occupied, liveNode_eq_none.mp hn]; rfl
    | some n => exact hW.toTree.vnode_cost hn
  have hsupport : Function.support (occupied d) ⊆ paths := by
    intro p hp
    rw [Finset.mem_coe, hpaths]
    cases hr : resolve d p with
    | none => exact absurd (by rw [occupied, hr]; rfl) hp
    | some i => rfl
  rw [FileSys.used, usedBlocks_eq_sum hW hpaths]
  simp only [hcost]
  exact finsum_eq_sum_of_support_subset _ hsupport

/-- The blocks that are left are those that the allocator may hand out. -/
theorem fileSys_free (hW : WellFormed d) : (fileSys d).free = (clearBits (d.blk 1) 32768).card := by
  have hroot : bit (d.blk 1) 2 = true :=
    (hW.exact 2 (by norm_num)).mpr (.inr (.inr ⟨.inode [], resolve_nil d⟩))
  have hcount : usedBlocks (d.blk 1) + freeCount (d.blk 1) 32768 = 32768 - 2 :=
    usedBlocks_add_freeCount (by norm_num) le_rfl fun i hge hlt => absurd hlt (Nat.not_lt.mpr hge)
  have hclear : (Finset.Ico 2 32768).filter (fun i => bit (d.blk 1) i = false) =
      clearBits (d.blk 1) 32768 := by
    ext i
    rw [mem_clearBits, Finset.mem_filter, Finset.mem_Ico]
    refine ⟨fun h => ⟨⟨?_, h.1.2⟩, h.2⟩, fun h => ⟨⟨by omega, h.1.2⟩, h.2⟩⟩
    rcases Nat.lt_or_eq_of_le h.1.1 with hlt | rfl
    · exact hlt
    · rw [hroot] at h
      exact absurd h.2 (by decide)
  rw [freeCount, hclear] at hcount
  rw [FileSys.free, fileSys_used hW]
  omega

/-! ## Directories -/

section

variable (hT : Tree d) {p : Path} {P : ℕ} (hP : resolve d p = some P)
  (hdir : (inodeAt d P).isDir = true)
include hT hP hdir

/-- The names in a directory are those of its entries that are in use. -/
theorem mem_entries {n : CString} :
    n ∈ (fileSys d).entries p ↔ ∃ s f, slot (dirBlock d P) s = some (f, n) := by
  rw [FileSys.entries, Set.mem_ofPred_eq, fileSys_nodes, Option.isSome_map, liveNode,
    Option.isSome_map, resolve_concat, hP, Option.bind_some, entry, if_pos hdir,
      Option.isSome_iff_exists]
  simp only [dirEntry_eq_some (hT.dirOk hP hdir)]
  exact exists_comm

omit hT hP hdir in
/-- The valid entries are counted. -/
theorem card_valid (b : Block) :
    ((Finset.range 128).filter fun s => direntValid b s = true).card = validEntries b := by
  have hval : (Finset.range 128).val = (List.range 128 : Multiset ℕ) := rfl
  rw [validEntries, Finset.card_def, Finset.filter_val, hval, Multiset.filter_coe,
    Multiset.coe_card, List.countP_eq_length_filter]
  simp only [Bool.decide_eq_true]

/-- A directory has as many names as entries that are in use. -/
theorem ncard_entries : ((fileSys d).entries p).ncard = validEntries (dirBlock d P) := by
  have hOk := hT.dirOk hP hdir
  have himage : (fileSys d).entries p =
      (((Finset.range 128).filter fun s => direntValid (dirBlock d P) s = true).image
        (direntName (dirBlock d P)) : Finset CString) := by
    ext n
    rw [mem_entries hT hP hdir]
    simp only [Finset.coe_image, Finset.coe_filter, Finset.mem_range, Set.mem_image,
      Set.mem_ofPred_eq]
    constructor
    · rintro ⟨s, f, hs⟩
      obtain ⟨hvalid, -, hname⟩ := slot_eq_some.mp hs
      exact ⟨s, ⟨slot_lt hs, hvalid⟩, hname⟩
    · rintro ⟨s, ⟨-, hvalid⟩, rfl⟩
      exact ⟨s, _, slot_eq_some.mpr ⟨hvalid, rfl, rfl⟩⟩
  rw [himage, Set.ncard_coe_finset, Finset.card_image_of_injOn, card_valid]
  intro s hs t ht heq
  simp only [Finset.coe_filter, Finset.mem_range, Set.mem_ofPred_eq] at hs ht
  exact hOk.distinct s hs.1 t ht.1 hs.2 ht.2 heq

end

/-! ## New nodes -/

/-- A number that no path resolves to is free for a new node. -/
theorem fresh_of_resolve {ino : ℕ} (h : ∀ p, resolve d p ≠ some ino) : (fileSys d).Fresh ino := by
  intro p n hn
  rw [fileSys_nodes] at hn
  obtain ⟨m, hm, rfl⟩ := Option.map_eq_some_iff.mp hn
  obtain ⟨i, hi, rfl⟩ := Option.map_eq_some_iff.mp hm
  rintro rfl
  exact h p hi

/-- The number of a new node: what `alloc_blk` hands out first. -/
def nextIno (d : Disk) : ℕ := (firstClear (d.blk 1)).getD 32768

/-- The next number is not in use. -/
theorem fresh_nextIno (hW : WellFormed d) : (fileSys d).Fresh (nextIno d) := by
  refine fresh_of_resolve fun p hp => ?_
  obtain ⟨-, hlt, -⟩ := hW.toTree.inode_range hp
  rw [nextIno] at hp hlt
  cases hf : firstClear (d.blk 1) with
  | none =>
    rw [hf, Option.getD_none] at hlt
    exact absurd hlt (lt_irrefl _)
  | some f =>
    rw [hf, Option.getD_some] at hp hlt
    have hclear := (firstClear_eq_some.mp hf).1
    rw [(hW.exact f hlt).mpr (.inr (.inr ⟨.inode p, hp⟩))] at hclear
    cases hclear

/-- The allocator can hand out `n` blocks exactly when there are as many. -/
theorem allocN_isSome {n : ℕ} {map : Block} :
    (allocN n map).isSome ↔ n ≤ (clearBits map 32768).card := by
  rw [← not_iff_not, Bool.not_eq_true, Option.isSome_eq_false_iff, Option.isNone_iff_eq_none,
    allocN_eq_none, not_le]

/-- A user sees room for one block when one is free. -/
theorem one_le_free (hW : WellFormed d) : 1 ≤ (fileSys d).free ↔ (firstClear (d.blk 1)).isSome := by
  rw [fileSys_free hW, ← allocN_isSome, allocN]
  cases firstClear (d.blk 1) <;> simp [allocN]

/-- A user sees room for two blocks when two are free. -/
theorem two_le_free (hW : WellFormed d) : 2 ≤ (fileSys d).free ↔
    ∃ f, firstClear (d.blk 1) = some f ∧ (firstClear (bitSet (d.blk 1) f)).isSome := by
  rw [fileSys_free hW, ← allocN_isSome, allocN]
  cases firstClear (d.blk 1) with
  | none => simp
  | some f => cases hg : firstClear (bitSet (d.blk 1) f) <;> simp [allocN, hg]

/-! ## Outcomes -/

/-- What a user sees of an outcome. -/
def Outcome.shown (v : View) (o : Outcome) : ℤ × FileSys := (o.rc, (o.view.getD v).fileSys)

/-- An error shows what there was. -/
@[simp]
theorem shown_fail (v : View) (rc : ℤ) :
    (fail rc).map (Outcome.shown v) = .ok (rc, v.fileSys) := rfl

/-- A call that succeeds shows what it leaves. -/
@[simp]
theorem shown_done (v v' : View) (rc : ℤ) (handed : List ℕ) :
    (done rc handed v').map (Outcome.shown v) = .ok (rc, v'.fileSys) := rfl

/-- A directory is a node that a user sees. -/
theorem View.dirAt_nodes {v : View} {p : Path} {par : LiveNode} {slots : Slots}
    (h : v.dirAt p = .ok (par, slots)) : v.nodes p = some par ∧ par.isDir = true := by
  unfold dirAt at h
  split at h
  · cases h
  · rename_i n hn
    split_ifs at h with hdir
    obtain ⟨rfl, -⟩ := Prod.mk.inj (Except.ok.inj h)
    exact ⟨hn, hdir⟩

section

variable {v : View} {p : NormPath} {par : LiveNode} {slots : Slots}
  (hdir : v.dirAt p.parent = .ok (par, slots)) (k : ℕ) (bitmap : Block) (child : Option LiveNode)
include hdir

/-- An entry of a directory that has been set or cleared. -/
theorem View.fileSys_setEntry (mtime : UInt32) :
    (View.mk v.super bitmap (v.setEntry p.parent par slots k p.name mtime child)).fileSys =
      (v.fileSys.put p.parent (some { par.vnode with mtime := mtime })).put p.comps
        (child.map LiveNode.vnode) := by
  have hpar : ∀ slots, LiveNode.vnode { par with mtime := mtime, body := .dir slots } =
      { par.vnode with mtime := mtime } := fun slots => by
    rw [LiveNode.vnode, LiveNode.node_dir (View.dirAt_nodes hdir).2]
    rfl
  refine FileSys.ext rfl rfl (funext fun q => ?_)
  simp only [View.fileSys, setEntry, FileSys.put, Function.update_apply, NormPath.comps]
  split_ifs
  · rfl
  · rw [Option.map_some, hpar]
  · rfl

/-- A new entry of a directory, whose modification time stays as it is. -/
theorem View.fileSys_addEntry :
    (View.mk v.super bitmap (v.setEntry p.parent par slots k p.name par.mtime child)).fileSys =
      v.fileSys.put p.comps (child.map LiveNode.vnode) := by
  have hpar : v.fileSys.nodes p.parent = some { par.vnode with mtime := par.mtime } := by
    rw [v.fileSys_nodes, (View.dirAt_nodes hdir).1]
    rfl
  have hput : v.fileSys.put p.parent (some { par.vnode with mtime := par.mtime }) = v.fileSys := by
    rw [FileSys.put, ← hpar, Function.update_eq_self]
  rw [View.fileSys_setEntry hdir, hput]

end

section

variable (hW : WellFormed d) (ctx : Ctx) (p : NormPath)
include hW

/-- `fs_create` and `fs_mkdir`, when the entry is filled as long as there is space. -/
theorem make_fileSys {n : Vnode} {make : LiveNode → Slots → ℕ → Except Fault Outcome}
    (hmake : ∀ par slots k, (view d).dirAt p.parent = .ok (par, slots) →
      (make par slots k).map (Outcome.shown (view d)) =
        if n.cost ≤ (fileSys d).free then .ok (0, (fileSys d).put p.comps (some n))
        else .ok (-ENOSPC, fileSys d)) :
    (fileSys d).make p n = ((view d).makeWith p make).map (Outcome.shown (view d)) := by
  rw [FileSys.make, View.makeWith, fileSys_nodes, Option.isSome_map, view_nodes]
  -- The same refusals in the same order on both sides.
  by_cases h1 : (liveNode d p.comps).isSome = true
  · rw [if_pos h1, if_pos h1, shown_fail]
    rfl
  by_cases h2 : 298 < (render p.parent).length
  · rw [if_neg h1, if_neg h1, if_pos h2, if_pos h2]
    rfl
  by_cases h3 : 27 < p.name.length
  · rw [if_neg h1, if_neg h1, if_neg h2, if_neg h2, if_pos h3, if_pos h3, shown_fail]
    rfl
  rw [if_neg h1, if_neg h1, if_neg h2, if_neg h2, if_neg h3, if_neg h3, fileSys, View.fileSys_dirAt]
  cases hdir : (view d).dirAt p.parent with
  | error rc => rfl
  | ok dir =>
    obtain ⟨par, slots⟩ := dir
    obtain ⟨P, hP, hisDir, -, rfl⟩ := dirAt_eq_ok.mp hdir
    -- A directory has a free slot exactly when it has fewer than 128 entries.
    have hroom := (freeSlot_isSome (dirBlock d P)).trans
      (by rw [← ncard_entries hW.toTree hP hisDir])
    cases hk : freeSlot (slot (dirBlock d P)) with
    | none =>
      rw [hk] at hroom
      have hfull : ¬ ((fileSys d).entries p.parent).ncard < 128 := fun hlt => by cases hroom.mpr hlt
      simp only [hk, shown_fail]
      exact if_neg fun h => hfull h.1
    | some k =>
      have hlt : ((fileSys d).entries p.parent).ncard < 128 := hroom.mp (by rw [hk]; rfl)
      simp only [hk, hmake par _ k hdir]
      exact if_congr (and_iff_right hlt) rfl rfl

omit hW in
/-- A directory takes two blocks. -/
theorem cost_dir {n : Vnode} (h : n.body = .dir) : n.cost = 2 := by
  simp [Node.cost, Node.blocks, Node.size, Node.isDir, h]

omit hW in
/-- A file takes its inode and the blocks of its bytes. -/
theorem cost_file {n : Vnode} {c : List UInt8} (h : n.body = .file c) :
    n.cost = 1 + (c.length + 4095) / 4096 := by
  simp [Node.cost, Node.blocks, Node.size, Node.isDir, Node.bytes, h]

variable (mode : UInt32)

/-- `create` does what a user sees of it. -/
theorem create_fileSys : (fileSys d).make p ⟨⟨S_IFREG ||| (mode &&& 0o7777), ctx.uid.toUInt16,
    ctx.gid.toUInt16, ctx.now, ctx.now, .file []⟩, nextIno d⟩ =
      ((view d).create ctx p mode).map (Outcome.shown (view d)) := by
  rw [View.create_eq]
  refine make_fileSys hW p fun par slots k hdir => ?_
  have hfree := one_le_free hW
  rw [view_bitmap, cost_file rfl, show 1 + (([] : List UInt8).length + 4095) / 4096 = 1 by rfl]
  cases hf : firstClear (d.blk 1) with
  | none =>
    rw [hf] at hfree
    rw [if_neg (by simp [hfree]), Option.elim_none, shown_fail]
    rfl
  | some f =>
    rw [hf] at hfree
    rw [if_pos (by simp [hfree]), Option.elim_some, shown_done, View.fileSys_addEntry hdir,
      nextIno, hf]
    simp only [Option.map_some, LiveNode.vnode, LiveNode.node, fileNode, View.newMode_eq]
    rfl

/-- `mkdir` does what a user sees of it. -/
theorem mkdir_fileSys : (fileSys d).make p ⟨⟨S_IFDIR ||| (mode &&& 0o7777), ctx.uid.toUInt16,
    ctx.gid.toUInt16, ctx.now, ctx.now, .dir⟩, nextIno d⟩ =
      ((view d).mkdir ctx p mode).map (Outcome.shown (view d)) := by
  rw [View.mkdir_eq]
  refine make_fileSys hW p fun par slots k hdir => ?_
  have hfree := two_le_free hW
  rw [view_bitmap, cost_dir rfl]
  -- Two free blocks are enough space for a directory, and one alone is not.
  cases hf : firstClear (d.blk 1) with
  | none =>
    rw [hf] at hfree
    rw [if_neg (by simp [hfree]), Option.elim_none, shown_fail]
    rfl
  | some f =>
    rw [Option.elim_some]
    cases hg : firstClear (bitSet (d.blk 1) f) with
    | none =>
      rw [if_neg (by simp [hfree, hf, hg]), Option.elim_none]
      rfl
    | some b =>
      rw [if_pos (by simp [hfree, hf, hg]), Option.elim_some, shown_done,
        View.fileSys_addEntry hdir, nextIno, hf]
      simp only [Option.map_some, LiveNode.vnode, LiveNode.node, dirNode, View.newMode_eq]
      rfl

omit hW ctx in
/-- The entry of a name is found in its directory when there is a node. -/
theorem slotOf_isSome {P : ℕ} (hP : resolve d p.parent = some P)
    (hdir : (inodeAt d P).isDir = true) :
    (slotOf (slot (dirBlock d P)) p.name).isSome = (liveNode d p.comps).isSome := by
  rw [liveNode, Option.isSome_map, NormPath.comps, resolve_concat, hP, Option.bind_some, entry,
    if_pos hdir, dirEntry, Option.isSome_map, findDirent_eq]

omit hW in
/-- `fs_unlink` and `fs_rmdir`, which refuse the same nodes. -/
theorem remove_fileSys {refuse : Vnode → Option ℤ} {remove : LiveNode → Option ℤ}
    (hrefuse : ∀ n, liveNode d p.comps = some n → refuse n.vnode = remove n) :
    (fileSys d).remove ctx p refuse =
      ((view d).removeWith ctx p remove).map (Outcome.shown (view d)) := by
  rw [FileSys.remove, View.removeWith, fileSys_nodes, view_nodes]
  by_cases hlong : 298 < (render p.parent).length
  · rw [if_pos hlong, if_pos hlong]
    rfl
  rw [if_neg hlong, if_neg hlong, fileSys, View.fileSys_dirAt]
  cases hdir : (view d).dirAt p.parent with
  | error rc => rfl
  | ok dir =>
    obtain ⟨par, slots⟩ := dir
    obtain ⟨P, hP, hisDir, -, rfl⟩ := dirAt_eq_ok.mp hdir
    have hslot := slotOf_isSome p hP hisDir
    dsimp only [Except.map]
    -- A name has a slot exactly when it resolves.
    cases hn : liveNode d p.comps with
    | none =>
      rw [hn, Option.isSome_none, Option.isSome_eq_false_iff, Option.isNone_iff_eq_none] at hslot
      rw [hslot]
      rfl
    | some n =>
      obtain ⟨k, hk⟩ := Option.isSome_iff_exists.mp (hslot.trans (by rw [hn]; rfl))
      simp only [hk, Option.map_some, hrefuse n hn]
      cases remove n with
      | some rc => rfl
      | none =>
        dsimp only
        exact congrArg (fun fs => Except.ok ((0 : ℤ), fs))
          (View.fileSys_setEntry hdir k _ none ctx.now).symm

omit hW ctx p in
/-- `rename` does what a user sees of it. -/
theorem rename_fileSys (src dst : NormPath) : .ok ((fileSys d).rename src dst) =
    ((view d).rename src dst).map (Outcome.shown (view d)) := by
  rw [FileSys.rename, View.rename, fileSys_nodes, fileSys_nodes, view_nodes, Option.isNone_map,
    Option.isSome_map]
  by_cases h1 : (liveNode d src.comps).isNone = true
  · rw [if_pos h1, if_pos h1]
    rfl
  by_cases h2 : (liveNode d dst.comps).isSome = true
  · rw [if_neg h1, if_neg h1, if_pos h2, if_pos h2]
    rfl
  by_cases h3 : src.parent ≠ dst.parent
  · rw [if_neg h1, if_neg h1, if_neg h2, if_neg h2, if_pos h3, if_pos h3]
    rfl
  rw [if_neg h1, if_neg h1, if_neg h2, if_neg h2, if_neg h3, if_neg h3]
  -- What has a path has a directory with an entry for it.
  obtain ⟨n, hn⟩ := Option.ne_none_iff_exists'.mp (Option.isNone_iff_eq_none.not.mp h1)
  obtain ⟨i, hi, -⟩ := Option.map_eq_some_iff.mp hn
  obtain ⟨P, hP, he⟩ := Option.bind_eq_some_iff.mp (resolve_concat d src.parent src.name ▸ hi)
  have hdir : (inodeAt d P).isDir = true := by
    unfold entry at he
    split_ifs at he with h
    exact h
  have hslot := slotOf_isSome src hP hdir
  rw [hn] at hslot
  obtain ⟨k, hk⟩ := Option.isSome_iff_exists.mp hslot
  rw [dirAt_dir hP hdir]
  dsimp only
  rw [hk]
  dsimp only
  rw [shown_done]
  refine congrArg (fun fs => Except.ok ((0 : ℤ), fs)) (FileSys.ext rfl rfl (funext fun q => ?_))
  simp only [View.fileSys]
  split_ifs with hq
  · -- The directory is not at or below either name.
    have hnot : ∀ {m : CString}, ¬ src.parent ++ [m] <+: src.parent := fun h => by
      simpa using h.length_le
    rw [hq, FileSys.move_nodes, unrename, NormPath.comps, NormPath.comps, ← not_not.mp h3,
      if_neg hnot, if_neg hnot, Option.bind_some, fileSys_nodes, liveNode_some hP, Option.map_some,
        Option.map_some,
      LiveNode.vnode, LiveNode.vnode,
      LiveNode.node_dir ((nodeView_isDir d P).trans hdir) (nodeView d P).mtime]
    rfl
  · rw [Option.map_bind]
    rfl

end

section

variable (ctx : Ctx) (p : Path) {n : LiveNode}

/-- A node whose attributes have changed. -/
theorem View.fileSys_update (v : View) (bitmap : Block) (n : LiveNode) :
    (View.mk v.super bitmap (Function.update v.nodes p (some n))).fileSys =
      v.fileSys.put p (some n.vnode) := by
  refine FileSys.ext rfl rfl (funext fun q => ?_)
  simp only [View.fileSys, FileSys.put, Function.update_apply]
  split_ifs <;> rfl

/-- `chmod` does what a user sees of it. -/
theorem chmod_fileSys (v : View) (mode : UInt32) :
    .ok (v.fileSys.chmod p mode) = (v.chmod p mode).map (Outcome.shown v) := by
  rw [FileSys.chmod, View.chmod, v.fileSys_nodes]
  cases hn : v.nodes p with
  | none => rfl
  | some n =>
    dsimp only [Option.map_some]
    rw [shown_done, View.fileSys_update, UInt32.and_comm 0x00000fff]
    rfl

/-- `utime` does what a user sees of it. -/
theorem utime_fileSys (v : View) (ut : Option ℤ) :
    .ok (v.fileSys.utime ctx p ut) = (v.utime ctx p ut).map (Outcome.shown v) := by
  rw [FileSys.utime, View.utime, v.fileSys_nodes]
  cases hn : v.nodes p with
  | none => rw [v.inum_of_none p [] hn, shown_fail]; rfl
  | some n =>
    dsimp only [Option.map_some]
    rw [LiveNode.vnode_isDir]
    cases hdir : n.isDir with
    | true => rfl
    | false =>
      rw [if_neg (by simp), if_neg (by simp), shown_done, View.fileSys_update]
      rfl

/-- `truncate` does what a user sees of it. -/
theorem truncate_fileSys (v : View) (len : ℤ) :
    .ok (v.fileSys.truncate p len) = (v.truncate p len).map (Outcome.shown v) := by
  rw [FileSys.truncate, View.truncate, v.fileSys_nodes]
  by_cases hlen : len ≠ 0
  · rw [if_pos hlen, if_pos hlen]
    rfl
  rw [if_neg hlen, if_neg hlen]
  cases hn : v.nodes p with
  | none => rw [v.inum_of_none p [] hn, shown_fail]; rfl
  | some n =>
    dsimp only [Option.map_some]
    rw [LiveNode.vnode_isDir]
    cases hdir : n.isDir with
    | true => rfl
    | false =>
      rw [if_neg (by simp), if_neg (by simp), shown_done, View.fileSys_update]
      rfl

/-- A write that has room makes a file as much longer as the allocator has blocks for. -/
theorem write_fileSys (hW : WellFormed d) (buf : Buf) (offset : ℤ) :
    (fileSys d).write ctx p buf offset =
      ((view d).write ctx p buf offset).map (Outcome.shown (view d)) := by
  rw [FileSys.write, View.write, fileSys_nodes, view_nodes]
  cases hn : liveNode d p with
  | none =>
    rw [View.inum_of_none _ p [] hn, shown_fail]
    rfl
  | some n =>
    dsimp only [Option.map_some]
    rw [LiveNode.vnode_isDir, LiveNode.vnode_bytes]
    cases hdir : n.isDir with
    | true => rfl
    | false =>
      have hbody : n.vnode.body = .file n.bytes := by
        rw [LiveNode.vnode, LiveNode.node, hdir]
        rfl
      simp only [Bool.false_eq_true, if_false]
      by_cases h1 : (n.bytes.length : ℤ) < offset
      · rw [if_pos h1, if_pos h1]
        rfl
      by_cases h2 : 4096 * 1019 < sizeT (offset + buf.bytes.length)
      · rw [if_neg h1, if_neg h1, if_pos h2, if_pos h2]
        rfl
      by_cases h3 : offset < 0
      · rw [if_neg h1, if_neg h1, if_neg h2, if_neg h2, if_pos h3, if_pos h3]
        rfl
      rw [if_neg h1, if_neg h1, if_neg h2, if_neg h2, if_neg h3, if_neg h3, fileSys_free hW,
        view_bitmap]
      -- The write fails for want of space exactly when the file's new cost does not fit.
      have hcost : (clearBits (d.blk 1) 32768).card + n.vnode.cost <
          (FileSys.written ctx n.vnode buf offset.toNat).cost ↔
          (clearBits (d.blk 1) 32768).card <
            View.blocksNeeded n.bytes.length (offset.toNat + buf.bytes.length) := by
        have hlen := length_splice buf.bytes (show offset.toNat ≤ n.bytes.length by omega)
        have hwritten := cost_file (n := FileSys.written ctx n.vnode buf offset.toNat) rfl
        rw [LiveNode.vnode_bytes, hlen] at hwritten
        rw [hwritten, cost_file hbody, View.blocksNeeded]
        omega
      rw [← allocN_eq_none] at hcost
      cases ha : allocN (View.blocksNeeded n.bytes.length (offset.toNat + buf.bytes.length))
          (d.blk 1) with
      | none =>
        rw [if_pos (hcost.mpr ha)]
        rfl
      | some a =>
        rw [ha] at hcost
        rw [if_neg (by simp [hcost])]
        dsimp only
        rw [shown_done, ← view_nodes, View.fileSys_update, FileSys.written, LiveNode.vnode_bytes]
        rfl

end

/-! ## Requests -/

section

variable (hW : WellFormed d)
include hW

/-- A directory has a name when it has an entry in use. -/
theorem entries_nonempty {p : Path} {P : ℕ} (hP : resolve d p = some P)
    (hdir : (inodeAt d P).isDir = true) :
    ((fileSys d).entries p).Nonempty ↔ (usedSlot (slot (dirBlock d P))).isSome := by
  rw [usedSlot, List.find?_isSome]
  constructor
  · rintro ⟨n, hn⟩
    obtain ⟨s, f, hs⟩ := (mem_entries hW.toTree hP hdir).mp hn
    exact ⟨s, List.mem_range.mpr (slot_lt hs), by rw [hs]; rfl⟩
  · rintro ⟨s, -, hs⟩
    obtain ⟨⟨f, n⟩, hs⟩ := Option.isSome_iff_exists.mp hs
    exact ⟨n, (mem_entries hW.toTree hP hdir).mpr ⟨s, f, hs⟩⟩

/-- What each request returns and leaves. -/
theorem exec_fileSys (ctx : Ctx) (r : Request) : (fileSys d).exec ctx (nextIno d) r =
    ((view d).exec ctx r).map (Outcome.shown (view d)) := by
  -- The requests that only look, then one lemma for each of the editing ones.
  cases r with
  | init =>
    rw [FileSys.exec, View.exec, View.init,
      show (fileSys d).magic = superMagic (view d).super from rfl]
    by_cases h : superMagic (view d).super ≠ fsMagic
    · rw [if_pos h, if_pos h]; rfl
    · rw [if_neg h, if_neg h]; rfl
  | statfs p => rfl
  | getattr p =>
    simp only [FileSys.exec, View.exec, FileSys.look, View.getattr, fileSys_nodes, view_nodes]
    cases hn : liveNode d p.comps with
    | none => rw [View.inum_of_none _ p.comps [] hn]; rfl
    | some n => rfl
  | readdir p =>
    simp only [FileSys.exec, View.exec, FileSys.look, View.readdir, fileSys_nodes, view_nodes]
    cases hn : liveNode d p.comps with
    | none => rw [View.inum_of_none _ p.comps [] hn]; rfl
    | some n =>
      simp only [Option.map_some, Option.elim_some, LiveNode.vnode_isDir]
      cases n.isDir <;> rfl
  | read p len offset =>
    simp only [FileSys.exec, View.exec, FileSys.look, FileSys.found, View.read, fileSys_nodes,
      view_nodes]
    cases hn : liveNode d p.comps with
    | none => rw [View.inum_of_none _ p.comps [] hn]; rfl
    | some n =>
      simp only [Option.map_some, Option.elim_some, LiveNode.vnode_isDir, LiveNode.vnode_bytes]
      cases n.isDir <;> rfl
  | rename src dst => exact rename_fileSys src dst
  | chmod p mode => exact chmod_fileSys p.comps (view d) mode
  | create p mode => exact create_fileSys hW ctx p mode
  | mkdir p mode => exact mkdir_fileSys hW ctx p mode
  | unlink p => exact remove_fileSys ctx p fun n _ => by rw [LiveNode.vnode_isDir]
  | rmdir p =>
    refine remove_fileSys ctx p fun n hn => ?_
    obtain ⟨i, hi, rfl⟩ := Option.map_eq_some_iff.mp hn
    rw [LiveNode.vnode_isDir, nodeView_isDir]
    cases hdir : (inodeAt d i).isDir with
    | false => rfl
    | true => rw [nodeView_slots hdir]; simp only [if_true, entries_nonempty hW hi hdir]
  | write p buf offset => exact write_fileSys ctx p.comps hW buf offset.toInt
  | truncate p len => exact truncate_fileSys p.comps (view d) len
  | utime p ut => exact utime_fileSys ctx p.comps (view d) ut

/-- What each request hands back. -/
theorem says_fileSys (r : Request) : (fileSys d).Says r ((view d).output r) := by
  cases r with
  | statfs p =>
    simp only [FileSys.Says, View.output, View.statfs, FileSys.statvfs, fileSys_used hW]
    rfl
  | getattr p =>
    simp only [FileSys.Says, View.output, View.getattr, fileSys_nodes, view_nodes]
    cases hn : liveNode d p.comps with
    | none => rfl
    | some n => rw [Option.map_some, Option.map_some, hW.toTree.vnode_stat hn]
  | readdir p =>
    refine ⟨_, rfl, ?_⟩
    -- What is below the path, on either side.
    have hlists : ∀ {n st}, (∃ c, (fileSys d).nodes (p.comps ++ [n]) = some c ∧ c.stat = st) ↔
        ∃ c, liveNode d (p.comps ++ [n]) = some c ∧ c.stat = st := by
      intro n st
      simp only [fileSys_nodes, Option.map_eq_some_iff, exists_exists_and_eq_and]
      exact exists_congr fun c => and_congr_right fun hc => by rw [hW.toTree.vnode_stat hc]
    by_cases hdir : ∃ i, resolve d p.comps = some i ∧ (inodeAt d i).isDir = true
    · obtain ⟨i, hi, hdir⟩ := hdir
      exact ⟨nodup_readdir hW.toTree hi hdir,
        fun n st => (mem_readdir hW.toTree hi hdir).trans hlists.symm⟩
    · -- Nothing is below what is not a directory, and `filler` is not called.
      have hbelow : ∀ n, liveNode d (p.comps ++ [n]) = none := by
        intro n
        rw [liveNode_eq_none, resolve_concat, Option.bind_eq_none_iff]
        intro i hi
        rw [entry, if_neg fun h => hdir ⟨i, hi, h⟩]
      have hempty : ((view d).readdir p.comps).2 = [] := by
        rw [View.readdir, view_nodes]
        cases hn : liveNode d p.comps with
        | none => rfl
        | some n =>
          obtain ⟨i, hi, rfl⟩ := Option.map_eq_some_iff.mp hn
          dsimp only
          rw [nodeView_isDir, if_neg fun h => hdir ⟨i, hi, h⟩]
      rw [hempty]
      refine ⟨List.nodup_nil, fun n st => ?_⟩
      rw [hlists, hbelow]
      simp
  | read p len offset =>
    simp only [FileSys.Says, View.output, FileSys.found, View.read, fileSys_nodes, view_nodes]
    cases hn : liveNode d p.comps with
    | none => rfl
    | some n =>
      simp only [Option.map_some, Option.elim_some, LiveNode.vnode_bytes]
      cases hdir : n.isDir with
      | true => rw [n.bytes_of_isDir hdir, List.drop_nil, List.take_nil, if_pos rfl]
      | false => rfl
  | init | rename | chmod | create | mkdir | unlink | rmdir | write | truncate | utime => rfl

/-- Each request does what the file system that its user sees may do. -/
theorem Request.run_step (ctx : Ctx) (u : Stack) {r : Request} (hr : r.InRange) :
    FileSys.Step (ctx, r) (fileSys d)
    ((r.call.run ctx u d).map fun x => ((x.1, x.2.1), fileSys x.2.2)) := by
  have hanswers := r.run_answers hW ctx u hr
  have hexec := exec_fileSys hW ctx r
  have hfresh := fresh_nextIno hW
  cases hrun : r.call.run ctx u d with
  | error e =>
    rw [hrun] at hanswers
    cases ho : (view d).exec ctx r with
    | ok o => rw [ho] at hanswers; exact hanswers.1.elim
    | error e' =>
      rw [ho] at hanswers hexec
      obtain rfl : e = e' := hanswers.1
      exact .faults hfresh hexec
  | ok res =>
    rw [hrun] at hanswers
    obtain ⟨o, ho, hholds, hout⟩ := hanswers.of_ok
    rw [ho] at hexec
    refine .returns hfresh (hexec.trans ?_) (hout ▸ says_fileSys hW r)
    rw [hholds.rc, fileSys, hholds.view_eq]
    rfl

end

/-! ## Runs -/

/-- What a request returns and hands back on a disk, and the disk afterwards. The request comes with
what the uninitialised locals hold. -/
def serve (s : (Ctx × Request) × Stack) (d : Disk) : Except Fault ((ℤ × Output) × Disk) :=
  (s.1.2.call.run s.1.1 s.2 d).map fun x => ((x.1, x.2.1), x.2.2)

end Cs5600.Lab4
