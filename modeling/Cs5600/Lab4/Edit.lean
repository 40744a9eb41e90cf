import Cs5600.Lab4.Resolve
import Mathlib.Data.List.Nodup
import Mathlib.Logic.Function.Basic

/-!
# Changes to one place of the tree

Every operation that succeeds changes the live blocks of one path: it adds them, takes them away, or
replaces some of them, and it changes at most the directory above. `WellFormed.of_edit` is the
invariant's side of this: when the blocks of every other path stay where they are, and those of the
changed path are fresh, distinct, and marked, the disk is well-formed again.

The namespace's side is `EntryEdit`: one entry of a directory is set or cleared, the rest of the
live blocks keep their contents, and the node below the entry is a leaf before and after.
`EntryEdit.resolve_eq` and `EntryEdit.liveNode_eq` give every path and everything live on the new
disk.
-/

namespace Cs5600.Lab4

variable {d d' : Disk}

/-! ## Frames -/

section Frame

variable (hT : Tree d) {q : Path} {i : ℕ} (hq : resolve d q = some i)
  (h : ∀ k b, k.path = q → live d k = some b → d'.blk b = d.blk b)
include hT hq h

omit hT in
/-- A path whose blocks are kept has the same inode. -/
theorem inodeAt_frame : inodeAt d' i = inodeAt d i := by
  rw [inodeAt, inodeAt, h (.inode q) i rfl hq]

omit hT in
/-- A path whose blocks are kept has the same directory block. -/
theorem dirBlock_frame (hdir : (inodeAt d i).isDir = true) : dirBlock d' i = dirBlock d i := by
  rw [dirBlock, inodeAt_frame hq h, h (.dirData q) _ rfl (Tree.dirData_live hq hdir)]
  rfl

/-- A path whose blocks are kept has the same contents. -/
theorem contents_frame (hfile : (inodeAt d i).isDir = false) :
    contents d' (inodeAt d i) = contents d (inodeAt d i) := by
  apply List.map_congr_left
  intro j hj
  have hsize := hT.file_size hq hfile
  have hn := hT.nblocks_eq hq hfile
  have hj' := List.mem_range.mp hj
  rw [h (.fileData q (j / 4096)) _ rfl (Tree.fileData_live hq hfile (by omega))]

/-- A node whose blocks are unchanged is unchanged. -/
theorem nodeView_frame : nodeView d' i = nodeView d i := by
  have hx := inodeAt_frame hq h
  have hbody : bodyOf d' (inodeAt d i) = bodyOf d (inodeAt d i) := by
    unfold bodyOf
    cases hdir : (inodeAt d i).isDir with
    | true =>
      have := dirBlock_frame hq h hdir
      rw [dirBlock, hx] at this
      simp [this, dirBlock]
    | false => simp [contents_frame hT hq h hdir]
  simp only [nodeView, hx, hbody]

omit hT in
/-- A path whose blocks are kept binds the same names. -/
theorem entry_frame : entry d' i = entry d i := by
  funext n
  unfold entry
  rw [inodeAt_frame hq h]
  split_ifs with hdir
  · rw [dirBlock_frame hq h hdir]
  · rfl

omit hT in
/-- A path whose blocks are kept is as sound as it was. -/
theorem nodeOk_frame : NodeOk d' i ↔ NodeOk d i := by
  unfold NodeOk
  rw [inodeAt_frame hq h]
  split_ifs with hdir
  · rw [dirBlock_frame hq h hdir]
  · rfl

end Frame

/-! ## The invariant -/

/-- The live block of a place, from the inode of its path. -/
theorem live_eq (d : Disk) (k : LiveKey) :
    live d k = (resolve d k.path).bind fun i =>
      match k with
      | .inode _ => some i
      | k => livePtr (inodeAt d i) k := by
  cases k with
  | inode p => simp [live, LiveKey.path]
  | dirData p => rfl
  | fileData p j => rfl

/-- The live blocks of a path depend only on its inode number, and on the type, the size, and the
pointers of its inode. -/
theorem live_congr {k : LiveKey} (hr : resolve d' k.path = resolve d k.path)
    (hx : ∀ i, resolve d k.path = some i →
      livePtr (inodeAt d' i) k = livePtr (inodeAt d i) k) : live d' k = live d k := by
  rw [live_eq, live_eq, hr]
  cases hi : resolve d k.path with
  | none => rfl
  | some i =>
    cases k with
    | inode p => rfl
    | dirData p => exact hx i hi
    | fileData p j => exact hx i hi

/-- The tree stays a tree when the live blocks of one path are replaced by fresh and distinct
ones. -/
theorem Tree.of_edit (hT : Tree d) (t : Path) (hnblks : d.nblks ≤ d'.nblks)
    (hroot : (inodeAt d' 2).isDir = true) (hnode : ∀ q i, resolve d' q = some i → NodeOk d' i)
    (hkeep : ∀ k, k.path ≠ t → live d' k = live d k)
    (hrange : ∀ k b, k.path = t → live d' k = some b → 2 ≤ b ∧ b < 32768 ∧ b < d'.nblks)
    (hfresh : ∀ k b, k.path = t → live d' k = some b → ∀ k', k'.path ≠ t → live d k' ≠ some b)
    (hinj : ∀ k k' b, k.path = t → k'.path = t → live d' k = some b → live d' k' = some b →
      k = k') : Tree d' := by
  refine ⟨hroot, hnode, ?_, ?_⟩
  · intro k k' b hk hk'
    -- Two live blocks: under the edited path, elsewhere, or one of each.
    by_cases h : k.path = t <;> by_cases h' : k'.path = t
    · exact hinj k k' b h h' hk hk'
    · rw [hkeep k' h'] at hk'
      exact absurd hk' (hfresh k b h hk k' h')
    · rw [hkeep k h] at hk
      exact absurd hk (hfresh k' b h' hk' k h)
    · rw [hkeep k h] at hk
      rw [hkeep k' h'] at hk'
      exact hT.inj k k' b hk hk'
  · intro k b hk
    by_cases h : k.path = t
    · exact hrange k b h hk
    · rw [hkeep k h] at hk
      have := hT.range k b hk
      omega

/-- The bitmap stays exact when the bits of one path's old blocks are cleared and those of its new
blocks set. -/
theorem Exact.of_edit (hT : Tree d) (hE : Exact d) (t : Path)
    (hkeep : ∀ k, k.path ≠ t → live d' k = live d k)
    (hbit : ∀ i < 32768, bit (d'.blk 1) i = true ↔
      (bit (d.blk 1) i = true ∧ ∀ k, k.path = t → live d k ≠ some i) ∨
        ∃ k, k.path = t ∧ live d' k = some i) : Exact d' := by
  -- The super block and the bitmap are nobody's.
  have hlow : ∀ i k, i < 2 → live d k ≠ some i := by
    intro i k hi hk
    have := hT.range k i hk
    omega
  intro i hi
  rw [hbit i hi]
  constructor
  -- A bit set now: kept from before, or a block of the edited node.
  · rintro (⟨hb, hne⟩ | ⟨k, -, hk⟩)
    · rcases (hE i hi).mp hb with h | h | ⟨k, hk⟩
      · exact .inl h
      · exact .inr (.inl h)
      · have hkt : k.path ≠ t := fun h => hne k h hk
        exact .inr (.inr ⟨k, by rw [hkeep k hkt]; exact hk⟩)
    · exact .inr (.inr ⟨k, hk⟩)
  · rintro (h | h | ⟨k, hk⟩)
    · exact .inl ⟨(hE i hi).mpr (.inl h), fun k _ => hlow i k (by omega)⟩
    · exact .inl ⟨(hE i hi).mpr (.inr (.inl h)), fun k _ => hlow i k (by omega)⟩
    · by_cases hkt : k.path = t
      · exact .inr ⟨k, hkt, hk⟩
      · rw [hkeep k hkt] at hk
        refine .inl ⟨(hE i hi).mpr (.inr (.inr ⟨k, hk⟩)), ?_⟩
        intro k' hk't hk'
        apply hkt
        rw [hT.inj k k' i hk hk']
        exact hk't

/-- A directory has one block, as its size says. -/
theorem NodeOk.nblocks_dir {i : ℕ} (h : NodeOk d i) (hdir : (inodeAt d i).isDir = true) :
    (inodeAt d i).nblocks = 1 := by
  rw [NodeOk, if_pos hdir] at h
  rw [Inode.nblocks_eq (by omega) (by omega), h.1]
  rfl

/-- The live blocks of a path: its inode and the pointers in use. -/
def blocksAt (d : Disk) (p : Path) : List ℕ :=
  match resolve d p with
  | none => []
  | some i => i :: (nodeView d i).ptrs

section

variable {p : Path} (hnode : ∀ i, resolve d p = some i → NodeOk d i)
include hnode

/-- The place of each live block of a path. -/
theorem live_blocksAt {k : LiveKey} {b : ℕ} (hp : k.path = p) :
    live d k = some b ↔ match k with
      | .inode _ => (blocksAt d p)[0]? = some b
      | .dirData _ => (blocksAt d p)[1]? = some b ∧ ∃ i, resolve d p = some i ∧ (inodeAt d i).isDir
      | .fileData _ j => (blocksAt d p)[j + 1]? = some b ∧
          ∃ i, resolve d p = some i ∧ (inodeAt d i).isDir = false := by
  subst hp
  rw [live_eq, blocksAt]
  -- The list of a node's blocks: the inode, then its data in order.
  cases hr : resolve d k.path with
  | none => cases k <;> simp
  | some i =>
    have h1 := (hnode i hr).nblocks_dir
    cases k with
    | inode p => simp
    | dirData p =>
      cases hdir : (inodeAt d i).isDir with
      | false => simp [livePtr, hdir]
      | true => simp [livePtr, hdir, nodeView, h1 hdir]
    | fileData p j =>
      cases hdir : (inodeAt d i).isDir with
      | true => simp [livePtr, hdir]
      | false =>
        simp only [Option.bind_some, livePtr, hdir, true_and, nodeView, List.getElem?_cons_succ]
        by_cases hj : j < (inodeAt d i).nblocks
        · simp [hj, hdir]
        · simp [hj]

/-- The blocks of a path are its live ones. -/
theorem mem_blocksAt {b : ℕ} : b ∈ blocksAt d p ↔ ∃ k, k.path = p ∧ live d k = some b := by
  constructor
  · intro hb
    obtain ⟨m, hm⟩ := List.mem_iff_getElem?.mp hb
    cases hr : resolve d p with
    | none => simp [blocksAt, hr] at hb
    | some i =>
      cases m with
      | zero => exact ⟨.inode p, rfl, (live_blocksAt hnode rfl).mpr hm⟩
      | succ m =>
        cases hdir : (inodeAt d i).isDir with
        | false =>
          exact ⟨.fileData p m, rfl, (live_blocksAt hnode rfl).mpr ⟨hm, i, hr, hdir⟩⟩
        | true =>
          -- A directory has one data block.
          have hm0 : m = 0 := by
            obtain ⟨hlt, -⟩ := List.getElem?_eq_some_iff.mp hm
            simp [blocksAt, hr, nodeView, (hnode i hr).nblocks_dir hdir] at hlt
            omega
          subst hm0
          exact ⟨.dirData p, rfl, (live_blocksAt hnode rfl).mpr ⟨hm, i, hr, hdir⟩⟩
  · rintro ⟨k, hp, hk⟩
    rw [live_blocksAt hnode hp] at hk
    cases k with
    | inode q => exact List.mem_of_getElem? hk
    | dirData q => exact List.mem_of_getElem? hk.1
    | fileData q j => exact List.mem_of_getElem? hk.1

/-- Each live block of a path has one place when the list of them has no repetition. -/
theorem live_inj_of_nodup (hnd : (blocksAt d p).Nodup) {k k' : LiveKey} {b : ℕ} (hk : k.path = p)
    (hk' : k'.path = p) (hb : live d k = some b) (hb' : live d k' = some b) : k = k' := by
  -- Equal blocks stand at equal places of the list.
  have hinj : ∀ m m' : ℕ, (blocksAt d p)[m]? = some b → (blocksAt d p)[m']? = some b → m = m' := by
    intro m m' h h'
    obtain ⟨hlt, -⟩ := List.getElem?_eq_some_iff.mp h
    exact (List.getElem?_inj hlt hnd).mp (h.trans h'.symm)
  rw [live_blocksAt hnode hk] at hb
  rw [live_blocksAt hnode hk'] at hb'
  have hdf : (∃ i, resolve d p = some i ∧ (inodeAt d i).isDir = true) →
      ¬ ∃ i, resolve d p = some i ∧ (inodeAt d i).isDir = false := by
    rintro ⟨i, hi, hd⟩ ⟨j, hj, hf⟩
    rw [Option.some.inj (hi.symm.trans hj), hf] at hd
    cases hd
  cases k with
  | inode q =>
    cases k' with
    | inode q' => rw [show q = p from hk, show q' = p from hk']
    | dirData q' => cases hinj _ _ hb hb'.1
    | fileData q' j' => cases hinj _ _ hb hb'.1
  | dirData q =>
    cases k' with
    | inode q' => cases hinj _ _ hb.1 hb'
    | dirData q' => rw [show q = p from hk, show q' = p from hk']
    | fileData q' j' => exact absurd hb'.2 (hdf hb.2)
  | fileData q j =>
    cases k' with
    | inode q' => cases hinj _ _ hb.1 hb'
    | dirData q' => exact absurd hb.2 (hdf hb'.2)
    | fileData q' j' =>
      have hj := hinj _ _ hb.1 hb'.1
      rw [show q = p from hk, show q' = p from hk', show j = j' by omega]

end

/-- The live blocks of a path of a tree are distinct. -/
theorem Tree.nodup_blocksAt (hT : Tree d) (p : Path) : (blocksAt d p).Nodup := by
  cases hr : resolve d p with
  | none => simp [blocksAt, hr]
  | some i =>
    simp only [blocksAt, hr, nodeView, List.nodup_cons]
    cases hdir : (inodeAt d i).isDir with
    | true =>
      rw [(hT.node p i hr).nblocks_dir hdir]
      refine ⟨?_, by simp⟩
      intro h
      have h0 : i = (inodeAt d i).ptr 0 := by simpa using h
      cases hT.inj (.dirData p) (.inode p) i (by rw [dirData_live hr hdir, ← h0]) hr
    | false =>
      -- The data blocks of a file are live, each under its own index.
      have hlive : ∀ j < (inodeAt d i).nblocks, _ := fun j hj => fileData_live hr hdir hj
      constructor
      · intro h
        obtain ⟨j, hj, h0⟩ := List.mem_map.mp h
        cases hT.inj (.fileData p j) (.inode p) i (by rw [hlive j (List.mem_range.mp hj), h0]) hr
      · refine List.nodup_range.map_on ?_
        intro j hj j' hj' h
        have := hT.inj (.fileData p j) (.fileData p j') _ (hlive j (List.mem_range.mp hj))
          (by rw [hlive j' (List.mem_range.mp hj'), h])
        simpa using this

/-- The blocks of a path are in range and marked, and no other path has them. -/
theorem WellFormed.block_spec (hW : WellFormed d) {p : Path} {i b : ℕ} (hp : resolve d p = some i)
    (hb : b ∈ i :: (nodeView d i).ptrs) :
    (2 ≤ b ∧ b < 32768 ∧ b < d.nblks) ∧ bit (d.blk 1) b = true ∧
      ∀ k, live d k = some b → k.path = p := by
  have hB : blocksAt d p = i :: (nodeView d i).ptrs := by simp only [blocksAt, hp]
  obtain ⟨k, hkp, hk⟩ := (mem_blocksAt (hW.node p)).mp (hB ▸ hb)
  have hrange := hW.range k b hk
  refine ⟨hrange, (hW.exact b hrange.2.1).mpr (.inr (.inr ⟨k, hk⟩)), ?_⟩
  intro k' hk'
  rw [hW.inj k' k b hk' hk, hkp]

/-- A disk stays well-formed when only the live blocks of one path change: they are blocks of that
path or free before, and the bitmap follows. -/
theorem WellFormed.of_edit (hW : WellFormed d) (t : Path) (hnblks : d.nblks ≤ d'.nblks)
    (hroot : (inodeAt d' 2).isDir = true) (hnode : ∀ q i, resolve d' q = some i → NodeOk d' i)
    (hkeep : ∀ k, k.path ≠ t → live d' k = live d k) (hnd : (blocksAt d' t).Nodup)
    (hblocks : ∀ b ∈ blocksAt d' t, (2 ≤ b ∧ b < 32768 ∧ b < d'.nblks) ∧
      (b ∈ blocksAt d t ∨ bit (d.blk 1) b = false))
    (hbit : ∀ j < 32768, bit (d'.blk 1) j = true ↔
      bit (d.blk 1) j = true ∧ j ∉ blocksAt d t ∨ j ∈ blocksAt d' t) : WellFormed d' := by
  have hT := hW.toTree
  have hmem : ∀ b, b ∈ blocksAt d t ↔ ∃ k, k.path = t ∧ live d k = some b :=
    fun b => mem_blocksAt (hT.node t)
  have hmem' : ∀ b, b ∈ blocksAt d' t ↔ ∃ k, k.path = t ∧ live d' k = some b :=
    fun b => mem_blocksAt (hnode t)
  refine ⟨hT.of_edit t hnblks hroot hnode hkeep ?_ ?_ ?_, hW.exact.of_edit hT t hkeep ?_⟩
  · intro k b hk hb
    exact (hblocks b ((hmem' b).mpr ⟨k, hk, hb⟩)).1
  · intro k b hk hb k' hk' hb'
    -- A block of the edited node was its own before, or free.
    obtain ⟨⟨-, hlt, -⟩, h | h⟩ := hblocks b ((hmem' b).mpr ⟨k, hk, hb⟩)
    · obtain ⟨k'', hk'', hb''⟩ := (hmem b).mp h
      exact hk' (by rw [hT.inj k' k'' b hb' hb'', hk''])
    · rw [(hW.exact b hlt).mpr (.inr (.inr ⟨k', hb'⟩))] at h
      cases h
  · intro k k' b hk hk' hb hb'
    exact live_inj_of_nodup (hnode t) hnd hk hk' hb hb'
  · intro j hj
    rw [hbit j hj, hmem, hmem']
    simp only [not_exists, not_and, ne_eq]

/-! ## Setting one directory entry -/

/-- Disk `d'` is `d` with entry `s` of directory `P`, at path `p`, changed: it binds `n` to `old`
before and to `new` after, and the directory's modification time is `mt` afterwards. -/
structure EntryEdit (d d' : Disk) (p : Path) (n : CString) (P s : ℕ) (old new : Option ℕ)
    (mt : UInt32) : Prop where
  parent : resolve d p = some P
  isDir : (inodeAt d P).isDir = true
  slots : SlotSet (dirBlock d P) (d'.blk ((inodeAt d P).ptr 0)) s (new.map fun f => (f, n))
  slot_old : slot (dirBlock d P) s = old.map fun f => (f, n)
  only : ∀ t j, t ≠ s → slot (dirBlock d P) t ≠ some (j, n)
  name : IsName n
  inode : inodeAt d' P = { inodeAt d P with mtime := mt }
  keep : ∀ k b, live d k = some b → k.path ≠ p → d'.blk b = d.blk b
  oldLeaf : ∀ f, old = some f → ∀ m, entry d f m = none
  newLeaf : ∀ f, new = some f → ∀ m, entry d' f m = none

namespace EntryEdit

variable {p : Path} {n : CString} {P s : ℕ} {old new : Option ℕ} {mt : UInt32}
  (e : EntryEdit d d' p n P s old new mt) (hT : Tree d)
include e

/-- The directory stays one. -/
theorem isDir' : (inodeAt d' P).isDir = true := by
  rw [e.inode]
  exact e.isDir

/-- The directory keeps its pointers. -/
theorem ptr (k : ℕ) : (inodeAt d' P).ptr k = (inodeAt d P).ptr k := by
  rw [e.inode]
  rfl

/-- The directory keeps its block. -/
theorem dirBlock_eq : dirBlock d' P = d'.blk ((inodeAt d P).ptr 0) := by
  rw [dirBlock, e.ptr]

include hT

/-- The entries of the directory stay proper. -/
theorem dirOk' : DirOk (dirBlock d' P) := by
  rw [e.dirBlock_eq]
  refine e.slots.dirOk (hT.dirOk e.parent e.isDir) ?_
  intro i name h
  obtain ⟨f, -, hf⟩ := Option.map_eq_some_iff.mp h
  obtain ⟨rfl, rfl⟩ := Prod.mk.inj hf
  exact ⟨e.name.ne_nil, e.name.noSlash, e.only⟩

/-- The names that the directory binds afterwards. -/
theorem dirEntry_eq (m : CString) :
    dirEntry (dirBlock d' P) m = if m = n then new else dirEntry (dirBlock d P) m := by
  have hb := hT.dirOk e.parent e.isDir
  have hb' := e.dirOk' hT
  have hself : slot (dirBlock d' P) s = new.map fun f => (f, n) := by
    rw [e.dirBlock_eq]; exact e.slots.slot_self
  have hother : ∀ t, t ≠ s → slot (dirBlock d' P) t = slot (dirBlock d P) t := by
    intro t ht; rw [e.dirBlock_eq]; exact e.slots.slot_of_ne hb ht
  ext i
  rw [dirEntry_eq_some hb']
  -- The name `n` is bound in entry `s` only; other names are in other entries.
  split_ifs with hm
  · subst hm
    constructor
    · rintro ⟨t, ht⟩
      by_cases hts : t = s
      · rw [hts, hself] at ht
        obtain ⟨f, hf, hfi⟩ := Option.map_eq_some_iff.mp ht
        rw [hf, (Prod.mk.inj hfi).1]
      · rw [hother t hts] at ht
        exact absurd ht (e.only t i hts)
    · intro h
      exact ⟨s, by rw [hself, h]; rfl⟩
  · rw [dirEntry_eq_some hb]
    constructor
    · rintro ⟨t, ht⟩
      by_cases hts : t = s
      · rw [hts, hself] at ht
        obtain ⟨f, -, hfi⟩ := Option.map_eq_some_iff.mp ht
        exact absurd (Prod.mk.inj hfi).2.symm hm
      · exact ⟨t, by rw [← hother t hts]; exact ht⟩
    · rintro ⟨t, ht⟩
      by_cases hts : t = s
      · rw [hts, e.slot_old] at ht
        obtain ⟨f, -, hfi⟩ := Option.map_eq_some_iff.mp ht
        exact absurd (Prod.mk.inj hfi).2.symm hm
      · exact ⟨t, by rw [hother t hts]; exact ht⟩

omit hT in
/-- The blocks of another path are kept. -/
theorem keep_path {q : Path} (hq : q ≠ p) :
    ∀ k b, k.path = q → live d k = some b → d'.blk b = d.blk b := by
  rintro k b rfl hk
  exact e.keep k b hk hq

/-- What the directory binds the name to before. -/
theorem entry_old : entry d P n = old := by
  rw [entry, if_pos e.isDir]
  cases hf : old with
  | none =>
    rw [Option.eq_none_iff_forall_ne_some]
    intro i hi
    obtain ⟨t, ht⟩ := (dirEntry_eq_some (hT.dirOk e.parent e.isDir)).mp hi
    by_cases hts : t = s
    · rw [hts, e.slot_old, hf] at ht
      cases ht
    · exact e.only t i hts ht
  | some f =>
    refine (dirEntry_eq_some (hT.dirOk e.parent e.isDir)).mpr ⟨s, ?_⟩
    rw [e.slot_old, hf]
    rfl

/-- The path of the entry led to what the entry bound. -/
theorem resolve_old : resolve d (p ++ [n]) = old := by
  rw [resolve_concat, e.parent, Option.bind_some, e.entry_old hT]

/-- The inode number of every path afterwards. -/
theorem resolve_eq (q : Path) :
    resolve d' q = if q = p ++ [n] then new else resolve d q := by
  have hself : ∀ m, entry d' P m = if m = n then new else entry d P m := by
    intro m
    rw [entry, if_pos e.isDir', e.dirEntry_eq hT, entry, if_pos e.isDir]
  have hold := e.entry_old hT
  have hnew : entry d' P n = new := by rw [hself, if_pos rfl]
  have hwalk := walk_setEdge (entry d) (entry d') (n := n) e.parent
    (fun q hq => hT.resolve_inj hq e.parent)
    (by rw [hold]; exact e.oldLeaf) (by rw [hnew]; exact e.newLeaf)
    (by
      intro q v l hv hne
      -- Only the edge named `n` out of `P` changes.
      by_cases hvP : v = P
      · subst hvP
        rw [hself, if_neg (fun h => hne ⟨rfl, h⟩)]
      · have hqp : q ≠ p := by
          rintro rfl
          exact hvP (Option.some.inj (hv.symm.trans e.parent))
        rw [entry_frame hv (e.keep_path hqp)])
    q
  rw [hnew] at hwalk
  exact hwalk

/-- A path that was there before and is not the edited one is still there. -/
theorem resolve_of_ne {q : Path} (hq : q ≠ p ++ [n]) : resolve d' q = resolve d q := by
  rw [e.resolve_eq hT, if_neg hq]

/-- The live blocks of the other paths stay where they are. -/
theorem live_of_ne (k : LiveKey) (hk : k.path ≠ p ++ [n]) : live d' k = live d k := by
  apply live_congr (e.resolve_of_ne hT hk)
  intro i hi
  by_cases hp : k.path = p
  · have hiP : i = P := Option.some.inj (by rw [← hi, hp, e.parent])
    rw [hiP, e.inode]
    cases k <;> rfl
  · rw [inodeAt_frame hi (e.keep_path hp)]

/-- The root stays a directory. -/
theorem root' : (inodeAt d' 2).isDir = true := by
  by_cases hp : p = []
  · have : P = 2 := Option.some.inj (by rw [← e.parent, hp, resolve_nil])
    rw [← this]
    exact e.isDir'
  · rw [inodeAt_frame (resolve_nil d) (e.keep_path (fun h => hp h.symm))]
    exact hT.root

/-- Every reachable node is good afterwards, when the new one is. -/
theorem nodeOk' (hnew : ∀ f, new = some f → NodeOk d' f) :
    ∀ q i, resolve d' q = some i → NodeOk d' i := by
  intro q i hq
  rw [e.resolve_eq hT] at hq
  split_ifs at hq with h
  · exact hnew i hq
  · by_cases hp : q = p
    · have hiP : i = P := Option.some.inj (by rw [← hq, hp, e.parent])
      rw [hiP, NodeOk, if_pos e.isDir']
      refine ⟨?_, e.dirOk' hT⟩
      rw [e.inode]
      exact hT.dir_size e.parent e.isDir
    · exact (nodeOk_frame hq (e.keep_path hp)).mpr (hT.node q i hq)

/-- Everything live afterwards: what is given at the edited path, the edited directory with its new
entry, and everything else as before. -/
theorem liveNode_eq (q : Path) :
    liveNode d' q =
      if q = p ++ [n] then new.map (nodeView d')
      else if q = p then some { nodeView d P with
        mtime := mt
        body := .dir (Function.update (slot (dirBlock d P)) s (new.map fun f => (f, n))) }
      else liveNode d q := by
  rw [liveNode, e.resolve_eq hT]
  split_ifs with h1 h2
  · rfl
  -- The directory's slots are the old ones but for slot `s`.
  · have hbody : bodyOf d' (inodeAt d' P) =
        .dir (Function.update (slot (dirBlock d P)) s (new.map fun f => (f, n))) := by
      rw [bodyOf, if_pos e.isDir', e.ptr]
      congr 1
      funext t
      by_cases ht : t = s
      · rw [ht, Function.update_self, e.slots.slot_self]
      · rw [Function.update_of_ne ht, e.slots.slot_of_ne (hT.dirOk e.parent e.isDir) ht]
    rw [h2, e.parent, Option.map_some, nodeView, nodeView]
    simp only [hbody]
    rw [e.inode]
    rfl
  · rw [liveNode]
    cases hi : resolve d q with
    | none => rfl
    | some i => simp only [Option.map_some, nodeView_frame hT hi (e.keep_path h2)]

/-- Adding a node of free blocks keeps the disk well-formed. -/
theorem wellFormed_add {f : ℕ} (hW : WellFormed d) (hold : old = none) (hnew : new = some f)
    (hnblks : d.nblks ≤ d'.nblks) (hnode : NodeOk d' f) (hnd : (f :: (nodeView d' f).ptrs).Nodup)
    (hfree : ∀ b ∈ f :: (nodeView d' f).ptrs,
      (2 ≤ b ∧ b < 32768 ∧ b < d'.nblks) ∧ bit (d.blk 1) b = false)
    (hbit : ∀ j < 32768, bit (d'.blk 1) j = true ↔
      bit (d.blk 1) j = true ∨ j ∈ f :: (nodeView d' f).ptrs) : WellFormed d' := by
  have hr' : resolve d' (p ++ [n]) = some f := by rw [e.resolve_eq hT, if_pos rfl, hnew]
  have hr : resolve d (p ++ [n]) = none := by rw [e.resolve_old hT, hold]
  have hB : blocksAt d (p ++ [n]) = [] := by simp only [blocksAt, hr]
  have hB' : blocksAt d' (p ++ [n]) = f :: (nodeView d' f).ptrs := by simp only [blocksAt, hr']
  refine hW.of_edit (p ++ [n]) hnblks (e.root' hT) (e.nodeOk' hT ?_) (e.live_of_ne hT)
    (hB' ▸ hnd) ?_ ?_
  · intro g hg
    rw [← Option.some.inj (hnew.symm.trans hg)]
    exact hnode
  · rw [hB']
    exact fun b hb => ⟨(hfree b hb).1, .inr (hfree b hb).2⟩
  · rw [hB, hB']
    simpa using hbit

/-- Removing a node and freeing its blocks keeps the disk well-formed. -/
theorem wellFormed_remove {f : ℕ} (hW : WellFormed d) (hold : old = some f) (hnew : new = none)
    (hnblks : d.nblks ≤ d'.nblks)
    (hbit : ∀ j < 32768, bit (d'.blk 1) j = true ↔
      bit (d.blk 1) j = true ∧ j ∉ f :: (nodeView d f).ptrs) : WellFormed d' := by
  have hr' : resolve d' (p ++ [n]) = none := by rw [e.resolve_eq hT, if_pos rfl, hnew]
  have hr : resolve d (p ++ [n]) = some f := by rw [e.resolve_old hT, hold]
  have hB : blocksAt d (p ++ [n]) = f :: (nodeView d f).ptrs := by simp only [blocksAt, hr]
  have hB' : blocksAt d' (p ++ [n]) = [] := by simp only [blocksAt, hr']
  refine hW.of_edit (p ++ [n]) hnblks (e.root' hT) (e.nodeOk' hT ?_) (e.live_of_ne hT)
    (by simp [hB']) (by simp [hB']) ?_
  · intro g hg
    cases hnew.symm.trans hg
  · rw [hB, hB']
    simpa using hbit

end EntryEdit

/-! ## Replacing one inode -/

/-- Disk `d'` is `d` with the inode of one path replaced by one of the same type. A directory keeps
its size and its block. -/
structure InodeEdit (d d' : Disk) (p : Path) (i : ℕ) : Prop where
  resolves : resolve d p = some i
  isDir : (inodeAt d' i).isDir = (inodeAt d i).isDir
  dir : (inodeAt d i).isDir = true →
    (inodeAt d' i).size = (inodeAt d i).size ∧ (inodeAt d' i).ptr 0 = (inodeAt d i).ptr 0 ∧
      dirBlock d' i = dirBlock d i
  keep : ∀ k b, live d k = some b → k.path ≠ p → d'.blk b = d.blk b

namespace InodeEdit

variable {p : Path} {i : ℕ} (e : InodeEdit d d' p i) (hT : Tree d)
include e

/-- The blocks of another path are kept. -/
theorem keep_path {q : Path} (hq : q ≠ p) :
    ∀ k b, k.path = q → live d k = some b → d'.blk b = d.blk b := by
  rintro k b rfl hk
  exact e.keep k b hk hq

/-- Replacing an inode does not change the inode number of any path. -/
theorem resolve_eq (q : Path) : resolve d' q = resolve d q := by
  refine walk_congr (entry d) (entry d') ?_ q
  intro r v hv
  by_cases hr : r = p
  · have hvi : v = i := Option.some.inj (by rw [← e.resolves, ← hr]; exact hv.symm)
    rw [hvi]
    funext m
    unfold entry
    rw [e.isDir]
    split_ifs with hdir
    · rw [(e.dir hdir).2.2]
    · rfl
  · exact entry_frame hv (e.keep_path hr)

/-- The live blocks of another path are the same. -/
theorem live_of_ne (k : LiveKey) (hk : k.path ≠ p) : live d' k = live d k := by
  apply live_congr (e.resolve_eq k.path)
  intro j hj
  rw [inodeAt_frame hj (e.keep_path hk)]

/-- Every path is sound when the new inode is. -/
theorem nodeOk' (hnode : NodeOk d' i) (hT : Tree d) :
    ∀ q j, resolve d' q = some j → NodeOk d' j := by
  intro q j hq
  rw [e.resolve_eq] at hq
  by_cases hp : q = p
  · have hji : j = i := Option.some.inj (by rw [← hq, hp, e.resolves])
    rw [hji]
    exact hnode
  · exact (nodeOk_frame hq (e.keep_path hp)).mpr (hT.node q j hq)

include hT

/-- The root stays a directory. -/
theorem root' : (inodeAt d' 2).isDir = true := by
  by_cases hp : p = []
  · have : i = 2 := Option.some.inj (by rw [← e.resolves, hp, resolve_nil])
    rw [← this, e.isDir, this]
    exact hT.root
  · rw [inodeAt_frame (resolve_nil d) (e.keep_path (fun h => hp h.symm))]
    exact hT.root

/-- Everything live afterwards: the new inode at its path, and everything else as before. -/
theorem liveNode_eq (q : Path) :
    liveNode d' q = if q = p then some (nodeView d' i) else liveNode d q := by
  rw [liveNode, e.resolve_eq]
  split_ifs with h
  · rw [h, e.resolves]
    rfl
  · rw [liveNode]
    cases hj : resolve d q with
    | none => rfl
    | some j => simp only [Option.map_some, nodeView_frame hT hj (e.keep_path h)]

/-- Replacing the pointers of an inode, by its own or free blocks that are marked afterwards, keeps
the disk well-formed. -/
theorem wellFormed (hW : WellFormed d) (hnblks : d.nblks ≤ d'.nblks) (hnode : NodeOk d' i)
    (hnd : (i :: (nodeView d' i).ptrs).Nodup)
    (hblocks : ∀ b ∈ (nodeView d' i).ptrs, (2 ≤ b ∧ b < 32768 ∧ b < d'.nblks) ∧
      (b ∈ (nodeView d i).ptrs ∨ bit (d.blk 1) b = false))
    (hbit : ∀ j < 32768, bit (d'.blk 1) j = true ↔
      bit (d.blk 1) j = true ∧ j ∉ (nodeView d i).ptrs ∨ j ∈ (nodeView d' i).ptrs) :
    WellFormed d' := by
  obtain ⟨hi2, hi, hi'⟩ := hT.inode_range e.resolves
  have hr : resolve d' p = some i := by rw [e.resolve_eq, e.resolves]
  have hB : blocksAt d p = i :: (nodeView d i).ptrs := by simp only [blocksAt, e.resolves]
  have hB' : blocksAt d' p = i :: (nodeView d' i).ptrs := by simp only [blocksAt, hr]
  refine hW.of_edit p hnblks (e.root' hT) (e.nodeOk' hnode hT) e.live_of_ne (hB' ▸ hnd) ?_ ?_
  · rw [hB, hB']
    intro b hb
    rcases List.mem_cons.mp hb with rfl | hb
    · exact ⟨by omega, .inl (by simp)⟩
    · refine ⟨(hblocks b hb).1, (hblocks b hb).2.imp (by simp [·]) id⟩
  · intro j hj
    -- The inode itself is marked before and after, and in neither list of pointers.
    have hbi : bit (d.blk 1) i = true := (hW.exact i hi).mpr (.inr (.inr ⟨.inode p, e.resolves⟩))
    have hnd' := hT.nodup_blocksAt p
    rw [hB, List.nodup_cons] at hnd'
    rw [hB, hB', hbit j hj, List.mem_cons, List.mem_cons]
    by_cases hji : j = i
    · subst hji
      simp [hbi, hnd'.1]
    · simp [hji]

end InodeEdit

end Cs5600.Lab4
