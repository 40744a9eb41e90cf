import Cs5600.Lab4.Device
import Mathlib.Algebra.Order.BigOperators.Group.Finset

/-!
# Space accounting

`fs_statfs` counts blocks in the bitmap, and `fs_getattr` says of a file how many blocks it has. The
two agree: the blocks that are not free are those of the files and the directories, and one for the
inode of each.
-/

namespace Cs5600.Lab4

/-- The blocks that a path occupies: its inode, and the `st_blocks` that `inode2stat` says. -/
def occupied (d : Disk) (p : Path) : ℕ :=
  (resolve d p).elim 0 fun i => 1 + (inode2stat (inodeAt d i) i).blocks.toNat

/-- The places of the live blocks of a path. -/
def keysOf (d : Disk) (p : Path) : Finset LiveKey :=
  (resolve d p).elim ∅ fun i => insert (.inode p)
    (if (inodeAt d i).isDir then {.dirData p} else (Finset.range (inodeAt d i).nblocks).image
      (.fileData p))

variable {d : Disk} {p : Path} {i : ℕ}

/-- The places of a path are those that are live. -/
theorem mem_keysOf {k : LiveKey} : k ∈ keysOf d p ↔ k.path = p ∧ ∃ b, live d k = some b := by
  cases hp : resolve d p with
  | none =>
    rw [keysOf, hp, Option.elim_none]
    refine iff_of_false (Finset.notMem_empty k) ?_
    rintro ⟨rfl, b, hb⟩
    obtain ⟨i, hi⟩ := resolve_of_live hb
    rw [hi] at hp
    cases hp
  | some i =>
    rw [keysOf, hp, Option.elim_some, Finset.mem_insert]
    -- One kind of key after the other: the inode, a directory's block, a file's blocks.
    cases k with
    | inode q =>
      have hnot : LiveKey.inode q ∉ (if (inodeAt d i).isDir then {.dirData p}
          else (Finset.range (inodeAt d i).nblocks).image (.fileData p) : Finset LiveKey) := by
        split_ifs <;> simp
      simp only [LiveKey.inode.injEq, LiveKey.path, hnot, or_false]
      refine ⟨fun h => ⟨h, i, ?_⟩, fun h => h.1⟩
      rw [h, live_inode, hp]
    | dirData q =>
      simp only [reduceCtorEq, false_or, LiveKey.path]
      constructor
      · intro h
        split_ifs at h with hdir
        · obtain rfl : q = p := by simpa using h
          exact ⟨rfl, _, Tree.dirData_live hp hdir⟩
        · simp at h
      · rintro ⟨rfl, b, hb⟩
        rw [live_dirData, hp, Option.bind_some] at hb
        split_ifs at hb with hdir
        rw [if_pos hdir, Finset.mem_singleton]
    | fileData q k =>
      simp only [reduceCtorEq, false_or, LiveKey.path]
      constructor
      · intro h
        split_ifs at h with hdir
        · simp at h
        · obtain ⟨j, hj, heq⟩ := Finset.mem_image.mp h
          obtain ⟨rfl, rfl⟩ := LiveKey.fileData.inj heq
          exact ⟨rfl, _, Tree.fileData_live hp (Bool.eq_false_iff.mpr hdir)
            (Finset.mem_range.mp hj)⟩
      · rintro ⟨rfl, b, hb⟩
        rw [live_fileData, hp, Option.bind_some] at hb
        split_ifs at hb with hfile
        rw [if_neg (by simp [hfile.1])]
        exact Finset.mem_image_of_mem _ (Finset.mem_range.mpr hfile.2)

/-- A path occupies as many blocks as it has live ones. -/
theorem card_keysOf : (keysOf d p).card = occupied d p := by
  rw [keysOf, occupied]
  cases hp : resolve d p with
  | none => rfl
  | some i =>
    rw [Option.elim_some, Option.elim_some]
    have hinode : LiveKey.inode p ∉ (if (inodeAt d i).isDir then {.dirData p}
        else (Finset.range (inodeAt d i).nblocks).image (.fileData p) : Finset LiveKey) := by
      split_ifs <;> simp
    rw [Finset.card_insert_of_notMem hinode, Nat.add_comm]
    congr 1
    rw [inode2stat]
    split_ifs with hdir
    · rfl
    · rw [Finset.card_image_of_injective _ fun j j' h => (LiveKey.fileData.inj h).2,
        Finset.card_range]
      rfl

/-- The paths that lead to something are finitely many. -/
theorem exists_paths (hT : Tree d) : ∃ paths :
    Finset Path, ∀ p, p ∈ paths ↔ (resolve d p).isSome := by
  have hfinite : {p | (resolve d p).isSome = true}.Finite := by
    refine Set.Finite.of_finite_image (f := fun p => (resolve d p).getD 0)
      ((Set.finite_Iio 32768).subset ?_) fun p hp q hq heq => ?_
    · rintro i ⟨p, hp, rfl⟩
      obtain ⟨i, hi⟩ := Option.isSome_iff_exists.mp hp
      simp only [hi, Option.getD_some]
      exact (hT.inode_range hi).2.1
    · obtain ⟨i, hi⟩ := Option.isSome_iff_exists.mp hp
      obtain ⟨j, hj⟩ := Option.isSome_iff_exists.mp hq
      simp only [hi, hj, Option.getD_some] at heq
      exact hT.resolve_inj hi (heq ▸ hj)
  exact ⟨hfinite.toFinset, fun p => hfinite.mem_toFinset⟩

/-- The blocks that the bitmap marks behind the first two are those that the paths occupy. -/
theorem usedBlocks_eq_sum (hW : WellFormed d) {paths : Finset Path}
    (hpaths : ∀ p, p ∈ paths ↔ (resolve d p).isSome) :
    usedBlocks (d.blk 1) = ∑ p ∈ paths, occupied d p := by
  have hT := hW.toTree
  have hkey : ∀ {k b}, live d k = some b → k ∈ paths.biUnion (keysOf d) := by
    intro k b hb
    obtain ⟨i, hi⟩ := resolve_of_live hb
    exact Finset.mem_biUnion.mpr ⟨k.path, (hpaths _).mpr (by rw [hi]; rfl),
      mem_keysOf.mpr ⟨rfl, b, hb⟩⟩
  have hlive : ∀ {k}, k ∈ paths.biUnion (keysOf d) → ∃ b, live d k = some b := by
    intro k hk
    obtain ⟨p, -, hk⟩ := Finset.mem_biUnion.mp hk
    exact (mem_keysOf.mp hk).2
  -- The keys of two paths differ, so the union is disjoint.
  have hdisjoint : ∀ p ∈ paths, ∀ q ∈ paths, p ≠ q → Disjoint (keysOf d p) (keysOf d q) := by
    intro p _ q _ hne
    refine Finset.disjoint_left.mpr fun k hk hk' => hne ?_
    exact (mem_keysOf.mp hk).1.symm.trans (mem_keysOf.mp hk').1
  -- A marked block is the block of exactly one key.
  have hused : ((Finset.Ico 2 32768).filter fun i => bit (d.blk 1) i = true) =
      (paths.biUnion (keysOf d)).image fun k => (live d k).getD 0 := by
    ext i
    simp only [Finset.mem_filter, Finset.mem_Ico, Finset.mem_image]
    constructor
    · rintro ⟨⟨h2, hlt⟩, hbit⟩
      rcases (hW.exact i hlt).mp hbit with rfl | rfl | ⟨k, hk⟩
      · omega
      · omega
      · exact ⟨k, hkey hk, by rw [hk, Option.getD_some]⟩
    · rintro ⟨k, hk, rfl⟩
      obtain ⟨b, hb⟩ := hlive hk
      obtain ⟨h2, hlt, -⟩ := hT.range k b hb
      rw [hb, Option.getD_some]
      exact ⟨⟨h2, hlt⟩, (hW.exact b hlt).mpr (.inr (.inr ⟨k, hb⟩))⟩
  rw [usedBlocks_eq, hused, Finset.card_image_of_injOn, Finset.card_biUnion hdisjoint]
  · exact Finset.sum_congr rfl fun p _ => card_keysOf
  · intro k hk k' hk' heq
    obtain ⟨b, hb⟩ := hlive hk
    obtain ⟨b', hb'⟩ := hlive hk'
    simp only [hb, hb', Option.getD_some] at heq
    exact hT.inj k k' b hb (heq ▸ hb')

end Cs5600.Lab4
