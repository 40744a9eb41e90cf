import Cs5600.Lab4.Edit
import Cs5600.Lab4.Spec

/-!
# Operations on one inode's header

`fs_chmod` and `fs_utime` replace the inode of a path, changing header fields only. -/

namespace Cs5600.Lab4

variable {d : Disk}

/-- An inode that is written is there. -/
theorem inodeAt_write (d : Disk) (i : ℕ) (x : Inode) : inodeAt (d.write i x.toBlock) i = x := by
  rw [inodeAt, Disk.write_blk_self, Inode.ofBlock_toBlock]

/-- Writing an inode over the inode of a path. -/
theorem Tree.inodeEdit (hT : Tree d) {p : Path} {i : ℕ} (hp : resolve d p = some i) {x : Inode}
    (hdir : x.isDir = (inodeAt d i).isDir)
    (hd : (inodeAt d i).isDir = true →
      x.size = (inodeAt d i).size ∧ x.ptr 0 = (inodeAt d i).ptr 0) :
    InodeEdit d (d.write i x.toBlock) p i := by
  obtain ⟨-, -, hi⟩ := hT.inode_range hp
  have hx := inodeAt_write d i x
  refine ⟨hp, by rw [hx, hdir], ?_, ?_⟩
  · intro h
    have hne : (inodeAt d i).ptr 0 ≠ i := by
      intro h0
      have := hT.inj (.dirData p) (.inode p) i (by rw [Tree.dirData_live hp h, h0]) hp
      cases this
    rw [hx, dirBlock, hx, (hd h).2, Disk.write_blk_of_lt d i _ hi, if_neg hne]
    exact ⟨(hd h).1, rfl, rfl⟩
  · intro k b hk hne
    rw [Disk.write_blk_of_lt d i _ hi, if_neg]
    rintro rfl
    exact hne (by rw [hT.inj k (.inode p) b hk hp]; rfl)

/-- Writing an inode that differs from the old one in header fields other than type and size, and in
pointers that are not in use. -/
theorem WellFormed.header_write (hW : WellFormed d) {p : Path} {i : ℕ} (hp : resolve d p = some i)
    {x : Inode} (hdir : x.isDir = (inodeAt d i).isDir) (hsize : x.size = (inodeAt d i).size)
    (hptrs : ∀ k < (inodeAt d i).nblocks, x.ptr k = (inodeAt d i).ptr k) :
    WellFormed (d.write i x.toBlock) ∧ view (d.write i x.toBlock) =
      { view d with nodes := Function.update (liveNode d) p (some { nodeView d i with
          uid := x.uid, gid := x.gid, mode := x.mode, ctime := x.ctime, mtime := x.mtime }) } := by
  have hT := hW.toTree
  obtain ⟨hi2, -, hi⟩ := hT.inode_range hp
  have hptr0 : (inodeAt d i).isDir = true → x.ptr 0 = (inodeAt d i).ptr 0 := by
    intro h
    exact hptrs 0 (by rw [(hT.node p i hp).nblocks_dir h]; norm_num)
  have hx := inodeAt_write d i x
  have e := hT.inodeEdit hp hdir fun h => ⟨hsize, hptr0 h⟩
  have hblk : ∀ j, j ≠ i → (d.write i x.toBlock).blk j = d.blk j := by
    intro j hj
    rw [Disk.write_blk_of_lt d i _ hi, if_neg hj]
  -- The data blocks of the node are other blocks than its inode, so what it describes is unchanged.
  have hbody : bodyOf (d.write i x.toBlock) x = bodyOf d (inodeAt d i) := by
    unfold bodyOf
    rw [hdir]
    split_ifs with h
    · have := (e.dir h).2.2
      rw [dirBlock, dirBlock, hx] at this
      rw [this]
    · have hf : (inodeAt d i).isDir = false := by simpa using h
      have hn := hT.nblocks_eq hp hf
      have hs := hT.file_size hp hf
      have hcontents : contents (d.write i x.toBlock) x = contents d (inodeAt d i) := by
        unfold contents
        rw [hsize]
        apply List.map_congr_left
        intro j hj
        have hj' := List.mem_range.mp hj
        have hlive := Tree.fileData_live hp hf (k := j / 4096) (by omega)
        rw [hptrs _ (by omega), hblk]
        intro h0
        rw [h0] at hlive
        cases hT.inj _ _ i hlive (live_inode d p ▸ hp)
      rw [hcontents]
  have hview : nodeView (d.write i x.toBlock) i = { nodeView d i with
      uid := x.uid, gid := x.gid, mode := x.mode, ctime := x.ctime, mtime := x.mtime } := by
    have hptrs' : (List.range (inodeAt d i).nblocks).map x.ptr =
        (List.range (inodeAt d i).nblocks).map (inodeAt d i).ptr :=
      List.map_congr_left fun k hk => hptrs k (List.mem_range.mp hk)
    simp only [nodeView, hx, hbody, hsize, show x.nblocks = (inodeAt d i).nblocks by
      rw [Inode.nblocks, Inode.nblocks, hsize], hptrs']
  have hnode : NodeOk (d.write i x.toBlock) i := by
    have h := hT.node p i hp
    unfold NodeOk at h ⊢
    rw [hx, hdir, hsize]
    split_ifs at h ⊢ with hd
    · rw [(e.dir hd).2.2]
      exact h
    · exact h
  have hB : blocksAt d p = i :: (nodeView d i).ptrs := by simp only [blocksAt, hp]
  refine ⟨e.wellFormed hT hW (by simp) hnode ?_ ?_ ?_,
    View.ext (hblk 0 (by omega)) (hblk 1 (by omega)) ?_⟩
  · rw [hview, ← hB]
    exact hT.nodup_blocksAt p
  · rw [hview]
    intro b hb
    have hrange := (hW.block_spec hp (List.mem_cons_of_mem _ hb)).1
    exact ⟨by simp; omega, .inl hb⟩
  · rw [hview, hblk 1 (by omega)]
    intro j hj
    have hmark : j ∈ (nodeView d i).ptrs → bit (d.blk 1) j = true := fun hb =>
      (hW.block_spec hp (List.mem_cons_of_mem _ hb)).2.1
    constructor
    · intro h
      by_cases hb : j ∈ (nodeView d i).ptrs
      · exact .inr hb
      · exact .inl ⟨h, hb⟩
    · rintro (⟨h, -⟩ | hb)
      · exact h
      · exact hmark hb
  · funext q
    rw [view_nodes, e.liveNode_eq hT, hview]
    simp only [Function.update_apply]

section

variable (hW : WellFormed d) (ctx : Ctx) (u : Stack) (p : NormPath)
include hW

/-- `fs_chmod` on a well-formed disk. -/
theorem fsChmod_refines (mode : UInt32) :
    Refines d (fsChmod u p.str mode d) ((view d).chmod p.comps mode) := by
  have hT := hW.toTree
  rw [fsChmod, path2inum_str hT, View.chmod, view_nodes]
  cases hr : resolve d p.comps with
  | none =>
    have hneg := walkInum_none hr
    simp only [show walkInum d 2 p.comps ≤ 0 by omega, if_true, liveNode_none hr]
    exact refines_fail d _
  | some i =>
    obtain ⟨h2, h1, hi⟩ := hT.inode_range hr
    have hx : Inode.ofBlock (d.blk i) = inodeAt d i := rfl
    rw [walkInum_some hT hr, liveNode_some hr]
    simp only [show ¬ ((i : ℤ) ≤ 0) by omega, if_false, blockRead_of_lt d _ h1 hi, hx,
      blockWrite_of_lt d _ (show 0 < i by omega) h1, ok_bind, ne_eq, not_true]
    obtain ⟨hW', hv⟩ := hW.header_write hr (x := { inodeAt d i with
      mode := ((inodeAt d i).mode &&& 0xfffff000) ||| (0x00000fff &&& mode) })
      (sIsDir_chmod _ mode) rfl (fun _ _ => rfl)
    exact refines_done rfl hW' hv (.of_eq [] (Disk.write_nblks_of_lt d i _ hi))

/-- `fs_utime` on a well-formed disk. -/
theorem fsUtime_refines (ut : Option ℤ) :
    Refines d (fsUtime ctx u p.str ut d) ((view d).utime ctx p.comps ut) := by
  have hT := hW.toTree
  simp only [fsUtime, path2inum_str hT, View.utime, view_nodes, inum_view]
  -- An unknown path is refused; else only the inode's own block is written.
  cases hr : resolve d p.comps with
  | none =>
    have hneg := walkInum_none hr
    simp only [show walkInum d 2 p.comps ≤ 0 by omega, if_true, liveNode_none hr]
    exact refines_fail d _
  | some i =>
    obtain ⟨h2, h1, hi⟩ := hT.inode_range hr
    have hx : Inode.ofBlock (d.blk i) = inodeAt d i := rfl
    rw [walkInum_some hT hr, liveNode_some hr]
    simp only [show ¬ ((i : ℤ) ≤ 0) by omega, if_false, blockRead_of_lt d _ h1 hi, hx,
      nodeView_isDir]
    split_ifs with hdir
    · exact refines_fail d _
    · simp only [blockWrite_of_lt d _ (show 0 < i by omega) h1, ok_bind]
      obtain ⟨hW', hv⟩ := hW.header_write hr (x := { inodeAt d i with
        mtime := ctx.modtime ut }) rfl rfl (fun _ _ => rfl)
      exact refines_done rfl hW' hv (.of_eq [] (Disk.write_nblks_of_lt d i _ hi))

end

end Cs5600.Lab4
