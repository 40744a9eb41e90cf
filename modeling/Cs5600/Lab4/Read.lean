import Cs5600.Lab4.Write

/-!
# The operations that only read

`fs_read`, `fs_getattr`, `fs_readdir`, `fs_statfs`, and `fs_init` on a well-formed disk return what
the view of the disk says.
-/

namespace Cs5600.Lab4

variable {d : Disk}

/-! ## `fs_read` -/

/-- A piece of one block of a file. -/
theorem slice_eq_contents (d : Disk) (x : Inode) {pos n : ℕ} (hn : pos % 4096 + n ≤ 4096)
    (hsize : pos + n ≤ x.size.toInt.toNat) :
    (d.blk (x.ptr (pos / 4096))).slice (pos % 4096) n = ((contents d x).drop pos).take n := by
  apply List.ext_getElem?
  intro j
  by_cases hj : j < n
  · rw [List.getElem?_take_of_lt hj, List.getElem?_drop, getElem?_contents d x (by omega),
      Bytes.slice, List.getElem?_map, List.getElem?_range hj, Option.map_some,
      show (pos + j) / 4096 = pos / 4096 by omega, show (pos + j) % 4096 = pos % 4096 + j by omega]
  · rw [List.getElem?_eq_none (by simp; omega), List.getElem?_eq_none (by simp; omega)]

/-- One pass of the loop of `fs_read`, which reads up to the end of the block, of the request, or of
the file. -/
theorem readLoop_step {d : Disk} {x : Inode} {len : ℕ} {offset nread startBlock startOffset : ℤ}
    {data : Block} {out bytes : List UInt8} {p : UInt32} {pread : ℤ}
    (hcond : nread < len ∧ nread + offset < x.size.toInt) (hp : x.ptrAt startBlock = .ok p)
    (hblock : pread ≤ 4096 - startOffset) (hlen : pread ≤ len - nread)
    (hsize : pread ≤ x.size.toInt - offset - nread)
    (heq : pread = 4096 - startOffset ∨ pread = len - nread ∨ pread = x.size.toInt - offset - nread)
    (hcopy : copyOut (blockRead d data (lbaOf p)).1 startOffset pread = .ok bytes) :
    readLoop d x len offset nread startBlock startOffset data out =
      readLoop d x len offset (nread + pread) (startBlock + 1) 0 (blockRead d data (lbaOf p)).1
        (out ++ bytes) := by
  -- The two cuts of the source leave `pread`.
  have h : (if x.size.toInt < nread + (if (len : ℤ) < nread + (4096 - startOffset) then len - nread
      else 4096 - startOffset) + offset then x.size.toInt - offset - nread
      else if (len : ℤ) < nread + (4096 - startOffset) then len - nread
      else 4096 - startOffset) = pread := by
    split_ifs <;> omega
  rw [readLoop, if_pos hcond]
  split
  · rename_i e he
    rw [hp] at he
    cases he
  · rename_i q hq
    rw [hp] at hq
    obtain rfl := Except.ok.inj hq
    simp only [h, hcopy]

/-- The least of three numbers. -/
theorem exists_least (a b c : ℕ) :
    ∃ k, k ≤ a ∧ k ≤ b ∧ k ≤ c ∧ (k = a ∨ k = b ∨ k = c) := ⟨min (min a b) c, by omega⟩

section

variable (hT : Tree d) {p : Path} {i : ℕ} (hp : resolve d p = some i)
  (hfile : (inodeAt d i).isDir = false)
include hT hp hfile

/-- The loop of `fs_read` from byte `off + n` of a file up to its byte `off + stop`. -/
theorem readLoop_spec {len off stop size : ℕ} (hsize : (inodeAt d i).size.toInt = size)
    (hstop : stop ≤ len ∧ stop ≤ size - off ∧ (stop = len ∨ stop = size - off)) :
    ∀ (N n : ℕ) (startBlock startOffset : ℤ) (data : Block) (out : List UInt8), n + N = stop →
    (0 < N → startBlock = ((off + n) / 4096 : ℕ) ∧ startOffset = ((off + n) % 4096 : ℕ)) →
    readLoop d (inodeAt d i) len off n startBlock startOffset data out =
      .ok ((stop : ℕ), out ++ ((contents d (inodeAt d i)).drop (off + n)).take N) := by
  intro N
  induction N using Nat.strong_induction_on with
  | _ N ih =>
    intro n startBlock startOffset data out hN hcur
    rcases Nat.eq_zero_or_pos N with hzero | hpos
    · rw [readLoop, if_neg (by omega), hzero, List.take_zero, List.append_nil,
        show n = stop by omega]
    · obtain ⟨rfl, rfl⟩ := hcur hpos
      have hk : (off + n) / 4096 < (inodeAt d i).nblocks := by
        have := hT.nblocks_eq hp hfile
        omega
      have hk' : (off + n) / 4096 < 1019 := hk.trans_le (hT.nblocks_le hp hfile)
      obtain ⟨-, hr', hrn⟩ := hT.fileData_range hp hfile hk
      -- `pread` is the length of the copy of this pass: up to a block, the request, or the end.
      obtain ⟨pread, hp1, hp2, hp3, hp4⟩ := exists_least (4096 - (off + n) % 4096) (len - n)
        (size - off - n)
      have hread :
        (blockRead d data (lbaOf (UInt32.ofNat ((inodeAt d i).ptr ((off + n) / 4096))))).1 =
          d.blk ((inodeAt d i).ptr ((off + n) / 4096)) := by
        rw [lbaOf_ofNat hr', blockRead_of_lt d data hr' hrn]
      have hcopy : copyOut (blockRead d data
          (lbaOf (UInt32.ofNat ((inodeAt d i).ptr ((off + n) / 4096))))).1
            ((off + n) % 4096 : ℕ) pread =
          .ok (((contents d (inodeAt d i)).drop (off + n)).take pread) := by
        rw [hread, copyOut, if_neg (by omega), if_pos (by omega), Int.toNat_natCast,
          Int.toNat_natCast, slice_eq_contents d _ (by omega) (by omega)]
      have hcond : (n : ℤ) < len ∧ (n : ℤ) + off < (inodeAt d i).size.toInt := by omega
      have hstep : readLoop d (inodeAt d i) len off n ((off + n) / 4096 : ℕ) ((off + n) % 4096 : ℕ)
          data out = _ :=
        readLoop_step hcond (Inode.ptrAt_eq _ hk') (by omega) (by omega) (by omega) (by omega) hcopy
      have hrec := ih (N - pread) (by omega) (n + pread) (((off + n) / 4096 : ℕ) + 1) 0
        (blockRead d data (lbaOf (UInt32.ofNat ((inodeAt d i).ptr ((off + n) / 4096))))).1
        (out ++ ((contents d (inodeAt d i)).drop (off + n)).take pread) (by omega) (by omega)
      have hjoin : ((contents d (inodeAt d i)).drop (off + n)).take pread ++
          ((contents d (inodeAt d i)).drop (off + (n + pread))).take (N - pread) =
          ((contents d (inodeAt d i)).drop (off + n)).take N := by
        have hdrop : (contents d (inodeAt d i)).drop (off + (n + pread)) =
            ((contents d (inodeAt d i)).drop (off + n)).drop pread := by
          rw [List.drop_drop, Nat.add_assoc]
        rw [hdrop, ← List.take_add, show pread + (N - pread) = N by omega]
      rw [Nat.cast_add, List.append_assoc, hjoin] at hrec
      exact hstep.trans hrec

end

/-! ## The operations -/

/-- A path that FUSE passes: a normalised absolute path of at most 10 components, the root being the
slash alone. -/
@[ext]
structure AbsPath where
  comps : Path
  isName : ∀ n ∈ comps, IsName n
  length_le : comps.length ≤ 10
  deriving DecidableEq

namespace AbsPath

/-- The path as a string. -/
def str (p : AbsPath) : CString := if p.comps = [] then [slash] else render p.comps

/-- The string of a path spells its components. -/
theorem spells (p : AbsPath) : Spells p.str p.comps := by
  rw [str]
  split_ifs with h
  · exact .inr (by rw [h]; rfl)
  · exact .inl rfl

/-- The string of a path starts with a slash. -/
theorem head_str (p : AbsPath) : p.str.head? = some slash := by
  rw [str]
  split_ifs with h
  · rfl
  · obtain ⟨n, ns, hns⟩ := List.exists_cons_of_ne_nil h
    rw [hns, render_cons]
    rfl

end AbsPath

/-- A path of 1 to 10 components as one of at most 10. -/
def NormPath.toAbsPath (p : NormPath) : AbsPath where
  comps := p.comps
  isName := p.isName
  length_le := by
    have := p.parent_lt
    rw [p.length_comps]
    omega

/-- A path below the root has the same components as an absolute path. -/
@[simp]
theorem NormPath.toAbsPath_comps (p : NormPath) : p.toAbsPath.comps = p.comps := rfl

/-- A path below the root has the same string as an absolute path. -/
@[simp]
theorem NormPath.toAbsPath_str (p : NormPath) : p.toAbsPath.str = p.str := by
  have hne : p.comps ≠ [] := by simp [NormPath.comps]
  rw [AbsPath.str, toAbsPath_comps, if_neg hne, NormPath.str]

/-- `path2inum` walks along the components of a path. -/
theorem path2inum_abs (hT : Tree d) (u : Stack) (p : AbsPath) :
    path2inum u d p.str = walkInum d 2 p.comps :=
  path2inum_spells hT u p.isName p.length_le p.spells p.head_str

/-- What `inode2stat` says about a live inode. -/
theorem inode2stat_eq (d : Disk) (i : ℕ) : inode2stat (inodeAt d i) i = (nodeView d i).stat := by
  simp only [inode2stat, LiveNode.stat, nodeView_isDir]
  rfl

section

variable (hT : Tree d) (u : Stack)
include hT

/-- `fs_init` reads the superblock. -/
theorem fsInit_eq : fsInit u d = (view d).init := by
  have h0 : blockRead d (u .buf) 0 = (d.blk 0, 0) := by
    have h := blockRead_of_lt d (u .buf) (i := 0) (by norm_num) (by have := hT.two_lt; omega)
    rwa [Nat.cast_zero] at h
  rw [fsInit, View.init, view_super]
  simp only [h0, ne_eq, not_true, if_false]

/-- `fs_statfs` reads the superblock and the bitmap. -/
theorem fsStatfs_eq : fsStatfs u d = (view d).statfs := by
  have h0 : blockRead d (u .super) 0 = (d.blk 0, 0) := by
    have h := blockRead_of_lt d (u .super) (i := 0) (by norm_num) (by have := hT.two_lt; omega)
    rwa [Nat.cast_zero] at h
  simp only [fsStatfs, h0, blockRead_bitmap hT.one_lt, View.statfs, view_super, view_bitmap, ne_eq,
    not_true, if_false]

/-- `fs_getattr` on the tree. -/
theorem fsGetattr_eq (p : AbsPath) : fsGetattr u p.str d = (view d).getattr p.comps := by
  simp only [fsGetattr, path2inum_abs hT, View.getattr, view_nodes, inum_view]
  cases hr : resolve d p.comps with
  | none =>
    have hneg := walkInum_none hr
    simp only [liveNode_none hr, hneg, if_true]
  | some i =>
    obtain ⟨-, h1, hi⟩ := hT.inode_range hr
    have hx : Inode.ofBlock (d.blk i) = inodeAt d i := rfl
    simp only [walkInum_some hT hr, liveNode_some hr, blockRead_of_lt d _ h1 hi, hx, inode2stat_eq,
      Int.toNat_natCast, show ¬ ((i : ℤ) < 0) by omega, if_false, ne_eq, not_true]

/-- The loop of `fs_readdir` over the last `fuel` entries of the directory at `p`. -/
theorem readdirLoop_eq {p : Path} {i : ℕ} (hp : resolve d p = some i)
    (hdir : (inodeAt d i).isDir = true) : ∀ (fuel s : ℕ) (childIn : Block), s + fuel = 128 →
    readdirLoop d (dirBlock d i) fuel s childIn =
      .ok ((List.range' s fuel).filterMap fun k => (slot (dirBlock d i) k).bind fun e =>
        (liveNode d (p ++ [e.2])).map fun c => (e.2, c.stat)) := by
  intro fuel
  -- Induction on the entries left.
  induction fuel with
  | zero =>
    intro s childIn hs
    rw [readdirLoop, if_pos (by omega)]
    rfl
  | succ fuel ih =>
    intro s childIn hs
    rw [readdirLoop, if_neg (by omega), List.range'_succ, List.filterMap_cons]
    cases he : slot (dirBlock d i) s with
    | none =>
      simp only [slot_eq_none.mp he, Bool.false_eq_true, if_false, Option.bind_none]
      exact ih (s + 1) childIn (by omega)
    | some e =>
      obtain ⟨hvalid, hinode, hname⟩ := slot_eq_some.mp he
      have hchild := hT.resolve_of_slot hp hdir he
      obtain ⟨-, h1, hi⟩ := hT.inode_range hchild
      have hx : Inode.ofBlock (d.blk e.1) = inodeAt d e.1 := rfl
      simp only [hvalid, if_true, hinode, hname, blockRead_of_lt d _ h1 hi, ne_eq,
        not_true, if_false, ih (s + 1) _ (show s + 1 + fuel = 128 by omega), ok_bind,
          Option.bind_some,
        liveNode_some hchild, Option.map_some, hx, inode2stat_eq]

/-- `fs_readdir` on the tree; the loop ends after the 128 entries. -/
theorem fsReaddir_eq (p : AbsPath) : fsReaddir u 128 p.str d = .ok ((view d).readdir p.comps) := by
  simp only [fsReaddir, path2inum_abs hT, View.readdir, view_nodes, inum_view]
  cases hr : resolve d p.comps with
  | none =>
    have hneg := walkInum_none hr
    simp only [liveNode_none hr, hneg.le, if_true]
  | some i =>
    obtain ⟨h2, h1, hi⟩ := hT.inode_range hr
    have hx : Inode.ofBlock (d.blk i) = inodeAt d i := rfl
    simp only [walkInum_some hT hr, liveNode_some hr, blockRead_of_lt d _ h1 hi, hx, nodeView_isDir,
      show ¬ ((i : ℤ) ≤ 0) by omega, if_false, ne_eq, not_true]
    cases hdir : (inodeAt d i).isDir with
    | false => simp only [Bool.not_false, if_true, Bool.false_eq_true, if_false]
    | true =>
      obtain ⟨-, hD1, hD⟩ := hT.dirData_range hr hdir
      have hblk : d.blk ((inodeAt d i).ptr 0) = dirBlock d i := rfl
      simp only [Bool.not_true, Bool.false_eq_true, if_false, if_true, hT.lbaOf_dir hr hdir,
        blockRead_of_lt d _ hD1 hD, not_true, hblk, readdirLoop_eq hT hr hdir 128 0 _ rfl, ok_bind,
        nodeView_slots hdir, List.range_eq_range']

/-- `fs_read` on the tree. A read of something from an offset in front of a file is left out. -/
theorem fsRead_eq (p : NormPath) (len : ℕ) (offset : Int64)
    (hoff : 0 ≤ offset.toInt ∨ len = 0 ∨
      ∀ i, resolve d p.comps = some i → (inodeAt d i).isDir = true) :
    fsRead u p.str len offset d = .ok ((view d).read p.comps len offset.toInt.toNat) := by
  simp only [fsRead, path2inum_str hT, View.read, view_nodes, inum_view]
  cases hr : resolve d p.comps with
  | none =>
    have hneg := walkInum_none hr
    simp only [liveNode_none hr, hneg, if_true]
  | some i =>
    obtain ⟨-, h1, hi⟩ := hT.inode_range hr
    have hx : Inode.ofBlock (d.blk i) = inodeAt d i := rfl
    simp only [walkInum_some hT hr, liveNode_some hr, blockRead_of_lt d _ h1 hi, hx, nodeView_isDir,
      show ¬ ((i : ℤ) < 0) by omega, if_false, ne_eq, not_true]
    cases hdir : (inodeAt d i).isDir with
    | true => simp only [if_true]
    | false =>
      obtain ⟨hs0, hs⟩ := hT.file_size hr hdir
      obtain ⟨size, hsize⟩ := Int.eq_ofNat_of_zero_le hs0
      have hlen : (contents d (inodeAt d i)).length = size := by
        rw [length_contents, hsize, Int.toNat_natCast]
      rw [nodeView_bytes hdir]
      simp only [Bool.false_eq_true, if_false]
      by_cases hend : size ≤ offset.toInt
      · rw [if_pos (by omega), List.drop_eq_nil_of_le (by omega)]
        simp
      rw [if_neg (by omega)]
      by_cases hzero : len = 0
      · rw [hzero, readLoop, if_neg (by simp)]
        simp
      · have hnat : 0 ≤ offset.toInt := by
          rcases hoff with h | h | h
          · exact h
          · exact absurd h hzero
          · rw [h i hr] at hdir
            cases hdir
        obtain ⟨off, hoff⟩ := Int.eq_ofNat_of_zero_le hnat
        rw [hoff, Int.toNat_natCast]
        -- The block and the offset in it that the loop starts from.
        have hblock : (Int.tdiv off 4096).bmod (2^32) = (off / 4096 : ℕ) := by
          rw [Int.tdiv_eq_ediv_of_nonneg (by omega)]
          exact Int.bmod_eq_of_le (by omega) (by omega)
        have hoffset : Int.tmod off 4096 = (off % 4096 : ℕ) := by
          rw [Int.tmod_eq_emod_of_nonneg (by omega)]
          omega
        obtain ⟨stop, hstop⟩ : ∃ stop, stop ≤ len ∧ stop ≤ size - off ∧
            (stop = len ∨ stop = size - off) := ⟨min len (size - off), by omega⟩
        have hloop := readLoop_spec hT hr hdir hsize hstop stop 0 (off / 4096 : ℕ) (off % 4096 : ℕ)
          (u .data) [] (by omega) (fun _ => ⟨rfl, rfl⟩)
        have htake : ((contents d (inodeAt d i)).drop off).take len =
            ((contents d (inodeAt d i)).drop off).take stop := by
          rw [List.take_eq_take_iff, List.length_drop]
          omega
        rw [hblock, hoffset, htake]
        rw [Nat.cast_zero, Nat.add_zero, List.nil_append] at hloop
        rw [hloop, List.length_take, List.length_drop, hlen, min_eq_left hstop.2.1]

end

end Cs5600.Lab4
