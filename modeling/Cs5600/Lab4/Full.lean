import Cs5600.Lab4.Namespace

/-!
# Running out of blocks in a write

`fs_write` stores what `alloc_blk` returns in an unsigned pointer of the inode and then asks whether
it is negative. So -ENOSPC is not noticed, and the write to block -28 runs into the assertion of
`block_write`. A disk that is nearly full is reached from the image of `disk2.in` with large files.
-/

namespace Cs5600.Lab4

/-! ## How many blocks there are -/

/-- Every block that is allocated is one less to allocate. -/
theorem card_clearBits_allocN (n : ℕ) : ∀ {map map' : Block} {bs : List ℕ},
    allocN n map = some (bs, map') → (clearBits map' 32768).card + n =
      (clearBits map 32768).card := by
  induction n with
  | zero =>
    intro map map' bs h
    obtain ⟨-, rfl⟩ := Prod.mk.inj (Option.some.inj h)
    rfl
  | succ n ih =>
    intro map map' bs h
    obtain ⟨b, hb, h⟩ := Option.bind_eq_some_iff.mp h
    obtain ⟨⟨bs', map''⟩, hrec, h⟩ := Option.bind_eq_some_iff.mp h
    obtain ⟨-, rfl⟩ := Prod.mk.inj (Option.some.inj h)
    obtain ⟨hclear, h3, hlt, -⟩ := firstClear_eq_some.mp hb
    have hmem : b ∈ clearBits map 32768 := mem_clearBits.mpr ⟨⟨h3, hlt⟩, hclear⟩
    have hpos := Finset.card_pos.mpr ⟨b, hmem⟩
    have hcard := ih hrec
    rw [clearBits_bitSet hlt, Finset.card_erase_of_mem hmem] at hcard
    omega

/-- The allocator runs dry exactly when it is asked for more blocks than there are clear bits. -/
theorem allocN_eq_none {n : ℕ} {map : Block} :
    allocN n map = none ↔ (clearBits map 32768).card < n := by
  constructor
  · intro h
    by_contra hle
    obtain ⟨a, ha, -⟩ := allocN_of_le le_rfl n map (not_lt.mp hle)
    rw [h] at ha
    cases ha
  · intro h
    cases ha : allocN n map with
    | none => rfl
    | some a =>
      have := card_clearBits_allocN n ha
      omega

/-! ## A write that needs too many blocks -/

section

variable {d : Disk} {p : NormPath} {i : ℕ}

/-- `fs_write` returns -ENOSPC, with the bitmap and the files as before. -/
def RefusesWrite (ctx : Ctx) (u : Stack) (p : NormPath) (buf : Buf) (offset : Int64)
    (d : Disk) : Prop :=
  ∃ d', fsWrite ctx u p.str buf offset d = .ok (-ENOSPC, d') ∧
    (∀ i < 32768, bit (d'.blk 1) i = bit (d.blk 1) i) ∧
    ∀ q n, liveNode d q = some n → n.isDir = false → ∃ n', liveNode d' q = some n' ∧
      n'.size = n.size ∧ n'.ptrs = n.ptrs ∧ n'.bytes = n.bytes

/-- A write to a regular file that needs more blocks than the bitmap has clear bits aborts in
`block_write`. With a negative offset it leaves an array before. -/
theorem fsWrite_error (hW : WellFormed d) (ctx : Ctx) (u : Stack) (hp : resolve d p.comps = some i)
    (hfile : (inodeAt d i).isDir = false) (buf : Buf) (offset : Int64)
    (hoff : offset.toInt ≤ (inodeAt d i).size.toInt)
    (hend : offset.toInt + buf.bytes.length ≤ 1019 * 4096)
    (hfull : (clearBits (d.blk 1) 32768).card <
      View.blocksNeeded (contents d (inodeAt d i)).length (offset.toInt + buf.bytes.length).toNat) :
    fsWrite ctx u p.str buf offset d =
      .error (if offset.toInt < 0 then .outOfRange else .assertion) := by
  have hs := hW.toTree.file_size hp hfile
  have hlen := length_contents d (inodeAt d i)
  have hdir : (nodeView d i).isDir = false := by rw [nodeView_isDir, hfile]
  -- A file is not shorter than nothing, so the data ends behind its end.
  have hpos : 0 < offset.toInt + buf.bytes.length := by
    by_contra hneg
    rw [show (offset.toInt + buf.bytes.length).toNat = 0 by omega, View.blocksNeeded] at hfull
    omega
  have hspec : (view d).write ctx p.comps buf offset.toInt =
      .error (if offset.toInt < 0 then .outOfRange else .assertion) := by
    have hbig : ¬ ((contents d (inodeAt d i)).length : ℤ) < offset.toInt := by omega
    have hspace : ¬ 4096 * 1019 < sizeT (offset.toInt + buf.bytes.length) := by
      rw [sizeT]
      omega
    rw [View.write, view_nodes, liveNode_some hp]
    simp only [hdir, Bool.false_eq_true, if_false, nodeView_bytes hfile, hbig, hspace, view_bitmap]
    split_ifs with hneg
    · rfl
    · rw [show offset.toInt.toNat + buf.bytes.length =
        (offset.toInt + buf.bytes.length).toNat by omega,
        allocN_eq_none.mpr hfull]
  have href := fsWrite_refines hW ctx u p buf offset
  rw [hspec] at href
  cases hrun : fsWrite ctx u p.str buf offset d with
  | ok r =>
    rw [hrun] at href
    exact href.elim
  | error e =>
    rw [hrun] at href
    exact congrArg _ href

/-- A write that needs more blocks than there are never returns, so it is not refused. -/
theorem not_refusesWrite (hW : WellFormed d) (ctx : Ctx) (u : Stack)
    (hp : resolve d p.comps = some i) (hfile : (inodeAt d i).isDir = false) (buf : Buf)
    (offset : Int64) (hoff : offset.toInt ≤ (inodeAt d i).size.toInt)
    (hend : offset.toInt + buf.bytes.length ≤ 1019 * 4096)
    (hfull : (clearBits (d.blk 1) 32768).card <
      View.blocksNeeded (contents d (inodeAt d i)).length (offset.toInt + buf.bytes.length).toNat) :
    ¬ RefusesWrite ctx u p buf offset d ∧
      (0 ≤ offset.toInt → fsWrite ctx u p.str buf offset d = .error .assertion) := by
  have hrun := fsWrite_error hW ctx u hp hfile buf offset hoff hend hfull
  constructor
  · rintro ⟨d', hok, -⟩
    rw [hrun] at hok
    cases hok
  · intro h0
    rw [hrun, if_neg (not_lt.mpr h0)]

end

/-! ## A disk that is nearly full -/

/-- The name of one letter, from `A` on. -/
def letter (j : ℕ) : CString := [UInt8.ofNat (65 + j)]

/-- A letter is a name. -/
theorem letter_isName {j : ℕ} (hj : j < 64) : IsName (letter j) := by
  have htoNat : (UInt8.ofNat (65 + j)).toNat = 65 + j := by
    rw [UInt8.toNat_ofNat']
    omega
  refine ⟨by simp [letter], fun h => ?_, fun h => ?_⟩
  · have heq : 0 = _ := congrArg UInt8.toNat (List.mem_singleton.mp h)
    omega
  · have heq : 47 = _ := congrArg UInt8.toNat (List.mem_singleton.mp h)
    omega

/-- Different letters are different names. -/
theorem letter_inj {j k : ℕ} (hj : j < 64) (hk : k < 64) (h : letter j = letter k) : j = k := by
  have heq := congrArg UInt8.toNat (List.singleton_inj.mp h)
  rw [UInt8.toNat_ofNat', UInt8.toNat_ofNat'] at heq
  omega

/-- The empty path has no component that is not a name. -/
theorem nil_isName : ∀ n ∈ ([] : Path), IsName n := by simp

/-- The empty path is short enough. -/
theorem nil_length_lt : ([] : Path).length < 10 := by simp

/-- The file of that name in the root directory. -/
def letterPath (j : Fin 64) : NormPath where
  parent := []
  name := letter j
  parent_isName := nil_isName
  name_isName := letter_isName j.2
  parent_lt := nil_length_lt

/-- A view with `j` files of 1019 blocks in the root directory, named by letters. -/
structure Filled (j : ℕ) (v : View) : Prop where
  root : ∃ par slots, v.dirAt [] = .ok (par, slots) ∧ ∀ s < 128, (slots s).isSome = decide (s < j)
  absent : ∀ k, j ≤ k → k < 64 → v.nodes [letter k] = none
  free : (clearBits v.bitmap 32768).card + 1020 * j = 32764

/-- The first free slot is behind those that are taken from the start on. -/
theorem freeSlot_of_lt {slots : Slots} {j : ℕ} (hj : j < 128)
    (h : ∀ s < 128, (slots s).isSome = decide (s < j)) : freeSlot slots = some j := by
  rw [freeSlot, List.find?_range_eq_some]
  refine ⟨?_, List.mem_range.mpr hj, fun k hk => ?_⟩
  · have := h j hj
    simpa using this
  · have := h k (by omega)
    simpa [hk] using this

/-- A file is created in the next entry. -/
theorem Filled.create {j : ℕ} {v : View} (h : Filled j v) (hj : j < 64) (h32 : j ≤ 32) (ctx : Ctx)
    (mode : UInt32) : ∃ f v', v.create ctx (letterPath ⟨j, hj⟩) mode = done 0 [f] v' ∧
      (∃ par slots, v'.dirAt [] = .ok (par, slots) ∧
        ∀ s < 128, (slots s).isSome = decide (s < j + 1)) ∧
      (∀ k, j + 1 ≤ k → k < 64 → v'.nodes [letter k] = none) ∧
      (clearBits v'.bitmap 32768).card + 1020 * j + 1 = 32764 ∧
      ∃ n, v'.nodes [letter j] = some n ∧ n.isDir = false ∧ n.bytes = [] := by
  obtain ⟨par, slots, hroot, hslots⟩ := h.root
  have hfree := h.free
  obtain ⟨f, hf, hmem⟩ := firstClear_of_pos le_rfl
    (show 0 < (clearBits v.bitmap 32768).card by omega)
  have hlt := (mem_clearBits.mp hmem).1.2
  obtain ⟨child, hcreate, hdir, hbytes⟩ : ∃ child : LiveNode,
      v.create ctx (letterPath ⟨j, hj⟩) mode = done 0 [f]
        { v with
          bitmap := bitSet v.bitmap f
          nodes := v.setEntry [] par slots j (letter j) par.mtime (some child) } ∧
      child.isDir = false ∧ child.bytes = [] := by
    refine ⟨{ inum := f, uid := ctx.uid.toUInt16, gid := ctx.gid.toUInt16
              mode := newMode mode S_IFREG, ctime := ctx.now, mtime := ctx.now
              size := 0, ptrs := [], body := .file [] }, ?_, rfl, rfl⟩
    -- None of the checks fails: the name is new and short, and there is a free entry and block.
    rw [View.create]
    simp only [NormPath.comps, letterPath, List.nil_append, h.absent j le_rfl hj, hroot,
      freeSlot_of_lt (by omega) hslots, hf, render_nil, List.length_nil, Option.isSome_none,
      Bool.false_eq_true, if_false]
    rw [if_neg (by omega), if_neg (by simp [letter])]
  refine ⟨f, _, hcreate, ?_, ?_, ?_, child, Function.update_self .., hdir, hbytes⟩
  · refine ⟨{ par with body := .dir (Function.update slots j (some (child.inum, letter j))) },
      Function.update slots j (some (child.inum, letter j)), ?_, fun s hs => ?_⟩
    · simp only [View.dirAt, View.setEntry, List.nil_append]
      rw [Function.update_of_ne (by simp), Function.update_self]
      rfl
    · by_cases hsj : s = j
      · rw [hsj, Function.update_self]
        simp
      · rw [Function.update_of_ne hsj, hslots s hs, Bool.eq_iff_iff]
        simp only [decide_eq_true_eq]
        omega
  · intro k hk hk64
    simp only [View.setEntry, List.nil_append]
    rw [Function.update_of_ne, Function.update_of_ne (by simp), h.absent k (by omega) hk64]
    intro heq
    have := letter_inj hk64 hj (List.singleton_inj.mp heq)
    omega
  · dsimp only
    rw [clearBits_bitSet hlt, Finset.card_erase_of_mem hmem]
    have := Finset.card_pos.mpr ⟨f, hmem⟩
    omega

/-- A write to a file that is empty and has no blocks. -/
theorem View.write_empty {v : View} {p : Path} {n : LiveNode} (hn : v.nodes p = some n)
    (hdir : n.isDir = false) (hbytes : n.bytes = []) (ctx : Ctx) {buf : Buf} {m : ℕ} (hm : m ≤ 1019)
    (hlen : buf.bytes.length = 4096 * m) {bs : List ℕ} {bitmap : Block}
    (halloc : allocN m v.bitmap = some (bs, bitmap)) :
    ∃ n', v.write ctx p buf 0 = done (4096 * m : ℕ) bs.reverse
      { v with bitmap := bitmap, nodes := Function.update v.nodes p (some n') } := by
  have hneeded : View.blocksNeeded 0 (0 + 4096 * m) = m := by
    rw [View.blocksNeeded]
    omega
  have hspace : ¬ 4096 * 1019 < sizeT (0 + (4096 * m : ℕ)) := by
    rw [sizeT]
    omega
  rw [View.write, hn]
  simp only [hdir, Bool.false_eq_true, if_false, hbytes, List.length_nil, hlen,
    Int.toNat_zero, hneeded, halloc, hspace, Nat.cast_zero, lt_irrefl]
  exact ⟨_, rfl⟩

/-- 1019 blocks of zeros. -/
def fillBuf : Buf := ⟨List.replicate (4096 * 1019) 0, by rw [List.length_replicate]; norm_num⟩

/-- The file at a path other than the root directory does not change what the root directory
holds. -/
theorem dirAt_nil_update {v : View} {n : LiveNode} {bitmap : Block} (name : CString) :
    View.dirAt { v with bitmap := bitmap, nodes := Function.update v.nodes [name] (some n) } [] =
      v.dirAt [] := by
  have hnil : Function.update v.nodes [name] (some n) [] = v.nodes [] :=
    Function.update_of_ne (by simp) _ _
  simp only [View.dirAt, hnil]

/-- An operation whose outcome is a new view succeeds on the disk. -/
theorem Refines.of_done {d : Disk} {x : Except Fault (ℤ × Disk)} {rc : ℤ} {handed : List ℕ}
    {v : View} (h : Refines d x (done rc handed v)) : ∃ d', x = .ok (rc, d') ∧ WellFormed d' ∧
    view d' = v := by
  cases x with
  | error e => exact h.elim
  | ok r =>
    have hrc : r.1 = rc := Outcome.Holds.rc h
    obtain ⟨hW, hv⟩ := Outcome.Holds.changed h v rfl
    exact ⟨r.2, by rw [← hrc], hW, hv⟩

/-- Create the files named by the first `j` letters and write 1019 blocks to each. -/
def fillSteps (j : ℕ) : List Step :=
  (List.range j).flatMap fun k =>
    [⟨someCtx, zeroStack, .create (render [letter k]) 0o644⟩,
      ⟨someCtx, zeroStack, .write (render [letter k]) fillBuf 0⟩]

/-- The bitmap of `disk2.in` has room for 32764 blocks. -/
theorem card_clearBits_disk2 : (clearBits (disk2.blk 1) 32768).card = 32764 := by
  have heq : clearBits (disk2.blk 1) 32768 = (Finset.Ico 3 32768).erase 399 := by
    ext i
    rw [mem_clearBits, Finset.mem_erase, Finset.mem_Ico, ← Bool.not_eq_true,
      show disk2.blk 1 = genBitmap 399 from rfl, bit_genBitmap (by norm_num)]
    omega
  rw [heq, Finset.card_erase_of_mem (by rw [Finset.mem_Ico]; omega), Nat.card_Ico]

/-- Up to 32 such files fit on the image of `disk2.in`. -/
theorem runAll_fillSteps (j : ℕ) (hj : j ≤ 32) :
    ∃ d, runAll (fillSteps j) disk2 = .ok d ∧ WellFormed d ∧ Filled j (view d) := by
  induction j with
  | zero =>
    refine ⟨disk2, rfl, disk2_wellFormed,
      ⟨_, _, dirAt_dir (i := 2) rfl genDisk_isDir, fun s _ => ?_⟩,
        fun k _ _ => liveNode_none (disk2_resolve (letter k) []), ?_⟩
    · rw [show dirBlock disk2 2 = Bytes.zero from
        genDisk_dirBlock (by norm_num) (by norm_num) (by norm_num), slot_zero]
      simp
    · rw [Nat.mul_zero, Nat.add_zero]
      exact card_clearBits_disk2
  | succ j ih =>
    obtain ⟨d, hrun, hW, hfilled⟩ := ih (by omega)
    have hj64 : j < 64 := by omega
    obtain ⟨f, v₁, hcreate, hroot, habsent, hfree, n, hn, hdir, hbytes⟩ :=
      hfilled.create hj64 (by omega) someCtx 0o644
    -- The next file is created, and then written to the limit of 1019 blocks.
    have hcreated := fsCreate_refines hW someCtx zeroStack (letterPath ⟨j, hj64⟩) 0o644
    rw [hcreate] at hcreated
    obtain ⟨d₁, hrun₁, hW₁, hv₁⟩ := hcreated.of_done
    have hlen : fillBuf.bytes.length = 4096 * 1019 := List.length_replicate
    obtain ⟨⟨bs, bitmap⟩, halloc, -⟩ := allocN_of_le le_rfl 1019 v₁.bitmap (by omega)
    obtain ⟨n', hwrite⟩ := View.write_empty hn hdir hbytes someCtx le_rfl hlen halloc
    have hwritten := fsWrite_refines hW₁ someCtx zeroStack (letterPath ⟨j, hj64⟩) fillBuf 0
    rw [hv₁] at hwritten
    change Refines d₁ _ (v₁.write someCtx [letter j] fillBuf 0) at hwritten
    rw [hwrite] at hwritten
    obtain ⟨d₂, hrun₂, hW₂, hv₂⟩ := hwritten.of_done
    refine ⟨d₂, ?_, hW₂, ?_⟩
    · rw [fillSteps, List.range_succ, List.flatMap_append, ← fillSteps, runAll_append hrun]
      have hcall : fsCreate someCtx zeroStack (render [letter j]) 0o644 d = .ok (0, d₁) := hrun₁
      have hcall' : fsWrite someCtx zeroStack (render [letter j]) fillBuf 0 d₁ =
          .ok ((4096 * 1019 : ℕ), d₂) := hrun₂
      simp only [List.flatMap_singleton, runAll, Call.run, hcall, hcall', noOutput, ok_bind]
    · rw [hv₂]
      refine ⟨?_, ?_, ?_⟩
      · rw [dirAt_nil_update]
        exact hroot
      · intro k hk hk64
        refine (Function.update_of_ne ?_ _ _).trans (habsent k hk hk64)
        intro heq
        have := letter_inj hk64 (by omega) (List.singleton_inj.mp heq)
        omega
      · rw [← card_clearBits_allocN 1019 halloc] at hfree
        show (clearBits bitmap 32768).card + 1020 * (j + 1) = 32764
        omega

/-- The name `a`, the letter behind the first 32. -/
def lastPath : NormPath := letterPath ⟨32, by norm_num⟩

/-- With 32 large files and an empty one there are 123 blocks left. -/
theorem exists_nearlyFull : ∃ d i,
    runAll (fillSteps 32 ++ [⟨someCtx, zeroStack, .create lastPath.str 0o644⟩]) disk2 = .ok d ∧
    WellFormed d ∧ resolve d lastPath.comps = some i ∧ (inodeAt d i).isDir = false ∧
    contents d (inodeAt d i) = [] ∧ (clearBits (d.blk 1) 32768).card = 123 := by
  obtain ⟨d, hrun, hW, hfilled⟩ := runAll_fillSteps 32 le_rfl
  obtain ⟨f, v, hcreate, -, -, hfree, n, hn, hdir, hbytes⟩ :=
    hfilled.create (by norm_num) le_rfl someCtx 0o644
  have hcreated := fsCreate_refines hW someCtx zeroStack lastPath 0o644
  rw [lastPath, hcreate] at hcreated
  obtain ⟨d', hrun', hW', rfl⟩ := hcreated.of_done
  obtain ⟨i, hi, rfl⟩ := Option.map_eq_some_iff.mp hn
  rw [nodeView_isDir] at hdir
  rw [nodeView_bytes hdir] at hbytes
  refine ⟨d', i, ?_, hW', hi, hdir, hbytes, ?_⟩
  · rw [runAll_append hrun]
    simp only [runAll, Call.run, lastPath, hrun', noOutput, ok_bind]
  · have hview : (view d').bitmap = d'.blk 1 := rfl
    rw [hview] at hfree
    omega

/-- 124 blocks of zeros. -/
def lastBuf : Buf := ⟨List.replicate (4096 * 124) 0, by rw [List.length_replicate]; norm_num⟩

/-- The buffer needs 124 blocks. -/
theorem lastBuf_blocksNeeded :
    View.blocksNeeded 0 ((0 : Int64).toInt + lastBuf.bytes.length).toNat = 124 := by
  have hlen : lastBuf.bytes.length = 4096 * 124 := List.length_replicate
  rw [hlen]
  rfl

/-- Writing 124 blocks to the empty file. -/
theorem not_refusesWrite_nearlyFull : ∃ d, WellFormed d ∧
    ¬ RefusesWrite someCtx zeroStack lastPath lastBuf 0 d ∧
    fsWrite someCtx zeroStack lastPath.str lastBuf 0 d = .error .assertion := by
  obtain ⟨d, i, -, hW, hi, hfile, hnil, hfree⟩ := exists_nearlyFull
  have hlen : lastBuf.bytes.length = 4096 * 124 := List.length_replicate
  obtain ⟨hnot, hrun⟩ := not_refusesWrite hW someCtx zeroStack hi hfile lastBuf 0
    (hW.toTree.file_size hi hfile).1 (by rw [hlen]; decide)
    (by rw [hnil, List.length_nil, lastBuf_blocksNeeded, hfree]; norm_num)
  exact ⟨d, hW, hnot, hrun le_rfl⟩

/-- The write of 124 blocks to `/a`, with 32 files of 1019 blocks on the disk, aborts. -/
theorem fsWrite_nearlyFull : ∃ d i,
    runAll (fillSteps 32 ++ [⟨someCtx, zeroStack, .create lastPath.str 0o644⟩]) disk2 = .ok d ∧
    WellFormed d ∧ resolve d lastPath.comps = some i ∧ (inodeAt d i).isDir = false ∧
    (inodeAt d i).size.toInt = 0 ∧ lastBuf.bytes.length ≤ 1019 * 4096 ∧
    (clearBits (d.blk 1) 32768).card = 123 ∧ View.blocksNeeded 0 lastBuf.bytes.length = 124 ∧
    ¬ RefusesWrite someCtx zeroStack lastPath lastBuf 0 d := by
  obtain ⟨d, i, hsteps, hW, hi, hfile, hnil, hfree⟩ := exists_nearlyFull
  have hlen : lastBuf.bytes.length = 4096 * 124 := List.length_replicate
  have hs := (hW.toTree.file_size hi hfile).1
  have hsize := length_contents d (inodeAt d i)
  rw [hnil, List.length_nil] at hsize
  have hrun := fsWrite_error hW someCtx zeroStack hi hfile lastBuf 0 hs (by rw [hlen]; decide)
    (by rw [hnil, List.length_nil, lastBuf_blocksNeeded, hfree]; norm_num)
  refine ⟨d, i, hsteps, hW, hi,
    hfile, by omega, by rw [hlen]; norm_num, hfree, by rw [hlen]; rfl, ?_⟩
  rintro ⟨d', hok, -⟩
  rw [hrun] at hok
  cases hok

end Cs5600.Lab4
