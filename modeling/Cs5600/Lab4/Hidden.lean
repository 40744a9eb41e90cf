import Cs5600.Lab4.InBounds

/-!
# Dead data

Inodes are written with pointers that were never assigned, freed blocks are not wiped, and a new
data block is filled over what was in it. Two disks with the same view may differ in all of that,
and a request behaves the same on both, whatever the uninitialised locals hold, unless it leaves the
bounds of an array: `par_path` overruns its buffer when the part of the path in front of the last
component has more than 298 bytes, and a negative offset makes `fs_read` and `fs_write` index
outside the inode's pointers or the block buffer. `Request.Safe` excludes exactly these requests.
-/

namespace Cs5600.Lab4

/-- Two well-formed disks that agree on everything live. -/
structure Equivalent (d d' : Disk) : Prop where
  left : WellFormed d
  right : WellFormed d'
  view : view d = view d'

/-- Two runs end in the same way: both stop at the assertion of `block_write`, or both return the
same value and output and leave equivalent disks. -/
def SameEnd : Except Fault (ℤ × Output × Disk) → Except Fault (ℤ × Output × Disk) → Prop
  | .error .assertion, .error .assertion => True
  | .ok (rc, out, d), .ok (rc', out', d') => rc = rc' ∧ out = out' ∧ Equivalent d d'
  | _, _ => False

/-- A request ends in the same way on equivalent disks, for all contents of the uninitialised
locals. -/
def Request.Oblivious (r : Request) : Prop :=
  ∀ d d', Equivalent d d' → r.Admits d → ∀ ctx u u',
    SameEnd (r.call.run ctx u d) (r.call.run ctx u' d')

/-- A request that stays inside the arrays of the code. A path with a component of more than 27
bytes does not lead to a file, and `fs_write` refuses a window that ends in front of the file or
behind the size limit. -/
def Request.Safe : Request → Prop
  | .create p _ | .mkdir p _ | .unlink p | .rmdir p => (render p.parent).length ≤ 298
  | .read p len offset => 0 ≤ offset.toInt ∨ len = 0 ∨ ∃ n ∈ p.comps, 27 < n.length
  | .write p buf offset => 0 ≤ offset.toInt ∨ offset.toInt + buf.bytes.length < 0 ∨
      1019 * 4096 < offset.toInt + buf.bytes.length ∨ ∃ n ∈ p.comps, 27 < n.length
  | _ => True

/-! ## Safe requests -/

/-- A safe request stays inside the arrays of the code on every disk. -/
theorem Request.Safe.inBounds {r : Request} (hsafe : r.Safe) {d : Disk} (hT : Tree d) :
    r.InBounds d := by
  cases r with
  | create p mode => exact hsafe
  | mkdir p mode => exact hsafe
  | unlink p => exact hsafe
  | rmdir p => exact hsafe
  | write p buf offset =>
    refine Or.imp_right (Or.imp_right (Or.imp_right ?_)) hsafe
    rintro ⟨m, hm, hlong⟩ n hn
    rw [liveNode_of_long hT hm hlong] at hn
    cases hn
  | _ => trivial

/-- A safe request is oblivious of dead data. -/
theorem Request.Safe.oblivious {r : Request} (hsafe : r.Safe) (hrange : r.InRange) :
    r.Oblivious := by
  intro d d' heq hadmits ctx u u'
  have ha := Request.run_answers heq.left ctx u hrange
  have ha' := Request.run_answers heq.right ctx u' hrange
  rw [← heq.view] at ha'
  cases hexec : (view d).exec ctx r with
  | error e =>
    obtain ⟨rfl, -⟩ := exec_error heq.left (hsafe.inBounds heq.left.toTree) hadmits hrange hexec
    rw [hexec] at ha ha'
    rw [ha.eq_error, ha'.eq_error]
    trivial
  | ok o =>
    rw [hexec] at ha ha'
    obtain ⟨r₁, hr₁, hholds, hout⟩ := ha.eq_ok
    obtain ⟨r₂, hr₂, hholds', hout'⟩ := ha'.eq_ok
    rw [hr₁, hr₂]
    refine ⟨by rw [hholds.rc, hholds'.rc], by rw [hout, hout'], hholds.wellFormed heq.left,
      hholds'.wellFormed heq.right, ?_⟩
    rw [hholds.view_eq, hholds'.view_eq, heq.view]

/-! ## A file at every path -/

/-- Every block from `m` on is free. -/
def FreeFrom (m : ℕ) (d : Disk) : Prop := ∀ b, m ≤ b → b < 32768 → bit (d.blk 1) b = false

/-- The allocator hands out a block below those that are known to be free, or the first of them. -/
theorem firstClear_freeFrom {map : Block} {m : ℕ} (h3 : 3 ≤ m) (hm : m < 32768)
    (h : ∀ b, m ≤ b → b < 32768 → bit map b = false) : ∃ f, firstClear map = some f ∧
      ∀ b, m + 1 ≤ b → b < 32768 → bit (bitSet map f) b = false := by
  obtain ⟨f, hf⟩ := Option.isSome_iff_exists.mp
    (firstClear_isSome.mpr ⟨m, h3, hm, h m le_rfl hm⟩)
  obtain ⟨-, -, hlt, hleast⟩ := firstClear_eq_some.mp hf
  refine ⟨f, hf, ?_⟩
  intro b hb hb'
  have hne : b ≠ f := by
    rintro rfl
    have := hleast m h3 (by omega)
    rw [h m le_rfl hm] at this
    cases this
  rw [bit_bitSet _ hlt, h b (by omega) hb', decide_eq_false hne]
  rfl

/-- A directory without entries at a path, with blocks to spare. -/
structure EmptyDir (d : Disk) (q : Path) (m : ℕ) : Prop where
  wellFormed : WellFormed d
  free : FreeFrom m d
  node : ∃ n, liveNode d q = some n ∧ n.isDir = true ∧ ∀ s, n.slots s = none

/-- Every name can be created in an empty directory. -/
theorem EmptyDir.creatable {d : Disk} {p : NormPath} {m : ℕ} (h : EmptyDir d p.parent m)
    (hlen : p.name.length ≤ 27) : Creatable d p := by
  obtain ⟨n, hn, hdir, hslots⟩ := h.node
  obtain ⟨i, hi, rfl⟩ := Option.map_eq_some_iff.mp hn
  rw [nodeView_isDir] at hdir
  rw [nodeView_slots hdir] at hslots
  refine ⟨?_, ⟨i, hi, hdir, ?_⟩, hlen⟩
  · rw [NormPath.comps, resolve_concat, hi, Option.bind_some]
    exact h.wellFormed.entry_of_empty hi hdir hslots p.name
  · have hzero : validEntries (dirBlock d i) = 0 := by
      rw [validEntries, List.countP_eq_zero]
      intro s _
      simp [slot_eq_none.mp (hslots s)]
    omega

/-- `fs_mkdir` in an empty directory makes another one. -/
theorem EmptyDir.mkdir {d : Disk} {p : NormPath} {m : ℕ} (h : EmptyDir d p.parent m)
    (hlen : p.name.length ≤ 27) (h3 : 3 ≤ m) (hm : m + 2 ≤ 32768) :
    ∃ d', EmptyDir d' p.comps (m + 2) := by
  have hW := h.wellFormed
  -- Two free blocks in a row, for the inode and for the directory's data.
  obtain ⟨f, hf, hfree⟩ := firstClear_freeFrom h3 (by omega) h.free
  obtain ⟨b, hb, hfree'⟩ := firstClear_freeFrom (by omega) (by omega) hfree
  obtain ⟨hnone, -, par, slots, hdir, hslot⟩ := creatable_iff.mp (h.creatable hlen)
  obtain ⟨k, hk⟩ := Option.isSome_iff_exists.mp hslot
  obtain ⟨P, hP, -⟩ := dirAt_eq_ok.mp hdir
  have hfit := hW.render_parent_le p hP
  have href := fsMkdir_refines hW someCtx zeroStack p 0
  -- With them the outcome of the refinement is a directory that is new and empty.
  rw [View.mkdir, hnone, if_neg (by simp), if_neg (by omega), if_neg (by omega), hdir] at href
  simp only [hk, view_bitmap, hf, hb] at href
  cases hrun : fsMkdir someCtx zeroStack p.str 0 d with
  | error e =>
    rw [hrun] at href
    exact href.elim
  | ok r =>
    rw [hrun] at href
    obtain ⟨hW', hv⟩ := Outcome.Holds.changed href _ rfl
    refine ⟨r.2, hW', ?_, ?_⟩
    · have hbitmap : r.2.blk 1 = _ := congrArg View.bitmap hv
      intro c hc hc'
      rw [hbitmap]
      exact hfree' c (by omega) hc'
    · have hnodes : liveNode r.2 = _ := congrArg View.nodes hv
      rw [hnodes]
      exact ⟨_, Function.update_self .., rfl, fun _ => rfl⟩

/-- There is a disk with an empty directory at any path that names can spell. -/
theorem exists_emptyDir (q : Path) : (∀ n ∈ q, IsName n ∧ n.length ≤ 27) → q.length < 10 →
    ∃ d, EmptyDir d q (4 + 2 * q.length) := by
  -- Induction on the path from its end: the image with the root alone, then one `fs_mkdir` each.
  induction q using List.reverseRecOn with
  | nil =>
    intro _ _
    have hW : WellFormed (genDisk 4 3) := genDisk_wellFormed le_rfl (by norm_num) (by norm_num)
    have hroot : (inodeAt (genDisk 4 3) 2).isDir = true := genDisk_isDir
    refine ⟨genDisk 4 3, hW, ?_, nodeView (genDisk 4 3) 2, rfl, ?_, ?_⟩
    · intro b hb _
      rw [← Bool.not_eq_true]
      exact (bit_genBitmap (by norm_num : 3 < 32768) b).not.mpr (by simp at hb; omega)
    · rw [nodeView_isDir, hroot]
    · intro s
      rw [nodeView_slots hroot, genDisk_dirBlock le_rfl (by norm_num) (by norm_num), slot_zero]
  | append_singleton q n ih =>
    intro hnames hlen
    rw [List.length_append, List.length_singleton] at hlen
    obtain ⟨d, hd⟩ := ih (fun m hm => hnames m (by simp [hm])) (by omega)
    obtain ⟨d', hd'⟩ := EmptyDir.mkdir
      (p := ⟨q, n, fun m hm => (hnames m (by simp [hm])).1, (hnames n (by simp)).1, by omega⟩)
      hd (hnames n (by simp)).2 (by omega) (by omega)
    refine ⟨d', ?_⟩
    rw [List.length_append, List.length_singleton,
      show 4 + 2 * (q.length + 1) = 4 + 2 * q.length + 2
      by omega]
    exact hd'

/-- There is a disk with an empty file at any path of names that fit into directory entries. -/
theorem exists_file {p : NormPath} (hp : ∀ n ∈ p.comps, n.length ≤ 27) :
    ∃ d i, WellFormed d ∧ resolve d p.comps = some i ∧ (inodeAt d i).isDir = false ∧
      (inodeAt d i).size.toInt = 0 := by
  have hlt := p.parent_lt
  obtain ⟨d, hd⟩ := exists_emptyDir p.parent
    (fun n hn => ⟨p.parent_isName n hn, hp n (by simp [NormPath.comps, hn])⟩) hlt
  obtain ⟨d', hd'⟩ := (fsCreate_zero_iff hd.wellFormed someCtx zeroStack p 0).mpr
    ⟨hd.creatable (hp p.name (by simp [NormPath.comps])),
      4 + 2 * p.parent.length, by omega, by omega, hd.free _ le_rfl (by omega)⟩
  obtain ⟨hW', hnames⟩ := fsCreate_names hd.wellFormed hd'
  -- The new node is a file without bytes, so its inode's size is 0.
  have hnode := congrFun hnames p.toAbsPath
  rw [Function.update_self] at hnode
  obtain ⟨n, hn, hbody⟩ := Option.map_eq_some_iff.mp hnode
  obtain ⟨i, hi, rfl⟩ := Option.map_eq_some_iff.mp hn
  have hbody' : (if (nodeView d' i).isDir then NodeBody.dir else .file (nodeView d' i).bytes) =
      .file [] := congrArg Node.body hbody
  split_ifs at hbody' with hdir
  have hfile : (inodeAt d' i).isDir = false := by simpa using hdir
  have hsize := hW'.file_size hi hfile
  have hlen := congrArg List.length (NodeBody.file.inj hbody')
  rw [nodeView_bytes hfile, length_contents, List.length_nil] at hlen
  exact ⟨d', i, hW', hi, hfile, by omega⟩

/-! ## Reads in front of a file -/

/-- Reading a pointer fails only outside of the array. -/
theorem Inode.ptrAt_error {x : Inode} {k : ℤ} {e : Fault} (h : x.ptrAt k = .error e) :
    e = .outOfRange := by
  unfold ptrAt at h
  split_ifs at h
  exact (Except.error.inj h).symm

/-- Copying bytes fails only outside of the arrays. -/
theorem copyOut_error {data : Block} {start n : ℤ} {e : Fault}
    (h : copyOut data start n = .error e) :
    e = .outOfRange := by
  unfold copyOut at h
  split_ifs at h
  exact (Except.error.inj h).symm

/-- The loop of `fs_read` appends to what it has read, or leaves the bounds of an array. -/
theorem readLoop_cases (d : Disk) (x : Inode) (len : ℕ) (offset nread startBlock startOffset : ℤ)
    (data : Block) (out : List UInt8) :
    (∃ n l, readLoop d x len offset nread startBlock startOffset data out = .ok (n, out ++ l)) ∨
      readLoop d x len offset nread startBlock startOffset data out = .error .outOfRange := by
  fun_induction readLoop with
  | case1 nread startBlock startOffset data out hcond e he =>
    exact .inr (by rw [Inode.ptrAt_error he])
  | case2 nread startBlock startOffset data out hcond p hp data' pread pread' pread'' e he =>
    exact .inr (by rw [copyOut_error he])
  | case3 nread startBlock startOffset data out hcond p hp data' pread pread' pread'' bytes hb ih =>
    refine ih.imp ?_ id
    rintro ⟨n, l, h⟩
    exact ⟨n, bytes ++ l, by rw [h, List.append_assoc]⟩
  | case4 nread startBlock startOffset data out hcond => exact .inl ⟨nread, [], by simp⟩

/-- A pointer to a block behind every image: its byte position is negative as an `int`. -/
def badPtr : UInt32 := 524288

/-- Reading a block behind the bitmap leaves the buffer as it is. -/
theorem blockRead_badPtr (d : Disk) (buf : Block) : (blockRead d buf (lbaOf badPtr)).1 = buf := by
  have hpos : bytePos (lbaOf badPtr) < 0 := by
    unfold bytePos
    decide
  rw [blockRead, if_pos hpos]

/-- Bytes that are copied out of a block start with one of it. -/
theorem copyOut_cons {data : Block} {start n : ℤ} {bytes : List UInt8} (hn : 0 < n)
    (h : copyOut data start n = .ok bytes) : ∃ s < 4096, ∃ l, bytes = data.get s :: l := by
  rw [copyOut, if_neg (by omega)] at h
  split_ifs at h with hin
  obtain ⟨k, hk⟩ : ∃ k, n.toNat = k + 1 := ⟨n.toNat - 1, by omega⟩
  rw [← Except.ok.inj h, Bytes.slice, hk, List.range_succ_eq_map, List.map_cons]
  exact ⟨start.toNat + 0, by omega, _, rfl⟩

/-- A read in front of an empty file whose pointers lead nowhere: it leaves the bounds of an array,
or returns what was in the uninitialised buffer. -/
theorem fsRead_negative {d : Disk} (hT : Tree d) {p : NormPath} {i : ℕ}
    (hp : resolve d p.comps = some i) (hfile : (inodeAt d i).isDir = false)
    (hsize : (inodeAt d i).size.toInt = 0) (hptrs : ∀ k, (inodeAt d i).ptrs k = badPtr) (u : Stack)
    {len : ℕ} (hlen : 0 < len) {offset : Int64} (hoff : offset.toInt < 0) :
    fsRead u p.str len offset d = .error .outOfRange ∨
      ∃ n, ∃ s < 4096, ∃ l, fsRead u p.str len offset d = .ok (n, (u .data).get s :: l) := by
  obtain ⟨-, h1, hi⟩ := hT.inode_range hp
  have hx : Inode.ofBlock (d.blk i) = inodeAt d i := rfl
  have hmod : Int.tmod offset.toInt 4096 ≤ 0 := by
    have h := Int.tmod_nonneg 4096 (show 0 ≤ -offset.toInt by omega)
    rw [Int.neg_tmod] at h
    omega
  simp only [fsRead, path2inum_str hT, walkInum_some hT hp, blockRead_of_lt d _ h1 hi, hx,
    hfile, hsize, show ¬ ((i : ℤ) <
      0) by omega, show ¬ ((0 : ℤ) ≤ offset.toInt) by omega, if_false, ne_eq, not_true,
    Bool.false_eq_true]
  -- The first pass of the loop; a later one can only add bytes or run off an array.
  rw [readLoop, if_pos (by omega)]
  split
  · rename_i e he
    exact .inl (by rw [Inode.ptrAt_error he])
  · rename_i q hq
    have hq' : q = badPtr := by
      unfold Inode.ptrAt at hq
      split_ifs at hq
      rw [← Except.ok.inj hq, hptrs]
    simp only [hq', blockRead_badPtr]
    split
    · rename_i e he
      exact .inl (by rw [copyOut_error he])
    · rename_i bytes hbytes
      obtain ⟨s, hs, l, rfl⟩ := copyOut_cons (by split_ifs <;> omega) hbytes
      rcases readLoop_cases d (inodeAt d i) len offset.toInt _ _ 0 (u .data)
        ([] ++ ((u .data).get s :: l)) with ⟨n, l', h⟩ | h
      · exact .inr ⟨n, s, hs, l ++ l', h⟩
      · exact .inl h

/-- An inode whose pointers lead nowhere. -/
def Inode.unreadable (x : Inode) : Inode := { x with ptrs := fun _ => badPtr }

/-- An inode with bad pointers has the same type. -/
theorem Inode.unreadable_isDir (x : Inode) : x.unreadable.isDir = x.isDir := rfl

/-- An inode with bad pointers has the same size. -/
theorem Inode.unreadable_size (x : Inode) : x.unreadable.size = x.size := rfl

/-- There is a disk with an empty file whose pointers lead nowhere. -/
theorem exists_unreadable {p : NormPath} (hp : ∀ n ∈ p.comps, n.length ≤ 27) :
    ∃ d i, WellFormed d ∧ resolve d p.comps = some i ∧ (inodeAt d i).isDir = false ∧
      (inodeAt d i).size.toInt = 0 ∧ ∀ k, (inodeAt d i).ptrs k = badPtr := by
  obtain ⟨d, i, hW, hi, hfile, hsize⟩ := exists_file hp
  have hnone : (inodeAt d i).nblocks = 0 := by
    have := hW.nblocks_eq hi hfile
    omega
  obtain ⟨hW', -⟩ := hW.header_write hi (inodeAt d i).unreadable_isDir (inodeAt d i).unreadable_size
    (fun k hk => by omega)
  have e := hW.toTree.inodeEdit hi (inodeAt d i).unreadable_isDir
    (fun h => by rw [hfile] at h; cases h)
  refine ⟨_, i, hW', by rw [e.resolve_eq, hi], ?_⟩
  rw [inodeAt_write, Inode.unreadable_isDir, Inode.unreadable_size]
  exact ⟨hfile, hsize, fun _ => rfl⟩

/-! ## Requests that are not safe -/

/-- A well-formed disk is equivalent to itself. -/
theorem Equivalent.refl {d : Disk} (hW : WellFormed d) : Equivalent d d := ⟨hW, hW, rfl⟩

/-- A request that leaves the bounds of an array on some disk is not oblivious. -/
theorem not_oblivious_of_fault {d : Disk} (hW : WellFormed d) {r : Request} (hadmits : r.Admits d)
    (ctx : Ctx) (u : Stack) (h : r.call.run ctx u d = .error .outOfRange) : ¬ r.Oblivious := by
  intro hobl
  have hsame := hobl d d (.refl hW) hadmits ctx u u
  rw [h] at hsame
  exact hsame

/-- A request that overruns the buffer of `par_path` or starts in front of a file is not
oblivious. -/
theorem not_oblivious {r : Request} (hsafe : ¬ r.Safe) : ¬ r.Oblivious := by
  have hfault : ∀ {r : Request} {d : Disk}, WellFormed d → r.InRange → r.Admits d →
      ¬ r.InBounds d → ¬ r.Oblivious := fun hW hrange hadmits hout =>
    not_oblivious_of_fault hW hadmits someCtx zeroStack (Request.run_outOfRange hW hrange hout)
  cases r with
  | create p mode => exact hfault disk2_wellFormed trivial trivial hsafe
  | mkdir p mode => exact hfault disk2_wellFormed trivial trivial hsafe
  | unlink p => exact hfault disk2_wellFormed trivial trivial hsafe
  | rmdir p => exact hfault disk2_wellFormed trivial trivial hsafe
  | write p buf offset =>
    simp only [Request.Safe, not_or, not_exists, not_and, not_lt, not_le] at hsafe
    obtain ⟨hneg, hnonneg, hmax, hnames⟩ := hsafe
    obtain ⟨d, i, hW, hi, hfile, hsize⟩ := exists_file hnames
    refine hfault hW trivial trivial ?_
    simp only [Request.InBounds, not_or, not_forall, not_lt, not_le]
    refine ⟨hneg, hnonneg, hmax, nodeView d i, liveNode_some hi, ?_⟩
    rw [nodeView_isDir, hfile]
    exact Bool.false_ne_true
  | read p len offset =>
    simp only [Request.Safe, not_or, not_exists, not_and, not_lt, not_le] at hsafe
    obtain ⟨hneg, hlen, hnames⟩ := hsafe
    obtain ⟨d, i, hW, hi, hfile, hsize, hptrs⟩ := exists_unreadable hnames
    -- The second run finds ones in its buffer where the first one finds zeros.
    let ones : Stack := fun _ => Bytes.ofFn fun _ => 1
    intro hobl
    have hsame := hobl d d (.refl hW) trivial someCtx zeroStack ones
    have hread := fun u => fsRead_negative hW.toTree hi hfile hsize hptrs u
      (Nat.pos_of_ne_zero hlen) hneg
    simp only [Request.call, Call.run] at hsame
    rcases hread zeroStack with h | ⟨n, s, hs, l, h⟩ <;>
      rcases hread ones with h' | ⟨n', s', hs', l', h'⟩ <;> rw [h, h'] at hsame
    · exact hsame
    · exact hsame
    · exact hsame
    · have hout := hsame.2.1
      simp only [zeroStack, ones, Bytes.get_zero, Bytes.get_ofFn _ hs', Output.data.injEq,
        List.cons.injEq] at hout
      exact absurd hout.1 (by decide)
  | _ => exact absurd trivial hsafe

/-- Dead data stays unobservable: a request with a path as FUSE passes it, and a rename to a name of
at most 27 bytes, ends in the same way on all equivalent disks and for all contents of the
uninitialised locals exactly when it stays inside the arrays of the code. -/
theorem oblivious_iff_safe {r : Request} (hname : ∀ src dst, r = .rename src dst →
    dst.name.length ≤ 27) : r.Oblivious ↔ r.Safe := by
  refine ⟨fun hobl => not_not.mp fun hsafe => not_oblivious hsafe hobl, fun hsafe => ?_⟩
  refine hsafe.oblivious ?_
  cases r with
  | rename src dst => exact hname src dst rfl
  | read p len offset => exact hsafe
  | _ => trivial

/-- `fs_create("/a")` is oblivious of dead data. -/
theorem oblivious_create_pathA : (Request.create pathA 0o644).Oblivious := by
  have hsafe : (render pathA.parent).length ≤ 298 := by decide
  exact (oblivious_iff_safe (r := .create pathA 0o644) (fun _ _ h => by cases h)).mpr hsafe

/-- A repeated letter is a name. -/
theorem isName_replicate {n : ℕ} (hn : n ≠ 0) : IsName (List.replicate n 97) :=
  ⟨by simpa using hn, by simp [List.mem_replicate], by simp [List.mem_replicate, slash]⟩

/-- The path `/aa…a/b` with 298 bytes in its first component. -/
def longPath : NormPath where
  parent := [List.replicate 298 97]
  name := [98]
  parent_isName := by
    intro n hn
    rw [List.mem_singleton.mp hn]
    exact isName_replicate (by norm_num)
  name_isName := isName_b
  parent_lt := by decide

/-- `fs_unlink` of that path on the image of `disk2.in` overruns the buffer of `par_path`: it
neither stops at the assertion of `block_write` nor returns. -/
theorem not_sameEnd_longPath : Equivalent disk2 disk2 ∧
    (Request.unlink longPath).call.run someCtx zeroStack disk2 = .error .outOfRange ∧
    ¬ SameEnd ((Request.unlink longPath).call.run someCtx zeroStack disk2)
      ((Request.unlink longPath).call.run someCtx zeroStack disk2) := by
  have hlen : 298 < (render longPath.parent).length := by
    show 298 < (render [List.replicate 298 97]).length
    rw [length_render, List.map_cons, List.map_nil, List.length_replicate]
    norm_num
  rw [Request.run_outOfRange disk2_wellFormed (r := .unlink longPath) trivial (not_le.mpr hlen)]
  exact ⟨.refl disk2_wellFormed, rfl, id⟩

end Cs5600.Lab4
