import Cs5600.Lab4.InBounds

/-!
# The end of the device

The superblock says how many blocks the device has, but `alloc_blk` searches all 32768 bits of the
bitmap. The file system stays inside a smaller device as long as no request leaves the arrays of the
code or asks for more blocks than are free (`runAll_inside`). When one asks for more, the allocator
hands out a block behind the end, and the free count of `fs_statfs` wraps (`outside_genDisk`).
-/

namespace Cs5600.Lab4

/-! ## Counting blocks -/

/-- The loop of `fs_statfs` counts the bits that are set. -/
theorem usedBlocks_eq (map : Block) :
    usedBlocks map = ((Finset.Ico 2 32768).filter fun i => bit map i = true).card := by
  have h : ∀ i, (bitTest map i != 0) = decide (bit map i = true) := by
    intro i
    rw [Bool.eq_iff_iff, bne_iff_ne, decide_eq_true_iff, Ne, bitTest_eq_zero, Bool.not_eq_false]
  have hval : (Finset.Ico 2 32768).val = (List.range' 2 (4096 * 8 - 2) : Multiset ℕ) := rfl
  simp only [usedBlocks, h]
  rw [Finset.card_def, Finset.filter_val, hval, Multiset.filter_coe, Multiset.coe_card,
    List.countP_eq_length_filter]

/-- The number of clear bits in `[2, stop)`. -/
def freeCount (map : Block) (stop : ℕ) : ℕ :=
  ((Finset.Ico 2 stop).filter fun i => bit map i = false).card

/-- The set bits and the clear bits of a device are all of them. -/
theorem usedBlocks_add_freeCount {map : Block} {stop : ℕ} (h2 : 2 ≤ stop) (hstop : stop ≤ 32768)
    (hclear : ∀ i, stop ≤ i → i < 32768 → bit map i = false) :
    usedBlocks map + freeCount map stop = stop - 2 := by
  have hused : ((Finset.Ico 2 32768).filter fun i => bit map i = true) =
      (Finset.Ico 2 stop).filter fun i => bit map i = true := by
    ext i
    simp only [Finset.mem_filter, Finset.mem_Ico]
    constructor
    · rintro ⟨⟨hi, hlt⟩, hbit⟩
      refine ⟨⟨hi, ?_⟩, hbit⟩
      by_contra hge
      rw [hclear i (by omega) hlt] at hbit
      cases hbit
    · rintro ⟨⟨hi, hlt⟩, hbit⟩
      exact ⟨⟨hi, by omega⟩, hbit⟩
  have hsplit := Finset.card_filter_add_card_filter_not (s := Finset.Ico 2 stop)
    (fun i => bit map i = true)
  simp only [Bool.not_eq_true, Nat.card_Ico] at hsplit
  rw [usedBlocks_eq, hused, freeCount, hsplit]


/-- `bit_clear` sets no bit. -/
theorem bit_of_bitClear {map : Block} {i j : ℕ} (h : bit (bitClear map i) j = true) :
    bit map j = true := by
  by_cases hi : i < 32768
  · rw [bit_bitClear _ hi, Bool.and_eq_true] at h
    exact h.2
  · -- A store behind the end of the block is lost.
    have hnone : bitClear map i = map := by
      apply Bytes.ext_get
      intro k hk
      exact Bytes.get_blit_outside _ _ _ (by omega)
    rwa [hnone] at h

/-- Clearing bits sets none. -/
theorem bit_of_clearAll {bs : List ℕ} {j : ℕ} : ∀ {map : Block}, bit (clearAll map bs) j = true →
    bit map j = true := by
  induction bs with
  | nil => intro map h; exact h
  | cons b bs ih => intro map h; exact bit_of_bitClear (ih h)

/-! ## What a request asks for -/

/-- Whether `fs_create` and `fs_mkdir` of a path come to ask for a block. -/
def View.roomFor (v : View) (p : NormPath) : Bool :=
  (v.nodes p.comps).isNone && decide (p.name.length ≤ 27) &&
    match v.dirAt p.parent with
    | .ok (_, slots) => (freeSlot slots).isSome
    | .error _ => false

/-- The number of blocks that a request asks the allocator for. A write at a negative offset asks
for one at every index in front of the inode's pointers. -/
def View.demand (v : View) : Request → ℕ
  | .create p _ => if v.roomFor p then 1 else 0
  | .mkdir p _ => if v.roomFor p then 2 else 0
  | .write p buf offset => match v.nodes p.comps with
    | none => 0
    | some n =>
      let stop := offset.toInt + buf.bytes.length
      if n.isDir ∨ (n.bytes.length : ℤ) < offset.toInt ∨ 4096 * 1019 < sizeT stop then 0
      else (-(offset.toInt.tdiv 4096)).toNat + View.blocksNeeded n.bytes.length stop.toNat
  | _ => 0

/-- The free blocks of a device of `size` blocks are enough for `n` more. The bitmap has no more
than 32768 bits, so a device of that size cannot be overrun. -/
def Enough (map : Block) (size n : ℕ) : Prop := size = 32768 ∨ n ≤ (clearBits map size).card

/-- Where there are enough free blocks, the next one is on the device, and one less is enough
afterwards. -/
theorem Enough.firstClear_lt {map : Block} {size n f : ℕ} (h : Enough map size (n + 1))
    (hsize : size ≤ 32768) (hf : firstClear map = some f) :
    f < size ∧ Enough (bitSet map f) size n := by
  obtain ⟨-, -, hlt, -⟩ := firstClear_eq_some.mp hf
  rcases h with rfl | h
  · exact ⟨hlt, .inl rfl⟩
  · obtain ⟨b, hb, hmem⟩ := firstClear_of_pos hsize (show 0 < (clearBits map size).card by omega)
    obtain rfl := Option.some.inj (hb.symm.trans hf)
    refine ⟨(mem_clearBits.mp hmem).1.2, .inr ?_⟩
    rw [clearBits_bitSet hlt, Finset.card_erase_of_mem hmem]
    omega

/-- Where there are enough free blocks, all that are handed out are on the device. -/
theorem Enough.allocN_lt {size n : ℕ} (hsize : size ≤ 32768) : ∀ {map : Block} {a : List ℕ × Block},
    Enough map size n → allocN n map = some a → ∀ b ∈ a.1, b < size := by
  intro map a h ha
  rcases h with rfl | h
  · exact fun b hb => ((allocN_spec n ha).2.2.1 b hb).2.1
  · obtain ⟨a', ha', hbelow⟩ := allocN_of_le hsize n map h
    obtain rfl := Option.some.inj (ha'.symm.trans ha)
    exact hbelow

/-- A device that has enough blocks, and is smaller than the bitmap, does not run dry. -/
theorem Enough.allocN_isSome {map : Block} {size n : ℕ} (h : Enough map size n)
    (hlt : size < 32768) : (allocN n map).isSome := by
  have hle := h.resolve_left hlt.ne
  obtain ⟨a, ha, -⟩ := allocN_of_le hlt.le n map hle
  rw [ha]
  rfl

/-- An outcome that takes at most `n` blocks, all of them of a device of `size` blocks, marks no
other block, and keeps the superblock. -/
structure Outcome.Inside (o : Outcome) (size n : ℕ) (v : View) : Prop where
  handed : ∀ b ∈ o.handed, b < size
  length : o.handed.length ≤ n
  super : ∀ v', o.view = some v' → v'.super = v.super
  bits : ∀ v', o.view = some v' → ∀ i, bit v'.bitmap i = true → i ∈ o.handed ∨ bit v.bitmap i = true

section

variable {v : View} {size n : ℕ}

/-- An outcome that leaves the view as it was. -/
theorem Outcome.Inside.of_none {handed : List ℕ} (rc : ℤ) (h : ∀ b ∈ handed, b < size)
    (hn : handed.length ≤ n) : Outcome.Inside ⟨rc, handed, none⟩ size n v :=
  ⟨h, hn, fun _ h => (nomatch h), fun _ h => (nomatch h)⟩

/-- A failure takes no block. -/
theorem inside_of_fail {rc : ℤ} {o : Outcome} (h : fail rc = .ok o) : o.Inside size n v :=
  Except.ok.inj h ▸ .of_none rc (by simp) (Nat.zero_le n)

/-- An outcome that takes no block and marks none. -/
theorem Outcome.Inside.of_clear {rc : ℤ} {v' : View} (hs : v'.super = v.super)
    (hbits : ∀ i, bit v'.bitmap i = true → bit v.bitmap i = true) :
    Outcome.Inside ⟨rc, [], some v'⟩ size n v := by
  refine ⟨by simp, Nat.zero_le n, ?_, ?_⟩
  · intro v'' h
    rw [← Option.some.inj h, hs]
  · intro v'' h i hi
    rw [← Option.some.inj h] at hi
    exact .inr (hbits i hi)

/-- Where the directory has a free entry, the allocator is asked. -/
theorem roomFor_eq_true {p : NormPath} {par : LiveNode} {slots : Slots} {k : ℕ}
    (h1 : ¬ (v.nodes p.comps).isSome = true) (h2 : ¬ 27 < p.name.length)
    (hdir : v.dirAt p.parent = .ok (par, slots)) (hk : freeSlot slots = some k) :
    v.roomFor p = true := by
  have hnone : v.nodes p.comps = none := by simpa using h1
  have hlen : p.name.length ≤ 27 := by omega
  simp only [View.roomFor, hnone, hdir, hk, hlen, Option.isNone_none, Option.isSome_some,
    decide_true, Bool.and_self]

/-- A removal takes no block. -/
theorem View.removeWith_inside {ctx : Ctx} {p : NormPath} {remove : LiveNode → Option ℤ}
    {o : Outcome} (h : v.removeWith ctx p remove = .ok o) : o.Inside size n v := by
  unfold View.removeWith at h
  split_ifs at h
  split at h
  · exact inside_of_fail h
  · split at h
    · split at h
      · exact inside_of_fail h
      · cases h
        exact .of_clear rfl fun i hi => bit_of_clearAll (bit_of_bitClear hi)
    · exact inside_of_fail h

variable (hsize : size ≤ 32768) {ctx : Ctx} {p : NormPath} {o : Outcome}
include hsize

/-- A creation takes the block that it asks for. -/
theorem View.create_inside {mode : UInt32} (h : v.create ctx p mode = .ok o)
    (henough : Enough v.bitmap size (v.demand (.create p mode))) :
    o.Inside size (v.demand (.create p mode)) v := by
  unfold View.create at h
  split_ifs at h with h1 h2 h3
  · exact inside_of_fail h
  · exact inside_of_fail h
  · split at h
    · exact inside_of_fail h
    · rename_i par slots hdir
      -- There is a free slot and a free block: the block is inside, since enough of them are.
      split at h
      · rename_i k f hk hf
        cases h
        have hroom : v.roomFor p = true := roomFor_eq_true h1 h3 hdir hk
        rw [View.demand, if_pos hroom] at henough ⊢
        have hf' := (henough.firstClear_lt hsize hf).1
        refine ⟨by simpa using hf', le_rfl, fun v' hv' => Option.some.inj hv' ▸ rfl, ?_⟩
        intro v' hv' i hi
        rw [← Option.some.inj hv', bit_bitSet _ (by omega), Bool.or_eq_true,
          decide_eq_true_iff] at hi
        exact hi.imp_left List.mem_singleton.mpr
      · exact inside_of_fail h

/-- A new directory takes the two blocks that it asks for, or one that is given back. -/
theorem View.mkdir_inside {mode : UInt32} (h : v.mkdir ctx p mode = .ok o)
    (henough : Enough v.bitmap size (v.demand (.mkdir p mode))) :
    o.Inside size (v.demand (.mkdir p mode)) v := by
  unfold View.mkdir at h
  split_ifs at h with h1 h2 h3
  · exact inside_of_fail h
  · exact inside_of_fail h
  · split at h
    · exact inside_of_fail h
    · rename_i par slots hdir
      split at h
      · rename_i k f hk hf
        have hroom : v.roomFor p = true := roomFor_eq_true h1 h3 hdir hk
        rw [View.demand, if_pos hroom] at henough ⊢
        obtain ⟨hf', henough⟩ := henough.firstClear_lt hsize hf
        -- Two blocks, or one that is handed out and given back.
        split at h
        · rename_i b hb
          have hb' := (henough.firstClear_lt hsize hb).1
          cases h
          refine ⟨by simp [hf', hb'], le_rfl, fun v' hv' => Option.some.inj hv' ▸ rfl, ?_⟩
          intro v' hv' i hi
          rw [← Option.some.inj hv', bit_bitSet _ (by omega), bit_bitSet _ (by omega),
            Bool.or_eq_true, decide_eq_true_iff, Bool.or_eq_true, decide_eq_true_iff] at hi
          rcases hi with rfl | rfl | hi
          · exact .inl List.mem_cons_self
          · exact .inl (List.mem_cons_of_mem _ (List.mem_singleton.mpr rfl))
          · exact .inr hi
        · cases h
          exact .of_none _ (by simpa using hf') (by simp)
      · exact inside_of_fail h

omit hsize in
/-- What a write inside the limits asks for. -/
theorem View.demand_write {buf : Buf} {offset : Int64} {n : LiveNode}
    (hn : v.nodes p.comps = some n) (h1 : ¬ n.isDir = true)
    (h2 : ¬ (n.bytes.length : ℤ) < offset.toInt)
    (h3 : ¬ 4096 * 1019 < sizeT (offset.toInt + buf.bytes.length)) (h4 : 0 ≤ offset.toInt) :
    v.demand (.write p buf offset) =
      View.blocksNeeded n.bytes.length (offset.toInt.toNat + buf.bytes.length) := by
  have hfront : (-(offset.toInt.tdiv 4096)).toNat = 0 := by
    have := Int.tdiv_nonneg h4 (show (0 : ℤ) ≤ 4096 by norm_num)
    omega
  have hstop : (offset.toInt + buf.bytes.length).toNat = offset.toInt.toNat + buf.bytes.length := by
    omega
  simp only [View.demand, hn]
  rw [if_neg (by rintro (h | h | h) <;> contradiction), hfront, hstop, Nat.zero_add]

/-- A write takes the blocks that it asks for. -/
theorem View.write_inside {buf : Buf} {offset : Int64}
    (h : v.write ctx p.comps buf offset.toInt = .ok o)
    (henough : Enough v.bitmap size (v.demand (.write p buf offset))) :
    o.Inside size (v.demand (.write p buf offset)) v := by
  unfold View.write at h
  split at h
  · exact inside_of_fail h
  · rename_i n hn
    simp only at h
    split_ifs at h with h1 h2 h3 h4
    · exact inside_of_fail h
    · exact inside_of_fail h
    · exact inside_of_fail h
    -- None of the refusals: the blocks that the write allocates are asked for one by one.
    · split at h
      · cases h
      · rename_i bs bitmap ha
        cases h
        rw [View.demand_write hn h1 h2 h3 (not_lt.mp h4)] at henough ⊢
        have hbs := henough.allocN_lt hsize ha
        obtain ⟨hlen, -, -, hbits⟩ := allocN_spec _ ha
        refine ⟨by simpa using hbs, by simp [hlen], fun v' hv' => Option.some.inj hv' ▸ rfl, ?_⟩
        intro v' hv' i hi
        rw [← Option.some.inj hv', hbits, Bool.or_eq_true, decide_eq_true_iff] at hi
        exact hi.imp_left List.mem_reverse.mpr

/-- A request that asks for no more than the free blocks of the device stays inside it. -/
theorem View.exec_inside {r : Request} (h : v.exec ctx r = .ok o)
    (henough : Enough v.bitmap size (v.demand r)) : o.Inside size (v.demand r) v := by
  cases r with
  | init =>
    unfold View.exec at h
    cases hi : v.init with
    | error e => rw [hi] at h; cases h
    | ok _ =>
      rw [hi] at h
      exact inside_of_fail h
  | statfs p =>
    -- Operations that only read, or fail, hand out nothing.
    exact inside_of_fail h
  | getattr p =>
    exact inside_of_fail h
  | readdir p =>
    exact inside_of_fail h
  | read p len offset =>
    exact inside_of_fail h
  | rename src dst =>
    rw [View.exec] at h
    unfold View.rename at h
    split_ifs at h
    · exact inside_of_fail h
    · exact inside_of_fail h
    · exact inside_of_fail h
    · split at h
      · exact inside_of_fail h
      · split at h
        · cases h
        · cases h
          exact .of_clear rfl fun _ hi => hi
  | chmod p mode =>
    rw [View.exec] at h
    unfold View.chmod at h
    split at h
    · exact inside_of_fail h
    · cases h
      exact .of_clear rfl fun _ hi => hi
  | create p mode => exact View.create_inside hsize h henough
  | mkdir p mode => exact View.mkdir_inside hsize h henough
  | unlink p => exact View.removeWith_inside h
  | rmdir p => exact View.removeWith_inside h
  | write p buf offset => exact View.write_inside hsize h henough
  | truncate p len =>
    rw [View.exec] at h
    unfold View.truncate at h
    split_ifs at h
    · exact inside_of_fail h
    · split at h
      · exact inside_of_fail h
      · split_ifs at h
        · exact inside_of_fail h
        · cases h
          -- A bit that is clear in the old bitmap is clear in the new one.
          exact .of_clear rfl fun _ hi => bit_of_clearAll hi
  | utime p ut =>
    rw [View.exec] at h
    unfold View.utime at h
    split at h
    · exact inside_of_fail h
    · split_ifs at h
      · exact inside_of_fail h
      · cases h
        exact .of_clear rfl fun _ hi => hi

end

/-! ## Paths of more than 10 components -/

/-- A call with a path of more than 10 components that returns; `fs_statfs` does not look at its
path. The calls that are left out look for the last component in front of the array of tokens. -/
inductive Call.Deep : Call → Prop where
  | statfs (path : CString) : Deep (.statfs path)
  | getattr (p : DeepPath) : Deep (.getattr p.str)
  | readdir (p : DeepPath) : Deep (.readdir p.str)
  | read (p : DeepPath) (len : ℕ) (offset : Int64) : Deep (.read p.str len offset)
  | renameSrc (p : DeepPath) (dst : CString) : Deep (.rename p.str dst)
  | renameDst (src : NormPath) (p : DeepPath) : Deep (.rename src.str p.str)
  | chmod (p : DeepPath) (mode : UInt32) : Deep (.chmod p.str mode)
  | write (p : DeepPath) (buf : Buf) (offset : Int64) : Deep (.write p.str buf offset)
  | truncate (p : DeepPath) (len : ℤ) : Deep (.truncate p.str len)
  | utime (p : DeepPath) (ut : Option ℤ) : Deep (.utime p.str ut)

/-- A path of more than 10 components leads nowhere. -/
theorem path2inum_deep (u : Stack) (d : Disk) (p : DeepPath) : path2inum u d p.str = -ENOENT := by
  rw [path2inum]
  split_ifs with h
  · rfl
  · simp [sepPath_deep]

/-- A rename to such a path is refused, since the other path has another number of components. -/
theorem fsRename_deep (u : Stack) (d : Disk) (src : NormPath) (p : DeepPath) :
    ∃ rc, fsRename u src.str p.str d = .ok (rc, d) := by
  have hne : (sepPath src.str).1 ≠ (sepPath p.str).1 := by
    rw [sepPath_deep, sepPath_str]
    simp only
    omega
  simp only [fsRename, path2inum_deep, hne, ne_eq, not_false_eq_true, if_true]
  split_ifs <;> exact ⟨_, rfl⟩

/-- Such a call returns and keeps the disk. -/
theorem Call.Deep.returns {c : Call} (hc : c.Deep) (ctx : Ctx) (u : Stack) (d : Disk) :
    ∃ rc out, c.run ctx u d = .ok (rc, out, d) := by
  cases hc with
  | statfs path => exact ⟨_, _, rfl⟩
  | getattr p => exact ⟨_, _, rfl⟩
  | readdir p =>
    rw [Call.run, fsReaddir, path2inum_deep, if_pos (by decide), ok_bind]
    exact ⟨_, _, rfl⟩
  | read p len offset =>
    rw [Call.run, fsRead, path2inum_deep, if_pos (by decide), ok_bind]
    exact ⟨_, _, rfl⟩
  | renameSrc p dst =>
    -- The operations that write return at the lookup, which fails.
    rw [Call.run, fsRename, path2inum_deep, if_pos (show -ENOENT < 0 by decide)]
    split_ifs <;> exact ⟨_, _, rfl⟩
  | renameDst src p =>
    obtain ⟨rc, h⟩ := fsRename_deep u d src p
    rw [Call.run, h]
    exact ⟨_, _, rfl⟩
  | chmod p mode =>
    rw [Call.run, fsChmod, path2inum_deep, if_pos (by decide)]
    exact ⟨_, _, rfl⟩
  | write p buf offset =>
    rw [Call.run, fsWrite, path2inum_deep, if_pos (by decide)]
    exact ⟨_, _, rfl⟩
  | truncate p len =>
    rw [Call.run, fsTruncate, path2inum_deep]
    split_ifs with hlen
    · exact ⟨_, _, rfl⟩
    · rw [if_pos (by decide)]
      exact ⟨_, _, rfl⟩
  | utime p ut =>
    rw [Call.run, fsUtime, path2inum_deep, if_pos (by decide)]
    exact ⟨_, _, rfl⟩

/-! ## Runs -/

/-- A disk inside a device of `size` blocks: it is well-formed, its superblock has the size, and
neither the bitmap nor the blocks handed out so far reach past the end. -/
structure InsideDevice (size : ℕ) (d : Disk) : Prop where
  wellFormed : WellFormed d
  diskSize : superDiskSize (d.blk 0) = size
  bits : ∀ i, size ≤ i → i < 32768 → bit (d.blk 1) i = false
  handed : ∀ b ∈ d.handed, b < size

/-- A call that keeps the file system inside a device of `size` blocks: the new name of a rename
fits into a directory entry, a read does not start in front of a file, the other arrays are not left
either, `fs_init` finds the magic number, and no more blocks are asked for than are free on the
device. The paths are normalised; those of more than 10 components lead nowhere. -/
def KeepsInside (size : ℕ) (d : Disk) (c : Call) : Prop :=
  c.Deep ∨ ∃ r : Request, c = r.call ∧ r.InRange ∧ r.InBounds d ∧ r.Admits d ∧
    Enough (d.blk 1) size ((view d).demand r)

/-- What a call that meets the condition does: nothing, or what an outcome inside the device
says. -/
theorem KeepsInside.cases {size : ℕ} (hsize : size ≤ 32768) {d : Disk} {ctx : Ctx} {u : Stack}
    {c : Call} {res : ℤ × Output × Disk} (hW : WellFormed d) (hc : KeepsInside size d c)
    (h : c.run ctx u d = .ok res) : res.2.2 = d ∨
      ∃ (o : Outcome) (n : ℕ), o.Holds d res.1 res.2.2 ∧ o.Inside size n (view d) := by
  rcases hc with hdeep | ⟨r, rfl, hrange, -, -, henough⟩
  · obtain ⟨rc, out, hres⟩ := hdeep.returns ctx u d
    rw [hres] at h
    exact .inl (by rw [← Except.ok.inj h])
  · have ha := Request.run_answers hW ctx u hrange
    rw [h] at ha
    obtain ⟨o, ho, hholds, -⟩ := ha.of_ok
    exact .inr ⟨o, _, hholds, View.exec_inside hsize ho henough⟩

section

variable {size : ℕ} (hsize : size ≤ 32768) {d : Disk} {ctx : Ctx} {u : Stack} {c : Call}
  {res : ℤ × Output × Disk} (hd : InsideDevice size d) (hc : KeepsInside size d c)
  (h : c.run ctx u d = .ok res)
include hsize hd hc h

/-- A call that meets the condition keeps the superblock. -/
theorem InsideDevice.super_eq : res.2.2.blk 0 = d.blk 0 := by
  rcases hc.cases hsize hd.wellFormed h with heq | ⟨o, n, hholds, hinside⟩
  · rw [heq]
  · refine (congrArg View.super hholds.view_eq).trans ?_
    cases hv : o.view with
    | none => rfl
    | some v' => exact hinside.super v' hv

/-- A call that meets the condition keeps the disk inside the device. -/
theorem InsideDevice.step : InsideDevice size res.2.2 := by
  have hsuper := hd.super_eq hsize hc h
  rcases hc.cases hsize hd.wellFormed h with heq | ⟨o, n, hholds, hinside⟩
  · rw [heq]
    exact hd
  · refine ⟨hholds.wellFormed hd.wellFormed, by rw [hsuper, hd.diskSize], ?_, ?_⟩
    -- A bit behind the device stays clear: what the call sets, it was handed.
    · intro i hge hlt
      have hbitmap : res.2.2.blk 1 = (o.view.getD (view d)).bitmap :=
        congrArg View.bitmap hholds.view_eq
      rw [hbitmap, ← Bool.not_eq_true]
      intro hi
      have hclear := hd.bits i hge hlt
      cases hv : o.view with
      | none =>
        rw [hv, Option.getD_none, view_bitmap, hclear] at hi
        cases hi
      | some v' =>
        rw [hv, Option.getD_some] at hi
        rcases hinside.bits v' hv i hi with hmem | hset
        · have := hinside.handed i hmem
          omega
        · rw [view_bitmap, hclear] at hset
          cases hset
    · intro b hb
      rw [hholds.handed, List.mem_append] at hb
      exact hb.elim (hinside.handed b) (hd.handed b)

/-- Such a call makes the image longer by blocks of the device only. -/
theorem InsideDevice.grows : d.Grows res.2.2 (List.range size) := by
  rcases hc.cases hsize hd.wellFormed h with heq | ⟨o, n, hholds, hinside⟩
  · exact .of_eq _ (by rw [heq])
  · exact ⟨hholds.grows.le, fun m hm hall => hholds.grows.bound m hm fun b hb =>
      hall b (List.mem_range.mpr (hinside.handed b hb))⟩

end

/-- A write that the allocator stops asks for more blocks than are free. -/
theorem View.RunsDry.allocN_demand {v : View} {r : Request} (h : v.RunsDry r) :
    allocN (v.demand r) v.bitmap = none := by
  obtain ⟨hn, h1, h2, h3, h4, hdry⟩ := h
  rw [View.demand_write hn h1 h2 h3 h4]
  exact hdry

/-- A call that meets the condition is stopped by the assertion of `block_write` only, and only on a
device of 32768 blocks. -/
theorem InsideDevice.stop {size : ℕ} (hsize : size ≤ 32768) {d : Disk} {ctx : Ctx} {u : Stack}
    {c : Call} {e : Fault} (hd : InsideDevice size d) (hc : KeepsInside size d c)
    (h : c.run ctx u d = .error e) : e = .assertion ∧ size = 32768 := by
  rcases hc with hdeep | ⟨r, rfl, hrange, hin, hadmits, henough⟩
  · obtain ⟨rc, out, hres⟩ := hdeep.returns ctx u d
    rw [hres] at h
    cases h
  · obtain ⟨he, hdry⟩ := Request.run_error hd.wellFormed hin hadmits hrange h
    refine ⟨he, by_contra fun hne => ?_⟩
    have hsome := henough.allocN_isSome (by omega)
    rw [← view_bitmap, hdry.allocN_demand] at hsome
    cases hsome

/-- A run whose calls meet the condition. -/
theorem InsideDevice.run {size : ℕ} (hsize : size ≤ 32768) {d d' : Disk} {steps : List Step}
    (hd : InsideDevice size d) (hmeets : RunMeets (KeepsInside size) steps d)
    (hrun : runAll steps d = .ok d') : InsideDevice size d' ∧ d.Grows d' (List.range size) :=
  runAll_invariant (P := fun d' => InsideDevice size d' ∧ d.Grows d' (List.range size))
    (fun _ _ _ _ _ hd hc h => ⟨hd.1.step hsize hc h, hd.2.trans (hd.1.grows hsize hc h)⟩)
    ⟨hd, .of_eq _ rfl⟩ hmeets hrun

/-- `fs_statfs` on a disk inside the device counts its free blocks, and the subtraction does not
wrap. -/
theorem InsideDevice.statfs {size : ℕ} (h3 : 3 ≤ size) (hsize : size ≤ 32768) {d : Disk}
    (hd : InsideDevice size d) (u : Stack) :
    fsStatfs u d =
      (0, some ⟨4096, 27, size - 2, freeCount (d.blk 1) size, freeCount (d.blk 1) size⟩) ∧
    freeCount (d.blk 1) size ≤ size - 2 := by
  have hcount := usedBlocks_add_freeCount (by omega) hsize hd.bits
  rw [fsStatfs_eq hd.wellFormed.toTree, View.statfs, view_super, view_bitmap, hd.diskSize,
    show (size + (2^32 - 2)) % 2^32 = size - 2 by omega,
    show (size - 2 + (2^64 - usedBlocks (d.blk 1))) % 2^64 = freeCount (d.blk 1) size by omega]
  exact ⟨rfl, by omega⟩

end Cs5600.Lab4
