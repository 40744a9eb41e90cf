import Cs5600.Lab4.Namespace

/-!
# The contents of files

A file reads back as it was written. `fs_write` replaces the bytes of its window and `fs_read`
returns those of its own, so a write or a read can be cut into chunks in any way: successive writes
of the chunks leave the disk with the same view as one write of all of them, down to the blocks that
the allocator hands out, and successive reads return the bytes of one read.
-/

namespace Cs5600.Lab4

open View (splice blocksNeeded)

/-- A file after bytes have been written to it; `bs` are its new blocks. -/
def LiveNode.wrote (n : LiveNode) (now : UInt32) (off : ℕ) (bytes : List UInt8) (bs : List ℕ) :
    LiveNode :=
  { n with
    size := Int32.ofInt (splice n.bytes off bytes).length
    ptrs := n.ptrs ++ bs
    mtime := now
    body := .file (splice n.bytes off bytes) }

/-- The view after bytes have been written to the file `n` at `p`. -/
def View.wrote (v : View) (p : Path) (n : LiveNode) (now : UInt32) (off : ℕ) (bytes : List UInt8)
    (a : List ℕ × Block) : View :=
  { v with bitmap := a.2, nodes := Function.update v.nodes p (some (n.wrote now off bytes a.1)) }

/-- Writing behind what was just written. -/
theorem splice_splice {c : List UInt8} {off : ℕ} (b₁ b₂ : List UInt8) (h : off ≤ c.length) :
    splice (splice c off b₁) (off + b₁.length) b₂ = splice c off (b₁ ++ b₂) := by
  have hlen := length_splice b₁ h
  apply List.ext_getElem?
  intro j
  rw [getElem?_splice (by omega), getElem?_splice h, getElem?_splice h, List.length_append]
  by_cases h1 : off + b₁.length ≤ j ∧ j < off + b₁.length + b₂.length
  · rw [if_pos h1, if_pos (by omega), List.getElem?_append_right (by omega)]
    congr 1
    omega
  · rw [if_neg h1]
    by_cases h2 : off ≤ j ∧ j < off + b₁.length
    · rw [if_pos h2, if_pos (by omega), List.getElem?_append_left (by omega)]
    · rw [if_neg h2, if_neg (by omega)]

/-- Two writes, one behind the other, are one write. -/
theorem LiveNode.wrote_wrote {n : LiveNode} {now : UInt32} {off : ℕ} {b₁ b₂ : List UInt8}
    {bs₁ bs₂ : List ℕ} (h : off ≤ n.bytes.length) :
    (n.wrote now off b₁ bs₁).wrote now (off + b₁.length) b₂ bs₂ =
      n.wrote now off (b₁ ++ b₂) (bs₁ ++ bs₂) := by
  have hbytes : (n.wrote now off b₁ bs₁).bytes = splice n.bytes off b₁ := rfl
  unfold wrote at hbytes ⊢
  simp only [hbytes, splice_splice b₁ b₂ h, List.append_assoc]

/-- The new blocks of a write in two parts. -/
theorem blocksNeeded_add (size stop k : ℕ) :
    blocksNeeded size (stop + k) =
      blocksNeeded size stop + blocksNeeded (max size stop) (stop + k) := by
  unfold blocksNeeded
  omega

section

variable {d : Disk} (hW : WellFormed d) {p : NormPath} {n : LiveNode}
  (hn : liveNode d p.comps = some n) (hfile : n.isDir = false)
include hW hn hfile

/-- A write inside the limits that finds enough free blocks. -/
theorem fsWrite_eq (ctx : Ctx) (u : Stack) {buf : Buf} {offset : Int64} {off : ℕ}
    (hoff : offset.toInt = off) (hle : off ≤ n.bytes.length)
    (hmax : off + buf.bytes.length ≤ 1019 * 4096) {a : List ℕ × Block}
    (ha : allocN (blocksNeeded n.bytes.length (off + buf.bytes.length)) (d.blk 1) = some a) :
    ∃ d', fsWrite ctx u p.str buf offset d = .ok ((buf.bytes.length : ℤ), d') ∧ WellFormed d' ∧
      view d' = (view d).wrote p.comps n ctx.now off buf.bytes a := by
  have href := fsWrite_refines hW ctx u p buf offset
  have hsize : sizeT ((off : ℤ) + buf.bytes.length) = off + buf.bytes.length := by
    rw [sizeT]
    omega
  -- None of the refusals of `fs_write` applies.
  have hspec : (view d).write ctx p.comps buf offset.toInt = done buf.bytes.length a.1.reverse
      ((view d).wrote p.comps n ctx.now off buf.bytes a) := by
    rw [View.write, view_nodes, hn]
    simp only [hfile, Bool.false_eq_true, if_false, hoff, Int.toNat_natCast, view_bitmap, ha]
    rw [if_neg (by omega), if_neg (by omega), if_neg (by omega)]
    rfl
  rw [hspec] at href
  -- What the refinement says of the outcome, read at this one.
  cases hrun : fsWrite ctx u p.str buf offset d with
  | error e =>
    rw [hrun] at href
    exact href.elim
  | ok r =>
    rw [hrun] at href
    obtain ⟨hW', hv⟩ := Outcome.Holds.changed href _ rfl
    have hrc : r.1 = buf.bytes.length := Outcome.Holds.rc href
    exact ⟨r.2, congrArg _ (Prod.ext hrc rfl), hW', hv⟩

end

/-! ## Chunks -/

/-- The chunks of a write, one after the other from `off` on. Each is written with its own
uninitialised locals. -/
def writeChunks (ctx : Ctx) (path : CString) : ℕ → List (Stack × Buf) → Disk → Except Fault Disk
  | _, [], d => .ok d
  | off, chunk :: chunks, d => do
    let r ← fsWrite ctx chunk.1 path chunk.2 (Int64.ofNat off) d
    writeChunks ctx path (off + chunk.2.bytes.length) chunks r.2

/-- The bytes of all chunks. -/
def chunkBytes (chunks : List (Stack × Buf)) : List UInt8 := chunks.flatMap fun c => c.2.bytes

/-- The bytes that reads of the given lengths return, one after the other from `off` on. -/
def readChunks (u : Stack) (path : CString) (d : Disk) : ℕ → List ℕ → Except Fault (List UInt8)
  | _, [] => .ok []
  | off, len :: lens => do
    let r ← fsRead u path len (Int64.ofNat off) d
    let rest ← readChunks u path d (off + len) lens
    .ok (r.2 ++ rest)

/-- Writing a file in chunks leaves the disk with the view after one write. -/
theorem writeChunks_eq (ctx : Ctx) {p : NormPath} (chunks : List (Stack × Buf)) :
    ∀ {d : Disk} {n : LiveNode} (off : ℕ) {a : List ℕ × Block}, WellFormed d →
      liveNode d p.comps = some n → n.isDir = false → chunks ≠ [] → off ≤ n.bytes.length →
      off + (chunkBytes chunks).length ≤ 1019 * 4096 →
      allocN (blocksNeeded n.bytes.length (off + (chunkBytes chunks).length)) (d.blk 1) = some a →
      ∃ d', writeChunks ctx p.str off chunks d = .ok d' ∧ WellFormed d' ∧
        view d' = (view d).wrote p.comps n ctx.now off (chunkBytes chunks) a := by
  induction chunks with
  | nil => intro d n off a _ _ _ hne; exact absurd rfl hne
  | cons chunk chunks ih =>
    intro d n off a hW hn hfile _ hle hmax ha
    have hcat : chunkBytes (chunk :: chunks) = chunk.2.bytes ++ chunkBytes chunks := rfl
    rw [hcat, List.length_append] at hmax ha
    -- The allocator hands out the blocks of the first chunk first.
    rw [← Nat.add_assoc, blocksNeeded_add, allocN_add] at ha
    obtain ⟨a₁, ha₁, ha⟩ := Option.bind_eq_some_iff.mp ha
    obtain ⟨a₂, ha₂, ha⟩ := Option.bind_eq_some_iff.mp ha
    obtain rfl := Option.some.inj ha
    have hoff : (Int64.ofNat off).toInt = off := Int64.toInt_ofNat_of_lt (by omega)
    obtain ⟨d₁, hrun, hW₁, hv₁⟩ := fsWrite_eq hW hn hfile ctx chunk.1 hoff hle (by omega) ha₁
    simp only [writeChunks, hrun, ok_bind, hcat]
    cases chunks with
    | nil =>
      have hzero : a₂ = ([], a₁.2) := by
        simp only [chunkBytes, List.flatMap_nil, List.length_nil, Nat.add_zero] at ha₂
        rw [show blocksNeeded (max n.bytes.length (off + chunk.2.bytes.length))
          (off + chunk.2.bytes.length) = 0 by unfold blocksNeeded; omega] at ha₂
        exact (Option.some.inj ha₂).symm
      refine ⟨d₁, rfl, hW₁, ?_⟩
      rw [hv₁, hzero]
      simp [chunkBytes, View.wrote]
    | cons chunk' chunks' =>
      have hn₁ : liveNode d₁ p.comps = some (n.wrote ctx.now off chunk.2.bytes a₁.1) := by
        rw [← view_nodes, hv₁]
        exact Function.update_self ..
      have hlen : (n.wrote ctx.now off chunk.2.bytes a₁.1).bytes.length =
          max n.bytes.length (off + chunk.2.bytes.length) := length_splice _ hle
      have hbitmap : d₁.blk 1 = a₁.2 := by
        rw [← view_bitmap, hv₁]
        rfl
      obtain ⟨d', hd', hW', hv'⟩ := ih (off + chunk.2.bytes.length) hW₁ hn₁ rfl (by simp)
        (by omega) (by omega)
        (by rw [hlen, hbitmap]; exact ha₂)
      refine ⟨d', hd', hW', ?_⟩
      rw [hv', hv₁, View.wrote, View.wrote, View.wrote, LiveNode.wrote_wrote hle,
        Function.update_idem]

section

variable {d : Disk} (hW : WellFormed d) {p : NormPath} {n : LiveNode}
  (hn : liveNode d p.comps = some n) (hfile : n.isDir = false)
include hW hn hfile

/-- The size limit of a file. -/
theorem length_bytes_le : n.bytes.length ≤ 1019 * 4096 := by
  obtain ⟨i, hi, rfl⟩ := Option.map_eq_some_iff.mp hn
  rw [nodeView_isDir] at hfile
  have hsize := hW.file_size hi hfile
  rw [nodeView_bytes hfile, length_contents]
  omega

/-- `fs_read` of a file returns the bytes of its window that are there. -/
theorem fsRead_file (u : Stack) (len : ℕ) {offset : Int64} {off : ℕ} (hoff : offset.toInt = off) :
    fsRead u p.str len offset d =
      .ok ((min len (n.bytes.length - off) : ℕ), (n.bytes.drop off).take len) := by
  rw [fsRead_eq hW.toTree u p len offset (.inl (by omega)), View.read, view_nodes, hn, hoff]
  simp only [Int.toNat_natCast, hfile, Bool.false_eq_true, if_false, List.length_take,
    List.length_drop]

/-- Reading a file in chunks returns the bytes of one read. -/
theorem readChunks_eq (u : Stack) (lens : List ℕ) : ∀ off : ℕ, off + lens.sum < 2^63 →
    readChunks u p.str d off lens = .ok ((n.bytes.drop off).take lens.sum) := by
  induction lens with
  | nil => intro off _; simp [readChunks]
  | cons len lens ih =>
    intro off hoff
    rw [List.sum_cons] at hoff ⊢
    have hoff' : (Int64.ofNat off).toInt = off := Int64.toInt_ofNat_of_lt (by omega)
    simp only [readChunks, fsRead_file hW hn hfile u len hoff', ih (off + len) (by omega), ok_bind]
    rw [List.take_add, List.drop_drop]

end

/-- Files read back as they were written. A write of a window that starts inside the file, ends
below the size limit, and finds enough free blocks returns the number of its bytes, replaces them
and leaves everything live at other paths as it was; a read returns the bytes of its window below
the end of the file. Neither depends on how it is cut into chunks. -/
theorem contents_read_write {d : Disk} (hW : WellFormed d) (p : NormPath) {n : LiveNode}
    (hn : liveNode d p.comps = some n) (hfile : n.isDir = false) :
    (∀ (ctx : Ctx) (u : Stack) (buf : Buf) (offset : Int64) (off : ℕ), offset.toInt = off →
      off ≤ n.bytes.length → off + buf.bytes.length ≤ 1019 * 4096 →
      blocksNeeded n.bytes.length (off + buf.bytes.length) ≤ (clearBits (d.blk 1) 32768).card →
      ∃ d', fsWrite ctx u p.str buf offset d = .ok ((buf.bytes.length : ℤ), d') ∧ WellFormed d' ∧
        (∃ n', liveNode d' p.comps = some n' ∧ n'.isDir = false ∧
          n'.bytes = splice n.bytes off buf.bytes ∧
          n'.size.toInt = max n.bytes.length (off + buf.bytes.length)) ∧
        (∀ q, q ≠ p.comps → liveNode d' q = liveNode d q) ∧
        ∀ chunks, chunks ≠ [] → chunkBytes chunks = buf.bytes →
          ∃ d'', writeChunks ctx p.str off chunks d = .ok d'' ∧ view d'' = view d') ∧
    (∀ (u : Stack) (len : ℕ) (offset : Int64) (off : ℕ), offset.toInt = off →
      fsRead u p.str len offset d =
        .ok ((min len (n.bytes.length - off) : ℕ), (n.bytes.drop off).take len) ∧
      ∀ lens : List ℕ, lens.sum = len → off + len < 2^63 →
        readChunks u p.str d off lens = .ok ((n.bytes.drop off).take len)) := by
  refine ⟨?_, ?_⟩
  · intro ctx u buf offset off hoff hle hmax hfree
    -- The free blocks are enough, so the allocator hands out what the write needs.
    obtain ⟨a, ha, -⟩ := allocN_of_le le_rfl _ (d.blk 1) hfree
    obtain ⟨d', hrun, hW', hv⟩ := fsWrite_eq hW hn hfile ctx u hoff hle hmax ha
    have hnodes : liveNode d' = Function.update (liveNode d) p.comps
        (some (n.wrote ctx.now off buf.bytes a.1)) := by
      rw [← view_nodes, hv]
      rfl
    refine ⟨d', hrun, hW', ⟨n.wrote ctx.now off buf.bytes a.1, ?_, rfl, rfl, ?_⟩, ?_, ?_⟩
    · rw [hnodes, Function.update_self]
    · have hlen := length_splice buf.bytes hle
      show (Int32.ofInt (splice n.bytes off buf.bytes).length).toInt = _
      have hsize := length_bytes_le hW hn hfile
      rw [hlen, Int32.toInt_ofInt, show Int32.size = 4294967296 from rfl,
        Int.bmod_eq_of_le (by omega) (by omega), Nat.cast_max, Nat.cast_add]
    · intro q hq
      rw [hnodes, Function.update_of_ne hq]
    · intro chunks hne hbytes
      obtain ⟨d'', hd'', -, hv'⟩ := writeChunks_eq ctx chunks off hW hn hfile hne hle
        (by rw [hbytes]; exact hmax) (by rw [hbytes]; exact ha)
      exact ⟨d'', hd'', by rw [hv', hv, hbytes]⟩
  · intro u len offset off hoff
    refine ⟨fsRead_file hW hn hfile u len hoff, ?_⟩
    rintro lens rfl hlt
    exact readChunks_eq hW hn hfile u lens off hlt

/-- Five bytes written to the new file `/a` of the image of `disk2.in` are read back in two
chunks. -/
theorem contents_read_write_disk2 : ∃ d d', WellFormed d ∧
    fsWrite someCtx zeroStack pathA.str ⟨[104, 101, 108, 108, 111], by decide⟩ 0 d = .ok (5, d') ∧
    readChunks zeroStack pathA.str d' 0 [2, 4096] = .ok [104, 101, 108, 108, 111] := by
  obtain ⟨d, n, -, hW, hn, hfile, hbytes, hfree⟩ := disk2_create
  obtain ⟨hwrite, -⟩ := contents_read_write hW pathA hn hfile
  obtain ⟨d', hrun, hW', ⟨n', hn', hfile', hbytes', -⟩, -⟩ := hwrite someCtx zeroStack
    ⟨[104, 101, 108, 108, 111], by decide⟩ 0 0 rfl (by omega) (by simp)
    (by rw [hbytes]; exact hfree)
  obtain ⟨-, hread⟩ := contents_read_write hW' pathA hn' hfile'
  refine ⟨d, d', hW, hrun, ?_⟩
  rw [(hread zeroStack 4098 0 0 rfl).2 [2, 4096] rfl (by norm_num), hbytes', hbytes]
  rfl

end Cs5600.Lab4
