import Cs5600.Lab4.Remove

/-!
# `fs_write`

The loop of `fs_write` goes through the blocks of the file that the data covers. A block past the
end of the file is taken from the allocator, then the block is read, overwritten in part, and
written back. `Written` is what the loop has done to the blocks and the pointers, and it composes
over the passes of the loop; `writeLoop_spec` is the whole loop.
-/

namespace Cs5600.Lab4

variable {d d' : Disk}

/-- The first `m` pointers of an inode refer to distinct and marked blocks of the image. -/
structure Ptrs (d : Disk) (x : Inode) (m : ℕ) : Prop where
  le : m ≤ 1019
  range : ∀ k < m, 2 ≤ x.ptr k ∧ x.ptr k < 32768 ∧ x.ptr k < d.nblks
  marked : ∀ k < m, bit (d.blk 1) (x.ptr k) = true
  inj : ∀ k < m, ∀ k' < m, x.ptr k = x.ptr k' → k = k'

/-- Writing `data` at byte `start` of a file with `m` blocks has changed `d` and `x` to `d'` and
`x'`, with the new blocks `bs` behind the old ones. -/
structure Written (d : Disk) (x : Inode) (m start : ℕ) (data : List UInt8) (bs : List ℕ) (d' : Disk)
    (x' : Inode) : Prop where
  header : { x' with ptrs := x.ptrs } = x
  ptr_old : ∀ k < m, x'.ptr k = x.ptr k
  ptr_new : ∀ j < bs.length, bs[j]? = some (x'.ptr (m + j))
  handed : d'.handed = bs.reverse ++ d.handed
  grows : d.Grows d' bs
  lt : ∀ b ∈ bs, b < d'.nblks
  cover : start + data.length ≤ 4096 * (m + bs.length)
  keep : ∀ j < d.nblks, j ≠ 1 → (∀ k < m + bs.length, j ≠ x'.ptr k) → d'.blk j = d.blk j
  bytes_in : ∀ i, start ≤ i → i < start + data.length →
    data[i - start]? = some ((d'.blk (x'.ptr (i / 4096))).get (i % 4096))
  bytes_out : ∀ i, i / 4096 < m → i < start ∨ start + data.length ≤ i →
    (d'.blk (x'.ptr (i / 4096))).get (i % 4096) = (d.blk (x.ptr (i / 4096))).get (i % 4096)

/-- One pass of the loop, in terms of what its calls return. -/
theorem writeLoop_step {u : Stack} {blockIni : ℤ} {blockOffset : ℕ} {buf : List UInt8}
    {x x₁ : Inode} (buffer : Block) {buffer₁ : Block} {d d₁ d₂ : Disk} {p : UInt32} {rc : ℤ}
    (hne : buf ≠ []) (ha : writeAlloc u blockIni x d = .ok (x₁, d₁))
    (hp : x₁.ptrAt blockIni = .ok p)
    (hm : memcpy (blockRead d₁ buffer (lbaOf p)).1 blockOffset
      (buf.take (sizeT (4096 - blockOffset))) = .ok buffer₁)
    (hw : blockWrite d₁ buffer₁ (lbaOf p) = .ok (d₂, rc)) :
    writeLoop u blockIni blockOffset buf x buffer d =
      writeLoop u (blockIni + 1)
      (if sizeT (4096 - blockOffset) < buf.length then 0 else blockOffset)
        (buf.drop (sizeT (4096 - blockOffset))) x₁ buffer₁ d₂ := by
  rw [writeLoop, if_neg hne]
  simp only [ha]
  split
  · rename_i e he
    rw [hp] at he
    cases he
  · rename_i q hq
    rw [hp] at hq
    obtain rfl := Except.ok.inj hq
    simp only [hm, hw]

/-- The loop ends when there is nothing left to write. -/
theorem writeLoop_nil (u : Stack) (blockIni : ℤ) (blockOffset : ℕ) (x : Inode) (buffer : Block)
    (d : Disk) : writeLoop u blockIni blockOffset [] x buffer d = .ok (x, d) := by
  rw [writeLoop, if_pos rfl]

/-- The loop stops where a block cannot be written to. -/
theorem writeLoop_error {u : Stack} {blockIni : ℤ} {blockOffset : ℕ} {buf : List UInt8}
    {x x₁ : Inode} (buffer : Block) {buffer₁ : Block} {d d₁ : Disk} {p : UInt32} {e : Fault}
    (hne : buf ≠ [])
    (ha : writeAlloc u blockIni x d = .ok (x₁, d₁)) (hp : x₁.ptrAt blockIni = .ok p)
    (hm : memcpy (blockRead d₁ buffer (lbaOf p)).1 blockOffset
      (buf.take (sizeT (4096 - blockOffset))) = .ok buffer₁)
    (hw : blockWrite d₁ buffer₁ (lbaOf p) = .error e) :
    writeLoop u blockIni blockOffset buf x buffer d = .error e := by
  rw [writeLoop, if_neg hne]
  simp only [ha]
  split
  · rename_i e he
    rw [hp] at he
    cases he
  · rename_i q hq
    rw [hp] at hq
    obtain rfl := Except.ok.inj hq
    simp only [hm, hw]

/-- Two writes in a row are one write of both pieces. -/
theorem Written.trans {x x₁ x₂ : Inode} {m start : ℕ} {c₁ c₂ : List UInt8} {bs₁ bs₂ : List ℕ}
    {d₁ d₂ : Disk} (h₁ : Written d x m start c₁ bs₁ d₁ x₁)
    (h₂ : Written d₁ x₁ (m + bs₁.length) (start + c₁.length) c₂ bs₂ d₂ x₂) :
    Written d x m start (c₁ ++ c₂) (bs₁ ++ bs₂) d₂ x₂ := by
  have hcov := h₁.cover
  refine ⟨?_, ?_, ?_, ?_, ?_, ?_, ?_, ?_, ?_, ?_⟩
  · rw [← h₁.header, ← h₂.header]
  · intro k hk
    rw [h₂.ptr_old k (by omega), h₁.ptr_old k hk]
  -- The new blocks are numbered on from those of the first write.
  · intro j hj
    rw [List.length_append] at hj
    by_cases hj1 : j < bs₁.length
    · rw [List.getElem?_append_left hj1, h₁.ptr_new j hj1, h₂.ptr_old _ (by omega)]
    · rw [List.getElem?_append_right (by omega), h₂.ptr_new _ (by omega)]
      congr 2
      omega
  · rw [h₂.handed, h₁.handed, List.reverse_append, List.append_assoc]
  · refine ⟨h₁.grows.le.trans h₂.grows.le, fun n hn hall => ?_⟩
    rw [List.forall_mem_append] at hall
    exact h₂.grows.bound n (h₁.grows.bound n hn hall.1) hall.2
  · intro b hb
    have hn := h₂.grows.le
    rcases List.mem_append.mp hb with hb | hb
    · have := h₁.lt b hb
      omega
    · exact h₂.lt b hb
  · have := h₂.cover
    simp only [List.length_append]
    omega
  · intro j hj hj1 hne
    rw [List.length_append] at hne
    have hn := h₁.grows.le
    rw [h₂.keep j (by omega) hj1 fun k hk => hne k (by omega)]
    refine h₁.keep j hj hj1 fun k hk => ?_
    rw [← h₂.ptr_old k hk]
    exact hne k (by omega)
  · intro i hi hi'
    rw [List.length_append] at hi'
    by_cases hc : i < start + c₁.length
    · rw [List.getElem?_append_left (by omega), h₁.bytes_in i hi hc, h₂.bytes_out i (by omega)
        (.inl hc)]
    · rw [List.getElem?_append_right (by omega), ← h₂.bytes_in i (by omega) (by omega)]
      congr 1
      omega
  · intro i hi hout
    rw [List.length_append] at hout
    rw [h₂.bytes_out i (by omega) (by omega), h₁.bytes_out i hi (by omega)]

/-- A pass over a block that the file already has. -/
theorem Ptrs.overwrite {x : Inode} {m : ℕ} (hP : Ptrs d x m) {bi bo : ℕ}
    (hbi : bi < m) {chunk : List UInt8} (hfit : bo + chunk.length ≤ 4096) (hd' : d' =
      d.write (x.ptr bi) ((d.blk (x.ptr bi)).blit bo chunk)) :
    Written d x m (4096 * bi + bo) chunk [] d' x ∧ Ptrs d' x m ∧ d'.blk 1 = d.blk 1 := by
  obtain ⟨hp2, hp', hpn⟩ := hP.range bi hbi
  -- Only the block of pointer `bi` changes.
  have hblk : ∀ j, d'.blk j =
      if j = x.ptr bi then (d.blk (x.ptr bi)).blit bo chunk else d.blk j := by
    intro j
    rw [hd', Disk.write_blk_of_lt _ _ _ hpn]
  have hn : d'.nblks = d.nblks := by rw [hd', Disk.write_nblks_of_lt _ _ _ hpn]
  have hb1 : d'.blk 1 = d.blk 1 := by rw [hblk, if_neg (by omega)]
  refine ⟨⟨rfl,
    fun _ _ => rfl, by simp, by rw [hd']; rfl, .of_eq [] hn, by simp, by simp; omega, ?_, ?_, ?_⟩,
      ⟨hP.le, by rw [hn]; exact hP.range, by rw [hb1]; exact hP.marked, hP.inj⟩, hb1⟩
  · intro j _ _ hne
    rw [hblk, if_neg (hne bi (by simpa using hbi))]
  · intro i hi hi'
    have hdiv : i / 4096 = bi := by omega
    have hmod : i % 4096 = bo + (i - (4096 * bi + bo)) := by omega
    rw [hdiv, hblk, if_pos rfl, hmod, Bytes.get_blit_inside _ _ _ (by omega) (by omega)]
    exact List.getElem?_eq_getElem _
  · intro i hi hout
    rw [hblk]
    -- Pointers are distinct, so another byte of the file lies in another block or outside the
    -- chunk.
    split_ifs with h
    · have hdiv := hP.inj _ hi bi hbi h
      rw [← h, Bytes.get_blit_outside _ _ _ (by omega)]
    · rfl

/-- A pass over a block that is taken from the allocator. -/
theorem Ptrs.extend {x : Inode} {m : ℕ} (h1 : 1 < d.nblks) (hP : Ptrs d x m) (hm : m < 1019) {b : ℕ}
    (hb : firstClear (d.blk 1) = some b) (buffer : Block) {bo : ℕ} {chunk : List UInt8}
    (hfit : bo + chunk.length ≤ 4096) (hd' : d' = (d.alloc b).write b (buffer.blit bo chunk)) :
    Written d x m (4096 * m + bo) chunk [b] d' (x.withPtr m (UInt32.ofInt b)) ∧
      Ptrs d' (x.withPtr m (UInt32.ofInt b)) (m + 1) ∧ d'.blk 1 = bitSet (d.blk 1) b := by
  obtain ⟨hclear, hb3, hb', -⟩ := firstClear_eq_some.mp hb
  have hptr : ∀ k, (x.withPtr m (UInt32.ofInt b)).ptr k = if k = m then b else x.ptr k := by
    intro k
    rw [Inode.ptr_withPtr _ _ hm, toNat_ofInt_u32 hb']
  -- The blocks of the file are marked, so the free block is none of them.
  have hne : ∀ k < m, x.ptr k ≠ b := by
    intro k hk h
    have := hP.marked k hk
    rw [h, hclear] at this
    cases this
  have hn : (d.alloc b).nblks = d.nblks := alloc_nblks h1 b
  have hbb : d'.blk b = buffer.blit bo chunk := by rw [hd', Disk.write_blk_self]
  have hblk : ∀ j < d.nblks, j ≠ b → d'.blk j = if j = 1 then bitSet (d.blk 1) b else d.blk j := by
    intro j hj hjb
    rw [hd', Disk.write_blk_of_ne _ _ _ hjb (by omega), alloc_blk h1]
  have hb1 : d'.blk 1 = bitSet (d.blk 1) b := by rw [hblk 1 h1 (by omega), if_pos rfl]
  have hle : d.nblks ≤ d'.nblks ∧ b < d'.nblks := by rw [hd']; simp [hn]
  have hgrows : d.Grows d' [b] := by
    refine ⟨hle.1, fun n hle hlt => ?_⟩
    have hbn := hlt b (by simp)
    rw [hd', Disk.write_nblks, hn]
    omega
  refine ⟨⟨rfl, ?_, ?_, by rw [hd']; rfl, hgrows, by simpa using hle.2, by simp; omega, ?_, ?_, ?_⟩,
    ⟨by omega, ?_, ?_, ?_⟩, hb1⟩
  · intro k hk
    rw [hptr, if_neg (by omega)]
  · intro j hj
    have hj0 : j = 0 := by simpa using hj
    rw [hptr, hj0, if_pos (by omega)]
    rfl
  · intro j hj hj1 hall
    have hjb := hall m (by simp)
    rw [hptr, if_pos rfl] at hjb
    rw [hblk j hj hjb, if_neg hj1]
  · intro i hi hi'
    have hdiv : i / 4096 = m := by omega
    have hmod : i % 4096 = bo + (i - (4096 * m + bo)) := by omega
    rw [hdiv, hptr, if_pos rfl, hbb, hmod, Bytes.get_blit_inside _ _ _ (by omega) (by omega)]
    exact List.getElem?_eq_getElem _
  · intro i hi _
    obtain ⟨hr2, -, hrn⟩ := hP.range _ hi
    rw [hptr, if_neg (by omega), hblk _ hrn (hne _ hi), if_neg (by omega)]
  · intro k hk
    rw [hptr]
    split_ifs with h
    · exact ⟨by omega, hb', hle.2⟩
    · obtain ⟨hr2, hr', hrn⟩ := hP.range k (by omega)
      exact ⟨hr2, hr', by omega⟩
  · intro k hk
    rw [hptr, hb1, bit_bitSet _ hb']
    split_ifs with h
    · simp
    · simp [hP.marked k (by omega)]
  · intro k hk k' hk' h
    rw [hptr, hptr] at h
    split_ifs at h with h1 h2 h2
    · omega
    · exact absurd h.symm (hne k' (by omega))
    · exact absurd h (hne k (by omega))
    · exact hP.inj k (by omega) k' (by omega) h

/-- A number that is not negative is the same as a `size_t`. -/
theorem sizeT_of_nonneg {n : ℤ} (h0 : 0 ≤ n) (h : n < 2^64) : (sizeT n : ℤ) = n := by
  unfold sizeT
  omega

/-- One pass of the loop: it fails in the allocator, or it writes one piece of the data and goes on
with the rest. -/
theorem writeLoop_pass (u : Stack) {n₀ bi bo : ℕ} {data : List UInt8} {x : Inode} (buffer : Block)
    (hn₀ : sizeT (divRoundUp x.size).toInt = n₀) (h1 : 1 < d.nblks) (hP : Ptrs d x (max n₀ bi))
    (hbo : bo < 4096) (hne : data ≠ []) (hbi : bi < 1019) :
    (n₀ ≤ bi ∧ firstClear (d.blk 1) = none ∧
      writeLoop u bi bo data x buffer d = .error .assertion) ∨
    ∃ bs d₁ x₁, Written d x (max n₀ bi) (4096 * bi + bo) (data.take (4096 - bo)) bs d₁ x₁ ∧
      Ptrs d₁ x₁ (max n₀ (bi + 1)) ∧ max n₀ bi + bs.length = max n₀ (bi + 1) ∧
      allocN bs.length (d.blk 1) = some (bs, d₁.blk 1) ∧
      ∃ buffer₁, writeLoop u bi bo data x buffer d =
        writeLoop u (bi + 1 : ℕ) (if 4096 - bo < data.length then 0 else bo)
          (data.drop (4096 - bo)) x₁ buffer₁ d₁ := by
  -- The pass copies up to the end of the block.
  have hroom : sizeT (4096 - (bo : ℤ)) = 4096 - bo := by
    have := sizeT_of_nonneg (n := 4096 - (bo : ℤ)) (by omega) (by omega)
    omega
  have hcopy : ∀ b : Block, memcpy b bo (data.take (sizeT (4096 - bo))) =
      .ok (b.blit bo (data.take (4096 - bo))) := by
    intro b
    rw [hroom, memcpy, if_pos (by rw [List.length_take]; omega)]
  have hfit : bo + (data.take (4096 - bo)).length ≤ 4096 := by
    rw [List.length_take]
    omega
  rcases Nat.lt_or_ge bi n₀ with hlt | hge
  · -- The file has the block already.
    have hmax : max n₀ bi = n₀ := by omega
    have hmax' : max n₀ (bi + 1) = n₀ := by omega
    rw [hmax] at hP
    obtain ⟨hp2, hp', hpn⟩ := hP.range bi hlt
    obtain ⟨hWr, hP', hb1⟩ := hP.overwrite hlt hfit rfl
    have ha : writeAlloc u bi x d = .ok (x, d) := by
      rw [writeAlloc, hn₀, if_neg (by omega)]
    have hstep := writeLoop_step buffer hne ha (x.ptrAt_eq hbi) (hcopy _)
      (by
        rw [lbaOf_ofNat hp', blockRead_of_lt d _ hp' hpn]
        exact blockWrite_of_lt d _ (by omega) hp')
    rw [hroom] at hstep
    exact .inr ⟨[], _, x, by rw [hmax]; exact hWr, by rw [hmax']; exact hP', by simp [hmax, hmax'],
      by rw [hb1]; rfl, _, hstep⟩
  · -- The block is new, and the pointers so far are those in front of it.
    have hmax : max n₀ bi = bi := by omega
    have hmax' : max n₀ (bi + 1) = bi + 1 := by omega
    have ha : writeAlloc u bi x d = (do
        let alloc ← allocBlk u d
        let x ← x.setPtrAt bi (UInt32.ofInt alloc.1)
        .ok (x, alloc.2)) := by
      rw [writeAlloc, hn₀, if_pos (by omega)]
    rw [allocBlk_eq u h1] at ha
    cases hb : firstClear (d.blk 1) with
    | none =>
      refine .inl ⟨hge, rfl, ?_⟩
      rw [hb] at ha
      simp only [ok_bind, x.setPtrAt_eq _ hbi] at ha
      have hptr : (x.withPtr bi (UInt32.ofInt (-ENOSPC))).ptrAt bi =
          .ok (UInt32.ofInt (-ENOSPC)) := by
        rw [Inode.ptrAt_eq _ hbi, Inode.ptr_withPtr _ _ hbi, if_pos rfl, UInt32.ofNat_toNat]
      refine writeLoop_error buffer hne ha hptr (hcopy _) ?_
      rw [blockWrite, if_pos (by decide)]
    | some b =>
      obtain ⟨-, hb3, hb', -⟩ := firstClear_eq_some.mp hb
      rw [hb] at ha
      simp only [ok_bind, x.setPtrAt_eq _ hbi] at ha
      have hptr : (x.withPtr bi (UInt32.ofInt b)).ptrAt bi = .ok (UInt32.ofNat b) := by
        rw [Inode.ptrAt_eq _ hbi, Inode.ptr_withPtr _ _ hbi, if_pos rfl, toNat_ofInt_u32 hb']
      rw [hmax] at hP
      obtain ⟨hWr, hP', hb1⟩ :=
        hP.extend h1 hbi hb (blockRead (d.alloc b) buffer b).1 hfit rfl
      have hstep := writeLoop_step buffer hne ha hptr (hcopy _)
        (by
          rw [lbaOf_ofNat hb']
          exact blockWrite_of_lt (d.alloc b) _ (by omega) hb')
      rw [hroom] at hstep
      exact .inr ⟨[b], _, _, by rw [hmax]; exact hWr, by rw [hmax']; exact hP',
        by simp [hmax, hmax'], by rw [hb1]; simp [allocN, hb], _, hstep⟩

/-- The loop of `fs_write`: it fails when the allocator runs dry, and otherwise it has written the
data. -/
theorem writeLoop_spec (u : Stack) (n₀ : ℕ) : ∀ (N : ℕ) (data : List UInt8) (bi bo : ℕ) (x : Inode)
    (buffer : Block) (d : Disk), data.length = N → sizeT (divRoundUp x.size).toInt = n₀ →
    1 < d.nblks → Ptrs d x (max n₀ bi) → bo < 4096 → data ≠ [] →
    4096 * bi + bo + data.length ≤ 1019 * 4096 →
    (allocN ((4096 * bi + bo + data.length + 4095) / 4096 - max n₀ bi) (d.blk 1) = none ∧
      writeLoop u bi bo data x buffer d = .error .assertion) ∨
    ∃ bs d' x', allocN ((4096 * bi + bo + data.length + 4095) / 4096 - max n₀ bi) (d.blk 1) =
        some (bs, d'.blk 1) ∧
      Written d x (max n₀ bi) (4096 * bi + bo) data bs d' x' ∧
      Ptrs d' x' (max n₀ bi + bs.length) ∧ writeLoop u bi bo data x buffer d = .ok (x', d') := by
  intro N
  -- The rest of the data after one pass is shorter.
  induction N using Nat.strong_induction_on with
  | _ N ih =>
    intro data bi bo x buffer d hN hn₀ h1 hP hbo hne hend
    have hpos := List.length_pos_iff.mpr hne
    obtain ⟨hge, hfull, herr⟩ | ⟨bs, d₁, x₁, hWr, hP₁, hm, halloc, buffer₁, hrun⟩ :=
      writeLoop_pass u buffer hn₀ h1 hP hbo hne (by omega)
    · refine .inl ⟨?_, herr⟩
      obtain ⟨k, hk⟩ : ∃ k, (4096 * bi + bo + data.length + 4095) / 4096 - max n₀ bi = k + 1 :=
        ⟨(4096 * bi + bo + data.length + 4095) / 4096 - max n₀ bi - 1, by omega⟩
      rw [hk, allocN, hfull]
      rfl
    · by_cases hlast : data.length ≤ 4096 - bo
      · -- The last pass.
        have htake : data.take (4096 - bo) = data := List.take_of_length_le hlast
        have hneed : (4096 * bi + bo + data.length + 4095) / 4096 - max n₀ bi =
          bs.length := by omega
        rw [htake] at hWr
        rw [List.drop_eq_nil_of_le hlast, writeLoop_nil] at hrun
        rw [hneed]
        exact .inr ⟨bs, d₁, x₁, halloc, hWr, by rw [hm]; exact hP₁, hrun⟩
      · have hlen : (data.drop (4096 - bo)).length = data.length - (4096 - bo) := List.length_drop
        have htlen : (data.take (4096 - bo)).length = 4096 - bo := by
          rw [List.length_take]
          omega
        have hsize : x₁.size = x.size := by rw [← hWr.header]
        have hstart : 4096 * bi + bo + (data.take (4096 - bo)).length = 4096 * (bi + 1) + 0 := by
          omega
        have hneed : (4096 * bi + bo + data.length + 4095) / 4096 - max n₀ bi = bs.length +
            ((4096 * (bi + 1) + 0 + (data.drop (4096 - bo)).length + 4095) / 4096 -
              max n₀ (bi + 1)) := by omega
        have hrest := ih _ (by omega) (data.drop (4096 - bo)) (bi + 1) 0 x₁ buffer₁ d₁ rfl
          (by rw [hsize]; exact hn₀) (by have := hWr.grows.le; omega) hP₁ (by omega)
          (by rw [← List.length_pos_iff]; omega) (by omega)
        rw [if_pos (by omega)] at hrun
        rw [hneed, allocN_add, halloc]
        simp only [Option.bind_eq_bind, Option.bind_some]
        rcases hrest with ⟨hnone, herr⟩ | ⟨bs', d', x', hsome, hWr', hP', hok⟩
        · exact .inl ⟨by rw [hnone]; rfl, hrun.trans herr⟩
        · refine .inr ⟨bs ++ bs', d', x', by rw [hsome]; rfl, ?_, ?_, hrun.trans hok⟩
          · rw [← hm, ← hstart] at hWr'
            have := hWr.trans hWr'
            rwa [List.take_append_drop] at this
          · rw [List.length_append, ← Nat.add_assoc, hm]
            exact hP'

/-! ## What a write leaves on the disk -/

/-- Writing nothing. -/
theorem Written.refl (d : Disk) (x : Inode) {m start : ℕ} (h : start ≤ 4096 * m) :
    Written d x m start [] [] d x where
  header := rfl
  ptr_old _ _ := rfl
  ptr_new _ hj := absurd hj (by simp)
  handed := rfl
  grows := .of_eq [] rfl
  lt _ hb := absurd hb (by simp)
  cover := by simpa using h
  keep _ _ _ _ := rfl
  bytes_in i h1 h2 := absurd h2 (by simpa using h1)
  bytes_out _ _ _ := rfl

/-- The contents have the size of the inode. -/
theorem length_contents (d : Disk) (x : Inode) : (contents d x).length = x.size.toInt.toNat := by
  simp [contents]

/-- A byte of the contents is in the block for its offset. -/
theorem getElem?_contents (d : Disk) (x : Inode) {j : ℕ} (h : j < x.size.toInt.toNat) :
    (contents d x)[j]? = some ((d.blk (x.ptr (j / 4096))).get (j % 4096)) := by
  rw [contents, List.getElem?_map, List.getElem?_range h]
  rfl

/-- A file is as long as what is written makes it. -/
theorem length_splice {c : List UInt8} (bytes : List UInt8) {offset : ℕ} (h : offset ≤ c.length) :
    (View.splice c offset bytes).length = max c.length (offset + bytes.length) := by
  simp only [View.splice, List.length_append, List.length_take, List.length_drop]
  omega

/-- The bytes of a file after a write. -/
theorem getElem?_splice {old bytes : List UInt8} {offset : ℕ} (h : offset ≤ old.length) (j : ℕ) :
    (View.splice old offset bytes)[j]? =
      if offset ≤ j ∧ j < offset + bytes.length then bytes[j - offset]? else old[j]? := by
  have htake : (old.take offset).length = offset := by rw [List.length_take]; omega
  rw [View.splice, List.append_assoc]
  split_ifs with hj
  · rw [List.getElem?_append_right (by omega), htake, List.getElem?_append_left (by omega)]
  · by_cases hlt : j < offset
    · rw [List.getElem?_append_left (by omega), List.getElem?_take_of_lt hlt]
    · rw [List.getElem?_append_right (by omega), htake, List.getElem?_append_right (by omega),
        List.getElem?_drop]
      congr 1
      omega

section

variable (hW : WellFormed d) {p : Path} {i : ℕ} (hp : resolve d p = some i)
  (hfile : (inodeAt d i).isDir = false)
include hW hp hfile

/-- The pointers of a file that are in use. -/
theorem WellFormed.ptrs : Ptrs d (inodeAt d i) (inodeAt d i).nblocks := by
  have hT := hW.toTree
  refine ⟨hT.nblocks_le hp hfile, fun k hk => hT.fileData_range hp hfile hk, ?_, ?_⟩
  · intro k hk
    have hlive := Tree.fileData_live hp hfile hk
    exact (hW.exact _ (hT.fileData_range hp hfile hk).2.1).mpr (.inr (.inr ⟨_, hlive⟩))
  · intro k hk k' hk' h
    have := hT.inj (.fileData p k) (.fileData p k') _ (Tree.fileData_live hp hfile hk)
      (by rw [Tree.fileData_live hp hfile hk', h])
    simpa using this

variable {off : ℕ} {data : List UInt8} {bs : List ℕ} {d₁ : Disk} {x₁ : Inode} {need : ℕ}
  (hoff : off ≤ (contents d (inodeAt d i)).length)
  (hend : off + data.length ≤ 1019 * 4096)
  (halloc : allocN need (d.blk 1) = some (bs, d₁.blk 1))
  (hWr : Written d (inodeAt d i) (inodeAt d i).nblocks off data bs d₁ x₁)
  (hP : Ptrs d₁ x₁ ((inodeAt d i).nblocks + bs.length))
  (hneed : need = View.blocksNeeded (contents d (inodeAt d i)).length (off + data.length))
include hoff hend halloc hWr hP hneed

/-- The disk that `fs_write` leaves once it has written the inode back. -/
theorem WellFormed.wrote (mtime : UInt32) {size : Int32}
    (hsize : size = Int32.ofInt (View.splice (contents d (inodeAt d i)) off data).length)
    (hd' : d' = d₁.write i { x₁ with size := size, mtime := mtime }.toBlock) :
    WellFormed d' ∧ view d' =
      { view d with
        bitmap := d₁.blk 1
        nodes := Function.update (liveNode d) p (some { nodeView d i with
          size := size
          ptrs := (nodeView d i).ptrs ++ bs
          mtime := mtime
          body := .file (View.splice (contents d (inodeAt d i)) off data) }) } := by
  have hT := hW.toTree
  obtain ⟨hi2, hi', hin⟩ := hT.inode_range hp
  obtain ⟨hlen, hnd, hfree, hbit⟩ := allocN_spec need halloc
  have hx := inodeAt_write d₁ i { x₁ with size := size, mtime := mtime }
  rw [← hd'] at hx
  have hn₀ := hT.nblocks_eq hp hfile
  have hs := hT.file_size hp hfile
  rw [length_contents] at hoff hneed
  -- The new size, and the number of blocks that it spans.
  have hslen := length_splice data (hoff.trans_eq (length_contents d (inodeAt d i)).symm)
  rw [length_contents] at hslen
  have hsz : size.toInt = max (inodeAt d i).size.toInt.toNat (off + data.length) := by
    rw [hsize, hslen, Int32.toInt_ofInt, show Int32.size = 4294967296 from rfl]
    exact Int.bmod_eq_of_le (by omega) (by omega)
  have hsz' : (inodeAt d' i).size.toInt = size.toInt := by rw [hx]
  have hn : (inodeAt d' i).nblocks = (inodeAt d i).nblocks + bs.length := by
    rw [Inode.nblocks_eq (by omega) (by omega), hsz', hsz, hlen, hneed, View.blocksNeeded]
    omega
  have hptr : ∀ k, (inodeAt d' i).ptr k = x₁.ptr k := by
    intro k
    rw [hx]
    rfl
  have hfile' : (inodeAt d' i).isDir = false := by
    rw [hx]
    have hmode : x₁.mode = (inodeAt d i).mode := by rw [← hWr.header]
    simpa [Inode.isDir, hmode] using hfile
  have hmarki : bit (d.blk 1) i = true := (hW.exact i hi').mpr (.inr (.inr ⟨.inode p, hp⟩))
  have hlive := fun k (hk : k < (inodeAt d i).nblocks) => Tree.fileData_live hp hfile hk
  have hnew : ∀ j < bs.length, x₁.ptr ((inodeAt d i).nblocks + j) ∈ bs := fun j hj =>
    List.mem_of_getElem? (hWr.ptr_new j hj)
  -- None of the file's blocks is its inode.
  have hne : ∀ k < (inodeAt d i).nblocks + bs.length, x₁.ptr k ≠ i := by
    intro k hk h
    by_cases hk' : k < (inodeAt d i).nblocks
    · rw [hWr.ptr_old k hk'] at h
      cases hT.inj (.fileData p k) (.inode p) i (by rw [hlive k hk', h]) hp
    · have hmem := hnew (k - (inodeAt d i).nblocks) (by omega)
      rw [show (inodeAt d i).nblocks + (k - (inodeAt d i).nblocks) = k by omega, h] at hmem
      rw [(hfree i hmem).2.2] at hmarki
      cases hmarki
  have hin₁ : i < d₁.nblks := by have := hWr.grows.le; omega
  have hblk : ∀ j, j ≠ i → d'.blk j = d₁.blk j := by
    intro j hj
    rw [hd', Disk.write_blk_of_lt _ _ _ hin₁, if_neg hj]
  have hnblks : d₁.nblks ≤ d'.nblks := by rw [hd']; simp
  -- The blocks of the other paths are neither among the old pointers nor among the new ones.
  have e : InodeEdit d d' p i := by
    refine ⟨hp, by rw [hfile', hfile], by simp [hfile], ?_⟩
    intro k b hk hkp
    obtain ⟨hb2, hb', hbn⟩ := hT.range k b hk
    have hbi : b ≠ i := by
      rintro rfl
      exact hkp (by rw [hT.inj k (.inode p) b hk hp]; rfl)
    rw [hblk b hbi]
    refine hWr.keep b hbn (by omega) ?_
    rintro m hm rfl
    by_cases hm' : m < (inodeAt d i).nblocks
    · rw [hWr.ptr_old m hm'] at hk
      exact hkp (by rw [hT.inj k (.fileData p m) _ hk (hlive m hm')]; rfl)
    · have hmem := hnew (m - (inodeAt d i).nblocks) (by omega)
      rw [show (inodeAt d i).nblocks + (m - (inodeAt d i).nblocks) = m by omega] at hmem
      have hfalse := (hfree _ hmem).2.2
      rw [(hW.exact _ hb').mpr (.inr (.inr ⟨k, hk⟩))] at hfalse
      cases hfalse
  have hptrs : (nodeView d' i).ptrs = (nodeView d i).ptrs ++ bs := by
    apply List.ext_getElem?
    intro j
    simp only [nodeView, hn, List.getElem?_map]
    by_cases hj : j < (inodeAt d i).nblocks
    · rw [List.getElem?_append_left (by simpa using hj), List.getElem?_range (by omega),
        List.getElem?_map, List.getElem?_range hj]
      simp [hptr, hWr.ptr_old j hj]
    · rw [List.getElem?_append_right (by simpa using hj)]
      simp only [List.length_map, List.length_range]
      by_cases hj' : j < (inodeAt d i).nblocks + bs.length
      · rw [hWr.ptr_new _ (by omega), List.getElem?_range hj', Option.map_some, hptr,
          show (inodeAt d i).nblocks + (j - (inodeAt d i).nblocks) = j by omega]
      · rw [List.getElem?_eq_none (by simp; omega), List.getElem?_eq_none (by omega)]
        rfl
  have hcontents : contents d' (inodeAt d' i) =
      View.splice (contents d (inodeAt d i)) off data := by
    apply List.ext_getElem?
    intro j
    rw [getElem?_splice (by rw [length_contents]; omega)]
    by_cases hj : j < (inodeAt d' i).size.toInt.toNat
    · have hk : j / 4096 < (inodeAt d i).nblocks + bs.length := by
        rw [← hn, Inode.nblocks_eq (by omega) (by omega)]
        omega
      rw [getElem?_contents d' _ hj, hptr, hblk _ (hne _ hk)]
      split_ifs with hin
      · exact (hWr.bytes_in j hin.1 hin.2).symm
      · have hjc : j < (inodeAt d i).size.toInt.toNat := by omega
        rw [getElem?_contents d _ hjc, hWr.bytes_out j (by omega) (by omega)]
    · rw [List.getElem?_eq_none (by rw [length_contents]; omega), if_neg (by omega),
        List.getElem?_eq_none (by rw [length_contents]; omega)]
  have hview : nodeView d' i = { nodeView d i with
      size := size, ptrs := (nodeView d i).ptrs ++ bs, mtime := mtime
      body := .file (View.splice (contents d (inodeAt d i)) off data) } := by
    have hbody : bodyOf d' (inodeAt d' i) =
        .file (View.splice (contents d (inodeAt d i)) off data) := by
      rw [bodyOf, if_neg (by simp [hfile']), hcontents]
    rw [← hptrs]
    simp only [nodeView, hbody]
    rw [hx, ← hWr.header]
  refine ⟨e.wellFormed hT hW (hWr.grows.le.trans hnblks) ?_ ?_ ?_ ?_,
    View.ext ?_ (hblk 1 (by omega)) ?_⟩
  · rw [NodeOk, if_neg (by simp [hfile']), hsz']
    omega
  · rw [hptrs]
    have hold := hT.nodup_blocksAt p
    simp only [blocksAt, hp, List.nodup_cons] at hold
    rw [List.nodup_cons, List.mem_append, not_or]
    refine ⟨⟨hold.1, fun hmem => ?_⟩, hold.2.append hnd ?_⟩
    · rw [(hfree i hmem).2.2] at hmarki
      cases hmarki
    · intro b hb hb'
      have := (hW.block_spec hp (List.mem_cons_of_mem _ hb)).2.1
      rw [(hfree b hb').2.2] at this
      cases this
  · rw [hptrs]
    intro b hb
    rcases List.mem_append.mp hb with hb | hb
    · have := (hW.block_spec hp (List.mem_cons_of_mem _ hb)).1
      have := hWr.grows.le
      exact ⟨by omega, .inl hb⟩
    · obtain ⟨hb3, hb', hclear⟩ := hfree b hb
      have := hWr.lt b hb
      exact ⟨by omega, .inr hclear⟩
  · intro j hj
    rw [hblk 1 (by omega), hbit, hptrs]
    have hmark : j ∈ (nodeView d i).ptrs → bit (d.blk 1) j = true := fun hb =>
      (hW.block_spec hp (List.mem_cons_of_mem _ hb)).2.1
    by_cases hj : j ∈ (nodeView d i).ptrs
    · simp [hj, hmark hj]
    · simp [hj, or_comm]
  · rw [view_super, hblk 0 (by omega)]
    refine hWr.keep 0 (by omega) (by omega) fun k hk => ?_
    have := hP.range k hk
    omega
  · funext q
    rw [view_nodes, e.liveNode_eq hT, hview]
    simp only [Function.update_apply]

end

/-! ## The operation -/

/-- The loop of `fs_write` on a file, from an offset inside it. -/
theorem writeLoop_file (hW : WellFormed d) {p : Path} {i : ℕ} (hp : resolve d p = some i)
    (hfile : (inodeAt d i).isDir = false) (u : Stack) (data : List UInt8) (off : ℕ)
    (hoff : off ≤ (inodeAt d i).size.toInt.toNat) (hend : off + data.length ≤ 1019 * 4096)
    (buffer : Block) :
    (allocN (View.blocksNeeded (contents d (inodeAt d i)).length (off + data.length))
      (d.blk 1) = none ∧
      writeLoop u (off / 4096 : ℕ) (off % 4096) data (inodeAt d i) buffer d = .error .assertion) ∨
    ∃ bs d₁ x₁, allocN (View.blocksNeeded (contents d (inodeAt d i)).length (off + data.length))
        (d.blk 1) = some (bs, d₁.blk 1) ∧
      Written d (inodeAt d i) (inodeAt d i).nblocks off data bs d₁ x₁ ∧
      Ptrs d₁ x₁ ((inodeAt d i).nblocks + bs.length) ∧
      writeLoop u (off / 4096 : ℕ) (off % 4096) data (inodeAt d i) buffer d = .ok (x₁, d₁) := by
  have hT := hW.toTree
  have hs := hT.file_size hp hfile
  have hn := hT.nblocks_eq hp hfile
  have hP := hW.ptrs hp hfile
  have hmax : max (inodeAt d i).nblocks (off / 4096) = (inodeAt d i).nblocks := by omega
  have hstart : 4096 * (off / 4096) + off % 4096 = off := by omega
  rw [View.blocksNeeded, length_contents, ← hn]
  -- Nothing to write is no pass; else the passes of `writeLoop_spec`.
  by_cases hne : data = []
  · subst hne
    refine .inr ⟨[], d, inodeAt d i, ?_, Written.refl d _ (by omega), by simpa using hP,
      writeLoop_nil _ _ _ _ _ _⟩
    rw [show (off + ([] : List UInt8).length + 4095) / 4096 - (inodeAt d i).nblocks = 0 by
      simp only [List.length_nil]
      omega]
    rfl
  · have hn₀ : sizeT (divRoundUp (inodeAt d i).size).toInt = (inodeAt d i).nblocks := by
      have hdru := divRoundUp_toInt hs.1 hs.2
      rw [sizeT, hdru]
      omega
    have h := writeLoop_spec u (inodeAt d i).nblocks _ data (off / 4096) (off % 4096) (inodeAt d i)
      buffer d rfl hn₀ hT.one_lt (by rw [hmax]; exact hP) (by omega) hne (by omega)
    rwa [hmax, hstart] at h

/-- The size of a file is set when the data ends behind it. -/
theorem size_max {x : Int32} {a b : ℕ} (hx : x.toInt = a) (ha : a < 2^31) (hb : b < 2^31) :
    (if sizeT x.toInt < sizeT (b : ℕ) then Int32.ofInt (b : ℕ) else x) =
      Int32.ofInt (max a b : ℕ) := by
  rw [hx, sizeT, sizeT]
  by_cases h : a < b
  · rw [if_pos (by omega), Nat.max_eq_right (by omega)]
  · rw [if_neg (by omega), Nat.max_eq_left (by omega), ← hx, Int32.ofInt_toInt]

/-- A negative offset makes the loop run off the inode's array or off the block buffer. -/
theorem writeLoop_neg (u : Stack) {offset : ℤ} (h : offset < 0) (hmin : -2^63 ≤ offset)
    {data : List UInt8} (hne : data ≠ []) (x : Inode)
    (hn₀ : sizeT (divRoundUp x.size).toInt ≤ 1019) (buffer : Block) (h1 : 1 < d.nblks) :
    writeLoop u (sizeT (offset.tdiv 4096)) (sizeT (offset.tmod 4096)) data x buffer d =
      .error .outOfRange := by
  have halloc : ∃ a, allocBlk u d = .ok a := by
    rw [allocBlk_eq u h1]
    cases firstClear (d.blk 1) <;> exact ⟨_, rfl⟩
  obtain ⟨a, ha⟩ := halloc
  -- Division in C rounds towards 0.
  have hq : offset.tdiv 4096 = -(-offset / 4096) := by
    have hneg := Int.neg_tdiv (-offset) 4096
    rw [neg_neg] at hneg
    rw [hneg, Int.tdiv_eq_ediv_of_nonneg (by omega)]
  have hr : offset.tmod 4096 = offset - 4096 * offset.tdiv 4096 := Int.tmod_def offset 4096
  rw [writeLoop, if_neg hne]
  by_cases hsmall : -4096 < offset
  · -- Block 0, at a position far behind its end.
    have hdiv : sizeT (offset.tdiv 4096) = 0 := by
      rw [show offset.tdiv 4096 = 0 by omega]
      rfl
    have hmod : 4096 < sizeT (offset.tmod 4096) := by
      unfold sizeT
      omega
    obtain ⟨x₁, d₁, hx₁⟩ : ∃ x₁ d₁, writeAlloc u (0 : ℕ) x d = .ok (x₁, d₁) := by
      unfold writeAlloc
      split_ifs
      · exact ⟨_, _, by rw [ha, ok_bind, x.setPtrAt_eq _ (by omega), ok_bind]⟩
      · exact ⟨_, _, rfl⟩
    have hcopy : ∀ b : Block, ∀ l, memcpy b (sizeT (offset.tmod 4096)) l = .error .outOfRange := by
      intro b l
      rw [memcpy, if_neg (by omega)]
    simp only [hdiv, hx₁, hcopy]
    split
    · rename_i e he
      rw [Inode.ptrAt_eq _ (by omega)] at he
      cases he
    · rfl
  · -- A pointer far behind the last one.
    have hdiv : 1019 ≤ (sizeT (offset.tdiv 4096) : ℤ) := by
      unfold sizeT
      omega
    have hset : ∀ p, x.setPtrAt (sizeT (offset.tdiv 4096)) p = .error .outOfRange := by
      intro p
      rw [Inode.setPtrAt, if_neg (by omega)]
    have herr : writeAlloc u (sizeT (offset.tdiv 4096)) x d = .error .outOfRange := by
      rw [writeAlloc, if_pos (by omega), ha, ok_bind, hset]
      rfl
    simp only [herr]

/-- `fs_write` on a well-formed disk. -/
theorem fsWrite_refines (hW : WellFormed d) (ctx : Ctx) (u : Stack) (p : NormPath) (buf : Buf)
    (offset : Int64) :
    Refines d (fsWrite ctx u p.str buf offset d) ((view d).write ctx p.comps buf offset.toInt) := by
  have hT := hW.toTree
  have hmin := offset.le_toInt
  have hmax := offset.toInt_lt
  have hfits := buf.fits
  simp only [fsWrite, path2inum_str hT, View.write, view_nodes, view_bitmap, inum_view]
  cases hr : resolve d p.comps with
  | none =>
    have hneg := walkInum_none hr
    simp only [hneg, if_true, liveNode_none hr]
    exact refines_fail d _
  | some i =>
    obtain ⟨h2, h1, hi⟩ := hT.inode_range hr
    have hx : Inode.ofBlock (d.blk i) = inodeAt d i := rfl
    rw [walkInum_some hT hr, liveNode_some hr]
    simp only [show ¬ ((i : ℤ) < 0) by omega, if_false, blockRead_of_lt d _ h1 hi, hx,
      nodeView_isDir]
    cases hdir : (inodeAt d i).isDir with
    | true =>
      simp only [if_true]
      exact refines_fail d _
    | false =>
      have hs := hT.file_size hr hdir
      have hn := hT.nblocks_eq hr hdir
      have hlen := length_contents d (inodeAt d i)
      have hn₀ : sizeT (divRoundUp (inodeAt d i).size).toInt = (inodeAt d i).nblocks := by
        have hdru := divRoundUp_toInt hs.1 hs.2
        rw [sizeT, hdru]
        omega
      have hc : ((contents d (inodeAt d i)).length : ℤ) = (inodeAt d i).size.toInt := by omega
      simp only [Bool.false_eq_true, if_false, nodeView_bytes hdir, hc]
      by_cases hbig : (inodeAt d i).size.toInt < offset.toInt
      · rw [if_pos hbig, if_pos hbig]
        exact refines_fail d _
      rw [if_neg hbig, if_neg hbig]
      by_cases hspace : 4096 * 1019 < sizeT (offset.toInt + buf.bytes.length)
      · rw [if_pos hspace, if_pos hspace]
        exact refines_fail d _
      rw [if_neg hspace, if_neg hspace]
      by_cases hneg : offset.toInt < 0
      -- An offset in front of the file passes both tests, and the loop runs off the array.
      · have hne : buf.bytes ≠ [] := by
          rintro h
          rw [h, sizeT] at hspace
          simp at hspace
          omega
        rw [if_pos hneg, writeLoop_neg u hneg hmin hne _ (by have := hT.nblocks_le hr hdir; omega) _
          hT.one_lt]
        exact refines_error d _
      rw [if_neg hneg]
      obtain ⟨off, hoff⟩ : ∃ off : ℕ, offset.toInt = off := ⟨offset.toInt.toNat, by omega⟩
      have hend : off + buf.bytes.length ≤ 1019 * 4096 := by
        rw [hoff, sizeT] at hspace
        omega
      have hq : sizeT ((off : ℤ).tdiv 4096) = off / 4096 := by
        rw [Int.tdiv_eq_ediv_of_nonneg (by omega), sizeT]
        omega
      have hm : sizeT ((off : ℤ).tmod 4096) = off % 4096 := by
        rw [Int.tmod_eq_emod_of_nonneg (by omega), sizeT]
        omega
      simp only [hoff, Int.toNat_natCast, hq, hm]
      -- The loop aborts when the allocator runs dry, or writes all the bytes.
      obtain ⟨hnone, herr⟩ | ⟨bs, d₁, x₁, hsome, hWr, hP, hok⟩ :=
        writeLoop_file hW hr hdir u buf.bytes off (by omega) hend (u .buffer)
      · simp only [hnone, herr, error_bind]
        exact refines_error d _
      · have hsize₁ : x₁.size = (inodeAt d i).size := by rw [← hWr.header]
        have hlen : off ≤ (contents d (inodeAt d i)).length := by omega
        have hslen := length_splice buf.bytes hlen
        have hsize := size_max (x := (inodeAt d i).size) (a := (contents d (inodeAt d i)).length)
          (b := off + buf.bytes.length) hc.symm (by omega) (by omega)
        rw [← hslen, Nat.cast_add, ← hsize₁] at hsize
        have hrc : (buf.bytes.length : ℤ).bmod (2^32) = buf.bytes.length :=
          Int.bmod_eq_of_le (by omega) (by omega)
        simp only [hsome, hok, ok_bind, hsize, blockWrite_of_lt _ _ (show 0 < i by omega) h1, hrc]
        obtain ⟨hW', hv⟩ := hW.wrote hr hdir (by omega) hend hsome hWr hP rfl ctx.now rfl rfl
        have hin : i < d₁.nblks := hi.trans_le hWr.grows.le
        refine refines_done hWr.handed hW' hv ⟨?_, fun n hn hh => ?_⟩
        · rw [Disk.write_nblks_of_lt _ i _ hin]
          exact hWr.grows.le
        · rw [Disk.write_nblks_of_lt _ i _ hin]
          exact hWr.grows.bound n hn fun b hb => hh b (List.mem_reverse.mpr hb)

end Cs5600.Lab4
