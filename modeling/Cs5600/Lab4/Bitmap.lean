import Cs5600.Lab4.Disk
import Mathlib.Data.Finset.Card
import Mathlib.Data.List.Range
import Mathlib.Order.Interval.Finset.Nat

/-!
# The block bitmap

Block 1 is a bitmap of the 32768 blocks that it can describe. `bit_set`, `bit_clear`, and `bit_test`
address bit `i` in byte `i / 8`, and `alloc_blk` and `free_blk` change one bit of the block on disk.
The lemmas below state each of them on the bits (`bit`), which determine the block (`ext_bit`).
-/

namespace Cs5600.Lab4

/-- `bit_set`. -/
def bitSet (map : Block) (i : ℕ) : Block :=
  map.blit (i / 8) [⟨(map.get (i / 8)).toBitVec ||| (1#8 <<< (i % 8))⟩]

/-- `bit_clear`. -/
def bitClear (map : Block) (i : ℕ) : Block :=
  map.blit (i / 8) [⟨(map.get (i / 8)).toBitVec &&& ~~~ (1#8 <<< (i % 8))⟩]

/-- `bit_test`. -/
def bitTest (map : Block) (i : ℕ) : ℕ :=
  ((map.get (i / 8)).toBitVec &&& (1#8 <<< (i % 8))).toNat

/-- The loop of `alloc_blk`: the first clear bit from 3 on. -/
@[irreducible]
def firstClear (map : Block) : Option ℕ :=
  (List.range' 3 (4096 * 8 - 3)).find? fun i => bitTest map i == 0

/-- `alloc_blk`. -/
def allocBlk (u : Stack) (d : Disk) : Except Fault (ℤ × Disk) :=
  let bitmap := (blockRead d (u .bitmap) 1).1
  match firstClear bitmap with
  | some i => do
    let d := (← blockWrite d (bitSet bitmap i) 1).1
    .ok (i, { d with handed := i :: d.handed })
  | none => .ok (-ENOSPC, d)

/-- `free_blk`. -/
def freeBlk (u : Stack) (d : Disk) (i : ℤ) : Except Fault Disk :=
  let bitmap := (blockRead d (u .bitmap) 1).1
  if 0 ≤ i ∧ i < 4096 * 8 then do
    let d := (← blockWrite d (bitClear bitmap i.toNat) 1).1
    .ok d
  else .error .outOfRange

/-! ## Bits -/

/-- Bit `i` of a bitmap block. -/
def bit (map : Block) (i : ℕ) : Bool := (map.get (i / 8)).toBitVec.getLsbD (i % 8)

/-- The byte with one bit. -/
theorem one_shiftLeft_getLsbD {k j : ℕ} (hj : j < 8) :
    ((1#8 <<< k).getLsbD j) = decide (j = k) := by
  rw [← BitVec.twoPow_eq, BitVec.getLsbD_twoPow]
  by_cases h : j = k
  · subst h; simp [hj]
  · have : ¬ k = j := fun h' => h h'.symm
    simp [h, this]

/-- `bit_test` is non-zero exactly when the bit is set. -/
theorem bitTest_eq_zero (map : Block) (i : ℕ) : bitTest map i = 0 ↔ bit map i = false := by
  have hk : i % 8 < 8 := Nat.mod_lt _ (by norm_num)
  unfold bitTest bit
  constructor
  · intro h
    -- Only the bit `i % 8` of the byte survives the mask.
    have h0 : (map.get (i / 8)).toBitVec &&& (1#8 <<< (i % 8)) = 0#8 := by
      apply BitVec.eq_of_toNat_eq
      simpa using h
    have hb := congrArg (fun x => x.getLsbD (i % 8)) h0
    simpa [BitVec.getLsbD_and, one_shiftLeft_getLsbD hk] using hb
  · intro h
    have h0 : (map.get (i / 8)).toBitVec &&& (1#8 <<< (i % 8)) = 0#8 := by
      apply BitVec.eq_of_getLsbD_eq
      intro j hj
      rw [BitVec.getLsbD_and, one_shiftLeft_getLsbD hj]
      by_cases hjk : j = i % 8
      · rw [hjk, h]; simp
      · simp [hjk]
    rw [h0]
    rfl

/-- `bit_set` sets its bit and no other. -/
theorem bit_bitSet (map : Block) {i j : ℕ} (hi : i < 32768) :
    bit (bitSet map i) j = (decide (j = i) || bit map j) := by
  have hk : j % 8 < 8 := Nat.mod_lt _ (by norm_num)
  unfold bit bitSet
  by_cases hb : j / 8 = i / 8
  · have hji : (j % 8 = i % 8) ↔ j = i := by omega
    rw [hb, Bytes.get_blit_singleton _ _ (by omega)]
    simp [BitVec.getLsbD_or, one_shiftLeft_getLsbD hk, hji, Bool.or_comm]
  · have hne : ¬ j = i := fun h => hb (by rw [h])
    rw [Bytes.get_blit_outside _ _ _ (by simp; omega)]
    simp [hne]

/-- `bit_clear` clears its bit and no other. -/
theorem bit_bitClear (map : Block) {i j : ℕ} (hi : i < 32768) :
    bit (bitClear map i) j = (!decide (j = i) && bit map j) := by
  have hk : j % 8 < 8 := Nat.mod_lt _ (by norm_num)
  unfold bit bitClear
  by_cases hb : j / 8 = i / 8
  · have hji : (j % 8 = i % 8) ↔ j = i := by omega
    rw [hb, Bytes.get_blit_singleton _ _ (by omega)]
    simp only [BitVec.getLsbD_and, BitVec.getLsbD_not, hk, decide_true, Bool.true_and,
      one_shiftLeft_getLsbD hk, hji, Bool.and_comm]
  · have hne : ¬ j = i := fun h => hb (by rw [h])
    rw [Bytes.get_blit_outside _ _ _ (by simp; omega)]
    simp [hne]

/-- The bits determine the bitmap block. -/
theorem ext_bit {b c : Block} (h : ∀ i < 32768, bit b i = bit c i) : b = c := by
  apply Bytes.ext_get
  intro i hi
  have hbv : (b.get i).toBitVec = (c.get i).toBitVec := by
    apply BitVec.eq_of_getLsbD_eq
    intro j hj
    have hij := h (8 * i + j) (by omega)
    unfold bit at hij
    rwa [show (8 * i + j) / 8 = i by omega, show (8 * i + j) % 8 = j by omega] at hij
  cases hb : b.get i
  cases hc : c.get i
  rw [hb, hc] at hbv
  simpa using hbv

/-- `bit_clear` undoes `bit_set` of a clear bit, byte for byte. -/
theorem bitClear_bitSet {map : Block} {i : ℕ} (hi : i < 32768) (h : bit map i = false) :
    bitClear (bitSet map i) i = map := by
  apply ext_bit
  intro j _
  rw [bit_bitClear _ hi, bit_bitSet _ hi]
  by_cases hj : j = i
  · rw [hj, h]; simp
  · simp [hj]

/-! ## Allocation -/

/-- What the search of `alloc_blk` finds is the least clear bit from 3 on. -/
theorem firstClear_eq_some {map : Block} {i : ℕ} :
    firstClear map = some i ↔
      bit map i = false ∧ 3 ≤ i ∧ i < 32768 ∧ ∀ j, 3 ≤ j → j < i → bit map j = true := by
  unfold firstClear
  rw [List.find?_range'_eq_some]
  simp only [beq_iff_eq, bitTest_eq_zero, List.mem_range'_1, Bool.not_eq_true', beq_eq_false_iff_ne,
    ne_eq, Bool.not_eq_false]
  constructor
  · rintro ⟨h0, ⟨h1, h2⟩, h3⟩
    exact ⟨h0, h1, by omega, h3⟩
  · rintro ⟨h0, h1, h2, h3⟩
    exact ⟨h0, ⟨h1, by omega⟩, h3⟩

/-- The search of `alloc_blk` fails exactly when every bit from 3 on is set. -/
theorem firstClear_eq_none {map : Block} :
    firstClear map = none ↔ ∀ j, 3 ≤ j → j < 32768 → bit map j = true := by
  unfold firstClear
  rw [List.find?_eq_none]
  simp only [List.mem_range'_1, beq_iff_eq, bitTest_eq_zero, Bool.not_eq_false]
  constructor
  · intro h j h1 h2
    exact h j ⟨h1, by omega⟩
  · rintro h j ⟨h1, h2⟩
    exact h j h1 (by omega)

/-- The image after `alloc_blk` has handed out block `i`. -/
def Disk.alloc (d : Disk) (i : ℕ) : Disk :=
  { d.write 1 (bitSet (d.blk 1) i) with handed := i :: d.handed }

/-- The image after `free_blk(i)`. -/
def Disk.free (d : Disk) (i : ℕ) : Disk := d.write 1 (bitClear (d.blk 1) i)

/-- The bitmap block of an image that has one is read and written without an error. -/
theorem blockRead_bitmap {d : Disk} (h : 1 < d.nblks) (buf : Block) :
    blockRead d buf 1 = (d.blk 1, 0) := by
  have hr := blockRead_of_lt d buf (i := 1) (by norm_num) h
  rwa [Nat.cast_one] at hr

/-- The bitmap can be written. -/
theorem blockWrite_bitmap (d : Disk) (buf : Block) :
    blockWrite d buf 1 = .ok (d.write 1 buf, 0) := by
  have hw := blockWrite_of_lt d buf (i := 1) (by norm_num) (by norm_num)
  rwa [Nat.cast_one] at hw

/-- `alloc_blk` on an image that has its bitmap block. -/
theorem allocBlk_eq (u : Stack) {d : Disk} (h : 1 < d.nblks) :
    allocBlk u d = match firstClear (d.blk 1) with
      | some i => .ok ((i : ℤ), d.alloc i)
      | none => .ok (-ENOSPC, d) := by
  rcases hr : firstClear (d.blk 1) with _ | i
  · simp only [allocBlk, blockRead_bitmap h, hr]
  · simp only [allocBlk, blockRead_bitmap h, hr, blockWrite_bitmap]
    rfl

/-- `free_blk` of a block that the bitmap describes. -/
theorem freeBlk_eq (u : Stack) {d : Disk} (h : 1 < d.nblks) {i : ℕ} (hi : i < 32768) :
    freeBlk u d i = .ok (d.free i) := by
  rw [freeBlk]
  simp only [blockRead_bitmap h, blockWrite_bitmap, Int.toNat_natCast]
  rw [if_pos (by omega)]
  rfl

section

variable {d : Disk} (h : 1 < d.nblks) (i : ℕ)
include h

/-- Marking a block does not change the size of the image. -/
theorem alloc_nblks : (d.alloc i).nblks = d.nblks :=
  Disk.write_nblks_of_lt d 1 (bitSet (d.blk 1) i) h

/-- Freeing a block does not change the size of the image. -/
theorem free_nblks : (d.free i).nblks = d.nblks :=
  Disk.write_nblks_of_lt d 1 (bitClear (d.blk 1) i) h

/-- `alloc_blk` changes only the bitmap block. -/
theorem alloc_blk (j : ℕ) : (d.alloc i).blk j = if j = 1 then bitSet (d.blk 1) i else d.blk j :=
  Disk.write_blk_of_lt d 1 _ h

/-- `free_blk` changes only the bitmap block. -/
theorem free_blk (j : ℕ) : (d.free i).blk j = if j = 1 then bitClear (d.blk 1) i else d.blk j :=
  Disk.write_blk_of_lt d 1 _ h

end

/-! ## Several blocks -/

/-- The bitmap with the given bits cleared. -/
def clearAll (bitmap : Block) (bs : List ℕ) : Block := bs.foldl bitClear bitmap

/-- The bitmap after the allocator has been asked for `n` blocks, and the blocks, when there are
enough of them. -/
def allocN : ℕ → Block → Option (List ℕ × Block)
  | 0, bitmap => some ([], bitmap)
  | n + 1, bitmap => do
    let b ← firstClear bitmap
    let (bs, bitmap) ← allocN n (bitSet bitmap b)
    some (b :: bs, bitmap)

/-- Clearing bits clears those and no others. -/
theorem bit_clearAll (bs : List ℕ) (j : ℕ) : ∀ map : Block, (∀ b ∈ bs, b < 32768) →
    bit (clearAll map bs) j = (!decide (j ∈ bs) && bit map j) := by
  induction bs with
  | nil => intro map _; simp [clearAll]
  | cons b bs ih =>
    intro map h
    rw [List.forall_mem_cons] at h
    have hrec := ih (bitClear map b) h.2
    rw [clearAll, List.foldl_cons, ← clearAll, hrec, bit_bitClear _ h.1]
    by_cases hj : j = b <;> simp [hj]

/-- The blocks that the allocator hands out one after the other are distinct and were free. -/
theorem allocN_spec (n : ℕ) : ∀ {map map' : Block} {bs : List ℕ}, allocN n map = some (bs, map') →
    bs.length = n ∧ bs.Nodup ∧ (∀ b ∈ bs, 3 ≤ b ∧ b < 32768 ∧ bit map b = false) ∧
      ∀ j, bit map' j = (decide (j ∈ bs) || bit map j) := by
  -- Induction on the number of blocks; each is the first clear bit of the map so far.
  induction n with
  | zero =>
    intro map map' bs h
    obtain ⟨rfl, rfl⟩ := Prod.mk.inj (Option.some.inj h)
    simp
  | succ n ih =>
    intro map map' bs h
    obtain ⟨b, hb, h⟩ := Option.bind_eq_some_iff.mp h
    obtain ⟨⟨bs', map''⟩, hrec, h⟩ := Option.bind_eq_some_iff.mp h
    obtain ⟨rfl, rfl⟩ := Prod.mk.inj (Option.some.inj h)
    obtain ⟨hclear, hb3, hb', -⟩ := firstClear_eq_some.mp hb
    obtain ⟨hlen, hnd, hfree, hbit⟩ := ih hrec
    have hfree' : ∀ c ∈ bs', c ≠ b ∧ 3 ≤ c ∧ c < 32768 ∧ bit map c = false := by
      intro c hc
      obtain ⟨h3, hlt, hfalse⟩ := hfree c hc
      rw [bit_bitSet _ hb', Bool.or_eq_false_iff, decide_eq_false_iff_not] at hfalse
      exact ⟨hfalse.1, h3, hlt, hfalse.2⟩
    refine ⟨by simp [hlen], ?_, ?_, ?_⟩
    · rw [List.nodup_cons]
      exact ⟨fun hmem => (hfree' b hmem).1 rfl, hnd⟩
    · rw [List.forall_mem_cons]
      exact ⟨⟨hb3, hb', hclear⟩, fun c hc => (hfree' c hc).2⟩
    · intro j
      rw [hbit, bit_bitSet _ hb']
      by_cases hj : j = b <;> simp [hj]

/-- Asking for more blocks goes on where the allocator stopped. -/
theorem allocN_add (n m : ℕ) : ∀ map : Block, allocN (n + m) map = (do
    let a ← allocN n map
    let b ← allocN m a.2
    some (a.1 ++ b.1, b.2)) := by
  induction n with
  | zero => intro map; simp [allocN]
  | succ n ih =>
    intro map
    rw [Nat.succ_add, allocN, allocN]
    cases firstClear map with
    | none => rfl
    | some b =>
      simp only [Option.bind_eq_bind, Option.bind_some, ih]
      cases allocN n (bitSet map b) with
      | none => rfl
      | some a => cases h : allocN m a.2 <;> simp [h]

/-! ## Counting the free blocks -/

/-- The clear bits of a bitmap from 3 on and below `stop`. -/
def clearBits (map : Block) (stop : ℕ) : Finset ℕ :=
  (Finset.Ico 3 stop).filter fun i => bit map i = false

/-- The blocks that can be allocated are those from 3 on whose bits are clear. -/
theorem mem_clearBits {map : Block} {stop i : ℕ} :
    i ∈ clearBits map stop ↔ (3 ≤ i ∧ i < stop) ∧ bit map i = false := by
  rw [clearBits, Finset.mem_filter, Finset.mem_Ico]

/-- Setting a bit takes its block away from those that can be allocated. -/
theorem clearBits_bitSet {map : Block} {stop b : ℕ} (hb : b < 32768) :
    clearBits (bitSet map b) stop = (clearBits map stop).erase b := by
  ext i
  rw [Finset.mem_erase, mem_clearBits, mem_clearBits, bit_bitSet _ hb, Bool.or_eq_false_iff,
    decide_eq_false_iff_not]
  tauto

/-- The allocator hands out a block below `stop` as long as there is one. -/
theorem firstClear_of_pos {map : Block} {stop : ℕ} (hstop : stop ≤ 32768)
    (h : 0 < (clearBits map stop).card) : ∃ b, firstClear map = some b ∧
    b ∈ clearBits map stop := by
  obtain ⟨i, hi⟩ := Finset.card_pos.mp h
  obtain ⟨⟨h3, hlt⟩, hclear⟩ := mem_clearBits.mp hi
  cases hf : firstClear map with
  | none =>
    rw [firstClear_eq_none.mp hf i h3 (by omega)] at hclear
    cases hclear
  | some b =>
    obtain ⟨hb, hb3, -, hleast⟩ := firstClear_eq_some.mp hf
    refine ⟨b, rfl, mem_clearBits.mpr ⟨⟨hb3, ?_⟩, hb⟩⟩
    by_contra hge
    rw [hleast i h3 (by omega)] at hclear
    cases hclear

/-- As many blocks as there are clear bits below `stop` are handed out from below `stop`. -/
theorem allocN_of_le {stop : ℕ} (hstop : stop ≤ 32768) (n : ℕ) : ∀ map : Block,
    n ≤ (clearBits map stop).card → ∃ a, allocN n map = some a ∧ ∀ b ∈ a.1, b < stop := by
  induction n with
  | zero =>
    intro map _
    exact ⟨([], map), rfl, by simp⟩
  | succ n ih =>
    intro map hn
    obtain ⟨b, hf, hb⟩ := firstClear_of_pos hstop (show 0 < (clearBits map stop).card by omega)
    have hlt := (mem_clearBits.mp hb).1.2
    obtain ⟨a, ha, hbelow⟩ := ih (bitSet map b) (by
      rw [clearBits_bitSet (by omega), Finset.card_erase_of_mem hb]
      omega)
    refine ⟨(b :: a.1, a.2), ?_, ?_⟩
    · rw [allocN, hf, Option.bind_eq_bind, Option.bind_some, ha]
      rfl
    · rw [List.forall_mem_cons]
      exact ⟨hlt, hbelow⟩

end Cs5600.Lab4
