import Cs5600.Lab4.Diskfmt
import Cs5600.Lib.Basic
import Cs5600.Lab4.Image

/-!
# The image generator

What `gen-disk.py` does after it has read the description of an image: it goes over the files and
the directories, marks the block of each inode and each of its data blocks in the bitmap and in the
list `blocks`, and writes the superblock, the bitmap, and what the list says of every further block.
A description has a result unless the script raises an exception.

The marked bits are the blocks that the description names (`bit_layout`), and this is how the file
system reads them. `bitmap_views` is that, with the agreement of the two implementations of the
bitmap and what `alloc_blk` and `free_blk` make of it.
-/

namespace Cs5600.Lab4

/-- What is used of a `file` or a `dir`. Its two methods return bytes, or raise an exception. -/
structure Item where
  inum : ℤ
  blocks : List ℤ
  inode : Option Block
  block : ℕ → Option Block

/-- The description of an image, as the script reads it. -/
structure Description where
  nblocks : ℤ
  files : List Item
  dirs : List Item

/-- An element of `blocks` that is not `None`: `[f]` or `[f, i]`. -/
inductive Slot where
  | inode (f : Item)
  | data (f : Item) (i : ℕ)

/-- The bitmap and the list `blocks`, while the items are gone over. -/
structure Layout where
  blockmap : Bitmap
  blocks : List (Option Slot)

/-- `l[k]`. -/
def getItem {α : Type} (l : List α) (k : ℤ) : Option α := do
  let j ← pyIndex l.length k
  some (l.get j)

/-- `l[k] = x`. -/
def setItem {α : Type} (l : List α) (k : ℤ) (x : α) : Option (List α) := do
  let j ← pyIndex l.length k
  some (l.set j x)

/-- The loop over the blocks of an item, where `i` counts. A block that is marked already is only
reported. -/
def layBlocks (f : Item) : List ℤ → ℕ → Layout → Option Layout
  | [], _, s => some s
  | b :: bs, i, s => do
    let _ ← s.blockmap.get b
    let blockmap ← s.blockmap.set b true
    let blocks ← setItem s.blocks b (some (.data f i))
    layBlocks f bs (i + 1) ⟨blockmap, blocks⟩

/-- One pass of the loop over the items. -/
def layItem (s : Layout) (f : Item) : Option Layout := do
  let blocks ← setItem s.blocks f.inum (some (.inode f))
  let blockmap ← s.blockmap.set f.inum true
  layBlocks f f.blocks 0 ⟨blockmap, blocks⟩

/-- `[None] * 400`. -/
def noBlocks : List (Option Slot) := List.replicate 400 none

/-- The bitmap and the list when the image is written. -/
def layout (desc : Description) : Option Layout := do
  let blockmap ← Bitmap.zero.set 0 true
  let blockmap ← blockmap.set 1 true
  (desc.files ++ desc.dirs).foldlM layItem ⟨blockmap, noBlocks⟩

/-- The bytes written for block `i`. -/
def imageBlock (s : Layout) (i : ℕ) : Option Block := do
  match ← getItem s.blocks i with
  | none => some Bytes.zero
  | some (.inode f) => f.inode
  | some (.data f offset) => f.block offset

/-- The image file with the given blocks. -/
def Disk.ofBlocks (l : List Block) : Disk := ⟨l.length, fun i => l.getD i Bytes.zero, []⟩

/-- The image that the script writes. -/
def generate (desc : Description) : Option Disk := do
  let s ← layout desc
  let rest ← (List.range' 2 (desc.nblocks.toNat - 2)).mapM (imageBlock s)
  some (Disk.ofBlocks (genSuper (desc.nblocks % 2^32).toNat :: s.blockmap.toBytes :: rest))

/-! ## The blocks that are marked -/

/-- The blocks that are to be in use: the superblock, the bitmap, and for each item its inode and
its data. -/
def Description.inUse (desc : Description) : List ℤ :=
  0 :: 1 :: (desc.files ++ desc.dirs).flatMap fun f => f.inum :: f.blocks

/-- The description has block `j` in use. A negative number, which is not one of a block, is taken
for the position that it is in Python. -/
def Description.Reserves (desc : Description) (j : ℕ) : Prop :=
  ∃ b ∈ desc.inUse, fromEnd 32768 b = j

variable {m m' : Bitmap} {s s' : Layout} {j : ℕ}

/-- One mark. -/
theorem bit_mark {b : ℤ} (h : m.set b true = some m') (hj : j < 32768) :
    bit m'.toBytes j = true ↔ bit m.toBytes j = true ∨ fromEnd 32768 b = j := by
  obtain ⟨i, hi, hb⟩ := Bitmap.fromEnd_of_set h
  obtain ⟨m₁, hset, hbit⟩ := Bitmap.set_eq m true hi hb
  rw [h, Option.some_inj] at hset
  rw [hset, hbit j hj, hb, Nat.cast_inj]
  by_cases hji : j = i
  · simp [hji]
  · simp [hji, Ne.symm hji]

/-- The marks of the blocks of an item. -/
theorem bit_layBlocks {f : Item} {bs : List ℤ} {i : ℕ} (h : layBlocks f bs i s = some s')
    (hj : j < 32768) : bit s'.blockmap.toBytes j = true ↔
      bit s.blockmap.toBytes j = true ∨ ∃ b ∈ bs, fromEnd 32768 b = j := by
  induction bs generalizing i s with
  | nil =>
    obtain rfl := Option.some.inj h
    simp
  | cons b bs ih =>
    simp only [layBlocks, Option.bind_eq_bind, Option.bind_eq_some_iff] at h
    obtain ⟨-, -, m, hset, blocks, -, hrest⟩ := h
    rw [ih hrest, bit_mark hset hj, List.exists_mem_cons_iff, or_assoc]

/-- The marks of an item. -/
theorem bit_layItem {f : Item} (h : layItem s f = some s') (hj : j < 32768) :
    bit s'.blockmap.toBytes j = true ↔
      bit s.blockmap.toBytes j = true ∨ ∃ b ∈ f.inum :: f.blocks, fromEnd 32768 b = j := by
  simp only [layItem, Option.bind_eq_bind, Option.bind_eq_some_iff] at h
  obtain ⟨blocks, -, m, hset, hrest⟩ := h
  rw [bit_layBlocks hrest hj, bit_mark hset hj, List.exists_mem_cons_iff, or_assoc]

/-- The marks of the items. -/
theorem bit_foldlM_layItem {items : List Item} (h : items.foldlM layItem s = some s')
    (hj : j < 32768) : bit s'.blockmap.toBytes j = true ↔ bit s.blockmap.toBytes j = true ∨
      ∃ b ∈ items.flatMap fun f => f.inum :: f.blocks, fromEnd 32768 b = j := by
  induction items generalizing s with
  | nil =>
    obtain rfl := Option.some.inj h
    simp
  | cons f items ih =>
    rw [List.foldlM_cons, Option.bind_eq_bind, Option.bind_eq_some_iff] at h
    obtain ⟨s₁, hitem, hrest⟩ := h
    rw [ih hrest, bit_layItem hitem hj, List.flatMap_cons, or_assoc]
    simp only [List.mem_append, or_and_right, exists_or]

/-- No bit of the new bitmap is set. -/
theorem bit_zero (j : ℕ) : bit Bitmap.zero.toBytes j = false := by
  have hget : Bitmap.zero.toBytes.get (j / 8) = 0 := by
    unfold Bytes.get Bitmap.toBytes Bitmap.zero
    split_ifs <;> simp
  rw [bit, hget]
  simp

/-- Exactly the blocks in use are marked. -/
theorem bit_layout {desc : Description} (h : layout desc = some s) (hj : j < 32768) :
    bit s.blockmap.toBytes j = true ↔ desc.Reserves j := by
  simp only [layout, Option.bind_eq_bind, Option.bind_eq_some_iff] at h
  obtain ⟨m₀, h₀, m₁, h₁, hitems⟩ := h
  rw [bit_foldlM_layItem hitems hj, bit_mark h₁ hj, bit_mark h₀ hj, bit_zero, Description.Reserves,
    Description.inUse, List.exists_mem_cons_iff, List.exists_mem_cons_iff]
  simp only [Bool.false_eq_true, false_or, or_assoc]

/-- The bitmap of the image. -/
theorem generate_bitmap {desc : Description} {d : Disk} (h : generate desc = some d) :
    1 < d.nblks ∧ ∀ j < 32768, bit (d.blk 1) j = true ↔ desc.Reserves j := by
  simp only [generate, Option.bind_eq_bind, Option.bind_eq_some_iff] at h
  obtain ⟨s, hs, rest, -, heq⟩ := h
  obtain rfl := Option.some.inj heq
  exact ⟨by simp [Disk.ofBlocks], fun j hj => bit_layout hs hj⟩

/-! ## What the file system makes of it -/

section

variable {d d' : Disk} {r : ℤ} (u u' : Stack) (h : 1 < d.nblks)
include h

/-- `alloc_blk` hands out the least free block from 3 on, or says that there is none. -/
theorem allocBlk_cases :
    (∃ i : ℕ, firstClear (d.blk 1) = some i ∧ allocBlk u d = .ok ((i : ℤ), d.alloc i)) ∨
      firstClear (d.blk 1) = none ∧ allocBlk u d = .ok (-ENOSPC, d) := by
  rw [allocBlk_eq u h]
  cases hfirst : firstClear (d.blk 1) with
  | none => exact .inr ⟨rfl, rfl⟩
  | some i => exact .inl ⟨i, rfl, rfl⟩

/-- `free_blk` of a block that `alloc_blk` has handed out takes the image back to what it was. -/
theorem freeBlk_allocBlk (halloc : allocBlk u d = .ok (r, d')) (hr : 0 ≤ r) :
    ∃ d'', freeBlk u' d' r = .ok d'' ∧ d''.nblks = d.nblks ∧ ∀ k, d''.blk k = d.blk k := by
  rcases allocBlk_cases u h with ⟨i, hfirst, hsome⟩ | ⟨-, hnone⟩
  · rw [hsome] at halloc
    obtain ⟨rfl, rfl⟩ := Prod.mk.inj (Except.ok.inj halloc)
    obtain ⟨hclear, -, hi, -⟩ := firstClear_eq_some.mp hfirst
    have h' : 1 < (d.alloc i).nblks := by rwa [alloc_nblks h]
    refine ⟨(d.alloc i).free i, freeBlk_eq u' h' hi, ?_, fun k => ?_⟩
    · rw [free_nblks h', alloc_nblks h]
    · rw [free_blk h', alloc_blk h, alloc_blk h, if_pos rfl, bitClear_bitSet hi hclear]
      split_ifs with hk
      · rw [hk]
      · rfl
  · rw [hnone] at halloc
    obtain ⟨rfl, -⟩ := Prod.mk.inj (Except.ok.inj halloc)
    exact absurd hr (by decide)

end

/-- On a generated image `alloc_blk` hands out the least block from 3 on that the description does
not have in use. -/
theorem allocBlk_generate {desc : Description} {d : Disk} (h : generate desc = some d) (u : Stack) :
    (∃ i d', allocBlk u d = .ok ((i : ℕ), d') ∧ 3 ≤ i ∧ i < 32768 ∧ ¬ desc.Reserves i ∧
      ∀ j, 3 ≤ j → j < i → desc.Reserves j) ∨
    allocBlk u d = .ok (-ENOSPC, d) ∧ ∀ j, 3 ≤ j → j < 32768 → desc.Reserves j := by
  obtain ⟨hlen, hbit⟩ := generate_bitmap h
  rcases allocBlk_cases u hlen with ⟨i, hfirst, hsome⟩ | ⟨hfirst, hnone⟩
  · obtain ⟨hclear, h3, hi, hleast⟩ := firstClear_eq_some.mp hfirst
    refine .inl ⟨i, d.alloc i, hsome, h3, hi, ?_, fun j hj hji => ?_⟩
    · rw [← hbit i hi, hclear]
      exact Bool.false_ne_true
    · exact (hbit j (by omega)).mp (hleast j hj hji)
  · exact .inr ⟨hnone, fun j hj hlt => (hbit j hlt).mp (firstClear_eq_none.mp hfirst j hj hlt)⟩

/-! ## An image with an empty root directory -/

/-- The root directory of `genDisk`, which has no entries. -/
def rootItem (data : ℕ) : Item := ⟨2, [data], some (genRoot data).toBlock, fun _ => some Bytes.zero⟩

/-- The description of `genDisk size data`. -/
def rootOnly (size data : ℕ) : Description := ⟨size, [], [rootItem data]⟩

/-- An item that is there is found. -/
theorem getItem_eq {α : Type} {l : List α} {k : ℕ} {x : α} (h : l[k]? = some x) :
    getItem l k = some x := by
  obtain ⟨hk, rfl⟩ := List.getElem?_eq_some_iff.mp h
  have hindex : pyIndex l.length (k : ℤ) = some ⟨k, hk⟩ :=
    pyIndex_eq_some.mpr (by simp [fromEnd])
  rw [getItem, hindex, Option.bind_eq_bind, Option.bind_some, List.get_eq_getElem]

/-- An item that is there can be set. -/
theorem setItem_eq {α : Type} {l : List α} {k : ℕ} (x : α) (h : k < l.length) :
    setItem l k x = some (l.set k x) := by
  have hindex : pyIndex l.length (k : ℤ) = some ⟨k, h⟩ := pyIndex_eq_some.mpr (by simp [fromEnd])
  rw [setItem, hindex, Option.bind_eq_bind, Option.bind_some]

/-- A block of the image is the one that is laid at its number, or zeros. -/
theorem imageBlock_eq {s : Layout} {i : ℕ} {slot : Option Slot} (h : s.blocks[i]? = some slot) :
    imageBlock s i = slot.elim (some Bytes.zero) fun
      | .inode f => f.inode
      | .data f offset => f.block offset := by
  rw [imageBlock, getItem_eq h, Option.bind_eq_bind, Option.bind_some]
  rcases slot with - | f | ⟨f, offset⟩ <;> rfl

/-- The list after a directory whose data is one block. -/
theorem layItem_rootItem (m : Bitmap) {l : List (Option Slot)} {data : ℕ} (h2 : 2 < l.length)
    (hdata : data < l.length) (hl : l.length ≤ 32768) :
    ∃ m', layItem ⟨m, l⟩ (rootItem data) = some ⟨m',
      (l.set 2 (some (.inode (rootItem data)))).set data (some (.data (rootItem data) 0))⟩ := by
  have hpos : ∀ n : ℕ, fromEnd 32768 n = n := fun n => by simp [fromEnd]
  obtain ⟨m₁, h₁, -⟩ := Bitmap.set_eq m true (lt_of_lt_of_le h2 hl) (hpos 2)
  obtain ⟨m₂, h₂, -⟩ := Bitmap.set_eq m₁ true (lt_of_lt_of_le hdata hl) (hpos data)
  have hget := Bitmap.get_eq m₁ (lt_of_lt_of_le hdata hl) (hpos data)
  have hinode := setItem_eq (some (Slot.inode (rootItem data))) h2
  have hslot := setItem_eq (l := l.set 2 (some (.inode (rootItem data))))
    (some (.data (rootItem data) 0)) (k := data) (by rwa [List.length_set])
  refine ⟨m₂, ?_⟩
  rw [layItem, show (rootItem data).inum = (2 : ℕ) from rfl,
    show (rootItem data).blocks = [(data : ℤ)] from rfl]
  simp only [layBlocks, hinode, h₁, hget, h₂, hslot, Option.bind_eq_bind, Option.bind_some]

/-- There are 400 places for blocks. -/
@[simp]
theorem length_noBlocks : noBlocks.length = 400 := List.length_replicate

/-- No block is laid at the start. -/
theorem getElem?_noBlocks {i : ℕ} (h : i < 400) : noBlocks[i]? = some none := by
  rw [noBlocks, List.getElem?_replicate, if_pos h]

/-- The layout of an empty image. -/
theorem layout_rootOnly (size : ℕ) {data : ℕ} (hdata : data < 400) :
    ∃ m, layout (rootOnly size data) = some ⟨m,
      (noBlocks.set 2 (some (.inode (rootItem data)))).set data
      (some (.data (rootItem data) 0))⟩ := by
  obtain ⟨m₀, h₀, -⟩ := Bitmap.set_eq Bitmap.zero true (i := 0) (j := 0) (by norm_num) rfl
  obtain ⟨m₁, h₁, -⟩ := Bitmap.set_eq m₀ true (i := 1) (j := 1) (by norm_num) rfl
  have hdata' : data < noBlocks.length := by rwa [length_noBlocks]
  obtain ⟨m₂, h₂⟩ := layItem_rootItem m₁ (by simp) hdata' (by simp)
  refine ⟨m₂, ?_⟩
  simp only [layout, rootOnly, h₀, h₁, h₂, List.nil_append, List.foldlM_cons, List.foldlM_nil,
    Option.bind_eq_bind, Option.bind_some, Option.pure_def]

/-- The empty images are generated ones. -/
theorem generate_rootOnly {size data : ℕ} (h3 : 3 ≤ data) (hdata : data < size)
    (hsize : size ≤ 400) : generate (rootOnly size data) = some (genDisk size data) := by
  obtain ⟨m, hlay⟩ := layout_rootOnly size (lt_of_lt_of_le hdata hsize)
  -- The bitmap marks the two reserved blocks, the root's inode and its data.
  have hbits : m.toBytes = genBitmap data := by
    refine ext_bit fun j hj => ?_
    rw [Bool.eq_iff_iff, bit_layout hlay hj, bit_genBitmap (by omega)]
    simp [Description.Reserves, Description.inUse, rootOnly, rootItem, fromEnd]
    omega
  -- Every block behind the bitmap is the one of the concrete image.
  have hblock : ∀ i ∈ List.range' 2 (size - 2), imageBlock ⟨m, (noBlocks.set 2
      (some (.inode (rootItem data)))).set data (some (.data (rootItem data) 0))⟩ i =
        some ((genDisk size data).blk i) := by
    intro i hi
    obtain ⟨h2, hlt⟩ := List.mem_range'_1.mp hi
    simp only [genDisk]
    rw [if_neg (by omega), if_neg (by omega)]
    obtain rfl | hdi := eq_or_ne data i
    · rw [imageBlock_eq (List.getElem?_set_self (by simp; omega)), if_neg (by omega)]
      rfl
    obtain rfl | h2i := eq_or_ne 2 i
    · rw [imageBlock_eq ((List.getElem?_set_ne hdi).trans (List.getElem?_set_self (by simp)))]
      rfl
    · have hnone := getElem?_noBlocks (show i < 400 by omega)
      rw [imageBlock_eq ((List.getElem?_set_ne hdi).trans ((List.getElem?_set_ne h2i).trans hnone)),
        if_neg (Ne.symm h2i)]
      rfl
  have hsuper : ((size : ℤ) % 2^32).toNat = size := by omega
  have hnblocks : (rootOnly size data).nblocks = size := rfl
  rw [generate, hlay, Option.bind_eq_bind, Option.bind_some, hnblocks, Int.toNat_natCast,
    mapM_eq_some_map hblock, Option.bind_eq_bind, Option.bind_some, hsuper, hbits]
  refine congrArg some (Disk.ext ?_ (funext fun i => ?_) rfl)
  · simp only [Disk.ofBlocks, List.length_cons, List.length_map, List.length_range', genDisk]
    omega
  · rcases i with - | - | i
    · rfl
    · rfl
    · simp only [Disk.ofBlocks, List.getD_eq_getElem?_getD, List.getElem?_cons_succ,
        List.getElem?_map]
      obtain hi | hi := Nat.lt_or_ge i (size - 2)
      · rw [List.getElem?_range' hi, Option.map_some, Option.getD_some, Nat.one_mul,
          Nat.add_comm 2 i]
      · -- Behind the end of the image.
        rw [List.getElem?_eq_none (by rwa [List.length_range']), Option.map_none, Option.getD_none]
        simp only [genDisk]
        rw [if_neg (by omega), if_neg (by omega), if_neg (by omega)]

/-- **The two views of the bitmap coincide.** For every bitmap block, `bit_test`, `bit_set`, and
`bit_clear` on its bytes are `get` and `set` on its words, and change no bit but the one they are
asked for. So the bits that are set in a generated image are those of the blocks in use, and
`alloc_blk` passes over these; and `free_blk` of a block that `alloc_blk` returned restores the
bitmap. -/
theorem bitmap_views :
    (∀ (map : Block) (i j : ℕ), i < 32768 → j < 32768 →
      (bitTest map i ≠ 0 ↔ (Bitmap.ofBytes map).get i = some true) ∧
      ((Bitmap.ofBytes map).set i true).map Bitmap.toBytes = some (bitSet map i) ∧
      ((Bitmap.ofBytes map).set i false).map Bitmap.toBytes = some (bitClear map i) ∧
      (bit (bitSet map i) j ≠ bit map j → j = i) ∧
      (bit (bitClear map i) j ≠ bit map j → j = i)) ∧
    (∀ (desc : Description) (d : Disk), generate desc = some d →
      (∀ j < 32768, bitTest (d.blk 1) j ≠ 0 ↔ desc.Reserves j) ∧
      ∀ u : Stack, (∃ i d', allocBlk u d = .ok ((i : ℕ), d') ∧ 3 ≤ i ∧ i < 32768 ∧
          ¬ desc.Reserves i ∧ ∀ j, 3 ≤ j → j < i → desc.Reserves j) ∨
        allocBlk u d = .ok (-ENOSPC, d) ∧ ∀ j, 3 ≤ j → j < 32768 → desc.Reserves j) ∧
    ∀ (u u' : Stack) (d d' : Disk) (r : ℤ), 1 < d.nblks → allocBlk u d = .ok (r, d') → 0 ≤ r →
      ∃ d'', freeBlk u' d' r = .ok d'' ∧ d''.nblks = d.nblks ∧ ∀ k, d''.blk k = d.blk k := by
  refine ⟨fun map i j hi hj => ⟨?_, Bitmap.set_true_eq map hi, Bitmap.set_false_eq map hi,
    fun hne => ?_, fun hne => ?_⟩, fun desc d h => ⟨fun j hj => ?_, allocBlk_generate h⟩,
    fun u u' d d' r h halloc hr => freeBlk_allocBlk u u' h halloc hr⟩
  · rw [Bitmap.get_eq_bitTest map hi, Option.some_inj, bne_iff_ne]
  · rw [bit_bitSet map hi] at hne
    by_contra hji
    simp [hji] at hne
  · rw [bit_bitClear map hi] at hne
    by_contra hji
    simp [hji] at hne
  · rw [ne_eq, bitTest_eq_zero, Bool.not_eq_false]
    exact (generate_bitmap h).2 j hj

/-- The image of an empty file system has four blocks in use. -/
theorem bitmap_views_disk2 : ∀ j < 32768, bitTest (disk2.blk 1) j ≠ 0 ↔
    (rootOnly 400 399).Reserves j :=
  (bitmap_views.2.1 (rootOnly 400 399) disk2
    (generate_rootOnly (by norm_num) (by norm_num) (by norm_num))).1

end Cs5600.Lab4
