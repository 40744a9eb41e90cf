import Cs5600.Lab4.Bitmap
import Mathlib.Data.Nat.Bitwise

/-!
# The bitmap in Python

`bitmap` of `diskfmt.py`, which `gen-disk.py` makes an image's bitmap block with: the block as 1024
words of 32 bits, in little-endian order. Its `get` and `set` address bit `i` in word `i / 32`,
where the file system has byte `i / 8`. `Bitmap.get_eq` and `Bitmap.set_eq` state both on the bits
of the bytes, and the bits determine the block, so the two sides agree (`Bitmap.set_true_eq`,
`Bitmap.set_false_eq`).

Python's integers are unbounded, and an index may be negative: it then counts from the end.
-/

namespace Cs5600.Lab4

/-- The position that an index of a sequence of `n` elements means. -/
def fromEnd (n : ℕ) (k : ℤ) : ℤ := if k < 0 then k + n else k

/-- An index in range is a number below the length. -/
theorem toNat_lt_of_mem {n : ℕ} {k : ℤ} (h : 0 ≤ k ∧ k < n) : k.toNat < n := by omega

/-- The element that `a[k]` accesses in a sequence of `n` elements. There is none when the access
raises an `IndexError`. -/
def pyIndex (n : ℕ) (k : ℤ) : Option (Fin n) :=
  if h : 0 ≤ fromEnd n k ∧ fromEnd n k < n then some ⟨(fromEnd n k).toNat, toNat_lt_of_mem h⟩
  else none

/-- An index is counted from the end when it is negative. -/
theorem pyIndex_eq_some {n : ℕ} {k : ℤ} {j : Fin n} :
    pyIndex n k = some j ↔ fromEnd n k = (j : ℕ) := by
  unfold pyIndex
  constructor
  · intro h
    split_ifs at h with hk
    have hj := congrArg Fin.val (Option.some.inj h)
    rw [← hj]
    exact (Int.toNat_of_nonneg hk.1).symm
  · intro h
    have hj := j.2
    have hpos : (fromEnd n k).toNat = j := by omega
    rw [dif_pos ⟨by omega, by omega⟩]
    exact congrArg some (Fin.ext hpos)

/-- `bitmap`: the 1024 values of type `c_uint`. -/
structure Bitmap where
  vals : Fin 1024 → UInt32

namespace Bitmap

/-- `get`. -/
def get (m : Bitmap) (i : ℤ) : Option Bool := do
  let k ← pyIndex 1024 (i / 32)
  let n := (m.vals k).toNat
  let mask := 1 <<< (i % 32).toNat
  some (n &&& mask != 0)

/-- `set`. -/
def set (m : Bitmap) (i : ℤ) (val : Bool) : Option Bitmap := do
  let mask := 1 <<< (i % 32).toNat
  let k ← pyIndex 1024 (i / 32)
  let n := (m.vals k).toNat
  let n := if val then n ||| mask else n &&& (mask ^^^ 0xffffffff)
  some ⟨Function.update m.vals k (UInt32.ofNat n)⟩

/-- `bitmap()`, whose values are zero. -/
def zero : Bitmap := ⟨fun _ => 0⟩

/-- The bitmap with the bytes of a block, read as little-endian words. -/
def ofBytes (map : Block) : Bitmap := ⟨fun k => UInt32.ofNat (map.word 4 (4 * k))⟩

/-- A byte of a block is in one of its words. -/
theorem div_four_lt (o : Fin 4096) : (o : ℕ) / 4 < 1024 := by omega

/-- `bytearray(m)`: the bytes of the words, least significant first. -/
def toBytes (m : Bitmap) : Block := fun o =>
  UInt8.ofNat ((m.vals ⟨o / 4, div_four_lt o⟩).toNat / 256 ^ ((o : ℕ) % 4))

/-! ## Bits -/

variable {m m' : Bitmap} {i : ℤ} {j : ℕ}

/-- Bit `r` of word `k` is bit `32 * k + r` of the bytes. -/
theorem bit_toBytes (m : Bitmap) (k : Fin 1024) {r : ℕ} (hr : r < 32) :
    bit m.toBytes (32 * k + r) = (m.vals k).toNat.testBit r := by
  have hk := k.2
  have ho : (32 * (k : ℕ) + r) / 8 < 4096 := by omega
  have hdiv : (32 * (k : ℕ) + r) / 8 / 4 = k := by omega
  have hword : (⟨(32 * (k : ℕ) + r) / 8 / 4, div_four_lt ⟨_, ho⟩⟩ : Fin 1024) = k := Fin.ext hdiv
  have hr' : 8 * ((32 * (k : ℕ) + r) / 8 % 4) + (32 * (k : ℕ) + r) % 8 = r := by omega
  rw [bit, ← BitVec.testBit_toNat, UInt8.toNat_toBitVec, Bytes.get, dif_pos ho, toBytes,
    Bytes.testBit_byte _ _ (Nat.mod_lt _ (by norm_num)), hword, hr']

/-- A block is read into words and written back without a change. -/
theorem toBytes_ofBytes (map : Block) : (ofBytes map).toBytes = map := by
  apply ext_bit
  intro j hj
  have hr : j % 32 < 32 := Nat.mod_lt _ (by norm_num)
  have hk : j / 32 < 1024 := by omega
  have hbits := bit_toBytes (ofBytes map) ⟨j / 32, hk⟩ hr
  have hbyte : 4 * (j / 32) + j % 32 / 8 = j / 8 := by omega
  have hbit : j % 32 % 8 = j % 8 := by omega
  rw [Nat.div_add_mod] at hbits
  rw [hbits, ofBytes, UInt32.toNat_ofNat', Nat.testBit_mod_two_pow, decide_eq_true hr,
    Bool.true_and, Bytes.testBit_word _ _ hr, hbyte, hbit, bit, ← BitVec.testBit_toNat,
    UInt8.toNat_toBitVec]

/-- The word and the bit in it that an index means, as the bit of the block. -/
theorem index_of_fromEnd (hj : j < 32768) (hi : fromEnd 32768 i = j) :
    ∃ (k : Fin 1024) (r : ℕ), r < 32 ∧ pyIndex 1024 (i / 32) = some k ∧ (i % 32).toNat = r ∧
      j = 32 * k + r := by
  refine ⟨⟨j / 32, by omega⟩, j % 32, Nat.mod_lt _ (by norm_num), ?_, ?_, by simp only; omega⟩
  · rw [pyIndex_eq_some]
    unfold fromEnd at hi ⊢
    split_ifs at hi ⊢ <;> push_cast at hi ⊢ <;> omega
  · unfold fromEnd at hi
    split_ifs at hi <;> push_cast at hi <;> omega

/-- The word that `set` stores: `|` and `&` work bit by bit. -/
theorem testBit_stored (n r : ℕ) (val : Bool) {r' : ℕ} (hr' : r' < 32) :
    (UInt32.ofNat (if val then n ||| 1 <<< r else n &&& (1 <<< r ^^^ 0xffffffff))).toNat.testBit r'
    =
      if r' = r then val else n.testBit r' := by
  have hones : Nat.testBit 0xffffffff r' = true := by
    rw [show 0xffffffff = 2 ^ 32 - 1 from rfl, Nat.testBit_two_pow_sub_one, decide_eq_true hr']
  rw [UInt32.toNat_ofNat', Nat.testBit_mod_two_pow, decide_eq_true hr', Bool.true_and,
    Nat.one_shiftLeft]
  cases val
  · rw [if_neg Bool.false_ne_true, Nat.testBit_and, Nat.testBit_xor, Nat.testBit_two_pow, hones]
    by_cases h : r' = r <;> simp [h, Ne.symm]
  · rw [if_pos rfl, Nat.testBit_or, Nat.testBit_two_pow]
    by_cases h : r' = r <;> simp [h, Ne.symm]

/-- `get` reads the bit. -/
theorem get_eq (m : Bitmap) (hj : j < 32768) (hi : fromEnd 32768 i = j) :
    m.get i = some (bit m.toBytes j) := by
  obtain ⟨k, r, hr, hk, hmask, rfl⟩ := index_of_fromEnd hj hi
  simp only [get, hk, hmask, Option.bind_eq_bind, Option.bind_some, Nat.one_shiftLeft,
    Nat.and_two_pow, bit_toBytes m k hr]
  cases (m.vals k).toNat.testBit r <;> simp

/-- `set` writes the bit and no other. -/
theorem set_eq (m : Bitmap) (val : Bool) (hj : j < 32768) (hi : fromEnd 32768 i = j) :
    ∃ m', m.set i val = some m' ∧
      ∀ j' < 32768, bit m'.toBytes j' = if j' = j then val else bit m.toBytes j' := by
  obtain ⟨k, r, hr, hk, hmask, rfl⟩ := index_of_fromEnd hj hi
  generalize hn : UInt32.ofNat (if val then (m.vals k).toNat ||| 1 <<< r
    else (m.vals k).toNat &&& (1 <<< r ^^^ 0xffffffff)) = n
  refine ⟨⟨Function.update m.vals k n⟩, ?_, fun j' hj' => ?_⟩
  · simp only [set, hk, hmask, hn, Option.bind_eq_bind, Option.bind_some]
  -- Bit `j'` lies in word `j' / 32`, which is the one stored or another.
  · have hr' : j' % 32 < 32 := Nat.mod_lt _ (by norm_num)
    have hk' : j' / 32 < 1024 := by omega
    have hbits := fun m => bit_toBytes m ⟨j' / 32, hk'⟩ hr'
    simp only [Nat.div_add_mod] at hbits
    rw [hbits, hbits]
    by_cases hword : (⟨j' / 32, hk'⟩ : Fin 1024) = k
    · have hval : j' / 32 = k := congrArg Fin.val hword
      have hjr : j' = 32 * k + r ↔ j' % 32 = r := by omega
      simp only [hword, Function.update_self, hjr]
      rw [← hn, testBit_stored _ _ _ hr']
    · have hne : j' ≠ 32 * k + r := by
        rintro rfl
        have hval : (32 * (k : ℕ) + r) / 32 = k := by omega
        exact hword (Fin.ext hval)
      simp only [Function.update_of_ne hword, if_neg hne]

/-- An index outside the block raises. -/
theorem fromEnd_of_set {val : Bool} (h : m.set i val = some m') :
    ∃ j < 32768, fromEnd 32768 i = (j : ℕ) := by
  simp only [set, Option.bind_eq_bind, Option.bind_eq_some_iff] at h
  obtain ⟨k, hk, -⟩ := h
  have hlt := k.2
  rw [pyIndex_eq_some] at hk
  refine ⟨32 * k + (i % 32).toNat, by omega, ?_⟩
  unfold fromEnd at hk ⊢
  split_ifs at hk ⊢ <;> push_cast at hk ⊢ <;> omega

/-- `set(i, True)` is `bit_set`. -/
theorem set_true_eq (map : Block) (hj : j < 32768) :
    ((ofBytes map).set j true).map toBytes = some (bitSet map j) := by
  obtain ⟨m', hset, hbit⟩ := set_eq (ofBytes map) true hj (i := j) (by simp [fromEnd])
  rw [hset, Option.map_some, Option.some_inj]
  refine ext_bit fun j' hj' => ?_
  rw [hbit j' hj', toBytes_ofBytes, bit_bitSet _ hj]
  by_cases h : j' = j <;> simp [h]

/-- `set(i, False)` is `bit_clear`. -/
theorem set_false_eq (map : Block) (hj : j < 32768) :
    ((ofBytes map).set j false).map toBytes = some (bitClear map j) := by
  obtain ⟨m', hset, hbit⟩ := set_eq (ofBytes map) false hj (i := j) (by simp [fromEnd])
  rw [hset, Option.map_some, Option.some_inj]
  refine ext_bit fun j' hj' => ?_
  rw [hbit j' hj', toBytes_ofBytes, bit_bitClear _ hj]
  by_cases h : j' = j <;> simp [h]

/-- `get(i)` is `bit_test`. -/
theorem get_eq_bitTest (map : Block) (hj : j < 32768) :
    (ofBytes map).get j = some (bitTest map j != 0) := by
  rw [get_eq (ofBytes map) hj (i := j) (by simp [fromEnd]), toBytes_ofBytes]
  cases hbit : bit map j
  · rw [(bitTest_eq_zero map j).mpr hbit]
    rfl
  · have hne : bitTest map j ≠ 0 := fun h => by
      rw [(bitTest_eq_zero map j).mp h] at hbit
      cases hbit
    rw [Option.some_inj, eq_comm, bne_iff_ne]
    exact hne

end Bitmap

end Cs5600.Lab4
