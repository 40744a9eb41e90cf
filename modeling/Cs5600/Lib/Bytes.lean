import Mathlib.Algebra.Group.Nat.Defs
import Mathlib.Data.List.GetD
import Mathlib.Data.List.TakeWhile
import Mathlib.Tactic.Common

/-!
# Fixed-size byte buffers

A buffer of `n` bytes is read and written at byte offsets, as C code does through a `char *`. `get`
reads one byte, and `blit` overwrites a window with a list of bytes, which is every store of a C
program: a field assignment, `memcpy`, and `strcpy`. `get_blit` is what a store does to each byte;
the word and string reads below are reads of windows (`slice`, `cstr`), so each of them commutes
with a store outside its window.
-/

namespace Cs5600

/-- A buffer of `n` bytes. -/
def Bytes (n : ℕ) : Type := Fin n → UInt8

namespace Bytes

variable {n : ℕ}

/-- The byte at an offset, and zero outside the buffer. -/
def get (b : Bytes n) (i : ℕ) : UInt8 := if h : i < n then b ⟨i, h⟩ else 0

/-- The buffer whose byte at offset `i` is `f i`. -/
def ofFn (f : ℕ → UInt8) : Bytes n := fun i => f i

/-- The buffer of zero bytes. -/
def zero : Bytes n := ofFn fun _ => 0

/-- The buffer with the bytes `l` stored from offset `off` on. -/
def blit (b : Bytes n) (off : ℕ) (l : List UInt8) : Bytes n :=
  ofFn fun i => if off ≤ i ∧ i < off + l.length then l.getD (i - off) 0 else b.get i

/-- The `len` bytes from offset `off` on. -/
def slice (b : Bytes n) (off len : ℕ) : List UInt8 := (List.range len).map fun i => b.get (off + i)

/-- The bytes of a function are its values. -/
theorem get_ofFn (f : ℕ → UInt8) {i : ℕ} (h : i < n) : (ofFn f : Bytes n).get i = f i := by
  simp [get, ofFn, h]

/-- A zero array has zero bytes. -/
@[simp]
theorem get_zero (i : ℕ) : (zero : Bytes n).get i = 0 := by
  unfold get zero ofFn
  split_ifs <;> rfl

/-- There are zeros behind the end. -/
theorem get_of_le (b : Bytes n) {i : ℕ} (h : n ≤ i) : b.get i = 0 := by
  simp [get, Nat.not_lt.mpr h]

/-- Two buffers with the same bytes are equal. -/
theorem ext_get {b c : Bytes n} (h : ∀ i < n, b.get i = c.get i) : b = c := by
  funext i
  have hi := h i i.isLt
  simpa [get] using hi

/-- What a store does to each byte of the buffer. -/
theorem get_blit (b : Bytes n) (off : ℕ) (l : List UInt8) {i : ℕ} (h : i < n) :
    (b.blit off l).get i =
      if off ≤ i ∧ i < off + l.length then l.getD (i - off) 0 else b.get i := by
  rw [blit, get_ofFn _ h]

/-- A store leaves the bytes outside its window unchanged. -/
theorem get_blit_outside (b : Bytes n) (off : ℕ) (l : List UInt8) {i : ℕ}
    (h : i < off ∨ off + l.length ≤ i) : (b.blit off l).get i = b.get i := by
  rcases Nat.lt_or_ge i n with hi | hi
  · rw [get_blit _ _ _ hi, if_neg (by omega)]
  · rw [get_of_le _ hi, get_of_le _ hi]

/-- A store puts its bytes into its window. -/
theorem get_blit_inside (b : Bytes n) (off : ℕ) (l : List UInt8) {k : ℕ} (hk : k < l.length)
    (hfit : off + l.length ≤ n) : (b.blit off l).get (off + k) = l[k] := by
  rw [get_blit _ _ _ (by omega), if_pos (by omega), Nat.add_sub_cancel_left]
  simp [hk]

/-- A one-byte store puts its byte. -/
theorem get_blit_singleton (b : Bytes n) {off : ℕ} (v : UInt8) (h : off < n) :
    (b.blit off [v]).get off = v :=
  get_blit_inside b off [v] (k := 0) (by simp) (by simp; omega)

/-- A slice has the length that is asked for. -/
@[simp]
theorem length_slice (b : Bytes n) (off len : ℕ) : (b.slice off len).length = len := by
  simp [slice]

/-- A window read depends only on the bytes of the window. -/
theorem slice_congr {b c : Bytes n} {off len : ℕ}
    (h : ∀ i < len, b.get (off + i) = c.get (off + i)) : b.slice off len = c.slice off len := by
  apply List.map_congr_left
  intro i hi
  exact h i (List.mem_range.mp hi)

/-- A window read back after it was stored. -/
theorem slice_blit_self (b : Bytes n) (off : ℕ) (l : List UInt8) (hfit : off + l.length ≤ n) :
    (b.blit off l).slice off l.length = l := by
  apply List.ext_getElem
  · simp
  · intro i h1 h2
    simp only [slice, List.getElem_map, List.getElem_range]
    exact get_blit_inside b off l h2 hfit

/-! ## Little-endian words -/

/-- The `k` low bytes of a number, least significant first. -/
def leBytes : ℕ → ℕ → List UInt8
  | 0, _ => []
  | k + 1, w => UInt8.ofNat w :: leBytes k (w / 256)

/-- The number that a list of bytes represents, least significant first. -/
def leVal : List UInt8 → ℕ
  | [] => 0
  | b :: bs => b.toNat + 256 * leVal bs

/-- A number of `k` bytes has `k` bytes. -/
@[simp]
theorem length_leBytes (k w : ℕ) : (leBytes k w).length = k := by
  induction k generalizing w with
  | zero => rfl
  | succ k ih => simp [leBytes, ih]

/-- Bytes of a word read back as the word, modulo the word's size. -/
theorem leVal_leBytes (k w : ℕ) : leVal (leBytes k w) = w % 256 ^ k := by
  induction k generalizing w with
  | zero => simp [leBytes, leVal, Nat.mod_one]
  | succ k ih =>
    have hb : (UInt8.ofNat w).toNat = w % 256 := by simp
    rw [leBytes, leVal, ih, hb, Nat.pow_succ', Nat.mod_mul]

/-- Bytes give a number that fits into them. -/
theorem leVal_lt (l : List UInt8) : leVal l < 256 ^ l.length := by
  induction l with
  | nil => simp [leVal]
  | cons b bs ih =>
    have hb := b.toNat_lt
    rw [leVal, List.length_cons, Nat.pow_succ']
    omega

/-- The byte at position `j` of a word. -/
theorem getD_leBytes {k j : ℕ} (w : ℕ) (h : j < k) :
    (leBytes k w).getD j 0 = UInt8.ofNat (w / 256 ^ j) := by
  induction k generalizing w j with
  | zero => omega
  | succ k ih =>
    cases j with
    | zero => simp [leBytes]
    | succ j =>
      rw [leBytes, List.getD_cons_succ, ih _ (by omega), Nat.div_div_eq_div_mul, Nat.pow_succ']

/-- The `k`-byte little-endian word at an offset. -/
def word (b : Bytes n) (k off : ℕ) : ℕ := leVal (b.slice off k)

/-- A word of `k` bytes fits into them. -/
theorem word_lt (b : Bytes n) (k off : ℕ) : b.word k off < 256 ^ k := by
  have h := leVal_lt (b.slice off k)
  rwa [length_slice] at h

/-- Zero bytes are the number zero. -/
theorem leVal_replicate_zero (k : ℕ) : leVal (List.replicate k 0) = 0 := by
  induction k with
  | zero => rfl
  | succ k ih => simp [List.replicate_succ, leVal, ih]

/-- A word of zero bytes is zero. -/
theorem word_eq_zero {b : Bytes n} {k off : ℕ} (h : ∀ i < k, b.get (off + i) = 0) :
    b.word k off = 0 := by
  have hs : b.slice off k = List.replicate k 0 := by
    rw [List.eq_replicate_iff]
    refine ⟨length_slice b off k, ?_⟩
    intro x hx
    obtain ⟨i, hi, rfl⟩ := List.mem_map.mp hx
    exact h i (List.mem_range.mp hi)
  rw [word, hs, leVal_replicate_zero]

/-- A word depends only on its bytes. -/
theorem word_congr {b c : Bytes n} {k off : ℕ}
    (h : ∀ i < k, b.get (off + i) = c.get (off + i)) : b.word k off = c.word k off := by
  rw [word, word, slice_congr h]

/-- A word whose bytes are those of `w` is `w`. -/
theorem word_of_leBytes {b : Bytes n} {k off : ℕ} (w : ℕ)
    (h : ∀ j < k, b.get (off + j) = UInt8.ofNat (w / 256 ^ j)) : b.word k off = w % 256 ^ k := by
  have hs : b.slice off k = leBytes k w := by
    apply List.ext_getElem
    · simp
    · intro j h1 h2
      rw [length_slice] at h1
      have hj := getD_leBytes w h1
      rw [List.getD_eq_getElem _ _ h2] at hj
      simp only [slice, List.getElem_map, List.getElem_range]
      rw [h j h1, hj]
  rw [word, hs, leVal_leBytes]

/-- A word read back after it was stored. -/
theorem word_blit_self (b : Bytes n) (k off w : ℕ) (hfit : off + k ≤ n) :
    (b.blit off (leBytes k w)).word k off = w % 256 ^ k := by
  have h := slice_blit_self b off (leBytes k w) (by simpa using hfit)
  rw [length_leBytes] at h
  rw [word, h, leVal_leBytes]

/-- A word outside the window of a store is unchanged. -/
theorem word_blit_outside (b : Bytes n) (k off off' : ℕ) (l : List UInt8)
    (h : off + k ≤ off' ∨ off' + l.length ≤ off) : (b.blit off' l).word k off = b.word k off := by
  apply word_congr
  intro i hi
  exact get_blit_outside b off' l (by omega)

/-- Bit `i` of a word is bit `i % 8` of its byte `i / 8`. -/
theorem testBit_leVal (l : List UInt8) (i : ℕ) :
    (leVal l).testBit i = (l.getD (i / 8) 0).toNat.testBit (i % 8) := by
  induction l generalizing i with
  | nil => simp [leVal]
  | cons b bs ih =>
    have hval : leVal (b :: bs) = 2 ^ 8 * leVal bs + b.toNat := by
      rw [leVal]
      omega
    rw [hval, Nat.testBit_two_pow_mul_add _ b.toNat_lt]
    split_ifs with hi
    · rw [Nat.div_eq_of_lt hi, Nat.mod_eq_of_lt hi, List.getD_cons_zero]
    · have hdiv : i / 8 = (i - 8) / 8 + 1 := by omega
      have hmod : i % 8 = (i - 8) % 8 := by omega
      rw [ih, hdiv, hmod, List.getD_cons_succ]

/-- Bit `i` of the word at an offset is bit `i % 8` of the byte that is `i / 8` bytes on. -/
theorem testBit_word (b : Bytes n) (off : ℕ) {k i : ℕ} (h : i < 8 * k) :
    (b.word k off).testBit i = (b.get (off + i / 8)).toNat.testBit (i % 8) := by
  have hbyte : (b.slice off k).getD (i / 8) 0 = b.get (off + i / 8) := by
    rw [slice, List.getD_eq_getElem _ _ (by rw [List.length_map, List.length_range]; omega),
      List.getElem_map, List.getElem_range]
  rw [word, testBit_leVal, hbyte]

/-- Bit `i` of byte `j` of a word is bit `8 * j + i` of the word. -/
theorem testBit_byte (w j : ℕ) {i : ℕ} (h : i < 8) :
    (UInt8.ofNat (w / 256 ^ j)).toNat.testBit i = w.testBit (8 * j + i) := by
  have hpow : 256 ^ j = 2 ^ (8 * j) := by rw [Nat.pow_mul]
  rw [UInt8.toNat_ofNat', Nat.testBit_mod_two_pow, decide_eq_true h, Bool.true_and, hpow,
    Nat.testBit_div_two_pow, Nat.add_comm i]

/-! ## NUL-terminated strings -/

/-- At most `fuel` bytes from offset `off` on, up to the first zero byte. -/
def cstrAux (b : Bytes n) : ℕ → ℕ → List UInt8
  | 0, _ => []
  | fuel + 1, off => if b.get off = 0 then [] else b.get off :: cstrAux b fuel (off + 1)

/-- The C string at an offset: the bytes up to the first NUL, or up to the end of the buffer. -/
def cstr (b : Bytes n) (off : ℕ) : List UInt8 := b.cstrAux (n - off) off

/-- A string is read up to its first NUL. -/
theorem cstrAux_eq (b : Bytes n) (l : List UInt8) (hl : 0 ∉ l) :
    ∀ (fuel off : ℕ), l.length < fuel → (∀ k, (h : k < l.length) → b.get (off + k) = l[k]) →
      b.get (off + l.length) = 0 → b.cstrAux fuel off = l := by
  -- Induction on the string.
  induction l with
  | nil =>
    intro fuel off hf _ h0
    obtain ⟨m, rfl⟩ : ∃ m, fuel = m + 1 := ⟨fuel - 1, by simp at hf; omega⟩
    simpa [cstrAux] using h0
  | cons a l ih =>
    intro fuel off hf hget h0
    obtain ⟨m, rfl⟩ : ∃ m, fuel = m + 1 := ⟨fuel - 1, by omega⟩
    simp only [List.mem_cons, not_or] at hl
    have ha : b.get off = a := hget 0 (by simp)
    have hrest : b.cstrAux m (off + 1) = l := by
      refine ih hl.2 m (off + 1) (by simpa using hf) ?_ ?_
      · intro k hk
        have hk' := hget (k + 1) (by simpa using hk)
        rw [show off + 1 + k = off + (k + 1) by omega]
        simpa using hk'
      · rw [show off + 1 + l.length = off + (a :: l).length by simp; omega]
        exact h0
    have ha0 : ¬ a = 0 := fun h => hl.1 h.symm
    simp [cstrAux, ha, ha0, hrest]

/-- A NUL-free string stored with its NUL reads back. -/
theorem cstr_blit_self (b : Bytes n) (off : ℕ) (l : List UInt8) (hl : 0 ∉ l)
    (hfit : off + l.length + 1 ≤ n) : (b.blit off (l ++ [0])).cstr off = l := by
  refine cstrAux_eq _ l hl _ _ (by omega) ?_ ?_
  · intro k hk
    rw [get_blit_inside b off (l ++ [0]) (by simp; omega) (by simp; omega)]
    simp [hk]
  · rw [get_blit_inside b off (l ++ [0]) (by simp) (by simp; omega)]
    simp

/-- A string is read as far as its NUL only. -/
theorem cstrAux_congr {b c : Bytes n} :
    ∀ (m fuel off : ℕ), b.get (off + m) = 0 → (∀ i ≤ m, c.get (off + i) = b.get (off + i)) →
      c.cstrAux fuel off = b.cstrAux fuel off := by
  -- Induction on where the zero byte lies.
  intro m
  induction m with
  | zero =>
    intro fuel off h0 h
    have hb : b.get off = 0 := h0
    have hc : c.get off = 0 := by simpa using (h 0 le_rfl).trans h0
    cases fuel with
    | zero => rfl
    | succ fuel => simp [cstrAux, hb, hc]
  | succ m ih =>
    intro fuel off h0 h
    have hc : c.get off = b.get off := by simpa using h 0 (by omega)
    cases fuel with
    | zero => rfl
    | succ fuel =>
      have hrest : c.cstrAux fuel (off + 1) = b.cstrAux fuel (off + 1) := by
        apply ih
        · rwa [show off + 1 + m = off + (m + 1) by omega]
        · intro i hi
          rw [show off + 1 + i = off + (i + 1) by omega]
          exact h (i + 1) (by omega)
      simp [cstrAux, hc, hrest]

/-- A string with a NUL at most `m` bytes on depends only on these bytes. -/
theorem cstr_congr {b c : Bytes n} {m off : ℕ} (h0 : b.get (off + m) = 0)
    (h : ∀ i ≤ m, c.get (off + i) = b.get (off + i)) : c.cstr off = b.cstr off :=
  cstrAux_congr m _ off h0 h

/-- A string is no longer than the way to a NUL. -/
theorem length_cstrAux_le (b : Bytes n) :
    ∀ (m fuel off : ℕ), b.get (off + m) = 0 → (b.cstrAux fuel off).length ≤ m := by
  intro m
  induction m with
  | zero =>
    intro fuel off h0
    have hb : b.get off = 0 := h0
    cases fuel with
    | zero => simp [cstrAux]
    | succ fuel => simp [cstrAux, hb]
  | succ m ih =>
    intro fuel off h0
    cases fuel with
    | zero => simp [cstrAux]
    | succ fuel =>
      rw [cstrAux]
      split_ifs
      · simp
      · have := ih fuel (off + 1) (by rwa [show off + 1 + m = off + (m + 1) by omega])
        simpa using this

/-- A string with a NUL at most `m` bytes on has at most `m` bytes. -/
theorem length_cstr_le {b : Bytes n} {m off : ℕ} (h0 : b.get (off + m) = 0) :
    (b.cstr off).length ≤ m :=
  length_cstrAux_le b m _ off h0

/-- There is no NUL in a string. -/
theorem zero_notMem_cstrAux (b : Bytes n) : ∀ fuel off : ℕ, 0 ∉ b.cstrAux fuel off := by
  intro fuel
  induction fuel with
  | zero => simp [cstrAux]
  | succ fuel ih =>
    intro off
    rw [cstrAux]
    split_ifs with h
    · simp
    · simp only [List.mem_cons, not_or]
      exact ⟨fun h' => h h'.symm, ih (off + 1)⟩

/-- A C string has no NUL. -/
theorem zero_notMem_cstr (b : Bytes n) (off : ℕ) : 0 ∉ b.cstr off := zero_notMem_cstrAux b _ off

end Bytes

end Cs5600
