import Mathlib.Data.Int.Notation
import Mathlib.Data.List.TakeWhile
import Mathlib.Tactic.Common
import Mathlib.Tactic.NormNum

/-!
# The Caesar cipher

`encode` and `decode` of `caesar.c` work in place, so each is given by what it leaves in its
argument and what it returns: the argument, or `"ILLCHAR"` when it meets a character that is neither
a digit nor a letter. It has then changed the characters in front of it.

What becomes of a sum that is no `int` is a parameter (`Arith`). On the machines that the programs
are built for it wraps around (`wrapping`); C does not define it (`trapping`).
-/

namespace Cs5600.Lab1

/-- A C string, without the null character that ends it. -/
abbrev Text : Type := List UInt8

/-- A string literal. -/
def text (s : String) : Text := s.toList.map Char.toUInt8

/-- Why a function does not return. -/
inductive Fault
  /-- The result of a signed operation is out of range. -/
  | overflow
  /-- An array is indexed out of its range. -/
  | range
  /-- A pointer does not point to an allocated node. -/
  | memory
  /-- A loop is still running. -/
  | running
deriving DecidableEq

/-- What becomes of the result of an `int` operation. -/
abbrev Arith : Type := ℤ → Except Fault ℤ

def wrapping : Arith := fun n => .ok (n.bmod (2 ^ 32))

def trapping : Arith := fun n => if -2 ^ 31 ≤ n ∧ n < 2 ^ 31 then .ok n else .error .overflow

/-- The first character and the number of the characters that `c` is shifted among: digits, small
letters or capital letters. -/
def alphabet (c : UInt8) : Option (ℤ × ℤ) :=
  if 48 ≤ c ∧ c ≤ 57 then some (48, 10)
  else if 97 ≤ c ∧ c ≤ 122 then some (97, 26)
  else if 65 ≤ c ∧ c ≤ 90 then some (65, 26)
  else none

def illchar : Text := text "ILLCHAR"

variable (int : Arith)

/-- One character of `encode`: `(c - first + key) % base + first`. -/
def encodeChar (first base key : ℤ) (c : UInt8) : Except Fault UInt8 := do
  let n ← int ((c.toNat : ℤ) - first + key)
  return UInt8.ofInt (n.tmod base + first)

/-- `while (c - first - key < 0) c += base;`, which ends with the value of `c - first - key`. -/
def decodeLoop (first base key : ℤ) : ℕ → ℤ → Except Fault ℤ
  | 0, _ => .error .running
  | fuel + 1, c => do
    let n ← int ((← int (c - first)) - key)
    if n < 0 then decodeLoop first base key fuel (← int (c + base)) else return n

/-- One character of `decode`. The loop adds to a negative `int` until it is negative no more. -/
def decodeChar (first base key : ℤ) (c : UInt8) : Except Fault UInt8 := do
  let n ← decodeLoop int first base key (2 ^ 31 + 1) c.toNat
  return UInt8.ofInt (n.tmod base + first)

/-- The loop of `encode` and `decode`, with `shift` for one character: the string that it leaves,
and whether it has got to the end. -/
def shiftAll (shift : ℤ → ℤ → UInt8 → Except Fault UInt8) : Text → Except Fault (Text × Bool)
  | [] => return ([], true)
  | c :: s =>
    match alphabet c with
    | none => return (c :: s, false)
    | some (first, base) => do
      let c ← shift first base c
      let (s, legal) ← shiftAll shift s
      return (c :: s, legal)

/-- What `encode` leaves in `plaintext`, and what it returns. -/
def encode (plaintext : Text) (key : ℤ) : Except Fault (Text × Text) := do
  let (s, legal) ← shiftAll (fun first base => encodeChar int first base key) plaintext
  return (s, if legal then s else illchar)

/-- What `decode` leaves in `ciphertext`, and what it returns. -/
def decode (ciphertext : Text) (key : ℤ) : Except Fault (Text × Text) := do
  let (s, legal) ← shiftAll (fun first base => decodeChar int first base key) ciphertext
  return (s, if legal then s else illchar)

/-! ## The shift -/

/-- `c` moved on by `n` places among the characters of its kind, around their end. -/
def shift (n : ℤ) (c : UInt8) : UInt8 :=
  match alphabet c with
  | none => c
  | some (first, base) => UInt8.ofInt (((c.toNat : ℤ) - first + n) % base + first)

/-- What is in the three alphabets. -/
theorem alphabet_eq_some {c : UInt8} {first base : ℤ} : alphabet c = some (first, base) ↔
    (first = 48 ∧ base = 10 ∨ first = 97 ∧ base = 26 ∨ first = 65 ∧ base = 26) ∧
      first ≤ c.toNat ∧ (c.toNat : ℤ) < first + base := by
  simp only [alphabet, UInt8.le_iff_toNat_le, UInt8.reduceToNat]
  split_ifs <;> simp only [Option.some.injEq, Prod.mk.injEq, false_iff] <;> omega

/-- A number below 256 is the byte that it is stored as. -/
theorem toNat_ofInt {n : ℤ} (h0 : 0 ≤ n) (h : n < 256) : ((UInt8.ofInt n).toNat : ℤ) = n := by
  rw [UInt8.ofInt, UInt8.toNat_ofNat']
  omega

/-- A shifted character is of the same kind. -/
theorem alphabet_ofInt {c : UInt8} {first base : ℤ} (h : alphabet c = some (first, base)) (n : ℤ) :
    alphabet (UInt8.ofInt (n % base + first)) = some (first, base) ∧
      ((UInt8.ofInt (n % base + first)).toNat : ℤ) = n % base + first := by
  obtain ⟨hkind, -, -⟩ := alphabet_eq_some.mp h
  have hpos : 0 < base := by omega
  have hnonneg := Int.emod_nonneg n hpos.ne'
  have hlt := Int.emod_lt_of_pos n hpos
  have hnat := toNat_ofInt (n := n % base + first) (by omega) (by omega)
  exact ⟨alphabet_eq_some.mpr ⟨hkind, by omega, by omega⟩, hnat⟩

/-- Shifting a character keeps it in its alphabet. -/
theorem alphabet_shift (n : ℤ) (c : UInt8) : alphabet (shift n c) = alphabet c := by
  unfold shift
  cases h : alphabet c with
  | none => exact h
  | some x => exact (alphabet_ofInt h _).1

/-- Shifts add up. -/
theorem shift_shift (m n : ℤ) (c : UInt8) : shift m (shift n c) = shift (n + m) c := by
  cases h : alphabet c with
  | none => simp only [shift, h]
  | some x =>
    obtain ⟨first, base⟩ := x
    have halpha := alphabet_ofInt h ((c.toNat : ℤ) - first + n)
    simp only [shift, h, halpha.1, halpha.2]
    congr 2
    rw [show ((c.toNat : ℤ) - first + n) % base + first - first + m =
      ((c.toNat : ℤ) - first + n) % base + m by omega, Int.emod_add_emod]
    congr 1
    omega

/-- A shift by 0 does nothing. -/
theorem shift_zero (c : UInt8) : shift 0 c = c := by
  cases h : alphabet c with
  | none => simp only [shift, h]
  | some x =>
    obtain ⟨first, base⟩ := x
    obtain ⟨hkind, hle, hlt⟩ := alphabet_eq_some.mp h
    simp only [shift, h]
    rw [Int.emod_eq_of_lt (by omega) (by omega)]
    apply UInt8.toNat_inj.mp
    have := toNat_ofInt (n := (c.toNat : ℤ) - first + 0 + first) (by omega) (by omega)
    omega

/-! ## Without overflow -/

/-- A result that traps when it is out of range is an `int` when it does not. -/
theorem trapping_eq_ok {n m : ℤ} : trapping n = .ok m ↔ m = n ∧ -2 ^ 31 ≤ n ∧ n < 2 ^ 31 := by
  unfold trapping
  split_ifs with h
  · rw [Except.ok.injEq]
    exact ⟨fun heq => ⟨heq.symm, h⟩, fun heq => heq.1.symm⟩
  · exact ⟨fun heq => (by cases heq), fun heq => absurd heq.2 h⟩

/-- A step that returns hands its value on. -/
@[simp] theorem ok_bind {α β : Type} (a : α) (f : α → Except Fault β) :
    (Except.ok a >>= f) = f a := rfl

/-- Two steps fail when the first one does, or the second one on what the first one returns. -/
theorem bind_eq_error {α β : Type} {x : Except Fault α} {f : α → Except Fault β} {e : Fault} :
    x >>= f = .error e ↔ x = .error e ∨ ∃ a, x = .ok a ∧ f a = .error e := by
  cases x with
  | error e' =>
    constructor
    · intro h
      cases h
      exact .inl rfl
    · rintro (h | ⟨a, ha, -⟩)
      · cases h
        rfl
      · cases ha
  | ok a =>
    constructor
    · intro h
      exact .inr ⟨a, rfl, h⟩
    · rintro (h | ⟨a', ha, h⟩)
      · cases h
      · cases ha
        exact h

/-- Two steps return when both do. -/
theorem bind_eq_ok {α β : Type} {x : Except Fault α} {f : α → Except Fault β} {b : β} :
    x >>= f = .ok b ↔ ∃ a, x = .ok a ∧ f a = .ok b := by
  cases x with
  | error e =>
    constructor
    · intro h
      cases h
    · rintro ⟨a, ha, -⟩
      cases ha
  | ok a =>
    constructor
    · intro h
      exact ⟨a, rfl, h⟩
    · rintro ⟨a', ha, h⟩
      cases ha
      exact h

/-- Where C defines its sums, `encode` shifts a character by the key. -/
theorem encodeChar_trapping {first base key : ℤ} {c c' : UInt8}
    (hc : alphabet c = some (first, base)) (hkey : 0 ≤ key)
    (h : encodeChar trapping first base key c = .ok c') : c' = shift key c := by
  obtain ⟨n, hn, hc'⟩ := bind_eq_ok.mp h
  obtain ⟨rfl, -⟩ := trapping_eq_ok.mp hn
  obtain ⟨-, hle, -⟩ := alphabet_eq_some.mp hc
  cases hc'
  simp only [shift, hc]
  rw [Int.tmod_eq_emod_of_nonneg (by omega)]

/-- The loop ends at a number that is not negative, with the remainder of the one it began with. -/
theorem decodeLoop_trapping {first base key : ℤ} {fuel : ℕ} {c n : ℤ}
    (h : decodeLoop trapping first base key fuel c = .ok n) :
    0 ≤ n ∧ n % base = (c - first - key) % base := by
  -- Induction on the fuel; each pass adds `base`, which leaves the residue as it is.
  induction fuel generalizing c with
  | zero => cases h
  | succ fuel ih =>
    obtain ⟨a, ha, h⟩ := bind_eq_ok.mp h
    obtain ⟨rfl, -⟩ := trapping_eq_ok.mp ha
    obtain ⟨m, hm, h⟩ := bind_eq_ok.mp h
    obtain ⟨rfl, -⟩ := trapping_eq_ok.mp hm
    split_ifs at h with hneg
    · obtain ⟨c', hc', h⟩ := bind_eq_ok.mp h
      obtain ⟨rfl, -⟩ := trapping_eq_ok.mp hc'
      obtain ⟨hn, hmod⟩ := ih h
      refine ⟨hn, hmod.trans ?_⟩
      rw [show c + base - first - key = c - first - key + base by omega, Int.add_emod_right]
    · cases h
      exact ⟨by omega, rfl⟩

/-- Where C defines its sums, `decode` shifts a character back by the key. -/
theorem decodeChar_trapping {first base key : ℤ} {c c' : UInt8}
    (hc : alphabet c = some (first, base))
    (h : decodeChar trapping first base key c = .ok c') : c' = shift (-key) c := by
  obtain ⟨n, hn, hc'⟩ := bind_eq_ok.mp h
  obtain ⟨hnonneg, hmod⟩ := decodeLoop_trapping hn
  cases hc'
  simp only [shift, hc]
  rw [Int.tmod_eq_emod_of_nonneg hnonneg, hmod, Int.sub_eq_add_neg]

/-- A string of digits and letters. -/
def Alnum (s : Text) : Prop := ∀ c ∈ s, alphabet c ≠ none

instance (s : Text) : Decidable (Alnum s) :=
  inferInstanceAs (Decidable (∀ c ∈ s, alphabet c ≠ none))

/-- The characters in front of the first one that is neither a digit nor a letter. -/
def legalPart (s : Text) : Text := s.takeWhile fun c => (alphabet c).isSome

/-- The loop of `encode` and `decode` shifts what is in front of the first illegal character. -/
theorem shiftAll_eq {f : ℤ → ℤ → UInt8 → Except Fault UInt8} {n : ℤ}
    (hf : ∀ {first base c c'}, alphabet c = some (first, base) → f first base c = .ok c' →
      c' = shift n c) {s s' : Text} {legal : Bool} (h : shiftAll f s = .ok (s', legal)) :
    s' = (legalPart s).map (shift n) ++ s.dropWhile (fun c => (alphabet c).isSome) ∧
      (legal = true ↔ Alnum s) := by
  -- Induction on the string: the loop stops at the first character of no alphabet.
  induction s generalizing s' legal with
  | nil =>
    cases h
    exact ⟨rfl, by simp [Alnum]⟩
  | cons c s ih =>
    unfold shiftAll at h
    cases hc : alphabet c with
    | none =>
      simp only [hc] at h
      cases h
      exact ⟨by simp [legalPart, hc], by simp [Alnum, hc]⟩
    | some x =>
      simp only [hc] at h
      obtain ⟨c', hc', h⟩ := bind_eq_ok.mp h
      obtain ⟨⟨t, b⟩, ht, h⟩ := bind_eq_ok.mp h
      cases h
      obtain ⟨rfl, hlegal⟩ := ih ht
      rw [hf hc hc']
      refine ⟨by simp [legalPart, hc], hlegal.trans ?_⟩
      simp [Alnum, hc]

/-- The loop ends early only where the shift of a character does. -/
theorem shiftAll_error {f : ℤ → ℤ → UInt8 → Except Fault UInt8} {s : Text} {e : Fault}
    (h : shiftAll f s = .error e) :
    ∃ first base c, alphabet c = some (first, base) ∧ f first base c = .error e := by
  induction s with
  | nil => cases h
  | cons c s ih =>
    unfold shiftAll at h
    cases hc : alphabet c with
    | none =>
      simp only [hc] at h
      cases h
    | some x =>
      simp only [hc] at h
      -- Either this character faults or a later one does.
      rcases bind_eq_error.mp h with hx | ⟨c', -, h⟩
      · exact ⟨x.1, x.2, c, hc, hx⟩
      · rcases bind_eq_error.mp h with hrest | ⟨r, -, h⟩
        · exact ih hrest
        · cases h

/-- What is behind the legal part. -/
def illegalPart (s : Text) : Text := s.dropWhile fun c => (alphabet c).isSome

/-- Where C defines its sums, `encode` shifts the characters in front of the first illegal one, and
returns the buffer when there is none. -/
theorem encode_trapping {s buffer e : Text} {key : ℤ} (hkey : 0 ≤ key)
    (h : encode trapping s key = .ok (buffer, e)) :
    buffer = (legalPart s).map (shift key) ++ illegalPart s ∧
      e = if Alnum s then buffer else illchar := by
  obtain ⟨⟨s', legal⟩, hshift, h⟩ := bind_eq_ok.mp h
  cases h
  obtain ⟨hs', hlegal⟩ := shiftAll_eq (fun hc hc' => encodeChar_trapping hc hkey hc') hshift
  exact ⟨hs', if_congr hlegal rfl rfl⟩

/-- Where C defines its sums, `decode` shifts the characters in front of the first illegal one
back. -/
theorem decode_trapping {d buffer r : Text} {key : ℤ}
    (h : decode trapping d key = .ok (buffer, r)) :
    buffer = (legalPart d).map (shift (-key)) ++ illegalPart d ∧
      r = if Alnum d then buffer else illchar := by
  obtain ⟨⟨s', legal⟩, hshift, h⟩ := bind_eq_ok.mp h
  cases h
  obtain ⟨hs', hlegal⟩ := shiftAll_eq decodeChar_trapping hshift
  exact ⟨hs', if_congr hlegal rfl rfl⟩

/-- A legal text is its own legal part. -/
theorem Alnum.parts {s : Text} (h : Alnum s) : legalPart s = s ∧ illegalPart s = [] := by
  have hall : ∀ c ∈ s, (alphabet c).isSome = true :=
    fun c hc => Option.isSome_iff_ne_none.mpr (h c hc)
  exact ⟨List.takeWhile_eq_self_iff.mpr hall, List.dropWhile_eq_nil_iff.mpr hall⟩

/-- Shifts of a whole text add up. -/
theorem map_shift_map_shift (m n : ℤ) (s : Text) :
    (s.map (shift n)).map (shift m) = s.map (shift (n + m)) := by
  simp only [List.map_map, Function.comp_def, shift_shift]

/-- Shifting a text there and back gives it back. -/
theorem map_shift_neg (n : ℤ) (s : Text) : (s.map (shift n)).map (shift (-n)) = s := by
  rw [map_shift_map_shift, Int.add_right_neg, show shift 0 = id from funext shift_zero, List.map_id]

/-- A shifted legal text is legal. -/
theorem Alnum.map_shift {s : Text} (n : ℤ) (h : Alnum s) : Alnum (s.map (shift n)) := by
  intro c hc
  obtain ⟨c', hc', rfl⟩ := List.mem_map.mp hc
  rw [alphabet_shift]
  exact h c' hc'

/-! ## Overflow -/

/-- Each pass of the loop adds to `c - first - key` as long as this is negative, so it does not
wrap. -/
theorem decodeLoop_wrapping (first key : ℤ) {base : ℤ} (hbase : 0 < base) (hbase' : base ≤ 26)
    {fuel : ℕ} {c : ℤ} (hpos : 0 < fuel) (hfuel : -(c - first - key).bmod (2 ^ 32) < fuel) :
    ∃ n, decodeLoop wrapping first base key fuel c = .ok n := by
  induction fuel generalizing c with
  | zero => cases hpos
  | succ fuel ih =>
    -- With wrapping arithmetic a pass of the loop is one `bmod`.
    have hloop : decodeLoop wrapping first base key (fuel + 1) c =
        if (c - first - key).bmod (2 ^ 32) < 0 then
          decodeLoop wrapping first base key fuel ((c + base).bmod (2 ^ 32))
        else .ok ((c - first - key).bmod (2 ^ 32)) := by
      rw [decodeLoop]
      simp only [wrapping, bind, Except.bind, Int.bmod_sub_bmod]
      rfl
    rw [hloop]
    split_ifs with hneg
    -- The pass adds `base` without wrapping, since what it adds to is negative.
    · have hle := Int.le_bmod (x := c - first - key) (m := 2 ^ 32) (by decide)
      have hnext : ((c + base).bmod (2 ^ 32) - first - key).bmod (2 ^ 32) =
          (c - first - key).bmod (2 ^ 32) + base := by
        rw [Int.sub_sub, Int.bmod_sub_bmod,
          show c + base - (first + key) = c - first - key + base by omega,
          ← Int.bmod_add_bmod, Int.bmod_eq_of_le (by omega) (by omega)]
      refine ih (by omega) ?_
      rw [hnext]
      omega
    · exact ⟨_, rfl⟩

/-- Where sums wrap around, `encode` and `decode` always return. -/
theorem encode_wrapping (s : Text) (key : ℤ) : ∃ r, encode wrapping s key = .ok r := by
  cases h : shiftAll (fun first base => encodeChar wrapping first base key) s with
  | error e =>
    obtain ⟨first, base, c, -, hc⟩ := shiftAll_error h
    cases hc
  | ok r => exact ⟨_, by rw [encode, h]; rfl⟩

/-- Where sums wrap around, the loop of `decode` ends for every key. -/
theorem decode_wrapping (s : Text) (key : ℤ) : ∃ r, decode wrapping s key = .ok r := by
  cases h : shiftAll (fun first base => decodeChar wrapping first base key) s with
  | error e =>
    obtain ⟨first, base, c, halpha, hc⟩ := shiftAll_error h
    obtain ⟨hkind, -, -⟩ := alphabet_eq_some.mp halpha
    have hle := Int.le_bmod (x := (c.toNat : ℤ) - first - key) (m := 2 ^ 32) (by decide)
    have hbase : 0 < base ∧ base ≤ 26 := by omega
    have hpos : 0 < 2 ^ 31 + 1 := by decide
    obtain ⟨n, hn⟩ := decodeLoop_wrapping first key hbase.1 hbase.2 hpos (c := c.toNat) (by omega)
    rw [decodeChar, hn] at hc
    cases hc
  | ok r => exact ⟨_, by rw [decode, h]; rfl⟩

end Cs5600.Lab1
