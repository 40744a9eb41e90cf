import Mathlib.Data.List.TakeWhile
import Mathlib.Data.Nat.Digits.Defs
import Mathlib.Tactic.Common

/-!
# Decimal numbers as text

`decimal` is what `sprintf` writes for `%d`, and `atoi` reads such text back: it skips white space,
takes a sign, and reads digits up to the first byte that is none.
-/

namespace Cs5600

def isDigit (c : UInt8) : Bool := 48 ≤ c && c ≤ 57

/-- `isspace` in the C locale. -/
def isSpace (c : UInt8) : Bool := c == 32 || (9 ≤ c && c ≤ 13)

/-- The number that the digits at the start of a string spell. -/
def digitsValue (s : List UInt8) : ℕ :=
  (s.takeWhile isDigit).foldl (fun acc c => 10 * acc + (c.toNat - 48)) 0

def atoi (s : List UInt8) : ℤ :=
  match s.dropWhile isSpace with
  | 45 :: s => -(digitsValue s : ℤ)
  | 43 :: s => digitsValue s
  | s => digitsValue s

/-- `atoi` as the C library has it: `strtol`, which stops at the ends of a `long` of 64 bits, stored
in an `int`. -/
def atoiInt (s : List UInt8) : ℤ := (max (-2 ^ 63) (min (2 ^ 63 - 1) (atoi s))).bmod (2 ^ 32)

/-- A digit is no blank. -/
theorem isSpace_of_isDigit {c : UInt8} (h : isDigit c = true) : isSpace c = false := by
  simp only [isDigit, Bool.and_eq_true, decide_eq_true_iff, UInt8.le_iff_toNat_le] at h
  simp only [isSpace, Bool.or_eq_false_iff, beq_eq_false_iff_ne, ne_eq, Bool.and_eq_false_iff,
    decide_eq_false_iff_not, UInt8.le_iff_toNat_le, ← UInt8.toNat_inj]
  simp only [UInt8.reduceToNat] at h ⊢
  omega

/-- The digit of a number below 10. -/
def digitChar (d : ℕ) : UInt8 := UInt8.ofNat (48 + d)

/-- `%d` of a number that is not negative. -/
def decimal (n : ℕ) : List UInt8 :=
  if n = 0 then [48] else ((Nat.digits 10 n).map digitChar).reverse

/-- The digits have the codes from 48 on. -/
theorem toNat_digitChar {d : ℕ} (h : d < 10) : (digitChar d).toNat = 48 + d := by
  rw [digitChar, UInt8.toNat_ofNat']
  omega

/-- The character of a digit is a digit. -/
theorem isDigit_digitChar {d : ℕ} (h : d < 10) : isDigit (digitChar d) = true := by
  have hd := toNat_digitChar h
  rw [isDigit, Bool.and_eq_true, decide_eq_true_iff, decide_eq_true_iff, UInt8.le_iff_toNat_le,
    UInt8.le_iff_toNat_le, hd]
  exact ⟨Nat.le_add_right 48 d, by simp; omega⟩

/-- A number is written with digits. -/
theorem isDigit_of_mem_decimal {n : ℕ} {c : UInt8} (h : c ∈ decimal n) : isDigit c = true := by
  unfold decimal at h
  split_ifs at h with hn
  · rw [List.mem_singleton.mp h]
    rfl
  · obtain ⟨d, hd, rfl⟩ := List.mem_map.mp (List.mem_reverse.mp h)
    exact isDigit_digitChar (Nat.digits_lt_base (by norm_num) hd)

/-- The text of a number has no `NUL`. -/
theorem zero_notMem_decimal (n : ℕ) : 0 ∉ decimal n := fun h =>
  absurd (isDigit_of_mem_decimal h) (by decide)

/-- A number has a digit. -/
theorem decimal_ne_nil (n : ℕ) : decimal n ≠ [] := by
  unfold decimal
  split_ifs with hn
  · exact List.cons_ne_nil _ _
  · simpa [Nat.digits_eq_nil_iff_eq_zero] using hn

/-- The digits of a number give it back. -/
theorem digitsValue_decimal (n : ℕ) : digitsValue (decimal n) = n := by
  unfold digitsValue
  rw [List.takeWhile_eq_self_iff.mpr fun c hc => isDigit_of_mem_decimal hc]
  unfold decimal
  split_ifs with hn
  · rw [hn]
    rfl
  · rw [List.foldl_reverse, List.foldr_map]
    -- The most significant digit comes first, so the fold is the value of the digits.
    have hfold : ∀ l : List ℕ, (∀ d ∈ l, d < 10) →
        l.foldr (fun d acc => 10 * acc + ((digitChar d).toNat - 48)) 0 = Nat.ofDigits 10 l := by
      intro l hl
      induction l with
      | nil => rfl
      | cons d l ih =>
        rw [List.forall_mem_cons] at hl
        rw [List.foldr_cons, ih hl.2, toNat_digitChar hl.1, Nat.ofDigits_cons]
        omega
    rw [hfold _ fun d hd => Nat.digits_lt_base (by norm_num) hd, Nat.ofDigits_digits]

/-- The text of a number is read back as the number. -/
theorem atoi_decimal (n : ℕ) : atoi (decimal n) = n := by
  obtain ⟨c, s, hs⟩ := List.exists_cons_of_ne_nil (decimal_ne_nil n)
  have hc : isDigit c = true := isDigit_of_mem_decimal (n := n) (by simp [hs])
  have hspace := isSpace_of_isDigit hc
  have hdrop : (decimal n).dropWhile isSpace = decimal n := by
    rw [hs, List.dropWhile_cons_of_neg (by simp [hspace])]
  unfold atoi
  rw [hdrop]
  split
  · rename_i h45
    obtain rfl : c = 45 := (List.cons.inj (hs.symm.trans h45)).1
    exact absurd hc (by decide)
  · rename_i h43
    obtain rfl : c = 43 := (List.cons.inj (hs.symm.trans h43)).1
    exact absurd hc (by decide)
  · rw [digitsValue_decimal]

end Cs5600
