import Cs5600.Lab1.Caesar

/-!
# Inverting the cipher

`decode` climbs to the key before it takes a remainder, `encode` takes the remainder of the sum as
it is, which is negative for a sum that is. And the climb ends above the key, where a large key
leaves no room.

`encodeChar_kind_iff` and `decodeChar_iff` say when each of them shifts a character, and
`invertible_iff` when both directions of the cipher give a string back.
-/

namespace Cs5600.Lab1

/-- `encode` and `decode` return on `s`, without overflow, `encode` leaves each character in its
alphabet, and each of them takes back what the other does. -/
def Invertible (s : Text) (key : ℤ) : Prop :=
  ∃ e d, encode trapping s key = .ok (e, e) ∧ e.map alphabet = s.map alphabet ∧
    decode trapping e key = .ok (s, s) ∧ decode trapping s key = .ok (d, d) ∧
    encode trapping d key = .ok (s, s)

/-- The key does not shift `c` out of its alphabet, or out of `int` on the way: a key that is not
negative leaves room above it for the number that `decode` climbs to, and a negative one has `c`
back by its distance from the first character, or comes to the first character in steps of the
alphabet. -/
def KeyFits (key : ℤ) (c : UInt8) : Prop :=
  ∀ x ∈ alphabet c,
    if 0 ≤ key then c.toNat + key < 2 ^ 31 ∧ x.1 + key + (c.toNat - x.1 - key) % x.2 < 2 ^ 31
    else c.toNat = x.1 ∧ key % x.2 = 0 ∨ x.1 ≤ c.toNat + key ∧ c.toNat - key < x.1 + x.2

instance (key : ℤ) (c : UInt8) : Decidable (KeyFits key c) :=
  inferInstanceAs (Decidable (∀ x ∈ alphabet c, if 0 ≤ key then _ else _))

/-! ## One character -/

/-- A sum in the range of `int` is as it is. -/
theorem trapping_of_int {n : ℤ} (h : -2 ^ 31 ≤ n ∧ n < 2 ^ 31) : trapping n = .ok n := if_pos h

/-- A sum above the range of `int` is an overflow. -/
theorem trapping_of_large {n : ℤ} (h : 2 ^ 31 ≤ n) : trapping n = .error .overflow :=
  if_neg fun hn => by omega

/-- The remainder of C is that of division with rounding down, for a number that is not negative or
a multiple. -/
theorem tmod_eq_emod {n base : ℤ} (h : 0 ≤ n ∨ n % base = 0) : n.tmod base = n % base := by
  rcases h with h | h
  · exact Int.tmod_eq_emod_of_nonneg h
  · rw [h, Int.tmod_eq_zero_of_dvd (Int.dvd_of_emod_eq_zero h)]

section Char

variable {first base key : ℤ} {c c' : UInt8} (hc : alphabet c = some (first, base))
include hc

/-- What is left of a sum when it is not negative, or 0. -/
theorem alphabet_ofInt_tmod (n : ℤ) :
    alphabet (UInt8.ofInt (n.tmod base + first)) = alphabet c ↔ 0 ≤ n ∨ n % base = 0 := by
  obtain ⟨hkind, -, -⟩ := alphabet_eq_some.mp hc
  rw [hc]
  constructor
  · intro h
    by_contra hno
    -- The remainder is negative.
    have hneg : -base < n.tmod base ∧ n.tmod base < 0 := by
      have htmod : n.tmod base = -(-n % base) := by
        rw [← Int.tmod_eq_emod_of_nonneg (by omega : 0 ≤ -n), Int.neg_tmod, neg_neg]
      rcases hkind with ⟨rfl, rfl⟩ | ⟨rfl, rfl⟩ | ⟨rfl, rfl⟩ <;> omega
    have hnat := toNat_ofInt (n := n.tmod base + first) (by omega) (by omega)
    obtain ⟨-, hle, -⟩ := alphabet_eq_some.mp h
    omega
  · intro h
    rw [tmod_eq_emod h]
    exact (alphabet_ofInt hc n).1

/-- `encode` shifts a character inside its alphabet when the sum is an `int` and not negative, or
its remainder is 0. -/
theorem encodeChar_kind_iff :
    encodeChar trapping first base key c = .ok c' ∧ alphabet c' = alphabet c ↔
      c' = shift key c ∧ (-2 ^ 31 ≤ c.toNat - first + key ∧ c.toNat - first + key < 2 ^ 31) ∧
        (0 ≤ c.toNat - first + key ∨ (c.toNat - first + key) % base = 0) := by
  -- Inside `int` the shift is `tmod`, which agrees with `emod` on what stays in the alphabet.
  by_cases hint : -2 ^ 31 ≤ (c.toNat : ℤ) - first + key ∧ (c.toNat : ℤ) - first + key < 2 ^ 31
  · have hrun : encodeChar trapping first base key c =
        .ok (UInt8.ofInt (((c.toNat : ℤ) - first + key).tmod base + first)) := by
      rw [encodeChar, trapping_of_int hint]
      rfl
    rw [hrun, Except.ok.injEq]
    simp only [hint, true_and]
    constructor
    · rintro ⟨rfl, halpha⟩
      have h := (alphabet_ofInt_tmod hc _).mp halpha
      exact ⟨by simp only [shift, hc, tmod_eq_emod h], h⟩
    · rintro ⟨rfl, h⟩
      exact ⟨by simp only [shift, hc, tmod_eq_emod h], alphabet_shift key c⟩
  -- Outside `int` the addition traps.
  · refine iff_of_false (fun h => ?_) fun h => hint h.2.1
    obtain ⟨n, hn, -⟩ := bind_eq_ok.mp h.1
    exact hint (trapping_eq_ok.mp hn).2

/-- The loop stops at the first number from the key on, if it is an `int` together with the
character that it is counted from. -/
theorem decodeLoop_iff {fuel : ℕ} {a n : ℤ} (hkey : -2 ^ 31 ≤ key ∧ key < 2 ^ 31)
    (ha : first ≤ a ∧ a < 2 ^ 31) (hfuel : key - (a - first) < fuel) (hpos : 0 < fuel) :
    decodeLoop trapping first base key fuel a = .ok n ↔
      if a - first < key then n = (a - first - key) % base ∧ first + key + n < 2 ^ 31
      else n = a - first - key ∧ n < 2 ^ 31 := by
  obtain ⟨hkind, -, -⟩ := alphabet_eq_some.mp hc
  induction fuel generalizing a with
  | zero => cases hpos
  | succ fuel ih =>
    rw [decodeLoop, trapping_of_int (n := a - first) (by omega), ok_bind]
    by_cases hlarge : 2 ^ 31 ≤ a - first - key
    · -- The difference overflows.
      rw [trapping_of_large hlarge, if_neg (by omega)]
      exact iff_of_false (fun h => by cases h) (by omega)
    rw [trapping_of_int (by omega), ok_bind]
    by_cases hneg : a - first - key < 0
    · rw [if_pos hneg, if_pos (by omega)]
      have hmod : (a + base - first - key) % base = (a - first - key) % base := by
        rw [show a + base - first - key = a - first - key + base by omega, Int.add_emod_right]
      by_cases hroom : 2 ^ 31 ≤ a + base
      · rw [trapping_of_large hroom]
        refine iff_of_false (fun h => by cases h) ?_
        -- The number that the loop looks for is further on.
        rcases hkind with ⟨rfl, rfl⟩ | ⟨rfl, rfl⟩ | ⟨rfl, rfl⟩ <;> omega
      rw [trapping_of_int (by omega), ok_bind, ih (by omega) (by omega) (by omega), hmod]
      split_ifs with hmore
      · rfl
      · rcases hkind with ⟨rfl, rfl⟩ | ⟨rfl, rfl⟩ | ⟨rfl, rfl⟩ <;> omega
    · rw [if_neg hneg, if_neg (by omega)]
      constructor
      · intro h
        rw [← Except.ok.inj h]
        exact ⟨rfl, by omega⟩
      · rintro ⟨rfl, -⟩
        rfl

/-- `decode` shifts a character back when it finds room above the key. -/
theorem decodeChar_iff (hkey : -2 ^ 31 ≤ key ∧ key < 2 ^ 31) :
    decodeChar trapping first base key c = .ok c' ↔
      c' = shift (-key) c ∧
        if c.toNat - first < key then first + key + (c.toNat - first - key) % base < 2 ^ 31
        else c.toNat - first - key < 2 ^ 31 := by
  obtain ⟨hkind, hle, hlt⟩ := alphabet_eq_some.mp hc
  -- The loop of `decode` has `2^31 + 1` passes, more than any key needs.
  have hloop : ∀ n, decodeLoop trapping first base key (2 ^ 31 + 1) c.toNat = .ok n ↔ _ := fun n =>
    decodeLoop_iff hc hkey ⟨hle, by omega⟩ (by push_cast; omega) (by omega)
  constructor
  · intro h
    obtain ⟨n, hn, -⟩ := bind_eq_ok.mp h
    have hroom := (hloop n).mp hn
    refine ⟨decodeChar_trapping hc h, ?_⟩
    split_ifs at hroom ⊢ with hclimb
    · rw [← hroom.1]
      exact hroom.2
    · rw [← hroom.1]
      exact hroom.2
  · rintro ⟨rfl, hroom⟩
    obtain ⟨n, hn⟩ : ∃ n, decodeLoop trapping first base key (2 ^ 31 + 1) c.toNat = .ok n := by
      simp only [hloop]
      split_ifs at hroom ⊢ with hclimb
      · exact ⟨_, rfl, hroom⟩
      · exact ⟨_, rfl, hroom⟩
    have hrun : decodeChar trapping first base key c = .ok (UInt8.ofInt (n.tmod base + first)) :=
      bind_eq_ok.mpr ⟨n, hn, rfl⟩
    rw [hrun, decodeChar_trapping hc hrun]

/-- What `Invertible` says of one character. -/
theorem keyFits_iff (hkey : -2 ^ 31 ≤ key ∧ key < 2 ^ 31) :
    (∃ e d, encodeChar trapping first base key c = .ok e ∧ alphabet e = alphabet c ∧
      decodeChar trapping first base key e = .ok c ∧ decodeChar trapping first base key c = .ok d ∧
      encodeChar trapping first base key d = .ok c) ↔ KeyFits key c := by
  obtain ⟨hkind, hle, hlt⟩ := alphabet_eq_some.mp hc
  have hfits : KeyFits key c ↔ if 0 ≤ key then
        c.toNat + key < 2 ^ 31 ∧ first + key + (c.toNat - first - key) % base < 2 ^ 31
      else c.toNat = first ∧ key % base = 0 ∨
        first ≤ c.toNat + key ∧ c.toNat - key < first + base := by
    simp [KeyFits, hc]
  -- The characters that `c` is encoded and decoded to.
  have hshift : ∀ n, alphabet (shift n c) = some (first, base) ∧
      ((shift n c).toNat : ℤ) = (c.toNat - first + n) % base + first := by
    intro n
    simp only [shift, hc]
    exact alphabet_ofInt hc _
  have hinv : shift (-key) (shift key c) = c ∧ shift key (shift (-key) c) = c := by
    rw [shift_shift, shift_shift, Int.add_right_neg, Int.add_left_neg, shift_zero]
    exact ⟨rfl, rfl⟩
  have hboth : (∃ e d, encodeChar trapping first base key c = .ok e ∧ alphabet e = alphabet c ∧
      decodeChar trapping first base key e = .ok c ∧ decodeChar trapping first base key c = .ok d ∧
      encodeChar trapping first base key d = .ok c) ↔
      encodeChar trapping first base key c = .ok (shift key c) ∧
      decodeChar trapping first base key (shift key c) = .ok c ∧
      decodeChar trapping first base key c = .ok (shift (-key) c) ∧
      encodeChar trapping first base key (shift (-key) c) = .ok c := by
    constructor
    · rintro ⟨e, d, he, halpha, hde, hd, hed⟩
      obtain ⟨rfl, -⟩ := (encodeChar_kind_iff hc).mp ⟨he, halpha⟩
      obtain ⟨rfl, -⟩ := (decodeChar_iff hc hkey).mp hd
      exact ⟨he, hde, hd, hed⟩
    · rintro ⟨he, hde, hd, hed⟩
      exact ⟨_, _, he, alphabet_shift key c, hde, hd, hed⟩
  have hencode : encodeChar trapping first base key c = .ok (shift key c) ↔ _ :=
    (and_iff_left (alphabet_shift key c)).symm.trans
      ((encodeChar_kind_iff hc).trans (and_iff_right rfl))
  have hback : decodeChar trapping first base key (shift key c) = .ok c ↔ _ :=
    (decodeChar_iff (hshift key).1 hkey).trans (and_iff_right hinv.1.symm)
  have hdecode : decodeChar trapping first base key c = .ok (shift (-key) c) ↔ _ :=
    (decodeChar_iff hc hkey).trans (and_iff_right rfl)
  have hforth : encodeChar trapping first base key (shift (-key) c) = .ok c ↔ _ :=
    (and_iff_left (alphabet_shift (-key) c).symm).symm.trans
      ((encodeChar_kind_iff (hshift (-key)).1).trans (and_iff_right hinv.2.symm))
  rw [hboth, hfits, hencode, hback, hdecode, hforth, (hshift key).2, (hshift (-key)).2]
  by_cases hneg : 0 ≤ key
  · simp only [if_pos hneg]
    rcases hkind with ⟨rfl, rfl⟩ | ⟨rfl, rfl⟩ | ⟨rfl, rfl⟩ <;> split_ifs <;> omega
  · simp only [if_neg hneg]
    rcases hkind with ⟨rfl, rfl⟩ | ⟨rfl, rfl⟩ | ⟨rfl, rfl⟩ <;> split_ifs <;> omega

end Char

/-! ## A string -/

section String

variable {s : Text} {c : UInt8} {first base : ℤ}

/-- A text that starts with a legal character is shifted when the character and the rest are. -/
theorem shiftAll_cons_iff {f : ℤ → ℤ → UInt8 → Except Fault UInt8} {t : Text}
    (hc : alphabet c = some (first, base)) : shiftAll f (c :: s) = .ok (t, true) ↔
      ∃ c' t', f first base c = .ok c' ∧ shiftAll f s = .ok (t', true) ∧ t = c' :: t' := by
  simp only [shiftAll, hc, bind_eq_ok]
  constructor
  · rintro ⟨c', hc', ⟨t', legal⟩, ht', h⟩
    obtain ⟨rfl, rfl⟩ := Prod.mk.inj (Except.ok.inj h)
    exact ⟨c', t', hc', ht', rfl⟩
  · rintro ⟨c', t', hc', ht', rfl⟩
    exact ⟨c', hc', (t', true), ht', rfl⟩

/-- A string of digits and letters is shifted whole. -/
theorem shiftAll_legal {f : ℤ → ℤ → UInt8 → Except Fault UInt8} {t : Text} {legal : Bool}
    (hs : Alnum s) (h : shiftAll f s = .ok (t, legal)) : legal = true := by
  induction s generalizing t legal with
  | nil =>
    obtain ⟨-, rfl⟩ := Prod.mk.inj (Except.ok.inj h)
    rfl
  | cons c s ih =>
    obtain ⟨x, hx⟩ := Option.ne_none_iff_exists'.mp (hs c List.mem_cons_self)
    simp only [shiftAll, hx] at h
    obtain ⟨c', -, h⟩ := bind_eq_ok.mp h
    obtain ⟨⟨t', legal'⟩, ht', h⟩ := bind_eq_ok.mp h
    obtain ⟨-, rfl⟩ := Prod.mk.inj (Except.ok.inj h)
    exact ih (fun c hc => hs c (List.mem_cons_of_mem _ hc)) ht'

/-- `encode` returns its buffer on a legal text when it can shift every character. -/
theorem encode_eq_iff {t : Text} {key : ℤ} (hs : Alnum s) : encode trapping s key = .ok (t, t) ↔
    shiftAll (fun first base => encodeChar trapping first base key) s = .ok (t, true) := by
  rw [encode, bind_eq_ok]
  constructor
  · rintro ⟨⟨t', legal⟩, ht', h⟩
    obtain ⟨rfl, -⟩ := Prod.mk.inj (Except.ok.inj h)
    rw [ht', shiftAll_legal hs ht']
  · exact fun h => ⟨_, h, rfl⟩

/-- `decode` returns its buffer on a legal text when it can shift every character. -/
theorem decode_eq_iff {t : Text} {key : ℤ} (hs : Alnum s) : decode trapping s key = .ok (t, t) ↔
    shiftAll (fun first base => decodeChar trapping first base key) s = .ok (t, true) := by
  rw [decode, bind_eq_ok]
  constructor
  · rintro ⟨⟨t', legal⟩, ht', h⟩
    obtain ⟨rfl, -⟩ := Prod.mk.inj (Except.ok.inj h)
    rw [ht', shiftAll_legal hs ht']
  · exact fun h => ⟨_, h, rfl⟩

/-- A text with the same alphabets in the same places is as legal. -/
theorem alnum_of_map_alphabet {e : Text} (h : e.map alphabet = s.map alphabet) (hs : Alnum s) :
    Alnum e := by
  intro c hc hnone
  have hmem : none ∈ s.map alphabet := h ▸ hnone ▸ List.mem_map_of_mem hc
  obtain ⟨c', hc', halpha⟩ := List.mem_map.mp hmem
  exact hs c' hc' halpha

/-- `decode` keeps a text legal. -/
theorem alnum_decode {d : Text} {key : ℤ} (hs : Alnum s) (h : decode trapping s key = .ok (d, d)) :
    Alnum d := by
  obtain ⟨hlegal, hillegal⟩ := hs.parts
  rw [(decode_trapping h).1, hlegal, hillegal, List.append_nil]
  exact hs.map_shift _

end String

/-- **The cipher is invertible**, exactly when the key fits every character. -/
theorem invertible_iff {s : Text} (hs : Alnum s) {key : ℤ} (hkey : -2 ^ 31 ≤ key ∧ key < 2 ^ 31) :
    Invertible s key ↔ ∀ c ∈ s, KeyFits key c := by
  induction s with
  | nil => exact iff_of_true ⟨[], [], rfl, rfl, rfl, rfl, rfl⟩ (by simp)
  | cons c s ih =>
    obtain ⟨⟨first, base⟩, hc⟩ := Option.ne_none_iff_exists'.mp (hs c List.mem_cons_self)
    have hs' : Alnum s := fun c hc => hs c (List.mem_cons_of_mem _ hc)
    rw [List.forall_mem_cons, ← ih hs', ← keyFits_iff hc hkey]
    constructor
    · rintro ⟨e, d, he, halpha, hde, hd, hed⟩
      have hes := alnum_of_map_alphabet halpha hs
      have hds := alnum_decode hs hd
      rw [encode_eq_iff hs, shiftAll_cons_iff hc] at he
      rw [decode_eq_iff hs, shiftAll_cons_iff hc] at hd
      -- The four calls take their strings apart at the first character.
      obtain ⟨e₀, e, he₀, he, rfl⟩ := he
      obtain ⟨d₀, d, hd₀, hd, rfl⟩ := hd
      obtain ⟨halpha₀, halpha⟩ := List.cons.inj halpha
      have hdalpha : alphabet d₀ = some (first, base) := by
        rw [decodeChar_trapping hc hd₀, alphabet_shift, hc]
      rw [decode_eq_iff hes, shiftAll_cons_iff (halpha₀.trans hc)] at hde
      rw [encode_eq_iff hds, shiftAll_cons_iff hdalpha] at hed
      obtain ⟨c', s', hde₀, hde, h⟩ := hde
      obtain ⟨rfl, rfl⟩ := List.cons.inj h
      obtain ⟨c'', s'', hed₀, hed, h⟩ := hed
      obtain ⟨rfl, rfl⟩ := List.cons.inj h
      refine ⟨⟨e₀, d₀, he₀, halpha₀, hde₀, hd₀, hed₀⟩, e, d, ?_⟩
      have hes' : Alnum e := fun c hc => hes c (List.mem_cons_of_mem _ hc)
      have hds' : Alnum d := fun c hc => hds c (List.mem_cons_of_mem _ hc)
      rw [encode_eq_iff hs', decode_eq_iff hes', decode_eq_iff hs', encode_eq_iff hds']
      exact ⟨he, halpha, hde, hd, hed⟩
    · rintro ⟨⟨e₀, d₀, he₀, halpha₀, hde₀, hd₀, hed₀⟩, e, d, he, halpha, hde, hd, hed⟩
      -- The other way the four results are put together again.
      have halpha' : (e₀ :: e).map alphabet = (c :: s).map alphabet := by
        rw [List.map_cons, List.map_cons, halpha₀, halpha]
      have hes := alnum_of_map_alphabet halpha hs'
      have hes' := alnum_of_map_alphabet halpha' hs
      have hds := alnum_decode hs' hd
      have hdalpha : alphabet d₀ = some (first, base) := by
        rw [decodeChar_trapping hc hd₀, alphabet_shift, hc]
      have hds' : Alnum (d₀ :: d) := by
        intro c hmem
        rcases List.mem_cons.mp hmem with rfl | hmem
        · simp [hdalpha]
        · exact hds c hmem
      refine ⟨e₀ :: e, d₀ :: d, ?_⟩
      rw [encode_eq_iff hs'] at he
      rw [decode_eq_iff hes] at hde
      rw [decode_eq_iff hs'] at hd
      rw [encode_eq_iff hds] at hed
      rw [encode_eq_iff hs, decode_eq_iff hes', decode_eq_iff hs, encode_eq_iff hds',
        shiftAll_cons_iff hc, shiftAll_cons_iff (halpha₀.trans hc), shiftAll_cons_iff hc,
        shiftAll_cons_iff hdalpha]
      exact ⟨⟨e₀, e, he₀, he, rfl⟩, halpha', ⟨c, s, hde₀, hde, rfl⟩, ⟨d₀, d, hd₀, hd, rfl⟩,
        c, s, hed₀, hed, rfl⟩

/-- A key that is larger than every alphabet. -/
theorem invertible_large : Invertible (text "SdWEBqgXnW") 1512277930 :=
  (invertible_iff (by decide +kernel) (by decide)).mpr (by decide +kernel)

/-- `encode("0", -1)` is `"/"`. -/
theorem not_invertible_negative : ¬ Invertible (text "0") (-1) := by
  rintro ⟨e, d, he, halpha, -⟩
  have hrun : encode trapping (text "0") (-1) = .ok (text "/", text "/") := by decide +kernel
  rw [hrun] at he
  obtain ⟨rfl, -⟩ := Prod.mk.inj (Except.ok.inj he)
  exact absurd halpha (by decide +kernel)

end Cs5600.Lab1
