import Cs5600.Lab4.Layout
import Mathlib.Data.List.Range

/-!
# Directory blocks

The entries of a directory block (`struct fs_dirent`), the three searches over them, and the stores
that the operations make into one entry. What a directory block says is `slot`: for each of its 128
entries, the inode number and the name when the entry is valid. `DirOk` is what the file system
keeps of a directory block, and `SlotSet` is a store into one entry; together they determine what
the changed block says (`SlotSet.slot_of_ne`) and which names it binds (`dirEntry_eq_some`).
-/

namespace Cs5600.Lab4

/-- The word of the two bit fields of entry `s`: `valid` is bit 0, `inode` the other 31 bits. -/
def direntWord (b : Block) (s : ℕ) : ℕ := b.word 4 (32 * s)

/-- `dirent->valid` of entry `s`. -/
def direntValid (b : Block) (s : ℕ) : Bool := direntWord b s % 2 == 1

/-- `dirent->inode` of entry `s`. -/
def direntInode (b : Block) (s : ℕ) : ℕ := direntWord b s / 2

/-- `dirent->name` of entry `s`, as a C string. -/
def direntName (b : Block) (s : ℕ) : CString := b.cstr (32 * s + 4)

/-- `dirent->valid = v` in entry `s`. -/
def setDirentValid (b : Block) (s : ℕ) (v : Bool) : Block :=
  b.blit (32 * s) (Bytes.leBytes 4 (direntWord b s / 2 * 2 + v.toNat))

/-- `dirent->inode = i` in entry `s`, kept to its 31 bits. -/
def setDirentInode (b : Block) (s : ℕ) (i : ℤ) : Block :=
  b.blit (32 * s) (Bytes.leBytes 4 (direntWord b s % 2 + 2 * (i % 2^31).toNat))

/-- `strcpy(dirent->name, src)` in entry `s`, where it stays inside the block buffer. -/
def strcpyName (b : Block) (s : ℕ) (src : CString) : Except Fault Block :=
  if 32 * s + 4 + src.length + 1 ≤ 4096 then .ok (b.blit (32 * s + 4) (src ++ [0]))
  else .error .outOfRange

/-- `find_dirent`: the first valid entry with a name. -/
def findDirent (b : Block) (dst : CString) : Option ℕ :=
  (List.range 128).find? fun s => direntValid b s && direntName b s == dst

/-- `find_empty`: the first entry that is not valid. -/
def findEmpty (b : Block) : Option ℕ := (List.range 128).find? fun s => !direntValid b s

/-- `find_full`: the first valid entry. -/
def findFull (b : Block) : Option ℕ := (List.range 128).find? fun s => direntValid b s

/-! ## What a directory block says -/

/-- The inode number and the name of entry `s`, when it is valid. -/
def slot (b : Block) (s : ℕ) : Option (ℕ × CString) :=
  if direntValid b s then some (direntInode b s, direntName b s) else none

/-- The inode number that a directory block binds a name to. -/
def dirEntry (b : Block) (name : CString) : Option ℕ :=
  (findDirent b name).map (direntInode b)

/-- The name of entry `s` has its NUL inside the field, so it has at most 27 bytes. -/
def NameEnds (b : Block) (s : ℕ) : Prop := ∃ k ≤ 27, b.get (32 * s + 4 + k) = 0

/-- The valid entries of a directory block have distinct, non-empty, NUL-terminated names of at most
27 bytes without a slash. -/
structure DirOk (b : Block) : Prop where
  ends : ∀ s < 128, direntValid b s = true → NameEnds b s
  nonempty : ∀ s < 128, direntValid b s = true → direntName b s ≠ []
  noSlash : ∀ s < 128, direntValid b s = true → 47 ∉ direntName b s
  distinct : ∀ s < 128, ∀ t < 128, direntValid b s = true → direntValid b t = true →
    direntName b s = direntName b t → s = t

/-- The first word of an entry has 32 bits. -/
theorem direntWord_lt (b : Block) (s : ℕ) : direntWord b s < 2^32 := b.word_lt 4 _

/-- A slot is empty when its valid bit is clear. -/
theorem slot_eq_none {b : Block} {s : ℕ} : slot b s = none ↔ direntValid b s = false := by
  unfold slot
  split_ifs with h
  · simp [h]
  · simpa using h

/-- A slot holds the number and the name of its valid entry. -/
theorem slot_eq_some {b : Block} {s i : ℕ} {name : CString} :
    slot b s = some (i, name) ↔
      direntValid b s = true ∧ direntInode b s = i ∧ direntName b s = name := by
  unfold slot
  split_ifs with h
  · simp [h]
  · simp [h]

/-- Past the last entry there is nothing. -/
theorem slot_of_ge (b : Block) {s : ℕ} (h : 128 ≤ s) : slot b s = none := by
  have hz : b.word 4 (32 * s) = 0 :=
    Bytes.word_eq_zero fun i _ => Bytes.get_of_le b (by omega)
  rw [slot_eq_none, direntValid, direntWord, hz]
  rfl

/-- A block of zeros has no valid entry. -/
theorem slot_zero (s : ℕ) : slot Bytes.zero s = none := by
  have hz : Bytes.word (Bytes.zero : Block) 4 (32 * s) = 0 :=
    Bytes.word_eq_zero fun i _ => Bytes.get_zero _
  rw [slot_eq_none, direntValid, direntWord, hz]
  rfl

/-- An entry is in one of 128 slots. -/
theorem slot_lt {b : Block} {s : ℕ} {e : ℕ × CString} (h : slot b s = some e) : s < 128 := by
  by_contra hge
  rw [slot_of_ge b (by omega)] at h
  cases h

/-- A name in a directory has at most 27 bytes. -/
theorem DirOk.length_le {b : Block} (h : DirOk b) {s i : ℕ} {name : CString}
    (hs : slot b s = some (i, name)) : name.length ≤ 27 := by
  have hlt := slot_lt hs
  obtain ⟨hv, -, rfl⟩ := slot_eq_some.mp hs
  obtain ⟨k, hk, h0⟩ := h.ends s hlt hv
  exact (Bytes.length_cstr_le h0).trans hk

/-- Two entries of a directory do not have the same name. -/
theorem DirOk.slot_unique {b : Block} (h : DirOk b) {s t i j : ℕ} {name : CString}
    (hs : slot b s = some (i, name)) (ht : slot b t = some (j, name)) : t = s := by
  obtain ⟨hvs, -, hns⟩ := slot_eq_some.mp hs
  obtain ⟨hvt, -, hnt⟩ := slot_eq_some.mp ht
  exact h.distinct t (slot_lt ht) s (slot_lt hs) hvt hvs (hnt.trans hns.symm)

/-- A directory block binds a name to an inode number exactly when one of its entries says so. -/
theorem dirEntry_eq_some {b : Block} (h : DirOk b) {name : CString} {i : ℕ} :
    dirEntry b name = some i ↔ ∃ s, slot b s = some (i, name) := by
  unfold dirEntry
  constructor
  · intro hi
    obtain ⟨s, hs, rfl⟩ := Option.map_eq_some_iff.mp hi
    have hf := List.find?_some hs
    simp only [Bool.and_eq_true, beq_iff_eq] at hf
    exact ⟨s, slot_eq_some.mpr ⟨hf.1, rfl, hf.2⟩⟩
  · rintro ⟨s, hs⟩
    have hlt := slot_lt hs
    obtain ⟨hv, rfl, rfl⟩ := slot_eq_some.mp hs
    have hmem : s ∈ List.range 128 := List.mem_range.mpr hlt
    -- The search stops at the first slot of that name, and names do not occur twice.
    cases hf : findDirent b (direntName b s) with
    | none =>
      have := List.find?_eq_none.mp hf s hmem
      simp [hv] at this
    | some t =>
      have ht := List.find?_some hf
      have htlt := List.mem_range.mp (List.mem_of_find?_eq_some hf)
      simp only [Bool.and_eq_true, beq_iff_eq] at ht
      rw [h.distinct t htlt s hlt ht.1 hv ht.2]
      rfl

/-- `find_dirent` finds the entry that has the name. -/
theorem findDirent_eq_some {b : Block} (h : DirOk b) {name : CString} {s : ℕ} :
    findDirent b name = some s ↔ ∃ i, slot b s = some (i, name) := by
  constructor
  · intro hf
    have hs := List.find?_some hf
    simp only [Bool.and_eq_true, beq_iff_eq] at hs
    exact ⟨_, slot_eq_some.mpr ⟨hs.1, rfl, hs.2⟩⟩
  · rintro ⟨i, hs⟩
    have hd : dirEntry b name = some i := (dirEntry_eq_some h).mpr ⟨s, hs⟩
    obtain ⟨t, ht, -⟩ := Option.map_eq_some_iff.mp hd
    have hlt := slot_lt hs
    obtain ⟨hv, -, hn⟩ := slot_eq_some.mp hs
    have htp := List.find?_some ht
    have htlt := List.mem_range.mp (List.mem_of_find?_eq_some ht)
    simp only [Bool.and_eq_true, beq_iff_eq] at htp
    rw [ht, h.distinct t htlt s hlt htp.1 hv (htp.2.trans hn.symm)]

/-- What `find_empty` finds is an entry that is not valid. -/
theorem findEmpty_some {b : Block} {s : ℕ} (h : findEmpty b = some s) :
    s < 128 ∧ slot b s = none := by
  refine ⟨List.mem_range.mp (List.mem_of_find?_eq_some h), ?_⟩
  rw [slot_eq_none]
  simpa using List.find?_some h

/-- `find_full` fails exactly when the directory has no valid entry. -/
theorem findFull_eq_none {b : Block} : findFull b = none ↔ ∀ s, slot b s = none := by
  rw [findFull, List.find?_eq_none]
  constructor
  · intro h s
    rcases Nat.lt_or_ge s 128 with hs | hs
    · rw [slot_eq_none]
      simpa using h s (List.mem_range.mpr hs)
    · exact slot_of_ge b hs
  · intro h s _
    simpa using slot_eq_none.mp (h s)

/-! ## Stores into one entry -/

/-- Block `b'` is `b` after stores into entry `s`, which then says `v`. -/
structure SlotSet (b b' : Block) (s : ℕ) (v : Option (ℕ × CString)) : Prop where
  lt : s < 128
  outside : ∀ i, i < 32 * s ∨ 32 * s + 32 ≤ i → b'.get i = b.get i
  slot_self : slot b' s = v
  ends : direntValid b' s = true → NameEnds b' s

namespace SlotSet

variable {b b' : Block} {s : ℕ} {v : Option (ℕ × CString)}

/-- The first word of another entry is not changed. -/
theorem direntWord_of_ne (h : SlotSet b b' s v) {t : ℕ} (ht : t ≠ s) :
    direntWord b' t = direntWord b t := by
  apply Bytes.word_congr
  intro i hi
  exact h.outside _ (by omega)

/-- The name of another entry is not changed. -/
theorem direntName_of_ne (h : SlotSet b b' s v) {t : ℕ} (ht : t ≠ s) (hb : NameEnds b t) :
    direntName b' t = direntName b t := by
  obtain ⟨k, hk, h0⟩ := hb
  apply Bytes.cstr_congr h0
  intro i hi
  exact h.outside _ (by omega)

/-- The other entries still say what they said. -/
theorem slot_of_ne (h : SlotSet b b' s v) (hb : DirOk b) {t : ℕ} (ht : t ≠ s) :
    slot b' t = slot b t := by
  rcases Nat.lt_or_ge t 128 with hlt | hge
  · have hw := h.direntWord_of_ne ht
    have hv : direntValid b' t = direntValid b t := by rw [direntValid, direntValid, hw]
    unfold slot
    rw [hv]
    split_ifs with hvalid
    · rw [h.direntName_of_ne ht (hb.ends t hlt hvalid), direntInode, direntInode, hw]
    · rfl
  · rw [slot_of_ge _ hge, slot_of_ge _ hge]

/-- The changed block keeps the invariant when the entry is now invalid or has a good name that no
other entry has. -/
theorem dirOk (h : SlotSet b b' s v) (hb : DirOk b)
    (hv : ∀ i name, v = some (i, name) → name ≠ [] ∧ 47 ∉ name ∧
      ∀ t j, t ≠ s → slot b t ≠ some (j, name)) : DirOk b' := by
  -- What a valid entry of the new block is: the stored one, or an entry of the old block.
  have key : ∀ t < 128, direntValid b' t = true → t ≠ s →
      direntValid b t = true ∧ direntName b' t = direntName b t := by
    intro t ht hvt hts
    have hw : direntValid b' t = direntValid b t := by
      rw [direntValid, direntValid, h.direntWord_of_ne hts]
    have hvb : direntValid b t = true := by rw [← hw]; exact hvt
    exact ⟨hvb, h.direntName_of_ne hts (hb.ends t ht hvb)⟩
  have stored : direntValid b' s = true → direntName b' s ≠ [] ∧ 47 ∉ direntName b' s ∧
      ∀ t j, t ≠ s → slot b t ≠ some (j, direntName b' s) := by
    intro hvs
    exact hv _ _ (h.slot_self ▸ slot_eq_some.mpr ⟨hvs, rfl, rfl⟩)
  refine ⟨?_, ?_, ?_, ?_⟩
  · intro t ht hvt
    by_cases hts : t = s
    · subst hts; exact h.ends hvt
    · obtain ⟨k, hk, h0⟩ := hb.ends t ht (key t ht hvt hts).1
      refine ⟨k, hk, ?_⟩
      rw [h.outside _ (by omega)]
      exact h0
  · intro t ht hvt
    by_cases hts : t = s
    · subst hts; exact (stored hvt).1
    · rw [(key t ht hvt hts).2]; exact hb.nonempty t ht (key t ht hvt hts).1
  · intro t ht hvt
    by_cases hts : t = s
    · subst hts; exact (stored hvt).2.1
    · rw [(key t ht hvt hts).2]; exact hb.noSlash t ht (key t ht hvt hts).1
  · intro t ht t' ht' hvt hvt' hname
    by_cases hts : t = s
    · subst hts
      by_contra hne
      obtain ⟨hb1, hb2⟩ := key t' ht' hvt' (fun e => hne e.symm)
      exact (stored hvt).2.2 t' _ (fun e => hne e.symm)
        (slot_eq_some.mpr ⟨hb1, rfl, by rw [← hb2, hname]⟩)
    · by_cases hts' : t' = s
      · subst hts'
        obtain ⟨hb1, hb2⟩ := key t ht hvt hts
        exact absurd (slot_eq_some.mpr ⟨hb1, rfl, by rw [← hb2, hname]⟩)
          ((stored hvt').2.2 t _ hts)
      · obtain ⟨h1, e1⟩ := key t ht hvt hts
        obtain ⟨h2, e2⟩ := key t' ht' hvt' hts'
        exact hb.distinct t ht t' ht' h1 h2 (by rw [← e1, ← e2, hname])

end SlotSet

/-- Setting the valid bit sets bit 0 of the word. -/
theorem direntWord_setDirentValid (b : Block) {s : ℕ} (hs : s < 128) (v : Bool) :
    direntWord (setDirentValid b s v) s = direntWord b s / 2 * 2 + v.toNat := by
  have hw := direntWord_lt b s
  have hv : v.toNat ≤ 1 := Bool.toNat_le v
  rw [direntWord, setDirentValid, Bytes.word_blit_self _ _ _ _ (by omega)]
  omega

/-- Setting the inode number sets the other bits of the word. -/
theorem direntWord_setDirentInode (b : Block) {s : ℕ} (hs : s < 128) (i : ℤ) :
    direntWord (setDirentInode b s i) s = direntWord b s % 2 + 2 * (i % 2^31).toNat := by
  rw [direntWord, setDirentInode, Bytes.word_blit_self _ _ _ _ (by omega)]
  omega

/-- Setting the valid bit changes no byte outside of the word. -/
theorem get_setDirentValid (b : Block) (s : ℕ) (v : Bool) {i : ℕ}
    (h : i < 32 * s ∨ 32 * s + 4 ≤ i) : (setDirentValid b s v).get i = b.get i := by
  rw [setDirentValid, Bytes.get_blit_outside _ _ _ (by simpa using h)]

/-- Setting the inode number changes no byte outside of the word. -/
theorem get_setDirentInode (b : Block) (s : ℕ) (j : ℤ) {i : ℕ}
    (h : i < 32 * s ∨ 32 * s + 4 ≤ i) : (setDirentInode b s j).get i = b.get i := by
  rw [setDirentInode, Bytes.get_blit_outside _ _ _ (by simpa using h)]

/-- `dirent->valid = 0` takes an entry away. -/
theorem slotSet_clear (b : Block) {s : ℕ} (hs : s < 128) :
    SlotSet b (setDirentValid b s false) s none := by
  have hv : direntValid (setDirentValid b s false) s = false := by
    rw [direntValid, direntWord_setDirentValid b hs]
    simp
  refine ⟨hs, fun i hi => get_setDirentValid b s false (by omega), slot_eq_none.mpr hv, ?_⟩
  rw [hv]
  simp

/-- A name of at most 27 bytes that is copied into an entry stays inside the entry. -/
theorem strcpyName_eq (b : Block) {s : ℕ} {name : CString} (hs : s < 128)
    (hlen : name.length ≤ 27) :
    strcpyName b s name = .ok (b.blit (32 * s + 4) (name ++ [0])) := by
  rw [strcpyName, if_pos (by omega)]

/-- Copying a name changes no byte outside of the name's field. -/
theorem get_blit_name (b : Block) {s : ℕ} {name : CString} (hlen : name.length ≤ 27) {i : ℕ}
    (h : i < 32 * s + 4 ∨ 32 * s + 32 ≤ i) :
    (b.blit (32 * s + 4) (name ++ [0])).get i = b.get i := by
  rw [Bytes.get_blit_outside _ _ _ (by simp; omega)]

/-- The name and its end, once the name has been copied into an entry. -/
theorem direntName_blit (b : Block) {s : ℕ} {name : CString} (hs : s < 128)
    (hlen : name.length ≤ 27) (h0 : 0 ∉ name) :
    direntName (b.blit (32 * s + 4) (name ++ [0])) s = name ∧
      NameEnds (b.blit (32 * s + 4) (name ++ [0])) s := by
  refine ⟨Bytes.cstr_blit_self b _ name h0 (by omega), name.length, hlen, ?_⟩
  rw [Bytes.get_blit_inside b (32 * s + 4) (name ++ [0]) (by simp) (by simp; omega)]
  simp

/-- A block whose entry `s` has its word and its name, and is `b` elsewhere, is `b` with the entry
set. -/
theorem slotSet_of_fields {b b' : Block} {s i : ℕ} {name : CString} (hs : s < 128)
    (hout : ∀ j, j < 32 * s ∨ 32 * s + 32 ≤ j → b'.get j = b.get j)
    (hword : direntWord b' s = 1 + 2 * i) (hname : direntName b' s = name) (hends : NameEnds b' s) :
    SlotSet b b' s (some (i, name)) := by
  refine ⟨hs, hout, slot_eq_some.mpr ⟨?_, ?_, hname⟩, fun _ => hends⟩
  · rw [direntValid, hword]
    simp
  · rw [direntInode, hword]
    omega

/-- An entry with the same bytes has the same name. -/
theorem nameEnds_congr {b c : Block} {s : ℕ}
    (h : ∀ i, 32 * s + 4 ≤ i → i < 32 * s + 32 → c.get i = b.get i) (hb : NameEnds b s) :
    NameEnds c s ∧ direntName c s = direntName b s := by
  obtain ⟨k, hk, h0⟩ := hb
  refine ⟨⟨k, hk, ?_⟩, ?_⟩
  · rw [h _ (by omega) (by omega)]
    exact h0
  · apply Bytes.cstr_congr h0
    intro i hi
    exact h _ (by omega) (by omega)

/-- The stores of `fs_create` into an entry: the name, `valid`, and `inode`. -/
theorem slotSet_create (b : Block) {s i : ℕ} {name : CString} (hs : s < 128)
    (hlen : name.length ≤ 27) (h0 : 0 ∉ name) (hi : i < 2^31) :
    SlotSet b (setDirentInode (setDirentValid (b.blit (32 * s + 4) (name ++ [0])) s true) s i) s
      (some (i, name)) := by
  obtain ⟨hn, he⟩ := direntName_blit b hs hlen h0
  -- The valid bit and the inode number lie in the word before the name.
  have hget : ∀ j, 32 * s + 4 ≤ j → j < 32 * s + 32 →
      (setDirentInode (setDirentValid (b.blit (32 * s + 4) (name ++ [0])) s true) s i).get j =
        (b.blit (32 * s + 4) (name ++ [0])).get j := by
    intro j h1 _
    rw [get_setDirentInode _ _ _ (by omega), get_setDirentValid _ _ _ (by omega)]
  obtain ⟨he', hn'⟩ := nameEnds_congr hget he
  refine slotSet_of_fields hs ?_ ?_ (hn'.trans hn) he'
  · intro j hj
    rw [get_setDirentInode _ _ _ (by omega), get_setDirentValid _ _ _ (by omega),
      get_blit_name b hlen (by omega)]
  · rw [direntWord_setDirentInode _ hs, direntWord_setDirentValid _ hs]
    have hmod : (((i : ℕ) : ℤ) % 2^31).toNat = i := by omega
    rw [hmod]
    simp only [Bool.toNat_true]
    omega

/-- The stores of `fs_mkdir` into an entry: `valid`, the name, and `inode`. -/
theorem slotSet_mkdir (b : Block) {s i : ℕ} {name : CString} (hs : s < 128)
    (hlen : name.length ≤ 27) (h0 : 0 ∉ name) (hi : i < 2^31) :
    SlotSet b (setDirentInode ((setDirentValid b s true).blit (32 * s + 4) (name ++ [0])) s i) s
      (some (i, name)) := by
  obtain ⟨hn, he⟩ := direntName_blit (setDirentValid b s true) hs hlen h0
  have hget : ∀ j, 32 * s + 4 ≤ j → j < 32 * s + 32 →
      (setDirentInode ((setDirentValid b s true).blit (32 * s + 4) (name ++ [0])) s i).get j =
        ((setDirentValid b s true).blit (32 * s + 4) (name ++ [0])).get j := by
    intro j h1 _
    rw [get_setDirentInode _ _ _ (by omega)]
  obtain ⟨he', hn'⟩ := nameEnds_congr hget he
  refine slotSet_of_fields hs ?_ ?_ (hn'.trans hn) he'
  · intro j hj
    rw [get_setDirentInode _ _ _ (by omega), get_blit_name _ hlen (by omega),
      get_setDirentValid _ _ _ (by omega)]
  -- Writing the name leaves the word before it.
  · have hw : direntWord ((setDirentValid b s true).blit (32 * s + 4) (name ++ [0])) s =
        direntWord (setDirentValid b s true) s := Bytes.word_blit_outside _ _ _ _ _ (by omega)
    rw [direntWord_setDirentInode _ hs, hw, direntWord_setDirentValid _ hs]
    have hmod : (((i : ℕ) : ℤ) % 2^31).toNat = i := by omega
    rw [hmod]
    simp only [Bool.toNat_true]
    omega

/-- The store of `fs_rename` into a valid entry: its name. -/
theorem slotSet_rename (b : Block) {s i : ℕ} {old name : CString} (hs : s < 128)
    (hold : slot b s = some (i, old)) (hlen : name.length ≤ 27) (h0 : 0 ∉ name) :
    SlotSet b (b.blit (32 * s + 4) (name ++ [0])) s (some (i, name)) := by
  obtain ⟨hn, he⟩ := direntName_blit b hs hlen h0
  obtain ⟨hv, hi, -⟩ := slot_eq_some.mp hold
  refine slotSet_of_fields hs ?_ ?_ hn he
  · intro j hj
    rw [get_blit_name b hlen (by omega)]
  · have hw : direntWord (b.blit (32 * s + 4) (name ++ [0])) s = direntWord b s :=
      Bytes.word_blit_outside _ _ _ _ _ (by omega)
    rw [direntValid, beq_iff_eq] at hv
    rw [direntInode] at hi
    omega

end Cs5600.Lab4
