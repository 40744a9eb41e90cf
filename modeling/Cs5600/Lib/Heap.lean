import Mathlib.Data.Finmap
import Mathlib.Data.Finset.Lattice.Fold
import Mathlib.Data.List.Nodup
import Mathlib.Order.Lattice.Nat
import Mathlib.Tactic.Common

/-!
# Heap cells and linked lists

A heap of one kind of cell: the cells that are allocated at a moment, by address. `malloc` may
return any address that is not in use, so its choice is a parameter (`Allocator`), and an address
may come back after a `free`. A pointer is `Option ℕ`, with `none` for `NULL`; following one into
the heap is a lookup, which has no result when the cell is not allocated.

`Seg` is a list segment: the cells one meets from a pointer by following `next`, in order, up to the
pointer where it ends. A null-terminated list is a segment that ends in `none`. `scan` is the search
loop over such a list, and `scan_seg` is what it does.
-/

namespace Cs5600

/-- The allocated cells of one kind, by address. -/
abbrev Heap (α : Type) : Type := Finmap fun _ : ℕ => α

/-- The addresses that `malloc` returns: never one that is in use. -/
structure Allocator where
  pick : Finset ℕ → ℕ
  pick_notMem : ∀ s, pick s ∉ s

/-- An allocator that leaves `n` addresses out above the largest one in use. -/
def above (n : ℕ) : Allocator where
  pick s := s.sup id + n + 1
  pick_notMem s hs := by
    have hle : s.sup id + n + 1 ≤ s.sup id := Finset.le_sup (f := id) hs
    omega

namespace Heap

variable {α : Type} {next : α → Option ℕ} {h h' : Heap α} {p q : Option ℕ} {l : List (ℕ × α)}

/-- `malloc` of a cell that holds `x`: the address and the heap with the cell. -/
def malloc (A : Allocator) (x : α) (h : Heap α) : ℕ × Heap α :=
  (A.pick h.keys, h.insert (A.pick h.keys) x)

/-- `free` of the cell at `a`. Freeing an address that is not allocated has no result. -/
def free (a : ℕ) (h : Heap α) : Option (Heap α) := if a ∈ h then some (h.erase a) else none

/-- An address that is allocated can be freed. -/
theorem free_of_lookup {a : ℕ} {x : α} (ha : h.lookup a = some x) : h.free a = some (h.erase a) :=
  if_pos (Finmap.mem_of_lookup_eq_some ha)

/-- A new address is not in use. -/
theorem pick_notMem (A : Allocator) (h : Heap α) : A.pick h.keys ∉ h :=
  fun hmem => A.pick_notMem h.keys (Finmap.mem_keys.mpr hmem)

/-- A cell that is allocated keeps its contents when another one is allocated. -/
theorem lookup_insert_pick (A : Allocator) {a : ℕ} {x y : α} (ha : h.lookup a = some x) :
    (h.insert (A.pick h.keys) y).lookup a = some x := by
  have hne : a ≠ A.pick h.keys := by
    rintro rfl
    exact pick_notMem A h (Finmap.mem_of_lookup_eq_some ha)
  rw [Finmap.lookup_insert_of_ne _ hne, ha]

/-! ## The number of cells -/

/-- `malloc` adds one cell. -/
theorem card_malloc (A : Allocator) (x : α) (h : Heap α) :
    (h.insert (A.pick h.keys) x).keys.card = h.keys.card + 1 := by
  have hkeys : (h.insert (A.pick h.keys) x).keys = Insert.insert (A.pick h.keys) h.keys := by
    ext a
    rw [Finmap.mem_keys, Finmap.mem_insert, Finset.mem_insert, Finmap.mem_keys]
  rw [hkeys, Finset.card_insert_of_notMem (A.pick_notMem h.keys)]

/-- An assignment adds no cell. -/
theorem card_insert_of_mem {a : ℕ} (x : α) (ha : a ∈ h) :
    (h.insert a x).keys.card = h.keys.card := by
  have hkeys : (h.insert a x).keys = h.keys := by
    ext b
    rw [Finmap.mem_keys, Finmap.mem_insert, Finmap.mem_keys, or_iff_right_of_imp]
    rintro rfl
    exact ha
  rw [hkeys]

/-- `free` takes one cell away. -/
theorem card_free {a : ℕ} (hfree : h.free a = some h') : h'.keys.card + 1 = h.keys.card := by
  rw [free] at hfree
  split_ifs at hfree with ha
  have hmem : a ∈ h.keys := Finmap.mem_keys.mpr ha
  have hpos := Finset.card_pos.mpr ⟨a, hmem⟩
  rw [← Option.some.inj hfree, Finmap.keys_erase, Finset.card_erase_of_mem hmem]
  omega

/-- A heap without cells is empty. -/
theorem eq_empty (hcard : h.keys.card = 0) : h = ∅ := by
  refine Finmap.ext_lookup fun a => ?_
  rw [Finmap.lookup_empty, Finmap.lookup_eq_none, ← Finmap.mem_keys, Finset.card_eq_zero.mp hcard]
  exact Finset.notMem_empty a

/-- A cell that is not erased. -/
theorem lookup_foldl_erase {β : Type} (f : β → ℕ) {a : ℕ} {l : List β} {h : Heap α}
    (ha : ∀ x ∈ l, f x ≠ a) : (l.foldl (fun h x => h.erase (f x)) h).lookup a = h.lookup a := by
  induction l generalizing h with
  | nil => rfl
  | cons x l ih =>
    rw [List.forall_mem_cons] at ha
    rw [List.foldl_cons, ih ha.2, Finmap.lookup_erase_ne ha.1.symm]

/-- Cells that are erased one after the other, each of them once. -/
theorem card_foldl_erase {β : Type} (f : β → ℕ) {l : List β} {h : Heap α} (hl : (l.map f).Nodup)
    (hmem : ∀ x ∈ l, f x ∈ h) :
    (l.foldl (fun h x => h.erase (f x)) h).keys.card + l.length = h.keys.card := by
  induction l generalizing h with
  | nil => rfl
  | cons x l ih =>
    rw [List.map_cons, List.nodup_cons] at hl
    rw [List.forall_mem_cons] at hmem
    have hrest := ih hl.2 (h := h.erase (f x)) fun y hy => Finmap.mem_erase.mpr
      ⟨fun hyx => hl.1 (hyx ▸ List.mem_map_of_mem hy), hmem.2 y hy⟩
    have hx : f x ∈ h.keys := Finmap.mem_keys.mpr hmem.1
    rw [Finmap.keys_erase, Finset.card_erase_of_mem hx] at hrest
    have hpos := Finset.card_pos.mpr ⟨_, hx⟩
    rw [List.foldl_cons, List.length_cons]
    omega

/-! ## List segments -/

/-- The cells of `l`, each with its address, are the ones met from `p` by following `next`, and the
last one points to `q`. -/
def Seg (next : α → Option ℕ) (h : Heap α) : Option ℕ → List (ℕ × α) → Option ℕ → Prop
  | p, [], q => p = q
  | p, x :: l, q => p = some x.1 ∧ h.lookup x.1 = some x.2 ∧ Seg next h (next x.2) l q

/-- A segment splits wherever its list does. -/
theorem seg_append {l l' : List (ℕ × α)} :
    Seg next h p (l ++ l') q ↔ ∃ r, Seg next h p l r ∧ Seg next h r l' q := by
  induction l generalizing p with
  | nil =>
    simp only [List.nil_append, Seg]
    exact ⟨fun hs => ⟨p, rfl, hs⟩, fun ⟨_, hr, hs⟩ => hr ▸ hs⟩
  | cons x l ih =>
    simp only [List.cons_append, Seg, ih]
    constructor
    · rintro ⟨hp, hx, r, hl, hr⟩
      exact ⟨r, ⟨hp, hx, hl⟩, hr⟩
    · rintro ⟨r, ⟨hp, hx, hl⟩, hr⟩
      exact ⟨hp, hx, r, hl, hr⟩

/-- The cells of a segment are allocated and hold what the segment says. -/
theorem Seg.lookup (hs : Seg next h p l q) {x : ℕ × α} (hx : x ∈ l) : h.lookup x.1 = some x.2 := by
  induction l generalizing p with
  | nil => cases hx
  | cons y l ih =>
    obtain ⟨-, hy, hl⟩ := hs
    rcases List.mem_cons.mp hx with rfl | hx
    · exact hy
    · exact ih hl hx

/-- A segment stays as it is in every heap that holds its cells. -/
theorem Seg.frame (hs : Seg next h p l q) (hcell : ∀ x ∈ l, h'.lookup x.1 = some x.2) :
    Seg next h' p l q := by
  induction l generalizing p with
  | nil => exact hs
  | cons y l ih =>
    obtain ⟨hp, -, hl⟩ := hs
    exact ⟨hp, hcell y List.mem_cons_self, ih hl fun x hx => hcell x (List.mem_cons_of_mem _ hx)⟩

/-- A cell of a segment is overwritten with one that points to another segment: the first part of
the segment goes on there. -/
theorem Seg.set {l₁ l₂ l₃ : List (ℕ × α)} {x : ℕ × α} {y : α} {r : Option ℕ}
    (hs : Seg next h p (l₁ ++ x :: l₂) q) (hs' : Seg next h (next y) l₃ r)
    (h₁ : ∀ z ∈ l₁, z.1 ≠ x.1) (h₃ : ∀ z ∈ l₃, z.1 ≠ x.1) :
    Seg next (h.insert x.1 y) p (l₁ ++ (x.1, y) :: l₃) r := by
  have hother : ∀ {l : List (ℕ × α)} {p q : Option ℕ}, Seg next h p l q → (∀ z ∈ l, z.1 ≠ x.1) →
      Seg next (h.insert x.1 y) p l q := fun hl hne =>
    hl.frame fun z hz => by rw [Finmap.lookup_insert_of_ne _ (hne z hz), hl.lookup hz]
  obtain ⟨r', hseg, hr', -⟩ := seg_append.mp hs
  exact seg_append.mpr
    ⟨r', hother hseg h₁, hr', Finmap.lookup_insert _, hother hs' h₃⟩

/-- A pointer starts at most one null-terminated list. -/
theorem Seg.unique {l' : List (ℕ × α)} (hs : Seg next h p l none) (hs' : Seg next h p l' none) :
    l = l' := by
  induction l generalizing p l' with
  | nil =>
    cases l' with
    | nil => rfl
    | cons y l' => exact absurd (hs.symm.trans hs'.1) (by simp)
  | cons x l ih =>
    cases l' with
    | nil => exact absurd (hs'.symm.trans hs.1) (by simp)
    | cons y l' =>
      obtain ⟨hp, hx, hl⟩ := hs
      obtain ⟨hp', hy, hl'⟩ := hs'
      have haddr : x.1 = y.1 := Option.some.inj (hp.symm.trans hp')
      have hcell : x.2 = y.2 := by
        rw [haddr, hy] at hx
        exact (Option.some.inj hx).symm
      rw [Prod.ext haddr hcell, ih hl (hcell ▸ hl')]

/-- A null-terminated list meets no cell twice: from the second meeting on, it would have to go on
as it did from the first. -/
theorem Seg.nodup (hs : Seg next h p l none) : (l.map Prod.fst).Nodup := by
  induction l generalizing p with
  | nil => exact List.nodup_nil
  | cons x l ih =>
    obtain ⟨hp, hx, hl⟩ := hs
    refine List.nodup_cons.mpr ⟨fun hmem => ?_, ih hl⟩
    obtain ⟨y, hy, hxy⟩ := List.mem_map.mp hmem
    obtain ⟨l₁, l₂, rfl⟩ := List.append_of_mem hy
    obtain ⟨r, -, hr⟩ := seg_append.mp hl
    have hwhole : Seg next h (some y.1) (x :: (l₁ ++ y :: l₂)) none := ⟨congrArg some hxy, hx, hl⟩
    have hrest : Seg next h (some y.1) (y :: l₂) none := hr.1 ▸ hr
    have hlen := congrArg List.length (hwhole.unique hrest)
    simp only [List.length_cons, List.length_append] at hlen
    omega

/-- A null-terminated list is no longer than the heap is large. -/
theorem Seg.length_le (hs : Seg next h p l none) : l.length ≤ h.keys.card := by
  have hsub : (l.map Prod.fst).toFinset ⊆ h.keys := by
    intro a ha
    obtain ⟨x, hx, rfl⟩ := List.mem_map.mp (List.mem_toFinset.mp ha)
    exact Finmap.mem_keys.mpr (Finmap.mem_of_lookup_eq_some (hs.lookup hx))
  have hcard := Finset.card_le_card hsub
  rwa [List.toFinset_card_of_nodup hs.nodup, List.length_map] at hcard

/-! ## Following the pointers -/

/-- The pointer one holds after following `next` `n` times from `p`: null from the end of the list
on, and from a cell that is not allocated. -/
def follow (next : α → Option ℕ) (h : Heap α) : ℕ → Option ℕ → Option ℕ
  | 0, p => p
  | n + 1, p => follow next h n ((p.bind h.lookup).bind next)

/-- There is nothing behind NULL. -/
theorem follow_none (next : α → Option ℕ) (h : Heap α) (n : ℕ) : follow next h n none = none := by
  induction n with
  | zero => rfl
  | succ n ih => exact ih

/-- Along a null-terminated list, the pointers are the addresses of its cells in order. -/
theorem Seg.follow (hs : Seg next h p l none) (n : ℕ) :
    Heap.follow next h n p = l[n]?.map Prod.fst := by
  induction l generalizing p n with
  | nil =>
    rw [show p = none from hs, follow_none]
    rfl
  | cons x l ih =>
    obtain ⟨rfl, hx, hseg⟩ := hs
    cases n with
    | zero => rfl
    | succ n =>
      rw [Heap.follow, Option.bind_some, hx, Option.bind_some, ih hseg n]
      rfl

/-! ## The search loop -/

/-- `while (p && !test(p)) { prev = p; p = p->next; }`, which ends with `prev` and `p`. There is no
result when the loop follows a pointer to a cell that is not allocated, or is still running after
`fuel` passes. -/
def scan (next : α → Option ℕ) (test : α → Bool) (h : Heap α) :
    ℕ → Option ℕ → Option ℕ → Option (Option ℕ × Option ℕ)
  | 0, _, _ => none
  | _ + 1, prev, none => some (prev, none)
  | fuel + 1, prev, some a => do
    let x ← h.lookup a
    if test x then some (prev, some a) else scan next test h fuel (some a) (next x)

/-- The address of the last cell of `l`, and `prev` when there is none. -/
def lastAddr (prev : Option ℕ) (l : List (ℕ × α)) : Option ℕ := l.foldl (fun _ x => some x.1) prev

/-- The last address of an empty list is the one in front of it. -/
@[simp]
theorem lastAddr_nil (prev : Option ℕ) : lastAddr prev ([] : List (ℕ × α)) = prev := rfl

/-- The last address of a list is that of its last cell. -/
@[simp]
theorem lastAddr_concat (prev : Option ℕ) (l : List (ℕ × α)) (x : ℕ × α) :
    lastAddr prev (l ++ [x]) = some x.1 := by simp [lastAddr]

variable {test : α → Bool} {fuel : ℕ} {prev : Option ℕ}

/-- The loop passes over the cells that fail the test. -/
theorem scan_seg (hs : Seg next h p l q) (hl : ∀ x ∈ l, test x.2 = false) :
    scan next test h (l.length + fuel) prev p = scan next test h fuel (lastAddr prev l) q := by
  induction l generalizing p prev with
  | nil => rw [show p = q from hs, List.length_nil, Nat.zero_add, lastAddr_nil]
  | cons x l ih =>
    obtain ⟨rfl, hx, hseg⟩ := hs
    have hfuel : (x :: l).length + fuel = l.length + fuel + 1 := by
      rw [List.length_cons]
      omega
    have hfail : test x.2 = false := hl x List.mem_cons_self
    rw [hfuel, scan, hx, Option.bind_eq_bind, Option.bind_some, hfail, if_neg Bool.false_ne_true]
    exact ih hseg fun y hy => hl y (List.mem_cons_of_mem _ hy)

/-- The loop stops at the first cell that passes the test. -/
theorem scan_hit {l₁ l₂ : List (ℕ × α)} {x : ℕ × α} (hs : Seg next h p (l₁ ++ x :: l₂) q)
    (hl : ∀ y ∈ l₁, test y.2 = false) (hx : test x.2 = true) (hfuel : l₁.length < fuel) :
    scan next test h fuel prev p = some (lastAddr prev l₁, some x.1) := by
  obtain ⟨r, hseg, rfl, hcell, -⟩ := seg_append.mp hs
  obtain ⟨n, rfl⟩ := Nat.exists_eq_add_of_lt hfuel
  rw [Nat.add_assoc, scan_seg hseg hl, scan, hcell, Option.bind_eq_bind, Option.bind_some, hx,
    if_pos rfl]

/-- The loop runs to the end of a null-terminated list where no cell passes the test. -/
theorem scan_miss (hs : Seg next h p l none) (hl : ∀ x ∈ l, test x.2 = false)
    (hfuel : l.length < fuel) :
    scan next test h fuel prev p = some (lastAddr prev l, none) := by
  obtain ⟨n, rfl⟩ := Nat.exists_eq_add_of_lt hfuel
  rw [Nat.add_assoc, scan_seg hs hl, scan]

end Heap

end Cs5600
