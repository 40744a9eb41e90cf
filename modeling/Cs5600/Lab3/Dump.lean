import Cs5600.Lab3.Placement
import Mathlib.Algebra.BigOperators.Fin

/-!
# Listing and freeing the key-value store

`kv_dump` and `kv_destroy` go over the chains of all buckets. `kv_dump` prints each key that has a
value once, with its value. `kv_destroy` frees the cells that are linked, each of them once; the
cells of the entries that a `kv_delete` has lost with their bucket stay allocated, and `size` still
counts them.
-/

namespace Cs5600.Lab3

open Heap (Seg)

variable {kv kv' : KvStore} {c : Fin 200 → List (ℕ × KeyEntry)}

namespace KvStore

/-- The inner loop of `kv_dump`: the lines for the entries from a pointer on, each the key and the
value that it prints. -/
def dumpChain (kv : KvStore) : ℕ → Option ℕ → Option (List (Str × Str))
  | _, none => some []
  | 0, some _ => none
  | fuel + 1, some h => do
    let e ← kv.entries.lookup h
    let v ← kv.values.lookup e.value
    let lines ← dumpChain kv fuel e.next
    some ((e.key, v) :: lines)

/-- `kv_dump`: the lines that it prints. -/
def kvDump (kv : KvStore) : Option (List (Str × Str)) := do
  let lines ← (List.finRange 200).mapM fun i =>
    kv.dumpChain (kv.entries.keys.card + 1) (kv.buckets i)
  some lines.flatten

/-- The cells that are allocated, without the table of buckets. -/
structure Cells where
  entries : Heap KeyEntry
  values : Heap Str

/-- The inner loop of `kv_destroy`, from a pointer on. -/
def destroyChain : ℕ → Option ℕ → Cells → Option Cells
  | _, none, cells => some cells
  | 0, some _, _ => none
  | fuel + 1, some t, cells => do
    let e ← cells.entries.lookup t
    let values ← cells.values.free e.value
    let entries ← cells.entries.free t
    destroyChain fuel e.next ⟨entries, values⟩

/-- `kv_destroy`: the cells that are still allocated afterwards. -/
def kvDestroy (kv : KvStore) : Option Cells :=
  (List.finRange 200).foldlM
    (fun cells i => destroyChain (kv.entries.keys.card + 1) (kv.buckets i) cells)
    ⟨kv.entries, kv.values⟩

end KvStore

/-! ## `kv_dump` -/

/-- The line of an entry. -/
def KvStore.line (kv : KvStore) (x : ℕ × KeyEntry) : Str × Str :=
  (x.2.key, (kv.values.lookup x.2.value).getD emptyStr)

/-- The loop over a chain prints its entries in order. -/
theorem dumpChain_seg {p : Option ℕ} {l : List (ℕ × KeyEntry)} {fuel : ℕ}
    (hs : Seg KeyEntry.next kv.entries p l none) (hl : ∀ x ∈ l, x.2.value ∈ kv.values)
    (hfuel : l.length ≤ fuel) : kv.dumpChain fuel p = some (l.map kv.line) := by
  induction l generalizing p fuel with
  | nil =>
    obtain rfl : p = none := hs
    cases fuel <;> rfl
  | cons x l ih =>
    obtain ⟨rfl, hx, hseg⟩ := hs
    obtain ⟨v, hv⟩ := Finmap.mem_iff.mp (hl x List.mem_cons_self)
    cases fuel with
    | zero => cases hfuel
    | succ fuel =>
      have hrest := ih hseg (fun y hy => hl y (List.mem_cons_of_mem _ hy))
        (Nat.le_of_succ_le_succ hfuel)
      have hline : kv.line x = (x.2.key, v) := by rw [KvStore.line, hv, Option.getD_some]
      simp only [KvStore.dumpChain, hx, hv, hrest, Option.bind_eq_bind, Option.bind_some,
        List.map_cons, hline]

/-- `kv_dump` prints all chains, one bucket after the other. -/
theorem kvDump_eq (h : Linked kv c) :
    kv.kvDump = some ((List.finRange 200).flatMap fun b => (c b).map kv.line) := by
  have hchain : ∀ b ∈ List.finRange 200,
      kv.dumpChain (kv.entries.keys.card + 1) (kv.buckets b) = some ((c b).map kv.line) :=
        fun b _ =>
    dumpChain_seg (h.seg b) (h.value_mem b) ((h.seg b).length_le.trans (Nat.le_succ _))
  rw [KvStore.kvDump, mapM_eq_some_map hchain, Option.bind_eq_bind, Option.bind_some, List.flatMap]

/-- `kv_dump` prints each key that has a value once, with the value. -/
theorem kvDump_spec (h : Linked kv c) : ∃ lines, kv.kvDump = some lines ∧
    (∀ k v, (k, v) ∈ lines ↔ kv.held k = some v) ∧ (lines.map Prod.fst).Nodup ∧
    lines.length = total c := by
  refine ⟨_, kvDump_eq h, fun k v => ?_, ?_, ?_⟩
  -- A line stands in a chain, and what stands in a chain is what `kv_read` finds.
  · simp only [List.mem_flatMap, List.mem_finRange, true_and, List.mem_map, KvStore.line,
      Prod.mk.injEq]
    constructor
    · rintro ⟨b, x, hx, rfl, rfl⟩
      obtain ⟨u, hu⟩ := Finmap.mem_iff.mp (h.value_mem b x hx)
      have hread : kv.kvRead x.2.key = some (some x.2.value) :=
        (kvRead_eq_iff h).mpr (List.mem_map.mpr ⟨x, h.placed b x hx ▸ hx, rfl⟩)
      rw [KvStore.held, hread, Option.join_some, Option.bind_some, hu, Option.getD_some]
    · intro hheld
      rcases kvRead_cases h k with ⟨-, hnone⟩ | ⟨p, u, hread, hu, hsome⟩
      · rw [hnone] at hheld
        cases hheld
      · obtain rfl : u = v := Option.some.inj (hsome.symm.trans hheld)
        obtain ⟨x, hx, hxp⟩ := List.mem_map.mp ((kvRead_eq_iff h).mp hread)
        obtain ⟨rfl, rfl⟩ := Prod.mk.inj hxp
        exact ⟨_, x, hx, rfl, by rw [hu, Option.getD_some]⟩
  · rw [List.map_flatMap, List.nodup_flatMap]
    refine ⟨fun b _ => ?_, (List.nodup_finRange 200).imp fun {b b'} hne => ?_⟩
    · rw [List.map_map]
      exact h.keys b
    · -- The keys of two buckets have different hashes.
      intro k hk hk'
      simp only [List.map_map, List.mem_map, Function.comp_apply, KvStore.line] at hk hk'
      obtain ⟨x, hx, rfl⟩ := hk
      obtain ⟨y, hy, hyx⟩ := hk'
      exact hne (by rw [← h.placed b x hx, ← h.placed b' y hy, hyx])
  · simp only [List.length_flatMap, List.length_map, total, Fin.sum_univ_def]

/-! ## `kv_destroy` -/

namespace KvStore.Cells

/-- The cells without those of the entries in `l`. -/
def without (cells : Cells) (l : List (ℕ × KeyEntry)) : Cells :=
  ⟨l.foldl (fun h x => h.erase x.1) cells.entries,
    l.foldl (fun h x => h.erase x.2.value) cells.values⟩

/-- Cells are taken away one part after the other. -/
theorem without_append (cells : Cells) (l l' : List (ℕ × KeyEntry)) :
    cells.without (l ++ l') = (cells.without l).without l' := by
  simp only [without, List.foldl_append]

end KvStore.Cells

open KvStore (Cells)

/-- The inner loop frees the cells of a chain. -/
theorem destroyChain_seg {p : Option ℕ} {l : List (ℕ × KeyEntry)} {fuel : ℕ} {cells : Cells}
    (hs : Seg KeyEntry.next cells.entries p l none) (hmem : ∀ x ∈ l, x.2.value ∈ cells.values)
    (hnodup : (l.map fun x => x.2.value).Nodup) (hfuel : l.length ≤ fuel) :
    KvStore.destroyChain fuel p cells = some (cells.without l) := by
  induction l generalizing p fuel cells with
  | nil =>
    obtain rfl : p = none := hs
    cases fuel <;> rfl
  | cons x l ih =>
    have haddr := hs.nodup
    obtain ⟨rfl, hx, hseg⟩ := hs
    rw [List.map_cons, List.nodup_cons] at haddr hnodup
    rw [List.forall_mem_cons] at hmem
    obtain ⟨v, hv⟩ := Finmap.mem_iff.mp hmem.1
    cases fuel with
    | zero => cases hfuel
    | succ fuel =>
      simp only [KvStore.destroyChain, hx, Heap.free_of_lookup hv, Heap.free_of_lookup hx,
        Option.bind_eq_bind, Option.bind_some]
      -- The rest of the chain has other cells.
      refine ih (hseg.frame fun y hy => ?_) (fun y hy => ?_) hnodup.2 (Nat.le_of_succ_le_succ hfuel)
      · have hne : y.1 ≠ x.1 := fun hyx => haddr.1 (List.mem_map.mpr ⟨y, hy, hyx⟩)
        rw [Finmap.lookup_erase_ne hne, hseg.lookup hy]
      · exact Finmap.mem_erase.mpr
          ⟨fun hyx => hnodup.1 (List.mem_map.mpr ⟨y, hy, hyx⟩), hmem.2 y hy⟩

/-- The outer loop frees the cells of the buckets that are left. -/
theorem destroyBuckets (h : Linked kv c) (bs done : List (Fin 200)) (hbs : (done ++ bs).Nodup) :
    bs.foldlM (fun cells i => KvStore.destroyChain (kv.entries.keys.card + 1) (kv.buckets i) cells)
      (Cells.without ⟨kv.entries, kv.values⟩ (done.flatMap c)) =
      some (Cells.without ⟨kv.entries, kv.values⟩ ((done ++ bs).flatMap c)) := by
  -- Induction on the buckets left; `done` are those freed already.
  induction bs generalizing done with
  | nil =>
    rw [List.append_nil]
    rfl
  | cons b bs ih =>
    have hb : ∀ x ∈ done.flatMap c, ∀ y ∈ c b, x ∈ c (index x.2.key) ∧ index x.2.key ≠ b := by
      intro x hx y hy
      obtain ⟨b', hb', hx⟩ := List.mem_flatMap.mp hx
      rw [h.placed b' x hx]
      refine ⟨hx, ?_⟩
      rintro rfl
      exact (List.nodup_append.mp hbs).2.2 b' hb' b' List.mem_cons_self rfl
    -- The cells freed before are those of other buckets, so this chain is still whole.
    have haddr : ∀ y ∈ c b, ∀ x ∈ done.flatMap c, x.1 ≠ y.1 := by
      intro y hy x hx hxy
      obtain ⟨hxc, hne⟩ := hb x hx y hy
      rw [h.eq_of_addr hxc hy hxy, h.placed b y hy] at hne
      exact hne rfl
    have hvalue : ∀ y ∈ c b, ∀ x ∈ done.flatMap c, x.2.value ≠ y.2.value := by
      intro y hy x hx
      obtain ⟨hxc, hne⟩ := hb x hx y hy
      exact h.value_ne _ _ hne x hxc y hy
    have hchain : KvStore.destroyChain (kv.entries.keys.card + 1) (kv.buckets b)
        (Cells.without ⟨kv.entries, kv.values⟩ (done.flatMap c)) =
        some (Cells.without ⟨kv.entries, kv.values⟩ ((done ++ [b]).flatMap c)) := by
      rw [List.flatMap_append, List.flatMap_singleton, Cells.without_append]
      refine destroyChain_seg ((h.seg b).frame fun y hy => ?_) (fun y hy => ?_) (h.values b)
        ((h.seg b).length_le.trans (Nat.le_succ _))
      · exact (Heap.lookup_foldl_erase Prod.fst (haddr y hy)).trans ((h.seg b).lookup hy)
      · obtain ⟨v, hv⟩ := Finmap.mem_iff.mp (h.value_mem b y hy)
        exact Finmap.mem_of_lookup_eq_some
          ((Heap.lookup_foldl_erase (fun x : ℕ × KeyEntry => x.2.value) (hvalue y hy)).trans hv)
    rw [List.foldlM_cons, hchain, Option.bind_eq_bind, Option.bind_some,
      ih (done ++ [b]) (by rwa [List.append_assoc]), List.append_assoc]
    rfl

/-- `kv_destroy` returns, and frees the cells of the entries that are linked. -/
theorem kvDestroy_eq (h : Linked kv c) :
    kv.kvDestroy = some (Cells.without ⟨kv.entries, kv.values⟩ ((List.finRange 200).flatMap c)) :=
  destroyBuckets h (List.finRange 200) [] (List.nodup_finRange 200)

/-- The cells that `kv_destroy` leaves: as many as are allocated and not linked. -/
theorem kvDestroy_card (h : Linked kv c) : ∃ rest, kv.kvDestroy = some rest ∧
    rest.entries.keys.card + total c = kv.entries.keys.card ∧
    rest.values.keys.card + total c = kv.values.keys.card := by
  have htotal : total c = ((List.finRange 200).flatMap c).length := by
    rw [List.length_flatMap, total, Fin.sum_univ_def]
  have hmem : ∀ x ∈ (List.finRange 200).flatMap c, ∃ b, x ∈ c b := by
    intro x hx
    obtain ⟨b, -, hx⟩ := List.mem_flatMap.mp hx
    exact ⟨b, hx⟩
  -- No entry stands in two buckets.
  have hpair : ∀ {b b'}, b ≠ b' → ∀ x ∈ c b, ∀ y ∈ c b', x ≠ y := by
    rintro b b' hne x hx y hy rfl
    exact hne ((h.placed b x hx).symm.trans (h.placed b' x hy))
  refine ⟨_, kvDestroy_eq h, ?_, ?_⟩
  · rw [htotal]
    refine Heap.card_foldl_erase (Prod.fst : ℕ × KeyEntry → ℕ) (h := kv.entries) ?_ fun x hx => ?_
    -- The addresses freed are distinct, so each takes one cell out of the heap.
    · rw [List.map_flatMap, List.nodup_flatMap]
      refine ⟨fun b _ => (h.seg b).nodup, (List.nodup_finRange 200).imp fun {b b'} hne => ?_⟩
      intro a ha ha'
      obtain ⟨x, hx, rfl⟩ := List.mem_map.mp ha
      obtain ⟨y, hy, hyx⟩ := List.mem_map.mp ha'
      exact hpair hne x hx y hy (h.eq_of_addr hx hy hyx.symm)
    · obtain ⟨b, hx⟩ := hmem x hx
      exact Finmap.mem_of_lookup_eq_some ((h.seg b).lookup hx)
  · rw [htotal]
    refine Heap.card_foldl_erase (fun x : ℕ × KeyEntry => x.2.value) (h := kv.values) ?_
      fun x hx => ?_
    · rw [List.map_flatMap, List.nodup_flatMap]
      refine ⟨fun b _ => h.values b, (List.nodup_finRange 200).imp fun {b b'} hne => ?_⟩
      intro p hp hp'
      obtain ⟨x, hx, rfl⟩ := List.mem_map.mp hp
      obtain ⟨y, hy, hyx⟩ := List.mem_map.mp hp'
      exact h.value_ne b b' hne x hx y hy hyx.symm
    · obtain ⟨b, hx⟩ := hmem x hx
      exact h.value_mem b x hx

/-! ## What is allocated -/

/-- `size` counts the allocated entries, whether they are linked or not, and each has a value
cell. -/
structure Allocated (kv : KvStore) : Prop where
  entries : (kv.entries.keys.card : ℤ) = kv.size
  values : (kv.values.keys.card : ℤ) = kv.size

/-- `kv_write` allocates a value with each entry. -/
theorem Allocated.kvWrite {A : Malloc} {k v : Str} {ret : ℤ} (h : Allocated kv)
    (hwrite : kv.kvWrite A k v = some (kv', ret)) : Allocated kv' := by
  obtain ⟨hentries, hvalues⟩ := h
  simp only [KvStore.kvWrite, Option.bind_eq_bind, Option.bind_eq_some_iff] at hwrite
  obtain ⟨⟨prev, found⟩, -, hwrite⟩ := hwrite
  cases found with
  -- An overwrite frees one value and allocates one.
  | some a =>
    simp only [KvStore.overwrite, Heap.malloc, Option.bind_eq_bind, Option.bind_eq_some_iff,
      Option.some.injEq, Prod.mk.injEq] at hwrite
    obtain ⟨e, he, values, hfree, rfl, -⟩ := hwrite
    have hcard := Heap.card_free hfree
    refine ⟨?_, ?_⟩
    · rw [Heap.card_insert_of_mem _ (Finmap.mem_of_lookup_eq_some he)]
      exact hentries
    · rw [Heap.card_malloc]
      dsimp only
      omega
  | none =>
    simp only [KvStore.insert] at hwrite
    split_ifs at hwrite with hfull
    · obtain ⟨rfl, -⟩ := Prod.mk.inj (Option.some.inj hwrite)
      exact ⟨hentries, hvalues⟩
    -- A new entry takes one cell of each kind, and the size counts it.
    · simp only [kvEntryInit, Heap.malloc, Option.bind_eq_bind, Option.bind_eq_some_iff] at hwrite
      obtain ⟨⟨n, kv₁⟩, hinit, e, he, hstore⟩ := hwrite
      split_ifs at hinit with hlen
      obtain ⟨rfl, rfl⟩ := Prod.mk.inj (Option.some.inj hinit)
      obtain ⟨rfl, -⟩ := Prod.mk.inj (Option.some.inj hstore)
      refine ⟨?_, ?_⟩
      · rw [Finmap.insert_insert, Heap.card_malloc]
        push_cast
        omega
      · rw [Heap.card_malloc]
        push_cast
        omega

/-- `kv_delete` frees a value with each entry. -/
theorem Allocated.kvDelete {k : Str} (h : Allocated kv) (hdelete : kv.kvDelete k = some kv') :
    Allocated kv' := by
  obtain ⟨hentries, hvalues⟩ := h
  simp only [KvStore.kvDelete, Option.bind_eq_bind, Option.bind_eq_some_iff] at hdelete
  obtain ⟨⟨prev, found⟩, -, hdelete⟩ := hdelete
  cases found with
  | none => exact Option.some.inj hdelete ▸ ⟨hentries, hvalues⟩
  | some a =>
    simp only [KvStore.unlink, Option.bind_eq_bind, Option.bind_eq_some_iff] at hdelete
    obtain ⟨e, he, values, hfree, hdelete⟩ := hdelete
    have hvalue := Heap.card_free hfree
    -- Freed are one value and one entry, whichever branch is taken.
    split_ifs at hdelete with hfirst
    · simp only [Option.bind_eq_some_iff, Option.some.injEq] at hdelete
      obtain ⟨entries, hentry, rfl⟩ := hdelete
      have hentry := Heap.card_free hentry
      exact ⟨by dsimp only; omega, by dsimp only; omega⟩
    · simp only [Option.bind_eq_some_iff, Option.some.injEq] at hdelete
      obtain ⟨b, -, eb, heb, entries, hentry, rfl⟩ := hdelete
      have hentry := Heap.card_free hentry
      rw [Heap.card_insert_of_mem _ (Finmap.mem_of_lookup_eq_some heb)] at hentry
      exact ⟨by dsimp only; omega, by dsimp only; omega⟩

/-! ## Every sequence of calls -/

/-- The number of entries that are allocated and not linked. -/
def lost (kv : KvStore) (c : Fin 200 → List (ℕ × KeyEntry)) : ℤ := kv.size - total c

/-- A delete of the first of a chain loses the others. -/
theorem lost_lt {k : Str} (h : Linked kv c) (hfirst : FirstOfMany kv k) :
    ∃ kv' c', kv.kvDelete k = some kv' ∧ Linked kv' c' ∧ lost kv c < lost kv' c' := by
  obtain ⟨x, y, l, hchain, hkey⟩ := (firstOfMany_iff h).mp hfirst
  have hf : Found c k [] x (y :: l) := ⟨by rw [hchain, List.nil_append], hkey⟩
  obtain ⟨kv', hdelete, hsize, -, h'⟩ := hf.unlink_first h
  have htotal := total_update c (index k) []
  rw [hchain, List.length_cons, List.length_cons, List.length_nil] at htotal
  refine ⟨kv', _, hdelete, h', ?_⟩
  rw [lost, lost, hsize]
  omega

/-- A call loses entries exactly when it does not keep the chains. -/
theorem exec_lost {s : Step} (h : Linked kv c) (ha : Allocated kv) (hs : FitsEntry s) :
    ∃ kv' reply c', exec s kv = some (kv', reply) ∧ Linked kv' c' ∧ Allocated kv' ∧
      lost kv c ≤ lost kv' c' ∧ (lost kv' c' = lost kv c ↔ KeepsChains kv s) := by
  obtain ⟨A, call⟩ := s
  -- Only a delete at the head of a longer chain loses cells.
  cases call with
  | read k =>
    obtain ⟨kv', reply, c', hexec, h', -⟩ := exec_spec (s := ⟨A, .read k⟩) h ⟨hs, id⟩
    have hkv : kv' = kv := by
      rcases kvRead_cases h k with ⟨hread, -⟩ | ⟨p, v, hread, hv, -⟩
      · simp only [exec, hread, Option.bind_eq_bind, Option.bind_some, Option.some.injEq,
          Prod.mk.injEq] at hexec
        exact hexec.1.symm
      · simp only [exec, hread, hv, Option.bind_eq_bind, Option.bind_some, Option.some.injEq,
          Prod.mk.injEq] at hexec
        exact hexec.1.symm
    rw [hkv] at hexec
    exact ⟨kv, reply, c, hexec, h, ha, le_rfl, iff_of_true rfl ⟨hs, id⟩⟩
  | write k v =>
    have hlen : k.1.length ≤ 31 := hs
    rcases kvWrite_spec h hlen A v with ⟨hwrite, -⟩ | ⟨kv', c', hwrite, h', -, -, hsize⟩
    · refine ⟨kv, .code 1, c, ?_, h, ha, le_rfl, iff_of_true rfl ⟨hs, id⟩⟩
      simp only [exec, hwrite, Option.bind_eq_bind, Option.bind_some]
    · have hlost : lost kv' c' = lost kv c := by
        rw [lost, lost]
        omega
      refine ⟨kv', .code 0, c', ?_, h', ha.kvWrite hwrite, hlost.ge, iff_of_true hlost ⟨hs, id⟩⟩
      simp only [exec, hwrite, Option.bind_eq_bind, Option.bind_some]
  | delete k =>
    by_cases hfirst : FirstOfMany kv k
    · obtain ⟨kv', c', hdelete, h', hlt⟩ := lost_lt h hfirst
      refine ⟨kv', .done, c', ?_, h', ha.kvDelete hdelete, hlt.le, iff_of_false hlt.ne' ?_⟩
      · simp only [exec, hdelete, Option.bind_eq_bind, Option.bind_some]
      · exact fun hkeeps => hkeeps.2 hfirst
    · obtain ⟨kv', c', hdelete, h', -, -, -, hsize⟩ := kvDelete_spec (k := k) h
      have hlost : lost kv' c' = lost kv c := by
        rw [lost, lost]
        rcases hsize hfirst with ⟨-, rfl, htotal⟩ | ⟨-, hsize, htotal⟩ <;> omega
      refine ⟨kv', .done, c', ?_, h', ha.kvDelete hdelete, hlost.ge, iff_of_true hlost ⟨hs, hfirst⟩⟩
      simp only [exec, hdelete, Option.bind_eq_bind, Option.bind_some]

/-- A run loses entries exactly when one of its calls does not keep the chains. -/
theorem run_lost {steps : List Step} {hist : List (Step × Reply)} (h : Linked kv c)
    (ha : Allocated kv) (hkeys : ∀ s ∈ steps, FitsEntry s)
    (hrun : run exec steps kv = some (kv', hist)) :
    ∃ c', Linked kv' c' ∧ Allocated kv' ∧ lost kv c ≤ lost kv' c' ∧
      (lost kv' c' = lost kv c ↔ Meets exec KeepsChains steps kv) := by
  induction steps generalizing kv c hist with
  | nil =>
    obtain ⟨rfl, -⟩ := Prod.mk.inj (Option.some.inj hrun)
    exact ⟨c, h, ha, le_rfl, iff_of_true rfl trivial⟩
  | cons s steps ih =>
    rw [List.forall_mem_cons] at hkeys
    obtain ⟨kv₁, reply, c₁, hexec, h₁, ha₁, hle₁, hiff₁⟩ := exec_lost h ha hkeys.1
    simp only [run, hexec, Option.bind_eq_bind, Option.bind_some, Option.bind_eq_some_iff] at hrun
    obtain ⟨⟨kv₂, new⟩, hrest, heq⟩ := hrun
    obtain ⟨rfl, -⟩ := Prod.mk.inj (Option.some.inj heq)
    obtain ⟨c', h', ha', hle, hiff⟩ := ih h₁ ha₁ hkeys.2 hrest
    refine ⟨c', h', ha', hle₁.trans hle, ?_⟩
    -- What is lost is never found again, so it is the same at the end when no call loses any.
    rw [meets_cons hexec, ← hiff₁, ← hiff]
    omega

/-- Where each entry has one value, nothing is allocated when no entry is. -/
theorem Cells.eq_empty_iff {cells : Cells} (h : cells.values.keys.card = cells.entries.keys.card) :
    cells = ⟨∅, ∅⟩ ↔ cells.entries.keys.card = 0 := by
  constructor
  · rintro rfl
    rfl
  · intro hcard
    obtain ⟨entries, values⟩ := cells
    dsimp only at h hcard
    rw [Heap.eq_empty hcard, Heap.eq_empty (h.trans hcard)]

/-- **The store is freed, up to what deletions have lost.** After every sequence of calls on a store
made by `kv_init`, `kv_destroy` returns without freeing a cell twice or following a freed one. The
entries and the values that stay allocated are as many as `size` is above the number of keys that
have a value, and there are none exactly when no call deleted the first of a chain of two or
more. -/
theorem kvstore_destroyed {steps : List Step} (hkeys : ∀ s ∈ steps, FitsEntry s) :
    ∃ kv hist rest, run exec steps kvInit = some (kv, hist) ∧ kv.kvDestroy = some rest ∧
      (rest.entries.keys.card : ℤ) = kv.size - ({k | kv.held k ≠ none}.ncard : ℤ) ∧
      rest.values.keys.card = rest.entries.keys.card ∧
      (rest = ⟨∅, ∅⟩ ↔ Meets exec KeepsChains steps kvInit) := by
  obtain ⟨kv, hist, hrun⟩ := run_exec_returns hkeys
  have hinit : lost kvInit (fun _ => []) = 0 := by simp [lost, kvInit, total]
  obtain ⟨c, h, ha, -, hiff⟩ := run_lost linked_kvInit ⟨rfl, rfl⟩ hkeys hrun
  obtain ⟨rest, hdestroy, hentries, hvalues⟩ := kvDestroy_card h
  have hcard := ha.entries
  have hcard' := ha.values
  rw [hinit, lost] at hiff
  have hsame : rest.values.keys.card = rest.entries.keys.card := by omega
  refine ⟨kv, hist, rest, hrun, hdestroy, ?_, hsame, ?_⟩
  · rw [ncard_held h]
    omega
  · rw [Cells.eq_empty_iff hsame, ← hiff]
    omega

/-- `ab` and `bA` are written, and `bA`, the first of their bucket, is deleted: the cells of `ab`
are not freed. -/
theorem kvstore_destroyed_lossy : ∃ kv hist rest,
    run exec lossy kvInit = some (kv, hist) ∧ kv.kvDestroy = some rest ∧
      (rest.entries.keys.card : ℤ) = kv.size - ({k | kv.held k ≠ none}.ncard : ℤ) ∧
      rest.values.keys.card = rest.entries.keys.card ∧
      (rest = ⟨∅, ∅⟩ ↔ Meets exec KeepsChains lossy kvInit) :=
  kvstore_destroyed (by decide +kernel)

end Cs5600.Lab3
