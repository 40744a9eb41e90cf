import Cs5600.Lab3.KvStore
import Cs5600.Lib.Basic
import Mathlib.Algebra.BigOperators.Group.Finset.Basic
import Mathlib.Data.Set.Card

/-!
# The chains of the key-value store

`Linked kv c` says that `c b` are the entries linked in bucket `b`, in order, that each of them is
in the bucket of its key, that no key has two entries, and that each entry has a value cell of its
own. It holds of `kvInit`, and the three operations keep it, without a condition. What they do to
the chains is stated beside: `kv_write` changes the value of one entry or puts a new entry first,
and `kv_delete` takes one entry out, unless it is the first of its chain, when the whole chain goes.

The value of a key (`held`) is read off the chains (`held_eq_some_iff`), so that an operation keeps
the value of every key whose entry it keeps.
-/

namespace Cs5600.Lab3

open Heap (Seg)

variable {kv kv' : KvStore} {c : Fin 200 → List (ℕ × KeyEntry)} {k : Str}

/-- `c b` are the entries linked in bucket `b`, each with its address. -/
structure Linked (kv : KvStore) (c : Fin 200 → List (ℕ × KeyEntry)) : Prop where
  seg : ∀ b, Seg KeyEntry.next kv.entries (kv.buckets b) (c b) none
  placed : ∀ b, ∀ x ∈ c b, index x.2.key = b
  keys : ∀ b, ((c b).map fun x => x.2.key).Nodup
  value_mem : ∀ b, ∀ x ∈ c b, x.2.value ∈ kv.values
  values : ∀ b, ((c b).map fun x => x.2.value).Nodup
  value_ne : ∀ b b', b ≠ b' → ∀ x ∈ c b, ∀ y ∈ c b', x.2.value ≠ y.2.value

/-- The chains of a store are determined by it. -/
theorem Linked.unique {c' : Fin 200 → List (ℕ × KeyEntry)} (h : Linked kv c) (h' : Linked kv c') :
    c = c' :=
  funext fun b => (h.seg b).unique (h'.seg b)

/-- The chains of the new store are empty. -/
theorem linked_kvInit : Linked kvInit fun _ => [] where
  seg _ := rfl
  placed _ _ hx := by cases hx
  keys _ := List.nodup_nil
  value_mem _ _ hx := by cases hx
  values _ := List.nodup_nil
  value_ne _ _ _ _ hx := by cases hx

/-- An address is linked once. -/
theorem Linked.eq_of_addr (h : Linked kv c) {b b' : Fin 200} {x y : ℕ × KeyEntry} (hx : x ∈ c b)
    (hy : y ∈ c b') (hxy : x.1 = y.1) : x = y := by
  have hcell := (h.seg b').lookup hy
  rw [← hxy, (h.seg b).lookup hx] at hcell
  exact Prod.ext hxy (Option.some.inj hcell)

/-- A value cell belongs to one entry. -/
theorem Linked.value_inj (h : Linked kv c) {b b' : Fin 200} {x y : ℕ × KeyEntry} (hx : x ∈ c b)
    (hy : y ∈ c b') (hxy : x.2.value = y.2.value) : x = y := by
  obtain rfl | hb := eq_or_ne b b'
  · exact List.inj_on_of_nodup_map (h.values b) hx hy hxy
  · exact absurd hxy (h.value_ne b b' hb x hx y hy)

/-- The entries of another bucket have other keys. -/
theorem Linked.key_ne (h : Linked kv c) {b : Fin 200} (hb : b ≠ index k) {x : ℕ × KeyEntry}
    (hx : x ∈ c b) : x.2.key ≠ k := by
  rintro rfl
  exact hb (h.placed b x hx).symm

/-- The entry of `k`, with the entries before it and after it in its chain. -/
structure Found (c : Fin 200 → List (ℕ × KeyEntry)) (k : Str) (l₁ : List (ℕ × KeyEntry))
    (x : ℕ × KeyEntry) (l₂ : List (ℕ × KeyEntry)) : Prop where
  chain : c (index k) = l₁ ++ x :: l₂
  key : x.2.key = k

variable {l₁ l₂ : List (ℕ × KeyEntry)} {x : ℕ × KeyEntry}

/-- A key is in the chain of its bucket or not. -/
theorem found_or_absent (c : Fin 200 → List (ℕ × KeyEntry)) (k : Str) :
    (∃ l₁ x l₂, Found c k l₁ x l₂) ∨ ∀ x ∈ c (index k), x.2.key ≠ k := by
  by_cases hex : ∃ x ∈ c (index k), x.2.key = k
  · obtain ⟨x, hx, hk⟩ := hex
    obtain ⟨l₁, l₂, hc⟩ := List.append_of_mem hx
    exact .inl ⟨l₁, x, l₂, hc, hk⟩
  · exact .inr fun x hx hk => hex ⟨x, hx, hk⟩

namespace Found

/-- The entry of a key is in the chain. -/
theorem mem (hf : Found c k l₁ x l₂) : x ∈ c (index k) := by simp [hf.chain]

/-- What is in front of the entry is in the chain. -/
theorem mem_left (hf : Found c k l₁ x l₂) {y : ℕ × KeyEntry} (hy : y ∈ l₁) : y ∈ c (index k) := by
  simp [hf.chain, hy]

/-- What is behind the entry is in the chain. -/
theorem mem_right (hf : Found c k l₁ x l₂) {y : ℕ × KeyEntry} (hy : y ∈ l₂) : y ∈ c (index k) := by
  simp [hf.chain, hy]

/-- The other entries of the chain have other keys. -/
theorem keys (hf : Found c k l₁ x l₂) (h : Linked kv c) :
    (∀ y ∈ l₁, y.2.key ≠ k) ∧ ∀ y ∈ l₂, y.2.key ≠ k := by
  have hnodup := h.keys (index k)
  rw [hf.chain, List.map_append, List.map_cons, List.nodup_append] at hnodup
  obtain ⟨-, hright, hleft⟩ := hnodup
  rw [hf.key] at hright hleft
  refine ⟨fun y hy => hleft _ (List.mem_map_of_mem hy) _ List.mem_cons_self, fun y hy hk => ?_⟩
  exact (List.nodup_cons.mp hright).1 (List.mem_map.mpr ⟨y, hy, hk⟩)

/-- The other entries of the chain have other keys. -/
theorem rest (hf : Found c k l₁ x l₂) (h : Linked kv c) {y : ℕ × KeyEntry} (hy : y ∈ l₁ ++ l₂) :
    y ∈ c (index k) ∧ y.2.key ≠ k := by
  rcases List.mem_append.mp hy with hy | hy
  · exact ⟨hf.mem_left hy, (hf.keys h).1 y hy⟩
  · exact ⟨hf.mem_right hy, (hf.keys h).2 y hy⟩

/-- What holds of the entries of the other keys and of `y` holds of the chain with `y` in the place
of the entry. -/
theorem forall_replaced {P : ℕ × KeyEntry → Prop} {y : ℕ × KeyEntry} (hf : Found c k l₁ x l₂)
    (h : Linked kv c) (hy : P y) (hrest : ∀ z ∈ c (index k), z.2.key ≠ k → P z) :
    ∀ z ∈ l₁ ++ y :: l₂, P z := by
  intro z hz
  rcases List.mem_cons.mp (List.perm_middle.mem_iff.mp hz) with rfl | hz
  · exact hy
  · obtain ⟨hzc, hzk⟩ := hf.rest h hz
    exact hrest z hzc hzk

/-- The other entries of the chain have other addresses. -/
theorem addr (hf : Found c k l₁ x l₂) (h : Linked kv c) :
    (∀ y ∈ l₁, y.1 ≠ x.1) ∧ ∀ y ∈ l₂, y.1 ≠ x.1 := by
  obtain ⟨hleft, hright⟩ := hf.keys h
  constructor
  · intro y hy hxy
    exact hleft y hy (h.eq_of_addr (hf.mem_left hy) hf.mem hxy ▸ hf.key)
  · intro y hy hxy
    exact hright y hy (h.eq_of_addr (hf.mem_right hy) hf.mem hxy ▸ hf.key)

/-- The entries of the other chains have other addresses. -/
theorem addr_ne (hf : Found c k l₁ x l₂) (h : Linked kv c) {b : Fin 200} (hb : b ≠ index k)
    {y : ℕ × KeyEntry} (hy : y ∈ c b) : y.1 ≠ x.1 := by
  intro hxy
  have hyx := h.eq_of_addr hy hf.mem hxy
  exact hb (by rw [← h.placed b y hy, hyx, hf.key])

/-- The entries of other keys have other value cells. -/
theorem value_ne (hf : Found c k l₁ x l₂) (h : Linked kv c) {b : Fin 200} {y : ℕ × KeyEntry}
    (hy : y ∈ c b) (hk : y.2.key ≠ k) : y.2.value ≠ x.2.value := fun hval =>
  hk (h.value_inj hy hf.mem hval ▸ hf.key)

/-- The loop stops at the entry. -/
theorem search (hf : Found c k l₁ x l₂) (h : Linked kv c) :
    kv.search k = some (Heap.lastAddr (kv.buckets (index k)) l₁, some x.1) := by
  have hseg := h.seg (index k)
  have hlen := hseg.length_le
  rw [hf.chain] at hseg hlen
  rw [List.length_append] at hlen
  refine Heap.scan_hit hseg (fun y hy => decide_eq_false ((hf.keys h).1 y hy)) ?_ (by omega)
  exact decide_eq_true hf.key

/-- `kv_read` of a key that is there returns the pointer to its value. -/
theorem kvRead (hf : Found c k l₁ x l₂) (h : Linked kv c) :
    kv.kvRead k = some (some x.2.value) := by
  have hcell := (h.seg (index k)).lookup hf.mem
  simp only [KvStore.kvRead, hf.search h, hcell, Option.bind_eq_bind, Option.bind_some]

end Found

/-- The loop finds no entry of a key that has none. -/
theorem search_absent (h : Linked kv c) (hk : ∀ x ∈ c (index k), x.2.key ≠ k) :
    ∃ prev, kv.search k = some (prev, none) := by
  have hseg := h.seg (index k)
  have hlen := hseg.length_le
  exact ⟨_, Heap.scan_miss hseg (fun x hx => decide_eq_false (hk x hx)) (by omega)⟩

/-- `kv_read` of a key that is not there returns NULL. -/
theorem kvRead_absent (h : Linked kv c) (hk : ∀ x ∈ c (index k), x.2.key ≠ k) :
    kv.kvRead k = some none := by
  obtain ⟨prev, hsearch⟩ := search_absent h hk
  simp only [KvStore.kvRead, hsearch, Option.bind_eq_bind, Option.bind_some]

/-! ## The value of a key -/

/-- The keys of a chain with their value cells. -/
def pairs (l : List (ℕ × KeyEntry)) : List (Str × ℕ) := l.map fun x => (x.2.key, x.2.value)

/-- `kv_read` returns a pointer when the key is bound to it in the chain. -/
theorem kvRead_eq_iff (h : Linked kv c) {p : ℕ} :
    kv.kvRead k = some (some p) ↔ (k, p) ∈ pairs (c (index k)) := by
  rcases found_or_absent c k with ⟨l₁, x, l₂, hf⟩ | hk
  · rw [hf.kvRead h, Option.some_inj, Option.some_inj]
    constructor
    · rintro rfl
      exact List.mem_map.mpr ⟨x, hf.mem, by rw [hf.key]⟩
    · intro hmem
      obtain ⟨y, hy, hyp⟩ := List.mem_map.mp hmem
      obtain ⟨hyk, rfl⟩ := Prod.mk.inj hyp
      -- Another entry with the key would be one of the chain's other entries.
      rw [hf.chain] at hy
      rcases List.mem_cons.mp (List.perm_middle.mem_iff.mp hy) with rfl | hy
      · rfl
      · exact absurd hyk (hf.rest h hy).2
  · rw [kvRead_absent h hk]
    refine ⟨fun hnone => by simp at hnone, fun hmem => ?_⟩
    obtain ⟨x, hx, hxp⟩ := List.mem_map.mp hmem
    exact absurd (Prod.mk.inj hxp).1 (hk x hx)

/-- `kv_read` returns NULL when no entry has the key. -/
theorem kvRead_eq_none_iff (h : Linked kv c) :
    kv.kvRead k = some none ↔ ∀ x ∈ c (index k), x.2.key ≠ k := by
  rcases found_or_absent c k with ⟨l₁, x, l₂, hf⟩ | hk
  · rw [hf.kvRead h]
    refine ⟨fun hnone => by simp at hnone, fun hk => absurd hf.key (hk x hf.mem)⟩
  · exact ⟨fun _ => hk, fun _ => kvRead_absent h hk⟩

/-- `kv_read` returns, and what it returns is null or a pointer to a value. -/
theorem kvRead_cases (h : Linked kv c) (k : Str) :
    (kv.kvRead k = some none ∧ kv.held k = none) ∨
      ∃ p v, kv.kvRead k = some (some p) ∧ kv.values.lookup p = some v ∧ kv.held k = some v := by
  rcases found_or_absent c k with ⟨l₁, x, l₂, hf⟩ | hk
  · obtain ⟨v, hv⟩ := Finmap.mem_iff.mp (h.value_mem _ x hf.mem)
    refine .inr ⟨x.2.value, v, hf.kvRead h, hv, ?_⟩
    rw [KvStore.held, hf.kvRead h, Option.join_some, Option.bind_some, hv]
  · refine .inl ⟨kvRead_absent h hk, ?_⟩
    rw [KvStore.held, kvRead_absent h hk, Option.join_some, Option.bind_none]

/-- A key has no value when no entry has it. -/
theorem held_eq_none_iff (h : Linked kv c) :
    kv.held k = none ↔ ∀ x ∈ c (index k), x.2.key ≠ k := by
  rw [← kvRead_eq_none_iff h]
  rcases kvRead_cases h k with ⟨hread, hnone⟩ | ⟨p, v, hread, -, hv⟩
  · simp [hread, hnone]
  · simp [hread, hv]

/-- A key that has the same value cell in two stores is read alike. -/
theorem kvRead_congr {c' : Fin 200 → List (ℕ × KeyEntry)} (h : Linked kv c) (h' : Linked kv' c')
    (hpairs : ∀ p, (k, p) ∈ pairs (c' (index k)) ↔ (k, p) ∈ pairs (c (index k))) :
    kv'.kvRead k = kv.kvRead k := by
  rcases kvRead_cases h k with ⟨hread, -⟩ | ⟨p, -, hread, -⟩
  · rcases kvRead_cases h' k with ⟨hread', -⟩ | ⟨p', -, hread', -⟩
    · rw [hread, hread']
    · have hmem := (hpairs p').mp ((kvRead_eq_iff h').mp hread')
      rw [(kvRead_eq_iff h).mpr hmem] at hread
      simp at hread
  · rw [hread]
    exact (kvRead_eq_iff h').mpr ((hpairs p).mpr ((kvRead_eq_iff h).mp hread))

/-- A key that has the same value cell in two stores, with the same string in it, has the same
value. -/
theorem held_congr (h : Linked kv c) (hread : kv'.kvRead k = kv.kvRead k)
    (hval : ∀ p u, kv.kvRead k = some (some p) → kv.values.lookup p = some u →
      kv'.values.lookup p = some u) :
    kv'.held k = kv.held k := by
  rcases kvRead_cases h k with ⟨hnone, hheld⟩ | ⟨p, v, hsome, hv, hheld⟩
  · rw [hheld, KvStore.held, hread, hnone, Option.join_some, Option.bind_none]
  · rw [hheld, KvStore.held, hread, hsome, Option.join_some, Option.bind_some, hval p v hsome hv]

/-! ## The number of entries -/

/-- The number of entries linked in the buckets. -/
def total (c : Fin 200 → List (ℕ × KeyEntry)) : ℕ := ∑ b, (c b).length

/-- A new chain in a bucket changes the number of entries by the difference of the lengths. -/
theorem total_update (c : Fin 200 → List (ℕ × KeyEntry)) (b : Fin 200) (l : List (ℕ × KeyEntry)) :
    total (Function.update c b l) + (c b).length = total c + l.length :=
  sum_apply_update List.length c b l

/-- The keys that have a value are as many as the entries that are linked. -/
theorem ncard_held (h : Linked kv c) : {k | kv.held k ≠ none}.ncard = total c := by
  -- The keys held are those of the chains, which no two buckets share.
  have hset : {k | kv.held k ≠ none} =
      ↑(Finset.univ.biUnion fun b => ((c b).map fun x => x.2.key).toFinset) := by
    ext k
    simp only [Set.mem_ofPred_eq, ne_eq, held_eq_none_iff h, Finset.coe_biUnion, Finset.mem_coe,
      Finset.mem_univ, Set.iUnion_true, Set.mem_iUnion, List.mem_toFinset, List.mem_map]
    constructor
    · intro hk
      by_contra hno
      exact hk fun x hx hxk => hno ⟨index k, x, hx, hxk⟩
    · rintro ⟨b, x, hx, rfl⟩ hk
      exact hk x (h.placed b x hx ▸ hx) rfl
  have hdisj : ∀ b ∈ Finset.univ, ∀ b' ∈ Finset.univ, b ≠ b' →
      Disjoint ((c b).map fun x => x.2.key).toFinset ((c b').map fun x => x.2.key).toFinset := by
    intro b _ b' _ hne
    rw [Finset.disjoint_left]
    intro k hk hk'
    obtain ⟨x, hx, rfl⟩ := List.mem_map.mp (List.mem_toFinset.mp hk)
    obtain ⟨y, hy, hyx⟩ := List.mem_map.mp (List.mem_toFinset.mp hk')
    exact hne (by rw [← h.placed b x hx, ← h.placed b' y hy, hyx])
  rw [hset, Set.ncard_coe_finset, Finset.card_biUnion hdisj, total]
  refine Finset.sum_congr rfl fun b _ => ?_
  rw [List.toFinset_card_of_nodup (h.keys b), List.length_map]

/-! ## What the operations do -/

/-- An operation that changes the chain of one bucket keeps `Linked` when the new chain is linked
there and the cells of the other chains are kept. -/
theorem Linked.update (h : Linked kv c) {b : Fin 200} {l : List (ℕ × KeyEntry)}
    (hbuckets : ∀ b' ≠ b, kv'.buckets b' = kv.buckets b')
    (hentries : ∀ b' ≠ b, ∀ y ∈ c b', kv'.entries.lookup y.1 = some y.2)
    (hvalues : ∀ b' ≠ b, ∀ y ∈ c b', y.2.value ∈ kv'.values)
    (hseg : Seg KeyEntry.next kv'.entries (kv'.buckets b) l none)
    (hplaced : ∀ y ∈ l, index y.2.key = b) (hkeys : (l.map fun y => y.2.key).Nodup)
    (hmem : ∀ y ∈ l, y.2.value ∈ kv'.values) (hnodup : (l.map fun y => y.2.value).Nodup)
    (hne : ∀ y ∈ l, ∀ b' ≠ b, ∀ z ∈ c b', y.2.value ≠ z.2.value) :
    Linked kv' (Function.update c b l) := by
  have hsame : Function.update c b l b = l := Function.update_self ..
  have hother : ∀ b' ≠ b, Function.update c b l b' = c b' := fun b' hb' =>
    Function.update_of_ne hb' ..
  constructor
  -- The only field about two chains; at most one of them is the new one.
  case value_ne =>
    intro b₁ b₂ hb x hx y hy
    obtain rfl | h₁ := eq_or_ne b₁ b
    · rw [hsame] at hx
      rw [hother b₂ hb.symm] at hy
      exact hne x hx b₂ hb.symm y hy
    · rw [hother b₁ h₁] at hx
      obtain rfl | h₂ := eq_or_ne b₂ b
      · rw [hsame] at hy
        exact (hne y hy b₁ h₁ x hx).symm
      · rw [hother b₂ h₂] at hy
        exact h.value_ne b₁ b₂ hb x hx y hy
  all_goals
    intro b'
    obtain rfl | hb' := eq_or_ne b' b
  · rwa [hsame]
  · rw [hother b' hb', hbuckets b' hb']
    exact (h.seg b').frame (hentries b' hb')
  · rwa [hsame]
  · rw [hother b' hb']
    exact h.placed b'
  · rwa [hsame]
  · rw [hother b' hb']
    exact h.keys b'
  · rwa [hsame]
  · rw [hother b' hb']
    exact hvalues b' hb'
  · rwa [hsame]
  · rw [hother b' hb']
    exact h.values b'

/-- The entry is written: it gets a new value cell, and the chain is otherwise as it was. -/
theorem Found.overwrite (hf : Found c k l₁ x l₂) (h : Linked kv c) (A : Malloc) (v : Str) :
    ∃ kv' y, kv.kvWrite A k v = some (kv', 0) ∧ kv'.size = kv.size ∧ y.2.key = k ∧
      Linked kv' (Function.update c (index k) (l₁ ++ y :: l₂)) ∧
      kv'.values.lookup y.2.value = some v ∧
      ∀ p u, p ≠ x.2.value → kv.values.lookup p = some u → kv'.values.lookup p = some u := by
  have hcell := (h.seg (index k)).lookup hf.mem
  have hseg := h.seg (index k)
  obtain ⟨old, hold⟩ := Finmap.mem_iff.mp (h.value_mem _ x hf.mem)
  have hchain := hf.chain
  have hkeys := h.keys (index k)
  have hnodup := h.values (index k)
  rw [hchain] at hseg hkeys hnodup
  obtain ⟨-, -, -, hnext⟩ := (Heap.seg_append.mp hseg).choose_spec
  obtain ⟨haddr₁, haddr₂⟩ := hf.addr h
  generalize hp : A.value.pick (kv.values.erase x.2.value).keys = p
  have hfresh : p ∉ kv.values.erase x.2.value := hp ▸ Heap.pick_notMem A.value _
  have hkept : ∀ q u, q ≠ x.2.value → kv.values.lookup q = some u →
      ((kv.values.erase x.2.value).insert p v).lookup q = some u := by
    intro q u hq hu
    rw [← hp]
    exact Heap.lookup_insert_pick A.value ((Finmap.lookup_erase_ne hq).trans hu)
  -- The entries of the other keys keep their value cells, and the new cell is none of these.
  have hother : ∀ b, ∀ y ∈ c b, y.2.key ≠ k →
      y.2.value ∈ (kv.values.erase x.2.value).insert p v ∧ p ≠ y.2.value := by
    intro b y hy hyk
    obtain ⟨u, hu⟩ := Finmap.mem_iff.mp (h.value_mem b y hy)
    refine ⟨Finmap.mem_iff.mpr ⟨u, hkept _ u (hf.value_ne h hy hyk) hu⟩, ?_⟩
    rintro rfl
    exact hfresh (Finmap.mem_erase.mpr ⟨hf.value_ne h hy hyk, h.value_mem b y hy⟩)
  refine ⟨{ kv with
      values := (kv.values.erase x.2.value).insert p v
      entries := kv.entries.insert x.1 ⟨x.2.key, p, x.2.next⟩ },
    (x.1, ⟨x.2.key, p, x.2.next⟩), ?_, rfl, hf.key, ?_, Finmap.lookup_insert _, hkept⟩
  · simp only [KvStore.kvWrite, KvStore.overwrite, hf.search h, hcell, Heap.free_of_lookup hold,
      Heap.malloc, hp, Option.bind_eq_bind, Option.bind_some]
  · refine h.update (fun _ _ => rfl) (fun b hb y hy => ?_)
      (fun b hb y hy => (hother b y hy (h.key_ne hb hy)).1)
      (hseg.set hnext haddr₁ haddr₂) ?_ ?_ ?_ ?_ ?_
    · exact (Finmap.lookup_insert_of_ne _ (hf.addr_ne h hb hy)).trans ((h.seg b).lookup hy)
    · exact hf.forall_replaced h (congrArg index hf.key) fun y hy _ => h.placed _ y hy
    · rw [List.map_append, List.map_cons] at hkeys ⊢
      exact hkeys
    · exact hf.forall_replaced h (Finmap.mem_iff.mpr ⟨v, Finmap.lookup_insert _⟩)
        fun y hy hyk => (hother _ y hy hyk).1
    · rw [List.map_append, List.map_cons, List.nodup_middle, List.nodup_cons] at hnodup ⊢
      refine ⟨fun hmem => ?_, hnodup.2⟩
      rw [← List.map_append] at hmem
      obtain ⟨y, hy, hyp⟩ := List.mem_map.mp hmem
      obtain ⟨hyc, hyk⟩ := hf.rest h hy
      exact (hother _ y hyc hyk).2 hyp.symm
    · refine hf.forall_replaced h (fun b hb z hz => (hother b z hz (h.key_ne hb hz)).2) ?_
      exact fun y hy _ b hb z hz => h.value_ne _ b hb.symm y hy z hz

/-- A new entry is put first in its chain. -/
theorem insert_absent (h : Linked kv c) (hk : ∀ x ∈ c (index k), x.2.key ≠ k)
    (hlen : k.1.length ≤ 31) (hsize : kv.size ≠ TABLE_MAX) (A : Malloc) (v : Str) :
    ∃ kv' y, kv.kvWrite A k v = some (kv', 0) ∧ kv'.size = kv.size + 1 ∧ y.2.key = k ∧
      Linked kv' (Function.update c (index k) (y :: c (index k))) ∧
      kv'.values.lookup y.2.value = some v ∧
      ∀ p u, kv.values.lookup p = some u → kv'.values.lookup p = some u := by
  obtain ⟨prev, hsearch⟩ := search_absent h hk
  generalize hp : A.value.pick kv.values.keys = p
  generalize hn : A.node.pick kv.entries.keys = n
  have hvalues : ∀ q u, kv.values.lookup q = some u → (kv.values.insert p v).lookup q = some u := by
    intro q u hu
    exact hp ▸ Heap.lookup_insert_pick A.value hu
  have hp_notMem : p ∉ kv.values := hp ▸ Heap.pick_notMem A.value _
  have hentries : ∀ b, ∀ y ∈ c b, ∀ e : KeyEntry,
      (kv.entries.insert n e).lookup y.1 = some y.2 := fun b y hy e =>
    hn ▸ Heap.lookup_insert_pick A.node ((h.seg b).lookup hy)
  have hmem : ∀ b, ∀ y ∈ c b, y.2.value ∈ kv.values.insert p v := fun b y hy =>
    Finmap.mem_insert.mpr (.inr (h.value_mem b y hy))
  have hne : ∀ b, ∀ y ∈ c b, p ≠ y.2.value := by
    rintro b y hy rfl
    exact hp_notMem (h.value_mem b y hy)
  -- A new value cell, and a new entry that the bucket points to and that leads to the old chain.
  refine ⟨{ kv with
      values := kv.values.insert p v
      entries := kv.entries.insert n ⟨k, p, kv.buckets (index k)⟩
      buckets := Function.update kv.buckets (index k) (some n)
      size := kv.size + 1 },
    (n, ⟨k, p, kv.buckets (index k)⟩), ?_, rfl, rfl, ?_, Finmap.lookup_insert _, hvalues⟩
  · have hfits : ¬ 32 ≤ k.1.length := by omega
    simp only [KvStore.kvWrite, KvStore.insert, kvEntryInit, hsearch, hsize, hfits, if_false,
      Heap.malloc, hp, hn, Finmap.lookup_insert, Finmap.insert_insert, Option.bind_eq_bind,
      Option.bind_some]
  · refine h.update (fun b hb => Function.update_of_ne hb ..) (fun b _ y hy => hentries b y hy _)
      (fun b _ y hy => hmem b y hy) ?_ ?_ ?_ ?_ ?_ ?_
    · exact ⟨Function.update_self .., Finmap.lookup_insert _,
        (h.seg _).frame fun y hy => hentries _ y hy _⟩
    · exact List.forall_mem_cons.mpr ⟨rfl, h.placed _⟩
    · refine List.nodup_cons.mpr ⟨fun hmem => ?_, h.keys _⟩
      obtain ⟨y, hy, hyk⟩ := List.mem_map.mp hmem
      exact hk y hy hyk
    · exact List.forall_mem_cons.mpr ⟨Finmap.mem_insert.mpr (.inl rfl), hmem _⟩
    · refine List.nodup_cons.mpr ⟨fun hmem => ?_, h.values _⟩
      obtain ⟨y, hy, hyp⟩ := List.mem_map.mp hmem
      exact hne _ y hy hyp.symm
    · refine List.forall_mem_cons.mpr ⟨fun b _ z hz => hne b z hz, fun y hy b hb z hz => ?_⟩
      exact h.value_ne _ b hb.symm y hy z hz

/-- Freeing the value cell of an entry keeps the value cells of the other keys. -/
theorem Found.value_mem_erase (hf : Found c k l₁ x l₂) (h : Linked kv c) {b : Fin 200}
    {y : ℕ × KeyEntry} (hy : y ∈ c b) (hyk : y.2.key ≠ k) :
    y.2.value ∈ kv.values.erase x.2.value :=
  Finmap.mem_erase.mpr ⟨hf.value_ne h hy hyk, h.value_mem b y hy⟩

/-- The first entry of a chain is deleted: the bucket becomes empty. -/
theorem Found.unlink_first (hf : Found c k [] x l₂) (h : Linked kv c) :
    ∃ kv', kv.kvDelete k = some kv' ∧ kv'.size = kv.size - 1 ∧
      kv'.values = kv.values.erase x.2.value ∧
      Linked kv' (Function.update c (index k) []) := by
  have hseg := h.seg (index k)
  have hcell := hseg.lookup hf.mem
  obtain ⟨old, hold⟩ := Finmap.mem_iff.mp (h.value_mem _ x hf.mem)
  rw [hf.chain, List.nil_append] at hseg
  -- The bucket loses its whole chain, of which only the first entry is freed.
  refine ⟨{ kv with
      values := kv.values.erase x.2.value
      entries := kv.entries.erase x.1
      buckets := Function.update kv.buckets (index k) none
      size := kv.size - 1 }, ?_, rfl, rfl, ?_⟩
  · simp only [KvStore.kvDelete, KvStore.unlink, hf.search h, hcell, Heap.free_of_lookup hold,
      Heap.free_of_lookup hcell, Heap.lastAddr_nil, hseg.1, if_true, Option.bind_eq_bind,
      Option.bind_some]
  · refine h.update (fun b hb => Function.update_of_ne hb ..) (fun b hb y hy => ?_)
      (fun b hb y hy => hf.value_mem_erase h hy (h.key_ne hb hy)) (Function.update_self ..) ?_ ?_
      ?_ ?_ ?_
    · exact (Finmap.lookup_erase_ne (hf.addr_ne h hb hy)).trans ((h.seg b).lookup hy)
    · exact List.forall_mem_nil _
    · exact List.nodup_nil
    · exact List.forall_mem_nil _
    · exact List.nodup_nil
    · exact List.forall_mem_nil _

/-- A later entry of a chain is deleted: the entry before it points to what follows. -/
theorem Found.unlink_later {l₀ : List (ℕ × KeyEntry)} {y : ℕ × KeyEntry}
    (hf : Found c k (l₀ ++ [y]) x l₂) (h : Linked kv c) :
    ∃ kv', kv.kvDelete k = some kv' ∧ kv'.size = kv.size - 1 ∧
      kv'.values = kv.values.erase x.2.value ∧
      Linked kv' (Function.update c (index k)
        (l₀ ++ (y.1, ⟨y.2.key, y.2.value, x.2.next⟩) :: l₂)) := by
  have hy : y ∈ l₀ ++ [y] := by simp
  have hchain : c (index k) = l₀ ++ y :: x :: l₂ := by rw [hf.chain, List.append_assoc]; rfl
  have hseg := h.seg (index k)
  have hcell := hseg.lookup hf.mem
  have hycell := hseg.lookup (hf.mem_left hy)
  have hkeys := h.keys (index k)
  have hnodup := h.values (index k)
  rw [hchain] at hseg hkeys hnodup
  obtain ⟨-, -, -, -, -, hnext⟩ := (Heap.seg_append.mp hseg).choose_spec
  obtain ⟨old, hold⟩ := Finmap.mem_iff.mp (h.value_mem _ x hf.mem)
  obtain ⟨haddr₁, haddr₂⟩ := hf.addr h
  have hxy : y.1 ≠ x.1 := haddr₁ y hy
  -- The entry before the deleted one is met once in the chain.
  have hfy : Found c y.2.key l₀ y (x :: l₂) :=
    ⟨(h.placed _ y (hf.mem_left hy)).symm ▸ hchain, rfl⟩
  obtain ⟨hy₁, hy₂⟩ := hfy.addr h
  have hset := hseg.set (y := ⟨y.2.key, y.2.value, x.2.next⟩) hnext hy₁
    fun z hz => hy₂ z (List.mem_cons_of_mem _ hz)
  have hfree : Heap.free x.1 (kv.entries.insert y.1 ⟨y.2.key, y.2.value, x.2.next⟩) =
      some ((kv.entries.insert y.1 ⟨y.2.key, y.2.value, x.2.next⟩).erase x.1) :=
    Heap.free_of_lookup ((Finmap.lookup_insert_of_ne _ hxy.symm).trans hcell)
  -- In what they say of keys and values, the entries of the new chain are entries of the old one.
  have hold' : ∀ z ∈ l₀ ++ (y.1, ⟨y.2.key, y.2.value, x.2.next⟩) :: l₂,
      ∃ z' ∈ c (index k), z'.2.key ≠ k ∧ z.2.key = z'.2.key ∧ z.2.value = z'.2.value ∧
        z.1 ≠ x.1 := by
    intro z hz
    rcases List.mem_append.mp hz with hz | hz
    · have hz' : z ∈ l₀ ++ [y] := List.mem_append_left _ hz
      exact ⟨z, hf.mem_left hz', (hf.keys h).1 z hz', rfl, rfl, haddr₁ z hz'⟩
    rcases List.mem_cons.mp hz with rfl | hz
    · exact ⟨y, hf.mem_left hy, (hf.keys h).1 y hy, rfl, rfl, hxy⟩
    · exact ⟨z, hf.mem_right hz, (hf.keys h).2 z hz, rfl, rfl, haddr₂ z hz⟩
  refine ⟨{ kv with
      values := kv.values.erase x.2.value
      entries := (kv.entries.insert y.1 ⟨y.2.key, y.2.value, x.2.next⟩).erase x.1
      size := kv.size - 1 }, ?_, rfl, rfl, ?_⟩
  · have hne : some y.1 ≠ some x.1 := fun heq => hxy (Option.some.inj heq)
    simp only [KvStore.kvDelete, KvStore.unlink, hf.search h, hcell, Heap.free_of_lookup hold,
      Heap.lastAddr_concat, if_neg hne, hycell, hfree, Option.bind_eq_bind, Option.bind_some]
  · refine h.update (fun _ _ => rfl) (fun b hb z hz => ?_)
      (fun b hb z hz => hf.value_mem_erase h hz (h.key_ne hb hz)) (hset.frame fun z hz => ?_) ?_ ?_
      ?_ ?_ ?_
    · have hzy : z.1 ≠ y.1 := hfy.addr_ne h (h.placed _ y (hf.mem_left hy) ▸ hb) hz
      rw [Finmap.lookup_erase_ne (hf.addr_ne h hb hz), Finmap.lookup_insert_of_ne _ hzy]
      exact (h.seg b).lookup hz
    · obtain ⟨-, -, -, -, -, hzx⟩ := hold' z hz
      rw [Finmap.lookup_erase_ne hzx, hset.lookup hz]
    · intro z hz
      obtain ⟨z', hz', -, hkey, -⟩ := hold' z hz
      rw [hkey, h.placed _ z' hz']
    · refine hkeys.sublist ?_
      simp only [List.map_append, List.map_cons]
      exact (List.Sublist.refl _).append ((List.sublist_cons_self ..).cons_cons _)
    · intro z hz
      obtain ⟨z', hz', hzk, -, hval, -⟩ := hold' z hz
      rw [hval]
      exact hf.value_mem_erase h hz' hzk
    · refine hnodup.sublist ?_
      simp only [List.map_append, List.map_cons]
      exact (List.Sublist.refl _).append ((List.sublist_cons_self ..).cons_cons _)
    · intro z hz b hb w hw
      obtain ⟨z', hz', -, -, hval, -⟩ := hold' z hz
      rw [hval]
      exact h.value_ne _ b hb.symm z' hz' w hw

end Cs5600.Lab3
