import Cs5600.Lab3.KvMap

/-!
# Where the entries of the key-value store are

What every lookup rests on, said of the pointers in memory alone: `entryAt b n` is the pointer one
holds after following `next` `n` times from bucket `b`. In every store that calls of the three
operations make out of the one of `kv_init` (`Placed`), a pointer to an entry leads to a cell that
is allocated, whose key has the hash `b`, and no cell and no key is met at two places. Unlike the
values of the keys, this needs no condition on the deletions: a bucket that `kv_delete` empties
loses its other entries, but none of the freed cells stays linked.
-/

namespace Cs5600.Lab3

variable {kv kv' : KvStore} {c : Fin 200 → List (ℕ × KeyEntry)}

/-- The pointer to entry `n` of bucket `b`, and null behind the last one. -/
def KvStore.entryAt (kv : KvStore) (b : Fin 200) (n : ℕ) : Option ℕ :=
  Heap.follow KeyEntry.next kv.entries n (kv.buckets b)

/-- The entries are in the buckets of their keys, each of them once. -/
structure Placed (kv : KvStore) : Prop where
  /-- A cell that was freed and not allocated again is met nowhere. -/
  allocated : ∀ b n a, kv.entryAt b n = some a → a ∈ kv.entries
  hash : ∀ b n a e, kv.entryAt b n = some a → kv.entries.lookup a = some e →
    (hash33 e.key).toNat = b.1 ∧ b.1 < 200
  keys : ∀ b n a e b' n' a' e', kv.entryAt b n = some a → kv.entries.lookup a = some e →
    kv.entryAt b' n' = some a' → kv.entries.lookup a' = some e' → e.key = e'.key → b = b' ∧ n = n'
  once : ∀ b n b' n' a, kv.entryAt b n = some a → kv.entryAt b' n' = some a → b = b' ∧ n = n'

/-- The pointers of bucket `b` are the addresses of its chain. -/
theorem Linked.entryAt_eq_some_iff (h : Linked kv c) {b : Fin 200} {n a : ℕ} :
    kv.entryAt b n = some a ↔ ∃ x, (c b)[n]? = some x ∧ x.1 = a := by
  rw [KvStore.entryAt, (h.seg b).follow, Option.map_eq_some_iff]

/-- The entry that a pointer leads to is the one of the chain. -/
theorem Linked.entry_eq (h : Linked kv c) {b : Fin 200} {n : ℕ} {x : ℕ × KeyEntry} {e : KeyEntry}
    (hx : (c b)[n]? = some x) (he : kv.entries.lookup x.1 = some e) : x.2 = e := by
  rw [(h.seg b).lookup (List.mem_of_getElem? hx)] at he
  exact Option.some.inj he

/-- Two places of the chains with the same key are one place. -/
theorem Linked.place_eq (h : Linked kv c) {b b' : Fin 200} {n n' : ℕ} {x y : ℕ × KeyEntry}
    (hx : (c b)[n]? = some x) (hy : (c b')[n']? = some y) (hkey : x.2.key = y.2.key) :
    b = b' ∧ n = n' := by
  -- The key decides the bucket, and a chain has no key twice.
  have hb : b = b' := by
    rw [← h.placed b x (List.mem_of_getElem? hx), ← h.placed b' y (List.mem_of_getElem? hy), hkey]
  subst hb
  have hmap : ((c b).map fun x => x.2.key)[n]? = ((c b).map fun x => x.2.key)[n']? := by
    rw [List.getElem?_map, List.getElem?_map, hx, hy, Option.map_some, Option.map_some, hkey]
  have hlt : n < ((c b).map fun x => x.2.key).length := by
    rw [List.length_map]
    exact (List.getElem?_eq_some_iff.mp hx).1
  exact ⟨rfl, (List.getElem?_inj hlt (h.keys b)).mp hmap⟩

/-- The entries of a store whose chains are linked are placed. -/
theorem Linked.toPlaced (h : Linked kv c) : Placed kv where
  allocated b n a ha := by
    obtain ⟨x, hx, rfl⟩ := h.entryAt_eq_some_iff.mp ha
    exact Finmap.mem_of_lookup_eq_some ((h.seg b).lookup (List.mem_of_getElem? hx))
  hash b n a e ha he := by
    obtain ⟨x, hx, rfl⟩ := h.entryAt_eq_some_iff.mp ha
    obtain rfl := h.entry_eq hx he
    exact ⟨congrArg Fin.val (h.placed b x (List.mem_of_getElem? hx)), b.2⟩
  keys b n a e b' n' a' e' ha he ha' he' hkey := by
    obtain ⟨x, hx, rfl⟩ := h.entryAt_eq_some_iff.mp ha
    obtain ⟨y, hy, rfl⟩ := h.entryAt_eq_some_iff.mp ha'
    obtain rfl := h.entry_eq hx he
    obtain rfl := h.entry_eq hy he'
    exact h.place_eq hx hy hkey
  once b n b' n' a ha ha' := by
    obtain ⟨x, hx, rfl⟩ := h.entryAt_eq_some_iff.mp ha
    obtain ⟨y, hy, hxy⟩ := h.entryAt_eq_some_iff.mp ha'
    have hsame : y = x := h.eq_of_addr (List.mem_of_getElem? hy) (List.mem_of_getElem? hx) hxy
    exact h.place_eq hx hy (by rw [hsame])

/-! ## Every sequence of calls -/

/-- The call has a key of at most 31 bytes, which fits into an entry. -/
def FitsEntry (s : Step) : Prop := s.call.key.1.length ≤ 31

instance (s : Step) : Decidable (FitsEntry s) := inferInstanceAs (Decidable (_ ≤ _))

/-- A call returns and keeps the chains linked, also when it deletes the first of a chain. -/
theorem exec_linked {s : Step} (h : Linked kv c) (hs : FitsEntry s) :
    ∃ kv' reply, exec s kv = some (kv', reply) ∧ ∃ c', Linked kv' c' := by
  obtain ⟨A, call⟩ := s
  cases call with
  | read k =>
    obtain ⟨kv', reply, c', hexec, h', -⟩ := exec_spec (s := ⟨A, .read k⟩) h ⟨hs, id⟩
    exact ⟨kv', reply, hexec, c', h'⟩
  | write k v =>
    obtain ⟨kv', reply, c', hexec, h', -⟩ := exec_spec (s := ⟨A, .write k v⟩) h ⟨hs, id⟩
    exact ⟨kv', reply, hexec, c', h'⟩
  | delete k =>
    obtain ⟨kv', c', hdelete, h', -⟩ := kvDelete_spec (k := k) h
    refine ⟨kv', .done, ?_, c', h'⟩
    simp only [exec, hdelete, Option.bind_eq_bind, Option.bind_some]

variable {steps : List Step} {hist : List (Step × Reply)}

/-- Every store that calls lead to is linked. -/
theorem linked_of_run (hkeys : ∀ s ∈ steps, FitsEntry s)
    (hrun : run exec steps kvInit = some (kv, hist)) : ∃ c, Linked kv c := by
  refine run_invariant (fun _ kv => ∃ c, Linked kv c) ?_ ⟨_, linked_kvInit⟩
    (Meets.of_forall hkeys kvInit) hrun
  rintro hist kv s kv' reply ⟨c, hc⟩ hs hexec
  obtain ⟨kv₁, reply₁, hexec₁, hlinked⟩ := exec_linked hc hs
  rw [hexec, Option.some_inj] at hexec₁
  exact (Prod.mk.inj hexec₁).1 ▸ hlinked

/-- Every sequence of calls gets to its end. -/
theorem run_exec_returns (hkeys : ∀ s ∈ steps, FitsEntry s) :
    ∃ kv hist, run exec steps kvInit = some (kv, hist) := by
  refine run_returns (fun kv => ∃ c, Linked kv c) ?_ ⟨_, linked_kvInit⟩
    (Meets.of_forall hkeys kvInit)
  rintro kv s ⟨c, hc⟩ hs
  exact exec_linked hc hs

/-- **Every entry is in its bucket, once.** After every sequence of calls on a store made by
`kv_init`, with keys of at most 31 bytes and whatever addresses `malloc` returns, an entry that is
linked in bucket `b` is an allocated one and `b` is the hash of its key, no two entries have the
same key, and no entry is met in two buckets or twice in one chain. -/
theorem kvstore_placed (hkeys : ∀ s ∈ steps, s.call.key.1.length ≤ 31) :
    ∃ kv hist, run exec steps kvInit = some (kv, hist) ∧ Placed kv := by
  obtain ⟨kv, hist, hrun⟩ := run_exec_returns hkeys
  obtain ⟨c, hc⟩ := linked_of_run hkeys hrun
  exact ⟨kv, hist, hrun, hc.toPlaced⟩

/-- `ab` and `bA`, which share a bucket, are written, `ab` once more, and then deleted one after the
other, each by another branch. -/
theorem kvstore_placed_keyAb : ∃ kv hist,
    run exec [(Call.write keyAb keyAb).step, (Call.write keyBA keyBA).step,
      (Call.write keyAb keyBA).step, (Call.delete keyAb).step, (Call.write keyAb keyAb).step,
      (Call.delete keyAb).step] kvInit = some (kv, hist) ∧ Placed kv :=
  kvstore_placed (by decide +kernel)

end Cs5600.Lab3
