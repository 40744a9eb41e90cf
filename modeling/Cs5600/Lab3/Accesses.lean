import Cs5600.Lab3.Dump
import Cs5600.Lab3.Monitor
import Cs5600.Lib.Sections

/-!
# The store, access by access

What `kv_read`, `kv_write`, `kv_delete`, and `kv_dump` do between their entry and exit sections, in
steps that read or change the store in one place each. A thread that is inside may be between any
two of them when another thread takes a step.

`perform` is an operation as a whole, and `runs_perform` says that the steps of one thread, with
nobody else at work, add up to it.
-/

namespace Cs5600.Lab3

/-- What a thread does inside: one of the calls, with the addresses `malloc` returns in it, or
`kv_dump`. -/
inductive Job where
  | call (s : Step)
  | dump

/-- What an operation returns, and for `kv_dump` the lines that it prints. -/
inductive Return where
  | pointer (p : Option ℕ)
  | code (ret : ℤ)
  | done
  | printed (lines : List (Str × Str))
  deriving DecidableEq

/-- An operation as a whole. -/
def perform : Job → KvStore → Option (KvStore × Return)
  | .call ⟨_, .read k⟩, kv => do
    let val ← kv.kvRead k
    some (kv, .pointer val)
  | .call ⟨A, .write k v⟩, kv => do
    let (kv, ret) ← kv.kvWrite A k v
    some (kv, .code ret)
  | .call ⟨_, .delete k⟩, kv => do
    let kv ← kv.kvDelete k
    some (kv, .done)
  | .dump, kv => do
    let lines ← kv.kvDump
    some (kv, .printed lines)

/-- What is in a cell that `malloc` has just returned. -/
structure Junk where
  entry : KeyEntry
  value : Str

/-- Where a thread inside is: in front of the access that each constructor names. -/
inductive Code where
  /-- `if (kv->buckets[index])` of `kv_read` and `kv_write`. -/
  | testBucket (s : Step)
  /-- `h = kv->buckets[index]`. -/
  | loadBucket (s : Step)
  /-- `while (h && 0 != strcmp(h->key, key))`. -/
  | compare (s : Step) (prev h : Option ℕ)
  /-- `h = h->next` of the loop. -/
  | advance (s : Step) (h : ℕ)
  /-- `val = h->value`. -/
  | loadValue (h : ℕ)
  /-- `free(h->value)` of `kv_write`. -/
  | freeOld (A : Malloc) (val : Str) (h : ℕ)
  /-- `h->value = malloc(..)`. -/
  | mallocNew (A : Malloc) (val : Str) (h : ℕ)
  /-- `strcpy(h->value, val)`. -/
  | copyNew (val : Str) (h : ℕ)
  /-- `if (kv->size == TABLE_MAX)`. -/
  | testSize (A : Malloc) (key val : Str)
  /-- `n = malloc(sizeof(key_entry_t))` of `kv_entry_init`. -/
  | mallocNode (A : Malloc) (key val : Str)
  /-- `memset(n->key, ..)` and `n->next = NULL`. -/
  | clearNode (A : Malloc) (key val : Str) (n : ℕ)
  /-- `n->value = malloc(..)`. -/
  | mallocValue (A : Malloc) (key val : Str) (n : ℕ)
  /-- `strcpy(n->key, k)`. -/
  | copyKey (key val : Str) (n : ℕ)
  /-- `strcpy(n->value, v)`. -/
  | copyValue (key val : Str) (n : ℕ)
  /-- `node->next = kv->buckets[index]`. -/
  | linkNode (key : Str) (node : ℕ)
  /-- `kv->buckets[index] = node`. -/
  | setBucket (key : Str) (node : ℕ)
  /-- `kv->size++`. -/
  | countUp
  /-- `free(prev->value)` of `kv_delete`. -/
  | freeFirstValue (key : Str) (prev : ℕ)
  /-- `free(prev)`. -/
  | freeFirst (key : Str) (prev : ℕ)
  /-- `kv->buckets[index] = NULL`. -/
  | clearBucket (key : Str)
  /-- `prev->next = h->next`. -/
  | passOver (prev : Option ℕ) (h : ℕ)
  /-- `free(h->value)` of `kv_delete`. -/
  | freeValue (h : ℕ)
  /-- `free(h)`. -/
  | freeNode (h : ℕ)
  /-- `kv->size--`. -/
  | countDown
  /-- `h = kv->buckets[i]` of `kv_dump`, with the lines printed so far. -/
  | dumpBucket (i : ℕ) (lines : List (Str × Str))
  /-- `while (h)` and the `printf`. -/
  | print (i : ℕ) (h : Option ℕ) (lines : List (Str × Str))
  /-- `h = h->next` of `kv_dump`. -/
  | dumpAdvance (i h : ℕ) (lines : List (Str × Str))
  /-- In front of the exit section. -/
  | leave (kind : Kind) (ret : Return)

/-- A call that may change the store. -/
def Call.kind : Call → Kind
  | .read _ => .reader
  | .write _ _ | .delete _ => .writer

def Job.operation : Job → Operation
  | .call ⟨_, .read _⟩ => .kvRead
  | .call ⟨_, .write _ _⟩ => .kvWrite
  | .call ⟨_, .delete _⟩ => .kvDelete
  | .dump => .kvDump

def Code.kind : Code → Kind
  | .testBucket s | .loadBucket s | .compare s _ _ | .advance s _ => s.call.kind
  | .loadValue _ | .dumpBucket _ _ | .print _ _ _ | .dumpAdvance _ _ _ => .reader
  | .leave kind _ => kind
  | _ => .writer

/-- The first access of an operation. `kv_delete` does not test the bucket beforehand. -/
def Job.start : Job → Code
  | .call ⟨A, .read k⟩ => .testBucket ⟨A, .read k⟩
  | .call ⟨A, .write k v⟩ => .testBucket ⟨A, .write k v⟩
  | .call ⟨A, .delete k⟩ => .loadBucket ⟨A, .delete k⟩
  | .dump => .dumpBucket 0 []

/-- What follows the search loop, which ends with `prev` and `h`. -/
def Step.found (s : Step) (prev h : Option ℕ) : Code :=
  match s.call, h with
  | .read _, none => .leave .reader (.pointer none)
  | .read _, some h => .loadValue h
  | .write k v, none => .testSize s.malloc k v
  | .write _ v, some h => .freeOld s.malloc v h
  | .delete _, none => .leave .writer .done
  | .delete k, some h => if prev = some h then .freeFirstValue k h else .passOver prev h

/-- One access. There is none in front of the exit section, and no result when the C code would
follow a pointer to a cell that is not allocated, free one twice, or write past an array. -/
def access (junk : Junk) : Code → KvStore → Option (Code × KvStore)
  | .testBucket s, kv =>
    -- The search: the bucket, then the chain key by key.
    match kv.buckets (index s.call.key) with
    | none => some (s.found none none, kv)
    | some _ => some (.loadBucket s, kv)
  | .loadBucket s, kv =>
    some (.compare s (kv.buckets (index s.call.key)) (kv.buckets (index s.call.key)), kv)
  | .compare s prev none, kv => some (s.found prev none, kv)
  | .compare s prev (some h), kv => do
    let e ← kv.entries.lookup h
    if e.key = s.call.key then some (s.found prev (some h), kv) else some (.advance s h, kv)
  | .advance s h, kv => do
    let e ← kv.entries.lookup h
    some (.compare s (some h) e.next, kv)
  -- What `kv_read` does with the entry it has found.
  | .loadValue h, kv => do
    let e ← kv.entries.lookup h
    some (.leave .reader (.pointer (some e.value)), kv)
  -- `kv_write` on a key that is stored: the old value is freed before the new one is there.
  | .freeOld A val h, kv => do
    let e ← kv.entries.lookup h
    let values ← kv.values.free e.value
    some (.mallocNew A val h, { kv with values })
  | .mallocNew A val h, kv => do
    let (value, values) := kv.values.malloc A.value junk.value
    let e ← kv.entries.lookup h
    some (.copyNew val h, { kv with values, entries := kv.entries.insert h { e with value } })
  | .copyNew val h, kv => do
    let e ← kv.entries.lookup h
    if e.value ∈ kv.values then
      some (.leave .writer (.code 0), { kv with values := kv.values.insert e.value val })
    else none
  -- `kv_write` on a new key: room, `kv_entry_init`, then the head of the bucket.
  | .testSize A key val, kv =>
    if kv.size = TABLE_MAX then some (.leave .writer (.code 1), kv)
    else some (.mallocNode A key val, kv)
  | .mallocNode A key val, kv =>
    let (n, entries) := kv.entries.malloc A.node junk.entry
    some (.clearNode A key val n, { kv with entries })
  | .clearNode A key val n, kv => do
    let e ← kv.entries.lookup n
    some (.mallocValue A key val n,
      { kv with entries := kv.entries.insert n { e with key := emptyStr, next := none } })
  | .mallocValue A key val n, kv => do
    let (value, values) := kv.values.malloc A.value junk.value
    let e ← kv.entries.lookup n
    some (.copyKey key val n, { kv with values, entries := kv.entries.insert n { e with value } })
  | .copyKey key val n, kv =>
    if 32 ≤ key.1.length then none
    else do
      let e ← kv.entries.lookup n
      some (.copyValue key val n, { kv with entries := kv.entries.insert n { e with key } })
  | .copyValue key val n, kv => do
    let e ← kv.entries.lookup n
    if e.value ∈ kv.values then
      some (.linkNode key n, { kv with values := kv.values.insert e.value val })
    else none
  | .linkNode key node, kv => do
    let e ← kv.entries.lookup node
    some (.setBucket key node,
      { kv with entries := kv.entries.insert node { e with next := kv.buckets (index key) } })
  | .setBucket key node, kv =>
    some (.countUp, { kv with buckets := Function.update kv.buckets (index key) (some node) })
  | .countUp, kv => some (.leave .writer (.code 0), { kv with size := kv.size + 1 })
  -- `kv_delete` of the first entry: the bucket is emptied, whatever follows in the chain.
  | .freeFirstValue key prev, kv => do
    let e ← kv.entries.lookup prev
    let values ← kv.values.free e.value
    some (.freeFirst key prev, { kv with values })
  | .freeFirst key prev, kv => do
    let entries ← kv.entries.free prev
    some (.clearBucket key, { kv with entries })
  | .clearBucket key, kv =>
    some (.countDown, { kv with buckets := Function.update kv.buckets (index key) none })
  -- `kv_delete` of a later entry: the one before points past it.
  | .passOver prev h, kv => do
    let e ← kv.entries.lookup h
    let b ← prev
    let eb ← kv.entries.lookup b
    some (.freeValue h, { kv with entries := kv.entries.insert b { eb with next := e.next } })
  | .freeValue h, kv => do
    let e ← kv.entries.lookup h
    let values ← kv.values.free e.value
    some (.freeNode h, { kv with values })
  | .freeNode h, kv => do
    let entries ← kv.entries.free h
    some (.countDown, { kv with entries })
  | .countDown, kv => some (.leave .writer .done, { kv with size := kv.size - 1 })
  -- `kv_dump`: the 200 buckets in turn.
  | .dumpBucket i lines, kv =>
    if h : i < 200 then some (.print i (kv.buckets ⟨i, h⟩) lines, kv)
    else some (.leave .reader (.printed lines), kv)
  | .print i none lines, kv => some (.dumpBucket (i + 1) lines, kv)
  | .print i (some h) lines, kv => do
    let e ← kv.entries.lookup h
    let v ← kv.values.lookup e.value
    some (.dumpAdvance i h (lines ++ [(e.key, v)]), kv)
  | .dumpAdvance i h lines, kv => do
    let e ← kv.entries.lookup h
    some (.print i e.next lines, kv)
  | .leave _ _, _ => none

/-- What an operation returns when it is in front of its exit section. -/
def Code.result : Code → Option Return
  | .leave _ ret => some ret
  | _ => none

/-- What a search has found does not matter to whether its operation writes. -/
theorem Step.kind_found (s : Step) (prev h : Option ℕ) : (s.found prev h).kind = s.call.kind := by
  obtain ⟨A, call⟩ := s
  cases call <;> cases h <;> simp only [Step.found, Code.kind, Call.kind]
  split_ifs <;> rfl

/-- An access keeps what kind of operation it is, and a reader's leaves the store as it is. -/
theorem access_kind {junk : Junk} {l l' : Code} {kv kv' : KvStore}
    (h : access junk l kv = some (l', kv')) :
    l'.kind = l.kind ∧ (l.kind = .reader → kv' = kv) := by
  have hsame : ∀ {l₁ : Code}, some (l₁, kv) = some (l', kv') → l₁.kind = l.kind →
      l'.kind = l.kind ∧ (l.kind = .reader → kv' = kv) := by
    intro l₁ heq hkind
    obtain ⟨rfl, rfl⟩ := Prod.mk.inj (Option.some.inj heq)
    exact ⟨hkind, fun _ => rfl⟩
  have hwriter : l.kind = .writer → l'.kind = .writer →
      l'.kind = l.kind ∧ (l.kind = .reader → kv' = kv) := by
    intro hl hl'
    rw [hl, hl']
    exact ⟨rfl, fun h => by cases h⟩
  -- A section keeps its kind, and one of a reader leaves the store as it is.
  cases l with
  | testBucket s =>
    simp only [access] at h
    split at h
    · exact hsame h (s.kind_found _ _)
    · exact hsame h rfl
  | loadBucket s => exact hsame h rfl
  | compare s prev p =>
    cases p with
    | none => exact hsame h (s.kind_found _ _)
    | some a =>
      simp only [access, Option.bind_eq_bind, Option.bind_eq_some_iff] at h
      obtain ⟨e, -, h⟩ := h
      split_ifs at h
      · exact hsame h (s.kind_found _ _)
      · exact hsame h rfl
  | advance s a =>
    simp only [access, Option.bind_eq_bind, Option.bind_eq_some_iff] at h
    obtain ⟨e, -, h⟩ := h
    exact hsame h rfl
  | loadValue a =>
    simp only [access, Option.bind_eq_bind, Option.bind_eq_some_iff] at h
    obtain ⟨e, -, h⟩ := h
    exact hsame h rfl
  | dumpBucket i lines =>
    simp only [access] at h
    split_ifs at h
    · exact hsame h rfl
    · exact hsame h rfl
  | print i p lines =>
    cases p with
    | none => exact hsame h rfl
    | some a =>
      simp only [access, Option.bind_eq_bind, Option.bind_eq_some_iff] at h
      obtain ⟨e, -, v, -, h⟩ := h
      exact hsame h rfl
  | dumpAdvance i a lines =>
    simp only [access, Option.bind_eq_bind, Option.bind_eq_some_iff] at h
    obtain ⟨e, -, h⟩ := h
    exact hsame h rfl
  | leave kind ret => cases h
  | testSize A key val =>
    simp only [access] at h
    split_ifs at h
    · exact hsame h rfl
    · exact hsame h rfl
  | copyNew val a | copyValue key val a =>
    simp only [access, Option.bind_eq_bind, Option.bind_eq_some_iff] at h
    obtain ⟨e, -, h⟩ := h
    split_ifs at h
    obtain ⟨rfl, -⟩ := Prod.mk.inj (Option.some.inj h)
    exact hwriter rfl rfl
  | copyKey key val n =>
    simp only [access] at h
    split_ifs at h
    simp only [Option.bind_eq_bind, Option.bind_eq_some_iff] at h
    obtain ⟨e, -, h⟩ := h
    obtain ⟨rfl, -⟩ := Prod.mk.inj (Option.some.inj h)
    exact hwriter rfl rfl
  | mallocNode A key val | setBucket key a | countUp | clearBucket key | countDown =>
    obtain ⟨rfl, -⟩ := Prod.mk.inj (Option.some.inj h)
    exact hwriter rfl rfl
  | mallocNew A val a | clearNode A key val a | mallocValue A key val a | linkNode key a
  | freeFirst key a | freeNode a =>
    simp only [access, Option.bind_eq_bind, Option.bind_eq_some_iff] at h
    obtain ⟨e, -, h⟩ := h
    obtain ⟨rfl, -⟩ := Prod.mk.inj (Option.some.inj h)
    exact hwriter rfl rfl
  | freeOld A val a | freeFirstValue key a | freeValue a =>
    simp only [access, Option.bind_eq_bind, Option.bind_eq_some_iff] at h
    obtain ⟨e, -, values, -, h⟩ := h
    obtain ⟨rfl, -⟩ := Prod.mk.inj (Option.some.inj h)
    exact hwriter rfl rfl
  | passOver prev a =>
    simp only [access, Option.bind_eq_bind, Option.bind_eq_some_iff] at h
    obtain ⟨e, -, b, -, eb, -, h⟩ := h
    obtain ⟨rfl, -⟩ := Prod.mk.inj (Option.some.inj h)
    exact hwriter rfl rfl

/-- The operations of the store as sections. -/
def sections (junk : Junk) : Machine Job Code KvStore Return where
  start := Job.start
  act := access junk
  result := Code.result
  writes l := decide (l.kind = .writer)
  writes_act h := by rw [(access_kind h).1]
  act_of_reads {l} _ _ _ hl h := by
    refine (access_kind h).2 ?_
    cases hkind : l.kind with
    | reader => rfl
    | writer => rw [hkind] at hl; cases hl
  act_of_result {l} _ _ hr := by
    cases l with
    | leave kind ret => rfl
    | _ => cases hr

/-! ## The accesses of an operation -/

variable {junk : Junk} {kv kv' : KvStore} {A : Malloc} {key val : Str} {ret : ℤ} {a : ℕ}
  {y : Code × KvStore}

/-- One access comes in front of the others. -/
theorem steps_head {l m : Code} {t : KvStore} (h : access junk l kv = some (m, t))
    (hsteps : (sections junk).Steps (m, t) y) : (sections junk).Steps (l, kv) y :=
  .head h hsteps

/-- The search loop. -/
theorem compare_steps {s : Step} {fuel : ℕ} {prev prev' h h' : Option ℕ}
    (hscan : kv.entries.scan KeyEntry.next (fun e => e.key = s.call.key) fuel prev h =
      some (prev', h')) :
    (sections junk).Steps (.compare s prev h, kv) (s.found prev' h', kv) := by
  -- Induction on the length of the search.
  induction fuel generalizing prev h with
  | zero => cases hscan
  | succ fuel ih =>
    cases h with
    | none =>
      obtain ⟨rfl, rfl⟩ := Prod.mk.inj (Option.some.inj hscan)
      exact steps_head rfl .refl
    | some a =>
      simp only [Heap.scan, Option.bind_eq_bind, Option.bind_eq_some_iff,
        decide_eq_true_eq] at hscan
      obtain ⟨e, he, hscan⟩ := hscan
      split_ifs at hscan with hkey
      · obtain ⟨rfl, rfl⟩ := Prod.mk.inj (Option.some.inj hscan)
        refine steps_head ?_ .refl
        simp only [access, he, Option.bind_eq_bind, Option.bind_some, hkey, if_true]
      · refine steps_head (m := .advance s a) (t := kv) ?_ (steps_head ?_ (ih hscan))
        · simp only [access, he, Option.bind_eq_bind, Option.bind_some, hkey, if_false]
        · simp only [access, he, Option.bind_eq_bind, Option.bind_some]

/-- From its bucket on, a search ends as the whole search does. -/
theorem loadBucket_steps {s : Step} {prev h : Option ℕ}
    (hsearch : kv.search s.call.key = some (prev, h)) :
    (sections junk).Steps (.loadBucket s, kv) (s.found prev h, kv) :=
  steps_head rfl (compare_steps hsearch)

/-- From the test of its bucket on, a search ends as the whole search does. -/
theorem testBucket_steps {s : Step} {prev h : Option ℕ}
    (hsearch : kv.search s.call.key = some (prev, h)) :
    (sections junk).Steps (.testBucket s, kv) (s.found prev h, kv) := by
  cases hb : kv.buckets (index s.call.key) with
  | none =>
    have hscan := hsearch
    rw [KvStore.search, hb] at hscan
    obtain ⟨rfl, rfl⟩ := Prod.mk.inj (Option.some.inj hscan)
    refine steps_head ?_ .refl
    simp only [access, hb]
  | some a =>
    refine steps_head (m := .loadBucket s) (t := kv) ?_ (loadBucket_steps hsearch)
    simp only [access, hb]

/-- `kv_write` of a key that has an entry. -/
theorem overwrite_steps (h : kv.overwrite A a val = some (kv', ret)) :
    (sections junk).Steps (.freeOld A val a, kv) (.leave .writer (.code ret), kv') := by
  simp only [KvStore.overwrite, Heap.malloc, Option.bind_eq_bind, Option.bind_eq_some_iff,
    Option.some.injEq, Prod.mk.injEq] at h
  obtain ⟨e, he, values, hfree, rfl, rfl⟩ := h
  refine steps_head (m := .mallocNew A val a) (t := { kv with values }) ?_ ?_
  · simp only [access, he, hfree, Option.bind_eq_bind, Option.bind_some]
  refine steps_head (m := .copyNew val a) (t := { kv with
    values := values.insert (A.value.pick values.keys) junk.value
    entries := kv.entries.insert a { e with value := A.value.pick values.keys } }) ?_ ?_
  · simp only [access, Heap.malloc, he, Option.bind_eq_bind, Option.bind_some]
  refine steps_head ?_ .refl
  have hmem : A.value.pick values.keys ∈ values.insert (A.value.pick values.keys) junk.value :=
    Finmap.mem_insert.mpr (.inl rfl)
  simp only [access, Finmap.lookup_insert, Option.bind_eq_bind, Option.bind_some, hmem, if_true,
    Finmap.insert_insert]

/-- `kv_write` of a key that has no entry. -/
theorem insert_steps (h : kv.insert A key val = some (kv', ret)) :
    (sections junk).Steps (.testSize A key val, kv) (.leave .writer (.code ret), kv') := by
  simp only [KvStore.insert] at h
  split_ifs at h with hfull
  · obtain ⟨rfl, rfl⟩ := Prod.mk.inj (Option.some.inj h)
    refine steps_head ?_ .refl
    simp only [access, hfull, if_true]
  simp only [kvEntryInit, Heap.malloc, Option.bind_eq_bind, Option.bind_eq_some_iff] at h
  obtain ⟨⟨n, kv₁⟩, hinit, e, he, hstore⟩ := h
  split_ifs at hinit with hlen
  obtain ⟨rfl, rfl⟩ := Prod.mk.inj (Option.some.inj hinit)
  rw [Finmap.lookup_insert, Option.some.injEq] at he
  obtain rfl := he
  obtain ⟨rfl, rfl⟩ := Prod.mk.inj (Option.some.inj hstore)
  -- The two cells `kv_entry_init` takes, then the seven accesses one by one.
  generalize hn : A.node.pick kv.entries.keys = n
  generalize hp : A.value.pick kv.values.keys = p
  refine steps_head (m := .mallocNode A key val) (t := kv) ?_ ?_
  · simp only [access, hfull, if_false]
  refine steps_head rfl ?_
  rw [hn]
  refine steps_head (m := .mallocValue A key val n) (t := { kv with
    entries := kv.entries.insert n ⟨emptyStr, junk.entry.value, none⟩ }) ?_ ?_
  · simp only [access, Finmap.lookup_insert, Option.bind_eq_bind, Option.bind_some,
      Finmap.insert_insert]
  refine steps_head (m := .copyKey key val n) (t := { kv with
    values := kv.values.insert p junk.value
    entries := kv.entries.insert n ⟨emptyStr, p, none⟩ }) ?_ ?_
  · simp only [access, Heap.malloc, hp, Finmap.lookup_insert, Option.bind_eq_bind, Option.bind_some,
      Finmap.insert_insert]
  refine steps_head (m := .copyValue key val n) (t := { kv with
    values := kv.values.insert p junk.value
    entries := kv.entries.insert n ⟨key, p, none⟩ }) ?_ ?_
  · simp only [access, hlen, if_false, Finmap.lookup_insert, Option.bind_eq_bind, Option.bind_some,
      Finmap.insert_insert]
  refine steps_head (m := .linkNode key n) (t := { kv with
    values := kv.values.insert p val
    entries := kv.entries.insert n ⟨key, p, none⟩ }) ?_ ?_
  · have hmem : p ∈ kv.values.insert p junk.value := Finmap.mem_insert.mpr (.inl rfl)
    simp only [access, Finmap.lookup_insert, Option.bind_eq_bind, Option.bind_some, hmem, if_true,
      Finmap.insert_insert]
  refine steps_head (m := .setBucket key n) (t := { kv with
    values := kv.values.insert p val
    entries := kv.entries.insert n ⟨key, p, kv.buckets (index key)⟩ }) ?_ ?_
  · simp only [access, Finmap.lookup_insert, Option.bind_eq_bind, Option.bind_some,
      Finmap.insert_insert]
  refine steps_head rfl (steps_head ?_ .refl)
  rw [Finmap.insert_insert]
  rfl

/-- `kv_delete` of a key that has an entry. -/
theorem unlink_steps {prev : Option ℕ} (h : kv.unlink key prev a = some kv') :
    (sections junk).Steps (if prev = some a then .freeFirstValue key a else .passOver prev a, kv)
      (.leave .writer .done, kv') := by
  simp only [KvStore.unlink, Option.bind_eq_bind, Option.bind_eq_some_iff] at h
  obtain ⟨e, he, values, hfree, h⟩ := h
  -- The first entry of its bucket.
  split_ifs at h ⊢ with hfirst
  · simp only [Option.bind_eq_some_iff, Option.some.injEq] at h
    obtain ⟨entries, hentry, rfl⟩ := h
    refine steps_head (m := .freeFirst key a) (t := { kv with values }) ?_ ?_
    · simp only [access, he, hfree, Option.bind_eq_bind, Option.bind_some]
    refine steps_head (m := .clearBucket key) (t := { kv with values, entries }) ?_ ?_
    · simp only [access, hentry, Option.bind_eq_bind, Option.bind_some]
    exact steps_head rfl (steps_head rfl .refl)
  -- A later entry: its predecessor is another cell, so freeing reads what was there before.
  · simp only [Option.bind_eq_some_iff, Option.some.injEq] at h
    obtain ⟨b, rfl, eb, heb, entries, hentry, rfl⟩ := h
    have hne : a ≠ b := fun hab => hfirst (by rw [hab])
    refine steps_head (m := .freeValue a) (t := { kv with
      entries := kv.entries.insert b { eb with next := e.next } }) ?_ ?_
    · simp only [access, he, heb, Option.bind_eq_bind, Option.bind_some]
    refine steps_head (m := .freeNode a) (t := { kv with
      values, entries := kv.entries.insert b { eb with next := e.next } }) ?_ ?_
    · simp only [access, Finmap.lookup_insert_of_ne _ hne, he, hfree, Option.bind_eq_bind,
        Option.bind_some]
    refine steps_head (m := .countDown) (t := { kv with values, entries }) ?_ ?_
    · simp only [access, hentry, Option.bind_eq_bind, Option.bind_some]
    exact steps_head rfl .refl

/-- The search loop of a call, and what follows it. -/
theorem call_steps {s : Step} {prev h : Option ℕ} (hsearch : kv.search s.call.key = some (prev, h))
    (hfound : (sections junk).Steps (s.found prev h, kv) y) :
    (sections junk).Steps ((sections junk).start (.call s), kv) y := by
  obtain ⟨A, call⟩ := s
  cases call with
  | read k => exact (testBucket_steps hsearch).trans hfound
  | write k v => exact (testBucket_steps hsearch).trans hfound
  | delete k => exact (loadBucket_steps hsearch).trans hfound

/-- The inner loop of `kv_dump`. -/
theorem dumpChain_steps {fuel i : ℕ} {h : Option ℕ} {lines new : List (Str × Str)}
    (hchain : kv.dumpChain fuel h = some new) :
    (sections junk).Steps (.print i h lines, kv) (.dumpBucket (i + 1) (lines ++ new), kv) := by
  -- Induction on the length of the chain; the lines printed so far grow.
  induction fuel generalizing h lines new with
  | zero =>
    cases h with
    | none =>
      obtain rfl := Option.some.inj hchain
      rw [List.append_nil]
      exact steps_head rfl .refl
    | some a => cases hchain
  | succ fuel ih =>
    cases h with
    | none =>
      obtain rfl := Option.some.inj hchain
      rw [List.append_nil]
      exact steps_head rfl .refl
    | some a =>
      simp only [KvStore.dumpChain, Option.bind_eq_bind, Option.bind_eq_some_iff] at hchain
      obtain ⟨e, he, v, hv, rest, hrest, heq⟩ := hchain
      obtain rfl := Option.some.inj heq
      rw [← List.singleton_append, ← List.append_assoc]
      refine steps_head (m := .dumpAdvance i a (lines ++ [(e.key, v)])) (t := kv) ?_
        (steps_head ?_ (ih hrest))
      · simp only [access, he, hv, Option.bind_eq_bind, Option.bind_some]
      · simp only [access, he, Option.bind_eq_bind, Option.bind_some]

/-- The outer loop of `kv_dump`, from bucket `i` on. -/
theorem dumpBuckets_steps {i : ℕ} {lines : List (Str × Str)} {new : List (List (Str × Str))}
    (hi : i ≤ 200) (hrest : ((List.finRange 200).drop i).mapM (fun b =>
      kv.dumpChain (kv.entries.keys.card + 1) (kv.buckets b)) = some new) :
    (sections junk).Steps (.dumpBucket i lines, kv)
      (.leave .reader (.printed (lines ++ new.flatten)), kv) := by
  -- Induction on the buckets left.
  induction hn : 200 - i generalizing i lines new with
  | zero =>
    obtain rfl : i = 200 := by omega
    rw [List.drop_eq_nil_of_le (by rw [List.length_finRange]), List.mapM_nil] at hrest
    obtain rfl : [] = new := Option.some.inj hrest
    rw [List.flatten_nil, List.append_nil]
    exact steps_head rfl .refl
  | succ n ih =>
    have hlt : i < 200 := by omega
    rw [List.drop_eq_getElem_cons (by rwa [List.length_finRange]), List.getElem_finRange] at hrest
    simp only [List.mapM_cons, Option.bind_eq_bind, Option.bind_eq_some_iff,
      Option.pure_def] at hrest
    obtain ⟨chain, hchain, rest, hrest, heq⟩ := hrest
    obtain rfl := Option.some.inj heq
    refine steps_head (m := .print i (kv.buckets ⟨i, hlt⟩) lines) (t := kv) ?_ ?_
    · simp only [access, hlt, dif_pos]
    rw [List.flatten_cons, ← List.append_assoc]
    exact (dumpChain_steps hchain).trans (ih hlt hrest (by omega))

/-- The accesses of an operation, with nobody else at work, add up to the operation as a whole. -/
theorem runs_perform {job : Job} {r : Return} (h : perform job kv = some (kv', r)) :
    (sections junk).Runs job kv r kv' := by
  -- Every call begins with the search; what it found decides the rest.
  cases job with
  | call s =>
    obtain ⟨A, call⟩ := s
    cases call with
    | read k =>
      simp only [perform, KvStore.kvRead, Option.bind_eq_bind, Option.bind_eq_some_iff] at h
      obtain ⟨val, ⟨⟨prev, p⟩, hsearch, hval⟩, heq⟩ := h
      obtain ⟨rfl, rfl⟩ := Prod.mk.inj (Option.some.inj heq)
      refine ⟨.leave .reader (.pointer val), call_steps hsearch ?_, rfl⟩
      cases p with
      | none =>
        obtain rfl := Option.some.inj hval
        exact .refl
      | some a =>
        simp only [Option.bind_eq_some_iff] at hval
        obtain ⟨e, he, hval⟩ := hval
        obtain rfl := Option.some.inj hval
        refine steps_head ?_ .refl
        simp only [Step.found, access, he, Option.bind_eq_bind, Option.bind_some]
    | write k v =>
      simp only [perform, KvStore.kvWrite, Option.bind_eq_bind, Option.bind_eq_some_iff,
        Option.some.injEq, Prod.mk.injEq] at h
      obtain ⟨⟨kv₁, ret⟩, ⟨⟨prev, p⟩, hsearch, hwrite⟩, rfl, rfl⟩ := h
      refine ⟨.leave .writer (.code ret), call_steps hsearch ?_, rfl⟩
      cases p with
      | none => exact insert_steps hwrite
      | some a => exact overwrite_steps hwrite
    | delete k =>
      simp only [perform, KvStore.kvDelete, Option.bind_eq_bind, Option.bind_eq_some_iff] at h
      obtain ⟨kv₁, ⟨⟨prev, p⟩, hsearch, hdelete⟩, heq⟩ := h
      obtain ⟨rfl, rfl⟩ := Prod.mk.inj (Option.some.inj heq)
      refine ⟨.leave .writer .done, call_steps hsearch ?_, rfl⟩
      cases p with
      | none =>
        obtain rfl := Option.some.inj hdelete
        exact .refl
      | some a => exact unlink_steps hdelete
  | dump =>
    simp only [perform, KvStore.kvDump, Option.bind_eq_bind, Option.bind_eq_some_iff] at h
    obtain ⟨lines, ⟨chains, hchains, hlines⟩, heq⟩ := h
    obtain rfl := Option.some.inj hlines
    obtain ⟨rfl, rfl⟩ := Prod.mk.inj (Option.some.inj heq)
    refine ⟨.leave .reader (.printed chains.flatten), ?_, rfl⟩
    have hsteps : (sections junk).Steps (.dumpBucket 0 [], kv)
        (.leave .reader (.printed ([] ++ chains.flatten)), kv) :=
      dumpBuckets_steps (Nat.zero_le _) hchains
    rwa [List.nil_append] at hsteps

end Cs5600.Lab3
