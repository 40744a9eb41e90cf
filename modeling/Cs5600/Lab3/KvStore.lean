import Cs5600.Lib.Heap
import Mathlib.Data.Fintype.Basic
import Mathlib.Tactic.NormNum

/-!
# The key-value store

`kvstore.c` without its monitor: what `kv_read`, `kv_write`, and `kv_delete` do between their entry
and exit sections. The store is a table of 200 buckets, each a null-terminated list of entries, and
an entry points to the string that is its value. Entries and value strings are two kinds of heap
cells, with the addresses `malloc` chooses as a parameter.

A function has no result when the C code would follow a pointer to a cell that is not allocated,
free one twice, write past an array, or not leave a loop.
-/

namespace Cs5600.Lab3

/-- The bytes of a string, without the `NUL` that ends it. -/
abbrev Str : Type := {s : List UInt8 // 0 ∉ s}

/-- The string that a `NUL` at its front ends. -/
def emptyStr : Str := ⟨[], List.not_mem_nil⟩

/-- `key_entry_t`. -/
structure KeyEntry where
  key : Str
  value : ℕ
  next : Option ℕ
  deriving DecidableEq

/-- `kvstore_t`, with the heap cells it uses. -/
structure KvStore where
  buckets : Fin 200 → Option ℕ
  size : ℤ
  entries : Heap KeyEntry
  values : Heap Str

/-- The choices of `malloc`, for entries and for values. -/
structure Malloc where
  node : Allocator
  value : Allocator

/-- The number of keys that the store takes. -/
abbrev TABLE_MAX : ℤ := 200

/-- One pass of the loop of `hash33`. The `char` is signed, and `unsigned int` wraps around. -/
def hashByte (hash : BitVec 32) (c : UInt8) : BitVec 32 :=
  hash + ((hash <<< 5) + c.toBitVec.signExtend 32)

def hash33 (k : Str) : BitVec 32 := (k.1.foldl hashByte 5381 &&& 0x7FFFFFFF) % 200

/-- A hash is the number of a bucket. -/
theorem hash33_lt (k : Str) : (hash33 k).toNat < 200 := by
  unfold hash33
  rw [BitVec.toNat_umod]
  exact Nat.mod_lt _ (by decide)

/-- The bucket of a key. -/
def index (k : Str) : Fin 200 := ⟨(hash33 k).toNat, hash33_lt k⟩

def kvInit : KvStore := ⟨fun _ => none, 0, ∅, ∅⟩

/-- `kv_entry_init`: the address of the new entry and the store with its cells. The key is copied
into 32 bytes. -/
def kvEntryInit (A : Malloc) (k v : Str) (kv : KvStore) : Option (ℕ × KvStore) :=
  if 32 ≤ k.1.length then none
  else
    let (value, values) := kv.values.malloc A.value v
    let (n, entries) := kv.entries.malloc A.node ⟨k, value, none⟩
    some (n, { kv with entries, values })

namespace KvStore

/-- The loop over the bucket of `key`, with which the three operations begin: the entry before the
one with the key and the entry itself. The loop of `kv_read` and `kv_write` does not keep the first
of them. A null bucket, which they all test for beforehand, ends the loop at once. -/
def search (kv : KvStore) (key : Str) : Option (Option ℕ × Option ℕ) :=
  kv.entries.scan KeyEntry.next (fun e => e.key = key) (kv.entries.keys.card + 1)
    (kv.buckets (index key)) (kv.buckets (index key))

/-- `kv_read`: the pointer to the value, and `NULL` when there is none. -/
def kvRead (kv : KvStore) (key : Str) : Option (Option ℕ) := do
  let (_, h) ← kv.search key
  match h with
  | none => some none
  | some a => do
    let e ← kv.entries.lookup a
    some (some e.value)

/-- `kv_write` of a key that has an entry, at `a`. -/
def overwrite (A : Malloc) (a : ℕ) (val : Str) (kv : KvStore) : Option (KvStore × ℤ) := do
  let e ← kv.entries.lookup a
  -- The old value is freed before the new one is allocated.
  let values ← kv.values.free e.value
  let (value, values) := values.malloc A.value val
  some ({ kv with values, entries := kv.entries.insert a { e with value } }, 0)

/-- `kv_write` of a key that has no entry. -/
def insert (A : Malloc) (key val : Str) (kv : KvStore) : Option (KvStore × ℤ) :=
  -- The size is compared for equality, so one beyond it is not noticed.
  if kv.size = TABLE_MAX then some (kv, 1)
  else do
    let (node, kv) ← kvEntryInit A key val kv
    let e ← kv.entries.lookup node
    some ({ kv with
      entries := kv.entries.insert node { e with next := kv.buckets (index key) }
      buckets := Function.update kv.buckets (index key) (some node)
      size := kv.size + 1 }, 0)

/-- `kv_write`: the store and the return code. -/
def kvWrite (A : Malloc) (key val : Str) (kv : KvStore) : Option (KvStore × ℤ) := do
  let (_, h) ← kv.search key
  match h with
  | some a => kv.overwrite A a val
  | none => kv.insert A key val

/-- `kv_delete` of the entry at `a`, where the loop has left `prev`. -/
def unlink (key : Str) (prev : Option ℕ) (a : ℕ) (kv : KvStore) : Option KvStore := do
  let e ← kv.entries.lookup a
  let values ← kv.values.free e.value
  if prev = some a then
    let entries ← kv.entries.free a
    some { kv with
      entries, values
      -- The bucket becomes empty, whatever follows the entry.
      buckets := Function.update kv.buckets (index key) none
      size := kv.size - 1 }
  else do
    -- `prev->next = h->next`, by which the chain passes over the entry.
    let b ← prev
    let eb ← kv.entries.lookup b
    let entries ← Heap.free a (kv.entries.insert b { eb with next := e.next })
    some { kv with entries, values, size := kv.size - 1 }

def kvDelete (key : Str) (kv : KvStore) : Option KvStore := do
  let (prev, h) ← kv.search key
  match h with
  | none => some kv
  | some a => kv.unlink key prev a

/-- The value that `key` has: the string `kv_read` returns a pointer to. -/
def held (kv : KvStore) (key : Str) : Option Str := (kv.kvRead key).join.bind kv.values.lookup

end KvStore

end Cs5600.Lab3
