import Cs5600.Lab3.Chains
import Cs5600.Lib.Run

/-!
# The key-value store as a map

What the three operations do to the values of the keys, and what follows for every sequence of calls
on a store made by `kv_init`. `kv_delete` empties the bucket when it finds the key in the first
entry, so a key that shares its bucket is lost with it. As long as no deleted key is the first of a
chain of two or more entries, every `kv_read` returns the latest value written, and `size` is the
number of entries linked.
-/

namespace Cs5600.Lab3

variable {kv kv' : KvStore} {c : Fin 200 → List (ℕ × KeyEntry)} {k : Str}
  {l₁ l₂ : List (ℕ × KeyEntry)} {x : ℕ × KeyEntry}

/-- The bucket of `k` starts with its entry, and another entry follows. -/
def FirstOfMany (kv : KvStore) (k : Str) : Prop :=
  ∃ e ∈ (kv.buckets (index k)).bind kv.entries.lookup, e.key = k ∧ e.next ≠ none

instance (kv : KvStore) (k : Str) : Decidable (FirstOfMany kv k) :=
  inferInstanceAs (Decidable (∃ e ∈ (kv.buckets (index k)).bind kv.entries.lookup, _))

/-- The value of `k` becomes `o`, and the other keys are read as before. -/
structure Changes (k : Str) (o : Option Str) (kv kv' : KvStore) : Prop where
  held : kv'.held k = o
  kvRead : ∀ k' ≠ k, kv'.kvRead k' = kv.kvRead k'

/-- The value cells are kept, but for the one of `k`. -/
def KeepsCells (k : Str) (kv kv' : KvStore) : Prop :=
  ∀ p u, kv.kvRead k ≠ some (some p) → kv.values.lookup p = some u → kv'.values.lookup p = some u

/-- Two keys do not share a value cell. -/
theorem Linked.kvRead_inj (h : Linked kv c) {k' : Str} {p : ℕ} (hk : kv.kvRead k = some (some p))
    (hk' : kv.kvRead k' = some (some p)) : k = k' := by
  obtain ⟨x, hx, hxp⟩ := List.mem_map.mp ((kvRead_eq_iff h).mp hk)
  obtain ⟨y, hy, hyp⟩ := List.mem_map.mp ((kvRead_eq_iff h).mp hk')
  obtain ⟨hxk, hxv⟩ := Prod.mk.inj hxp
  obtain ⟨hyk, hyv⟩ := Prod.mk.inj hyp
  rw [← hxk, ← hyk, h.value_inj hx hy (hxv.trans hyv.symm)]

/-- The other keys keep their values. -/
theorem Changes.held_of_ne {o : Option Str} {k' : Str} (hc : Changes k o kv kv') (h : Linked kv c)
    (hkeep : KeepsCells k kv kv') (hk : k' ≠ k) : kv'.held k' = kv.held k' := by
  refine held_congr h (hc.kvRead k' hk) fun p u hp hu => hkeep p u (fun hkp => ?_) hu
  exact hk (h.kvRead_inj hp hkp)

/-- An entry with the value cell of `k` is the entry of `k`. -/
theorem Found.ne_value (hf : Found c k l₁ x l₂) (h : Linked kv c) {p : ℕ}
    (hp : kv.kvRead k ≠ some (some p)) : p ≠ x.2.value := by
  rintro rfl
  exact hp (hf.kvRead h)

/-- The keys of another bucket are read as before an operation on the bucket of `k`. In the bucket
of `k` this is so for the keys that have the same value cells in the new chain. -/
theorem kvRead_update {l : List (ℕ × KeyEntry)} (h : Linked kv c)
    (h' : Linked kv' (Function.update c (index k) l)) {k' : Str}
    (hpairs : index k' = index k → ∀ p, (k', p) ∈ pairs l ↔ (k', p) ∈ pairs (c (index k))) :
    kv'.kvRead k' = kv.kvRead k' := by
  refine kvRead_congr h h' fun p => ?_
  obtain hb | hb := eq_or_ne (index k') (index k)
  · rw [hb, Function.update_self]
    exact hpairs hb p
  · rw [Function.update_of_ne hb]

/-- A new entry at the head of a chain is one more. -/
theorem total_cons (c : Fin 200 → List (ℕ × KeyEntry)) (b : Fin 200) (y : ℕ × KeyEntry) :
    total (Function.update c b (y :: c b)) = total c + 1 := by
  have htotal := total_update c b (y :: c b)
  rw [List.length_cons] at htotal
  omega

/-- `kv_write` stores the value, in a cell of its own, or refuses a new key when `size` has reached
`TABLE_MAX`. -/
theorem kvWrite_spec (h : Linked kv c) (hlen : k.1.length ≤ 31) (A : Malloc) (v : Str) :
    (kv.kvWrite A k v = some (kv, 1) ∧ kv.held k = none ∧ kv.size = TABLE_MAX) ∨
      ∃ kv' c', kv.kvWrite A k v = some (kv', 0) ∧ Linked kv' c' ∧ Changes k (some v) kv kv' ∧
        KeepsCells k kv kv' ∧
        ((kv.held k ≠ none ∧ kv'.size = kv.size ∧ total c' = total c) ∨
          (kv.held k = none ∧ kv.size ≠ TABLE_MAX ∧ kv'.size = kv.size + 1 ∧
            total c' = total c + 1)) := by
  rcases found_or_absent c k with ⟨l₁, x, l₂, hf⟩ | hk
  -- The key is there: its value is replaced, and size and chains stay as long.
  · obtain ⟨kv', y, hwrite, hsize, hyk, h', hyv, hkept⟩ := hf.overwrite h A v
    have hmem : (k, y.2.value) ∈ pairs (l₁ ++ y :: l₂) := by simp [pairs, hyk]
    have hread : kv'.kvRead k = some (some y.2.value) :=
      (kvRead_eq_iff h').mpr (by rwa [Function.update_self])
    refine .inr ⟨kv', _, hwrite, h', ⟨?_, fun k' hk' => kvRead_update h h' fun _ p => ?_⟩,
      fun p u hp hu => hkept p u (hf.ne_value h hp) hu, .inl ⟨?_, hsize, ?_⟩⟩
    · rw [KvStore.held, hread, Option.join_some, Option.bind_some, hyv]
    · simp [pairs, hf.chain, hyk, hf.key, hk']
    · rw [ne_eq, held_eq_none_iff h]
      exact fun hno => hno x hf.mem hf.key
    · have htotal := total_update c (index k) (l₁ ++ y :: l₂)
      simp only [hf.chain, List.length_append, List.length_cons] at htotal
      omega
  by_cases hsize : kv.size = TABLE_MAX
  -- A new key, and the table is full.
  · refine .inl ⟨?_, (held_eq_none_iff h).mpr hk, hsize⟩
    obtain ⟨prev, hsearch⟩ := search_absent h hk
    simp only [KvStore.kvWrite, KvStore.insert, hsearch, hsize, if_true, Option.bind_eq_bind,
      Option.bind_some]
  · obtain ⟨kv', y, hwrite, hsize', hyk, h', hyv, hkept⟩ := insert_absent h hk hlen hsize A v
    have hmem : (k, y.2.value) ∈ pairs (y :: c (index k)) := by simp [pairs, hyk]
    have hread : kv'.kvRead k = some (some y.2.value) :=
      (kvRead_eq_iff h').mpr (by rwa [Function.update_self])
    refine .inr ⟨kv', _, hwrite, h', ⟨?_, fun k' hk' => kvRead_update h h' fun _ p => ?_⟩,
      fun p u _ hu => hkept p u hu, .inr ⟨(held_eq_none_iff h).mpr hk, hsize, hsize', ?_⟩⟩
    · rw [KvStore.held, hread, Option.join_some, Option.bind_some, hyv]
    · simp [pairs, hyk, hk']
    · exact total_cons ..

/-- The chain of a key that is the first of two or more entries. -/
theorem firstOfMany_iff (h : Linked kv c) :
    FirstOfMany kv k ↔ ∃ x y l, c (index k) = x :: y :: l ∧ x.2.key = k := by
  have hseg := h.seg (index k)
  unfold FirstOfMany
  cases hc : c (index k) with
  | nil =>
    rw [hc] at hseg
    rw [show kv.buckets (index k) = none from hseg]
    simp
  | cons x l =>
    rw [hc] at hseg
    obtain ⟨hbucket, hcell, hnext⟩ := hseg
    rw [hbucket, Option.bind_some, hcell]
    cases l with
    | nil => simp [show x.2.next = none from hnext]
    | cons y l => simp [hnext.1]

/-- `kv_delete` takes the key out and frees its value cell. When its entry is the first of two or
more, the other keys of the bucket are gone as well; all other keys are read as before. -/
theorem kvDelete_spec (h : Linked kv c) :
    ∃ kv' c', kv.kvDelete k = some kv' ∧ Linked kv' c' ∧ KeepsCells k kv kv' ∧ kv'.held k = none ∧
      (∀ k' ≠ k, kv'.kvRead k' =
        if FirstOfMany kv k ∧ index k' = index k then some none else kv.kvRead k') ∧
      (¬ FirstOfMany kv k → (kv.held k = none ∧ kv' = kv ∧ total c' = total c) ∨
        (kv.held k ≠ none ∧ kv'.size = kv.size - 1 ∧ total c' + 1 = total c)) := by
  rcases found_or_absent c k with ⟨l₁, x, l₂, hf⟩ | hk
  · have hheld : kv.held k ≠ none := by
      rw [ne_eq, held_eq_none_iff h]
      exact fun hno => hno x hf.mem hf.key
    have hkeep : ∀ kv' : KvStore, kv'.values = kv.values.erase x.2.value → KeepsCells k kv kv' := by
      intro kv' hvalues p u hp hu
      rw [hvalues, Finmap.lookup_erase_ne (hf.ne_value h hp), hu]
    rcases List.eq_nil_or_concat l₁ with rfl | ⟨l₀, y, rfl⟩
    · obtain ⟨kv', hdelete, hsize, hvalues, h'⟩ := hf.unlink_first h
      have hmany : FirstOfMany kv k ↔ l₂ ≠ [] := by
        rw [firstOfMany_iff h, hf.chain, List.nil_append]
        cases l₂ with
        | nil => simp
        | cons y l => exact ⟨fun _ => List.cons_ne_nil _ _, fun _ => ⟨x, y, l, rfl, hf.key⟩⟩
      refine ⟨kv', _, hdelete, h', hkeep kv' hvalues, ?_, fun k' hk' => ?_, fun hfirst => .inr
        ⟨hheld, hsize, ?_⟩⟩
      · rw [held_eq_none_iff h', Function.update_self]
        exact List.forall_mem_nil _
      · split_ifs with hlost
        · -- The bucket is empty.
          refine (kvRead_eq_none_iff h').mpr ?_
          rw [hlost.2, Function.update_self]
          exact List.forall_mem_nil _
        · refine kvRead_update h h' fun hb p => ?_
          have hnil : l₂ = [] := not_not.mp fun hne => hlost ⟨hmany.mpr hne, hb⟩
          simp [pairs, hf.chain, hf.key, hk', hnil]
      · have hnil : l₂ = [] := not_not.mp fun hne => hfirst (hmany.mpr hne)
        have htotal := total_update c (index k) []
        simp only [hf.chain, hnil, List.length_append, List.length_cons, List.length_nil] at htotal
        omega
    · rw [List.concat_eq_append] at hf
      obtain ⟨kv', hdelete, hsize, hvalues, h'⟩ := hf.unlink_later h
      obtain ⟨hkey₁, hkey₂⟩ := hf.keys h
      -- The first entry of the chain has another key.
      have hmany : ¬ FirstOfMany kv k := by
        rw [firstOfMany_iff h, hf.chain]
        rintro ⟨z, z', l, hchain, hzk⟩
        refine hkey₁ z ?_ hzk
        cases l₀ with
        | nil => exact List.mem_singleton.mpr (List.cons.inj hchain).1.symm
        | cons w l₀ => exact (List.cons.inj hchain).1 ▸ List.mem_cons_self
      refine ⟨kv', _, hdelete, h', hkeep kv' hvalues, ?_, fun k' hk' => ?_, fun _ => .inr
        ⟨hheld, hsize, ?_⟩⟩
      · rw [held_eq_none_iff h', Function.update_self]
        intro z hz
        rcases List.mem_append.mp hz with hz | hz
        · exact hkey₁ z (List.mem_append_left _ hz)
        rcases List.mem_cons.mp hz with rfl | hz
        · exact hkey₁ y (by simp)
        · exact hkey₂ z hz
      · rw [if_neg fun hlost => hmany hlost.1]
        refine kvRead_update h h' fun _ p => ?_
        simp [pairs, hf.chain, hf.key, hk']
      · have htotal := total_update c (index k) (l₀ ++ (y.1, ⟨y.2.key, y.2.value, x.2.next⟩) :: l₂)
        simp only [hf.chain, List.length_append, List.length_cons, List.length_nil] at htotal
        omega
  · obtain ⟨prev, hsearch⟩ := search_absent h hk
    have hnone := (held_eq_none_iff h).mpr hk
    have hmany : ¬ FirstOfMany kv k := by
      rw [firstOfMany_iff h]
      rintro ⟨z, z', l, hchain, hzk⟩
      exact hk z (by simp [hchain]) hzk
    refine ⟨kv, c, ?_, h, fun _ _ _ hu => hu, hnone, fun _ _ => ?_, fun _ => .inl
      ⟨hnone, rfl, rfl⟩⟩
    · simp only [KvStore.kvDelete, hsearch, Option.bind_eq_bind, Option.bind_some]
    · rw [if_neg fun hlost => hmany hlost.1]

/-! ## Sequences of calls -/

/-- A call of the store. -/
inductive Call where
  | read (k : Str)
  | write (k v : Str)
  | delete (k : Str)
  deriving DecidableEq

/-- What a call returns: for `kv_read`, the string that the pointer points to. -/
inductive Reply where
  | value (v : Option Str)
  | code (ret : ℤ)
  | done
  deriving DecidableEq

/-- The key of a call. -/
def Call.key : Call → Str
  | .read k => k
  | .write k _ => k
  | .delete k => k

/-- A call with the addresses `malloc` returns in it. -/
structure Step where
  malloc : Malloc
  call : Call

/-- One call on a store. -/
def exec (s : Step) (kv : KvStore) : Option (KvStore × Reply) :=
  match s.call with
  | .read k => do
    match ← kv.kvRead k with
    | none => some (kv, .value none)
    | some p => do
      let v ← kv.values.lookup p
      some (kv, .value (some v))
  | .write k v => do
    let (kv, ret) ← kv.kvWrite s.malloc k v
    some (kv, .code ret)
  | .delete k => do
    let kv ← kv.kvDelete k
    some (kv, .done)

/-- The value of `k` after a call that returned: a `kv_write` that returned 0 sets it, and a
`kv_delete` takes it away. -/
def next (k : Str) (old : Option Str) : Step × Reply → Option Str
  | (⟨_, .write k' v⟩, .code 0) => if k' = k then some v else old
  | (⟨_, .delete k'⟩, _) => if k' = k then none else old
  | _ => old

/-- The value of the latest `kv_write` of `k` that returned 0 and was not followed by a `kv_delete`
of it, in a history with the oldest call first. -/
def latest (k : Str) (hist : List (Step × Reply)) : Option Str := hist.foldl (next k) none

/-- The call deletes a key that is the first of a chain of two or more entries. -/
def Call.LosesChain (kv : KvStore) : Call → Prop
  | .delete k => FirstOfMany kv k
  | _ => False

instance (kv : KvStore) : ∀ call, Decidable (Call.LosesChain kv call)
  | .delete k => inferInstanceAs (Decidable (FirstOfMany kv k))
  | .read _ => inferInstanceAs (Decidable False)
  | .write _ _ => inferInstanceAs (Decidable False)

/-- The key is a string of at most 31 bytes, and the call does not delete the first of a chain of
two or more entries. -/
def KeepsChains (kv : KvStore) (s : Step) : Prop :=
  s.call.key.1.length ≤ 31 ∧ ¬ s.call.LosesChain kv

instance (kv : KvStore) (s : Step) : Decidable (KeepsChains kv s) :=
  inferInstanceAs (Decidable (_ ∧ _))

/-- One call: it returns, it keeps the chains linked, it changes the values of the keys as `next`
says, a read returns the value, and `size` stays the number of entries. -/
theorem exec_spec {s : Step} (h : Linked kv c) (hs : KeepsChains kv s) :
    ∃ kv' reply c', exec s kv = some (kv', reply) ∧ Linked kv' c' ∧
      (∀ k, kv'.held k = next k (kv.held k) (s, reply)) ∧
      (∀ k, s.call = .read k → reply = .value (kv.held k)) ∧
      (kv.size = total c → total c ≤ 200 → kv'.size = total c' ∧ total c' ≤ 200) := by
  obtain ⟨A, call⟩ := s
  cases call with
  | read k =>
    have hnext : ∀ k' reply, next k' (kv.held k') (⟨A, .read k⟩, reply) = kv.held k' :=
      fun _ _ => rfl
    have hreply : ∀ k', Call.read k = .read k' → Reply.value (kv.held k) = .value (kv.held k') := by
      rintro k' ⟨⟩
      rfl
    refine ⟨kv, .value (kv.held k), c, ?_, h, fun k' => (hnext k' _).symm, hreply, fun hc h200 =>
      ⟨hc, h200⟩⟩
    rcases kvRead_cases h k with ⟨hread, hheld⟩ | ⟨p, v, hread, hv, hheld⟩
    · simp only [exec, hread, hheld, Option.bind_eq_bind, Option.bind_some]
    · simp only [exec, hread, hv, hheld, Option.bind_eq_bind, Option.bind_some]
  | write k v =>
    have hread : ∀ k' reply, Call.write k v = .read k' → reply = Reply.value (kv.held k') := by
      rintro k' reply ⟨⟩
    have hlen : k.1.length ≤ 31 := hs.1
    rcases kvWrite_spec h hlen A v with ⟨hwrite, -⟩ | ⟨kv', c', hwrite, h', hchange, hkeep, hsize⟩
    · refine ⟨kv, .code 1, c, ?_, h, fun k' => rfl, fun k' => hread k' _, fun hc h200 => ⟨hc, h200⟩⟩
      simp only [exec, hwrite, Option.bind_eq_bind, Option.bind_some]
    · refine ⟨kv', .code 0, c', ?_, h', fun k' => ?_, fun k' => hread k' _, fun hc h200 => ?_⟩
      · simp only [exec, hwrite, Option.bind_eq_bind, Option.bind_some]
      · rw [next]
        split_ifs with hk'
        · rw [← hk', hchange.held]
        · exact hchange.held_of_ne h hkeep (Ne.symm hk')
      · have hTABLE : TABLE_MAX = 200 := rfl
        omega
  | delete k =>
    obtain ⟨kv', c', hdelete, h', hkeep, hnone, hothers, hsafe⟩ := kvDelete_spec (k := k) h
    -- Only a delete of the first of two or more entries loses the others.
    have hfirst : ¬ FirstOfMany kv k := hs.2
    have hchange : Changes k none kv kv' := ⟨hnone, fun k' hk' => by
      rw [hothers k' hk', if_neg fun hlost => hfirst hlost.1]⟩
    have hsize := hsafe hfirst
    refine ⟨kv', .done, c', ?_, h', fun k' => ?_, ?_, fun hc h200 => ?_⟩
    · simp only [exec, hdelete, Option.bind_eq_bind, Option.bind_some]
    · rw [next]
      split_ifs with hk'
      · rw [← hk', hchange.held]
      · exact hchange.held_of_ne h hkeep (Ne.symm hk')
    · rintro k' ⟨⟩
    · rcases hsize with ⟨-, rfl, htotal⟩ | ⟨-, hsize, htotal⟩ <;> omega

/-- Every read of the history returned the latest value written before it. -/
def ReadsLatest (hist : List (Step × Reply)) : Prop :=
  ∀ older s reply newer k, hist = older ++ (s, reply) :: newer → s.call = .read k →
    reply = .value (latest k older)

/-- One more call that reads the latest value when it reads. -/
theorem ReadsLatest.concat {hist : List (Step × Reply)} {s : Step} {reply : Reply}
    (h : ReadsLatest hist) (hs : ∀ k, s.call = .read k → reply = .value (latest k hist)) :
    ReadsLatest (hist ++ [(s, reply)]) := by
  intro older s' reply' newer k hhist hcall
  rcases concat_eq_append_cons hhist with ⟨rfl, heq, -⟩ | ⟨newer, -, hhist⟩
  · obtain ⟨rfl, rfl⟩ := Prod.mk.inj heq
    exact hs k hcall
  · exact h older s' reply' newer k hhist hcall

/-- What a run keeps, with the history so far. -/
def KvInv (hist : List (Step × Reply)) (kv : KvStore) : Prop :=
  (∃ c, Linked kv c ∧ kv.size = total c ∧ total c ≤ 200) ∧ (∀ k, kv.held k = latest k hist) ∧
    ReadsLatest hist

/-- The invariant holds of the new store. -/
theorem kvInv_kvInit : KvInv [] kvInit := by
  refine ⟨⟨_, linked_kvInit, by simp [kvInit, total], by simp [total]⟩, fun k => ?_, ?_⟩
  · exact (held_eq_none_iff linked_kvInit).mpr (List.forall_mem_nil _)
  · intro older s reply newer k hnil
    simp at hnil

/-- A run whose calls keep the chains gets to its end and keeps the invariant. -/
theorem run_kvInv {steps : List Step} (hkeep : Meets exec KeepsChains steps kvInit) :
    ∃ kv hist, run exec steps kvInit = some (kv, hist) ∧ KvInv hist kv := by
  obtain ⟨kv, hist, hrun⟩ := run_returns (fun kv => ∃ c, Linked kv c)
    (fun kv s ⟨c, hc⟩ hs => by
      obtain ⟨kv', reply, c', hexec, h', -⟩ := exec_spec hc hs
      exact ⟨kv', reply, hexec, c', h'⟩)
    ⟨_, linked_kvInit⟩ hkeep
  refine ⟨kv, hist, hrun, run_invariant KvInv ?_ kvInv_kvInit hkeep hrun⟩
  rintro hist kv s kv' reply ⟨⟨c, hc, hsize, htotal⟩, hheld, hreads⟩ hs hexec
  obtain ⟨kv₁, reply₁, c', hexec₁, h', hnext, hread, hsize'⟩ := exec_spec hc hs
  rw [hexec, Option.some_inj] at hexec₁
  obtain ⟨rfl, rfl⟩ := Prod.mk.inj hexec₁
  refine ⟨⟨c', h', hsize' hsize htotal⟩, fun k => ?_, hreads.concat ?_⟩
  · rw [hnext, hheld, latest, latest, List.foldl_append, List.foldl_cons, List.foldl_nil]
  · intro k hcall
    rw [hread k hcall, hheld]

/-- **The store is a map.** In every sequence of calls in which no deleted key is the first of a
chain of two or more entries, each `kv_read` returns the value of the latest `kv_write` of its key
that returned 0 and was not followed by a `kv_delete` of it, and null when there is none. -/
theorem kvstore_map {steps : List Step} (hkeep : Meets exec KeepsChains steps kvInit) :
    ∃ kv hist, run exec steps kvInit = some (kv, hist) ∧ (∀ k, kv.held k = latest k hist) ∧
      ReadsLatest hist := by
  obtain ⟨kv, hist, hrun, -, hheld, hreads⟩ := run_kvInv hkeep
  exact ⟨kv, hist, hrun, hheld, hreads⟩

/-- The string `ab`. -/
def keyAb : Str := ⟨[97, 98], by decide⟩

/-- The string `bA`, which has the hash of `ab`. -/
def keyBA : Str := ⟨[98, 65], by decide⟩

/-- A call with the least addresses above the ones in use. -/
def Call.step (call : Call) : Step := ⟨⟨above 0, above 0⟩, call⟩

/-- `ab` and `bA` share a bucket, and `ab`, the second of it, is deleted. -/
theorem kvstore_map_keyAb : ∃ kv hist,
    run exec [(Call.write keyAb keyAb).step, (Call.write keyBA keyBA).step,
      (Call.delete keyAb).step, (Call.read keyBA).step] kvInit = some (kv, hist) ∧
    (∀ k, kv.held k = latest k hist) ∧ ReadsLatest hist :=
  kvstore_map (by decide +kernel)

/-- `ab` and `bA` are written, and `bA`, which is then the first of the bucket, is deleted. -/
def lossy : List Step :=
  [(Call.write keyAb keyAb).step, (Call.write keyBA keyBA).step, (Call.delete keyBA).step]

/-- After `lossy`, a read of `ab` returns null. -/
theorem not_readsLatest_lossy : ¬ ∀ steps : List Step, (∀ s ∈ steps, s.call.key.1.length ≤ 31) →
    ∃ kv hist, run exec steps kvInit = some (kv, hist) ∧ ReadsLatest hist := by
  intro hall
  obtain ⟨kv, hist, hrun, hreads⟩ := hall (lossy ++ [(Call.read keyAb).step]) (by decide +kernel)
  have hreplies : (run exec (lossy ++ [(Call.read keyAb).step]) kvInit).map
      (fun s => s.2.map Prod.snd) = some [.code 0, .code 0, .done, .value none] := by decide +kernel
  rw [hrun, Option.map_some, Option.some_inj] at hreplies
  have hhist : hist = lossy.zip [.code 0, .code 0, .done] ++
    [((Call.read keyAb).step, .value none)] := by
    have hzip := List.zip_of_prod (run_fst hrun) hreplies
    exact hzip
  have hread := hreads _ _ _ [] keyAb hhist rfl
  exact absurd hread (by decide +kernel)

/-- **The capacity is accounted for.** In every state that is reached by calls of which none deletes
the first of a chain of two or more entries, `size` is the number of entries linked in the buckets
and is at most `TABLE_MAX`. So `kv_write` of a key returns 1 exactly when the key is absent and
`TABLE_MAX` keys are stored, and the store is then unchanged. -/
theorem kvstore_capacity {steps : List Step} (hkeep : Meets exec KeepsChains steps kvInit) :
    ∃ kv hist c, run exec steps kvInit = some (kv, hist) ∧ Linked kv c ∧ kv.size = total c ∧
      0 ≤ kv.size ∧ kv.size ≤ TABLE_MAX ∧
      ∀ A k v, k.1.length ≤ 31 → ∃ kv' ret, kv.kvWrite A k v = some (kv', ret) ∧
        (ret = 1 ↔ kv.held k = none ∧ {k | kv.held k ≠ none}.ncard = 200) ∧
        (ret ≠ 1 → ret = 0) ∧ (ret = 1 → kv' = kv) := by
  obtain ⟨kv, hist, hrun, ⟨c, hc, hsize, htotal⟩, -, -⟩ := run_kvInv hkeep
  have hTABLE : TABLE_MAX = 200 := rfl
  refine ⟨kv, hist, c, hrun, hc, hsize, by omega, by omega, fun A k v hlen => ?_⟩
  rw [ncard_held hc]
  rcases kvWrite_spec hc hlen A v with ⟨hwrite, hnone, hfull⟩ | ⟨kv', c', hwrite, -, -, -, hcase⟩
  · refine ⟨kv, 1, hwrite, ⟨fun _ => ⟨hnone, by omega⟩, fun _ => rfl⟩, fun h => absurd rfl h,
      fun _ => rfl⟩
  · refine ⟨kv', 0, hwrite, ⟨fun h => absurd h (by decide), fun ⟨hnone, hfull⟩ => ?_⟩,
      fun _ => rfl, fun h => absurd h (by decide)⟩
    rcases hcase with ⟨hsome, -⟩ | ⟨-, hroom, -⟩
    · exact absurd hnone hsome
    · omega

/-- Two keys of one bucket are written and the second of it is deleted. -/
theorem kvstore_capacity_keyAb : ∃ kv hist c,
    run exec [(Call.write keyAb keyAb).step, (Call.write keyBA keyBA).step,
      (Call.delete keyAb).step] kvInit = some (kv, hist) ∧ Linked kv c ∧ kv.size = total c ∧
      0 ≤ kv.size ∧ kv.size ≤ TABLE_MAX ∧
      ∀ A k v, k.1.length ≤ 31 → ∃ kv' ret, kv.kvWrite A k v = some (kv', ret) ∧
        (ret = 1 ↔ kv.held k = none ∧ {k | kv.held k ≠ none}.ncard = 200) ∧
        (ret ≠ 1 → ret = 0) ∧ (ret = 1 → kv' = kv) :=
  kvstore_capacity (by decide +kernel)

/-- After `lossy`, no entry is linked and `size` is 1. -/
theorem size_ne_total_lossy : ¬ ∀ steps : List Step, (∀ s ∈ steps, s.call.key.1.length ≤ 31) →
    ∃ kv hist c, run exec steps kvInit = some (kv, hist) ∧ Linked kv c ∧ kv.size = total c := by
  intro hall
  obtain ⟨kv, hist, c, hrun, hc, hsize⟩ := hall lossy (by decide +kernel)
  have hend : (run exec lossy kvInit).map
    (fun s => (s.1.size, decide (∀ b, s.1.buckets b = none))) =
      some (1, true) := by decide +kernel
  rw [hrun, Option.map_some, Option.some_inj] at hend
  obtain ⟨hone, hbuckets⟩ := Prod.mk.inj hend
  have hempty : ∀ b, c b = [] := by
    intro b
    have hnil : Heap.Seg KeyEntry.next kv.entries (kv.buckets b) [] none :=
      of_decide_eq_true hbuckets b
    exact (hc.seg b).unique hnil
  have htotal : total c = 0 := by simp [total, hempty]
  have hone : kv.size = 1 := hone
  omega

end Cs5600.Lab3
