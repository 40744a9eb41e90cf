import Cs5600.Lab3.Wire

/-!
# Clients and the server

Any number of requests over the wire, one after the other: `do_set`, `do_get`, and `do_del` of
`dbclient.c`, each served by `dispatch`. What the clients see is a table of up to 200 keys
(`answer`), as long as every value reaches `handle_write` in one piece and no deletion empties a
chain of two or more entries.
-/

namespace Cs5600.Lab3

/-- The header that `do_del` sends. -/
def doDelRq (u : Rq) (name : Str) : Rq := (u.setName name).setOpStatus 68

/-- `do_del` of a key, served: the store and the status of the answer. -/
def serveDel (u : Locals) (A : Malloc) (key : Str) (kv : KvStore) : Option (KvStore × UInt8) := do
  let (kv, answer, _) ← dispatch A u.write [] (doDelRq u.get key) kv
  some (kv, answer.opStatus)

/-- What a client asks for. -/
inductive Ask where
  | set (key v : Str)
  | get (key : Str)
  | del (key : Str)
  deriving DecidableEq

def Ask.key : Ask → Str
  | .set key _ | .get key | .del key => key

/-- What a client gets: the status of the answer, or the bytes of the value. -/
inductive Answer where
  | status (c : UInt8)
  | data (bytes : Option (List UInt8))
  deriving DecidableEq

/-- What one client asks for, with what its variables and those of the worker hold, the addresses
that `malloc` returns, and the pieces in which the bytes arrive on either side. -/
structure Visit where
  ask : Ask
  locals : Locals
  malloc : Malloc
  cut : Cut

/-- One request, from the client to the server and back. -/
def visit (i : Visit) (kv : KvStore) : Option (KvStore × Answer) :=
  match i.ask with
  | .set key v => do
    let (kv, c) ← serveSet i.locals i.malloc i.cut key v kv
    some (kv, .status c)
  | .get key => do
    let bytes ← serveGet i.locals i.malloc i.cut key kv
    some (kv, .data bytes)
  | .del key => do
    let (kv, c) ← serveDel i.locals i.malloc key kv
    some (kv, .status c)

/-- The table that the clients see. -/
abbrev Table : Type := Finmap fun _ : Str => Str

/-- What the clients are to get: a new key is taken while there are less than 200. -/
def answer : Ask → Table → Table × Answer
  | .set key v, m =>
    if key ∈ m ∨ m.keys.card < 200 then (m.insert key v, .status 75) else (m, .status 88)
  | .get key, m => (m, .data ((m.lookup key).map Subtype.val))
  | .del key, m => (m.erase key, .status 75)

/-- A key of at most 30 bytes, which the clients check; a value that has a length of at most 7
digits and comes in one piece; and a deletion that does not empty a chain of two or more entries. -/
def Served (kv : KvStore) (i : Visit) : Prop :=
  i.ask.key.1.length ≤ 30 ∧
  match i.ask with
  | .set _ v => (decimal v.1.length).length < 8 ∧ (i.cut.cut v.1).length = 1
  | .get _ => True
  | .del key => ¬ FirstOfMany kv key

instance (kv : KvStore) : ∀ i : Visit, Decidable (Served kv i)
  | ⟨.set _ _, _, _, _⟩ | ⟨.get _, _, _, _⟩ | ⟨.del _, _, _, _⟩ =>
    inferInstanceAs (Decidable (_ ∧ _))

/-- The store has what the table has. -/
structure Agrees (kv : KvStore) (m : Table) : Prop where
  linked : ∃ c, Linked kv c ∧ kv.size = total c
  held : ∀ k, kv.held k = m.lookup k
  room : m.keys.card ≤ 200
  fits : ∀ k v, m.lookup k = some v → (decimal v.1.length).length < 8

/-- The new store is the empty table. -/
theorem agrees_kvInit : Agrees kvInit ∅ where
  linked := ⟨_, linked_kvInit, by simp [kvInit, total]⟩
  held k := by
    rw [Finmap.lookup_empty]
    exact (held_eq_none_iff linked_kvInit).mpr (List.forall_mem_nil _)
  room := by simp
  fits k v h := by simp at h

variable {kv kv' : KvStore} {c : Fin 200 → List (ℕ × KeyEntry)} {m : Table} {key v : Str}
  {u : Locals} {A : Malloc} {cut : Cut}

/-- The keys of the table are counted by the entries. -/
theorem Agrees.card (h : Agrees kv m) (hc : Linked kv c) : m.keys.card = total c := by
  have hkeys : {k | kv.held k ≠ none} = ↑m.keys := by
    ext k
    rw [Set.mem_ofPred_eq, h.held, Finset.mem_coe, Finmap.mem_keys, ne_eq,
      Finmap.lookup_eq_none, not_not]
  rw [← ncard_held hc, hkeys, Set.ncard_coe_finset]

/-- The counter `size` is the number of keys. -/
theorem Agrees.size (h : Agrees kv m) : kv.size = m.keys.card := by
  obtain ⟨c, hc, hsize⟩ := h.linked
  rw [hsize, h.card hc]

/-- The store and the table agree again after a change of one key. -/
theorem Agrees.change {m' : Table} (h : Agrees kv m) (hc' : Linked kv' c)
    (hsize : kv'.size = total c) (hheld : ∀ k, kv'.held k = m'.lookup k) (htotal : total c ≤ 200)
    (hfits : ∀ k v, m'.lookup k = some v → m.lookup k = some v ∨ (decimal v.1.length).length < 8) :
    Agrees kv' m' := by
  have hfit : ∀ k v, m'.lookup k = some v → (decimal v.1.length).length < 8 := fun k v hv =>
    (hfits k v hv).elim (h.fits k v) id
  have hkeys : {k | kv'.held k ≠ none} = ↑m'.keys := by
    ext k
    rw [Set.mem_ofPred_eq, hheld, Finset.mem_coe, Finmap.mem_keys, ne_eq,
      Finmap.lookup_eq_none, not_not]
  refine ⟨⟨c, hc', hsize⟩, hheld, ?_, hfit⟩
  rwa [← Set.ncard_coe_finset, ← hkeys, ncard_held hc']

/-- A value that comes in one piece is stored. -/
theorem stored_one_piece (u : WriteLocals) (hone : (cut.cut v.1).length = 1) :
    stored u (cut.cut v.1) v.1.length = v := by
  have hflat := cut.flatten_cut v.1
  obtain ⟨p, hp⟩ := List.length_eq_one_iff.mp hone
  obtain rfl : p = v.1 := by rw [hp] at hflat; simpa using hflat
  rw [stored, hp]
  exact cString_one_piece v _ (by simp)

/-- `do_set` puts the value into the table, or is refused. -/
theorem Agrees.set (h : Agrees kv m) (hkey : key.1.length ≤ 30)
    (hfit : (decimal v.1.length).length < 8) (hone : (cut.cut v.1).length = 1) :
    ∃ kv', visit ⟨.set key v, u, A, cut⟩ kv = some (kv', (answer (.set key v) m).2) ∧
      Agrees kv' (answer (.set key v) m).1 := by
  obtain ⟨c, hc, hsize⟩ := h.linked
  obtain ⟨n, -, hpos, hserve⟩ := serveSet_eq u A cut kv hkey hfit
  have hne : cut.cut v.1 ≠ [] := fun hnil => by simp [hnil] at hone
  rw [if_neg (not_le.mpr (hpos hne)), stored_one_piece u.write hone] at hserve
  have hcard := h.card hc
  have hmem : key ∈ m ↔ kv.held key ≠ none := by
    rw [h.held, ne_eq, Finmap.lookup_eq_none, not_not]
  have hTABLE : TABLE_MAX = 200 := rfl
  -- Either the store is full and the key new, or the write takes place.
  rcases kvWrite_spec hc (hkey.trans (by norm_num)) A v with
    ⟨hwrite, hnone, hfull⟩ | ⟨kv', c', hwrite, h', hchange, hkeep, hcases⟩
  · have hfull : ¬ (key ∈ m ∨ m.keys.card < 200) := by
      rw [hmem, not_or]
      exact ⟨not_not.mpr hnone, by omega⟩
    rw [answer, if_neg hfull]
    refine ⟨kv, ?_, h⟩
    simp only [visit, hserve, hwrite, Option.map_some, Option.bind_eq_bind, Option.bind_some]
    rfl
  · have hroom : key ∈ m ∨ m.keys.card < 200 := by
      rw [hmem]
      rcases hcases with ⟨hheld, -⟩ | ⟨-, hsize', -⟩
      · exact .inl hheld
      · have hle := h.room
        exact .inr (by omega)
    rw [answer, if_pos hroom]
    refine ⟨kv', ?_, h.change h' ?_ (fun k => ?_) ?_ fun k v' hv' => ?_⟩
    · simp only [visit, hserve, hwrite, Option.map_some, Option.bind_eq_bind, Option.bind_some]
      rfl
    -- The size still counts the entries of the chains.
    · rcases hcases with ⟨-, hsame, htotal⟩ | ⟨-, -, hmore, htotal⟩ <;> omega
    · obtain rfl | hk := eq_or_ne k key
      · rw [hchange.held, Finmap.lookup_insert]
      · rw [hchange.held_of_ne hc hkeep hk, h.held, Finmap.lookup_insert_of_ne _ hk]
    · have hle := h.room
      rcases hcases with ⟨-, hsame, htotal⟩ | ⟨-, hnot, hmore, htotal⟩ <;> omega
    · obtain rfl | hk := eq_or_ne k key
      · rw [Finmap.lookup_insert] at hv'
        exact .inr (Option.some.inj hv' ▸ hfit)
      · rw [Finmap.lookup_insert_of_ne _ hk] at hv'
        exact .inl hv'

/-- `do_get` gets what the table has. -/
theorem Agrees.get (h : Agrees kv m) (hkey : key.1.length ≤ 30) :
    ∃ kv', visit ⟨.get key, u, A, cut⟩ kv = some (kv', (answer (.get key) m).2) ∧
      Agrees kv' (answer (.get key) m).1 := by
  obtain ⟨c, hc, -⟩ := h.linked
  refine ⟨kv, ?_, h⟩
  have hheld := h.held key
  cases hlookup : m.lookup key with
  | none =>
    rw [hlookup] at hheld
    simp only [visit, serveGet_none hc hkey hheld, answer, hlookup, Option.map_none,
      Option.bind_eq_bind, Option.bind_some]
  | some v =>
    rw [hlookup] at hheld
    simp only [visit, serveGet_some hc hkey hheld, if_pos (h.fits key v hlookup), answer, hlookup,
      Option.map_some, Option.bind_eq_bind, Option.bind_some]

/-- The header of `do_del` is read back by the server. -/
theorem doDelRq_spec (u : Rq) (hkey : key.1.length ≤ 30) :
    (doDelRq u key).opStatus = 68 ∧ (doDelRq u key).name = key := by
  have htake : key.1.take 30 = key.1 := List.take_of_length_le hkey
  refine ⟨Bytes.get_blit_singleton _ _ (by norm_num), Subtype.ext ?_⟩
  have hself : (u.setName key).cstr 1 = key.1 := by
    rw [Rq.setName, htake]
    exact Bytes.cstr_blit_self _ _ _ key.2 (by omega)
  have hnul : (u.setName key).get (1 + key.1.length) = 0 := by
    rw [Rq.setName, htake, Bytes.get_blit_inside _ _ _ (by simp) (by simp; omega)]
    simp
  exact (Bytes.cstr_congr hnul fun i hi => Bytes.get_blit_outside _ _ _ (by simp)).trans hself

/-- `do_del` takes the key out. -/
theorem Agrees.del (h : Agrees kv m) (hkey : key.1.length ≤ 30) (hfirst : ¬ FirstOfMany kv key) :
    ∃ kv', visit ⟨.del key, u, A, cut⟩ kv = some (kv', (answer (.del key) m).2) ∧
      Agrees kv' (answer (.del key) m).1 := by
  obtain ⟨c, hc, hsize⟩ := h.linked
  obtain ⟨hop, hname⟩ := doDelRq_spec u.get hkey
  obtain ⟨kv', c', hdelete, h', hkeep, hnone, hothers, hcases⟩ := kvDelete_spec (k := key) hc
  -- A delete that loses no chain changes the one key.
  have hchange : Changes key none kv kv' := ⟨hnone, fun k hk => by
    rw [hothers k hk, if_neg fun hlost => hfirst hlost.1]⟩
  have hsize' := hcases hfirst
  obtain ⟨rq, hokay, hstatus, -⟩ := respOkay_spec (doDelRq u.get key) [] (by decide)
  have hle := h.room
  rw [h.card hc] at hle
  refine ⟨kv', ?_, h.change h' ?_ (fun k => ?_) ?_ fun k v' hv' => .inl ?_⟩
  · simp only [visit, serveDel, dispatch, hop, handleDelete, hname, hdelete, hokay, answer,
      Option.bind_eq_bind, Option.bind_some]
    rw [if_neg (by decide), if_neg (by decide), if_pos trivial, Option.bind_some, Option.bind_some,
      hstatus]
  · rcases hsize' with ⟨-, rfl, htotal⟩ | ⟨-, hless, htotal⟩ <;> omega
  · obtain rfl | hk := eq_or_ne k key
    · rw [hchange.held, answer, Finmap.lookup_erase]
    · rw [hchange.held_of_ne hc hkeep hk, h.held, answer, Finmap.lookup_erase_ne hk]
  · rcases hsize' with ⟨-, rfl, htotal⟩ | ⟨-, hless, htotal⟩ <;> omega
  · rw [answer] at hv'
    obtain rfl | hk := eq_or_ne k key
    · rw [Finmap.lookup_erase] at hv'
      cases hv'
    · rwa [Finmap.lookup_erase_ne hk] at hv'

/-- One request is answered as the table answers it. -/
theorem Agrees.visit {i : Visit} (h : Agrees kv m) (hi : Served kv i) :
    ∃ kv', Lab3.visit i kv = some (kv', (answer i.ask m).2) ∧ Agrees kv' (answer i.ask m).1 := by
  obtain ⟨ask, u, A, cut⟩ := i
  obtain ⟨hkey, hask⟩ := hi
  cases ask with
  | set key v => exact h.set hkey hask.1 hask.2
  | get key => exact h.get hkey
  | del key => exact h.del hkey hask

/-- **The server is a table.** For every sequence of requests in which each value comes in one piece
and no deletion empties a chain of two or more entries, whatever the variables of both sides held
and however the replies were cut into pieces, every client gets the answer of a table with room for
200 keys, and the store ends with what the table ends with. -/
theorem session_table {visits : List Visit} (hserved : Meets visit Served visits kvInit) :
    ∃ kv hist, run visit visits kvInit = some (kv, hist) ∧
      hist.map Prod.snd = (play answer (visits.map Visit.ask) ∅).2 ∧
      ∀ k, kv.held k = (play answer (visits.map Visit.ask) ∅).1.lookup k := by
  obtain ⟨kv, hist, hrun, hreplies, hagrees⟩ :=
    run_refines Visit.ask Agrees (fun _ _ _ hm hi => hm.visit hi) agrees_kvInit hserved
  exact ⟨kv, hist, hrun, hreplies, hagrees.held⟩

/-- `ab` is set, `bA` is set in the same bucket, `ab` is deleted, and both are asked for. -/
def visits : List Visit :=
  [Ask.set keyAb keyAb, .set keyBA keyAb, .del keyAb, .get keyAb, .get keyBA].map fun ask =>
    ⟨ask, ⟨.zero, ⟨0, fun _ => 0⟩, .zero, fun _ => 0⟩, ⟨above 0, above 0⟩, whole⟩

/-- Some visits, with the answers and the table that they lead to. -/
theorem session_table_visits : ∃ kv hist, run visit visits kvInit = some (kv, hist) ∧
    hist.map Prod.snd = (play answer (visits.map Visit.ask) ∅).2 ∧
    ∀ k, kv.held k = (play answer (visits.map Visit.ask) ∅).1.lookup k :=
  session_table (by decide +kernel)

end Cs5600.Lab3
