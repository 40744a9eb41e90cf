import Cs5600.Lab3.Placement
import Cs5600.Lib.Bytes
import Cs5600.Lib.Decimal

/-!
# Requests over the wire

`do_set` and `do_get` of `dbclient.c`, and `dispatch` of `worker.c` with the handlers it calls, over
the bytes that go through the socket. The header is `struct request`, 40 bytes that arrive in one
`read`; the value that follows it arrives in as many pieces as the `read` calls return.

`handle_write` reads every piece to the start of its buffer, and does not set `n` when there is
nothing to read, so a value gets through only when it is not empty and comes in one piece.
`do_get` puts each piece where the last one ended. What the uninitialised variables hold is a
parameter.
-/

namespace Cs5600.Lab3

/-- `struct request`: the status at 0, the name from 1 on, and the length from 32 on. -/
abbrev Rq : Type := Bytes 40

namespace Rq

def opStatus (rq : Rq) : UInt8 := rq.get 0

/-- The name as a key, up to its `NUL`. -/
def name (rq : Rq) : Str := ⟨rq.cstr 1, rq.zero_notMem_cstr 1⟩

def len (rq : Rq) : ℤ := atoi (rq.cstr 32)

def setOpStatus (c : UInt8) (rq : Rq) : Rq := rq.blit 0 [c]

/-- `snprintf(rq.name, sizeof(rq.name), "%s", name)`. -/
def setName (name : Str) (rq : Rq) : Rq := rq.blit 1 (name.1.take 30 ++ [0])

/-- `sprintf(rq.len, "%d", len)`, for a length that fits into 8 bytes with its `NUL`. -/
def setLen (len : ℕ) (rq : Rq) : Option Rq :=
  if (decimal len).length < 8 then some (rq.blit 32 (decimal len ++ [0])) else none

end Rq

/-- The results of the `read` calls on a socket, one after the other: bytes, or an error. -/
abbrev Reads : Type := List (Option (List UInt8))

/-! ## The server -/

/-- `resp_fail`. -/
def respFail (rq : Rq) : Rq := rq.setOpStatus 88

/-- `resp_okay`, with the bytes that follow the header. -/
def respOkay (rq : Rq) (data : List UInt8) : Option (Rq × List UInt8) := do
  let rq ← (rq.setOpStatus 75).setLen data.length
  some (rq, data)

/-- The loop of `handle_write`, with the buffer, the result of the last `read`, and the number of
bytes so far. The end of the stream reads as 0 bytes. -/
def receive (len : ℕ) : Reads → List UInt8 → ℤ → ℕ → List UInt8 × ℤ
  | reads, buf, n, bytes =>
    if len ≤ bytes then (buf, n)
    else
      match reads with
      | [] => (buf, 0)
      | none :: _ => (buf, -1)
      | some p :: reads =>
        -- `read(sock, buf, len)`: to the start of the buffer, whatever was read before.
        let buf := p ++ buf.drop p.length
        if p.length = 0 then (buf, 0) else receive len reads buf p.length (bytes + p.length)

/-- The bytes of a buffer up to its first `NUL`. -/
def cString (buf : List UInt8) : Str :=
  ⟨buf.takeWhile (· ≠ 0), fun h => absurd (List.mem_takeWhile_imp h) (by simp)⟩

/-- What the uninitialised variables of `handle_write` hold: `n`, and the buffer. -/
structure WriteLocals where
  n : ℤ
  buf : ℕ → UInt8

/-- `handle_write`: the store and the header of the reply. -/
def handleWrite (A : Malloc) (u : WriteLocals) (reads : Reads) (rq : Rq) (kv : KvStore) :
    Option (KvStore × Rq) :=
  if rq.len < 0 then none
  else do
    let len := rq.len.toNat
    let (buf, n) := receive len reads ((List.range (len + 1)).map u.buf) u.n 0
    let buf := buf.set len 0
    if n ≤ 0 then some (kv, respFail rq)
    else do
      let (kv, ret) ← kv.kvWrite A rq.name (cString buf)
      if ret = 0 then do
        let (rq, _) ← respOkay rq []
        some (kv, rq)
      else some (kv, respFail rq)

/-- `handle_read`: the header of the reply and the bytes that follow. -/
def handleRead (rq : Rq) (kv : KvStore) : Option (Rq × List UInt8) := do
  match ← kv.kvRead rq.name with
  | none => some (respFail rq, [])
  | some p => do
    let v ← kv.values.lookup p
    respOkay rq v.1

/-- `handle_delete`. -/
def handleDelete (rq : Rq) (kv : KvStore) : Option (KvStore × Rq) := do
  let kv ← kv.kvDelete rq.name
  let (rq, _) ← respOkay rq []
  some (kv, rq)

/-- `dispatch` of a whole header: the store, the header of the reply, and the bytes that follow it.
There is no reply to `Q`, which ends the server. -/
def dispatch (A : Malloc) (u : WriteLocals) (reads : Reads) (rq : Rq) (kv : KvStore) :
    Option (KvStore × Rq × List UInt8) :=
  -- The characters W, R, D and Q.
  if rq.opStatus = 87 then do
    let (kv, rq) ← handleWrite A u reads rq kv
    some (kv, rq, [])
  else if rq.opStatus = 82 then do
    let (rq, data) ← handleRead rq kv
    some (kv, rq, data)
  else if rq.opStatus = 68 then do
    let (kv, rq) ← handleDelete rq kv
    some (kv, rq, [])
  else if rq.opStatus = 81 then none
  else some (kv, respFail rq, [])

/-! ## The client -/

/-- The header that `do_set` sends, before the value. `u` is what the variable held. -/
def doSetRq (u : Rq) (name : Str) (len : ℕ) : Option Rq :=
  ((u.setName name).setOpStatus 87).setLen len

/-- The header that `do_get` sends. -/
def doGetRq (u : Rq) (name : Str) : Option Rq := ((u.setName name).setOpStatus 82).setLen 0

/-- The loop of `do_get`, with what is left to read. It does not end when the stream does. -/
def collect : ℕ → Reads → List UInt8 → Option (List UInt8)
  | 0, _, got => some got
  | _ + 1, [], _ => none
  | _ + 1, none :: _, got => some got
  | left + 1, some p :: reads, got => collect (left + 1 - p.length) reads (got ++ p)

/-- The end of `do_get`: the bytes delivered for the reply, when its status is `K`. The buffer may
have bytes that were not read, which `u` gives. -/
def doGet (u : ℕ → UInt8) (reply : Rq) (reads : Reads) : Option (Option (List UInt8)) :=
  if reply.opStatus ≠ 75 then some none
  else if reply.len < 0 then none
  else do
    let len := reply.len.toNat
    let got ← collect len reads []
    some (some ((got ++ ((List.range len).map u).drop got.length).take len))

/-! ## A set and a get -/

/-- The pieces in which the `read` calls deliver the bytes of a value. -/
structure Cut where
  cut : List UInt8 → List (List UInt8)
  flatten_cut : ∀ l, (cut l).flatten = l
  nil_notMem : ∀ l, [] ∉ cut l

def Cut.reads (cut : Cut) (l : List UInt8) : Reads := (cut.cut l).map some

/-- What the uninitialised variables hold: the headers and the buffers of both sides. -/
structure Locals where
  set : Rq
  write : WriteLocals
  get : Rq
  data : ℕ → UInt8

/-- `do_set` of a key, served: the store and the status of the answer. -/
def serveSet (u : Locals) (A : Malloc) (cut : Cut) (key v : Str) (kv : KvStore) :
    Option (KvStore × UInt8) := do
  let rq ← doSetRq u.set key v.1.length
  let (kv, answer, _) ← dispatch A u.write (cut.reads v.1) rq kv
  some (kv, answer.opStatus)

/-- `do_get` of a key, served: the bytes delivered. -/
def serveGet (u : Locals) (A : Malloc) (cut : Cut) (key : Str) (kv : KvStore) :
    Option (Option (List UInt8)) := do
  let rq ← doGetRq u.get key
  let (_, reply, payload) ← dispatch A u.write [] rq kv
  doGet u.data reply (cut.reads payload)

/-- A client sets a key, other calls are served, and a client gets the key: the status of the answer
to the first and the bytes that the second delivers. -/
def setThenGet (u : Locals) (A : Malloc) (cutSet cutGet : Cut) (key v : Str) (mid : List Step)
    (kv : KvStore) : Option (UInt8 × Option (List UInt8)) := do
  let (kv, answer) ← serveSet u A cutSet key v kv
  let (kv, _) ← run exec mid kv
  let data ← serveGet u A cutGet key kv
  some (answer, data)

/-! ## Headers -/

/-- The header that a client fills in is read back by the server. -/
theorem header_spec (u : Rq) {key : Str} (hkey : key.1.length ≤ 30) (op : UInt8) {n : ℕ}
    (hn : (decimal n).length < 8) :
    ∃ rq, ((u.setName key).setOpStatus op).setLen n = some rq ∧ rq.opStatus = op ∧ rq.name = key ∧
      rq.len = n := by
  refine ⟨_, if_pos hn, ?_, Subtype.ext ?_, ?_⟩
  · rw [Rq.opStatus, Bytes.get_blit_outside _ _ _ (by omega), Rq.setOpStatus,
      Bytes.get_blit_singleton _ _ (by norm_num)]
  · have htake : key.1.take 30 = key.1 := List.take_of_length_le hkey
    have hself : (u.setName key).cstr 1 = key.1 := by
      rw [Rq.setName, htake]
      exact Bytes.cstr_blit_self _ _ _ key.2 (by omega)
    have hnul : (u.setName key).get (1 + key.1.length) = 0 := by
      rw [Rq.setName, htake, Bytes.get_blit_inside _ _ _ (by simp) (by simp; omega)]
      simp
    refine (Bytes.cstr_congr hnul fun i hi => ?_).trans hself
    rw [Bytes.get_blit_outside _ _ _ (by omega), Rq.setOpStatus,
      Bytes.get_blit_outside _ _ _ (by simp)]
  · rw [Rq.len, Bytes.cstr_blit_self _ _ _ (zero_notMem_decimal n) (by omega), atoi_decimal]

/-- The reply of `resp_fail` has status `X`. -/
theorem opStatus_respFail (rq : Rq) : (respFail rq).opStatus = 88 :=
  Bytes.get_blit_singleton _ _ (by norm_num)

/-- The reply of `resp_okay` has status `K` and the length of the data, when it fits. -/
theorem respOkay_spec (rq : Rq) (data : List UInt8) (hfit : (decimal data.length).length < 8) :
    ∃ rq', respOkay rq data = some (rq', data) ∧ rq'.opStatus = 75 ∧ rq'.len = data.length := by
  refine ⟨(rq.setOpStatus 75).blit 32 (decimal data.length ++ [0]), ?_, ?_, ?_⟩
  · rw [respOkay, Rq.setLen, if_pos hfit, Option.bind_eq_bind, Option.bind_some]
  · rw [Rq.opStatus, Bytes.get_blit_outside _ _ _ (by omega), Rq.setOpStatus,
      Bytes.get_blit_singleton _ _ (by norm_num)]
  · rw [Rq.len, Bytes.cstr_blit_self _ _ _ (zero_notMem_decimal _) (by omega), atoi_decimal]

/-! ## The pieces of a value -/

/-- A piece adds its length. -/
theorem length_flatten_cons (p : List UInt8) (ps : List (List UInt8)) :
    (p :: ps).flatten.length = p.length + ps.flatten.length := by
  rw [List.flatten_cons, List.length_append]

/-- `do_get` puts the pieces one after the other. -/
theorem collect_pieces {ps : List (List UInt8)} (hps : [] ∉ ps) (got : List UInt8) :
    collect ps.flatten.length (ps.map some) got = some (got ++ ps.flatten) := by
  induction ps generalizing got with
  | nil => simp [collect]
  | cons p ps ih =>
    rw [List.mem_cons, not_or] at hps
    have hpos : p.length ≠ 0 := fun h => hps.1 (List.length_eq_zero_iff.mp h).symm
    obtain ⟨left, hleft⟩ := Nat.exists_eq_succ_of_ne_zero
      (show (p :: ps).flatten.length ≠ 0 by rw [length_flatten_cons]; omega)
    have hrest : left + 1 - p.length = ps.flatten.length := by
      rw [length_flatten_cons] at hleft
      omega
    rw [hleft, List.map_cons, collect, hrest, ih hps.2, List.flatten_cons, List.append_assoc]

/-- `handle_write` puts each piece over the start of the buffer. -/
def overlay (ps : List (List UInt8)) (buf : List UInt8) : List UInt8 :=
  ps.foldl (fun buf p => p ++ buf.drop p.length) buf

/-- The loop of `handle_write` reads all the pieces, and leaves `n` as it was when there is none. -/
theorem receive_pieces (len bytes : ℕ) {ps : List (List UInt8)} (hps : [] ∉ ps)
    (hlen : len = bytes + ps.flatten.length) (buf : List UInt8) (n : ℤ) :
    ∃ m, receive len (ps.map some) buf n bytes = (overlay ps buf, m) ∧ (ps = [] → m = n) ∧
      (ps ≠ [] → 0 < m) := by
  -- Induction on the pieces; the last one, which is not empty, leaves a positive count.
  induction ps generalizing buf n bytes with
  | nil =>
    refine ⟨n, ?_, fun _ => rfl, fun h => absurd rfl h⟩
    unfold receive
    rw [if_pos (by simpa using hlen.le)]
    rfl
  | cons p ps ih =>
    rw [List.mem_cons, not_or] at hps
    rw [length_flatten_cons] at hlen
    have hpos : p.length ≠ 0 := fun h => hps.1 (List.length_eq_zero_iff.mp h).symm
    obtain ⟨m, hm, hnil, hne⟩ := ih (bytes + p.length) hps.2 (by omega)
      (p ++ buf.drop p.length) p.length
    refine ⟨m, ?_, fun h => absurd h (List.cons_ne_nil _ _), fun _ => ?_⟩
    · unfold receive
      rw [if_neg (by omega), List.map_cons]
      simp only [if_neg hpos]
      exact hm
    · by_cases hps' : ps = []
      · rw [hnil hps']
        omega
      · exact hne hps'

/-- What lies behind every piece stays as it was. -/
theorem getElem?_overlay {ps : List (List UInt8)} {i : ℕ} (hps : ∀ p ∈ ps, p.length ≤ i)
    (buf : List UInt8) : (overlay ps buf)[i]? = buf[i]? := by
  induction ps generalizing buf with
  | nil => rfl
  | cons p ps ih =>
    rw [List.forall_mem_cons] at hps
    rw [overlay, List.foldl_cons]
    refine (ih hps.2 _).trans ?_
    rw [List.getElem?_append_right hps.1, List.getElem?_drop, Nat.add_sub_cancel' hps.1]

/-- A buffer with a `NUL` at `i` holds a string of at most `i` bytes. -/
theorem length_cString_le {buf : List UInt8} {i : ℕ} (h : buf[i]? = some 0) :
    (cString buf).1.length ≤ i := by
  by_contra hlt
  rw [not_le] at hlt
  have hpre : (cString buf).1 <+: buf := List.takeWhile_prefix _
  obtain ⟨hi, hzero⟩ := List.getElem?_eq_some_iff.mp h
  have hget : (cString buf).1[i] = 0 := (hpre.getElem hlt).trans hzero
  have hmem : (cString buf).1[i] ∈ (cString buf).1 := List.getElem_mem hlt
  exact (cString buf).2 (by rwa [hget] at hmem)

/-- A value that comes in one piece is stored as it is. -/
theorem cString_one_piece (v : Str) (buf : List UInt8) (hbuf : buf.length = v.1.length + 1) :
    cString ((overlay [v.1] buf).set v.1.length 0) = v := by
  obtain ⟨last, hlast⟩ : ∃ c, buf.drop v.1.length = [c] := by
    refine List.length_eq_one_iff.mp ?_
    rw [List.length_drop]
    omega
  have hset : (overlay [v.1] buf).set v.1.length 0 = v.1 ++ [0] := by
    rw [overlay, List.foldl_cons, List.foldl_nil, hlast]
    simp
  refine Subtype.ext ?_
  have hne : ∀ c ∈ v.1, decide (c ≠ 0) = true := by
    intro c hc
    rw [decide_eq_true_iff]
    rintro rfl
    exact v.2 hc
  rw [hset]
  exact (List.takeWhile_append_of_pos hne).trans (by simp)

/-- Of two or more pieces each is shorter than the whole. -/
theorem length_lt_of_mem {ps : List (List UInt8)} (hps : [] ∉ ps) (hlen : 2 ≤ ps.length) :
    ∀ p ∈ ps, p.length + 1 ≤ ps.flatten.length := by
  intro p hp
  obtain ⟨l₁, l₂, rfl⟩ := List.append_of_mem hp
  have hpos : ∀ q ∈ l₁ ++ l₂, 1 ≤ q.length := by
    intro q hq
    refine Nat.one_le_iff_ne_zero.mpr fun h => hps ?_
    rw [← List.length_eq_zero_iff.mp h]
    simp only [List.mem_append, List.mem_cons] at hq ⊢
    tauto
  have hother : 1 ≤ (l₁ ++ l₂).flatten.length := by
    obtain ⟨q, hq⟩ := List.exists_mem_of_length_pos
      (show 0 < (l₁ ++ l₂).length by simp at hlen ⊢; omega)
    refine (hpos q hq).trans ?_
    obtain ⟨m₁, m₂, hm⟩ := List.append_of_mem hq
    rw [hm, List.flatten_append, List.length_append, length_flatten_cons]
    omega
  simp only [List.flatten_append, List.flatten_cons, List.length_append] at hother ⊢
  omega

/-! ## Calls on other keys -/

variable {kv kv' : KvStore} {c : Fin 200 → List (ℕ × KeyEntry)} {key : Str}

/-- The call does not empty the bucket of `key`. -/
def KeepsBucket (key : Str) (kv : KvStore) (s : Step) : Prop :=
  ∀ k, s.call = .delete k → ¬ (FirstOfMany kv k ∧ index key = index k)

/-- A call on another key keeps the value of the key, unless it empties the bucket. -/
theorem exec_other {s : Step} (h : Linked kv c) (hlen : s.call.key.1.length ≤ 31)
    (hkey : s.call.key ≠ key) :
    ∃ kv' reply c', exec s kv = some (kv', reply) ∧ Linked kv' c' ∧
      (KeepsBucket key kv s → kv'.held key = kv.held key) ∧
      (¬ KeepsBucket key kv s → kv'.held key = none) := by
  obtain ⟨A, call⟩ := s
  have hkeeps : (∀ k, call ≠ .delete k) → KeepsBucket key kv ⟨A, call⟩ := fun hno k hk =>
    absurd hk (hno k)
  cases call with
  | read k =>
    obtain ⟨kv', reply, c', hexec, h', hnext, -⟩ := exec_spec (s := ⟨A, .read k⟩) h ⟨hlen, id⟩
    exact ⟨kv', reply, c', hexec, h', fun _ => hnext key, fun hno => absurd (hkeeps (by simp)) hno⟩
  | write k v =>
    obtain ⟨kv', reply, c', hexec, h', hnext, -⟩ := exec_spec (s := ⟨A, .write k v⟩) h ⟨hlen, id⟩
    refine ⟨kv', reply, c', hexec, h', fun _ => ?_, fun hno => absurd (hkeeps (by simp)) hno⟩
    rw [hnext key]
    -- The key written is another one.
    unfold next
    split <;> simp_all [Call.key]
  | delete k =>
    obtain ⟨kv', c', hdelete, h', hkeep, -, hothers, -⟩ := kvDelete_spec (k := k) h
    have hne : key ≠ k := Ne.symm hkey
    refine ⟨kv', .done, c', ?_, h', fun hk => ?_, fun hk => ?_⟩
    · simp only [exec, hdelete, Option.bind_eq_bind, Option.bind_some]
    · have hread : kv'.kvRead key = kv.kvRead key := by rw [hothers key hne, if_neg (hk k rfl)]
      refine held_congr h hread fun p u hp hu => hkeep p u (fun hkp => ?_) hu
      exact hne (h.kvRead_inj hp hkp)
    -- The bucket's chain was lost with its first entry.
    · have hlost : FirstOfMany kv k ∧ index key = index k := by
        by_contra hno
        refine hk fun k' hk' => ?_
        obtain rfl := Call.delete.inj hk'
        exact hno
      have hread : kv'.kvRead key = some none := by rw [hothers key hne, if_pos hlost]
      rw [KvStore.held, hread, Option.join_some, Option.bind_none]

/-- A key without a value gets none by calls on other keys. -/
theorem run_other_none {mid : List Step} (h : Linked kv c) (hnone : kv.held key = none)
    (hmid : ∀ s ∈ mid, s.call.key.1.length ≤ 31 ∧ s.call.key ≠ key) :
    ∃ kv' hist c', run exec mid kv = some (kv', hist) ∧ Linked kv' c' ∧ kv'.held key = none := by
  induction mid generalizing kv c with
  | nil => exact ⟨kv, [], c, rfl, h, hnone⟩
  | cons s mid ih =>
    rw [List.forall_mem_cons] at hmid
    obtain ⟨kv₁, reply, c₁, hexec, h₁, hkept, hlost⟩ := exec_other h hmid.1.1 hmid.1.2
    have hnone₁ : kv₁.held key = none := by
      by_cases hk : KeepsBucket key kv s
      · rw [hkept hk, hnone]
      · exact hlost hk
    obtain ⟨kv', hist, c', hrun, h', hnone'⟩ := ih h₁ hnone₁ hmid.2
    refine ⟨kv', (s, reply) :: hist, c', ?_, h', hnone'⟩
    simp only [run, hexec, hrun, Option.bind_eq_bind, Option.bind_some]

/-- Calls on other keys keep the value of the key as long as none of them empties its bucket, and
after one that does it has no value. -/
theorem run_other {mid : List Step} (h : Linked kv c)
    (hmid : ∀ s ∈ mid, s.call.key.1.length ≤ 31 ∧ s.call.key ≠ key) :
    ∃ kv' hist c', run exec mid kv = some (kv', hist) ∧ Linked kv' c' ∧
      (Meets exec (KeepsBucket key) mid kv → kv'.held key = kv.held key) ∧
      (¬ Meets exec (KeepsBucket key) mid kv → kv'.held key = none) := by
  induction mid generalizing kv c with
  | nil => exact ⟨kv, [], c, rfl, h, fun _ => rfl, fun hno => absurd trivial hno⟩
  | cons s mid ih =>
    rw [List.forall_mem_cons] at hmid
    obtain ⟨kv₁, reply, c₁, hexec, h₁, hkept, hlost⟩ := exec_other h hmid.1.1 hmid.1.2
    by_cases hk : KeepsBucket key kv s
    · obtain ⟨kv', hist, c', hrun, h', hkept', hlost'⟩ := ih h₁ hmid.2
      refine ⟨kv', (s, reply) :: hist, c', ?_, h', fun hmeets => ?_, fun hno => hlost' fun hmeets =>
        hno ((meets_cons hexec).mpr ⟨hk, hmeets⟩)⟩
      · simp only [run, hexec, hrun, Option.bind_eq_bind, Option.bind_some]
      · rw [hkept' ((meets_cons hexec).mp hmeets).2, hkept hk]
    · obtain ⟨kv', hist, c', hrun, h', hnone⟩ := run_other_none h₁ (hlost hk) hmid.2
      refine ⟨kv', (s, reply) :: hist, c', ?_, h', fun hmeets => absurd hmeets.1 hk, fun _ => hnone⟩
      simp only [run, hexec, hrun, Option.bind_eq_bind, Option.bind_some]

/-! ## What is served -/

variable {u : Locals} {A : Malloc} {cut : Cut} {v : Str}

/-- `do_get` of a key without a value delivers nothing. -/
theorem serveGet_none (h : Linked kv c) (hkey : key.1.length ≤ 30) (hnone : kv.held key = none) :
    serveGet u A cut key kv = some none := by
  obtain ⟨rq, hrq, hop, hname, -⟩ := header_spec u.get hkey 82 (n := 0) (by decide)
  have hread : kv.kvRead key = some none := by
    rw [kvRead_eq_none_iff h, ← held_eq_none_iff h, hnone]
  have hne : (respFail rq).opStatus ≠ 75 := by
    rw [opStatus_respFail]
    decide
  simp only [serveGet, doGetRq, hrq, dispatch, hop, handleRead, hname, hread, Option.bind_eq_bind,
    Option.bind_some]
  rw [if_neg (by decide), if_pos trivial, Option.bind_some, doGet, if_pos hne]

/-- The value that the key has is delivered, when its length fits into the header. -/
theorem serveGet_some (h : Linked kv c) (hkey : key.1.length ≤ 30) (hv : kv.held key = some v) :
    serveGet u A cut key kv =
      if (decimal v.1.length).length < 8 then some (some v.1) else none := by
  obtain ⟨rq, hrq, hop, hname, -⟩ := header_spec u.get hkey 82 (n := 0) (by decide)
  -- The key is held, so `kv_read` finds its cell.
  rcases kvRead_cases h key with ⟨-, hnone⟩ | ⟨p, v', hread, hcell, hheld⟩
  · rw [hv] at hnone
    cases hnone
  obtain rfl : v = v' := Option.some.inj (hv.symm.trans hheld)
  simp only [serveGet, doGetRq, hrq, dispatch, hop, handleRead, hname, hread, hcell,
    Option.bind_eq_bind, Option.bind_some]
  rw [if_neg (by decide), if_pos trivial]
  split_ifs with hfit
  -- The length fits into its field, and the client collects the value piece by piece.
  · obtain ⟨rq', hokay, hop', hlen'⟩ := respOkay_spec rq v.1 hfit
    have hpieces := collect_pieces (cut.nil_notMem v.1) []
    rw [cut.flatten_cut, List.nil_append] at hpieces
    rw [hokay, Option.bind_some, Option.bind_some, doGet, if_neg (by simp [hop']), hlen',
      if_neg (by omega)]
    simp only [Int.toNat_natCast, Cut.reads, hpieces, Option.bind_eq_bind, Option.bind_some,
      List.take_left]
  · rw [respOkay, Rq.setLen, if_neg hfit]
    rfl

/-- The string that `handle_write` stores for a value that comes in pieces. -/
def stored (u : WriteLocals) (ps : List (List UInt8)) (len : ℕ) : Str :=
  cString ((overlay ps ((List.range (len + 1)).map u.buf)).set len 0)

/-- A value is written as `stored` says, unless there is no piece and `n` happens not to be
positive. -/
theorem serveSet_eq (u : Locals) (A : Malloc) (cut : Cut) (kv : KvStore)
    (hkey : key.1.length ≤ 30) (hfit : (decimal v.1.length).length < 8) :
    ∃ n : ℤ, (cut.cut v.1 = [] → n = u.write.n) ∧ (cut.cut v.1 ≠ [] → 0 < n) ∧
      serveSet u A cut key v kv =
        if n ≤ 0 then some (kv, 88)
        else (kv.kvWrite A key (stored u.write (cut.cut v.1) v.1.length)).map
          fun res => (res.1, if res.2 = 0 then 75 else 88) := by
  obtain ⟨rq, hrq, hop, hname, hlen⟩ := header_spec u.set hkey 87 hfit
  obtain ⟨n, hreceive, hnil, hne⟩ := receive_pieces v.1.length 0
    (cut.nil_notMem v.1) (by rw [cut.flatten_cut, Nat.zero_add])
    ((List.range (v.1.length + 1)).map u.write.buf) u.write.n
  refine ⟨n, hnil, hne, ?_⟩
  have hpos : ¬ (v.1.length : ℤ) < 0 := by omega
  simp only [serveSet, doSetRq, hrq, dispatch, hop, if_true, handleWrite, hname, hlen, if_neg hpos,
    Int.toNat_natCast, Cut.reads, hreceive, Option.bind_eq_bind, Option.bind_some]
  -- The last count read is not positive, and the request is answered with X.
  split_ifs with hn
  · rw [Option.bind_some, Option.bind_some, opStatus_respFail]
  · rw [stored]
    cases kv.kvWrite A key _ with
    | none => rfl
    | some res =>
      rw [Option.bind_some, Option.map_some]
      -- The return value of `kv_write` is the answer: K for 0, X for 1.
      split_ifs with hret
      · obtain ⟨rq', hokay, hop', -⟩ := respOkay_spec rq [] (by decide)
        rw [hokay, Option.bind_some, Option.bind_some, Option.bind_some, hop']
      · rw [Option.bind_some, Option.bind_some, opStatus_respFail]

/-- A value that comes in two or more pieces leaves a `NUL` of the buffer before its end. -/
theorem length_stored_lt {u : WriteLocals} {ps : List (List UInt8)} (hps : [] ∉ ps)
    (hlen : 2 ≤ ps.length) (hzero : ∀ i, u.buf i = 0) :
    (stored u ps ps.flatten.length).1.length < ps.flatten.length := by
  have hpieces := length_lt_of_mem hps hlen
  obtain ⟨p, hp⟩ := List.exists_mem_of_length_pos (show 0 < ps.length by omega)
  have hpos := hpieces p hp
  refine Nat.lt_of_le_of_lt (length_cString_le (i := ps.flatten.length - 1) ?_) (by omega)
  rw [List.getElem?_set_ne (by omega),
    getElem?_overlay fun q hq => by have := hpieces q hq; omega]
  rw [List.getElem?_map, List.getElem?_range (by omega), Option.map_some, hzero]

/-- A key that the store has room for is written. -/
theorem kvWrite_room (h : Linked kv c) (hkey : key.1.length ≤ 31)
    (hroom : kv.held key ≠ none ∨ kv.size ≠ TABLE_MAX) (A : Malloc) (v : Str) :
    ∃ kv' c', kv.kvWrite A key v = some (kv', 0) ∧ Linked kv' c' ∧ kv'.held key = some v := by
  rcases kvWrite_spec h hkey A v with ⟨-, hnone, hfull⟩ | ⟨kv', c', hwrite, h', hchange, -⟩
  · exact absurd hfull (hroom.resolve_left fun hne => hne hnone)
  · exact ⟨kv', c', hwrite, h', hchange.held⟩

/-- A key that the store has no room for is answered with `X`. -/
theorem serveSet_full (h : Linked kv c) (hkey : key.1.length ≤ 30)
    (hfit : (decimal v.1.length).length < 8)
    (hfull : ¬ (kv.held key ≠ none ∨ kv.size ≠ TABLE_MAX)) (u : Locals) (A : Malloc) (cut : Cut) :
    serveSet u A cut key v kv = some (kv, 88) := by
  obtain ⟨n, -, -, hset⟩ := serveSet_eq u A cut kv hkey hfit
  rw [hset]
  split_ifs with hn
  · rfl
  · rcases kvWrite_spec h (hkey.trans (by norm_num)) A
      (stored u.write (cut.cut v.1) v.1.length) with ⟨hwrite, -, -⟩ | ⟨_, _, -, -, -, -, hroom⟩
    · rw [hwrite, Option.map_some, if_neg one_ne_zero]
    · exact absurd (hroom.imp (·.1) (·.2.1)) hfull

/-- After a set that is answered with `K` and stores `w`, the other calls, and the get. -/
theorem setThenGet_of_write {kv₁ : KvStore} {c₁ : Fin 200 → List (ℕ × KeyEntry)} {mid : List Step}
    (cutGet : Cut) {w : Str} (hkey : key.1.length ≤ 30)
    (hset : serveSet u A cut key v kv = some (kv₁, 75)) (h₁ : Linked kv₁ c₁)
    (hw : kv₁.held key = some w) (hmid : ∀ s ∈ mid, s.call.key.1.length ≤ 31 ∧ s.call.key ≠ key) :
    (Meets exec (KeepsBucket key) mid kv₁ → setThenGet u A cut cutGet key v mid kv =
      if (decimal w.1.length).length < 8 then some (75, some w.1) else none) ∧
    (¬ Meets exec (KeepsBucket key) mid kv₁ →
      setThenGet u A cut cutGet key v mid kv = some (75, none)) := by
  obtain ⟨kv₂, hist, c₂, hrun, h₂, hkept, hlost⟩ := run_other h₁ hmid
  constructor
  · intro hmeets
    simp only [setThenGet, hset, hrun, serveGet_some h₂ hkey ((hkept hmeets).trans hw),
      Option.bind_eq_bind, Option.bind_some]
    split_ifs <;> rfl
  · intro hno
    simp only [setThenGet, hset, hrun, serveGet_none h₂ hkey (hlost hno), Option.bind_eq_bind,
      Option.bind_some]

/-- **SET then GET.** On every store that calls lead to, for every value whose length fits into the
header, every way to cut the value into pieces on either side, and whatever calls on other keys come
in between: the set is answered with `K` and the get delivers the value, whatever the uninitialised
variables hold, exactly when the key is there or `size` leaves room for it, the value reaches
`handle_write` in one piece (so it is not empty), and no call in between empties the bucket of the
key. -/
theorem set_get_iff {steps mid : List Step} {hist : List (Step × Reply)} {cutSet cutGet : Cut}
    (hkeys : ∀ s ∈ steps, s.call.key.1.length ≤ 31) (hrun : run exec steps kvInit = some (kv, hist))
    (hkey : key.1.length ≤ 30) (hfit : (decimal v.1.length).length < 8)
    (hmid : ∀ s ∈ mid, s.call.key.1.length ≤ 31 ∧ s.call.key ≠ key) :
    (∀ u, setThenGet u A cutSet cutGet key v mid kv = some (75, some v.1)) ↔
      (kv.held key ≠ none ∨ kv.size ≠ TABLE_MAX) ∧ (cutSet.cut v.1).length = 1 ∧
        ∀ kv₁, kv.kvWrite A key v = some (kv₁, 0) → Meets exec (KeepsBucket key) mid kv₁ := by
  obtain ⟨c, hc⟩ := linked_of_run hkeys hrun
  by_cases hroom : kv.held key ≠ none ∨ kv.size ≠ TABLE_MAX
  swap
  · refine iff_of_false (fun hall => ?_) fun h => hroom h.1
    have hzero := hall ⟨.zero, ⟨0, fun _ => 0⟩, .zero, fun _ => 0⟩
    rw [setThenGet, serveSet_full hc hkey hfit hroom] at hzero
    simp only [Option.bind_eq_bind, Option.bind_eq_some_iff, Option.bind_some] at hzero
    obtain ⟨_, -, _, -, heq⟩ := hzero
    exact absurd (Prod.mk.inj (Option.some.inj heq)).1 (by decide)
  have hnil := cutSet.nil_notMem v.1
  have hflat := cutSet.flatten_cut v.1
  have hwrite := fun w => kvWrite_room hc (hkey.trans (by norm_num)) hroom A w
  -- A set whose loop has read something stores what `stored` says and is answered with `K`.
  have hserve : ∀ u : Locals, cutSet.cut v.1 ≠ [] → ∃ kv₁ c₁,
      kv.kvWrite A key (stored u.write (cutSet.cut v.1) v.1.length) = some (kv₁, 0) ∧
      serveSet u A cutSet key v kv = some (kv₁, 75) ∧ Linked kv₁ c₁ ∧
      kv₁.held key = some (stored u.write (cutSet.cut v.1) v.1.length) := by
    intro u hne
    obtain ⟨n, -, hn, hset⟩ := serveSet_eq u A cutSet kv hkey hfit
    obtain ⟨kv₁, c₁, hw, h₁, hheld⟩ := hwrite (stored u.write (cutSet.cut v.1) v.1.length)
    refine ⟨kv₁, c₁, hw, ?_, h₁, hheld⟩
    rw [hset, if_neg (not_le.mpr (hn hne)), hw, Option.map_some, if_pos rfl]
  have hone : ∀ u : WriteLocals, (cutSet.cut v.1).length = 1 →
      stored u (cutSet.cut v.1) v.1.length = v := by
    intro u hlen
    obtain ⟨p, hp⟩ := List.length_eq_one_iff.mp hlen
    obtain rfl : p = v.1 := by rw [hp] at hflat; simpa using hflat
    rw [stored, hp]
    exact cString_one_piece v _ (by simp)
  constructor
  · intro hall
    have hlen : (cutSet.cut v.1).length = 1 := by
      by_contra hlen
      -- The uninitialised variables are all zero.
      have hzero := hall ⟨.zero, ⟨0, fun _ => 0⟩, .zero, fun _ => 0⟩
      rcases Nat.lt_or_ge (cutSet.cut v.1).length 2 with hlt | htwo
      · have hempty : cutSet.cut v.1 = [] := List.length_eq_zero_iff.mp (by omega)
        obtain ⟨n, hn, -, hset⟩ := serveSet_eq ⟨.zero, ⟨0, fun _ => 0⟩, .zero, fun _ => 0⟩
          A cutSet kv hkey hfit
        rw [hn hempty, if_pos le_rfl] at hset
        simp only [setThenGet, hset, Option.bind_eq_bind, Option.bind_eq_some_iff,
          Option.bind_some] at hzero
        obtain ⟨_, -, _, -, heq⟩ := hzero
        exact absurd (Prod.mk.inj (Option.some.inj heq)).1 (by decide)
      · have hne : cutSet.cut v.1 ≠ [] := fun h => by simp [h] at htwo
        obtain ⟨kv₁, c₁, -, hset, h₁, hheld⟩ := hserve _ hne
        obtain ⟨hkept, hlost⟩ := setThenGet_of_write cutGet hkey hset h₁ hheld hmid
        have hshort := length_stored_lt (u := ⟨0, fun _ => 0⟩) hnil htwo fun _ => rfl
        rw [hflat] at hshort
        by_cases hmeets : Meets exec (KeepsBucket key) mid kv₁
        · rw [hkept hmeets] at hzero
          split_ifs at hzero
          have heq := Option.some.inj (Prod.mk.inj (Option.some.inj hzero)).2
          rw [heq] at hshort
          exact lt_irrefl _ hshort
        · rw [hlost hmeets] at hzero
          cases hzero
    refine ⟨hroom, hlen, fun kv₁ hw => by_contra fun hno => ?_⟩
    have hne : cutSet.cut v.1 ≠ [] := fun h => by simp [h] at hlen
    obtain ⟨kv₂, c₂, hw₂, hset, h₂, hheld⟩ := hserve ⟨.zero, ⟨0, fun _ => 0⟩, .zero, fun _ => 0⟩ hne
    rw [hone _ hlen, hw, Option.some_inj] at hw₂
    obtain ⟨rfl, -⟩ := Prod.mk.inj hw₂
    have hget := hall ⟨.zero, ⟨0, fun _ => 0⟩, .zero, fun _ => 0⟩
    rw [(setThenGet_of_write cutGet hkey hset h₂ hheld hmid).2 hno] at hget
    cases hget
  · rintro ⟨-, hlen, hmeets⟩ u
    have hne : cutSet.cut v.1 ≠ [] := fun h => by simp [h] at hlen
    obtain ⟨kv₁, c₁, hw, hset, h₁, hheld⟩ := hserve u hne
    rw [hone _ hlen] at hw hheld
    rw [(setThenGet_of_write cutGet hkey hset h₁ hheld hmid).1 (hmeets kv₁ hw),
      if_pos hfit]

/-- The value in one piece. -/
def whole : Cut where
  cut l := if l = [] then [] else [l]
  flatten_cut l := by
    split_ifs with h
    · exact h.symm
    · simp
  nil_notMem l := by
    split_ifs with h
    · simp
    · simpa using Ne.symm h

/-- The value byte by byte. -/
def bytewise : Cut where
  cut l := l.map fun c => [c]
  flatten_cut l := by
    induction l with
    | nil => rfl
    | cons c l ih => rw [List.map_cons, List.flatten_cons, ih, List.singleton_append]
  nil_notMem l := by simp

/-- `ab` is set on the new store, in one piece, and got back byte by byte, after a delete of
`bA`. -/
theorem set_get_keyAb : (whole.cut keyAb.1).length = 1 ∧
    ∀ u, setThenGet u ⟨above 0, above 0⟩ whole bytewise keyAb keyAb
      [(Call.delete keyBA).step] kvInit = some (75, some keyAb.1) := by
  refine ⟨by decide, ?_⟩
  have hrun : run exec ([] : List Step) kvInit = some (kvInit, []) := rfl
  refine (set_get_iff (by simp) hrun (by decide) (by decide) (by decide)).mpr
    ⟨.inr (by decide), by decide, fun kv₁ hw => ⟨fun k hk hlost => ?_, fun _ _ _ => trivial⟩⟩
  obtain rfl : keyBA = k := Call.delete.inj hk
  have hfirst : (kvInit.kvWrite ⟨above 0, above 0⟩ keyAb keyAb).map
      (fun res => decide (FirstOfMany res.1 keyBA)) = some false := by decide +kernel
  rw [hw, Option.map_some, Option.some_inj] at hfirst
  exact of_decide_eq_false hfirst hlost.1

/-- `ab` is set on the new store, and its value comes in two pieces. -/
theorem not_set_get_bytewise : ¬ ∀ u, setThenGet u ⟨above 0, above 0⟩ bytewise whole keyAb keyAb []
    kvInit = some (75, some keyAb.1) := by
  intro hall
  have hzero := hall ⟨.zero, ⟨0, fun _ => 0⟩, .zero, fun _ => 0⟩
  have heval : setThenGet ⟨.zero, ⟨0, fun _ => 0⟩, .zero, fun _ => 0⟩
    ⟨above 0, above 0⟩ bytewise whole
    keyAb keyAb [] kvInit = some (75, some [98]) := by decide +kernel
  rw [heval] at hzero
  exact absurd hzero (by decide)

end Cs5600.Lab3
