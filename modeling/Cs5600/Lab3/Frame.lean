import Cs5600.Lab3.Wire

/-!
# Any request frame

`dispatch` of `worker.c` for 40 bytes that nobody has checked. `serveFrame` is it with the points at
which it relies on the bytes: the strings in the header end inside it, a key has at most 31 bytes,
the length of the value is not negative, `n` has been assigned where it is tested, the checksum for
the trace covers bytes of the buffer only, and the length of the answer fits into its field.
`survives_iff` says for which frames all of this holds. The pieces of a value that has exactly `len`
bytes never bring more, so the checksum does no harm in the exchanges of `Wire` and `Session`, which
leave it out.
-/

namespace Cs5600.Lab3

/-- What can go wrong on the way to a reply. -/
inductive Misuse where
  /-- A string or a number of the header is read behind the end of the header. -/
  | overread
  /-- A name of more than 31 bytes is used as a key, which `kv_entry_init` copies into 32 bytes. -/
  | keyTooLong
  /-- The buffer is declared with a length that is negative. -/
  | negativeLen
  /-- `crc32` runs over the end of the buffer. -/
  | checksum
  /-- `n` is tested and has not been assigned. -/
  | unassigned
  /-- The length of the answer is written behind the end of `rq->len`. -/
  | lenOverflow
  /-- The store follows a pointer to a cell that is not allocated. -/
  | store
  deriving DecidableEq

/-- `atoi` comes to a byte that ends the number. -/
def atoiStops (s : List UInt8) : Bool :=
  match s.dropWhile isSpace with
  | 45 :: s => s.any fun c => !isDigit c
  | 43 :: s => s.any fun c => !isDigit c
  | s => s.any fun c => !isDigit c

namespace Rq

/-- Whether the string that starts at `name` ends inside the header. -/
def nameEnds (rq : Rq) : Bool := (rq.slice 1 39).contains 0

/-- Whether the number that starts at `len` ends inside the header. -/
def lenEnds (rq : Rq) : Bool := atoiStops (rq.slice 32 8)

/-- `rq->name` as a string. -/
def nameStr (rq : Rq) : Except Misuse Str := if rq.nameEnds then .ok rq.name else .error .overread

/-- `rq->name` as a key. -/
def key (rq : Rq) : Except Misuse Str := do
  let name ← rq.nameStr
  if name.1.length ≤ 31 then .ok name else .error .keyTooLong

/-- `atoi(rq->len)` as the length of a buffer. -/
def bufLen (rq : Rq) : Except Misuse ℕ :=
  if !rq.lenEnds then .error .overread
  else if rq.len < 0 then .error .negativeLen
  else .ok rq.len.toNat

end Rq

/-- What the calls `read(sock, buf, len)` return one after the other, for each `len`. -/
structure Stream where
  reads : ℕ → Reads
  length_le : ∀ len p, some p ∈ reads len → p.length ≤ len

/-- A reply: its header, and the bytes behind it. -/
abbrev Reply40 : Type := Rq × List UInt8

/-- A result of the store, which has none when a pointer dangles. -/
def ofStore {α : Type} : Option α → Except Misuse α
  | some a => .ok a
  | none => .error .store

/-- `resp_okay`. -/
def okay (rq : Rq) (data : List UInt8) : Except Misuse Reply40 :=
  match respOkay rq data with
  | some r => .ok r
  | none => .error .lenOverflow

/-- `bytes` after the loop of `handle_write`. Every `read` may return up to `len` bytes, and all of
them count, although each piece is put over the last one. -/
def bytesRead (len : ℕ) : Reads → ℕ → ℕ
  | [], bytes => bytes
  | none :: _, bytes => bytes
  | some p :: reads, bytes =>
    if len ≤ bytes ∨ p.length = 0 then bytes else bytesRead len reads (bytes + p.length)

/-- `crc32(-1, buf, bytes)` reads `bytes` bytes of the buffer, which has `len + 1`. -/
def checksum (len bytes : ℕ) : Except Misuse Unit :=
  if bytes ≤ len + 1 then .ok () else .error .checksum

/-- `handle_write`: the store, and the replies that are sent. -/
def serveWrite (A : Malloc) (buf : ℕ → UInt8) (s : Stream) (rq : Rq) (kv : KvStore) :
    Except Misuse (KvStore × List Reply40) := do
  let len ← rq.bufLen
  let received := receive len (s.reads len) ((List.range (len + 1)).map buf) 0 0
  let data := received.1.set len 0
  -- The message for the trace has the checksum and the name.
  checksum len (bytesRead len (s.reads len) 0)
  let _ ← rq.nameStr
  -- The loop does not run for a length of 0, and only it assigns `n`.
  if len = 0 then .error .unassigned
  else if received.2 ≤ 0 then .ok (kv, [(respFail rq, [])])
  else do
    let key ← rq.key
    let (kv, ret) ← ofStore (kv.kvWrite A key (cString data))
    if ret = 0 then do
      let r ← okay rq []
      .ok (kv, [r])
    else .ok (kv, [(respFail rq, [])])

/-- `handle_read`. -/
def serveRead (rq : Rq) (kv : KvStore) : Except Misuse (KvStore × List Reply40) := do
  let key ← rq.key
  match ← ofStore (kv.kvRead key) with
  | none => .ok (kv, [(respFail rq, [])])
  | some p => do
    let v ← ofStore (kv.values.lookup p)
    let r ← okay rq v.1
    .ok (kv, [r])

/-- `handle_delete`. -/
def serveDelete (rq : Rq) (kv : KvStore) : Except Misuse (KvStore × List Reply40) := do
  let key ← rq.key
  let kv ← ofStore (kv.kvDelete key)
  let r ← okay rq []
  .ok (kv, [r])

/-- `dispatch` of a header: the store, and the replies that are sent. `Q` ends the server without
one. -/
def serveFrame (A : Malloc) (buf : ℕ → UInt8) (s : Stream) (rq : Rq) (kv : KvStore) :
    Except Misuse (KvStore × List Reply40) :=
  if rq.opStatus = 87 then serveWrite A buf s rq kv
  else if rq.opStatus = 82 then serveRead rq kv
  else if rq.opStatus = 68 then serveDelete rq kv
  else if rq.opStatus = 81 then .ok (kv, [])
  else .ok (kv, [(respFail rq, [])])

/-- `dispatch` does not misuse the request, and unless it is `Q` sends one reply, `K` or `X`. -/
def Survives (A : Malloc) (buf : ℕ → UInt8) (s : Stream) (rq : Rq) (kv : KvStore) : Prop :=
  ∃ kv' replies, serveFrame A buf s rq kv = .ok (kv', replies) ∧
    (rq.opStatus ≠ 81 →
      ∃ r, replies = [r] ∧ (r.1.opStatus = 75 ∨ r.1.opStatus = 88))

/-! ## The frames that are safe -/

/-- The calls of `read` deliver `left` more bytes before one of them fails or finds the end. -/
def delivers : ℕ → Reads → Bool
  | 0, _ => true
  | _ + 1, [] => false
  | _ + 1, none :: _ => false
  | left + 1, some p :: reads => p.length != 0 && delivers (left + 1 - p.length) reads

/-- By how much the calls of `read` overshoot when `left` bytes are missing. -/
def excess : ℕ → Reads → ℕ
  | 0, _ => 0
  | _ + 1, [] => 0
  | _ + 1, none :: _ => 0
  | left + 1, some p :: reads =>
    if p.length = 0 then 0
    else if p.length ≤ left then excess (left + 1 - p.length) reads
    else p.length - (left + 1)

/-- The name ends inside the header and is a key. -/
def Rq.HasKey (rq : Rq) : Prop := rq.nameEnds = true ∧ rq.name.1.length ≤ 31

/-- A write has a name that ends, a number that ends and is positive, the piece that completes its
value brings at most one byte more than are missing, and when all of its bytes arrive its name is a
key. -/
def SafeWrite (s : Stream) (rq : Rq) : Prop :=
  rq.nameEnds = true ∧ rq.lenEnds = true ∧ 0 < rq.len ∧
    excess rq.len.toNat (s.reads rq.len.toNat) ≤ 1 ∧
    (delivers rq.len.toNat (s.reads rq.len.toNat) = true → rq.name.1.length ≤ 31)

/-- A read has a key, and the length of its value has at most 7 digits. -/
def SafeRead (rq : Rq) (kv : KvStore) : Prop :=
  rq.HasKey ∧ ∀ v, kv.held rq.name = some v → (decimal v.1.length).length < 8

/-- What a frame has to be like. -/
@[mk_iff]
structure SafeFrame (s : Stream) (rq : Rq) (kv : KvStore) : Prop where
  write : rq.opStatus = 87 → SafeWrite s rq
  read : rq.opStatus = 82 → SafeRead rq kv
  delete : rq.opStatus = 68 → rq.HasKey

/-- The loop of `handle_write` ends with a positive `n` when all bytes have arrived. -/
theorem receive_pos_iff (len : ℕ) (reads : Reads) (buf : List UInt8) (n : ℤ) (bytes : ℕ)
    (h : bytes < len) :
    0 < (receive len reads buf n bytes).2 ↔ delivers (len - bytes) reads = true := by
  -- Induction on the pieces; the loop stops with the first that fails, ends or completes the
  -- value.
  induction reads generalizing buf n bytes with
  | nil =>
    obtain ⟨left, hleft⟩ : ∃ left, len - bytes = left + 1 := ⟨len - bytes - 1, by omega⟩
    unfold receive
    rw [if_neg (by omega), hleft, delivers]
    simp
  | cons r reads ih =>
    obtain ⟨left, hleft⟩ : ∃ left, len - bytes = left + 1 := ⟨len - bytes - 1, by omega⟩
    unfold receive
    rw [if_neg (by omega), hleft]
    cases r with
    | none =>
      rw [delivers]
      simp
    | some p =>
      rw [delivers]
      by_cases hp : p.length = 0
      · simp [hp]
      · simp only [if_neg hp, bne_iff_ne.mpr hp, Bool.true_and]
        rcases Nat.lt_or_ge (bytes + p.length) len with hlt | hge
        · rw [ih _ _ _ hlt, show len - (bytes + p.length) = left + 1 - p.length by omega]
        · -- The last of the bytes has arrived.
          have hdone : left + 1 - p.length = 0 := by omega
          unfold receive
          rw [if_pos hge, hdone, delivers]
          simp only [iff_true]
          omega

/-- The checksum stays inside the buffer when the last piece overshoots by no more than a byte. -/
theorem bytesRead_le_iff (len : ℕ) (reads : Reads) (bytes : ℕ) (h : bytes < len) :
    bytesRead len reads bytes ≤ len + 1 ↔ excess (len - bytes) reads ≤ 1 := by
  -- Induction on the pieces, with the bytes still wanted kept positive.
  obtain ⟨left, hleft⟩ : ∃ left, len - bytes = left + 1 := ⟨len - bytes - 1, by omega⟩
  induction reads generalizing bytes left with
  | nil =>
    rw [bytesRead, hleft, excess]
    omega
  | cons r reads ih =>
    cases r with
    | none =>
      rw [bytesRead, hleft, excess]
      omega
    | some p =>
      rw [bytesRead, hleft, excess]
      by_cases hp : p.length = 0
      · rw [if_pos (.inr hp), if_pos hp]
        omega
      rw [if_neg (by omega), if_neg hp]
      split_ifs with hle
      · rw [ih (bytes + p.length) (by omega) (left - p.length) (by omega),
          show len - (bytes + p.length) = left + 1 - p.length by omega]
      · -- This piece completes the value, and the loop ends.
        have hdone : bytesRead len reads (bytes + p.length) = bytes + p.length := by
          rcases reads with - | ⟨- | q, reads⟩
          · rfl
          · rfl
          · rw [bytesRead, if_pos (.inl (by omega))]
        rw [hdone]
        omega

/-! ## The parts of a request -/

section

variable {rq : Rq}

/-- The name is a string when it ends in the header, and is read behind it otherwise. -/
theorem nameStr_eq (rq : Rq) :
    rq.nameStr = if rq.nameEnds then .ok rq.name else .error .overread := rfl

/-- A name of at most 31 bytes is used as a key. -/
theorem key_of_hasKey (h : rq.HasKey) : rq.key = .ok rq.name := by
  obtain ⟨hends, hlen⟩ := h
  simp only [Rq.key, Rq.nameStr, hends, if_true, bind, Except.bind, hlen]

/-- Another name is misused. -/
theorem key_of_not_hasKey (h : ¬ rq.HasKey) : ∃ e, rq.key = .error e := by
  unfold Rq.key Rq.nameStr
  cases hends : rq.nameEnds with
  | false => exact ⟨.overread, rfl⟩
  | true =>
    have hlen : ¬ rq.name.1.length ≤ 31 := fun hlen => h ⟨hends, hlen⟩
    simp only [if_true, bind, Except.bind, if_neg hlen]
    exact ⟨.keyTooLong, rfl⟩

/-- A reply to a value whose length fits has status `K`. -/
theorem okay_of_fits (rq : Rq) {data : List UInt8} (h : (decimal data.length).length < 8) :
    ∃ r, okay rq data = .ok r ∧ r.1.opStatus = 75 := by
  obtain ⟨rq', hokay, hstatus, -⟩ := respOkay_spec rq data h
  exact ⟨(rq', data), by rw [okay, hokay], hstatus⟩

/-- A length of 8 digits or more overflows its field. -/
theorem okay_of_not_fits (rq : Rq) {data : List UInt8} (h : ¬ (decimal data.length).length < 8) :
    okay rq data = .error .lenOverflow := by
  rw [okay, respOkay, Rq.setLen, if_neg h]
  rfl

end

/-! ## Each kind of request -/

section

variable {kv : KvStore} {c : Fin 200 → List (ℕ × KeyEntry)} (A : Malloc) (buf : ℕ → UInt8)
  {s : Stream} {rq : Rq}

/-- A write that is safe is answered. -/
theorem serveWrite_of_safe (hc : Linked kv c) (h : SafeWrite s rq) : ∃ kv' r,
    serveWrite A buf s rq kv = .ok (kv', [r]) ∧ (r.1.opStatus = 75 ∨ r.1.opStatus = 88) := by
  obtain ⟨hname, hends, hpos, hexcess, hkey⟩ := h
  -- The checksum reads what has been read, at most the buffer's `len + 1` bytes.
  have hsum : checksum rq.len.toNat (bytesRead rq.len.toNat (s.reads rq.len.toNat) 0) = .ok () :=
    if_pos ((bytesRead_le_iff rq.len.toNat _ 0 (by omega)).mpr hexcess)
  have hlen : rq.bufLen = .ok rq.len.toNat := by
    rw [Rq.bufLen, hends, if_neg (by decide), if_neg (by omega)]
  have hzero : ¬ rq.len.toNat = 0 := by omega
  have hfail : (respFail rq).opStatus = 88 := opStatus_respFail rq
  simp only [serveWrite, hlen, hsum, nameStr_eq, hname, if_true, bind, Except.bind, if_neg hzero]
  split_ifs with hn
  · exact ⟨kv, _, rfl, .inr hfail⟩
  · -- All bytes have arrived, so the name is a key.
    have hall := (receive_pos_iff _ _ ((List.range (rq.len.toNat + 1)).map buf) 0 0
      (by omega)).mp (not_le.mp hn)
    rw [Nat.sub_zero] at hall
    rw [key_of_hasKey ⟨hname, hkey hall⟩]
    rcases kvWrite_spec hc (hkey hall) A (cString ((receive rq.len.toNat (s.reads rq.len.toNat)
      ((List.range (rq.len.toNat + 1)).map buf) 0 0).1.set rq.len.toNat 0))
      with ⟨hwrite, -⟩ | ⟨kv', c', hwrite, -⟩
    · simp only [hwrite, ofStore, show ¬ (1 : ℤ) = 0 by decide, if_false]
      exact ⟨kv, _, rfl, .inr hfail⟩
    · obtain ⟨r, hr, hstatus⟩ := @okay_of_fits rq [] (by decide)
      simp only [hwrite, ofStore, if_true, hr]
      exact ⟨kv', r, rfl, .inl hstatus⟩

/-- A write that is not safe is misused. -/
theorem serveWrite_of_not_safe (h : ¬ SafeWrite s rq) :
    ∃ e, serveWrite A buf s rq kv = .error e := by
  unfold serveWrite Rq.bufLen
  cases hends : rq.lenEnds with
  | false => exact ⟨.overread, rfl⟩
  | true =>
    simp only [Bool.not_true, Bool.false_eq_true, if_false]
    by_cases hneg : rq.len < 0
    · exact ⟨.negativeLen, by rw [if_pos hneg]; rfl⟩
    simp only [if_neg hneg, bind, Except.bind, nameStr_eq]
    by_cases hsum : bytesRead rq.len.toNat (s.reads rq.len.toNat) 0 ≤ rq.len.toNat + 1
    swap
    · exact ⟨.checksum, by rw [checksum, if_neg hsum]⟩
    rw [checksum, if_pos hsum]
    simp only
    cases hname : rq.nameEnds with
    | false => exact ⟨.overread, rfl⟩
    | true =>
      simp only [if_true]
      by_cases hzero : rq.len.toNat = 0
      · exact ⟨.unassigned, if_pos hzero⟩
      -- What is left is a long name with all bytes of the value.
      have hlong : delivers rq.len.toNat (s.reads rq.len.toNat) = true ∧
        ¬ rq.name.1.length ≤ 31 := by
        by_contra hno
        exact h ⟨hname, hends, by omega, (bytesRead_le_iff rq.len.toNat _ 0 (by omega)).mp hsum,
          fun hall => not_not.mp fun hlen => hno ⟨hall, hlen⟩⟩
      have hn := (receive_pos_iff rq.len.toNat (s.reads rq.len.toNat)
        ((List.range (rq.len.toNat + 1)).map buf) 0 0 (by omega)).mpr hlong.1
      obtain ⟨e, he⟩ := @key_of_not_hasKey rq fun hkey => hlong.2 hkey.2
      simp only [if_neg hzero, if_neg (not_le.mpr hn), he]
      exact ⟨e, rfl⟩

/-- A safe read is answered. -/
theorem serveRead_of_safe (hc : Linked kv c) (h : SafeRead rq kv) : ∃ kv' r,
    serveRead rq kv = .ok (kv', [r]) ∧ (r.1.opStatus = 75 ∨ r.1.opStatus = 88) := by
  obtain ⟨hkey, hfits⟩ := h
  rw [serveRead, key_of_hasKey hkey]
  rcases kvRead_cases hc rq.name with ⟨hread, -⟩ | ⟨p, v, hread, hv, hheld⟩
  · simp only [bind, Except.bind, hread, ofStore]
    exact ⟨kv, _, rfl, .inr (opStatus_respFail rq)⟩
  · obtain ⟨r, hr, hstatus⟩ := okay_of_fits rq (hfits v hheld)
    simp only [bind, Except.bind, hread, ofStore, hv, hr]
    exact ⟨kv, r, rfl, .inl hstatus⟩

/-- Another read is a misuse. -/
theorem serveRead_of_not_safe (hc : Linked kv c) (h : ¬ SafeRead rq kv) :
    ∃ e, serveRead rq kv = .error e := by
  unfold serveRead
  by_cases hkey : rq.HasKey
  · rw [key_of_hasKey hkey]
    rcases kvRead_cases hc rq.name with ⟨-, hnone⟩ | ⟨p, v, hread, hv, hheld⟩
    · exact absurd ⟨hkey, fun v hv => by rw [hnone] at hv; cases hv⟩ h
    · have hfits : ¬ (decimal v.1.length).length < 8 := fun hlt =>
        h ⟨hkey, fun w hw => by rwa [← Option.some.inj (hheld.symm.trans hw)]⟩
      simp only [bind, Except.bind, hread, ofStore, hv, okay_of_not_fits rq hfits]
      exact ⟨.lenOverflow, rfl⟩
  · obtain ⟨e, he⟩ := key_of_not_hasKey hkey
    rw [he]
    exact ⟨e, rfl⟩

/-- A delete of a key is answered. -/
theorem serveDelete_of_hasKey (hc : Linked kv c) (h : rq.HasKey) : ∃ kv' r,
    serveDelete rq kv = .ok (kv', [r]) ∧ (r.1.opStatus = 75 ∨ r.1.opStatus = 88) := by
  obtain ⟨kv', c', hdelete, -⟩ := kvDelete_spec (k := rq.name) hc
  obtain ⟨r, hr, hstatus⟩ := @okay_of_fits rq [] (by decide)
  rw [serveDelete, key_of_hasKey h]
  simp only [bind, Except.bind, hdelete, ofStore, hr]
  exact ⟨kv', r, rfl, .inl hstatus⟩

/-- Another delete is a misuse. -/
theorem serveDelete_of_not_hasKey (h : ¬ rq.HasKey) : ∃ e, serveDelete rq kv = .error e := by
  obtain ⟨e, he⟩ := key_of_not_hasKey h
  rw [serveDelete, he]
  exact ⟨e, rfl⟩

end

/-! ## Any frame -/

/-- A request that is answered when a condition holds and misused when it does not. -/
theorem survives_iff_of_serve {A : Malloc} {buf : ℕ → UInt8} {s : Stream} {rq : Rq} {kv : KvStore}
    {P : Prop} {r : Except Misuse (KvStore × List Reply40)} (hserve : serveFrame A buf s rq kv = r)
    (hok : P → ∃ kv' x, r = .ok (kv', [x]) ∧ (x.1.opStatus = 75 ∨ x.1.opStatus = 88))
    (herror : ¬ P → ∃ e, r = .error e) : Survives A buf s rq kv ↔ P := by
  constructor
  · rintro ⟨kv', replies, hr, -⟩
    by_contra hP
    obtain ⟨e, he⟩ := herror hP
    rw [hserve, he] at hr
    cases hr
  · intro hP
    obtain ⟨kv', x, hr, hx⟩ := hok hP
    exact ⟨kv', [x], hserve.trans hr, fun _ => ⟨x, rfl, hx⟩⟩

/-- Once the loop runs, what `n` held before does not matter. -/
theorem receive_congr {len : ℕ} (hlen : 0 < len) (reads : Reads) (buf : List UInt8) (n n' : ℤ) :
    receive len reads buf n 0 = receive len reads buf n' 0 := by
  unfold receive
  rw [if_neg (by omega), if_neg (by omega)]

/-- Two steps of a server come to their end when both do. -/
theorem serve_bind_eq_ok {α β : Type} {x : Except Misuse α} {f : α → Except Misuse β} {b : β} :
    x >>= f = .ok b ↔ ∃ a, x = .ok a ∧ f a = .ok b := by
  cases x with
  | error e => simp [bind, Except.bind]
  | ok a => simp [bind, Except.bind]

/-- What the store returns is served. -/
theorem ofStore_eq_ok {α : Type} {x : Option α} {a : α} : ofStore x = .ok a ↔ x = some a := by
  cases x with
  | none => simp [ofStore]
  | some b => simp [ofStore]

/-- The key is the name. -/
theorem key_eq_ok {rq : Rq} {k : Str} (h : rq.key = .ok k) : k = rq.name := by
  by_cases hk : rq.HasKey
  · exact (Except.ok.inj ((key_of_hasKey hk).symm.trans h)).symm
  · obtain ⟨e, he⟩ := key_of_not_hasKey hk
    rw [he] at h
    cases h

/-- A reply without a misuse is the one that `resp_okay` sends. -/
theorem okay_eq_ok {rq : Rq} {data : List UInt8} {r : Reply40} (h : okay rq data = .ok r) :
    respOkay rq data = some r := by
  unfold okay at h
  cases hr : respOkay rq data with
  | none =>
    rw [hr] at h
    cases h
  | some r' =>
    rw [hr] at h
    rw [Except.ok.inj h]

/-- The data of a reply follow its header. -/
theorem respOkay_data {rq : Rq} {data : List UInt8} {r : Reply40} (h : respOkay rq data = some r) :
    r.2 = data := by
  obtain ⟨rq', -, h⟩ := Option.bind_eq_some_iff.mp h
  rw [← Option.some.inj h]

/-- The buffer has room for a length that is not negative. -/
theorem bufLen_eq_ok {rq : Rq} {n : ℕ} (h : rq.bufLen = .ok n) :
    ¬ rq.len < 0 ∧ n = rq.len.toNat := by
  unfold Rq.bufLen at h
  split_ifs at h with hends hneg
  exact ⟨hneg, (Except.ok.inj h).symm⟩

/-- A request that is served without a misuse is served as `dispatch` says, whatever `n` held. -/
theorem dispatch_of_serve {A : Malloc} {u : WriteLocals} {s : Stream} {rq : Rq} {kv kv' : KvStore}
    {r : Reply40} (h : serveFrame A u.buf s rq kv = .ok (kv', [r])) :
    dispatch A u (s.reads rq.len.toNat) rq kv = some (kv', r) := by
  unfold serveFrame at h
  unfold dispatch
  split_ifs at h ⊢ with hW hR hD
  -- `W`: the checks of the length and the name do not change what is computed
  · obtain ⟨len, hlen, h⟩ := serve_bind_eq_ok.mp h
    obtain ⟨hneg, rfl⟩ := bufLen_eq_ok hlen
    obtain ⟨-, -, h⟩ := serve_bind_eq_ok.mp h
    obtain ⟨name, -, h⟩ := serve_bind_eq_ok.mp h
    have hcongr : 0 < rq.len.toNat → _ := fun hpos => receive_congr hpos (s.reads rq.len.toNat)
      ((List.range (rq.len.toNat + 1)).map u.buf) u.n 0
    rw [handleWrite, if_neg hneg]
    -- `n` has been assigned once a byte is expected, so its first value does not count
    split_ifs at h with hzero hn
    · cases h
      simp only [hcongr (by omega), if_pos hn, Option.bind_eq_bind, Option.bind_some]
    · obtain ⟨key, hkey, h⟩ := serve_bind_eq_ok.mp h
      obtain rfl := key_eq_ok hkey
      obtain ⟨⟨kv₁, ret⟩, hres, h⟩ := serve_bind_eq_ok.mp h
      simp only [hcongr (by omega), if_neg hn, ofStore_eq_ok.mp hres, Option.bind_eq_bind,
        Option.bind_some]
      simp only at h
      split_ifs at h ⊢ with hret
      · obtain ⟨⟨rq', data⟩, hr', h⟩ := serve_bind_eq_ok.mp h
        obtain rfl : data = [] := respOkay_data (okay_eq_ok hr')
        cases h
        simp only [okay_eq_ok hr', Option.bind_some]
      · cases h
        rfl
  -- `R`
  · obtain ⟨key, hkey, h⟩ := serve_bind_eq_ok.mp h
    obtain rfl := key_eq_ok hkey
    obtain ⟨res, hres, h⟩ := serve_bind_eq_ok.mp h
    simp only [handleRead, ofStore_eq_ok.mp hres, Option.bind_eq_bind, Option.bind_some]
    cases res with
    | none =>
      cases h
      rfl
    | some p =>
      obtain ⟨v, hv, h⟩ := serve_bind_eq_ok.mp h
      obtain ⟨r', hr', h⟩ := serve_bind_eq_ok.mp h
      cases h
      simp only [ofStore_eq_ok.mp hv, Option.bind_some, okay_eq_ok hr']
  · obtain ⟨key, hkey, h⟩ := serve_bind_eq_ok.mp h
    obtain rfl := key_eq_ok hkey
    -- `D`: the answer has no value
    obtain ⟨kv₁, hkv, h⟩ := serve_bind_eq_ok.mp h
    obtain ⟨⟨rq', data⟩, hr', h⟩ := serve_bind_eq_ok.mp h
    obtain rfl : data = [] := respOkay_data (okay_eq_ok hr')
    cases h
    simp only [handleDelete, ofStore_eq_ok.mp hkv, okay_eq_ok hr', Option.bind_eq_bind,
      Option.bind_some]
  · cases h
  · cases h
    rfl

/-- **Any request frame.** On every store that calls lead to, for every header, every byte stream
behind it, and whatever the buffer of `handle_write` holds: the request is served without a misuse
and, unless it is `Q`, answered with one reply, `K` or `X`, exactly when the frame is safe. -/
theorem survives_iff {steps : List Step} {hist : List (Step × Reply)} {kv : KvStore}
    (hkeys : ∀ s ∈ steps, s.call.key.1.length ≤ 31) (hrun : run exec steps kvInit = some (kv, hist))
    (A : Malloc) (buf : ℕ → UInt8) (s : Stream) (rq : Rq) :
    Survives A buf s rq kv ↔ SafeFrame s rq kv := by
  obtain ⟨c, hc⟩ := linked_of_run hkeys hrun
  rw [safeFrame_iff]
  by_cases hW : rq.opStatus = 87
  · have hR : ¬ rq.opStatus = 82 := by rw [hW]; decide
    have hD : ¬ rq.opStatus = 68 := by rw [hW]; decide
    simp only [eq_true hW, hR, hD, true_imp_iff, false_imp_iff, and_true]
    exact survives_iff_of_serve (if_pos hW) (serveWrite_of_safe A buf hc)
      (serveWrite_of_not_safe A buf)
  by_cases hR : rq.opStatus = 82
  · have hD : ¬ rq.opStatus = 68 := by rw [hR]; decide
    simp only [hW, eq_true hR, hD, true_imp_iff, false_imp_iff, and_true, true_and]
    exact survives_iff_of_serve ((if_neg hW).trans (if_pos hR)) (serveRead_of_safe hc)
      (serveRead_of_not_safe hc)
  by_cases hD : rq.opStatus = 68
  · simp only [hW, hR, eq_true hD, true_imp_iff, false_imp_iff, true_and]
    exact survives_iff_of_serve ((if_neg hW).trans ((if_neg hR).trans (if_pos hD)))
      (serveDelete_of_hasKey hc) serveDelete_of_not_hasKey
  -- No other request looks at the name or the length.
  simp only [hW, hR, hD, false_imp_iff, and_true, iff_true]
  by_cases hQ : rq.opStatus = 81
  · refine ⟨kv, [], ?_, fun hne => absurd hQ hne⟩
    rw [serveFrame, if_neg hW, if_neg hR, if_neg hD, if_pos hQ]
  · refine ⟨kv, [(respFail rq, [])], ?_, fun _ => ⟨_, rfl, .inr (opStatus_respFail rq)⟩⟩
    rw [serveFrame, if_neg hW, if_neg hR, if_neg hD, if_neg hQ]

/-! ## Two frames -/

/-- A header with the status, the name, and the length as they are given. -/
def frame (op : UInt8) (name len : List UInt8) : Rq :=
  ((Bytes.zero.blit 0 [op]).blit 1 name).blit 32 len

/-- A stream whose first `read` returns the bytes of a list, as far as they are asked for. -/
def streamOf (l : List UInt8) : Stream where
  reads len := [some (l.take len)]
  length_le len p hp := by
    rw [List.mem_singleton, Option.some_inj] at hp
    rw [hp]
    exact List.length_take_le len l

/-- A write of `ab` with 2 bytes. -/
def frameAb : Rq := frame 87 [97, 98] [50]

/-- A write with 1 byte and a name of 31 bytes, which runs into the length. -/
def frameLong : Rq := frame 87 (List.replicate 31 97) [49]

/-- A write of two bytes for the key `ab` is served. -/
theorem survives_frameAb : SafeFrame (streamOf [97, 98]) frameAb kvInit ∧
    Survives ⟨above 0, above 0⟩ (fun _ => 0) (streamOf [97, 98]) frameAb kvInit := by
  have hsafe : SafeFrame (streamOf [97, 98]) frameAb kvInit :=
    ⟨fun _ => ⟨by decide +kernel, by decide +kernel, by decide +kernel, by decide +kernel,
        fun _ => by decide +kernel⟩,
      fun h => absurd h (by decide +kernel), fun h => absurd h (by decide +kernel)⟩
  have hrun : run exec ([] : List Step) kvInit = some (kvInit, []) := rfl
  exact ⟨hsafe, (survives_iff (by simp) hrun ⟨above 0, above 0⟩ (fun _ => 0) (streamOf [97, 98])
    frameAb).mpr hsafe⟩

/-- The name of 31 bytes and the digit behind it are copied as a key into 32 bytes. -/
theorem not_survives_frameLong : frameLong.name.1.length = 32 ∧
    serveFrame ⟨above 0, above 0⟩ (fun _ => 0) (streamOf [97]) frameLong kvInit =
      .error .keyTooLong ∧
    ¬ Survives ⟨above 0, above 0⟩ (fun _ => 0) (streamOf [97]) frameLong kvInit := by
  have hserve : serveFrame ⟨above 0, above 0⟩ (fun _ => 0) (streamOf [97]) frameLong kvInit =
      .error .keyTooLong := by
    rfl
  refine ⟨by decide +kernel, hserve, ?_⟩
  rintro ⟨kv', replies, hok, -⟩
  rw [hserve] at hok
  cases hok

end Cs5600.Lab3
