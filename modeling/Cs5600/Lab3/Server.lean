import Cs5600.Lab3.KvMap

/-!
# The workers of the server

A server run is an interleaving of the steps of its workers (`worker.c`). The operations of the
store run inside the monitor and are single steps. `handle_read` goes on with the pointer that
`kv_read` returned after it has left the monitor: `strlen`, the checksum for the trace, and the
`write` to the socket each follow it in a step of their own, and `kv_write` and `kv_delete` of
another worker may have freed the cell by then.

As long as no step frees a value cell that a worker in `handle_read` still has to read, every
pointer that `handle_read` follows is allocated, and the value it sends is one that the key had
between the request and the reply.
-/

namespace Cs5600.Lab3

/-- The name in a request, null-padded in 31 bytes. -/
abbrev Name : Type := {k : Str // k.1.length ≤ 30}

/-- The requests that the workers serve. -/
inductive Request where
  | read (k : Name)
  | write (k : Name) (v : Str)
  | delete (k : Name)

/-- What is sent to a client: the status `K` with the bytes that follow the header, or `X`. -/
inductive Frame where
  | okay (payload : List UInt8)
  | fail
  deriving DecidableEq

/-- Where a worker is. -/
inductive Phase where
  /-- It waits for a request. -/
  | idle
  /-- `handle_read` has not called `kv_read` yet. -/
  | reading (k : Name)
  /-- `kv_read` has returned a pointer. -/
  | got (k : Name) (ret : Option ℕ)
  /-- `strlen` has returned. -/
  | sized (k : Name) (ret size : ℕ)
  /-- The trace is written, and `resp_okay` is next. -/
  | traced (k : Name) (ret size : ℕ)
  /-- `handle_write` has the value and has not called `kv_write` yet. -/
  | writing (k : Name) (v : Str)
  /-- `handle_delete` has not called `kv_delete` yet. -/
  | deleting (k : Name)
  /-- The operation is done, and the reply is next. -/
  | replying (ret : ℤ)

def Request.phase : Request → Phase
  | .read k => .reading k
  | .write k v => .writing k v
  | .delete k => .deleting k

/-- The `n` bytes from a pointer to a value on. The cell ends with the `NUL` of the string. -/
def bytesAt (values : Heap Str) (p n : ℕ) : Option (List UInt8) :=
  if n = 0 then some []
  else do
    let v ← values.lookup p
    if n ≤ v.1.length + 1 then some ((v.1 ++ [0]).take n) else none

/-- The next step of a worker that serves a request: its phase and the store afterwards, and the
frame that it sends. -/
def Phase.go (A : Malloc) (kv : KvStore) : Phase → Option (Phase × KvStore × Option Frame)
  | .idle => none
  | .reading k => do
    let ret ← kv.kvRead k
    some (.got k ret, kv, none)
  | .got _ none => some (.idle, kv, some .fail)
  | .got k (some p) => do
    let v ← kv.values.lookup p
    some (.sized k p v.1.length, kv, none)
  | .sized k p size => do
    -- `crc32` of the value, which only the trace shows.
    let _ ← bytesAt kv.values p size
    some (.traced k p size, kv, none)
  | .traced _ p size => do
    let payload ← bytesAt kv.values p size
    some (.idle, kv, some (.okay payload))
  | .writing k v => do
    let (kv, ret) ← kv.kvWrite A k v
    some (.replying ret, kv, none)
  | .deleting k => do
    let kv ← kv.kvDelete k
    some (.replying 0, kv, none)
  | .replying ret => some (.idle, kv, some (if ret = 0 then .okay [] else .fail))

/-- The store and the workers. -/
structure Server (W : Type) where
  kv : KvStore
  phase : W → Phase

/-- A worker receives a request, or takes its next step, with the addresses that `malloc`
returns. -/
inductive Input (W : Type) where
  | receive (w : W) (rq : Request)
  | go (w : W) (A : Malloc)

/-- What a step shows: the frame it sends and the store after it. -/
structure Moment where
  frame : Option Frame
  kv : KvStore

variable {W : Type} [DecidableEq W]

/-- One step of one worker. -/
def serve : Input W → Server W → Option (Server W × Moment)
  | .receive w rq, s =>
    match s.phase w with
    | .idle => some (⟨s.kv, Function.update s.phase w rq.phase⟩, ⟨none, s.kv⟩)
    | _ => none
  | .go w A, s => do
    let (phase, kv, frame) ← (s.phase w).go A s.kv
    some (⟨kv, Function.update s.phase w phase⟩, ⟨frame, kv⟩)

/-- The server at its start. -/
def serverInit (W : Type) : Server W := ⟨kvInit, fun _ => .idle⟩

/-! ## What a worker still has to read -/

/-- The value cell that `handle_read` will follow the pointer of `kv_read` to. Nothing is read of an
empty value after `strlen`. -/
def Phase.needs : Phase → Option ℕ
  | .got _ ret => ret
  | .sized _ p size => if size = 0 then none else some p
  | .traced _ p size => if size = 0 then none else some p
  | _ => none

/-- The key whose value cell the next step of the worker frees. -/
def Phase.freesOf : Phase → Option Str
  | .writing k _ => some k
  | .deleting k => some k
  | _ => none

/-- The step frees no value cell that a worker in `handle_read` still has to read. -/
def FreesUnneeded (s : Server W) : Input W → Prop
  | .receive _ _ => True
  | .go w _ => ∀ k ∈ (s.phase w).freesOf, ∀ w', ∀ p ∈ (s.phase w').needs,
      s.kv.kvRead k ≠ some (some p)

instance [Fintype W] (s : Server W) : ∀ i, Decidable (FreesUnneeded s i)
  | .receive _ _ => isTrue trivial
  | .go _ _ => inferInstanceAs (Decidable (∀ k ∈ _, _))

/-! ## One step -/

variable {kv kv' : KvStore} {c : Fin 200 → List (ℕ × KeyEntry)} {A : Malloc} {ph ph' : Phase}
  {f : Option Frame}

/-- A step keeps the chains linked, and frees at most the value cell of its key. -/
theorem Phase.go_keeps (h : Linked kv c) (hgo : ph.go A kv = some (ph', kv', f)) :
    (∃ c', Linked kv' c') ∧ ∀ p v, (∀ k, ph.freesOf = some k → kv.kvRead k ≠ some (some p)) →
      kv.values.lookup p = some v → kv'.values.lookup p = some v := by
  have hsame : kv' = kv → (∃ c', Linked kv' c') ∧
      ∀ p v, (∀ k, ph.freesOf = some k → kv.kvRead k ≠ some (some p)) →
        kv.values.lookup p = some v → kv'.values.lookup p = some v := by
    rintro rfl
    exact ⟨⟨c, h⟩, fun _ _ _ hv => hv⟩
  cases ph with
  -- The two steps that change the store.
  | writing k v =>
    have hlen : k.1.1.length ≤ 31 := k.2.trans (by norm_num)
    rcases kvWrite_spec h hlen A v with ⟨hwrite, -⟩ | ⟨kv₁, c', hwrite, h', -, hkeep, -⟩
    · simp only [Phase.go, hwrite, Option.bind_eq_bind, Option.bind_some, Option.some_inj,
        Prod.mk.injEq] at hgo
      exact hsame hgo.2.1.symm
    · simp only [Phase.go, hwrite, Option.bind_eq_bind, Option.bind_some, Option.some_inj,
        Prod.mk.injEq] at hgo
      obtain ⟨-, rfl, -⟩ := hgo
      exact ⟨⟨c', h'⟩, fun p u hp hu => hkeep p u (hp k rfl) hu⟩
  | deleting k =>
    obtain ⟨kv₁, c', hdelete, h', hkeep, -⟩ := kvDelete_spec (k := k) h
    simp only [Phase.go, hdelete, Option.bind_eq_bind, Option.bind_some, Option.some_inj,
      Prod.mk.injEq] at hgo
    obtain ⟨-, rfl, -⟩ := hgo
    exact ⟨⟨c', h'⟩, fun p u hp hu => hkeep p u (hp k rfl) hu⟩
  -- The other steps read it, and leave it as it is.
  | got k ret =>
    cases ret with
    | none =>
      simp only [Phase.go, Option.some_inj, Prod.mk.injEq] at hgo
      exact hsame hgo.2.1.symm
    | some p =>
      simp only [Phase.go, Option.bind_eq_bind, Option.bind_eq_some_iff, Option.some_inj,
        Prod.mk.injEq] at hgo
      obtain ⟨v, -, -, hkv, -⟩ := hgo
      exact hsame hkv.symm
  | idle => simp [Phase.go] at hgo
  | replying ret =>
    simp only [Phase.go, Option.some_inj, Prod.mk.injEq] at hgo
    exact hsame hgo.2.1.symm
  | reading k =>
    simp only [Phase.go, Option.bind_eq_bind, Option.bind_eq_some_iff, Option.some_inj,
      Prod.mk.injEq] at hgo
    obtain ⟨ret, -, -, hkv, -⟩ := hgo
    exact hsame hkv.symm
  | sized k p size =>
    simp only [Phase.go, Option.bind_eq_bind, Option.bind_eq_some_iff, Option.some_inj,
      Prod.mk.injEq] at hgo
    obtain ⟨v, -, -, hkv, -⟩ := hgo
    exact hsame hkv.symm
  | traced k p size =>
    simp only [Phase.go, Option.bind_eq_bind, Option.bind_eq_some_iff, Option.some_inj,
      Prod.mk.injEq] at hgo
    obtain ⟨v, -, -, hkv, -⟩ := hgo
    exact hsame hkv.symm

/-! ## The history since the latest request of a worker -/

/-- The input is a request to the worker. -/
def Input.receives (w : W) : Input W → Bool
  | .receive w' _ => w' = w
  | .go _ _ => false

/-- The part of a history from the latest request of the worker on. -/
def since (w : W) (hist : List (Input W × Moment)) : List (Input W × Moment) :=
  hist.foldl (fun part e => if e.1.receives w then [e] else part ++ [e]) []

/-- The events since a worker's last request start anew with the next one. -/
theorem since_concat (w : W) (hist : List (Input W × Moment)) (e : Input W × Moment) :
    since w (hist ++ [e]) = if e.1.receives w then [e] else since w hist ++ [e] := by
  simp [since]

/-- The events since a worker's last request are those behind it. -/
theorem since_append {w : W} {older mid : List (Input W × Moment)} {e : Input W × Moment}
    (he : e.1.receives w) (hmid : ∀ e ∈ mid, e.1.receives w = false) :
    since w (older ++ e :: mid) = e :: mid := by
  induction mid using List.reverseRecOn with
  | nil => simp [since_concat, he]
  | append_singleton mid e' ih =>
    have hsplit : older ++ e :: (mid ++ [e']) = older ++ e :: mid ++ [e'] := by simp
    rw [List.forall_mem_append] at hmid
    rw [hsplit, since_concat, hmid.2 e' (by simp), ih hmid.1]
    simp

variable {w : W} {part : List (Input W × Moment)} {e : Input W × Moment} {values values' : Heap Str}

/-- The part of the history starts with the request. -/
def Requested (w : W) (rq : Request) (part : List (Input W × Moment)) : Prop :=
  ∃ m rest, part = (.receive w rq, m) :: rest

/-- The key had the value at some moment of the part. -/
def Had (k : Str) (v : Str) (part : List (Input W × Moment)) : Prop :=
  ∃ e ∈ part, e.2.kv.held k = some v

omit [DecidableEq W] in
/-- The request stays the one that was made. -/
theorem Requested.concat {rq : Request} (h : Requested w rq part) :
    Requested w rq (part ++ [e]) := by
  obtain ⟨m, rest, rfl⟩ := h
  exact ⟨m, rest ++ [e], rfl⟩

omit [DecidableEq W] in
/-- A value that a key has had is one that it has had later too. -/
theorem Had.concat {k v : Str} (h : Had k v part) : Had k v (part ++ [e]) := by
  obtain ⟨e', he', hv⟩ := h
  exact ⟨e', List.mem_append_left _ he', hv⟩

/-- What the phase of a worker says about the history since its request and about the value cell it
still has to read. -/
def PhaseOk (w : W) (part : List (Input W × Moment)) (values : Heap Str) : Phase → Prop
  | .idle => True
  | .reading k => Requested w (.read k) part
  | .got k ret => Requested w (.read k) part ∧
      ∀ p, ret = some p → ∃ v, Had k v part ∧ values.lookup p = some v
  | .sized k p size | .traced k p size => Requested w (.read k) part ∧
      ∃ v, Had k v part ∧ size = v.1.length ∧ (size ≠ 0 → values.lookup p = some v)
  | .writing k v => Requested w (.write k v) part
  | .deleting k => Requested w (.delete k) part
  | .replying _ => ∃ rq, Requested w rq part ∧ ∀ k, rq ≠ .read k

omit [DecidableEq W] in
/-- A step of another worker keeps what the phase says, when it keeps the cell that is needed. -/
theorem PhaseOk.concat (h : PhaseOk w part values ph)
    (hkeep : ∀ p v, ph.needs = some p → values.lookup p = some v → values'.lookup p = some v) :
    PhaseOk w (part ++ [e]) values' ph := by
  cases ph with
  | idle => trivial
  | reading k => exact Requested.concat h
  | got k ret =>
    refine ⟨h.1.concat, fun p hp => ?_⟩
    obtain ⟨v, hhad, hv⟩ := h.2 p hp
    exact ⟨v, hhad.concat, hkeep p v hp hv⟩
  | sized k p size | traced k p size =>
    obtain ⟨hrq, v, hhad, hsize, hv⟩ := h
    exact ⟨hrq.concat, v, hhad.concat, hsize, fun hne => hkeep p v (if_neg hne) (hv hne)⟩
  | writing k v => exact Requested.concat h
  | deleting k => exact Requested.concat h
  | replying ret =>
    obtain ⟨rq, hrq, hne⟩ := h
    exact ⟨rq, hrq.concat, hne⟩

omit [DecidableEq W] in
/-- A worker serves one request at a time. -/
theorem Requested.inj {rq rq' : Request} (h : Requested w rq part) (h' : Requested w rq' part) :
    rq = rq' := by
  obtain ⟨m, rest, rfl⟩ := h
  obtain ⟨m', rest', heq⟩ := h'
  simp only [List.cons.injEq, Prod.mk.injEq, Input.receive.injEq] at heq
  exact heq.1.1.2

/-- The whole string is read when its cell is there. -/
theorem bytesAt_length {v : Str} {p : ℕ} (hv : v.1.length ≠ 0 → values.lookup p = some v) :
    bytesAt values p v.1.length = some v.1 := by
  unfold bytesAt
  by_cases hlen : v.1.length = 0
  · rw [if_pos hlen, List.length_eq_zero_iff.mp hlen]
  · rw [if_neg hlen, hv hlen, Option.bind_eq_bind, Option.bind_some, if_pos (by omega),
      List.take_left]

omit [DecidableEq W] in
/-- A step of the worker itself gives what its next phase says, and a value that is sent for a read
request is one that the key had. -/
theorem PhaseOk.go (h : Linked kv c) (hok : PhaseOk w part kv.values ph)
    (hgo : ph.go A kv = some (ph', kv', f)) :
    PhaseOk w (part ++ [(.go w A, ⟨f, kv'⟩)]) kv'.values ph' ∧
      ∀ k payload, Requested w (.read k) part → f = some (.okay payload) →
        ∃ v, Had k v part ∧ v.1 = payload := by
  cases ph with
  | idle => simp [Phase.go] at hgo
  | reading k =>
    simp only [Phase.go, Option.bind_eq_bind, Option.bind_eq_some_iff, Option.some_inj,
      Prod.mk.injEq] at hgo
    obtain ⟨ret, hread, rfl, rfl, rfl⟩ := hgo
    refine ⟨⟨Requested.concat hok, fun p hp => ?_⟩, by simp⟩
    -- The store of this very moment has the value that the pointer points to.
    rcases kvRead_cases h k with ⟨hnone, -⟩ | ⟨p', v, hsome, hv, hheld⟩
    · rw [hnone, Option.some_inj] at hread
      rw [← hread] at hp
      cases hp
    · rw [hsome, Option.some_inj] at hread
      rw [← hread, Option.some_inj] at hp
      exact ⟨v, ⟨_, List.mem_append_right _ (List.mem_singleton.mpr rfl), hheld⟩, hp ▸ hv⟩
  | got k ret =>
    cases ret with
    | none =>
      simp only [Phase.go, Option.some_inj, Prod.mk.injEq] at hgo
      obtain ⟨rfl, rfl, rfl⟩ := hgo
      exact ⟨trivial, by simp⟩
    | some p =>
      obtain ⟨hrq, hp⟩ := hok
      obtain ⟨v, hhad, hv⟩ := hp p rfl
      simp only [Phase.go, hv, Option.bind_eq_bind, Option.bind_some, Option.some_inj,
        Prod.mk.injEq] at hgo
      obtain ⟨rfl, rfl, rfl⟩ := hgo
      exact ⟨⟨hrq.concat, v, hhad.concat, rfl, fun _ => hv⟩, by simp⟩
  | sized k p size =>
    obtain ⟨hrq, v, hhad, rfl, hv⟩ := hok
    simp only [Phase.go, bytesAt_length hv, Option.bind_eq_bind, Option.bind_some, Option.some_inj,
      Prod.mk.injEq] at hgo
    obtain ⟨rfl, rfl, rfl⟩ := hgo
    exact ⟨⟨hrq.concat, v, hhad.concat, rfl, hv⟩, by simp⟩
  | traced k p size =>
    obtain ⟨hrq, v, hhad, rfl, hv⟩ := hok
    simp only [Phase.go, bytesAt_length hv, Option.bind_eq_bind, Option.bind_some, Option.some_inj,
      Prod.mk.injEq] at hgo
    obtain ⟨rfl, rfl, rfl⟩ := hgo
    refine ⟨trivial, fun k' payload hrq' hpayload => ?_⟩
    obtain rfl : k = k' := Request.read.inj (hrq.inj hrq')
    exact ⟨v, hhad, Frame.okay.inj (Option.some.inj hpayload)⟩
  | writing k v =>
    simp only [Phase.go, Option.bind_eq_bind, Option.bind_eq_some_iff, Option.some_inj,
      Prod.mk.injEq] at hgo
    obtain ⟨_, -, rfl, rfl, rfl⟩ := hgo
    exact ⟨⟨_, Requested.concat hok, fun _ => Request.noConfusion⟩, by simp⟩
  | deleting k =>
    simp only [Phase.go, Option.bind_eq_bind, Option.bind_eq_some_iff, Option.some_inj,
      Prod.mk.injEq] at hgo
    obtain ⟨_, -, rfl, rfl, rfl⟩ := hgo
    exact ⟨⟨_, Requested.concat hok, fun _ => Request.noConfusion⟩, by simp⟩
  | replying ret =>
    simp only [Phase.go, Option.some_inj, Prod.mk.injEq] at hgo
    obtain ⟨rfl, rfl, rfl⟩ := hgo
    obtain ⟨rq, hrq, hne⟩ := hok
    exact ⟨trivial, fun k _ hrq' _ => absurd (hrq.inj hrq') (hne k)⟩

omit [DecidableEq W] in
/-- A worker that serves a request can take its next step: no pointer it follows is dangling. -/
theorem PhaseOk.go_returns (h : Linked kv c) (hok : PhaseOk w part kv.values ph)
    (hph : ph ≠ .idle) :
    ∃ res, ph.go A kv = some res := by
  -- The phase names what the next step needs, and `hok` that it is there.
  cases ph with
  | idle => exact absurd rfl hph
  | reading k =>
    rcases kvRead_cases h k with ⟨hread, -⟩ | ⟨p, v, hread, -⟩ <;>
      exact ⟨_, by rw [Phase.go, hread, Option.bind_eq_bind, Option.bind_some]⟩
  | got k ret =>
    cases ret with
    | none => exact ⟨_, rfl⟩
    | some p =>
      obtain ⟨v, -, hv⟩ := hok.2 p rfl
      exact ⟨_, by rw [Phase.go, hv, Option.bind_eq_bind, Option.bind_some]⟩
  | sized k p size | traced k p size =>
    obtain ⟨-, v, -, rfl, hv⟩ := hok
    exact ⟨_, by rw [Phase.go, bytesAt_length hv, Option.bind_eq_bind, Option.bind_some]⟩
  | writing k v =>
    have hlen : k.1.1.length ≤ 31 := k.2.trans (by norm_num)
    rcases kvWrite_spec h hlen A v with ⟨hwrite, -⟩ | ⟨_, _, hwrite, -⟩ <;>
      exact ⟨_, by rw [Phase.go, hwrite, Option.bind_eq_bind, Option.bind_some]⟩
  | deleting k =>
    obtain ⟨_, _, hdelete, -⟩ := kvDelete_spec (k := k) h
    exact ⟨_, by rw [Phase.go, hdelete, Option.bind_eq_bind, Option.bind_some]⟩
  | replying ret => exact ⟨_, rfl⟩

/-! ## Runs -/

/-- Every value sent for a read request is one that the key had at a moment between the request and
the reply. -/
def RepliesHeld (hist : List (Input W × Moment)) : Prop :=
  ∀ older w (k : Name) m mid A reply payload newer,
    hist = older ++ (.receive w (.read k), m) :: mid ++ (.go w A, reply) :: newer →
    (∀ e ∈ mid, e.1.receives w = false) → reply.frame = some (.okay payload) →
    ∃ v : Str, Had k v ((.receive w (.read k), m) :: mid) ∧ v.1 = payload

/-- One more event keeps the replies right, when its own is. -/
theorem RepliesHeld.concat {hist : List (Input W × Moment)} (h : RepliesHeld hist)
    (he : ∀ w A (k : Name) payload, e.1 = .go w A → Requested w (.read k) (since w hist) →
      e.2.frame = some (.okay payload) → ∃ v, Had k v (since w hist) ∧ v.1 = payload) :
    RepliesHeld (hist ++ [e]) := by
  intro older w k m mid A reply payload newer hhist hmid hframe
  rcases concat_eq_append_cons hhist with ⟨rfl, rfl, -⟩ | ⟨newer, -, hhist⟩
  · have hsince : since w (older ++ (.receive w (.read k), m) :: mid) =
        (.receive w (.read k), m) :: mid := since_append (by simp [Input.receives]) hmid
    have hhad := he w A k payload rfl
    rw [hsince] at hhad
    exact hhad ⟨m, mid, rfl⟩ hframe
  · exact h older w k m mid A reply payload newer hhist hmid hframe

/-- What a run keeps, with the history so far. -/
structure ServerInv (hist : List (Input W × Moment)) (s : Server W) : Prop where
  linked : ∃ c, Linked s.kv c
  phase : ∀ w, PhaseOk w (since w hist) s.kv.values (s.phase w)
  replies : RepliesHeld hist

/-- The invariant holds at the start. -/
theorem serverInv_init : ServerInv [] (serverInit W) where
  linked := ⟨_, linked_kvInit⟩
  phase _ := trivial
  replies older w k m mid A reply payload newer hnil := by simp at hnil

/-- One step of one worker keeps the invariant, when it frees no value cell that is still needed. -/
theorem serve_inv {hist : List (Input W × Moment)} {s s' : Server W} {i : Input W} {m : Moment}
    (hinv : ServerInv hist s) (hfree : FreesUnneeded s i) (hserve : serve i s = some (s', m)) :
    ServerInv (hist ++ [(i, m)]) s' := by
  obtain ⟨⟨c, hc⟩, hphase, hreplies⟩ := hinv
  cases i with
  | receive w rq =>
    cases hidle : s.phase w with
    | idle =>
      simp only [serve, hidle, Option.some_inj, Prod.mk.injEq] at hserve
      obtain ⟨rfl, rfl⟩ := hserve
      -- A new request starts the history of its worker anew.
      refine ⟨⟨c, hc⟩, fun w' => ?_, hreplies.concat fun _ _ _ _ heq => by cases heq⟩
      rw [since_concat]
      obtain rfl | hne := eq_or_ne w' w
      · have hreq : Requested w' rq [(Input.receive w' rq, (⟨none, s.kv⟩ : Moment))] :=
          ⟨⟨none, s.kv⟩, [], rfl⟩
        rw [if_pos (by simp [Input.receives])]
        simp only [Function.update_self]
        cases rq <;> exact hreq
      · rw [if_neg (by simp [Input.receives, hne.symm])]
        simp only [Function.update_of_ne hne]
        exact (hphase w').concat fun _ _ _ hv => hv
    | _ => simp [serve, hidle] at hserve
  | go w A =>
    simp only [serve, Option.bind_eq_bind, Option.bind_eq_some_iff, Option.some_inj,
      Prod.mk.injEq] at hserve
    obtain ⟨⟨ph', kv', f⟩, hgo, rfl, rfl⟩ := hserve
    obtain ⟨hlinked, hkeep⟩ := Phase.go_keeps hc hgo
    obtain ⟨hnext, hsent⟩ := (hphase w).go hc hgo
    -- What another worker still has to read is kept, as the step frees nothing that is needed.
    refine ⟨hlinked, fun w' => ?_, hreplies.concat ?_⟩
    · rw [since_concat, if_neg (by simp [Input.receives])]
      obtain rfl | hne := eq_or_ne w' w
      · simpa only [Function.update_self] using hnext
      · simp only [Function.update_of_ne hne]
        exact (hphase w').concat fun p v hp hv => hkeep p v (fun k hk => hfree k hk w' p hp) hv
    · rintro w' A' k payload heq hrq hframe
      obtain ⟨rfl, -⟩ := Input.go.inj heq
      exact hsent k payload hrq hframe

/-- **A read replies with a value of the key.** In every run of any number of workers in which no
step frees a value cell that a worker in `handle_read` still has to read: every pointer that a
worker still has to follow is an allocated cell, every worker that serves a request can take its
next step, and the value sent for a read request is one that the key had between the request and the
reply. -/
theorem server_reads_held {is : List (Input W)} {s : Server W} {hist : List (Input W × Moment)}
    (hfree : Meets serve FreesUnneeded is (serverInit W))
    (hrun : run serve is (serverInit W) = some (s, hist)) :
    (∀ w p, (s.phase w).needs = some p → p ∈ s.kv.values) ∧
      (∀ w A, s.phase w ≠ .idle → ∃ res, serve (.go w A) s = some res) ∧ RepliesHeld hist := by
  -- The invariant along the run, whose steps all meet the condition.
  obtain ⟨⟨c, hc⟩, hphase, hreplies⟩ : ServerInv hist s :=
    run_invariant ServerInv (fun hist s i s' m => serve_inv) serverInv_init hfree hrun
  refine ⟨fun w p hp => ?_, fun w A hbusy => ?_, hreplies⟩
  · have hok := hphase w
    cases hw : s.phase w with
    | got k ret =>
      rw [hw] at hok hp
      obtain ⟨v, -, hv⟩ := hok.2 p hp
      exact Finmap.mem_of_lookup_eq_some hv
    | sized k q size | traced k q size =>
      rw [hw] at hok hp
      simp only [Phase.needs] at hp
      split_ifs at hp with hsize
      obtain ⟨-, v, -, -, hv⟩ := hok
      obtain rfl := Option.some.inj hp
      exact Finmap.mem_of_lookup_eq_some (hv hsize)
    | _ =>
      rw [hw] at hp
      cases hp
  · obtain ⟨⟨ph', kv', f⟩, hgo⟩ := (hphase w).go_returns (A := A) hc hbusy
    refine ⟨(⟨kv', Function.update s.phase w ph'⟩, ⟨f, kv'⟩), ?_⟩
    simp only [serve, hgo, Option.bind_eq_bind, Option.bind_some]

/-- A name of a request. -/
def nameAb : Name := ⟨keyAb, by decide⟩

/-- Worker `true` stores a value for `ab`, and worker `false` then reads the key up to the point
where it has the pointer. -/
def readRun : List (Input Bool) :=
  [.receive true (.write nameAb keyAb), .go true ⟨above 0, above 0⟩, .go true ⟨above 0, above 0⟩,
    .receive false (.read nameAb), .go false ⟨above 0, above 0⟩]

/-- The read request goes on to its reply. -/
theorem server_reads_held_readRun : ∃ s hist,
    run serve (readRun ++ List.replicate 3 (.go false ⟨above 0, above 0⟩)) (serverInit Bool) =
      some (s, hist) ∧
    (∀ w p, (s.phase w).needs = some p → p ∈ s.kv.values) ∧
      (∀ w A, s.phase w ≠ .idle → ∃ res, serve (.go w A) s = some res) ∧ RepliesHeld hist := by
  obtain ⟨⟨s, hist⟩, hrun⟩ : ∃ res, run serve
      (readRun ++ List.replicate 3 (.go false ⟨above 0, above 0⟩)) (serverInit Bool) = some res :=
    Option.isSome_iff_exists.mp (by decide +kernel)
  exact ⟨s, hist, hrun, server_reads_held (by decide +kernel) hrun⟩

/-- Worker `true` overwrites the value while worker `false` has the pointer to the old one. -/
theorem dangling_readRun : ¬ ∀ (is : List (Input Bool)) s hist,
    run serve is (serverInit Bool) = some (s, hist) →
      ∀ w p, (s.phase w).needs = some p → p ∈ s.kv.values := by
  intro hall
  have hend : (run serve (readRun ++ [.receive true (.write nameAb keyBA),
      .go true ⟨above 1, above 1⟩]) (serverInit Bool)).map
        (fun s => ((s.1.phase false).needs, decide (1 ∈ s.1.kv.values))) =
          some (some 1, false) := by
    decide +kernel
  obtain ⟨⟨s, hist⟩, hrun, heq⟩ := Option.map_eq_some_iff.mp hend
  obtain ⟨hneeds, hfreed⟩ := Prod.mk.inj heq
  exact of_decide_eq_false hfreed (hall _ s hist hrun false 1 hneeds)

end Cs5600.Lab3
