import Cs5600.Lab3.Server
import Cs5600.Lab3.WorkQueue
import Cs5600.Lib.Carried

/-!
# Connections

The threads of `dbserver.c` together: `listen_thread` accepts a connection, allocates a task for it
and enqueues it, and each `worker` dequeues a task, serves its connection in `dispatch`, closes it,
and frees the task. A descriptor is free again once it is closed, so a later `accept` may return it;
when `accept` fails the listener enqueues -1 like any other descriptor. A client may send 'Q', the
main thread may be told to quit, and a signal may come: the process ends then, with connections that
are neither answered nor closed. A `read` that does not return is a step that does not come. The
requests are those that `dispatch` survives (`Cs5600.Lab3.Frame`): the name ends within its field,
and so does the length of a write, which is positive, and the reads of the value bring at most one
byte too many.

Whatever the order of the threads' steps, up to the end of the process if there is one, every
connection is dequeued in the order in which it was accepted, by one worker, answered at most once
and closed at most once, and nothing else is open or allocated (`connections_served`). Which
connections do come to their end is in `Cs5600.Lab3.Drain`.
-/

namespace Cs5600.Lab3

/-! ## What the threads of the pool have in hand -/

variable {T : Type} [DecidableEq T] {s s' : Pool T} {l : List (ℕ × Task)} {ev : PoolEvent} {t : T}

/-- The task in the hand of a thread, with its descriptor. -/
def Pool.hand (s : Pool T) (t : T) : Option (ℕ × ℤ) := do
  let p ← s.task t
  let task ← s.q.tasks.lookup p
  some (p, task.fd)

/-- Every task that is allocated is in the queue or in a hand. -/
def Pool.Owned (s : Pool T) (l : List (ℕ × Task)) : Prop :=
  ∀ p ∈ s.q.tasks, p ∈ l.map Prod.fst ∨ ∃ t, s.task t = some p

omit [DecidableEq T] in
/-- A thread that has a task has a descriptor with it. -/
theorem PoolInv.hand_eq (hs : PoolInv s l) {p : ℕ} (hp : s.task t = some p) :
    ∃ task, s.q.tasks.lookup p = some task ∧ s.hand t = some (p, task.fd) := by
  obtain ⟨task, htask⟩ := Finmap.mem_iff.mp (hs.task t p hp).1
  refine ⟨task, htask, ?_⟩
  simp only [Pool.hand, hp, htask, Option.bind_eq_bind, Option.bind_some]

omit [DecidableEq T] in
/-- A thread without a task has nothing in hand. -/
theorem Pool.hand_none (hp : s.task t = none) : s.hand t = none := by
  simp only [Pool.hand, hp, Option.bind_eq_bind, Option.bind_none]

omit [DecidableEq T] in
/-- A thread that has something in hand has a task, which is allocated. -/
theorem PoolInv.exists_task (hs : PoolInv s l) (hhand : s.hand t ≠ none) :
    ∃ p task, s.task t = some p ∧ s.q.tasks.lookup p = some task := by
  obtain ⟨p, hp⟩ := Option.ne_none_iff_exists'.mp fun hnone => hhand (Pool.hand_none hnone)
  obtain ⟨task, htask, -⟩ := hs.hand_eq hp
  exact ⟨p, task, hp, htask⟩

omit [DecidableEq T] in
/-- A thread with nothing in hand has no task. -/
theorem PoolInv.task_eq_none (hs : PoolInv s l) (hhand : s.hand t = none) : s.task t = none := by
  by_contra hne
  obtain ⟨p, hp⟩ := Option.ne_none_iff_exists'.mp hne
  obtain ⟨task, -, hsome⟩ := hs.hand_eq hp
  rw [hhand] at hsome
  cases hsome

/-- A step of one thread, which keeps the tasks in the other hands. -/
theorem Pool.hand_update {o : Option ℕ} (htask : s'.task = Function.update s.task t o)
    (hkeep : ∀ t' p, t' ≠ t → s.task t' = some p →
      (s'.q.tasks.lookup p).map Task.fd = (s.q.tasks.lookup p).map Task.fd) :
    s'.hand = Function.update s.hand t (s'.hand t) := by
  funext t'
  obtain rfl | hne := eq_or_ne t' t
  · rw [Function.update_self]
  · rw [Function.update_of_ne hne, Pool.hand, Pool.hand, htask, Function.update_of_ne hne]
    cases hp : s.task t' with
    | none => rfl
    | some p =>
      have h := hkeep t' p hne hp
      simp only [Option.bind_eq_bind, Option.bind_some]
      cases hnew : s'.q.tasks.lookup p <;> cases hold : s.q.tasks.lookup p <;>
        simp_all

/-- A step of one thread: the task in its hand before and after it, and what the queue gets and
gives. -/
structure Pool.Moves (t : T) (x y : Option (ℕ × ℤ)) (got given : List (ℕ × ℤ)) (s s' : Pool T)
    (l l' : List (ℕ × Task)) : Prop where
  inv : PoolInv s' l'
  owned : s.Owned l → s'.Owned l'
  before : s.hand t = x
  after : s'.hand = Function.update s.hand t y
  queue : given ++ l'.map shown = l.map shown ++ got

/-- `malloc` of a task. -/
theorem PoolInv.moves_create {A : Allocator} {next : Option ℕ} {fd : ℤ} (hs : PoolInv s l)
    (h : Pool.step (.create t A next fd) s = some (s', ev)) :
    ∃ p, Pool.Moves t none (some (p, fd)) [] [] s s' l l := by
  simp only [Pool.step] at h
  split at h
  · rename_i hplace hnone
    simp only [Heap.malloc, Option.some_inj, Prod.mk.injEq] at h
    obtain ⟨rfl, -⟩ := h
    have hself :
      Pool.hand ⟨{ s.q with tasks := s.q.tasks.insert (A.pick s.q.tasks.keys) ⟨next, fd⟩ },
        s.place, Function.update s.task t (some (A.pick s.q.tasks.keys))⟩ t =
        some (A.pick s.q.tasks.keys, fd) := by
      simp only [Pool.hand, Function.update_self, Finmap.lookup_insert, Option.bind_eq_bind,
        Option.bind_some]
    refine ⟨A.pick s.q.tasks.keys, hs.create hplace, fun howned p hp => ?_,
      Pool.hand_none hnone, ?_, ?_⟩
    -- The task allocated is in the hand of `t`; the others are where they were.
    · rcases Finmap.mem_insert.mp hp with rfl | hp
      · exact .inr ⟨t, Function.update_self ..⟩
      · refine (howned p hp).imp_right ?_
        rintro ⟨t', ht'⟩
        refine ⟨t', ?_⟩
        have hne : t' ≠ t := by
          rintro rfl
          simp [hnone] at ht'
        simpa only [Function.update_of_ne hne] using ht'
    · rw [← hself]
      refine Pool.hand_update rfl fun t' p _ hp => ?_
      obtain ⟨task, htask, -⟩ := hs.hand_eq hp
      rw [htask, Heap.lookup_insert_pick A htask]
    · rw [List.nil_append, List.append_nil]
  · cases h

/-- `enqueue` of the task in hand. -/
theorem PoolInv.moves_enqueue (hs : PoolInv s l) (h : Pool.step (.enqueue t) s = some (s', ev)) :
    ∃ x l', Pool.Moves t (some x) none [x] [] s s' l l' := by
  simp only [Pool.step] at h
  split at h
  · rename_i p hplace hp
    obtain ⟨q', l', task, htask, henq, hs', hshown⟩ := hs.enqueue hp
    simp only [htask, henq, Option.bind_eq_bind, Option.bind_some, Option.some_inj,
      Prod.mk.injEq] at h
    obtain ⟨rfl, -⟩ := h
    -- Only the task that was last in the queue is written to.
    obtain ⟨q₁, l₁, henq₁, -, hshown₁, -, htasks, hlookup⟩ :=
      hs.holds.enqueue htask (hs.task t p hp).2
    obtain rfl := Option.some.inj (henq₁.symm.trans henq)
    have haddr : l'.map Prod.fst = l.map Prod.fst ++ [p] := by
      have hfst := congrArg (List.map Prod.fst) hshown
      simpa [shown, Function.comp_def] using hfst
    have hhand : s.hand t = some (p, task.fd) := by
      simp only [Pool.hand, hp, htask, Option.bind_eq_bind, Option.bind_some]
    refine ⟨(p, task.fd), l', hs', fun howned a ha => ?_, hhand,
      ?_, by rw [List.nil_append, hshown]⟩
    · rw [haddr, List.mem_append, List.mem_singleton]
      rcases howned a ((htasks a).mp ha) with ha | ⟨t', ht'⟩
      · exact .inl (.inl ha)
      · obtain rfl | hne := eq_or_ne t' t
        · exact .inl (.inr (Option.some.inj (ht'.symm.trans hp)))
        · exact .inr ⟨t', by simpa only [Function.update_of_ne hne] using ht'⟩
    · rw [← Pool.hand_none (s := ⟨q₁, Place.broadcast s.place, Function.update s.task t none⟩)
        (Function.update_self ..)]
      refine Pool.hand_update rfl fun t' r _ hr => ?_
      rw [hlookup r (hs.task t' r hr).2]
  · cases h

/-- The loop of `dequeue`: the thread waits, or takes the first task. -/
theorem PoolInv.moves_test (hs : PoolInv s l) (ht : s.task t = none)
    (h : s.test t = some (s', ev)) :
    ev = .quiet ∧ s' = { s with place := Function.update s.place t (.waiting ()) } ∧
        Pool.Moves t none none [] [] s s' l l ∨
      ∃ x l', ev = .dequeued x.1 x.2 ∧ s'.place = Function.update s.place t .outside ∧
        Pool.Moves t none (some x) [] [x] s s' l l' := by
  obtain ⟨s₁, ev₁, l', htest, hs', -, hdeq⟩ := hs.test ht
  obtain ⟨rfl, rfl⟩ := Prod.mk.inj (Option.some.inj (htest.symm.trans h))
  -- An empty queue: `t` goes to sleep with nothing in hand.
  by_cases hzero : s.q.count = 0
  · rw [Pool.test, if_pos hzero, Option.some_inj, Prod.mk.injEq] at h
    obtain ⟨rfl, rfl⟩ := h
    have hnil : l = [] := List.length_eq_zero_iff.mp (by exact_mod_cast hs.holds.count ▸ hzero)
    obtain rfl : l' = l := by
      rw [hnil, List.map_nil] at hdeq
      rw [hnil]
      exact List.map_eq_nil_iff.mp hdeq
    refine .inl ⟨rfl, rfl, hs', id, Pool.hand_none ht, ?_, by rw [List.nil_append, List.append_nil]⟩
    rw [← Pool.hand_none ht, Function.update_eq_self]
    rfl
  -- The head of the queue moves into the hand of `t`.
  · obtain ⟨x, l₁, q', rfl, htake, hq', htasks⟩ := hs.holds.take hzero
    have hx := hs.holds.lookup (x := x) List.mem_cons_self
    simp only [Pool.test, if_neg hzero, htake, htasks, hx, Option.bind_eq_bind, Option.bind_some,
      Option.some_inj, Prod.mk.injEq] at h
    obtain ⟨rfl, rfl⟩ := h
    obtain ⟨-, hrest⟩ :=
      List.cons.inj (show shown x :: l'.map shown = shown x :: l₁.map shown from hdeq)
    have haddr : l'.map Prod.fst = l₁.map Prod.fst := by
      have hfst := congrArg (List.map Prod.fst) hrest
      simpa [shown, Function.comp_def] using hfst
    refine .inr ⟨shown x, l', rfl, rfl, hs', fun howned p hp => ?_, Pool.hand_none ht, ?_, ?_⟩
    · rcases howned p (htasks ▸ hp) with hp | ⟨t', ht'⟩
      · rcases List.mem_cons.mp hp with rfl | hp
        · exact .inr ⟨t, Function.update_self ..⟩
        · exact .inl (haddr ▸ hp)
      · have hne : t' ≠ t := by
          rintro rfl
          simp [ht] at ht'
        exact .inr ⟨t', by simpa only [Function.update_of_ne hne] using ht'⟩
    · have hself : Pool.hand ⟨q', Function.update s.place t .outside,
          Function.update s.task t (some x.1)⟩ t = some (shown x) := by
        simp only [Pool.hand, Function.update_self, htasks, hx, Option.bind_eq_bind,
          Option.bind_some, shown]
      rw [← hself]
      exact Pool.hand_update rfl fun _ _ _ _ => by rw [htasks]
    · rw [List.append_nil]
      exact congrArg (shown x :: ·) hrest

/-- `free` of the task in hand. -/
theorem PoolInv.moves_free (hs : PoolInv s l) (h : Pool.step (.free t) s = some (s', ev)) :
    ∃ x, Pool.Moves t (some x) none [] [] s s' l l := by
  simp only [Pool.step] at h
  split at h
  · rename_i p hplace hp
    obtain ⟨task, htask, hhand⟩ := hs.hand_eq hp
    simp only [Heap.free_of_lookup htask, Option.bind_eq_bind, Option.bind_some, Option.some_inj,
      Prod.mk.injEq] at h
    obtain ⟨rfl, -⟩ := h
    refine ⟨_, hs.free hp, fun howned a ha => ?_, hhand,
      ?_, by rw [List.nil_append, List.append_nil]⟩
    -- What is left was owned before, and not by `t`.
    · obtain ⟨hne, ha⟩ := Finmap.mem_erase.mp ha
      refine (howned a ha).imp_right ?_
      rintro ⟨t', ht'⟩
      refine ⟨t', ?_⟩
      have hne' : t' ≠ t := by
        rintro rfl
        exact hne (Option.some.inj (ht'.symm.trans hp))
      simpa only [Function.update_of_ne hne'] using ht'
    · rw [← Pool.hand_none (s := ⟨{ s.q with tasks := s.q.tasks.erase p }, s.place,
        Function.update s.task t none⟩) (Function.update_self ..)]
      refine Pool.hand_update rfl fun t' r hne hr => ?_
      rw [Finmap.lookup_erase_ne]
      rintro rfl
      exact hne (hs.task_inj t' t r hr hp)
  · cases h

/-- A wakeup for no reason. -/
theorem PoolInv.moves_spurious (hs : PoolInv s l) (h : Pool.step (.spurious t) s = some (s', ev)) :
    Pool.Moves t (s.hand t) (s.hand t) [] [] s s' l l := by
  simp only [Pool.step] at h
  split at h
  · rename_i hplace
    simp only [Option.some_inj, Prod.mk.injEq] at h
    obtain ⟨rfl, -⟩ := h
    refine ⟨hs.spurious hplace, id, rfl, ?_, by rw [List.nil_append, List.append_nil]⟩
    rw [Function.update_eq_self]
    rfl
  · cases h

/-- The steps that a handler still has to take. -/
def Phase.left : Phase → ℕ
  | .idle => 0
  | .reading _ => 4
  | .got _ _ => 3
  | .sized _ _ _ => 2
  | .traced _ _ _ => 1
  | .writing _ _ => 2
  | .deleting _ => 2
  | .replying _ => 1

/-- A handler is done with the step that sends its frame, and comes closer to it with every other
one. -/
theorem Phase.go_next {ph ph' : Phase} {A : Malloc} {kv kv' : KvStore} {f : Option Frame}
    (h : ph.go A kv = some (ph', kv', f)) : (ph' = .idle ↔ f ≠ none) ∧ ph'.left < ph.left := by
  -- Only a frame sent ends in the idle phase.
  cases ph with
  | idle => cases h
  | got k ret =>
    cases ret with
    | none =>
      simp only [Phase.go, Option.some_inj, Prod.mk.injEq] at h
      obtain ⟨rfl, -, rfl⟩ := h
      simp [Phase.left]
    | some p =>
      simp only [Phase.go, Option.bind_eq_bind, Option.bind_eq_some_iff, Option.some_inj,
        Prod.mk.injEq] at h
      obtain ⟨_, -, rfl, -, rfl⟩ := h
      simp [Phase.left]
  | replying ret =>
    simp only [Phase.go, Option.some_inj, Prod.mk.injEq] at h
    obtain ⟨rfl, -, rfl⟩ := h
    simp [Phase.left]
  | reading | sized | traced | writing | deleting =>
    simp only [Phase.go, Option.bind_eq_bind, Option.bind_eq_some_iff, Option.some_inj,
      Prod.mk.injEq] at h
    obtain ⟨_, -, rfl, -, rfl⟩ := h
    simp [Phase.left]

/-! ## The server -/

/-- Where a worker is between `dequeue` and `free`, with the `sock` of `dispatch`. -/
inductive Stage where
  /-- It is before or in `dequeue`, or has a task from it. -/
  | fetch
  /-- `dispatch` has been called. -/
  | opened (sock : ℤ)
  /-- The request is read, and a handler is at work. -/
  | handling (sock : ℤ)
  /-- The answer is written, and `close` is next. -/
  | answered (sock : ℤ)
  /-- `dispatch` has returned, and `free` is next. -/
  | closed
  deriving DecidableEq

/-- `dbserver`: the queue with its threads (`none` is `listen_thread`), the store with the handlers,
the descriptors of connections that are open, what `accept` returned to the listener, and the
workers. Once the process has ended, the other fields are what it left. -/
structure Dbserver (W : Type) where
  pool : Pool (Option W)
  server : Server W
  sockets : Finset ℤ
  accepted : Option ℤ
  stage : W → Stage
  ended : Bool

/-- A step of the listener or of a worker, or the end of the process. -/
inductive Turn (W : Type) where
  /-- `accept` returns a new descriptor, or -1. -/
  | accept (fd : ℤ)
  | create (A : Allocator) (next : Option ℕ)
  | enqueue
  | dequeue (w : W)
  | recheck (w : W)
  | spurious (w : W)
  | dispatch (w : W)
  /-- `dispatch` has read a request, with the value of a write, or what fails: a short header, an op
  that there is not, or a value that does not arrive. The step comes when `read` has returned. -/
  | receive (w : W) (rq : Option Request)
  /-- A step of a handler. -/
  | go (w : W) (A : Malloc)
  | close (w : W)
  | free (w : W)
  /-- The process ends: in `cleanup`, for a worker that has read 'Q', or otherwise (`none`): the
  main thread has read `quit` or the end of its input, or a signal comes (SIGINT, or SIGPIPE from an
  answer to a client that has reset its connection). -/
  | quit (w : Option W)

/-- What a step shows of the connections. -/
inductive Happening (W : Type) where
  | quiet
  | accepted (fd : ℤ)
  | dequeued (w : W) (fd : ℤ)
  | answered (w : W) (fd : ℤ) (f : Frame)
  | closed (w : W) (fd : ℤ)

variable {W : Type}

/-- What a step of the queue shows. -/
def PoolEvent.happening (w : W) : PoolEvent → Happening W
  | .dequeued _ fd => .dequeued w fd
  | _ => .quiet

namespace Dbserver

/-- One step of one thread of a process that runs, where the thread is at the place for it. -/
def advance [DecidableEq W] : Turn W → Dbserver W → Option (Dbserver W × Happening W)
  | .accept fd, s =>
    match s.accepted, s.pool.task none with
    | none, none =>
      -- The descriptor is not looked at.
      if fd = -1 then some ({ s with accepted := some fd }, .accepted fd)
      else if 0 ≤ fd ∧ fd ∉ s.sockets then
        some ({ s with accepted := some fd, sockets := insert fd s.sockets }, .accepted fd)
      else none
    | _, _ => none
  | .create A next, s => do
    let fd ← s.accepted
    let (pool, _) ← s.pool.step (.create none A next fd)
    some ({ s with pool, accepted := none }, .quiet)
  | .enqueue, s => do
    let (pool, _) ← s.pool.step (.enqueue none)
    some ({ s with pool }, .quiet)
  | .dequeue w, s => do
    let (pool, ev) ← s.pool.step (.dequeue (some w))
    some ({ s with pool }, ev.happening w)
  | .recheck w, s => do
    let (pool, ev) ← s.pool.step (.recheck (some w))
    some ({ s with pool }, ev.happening w)
  | .spurious w, s => do
    let (pool, _) ← s.pool.step (.spurious (some w))
    some ({ s with pool }, .quiet)
  | .dispatch w, s =>
    match s.stage w with
    | .fetch => do
      let p ← s.pool.task (some w)
      let task ← s.pool.q.tasks.lookup p
      some ({ s with stage := Function.update s.stage w (.opened task.fd) }, .quiet)
    | _ => none
  | .receive w rq, s =>
    match s.stage w, rq with
    | .opened fd, some rq =>
      -- A request comes only from a descriptor that is open.
      if fd ∈ s.sockets then do
        let (server, _) ← serve (.receive w rq) s.server
        some ({ s with server, stage := Function.update s.stage w (.handling fd) }, .quiet)
      else none
    | .opened fd, none =>
      some ({ s with stage := Function.update s.stage w (.answered fd) }, .answered w fd .fail)
    | _, _ => none
  | .go w A, s =>
    match s.stage w with
    | .handling fd => do
      let (server, m) ← serve (.go w A) s.server
      match m.frame with
      | none => some ({ s with server }, .quiet)
      | some f =>
        some ({ s with server, stage := Function.update s.stage w (.answered fd) },
          .answered w fd f)
    | _ => none
  | .close w, s =>
    match s.stage w with
    | .answered fd =>
      some ({ s with sockets := s.sockets.erase fd, stage := Function.update s.stage w .closed },
        .closed w fd)
    | _ => none
  | .free w, s =>
    match s.stage w with
    | .closed => do
      let (pool, _) ← s.pool.step (.free (some w))
      some ({ s with pool, stage := Function.update s.stage w .fetch }, .quiet)
    | _ => none
  -- The process may end at any time; a worker ends it when it has read 'Q'.
  | .quit none, s => some ({ s with ended := true }, .quiet)
  | .quit (some w), s =>
    match s.stage w with
    | .opened fd => if fd ∈ s.sockets then some ({ s with ended := true }, .quiet) else none
    | _ => none

/-- One step, unless the process has ended. -/
def step [DecidableEq W] (turn : Turn W) (s : Dbserver W) : Option (Dbserver W × Happening W) :=
  if s.ended then none else s.advance turn

/-- A turn that is taken: what it needs of the state, what it makes of it, and what it shows. -/
inductive Taken [DecidableEq W] (s : Dbserver W) : Turn W → Dbserver W → Happening W → Prop where
  /-- `accept` fails. -/
  | fail (accepted : s.accepted = none) (task : s.pool.task none = none) :
      Taken s (.accept (-1)) { s with accepted := some (-1) } (.accepted (-1))
  | accept {fd : ℤ} (accepted : s.accepted = none) (task : s.pool.task none = none)
      (nonneg : 0 ≤ fd) (fresh : fd ∉ s.sockets) :
      Taken s (.accept fd) { s with accepted := some fd, sockets := insert fd s.sockets }
        (.accepted fd)
  | create {A : Allocator} {next : Option ℕ} {fd : ℤ} {pool : Pool (Option W)} {ev : PoolEvent}
      (accepted : s.accepted = some fd)
      (step : s.pool.step (.create none A next fd) = some (pool, ev)) :
      Taken s (.create A next) { s with pool, accepted := none } .quiet
  | enqueue {pool : Pool (Option W)} {ev : PoolEvent}
      (step : s.pool.step (.enqueue none) = some (pool, ev)) :
      Taken s .enqueue { s with pool } .quiet
  | dequeue {w : W} {pool : Pool (Option W)} {ev : PoolEvent}
      (place : s.pool.place (some w) = .outside) (task : s.pool.task (some w) = none)
      (test : s.pool.test (some w) = some (pool, ev)) :
      Taken s (.dequeue w) { s with pool } (ev.happening w)
  | recheck {w : W} {pool : Pool (Option W)} {ev : PoolEvent}
      (place : s.pool.place (some w) = .woken ())
      (test : s.pool.test (some w) = some (pool, ev)) :
      Taken s (.recheck w) { s with pool } (ev.happening w)
  | spurious {w : W} {pool : Pool (Option W)} {ev : PoolEvent}
      (place : s.pool.place (some w) = .waiting ())
      (step : s.pool.step (.spurious (some w)) = some (pool, ev)) :
      Taken s (.spurious w) { s with pool } .quiet
  | dispatch {w : W} {p : ℕ} {task : Task} (stage : s.stage w = .fetch)
      (hand : s.pool.task (some w) = some p) (lookup : s.pool.q.tasks.lookup p = some task) :
      Taken s (.dispatch w) { s with stage := Function.update s.stage w (.opened task.fd) } .quiet
  | receive {w : W} {fd : ℤ} {rq : Request} (stage : s.stage w = .opened fd)
      (isOpen : fd ∈ s.sockets) (phase : s.server.phase w = .idle) :
      Taken s (.receive w (some rq))
        { s with
          server := ⟨s.server.kv, Function.update s.server.phase w rq.phase⟩
          stage := Function.update s.stage w (.handling fd) } .quiet
  /-- Nothing is served. -/
  | refuse {w : W} {fd : ℤ} (stage : s.stage w = .opened fd) :
      Taken s (.receive w none) { s with stage := Function.update s.stage w (.answered fd) }
        (.answered w fd .fail)
  | go {w : W} {A : Malloc} {fd : ℤ} {ph : Phase} {kv : KvStore} (stage : s.stage w = .handling fd)
      (go : (s.server.phase w).go A s.server.kv = some (ph, kv, none)) :
      Taken s (.go w A) { s with server := ⟨kv, Function.update s.server.phase w ph⟩ } .quiet
  /-- The handler sends its frame. -/
  | answer {w : W} {A : Malloc} {fd : ℤ} {ph : Phase} {kv : KvStore} {f : Frame}
      (stage : s.stage w = .handling fd)
      (go : (s.server.phase w).go A s.server.kv = some (ph, kv, some f)) :
      Taken s (.go w A)
        { s with
          server := ⟨kv, Function.update s.server.phase w ph⟩
          stage := Function.update s.stage w (.answered fd) } (.answered w fd f)
  | close {w : W} {fd : ℤ} (stage : s.stage w = .answered fd) :
      Taken s (.close w)
        { s with sockets := s.sockets.erase fd, stage := Function.update s.stage w .closed }
        (.closed w fd)
  | free {w : W} {pool : Pool (Option W)} {ev : PoolEvent} (stage : s.stage w = .closed)
      (step : s.pool.step (.free (some w)) = some (pool, ev)) :
      Taken s (.free w) { s with pool, stage := Function.update s.stage w .fetch } .quiet
  | quit {o : Option W} (read : ∀ w, o = some w → ∃ fd ∈ s.sockets, s.stage w = .opened fd) :
      Taken s (.quit o) { s with ended := true } .quiet

/-- A step is a turn that is taken. -/
theorem taken_of_step [DecidableEq W] {turn : Turn W} {s s' : Dbserver W} {e : Happening W}
    (h : s.step turn = some (s', e)) : s.ended = false ∧ s.Taken turn s' e := by
  unfold step at h
  split_ifs at h with hended
  refine ⟨Bool.eq_false_iff.mpr hended, ?_⟩
  -- One case for each turn, as `advance` has them.
  cases turn with
  | accept fd =>
    simp only [advance] at h
    split at h
    · rename_i haccepted htask
      split_ifs at h with hfail hfresh
      · obtain ⟨rfl, rfl⟩ := Prod.mk.inj (Option.some.inj h)
        exact hfail ▸ .fail haccepted htask
      · obtain ⟨rfl, rfl⟩ := Prod.mk.inj (Option.some.inj h)
        exact .accept haccepted htask hfresh.1 hfresh.2
    · cases h
  | create A next =>
    simp only [advance, Option.bind_eq_bind, Option.bind_eq_some_iff, Option.some.injEq,
      Prod.mk.injEq] at h
    obtain ⟨fd, hfd, ⟨pool, ev⟩, hpool, rfl, rfl⟩ := h
    exact .create hfd hpool
  | enqueue =>
    simp only [advance, Option.bind_eq_bind, Option.bind_eq_some_iff, Option.some.injEq,
      Prod.mk.injEq] at h
    obtain ⟨⟨pool, ev⟩, hpool, rfl, rfl⟩ := h
    exact .enqueue hpool
  | dequeue w =>
    simp only [advance, Option.bind_eq_bind, Option.bind_eq_some_iff, Option.some.injEq,
      Prod.mk.injEq] at h
    obtain ⟨⟨pool, ev⟩, hpool, rfl, rfl⟩ := h
    simp only [Pool.step] at hpool
    split at hpool
    · rename_i hplace htask
      exact .dequeue hplace htask hpool
    · cases hpool
  | recheck w =>
    simp only [advance, Option.bind_eq_bind, Option.bind_eq_some_iff, Option.some.injEq,
      Prod.mk.injEq] at h
    obtain ⟨⟨pool, ev⟩, hpool, rfl, rfl⟩ := h
    simp only [Pool.step] at hpool
    split at hpool
    · rename_i hplace
      exact .recheck hplace hpool
    · cases hpool
  | spurious w =>
    simp only [advance, Option.bind_eq_bind, Option.bind_eq_some_iff, Option.some.injEq,
      Prod.mk.injEq] at h
    obtain ⟨⟨pool, ev⟩, hpool, rfl, rfl⟩ := h
    cases hplace : s.pool.place (some w) with
    | waiting => exact .spurious hplace hpool
    | outside | woken | inside =>
      simp only [Pool.step, hplace] at hpool
      cases hpool
  | dispatch w =>
    simp only [advance] at h
    split at h
    · rename_i hstage
      simp only [Option.bind_eq_bind, Option.bind_eq_some_iff, Option.some.injEq,
        Prod.mk.injEq] at h
      obtain ⟨p, hp, task, htask, rfl, rfl⟩ := h
      exact .dispatch hstage hp htask
    · cases h
  | receive w rq =>
    simp only [advance] at h
    split at h
    · rename_i fd rq hstage
      split_ifs at h with hopen
      simp only [serve] at h
      split at h
      · rename_i hphase
        obtain ⟨rfl, rfl⟩ := Prod.mk.inj (Option.some.inj h)
        exact .receive hstage hopen hphase
      · cases h
    · rename_i fd hstage
      obtain ⟨rfl, rfl⟩ := Prod.mk.inj (Option.some.inj h)
      exact .refuse hstage
    · cases h
  | go w A =>
    simp only [advance] at h
    split at h
    · rename_i fd hstage
      simp only [serve, Option.bind_eq_bind, Option.bind_eq_some_iff] at h
      obtain ⟨⟨server, m⟩, ⟨⟨ph, kv, f⟩, hgo, heq⟩, h⟩ := h
      obtain ⟨rfl, rfl⟩ := Prod.mk.inj (Option.some.inj heq)
      cases f with
      | none =>
        obtain ⟨rfl, rfl⟩ := Prod.mk.inj (Option.some.inj h)
        exact .go hstage hgo
      | some f =>
        obtain ⟨rfl, rfl⟩ := Prod.mk.inj (Option.some.inj h)
        exact .answer hstage hgo
    · cases h
  | close w =>
    simp only [advance] at h
    split at h
    · rename_i fd hstage
      obtain ⟨rfl, rfl⟩ := Prod.mk.inj (Option.some.inj h)
      exact .close hstage
    · cases h
  | free w =>
    simp only [advance] at h
    split at h
    · rename_i hstage
      simp only [Option.bind_eq_bind, Option.bind_eq_some_iff, Option.some.injEq,
        Prod.mk.injEq] at h
      obtain ⟨⟨pool, ev⟩, hpool, rfl, rfl⟩ := h
      exact .free hstage hpool
    · cases h
  | quit o =>
    cases o with
    | none =>
      obtain ⟨rfl, rfl⟩ := Prod.mk.inj (Option.some.inj h)
      exact .quit fun w hw => by cases hw
    | some w =>
      simp only [advance] at h
      split at h
      · rename_i fd hstage
        split_ifs at h with hopen
        obtain ⟨rfl, rfl⟩ := Prod.mk.inj (Option.some.inj h)
        exact .quit fun w' hw => ⟨fd, hopen, Option.some.inj hw ▸ hstage⟩
      · cases h

/-- A process that runs takes every turn that can be taken. -/
theorem Taken.step_eq [DecidableEq W] {turn : Turn W} {s s' : Dbserver W} {e : Happening W}
    (h : s.Taken turn s' e) (hrunning : s.ended = false) : s.step turn = some (s', e) := by
  rw [Dbserver.step, hrunning, if_neg Bool.false_ne_true]
  cases h with
  | fail haccepted htask => simp [advance, haccepted, htask]
  | @accept fd haccepted htask hnonneg hfresh =>
    have hne : fd ≠ -1 := by omega
    simp [advance, haccepted, htask, hnonneg, hfresh, hne]
  | create haccepted hpool => simp [advance, haccepted, hpool]
  | enqueue hpool => simp [advance, hpool]
  | dequeue hplace htask htest => simp [advance, Pool.step, hplace, htask, htest]
  | recheck hplace htest => simp [advance, Pool.step, hplace, htest]
  | spurious hplace hpool => simp [advance, hpool]
  | dispatch hstage hp htask => simp [advance, hstage, hp, htask]
  | receive hstage hopen hphase => simp [advance, hstage, hopen, serve, hphase]
  | refuse hstage => simp [advance, hstage]
  | go hstage hgo => simp [advance, hstage, serve, hgo]
  | answer hstage hgo => simp [advance, hstage, serve, hgo]
  | close hstage => simp [advance, hstage]
  | free hstage hpool => simp [advance, hstage, hpool]
  | @quit o hread =>
    cases o with
    | none => rfl
    | some w =>
      obtain ⟨fd, hopen, hstage⟩ := hread w rfl
      simp [advance, hstage, hopen]

/-- Nothing is open, and no thread has a call under way. -/
def init (W : Type) : Dbserver W := ⟨Pool.init _, serverInit W, ∅, none, fun _ => .fetch, false⟩

/-! ## Where the connections are -/

/-- The connection that the listener has: what `accept` has returned, or the task for it. -/
def listening (s : Dbserver W) : Option ℤ :=
  match s.accepted with
  | some fd => some fd
  | none => (s.pool.hand none).map Prod.snd

/-- The connection that a worker has, from `dequeue` until `close`. -/
def serving (s : Dbserver W) (w : W) : Option ℤ :=
  match s.stage w with
  | .fetch => (s.pool.hand (some w)).map Prod.snd
  | .opened fd | .handling fd | .answered fd => some fd
  | .closed => none

/-- The connection that a worker has answered and not closed. -/
def finishing (s : Dbserver W) (w : W) : Option ℤ :=
  match s.stage w with
  | .answered fd => some fd
  | _ => none

/-- The descriptors of the tasks in the queue. -/
def queued (l : List (ℕ × Task)) : List ℤ := l.map fun x => x.2.fd

/-- Every connection that has been accepted and not closed, wherever it is. -/
def inFlight [Fintype W] (s : Dbserver W) (l : List (ℕ × Task)) : Multiset ℤ :=
  (queued l : Multiset ℤ) + (s.listening.toList : Multiset ℤ) + carried s.serving

end Dbserver

/-! ## The history -/

namespace Happening

def accepted? : Happening W → Option ℤ
  | .accepted fd => some fd
  | _ => none

def dequeued? : Happening W → Option (W × ℤ)
  | .dequeued w fd => some (w, fd)
  | _ => none

def answered? : Happening W → Option (W × ℤ)
  | .answered w fd _ => some (w, fd)
  | _ => none

def closed? : Happening W → Option (W × ℤ)
  | .closed w fd => some (w, fd)
  | _ => none

def worker? : Happening W → Option W
  | .dequeued w _ | .answered w _ _ | .closed w _ => some w
  | .quiet | .accepted _ => none

end Happening

/-- What is a worker's own. -/
def own [DecidableEq W] (w : W) : Option (W × ℤ) → List ℤ
  | some (w', fd) => if w' = w then [fd] else []
  | none => []

/-- The connections accepted in a history, in order. -/
def acceptedIn (hist : List (Turn W × Happening W)) : List ℤ :=
  hist.flatMap fun x => x.2.accepted?.toList

/-- The connections dequeued in a history, in order. -/
def servedIn (hist : List (Turn W × Happening W)) : List ℤ :=
  hist.flatMap fun x => (x.2.dequeued?.map Prod.snd).toList

/-- The connections of a worker that a history shows in one way, in order. -/
def ownIn [DecidableEq W] (w : W) (f : Happening W → Option (W × ℤ))
    (hist : List (Turn W × Happening W)) : List ℤ := hist.flatMap fun x => own w (f x.2)

section

variable [DecidableEq W] {w w' : W} {e : Happening W}

/-- Nothing is nobody's. -/
@[simp]
theorem own_none : own w none = [] := rfl

/-- What a worker shows is its own. -/
@[simp]
theorem own_self (fd : ℤ) : own w (some (w, fd)) = [fd] := if_pos rfl

/-- A step of one worker does not show anything of another one. -/
theorem own_eq_nil (h : e.worker? ≠ some w) :
    own w e.dequeued? = [] ∧ own w e.answered? = [] ∧ own w e.closed? = [] := by
  cases e <;> simp_all [Happening.dequeued?, Happening.answered?, Happening.closed?,
    Happening.worker?, own]

/-- What all workers show together is what is shown. -/
theorem sum_own [Fintype W] (o : Option (W × ℤ)) :
    ∑ w, (own w o : Multiset ℤ) = (o.map Prod.snd).toList := by
  cases o with
  | none => exact Finset.sum_const_zero
  | some x => exact sum_ite_thread x.1 [x.2]

end

/-- One thing is counted once. -/
theorem count_toList (o : Option ℤ) (fd : ℤ) :
    (o.toList : Multiset ℤ).count fd = if o = some fd then 1 else 0 := by
  cases o with
  | none => rfl
  | some fd' => simp [Multiset.count_singleton, eq_comm]

namespace Dbserver

variable [Fintype W] [DecidableEq W] {s s' : Dbserver W} {l l' : List (ℕ × Task)}
  {e : Happening W} {w : W}

/-- What a step does to the connections: one that is accepted is new and goes to the listener, one
that is dequeued is the oldest, and a worker answers and closes the one that it has. -/
structure Balanced (s s' : Dbserver W) (l l' : List (ℕ × Task)) (e : Happening W) : Prop where
  queue : (e.dequeued?.map Prod.snd).toList ++ (queued l' ++ s'.listening.toList) =
    queued l ++ s.listening.toList ++ e.accepted?.toList
  served : ∀ w, own w e.closed? ++ (s'.serving w).toList = (s.serving w).toList ++ own w e.dequeued?
  answered : ∀ w,
    own w e.closed? ++ (s'.finishing w).toList = (s.finishing w).toList ++ own w e.answered?
  fresh : ∀ fd ≠ -1, e.accepted? = some fd → fd ∉ s.sockets
  sockets : ∀ fd ≠ -1, fd ∈ s'.sockets ↔
    (fd ∈ s.sockets ∧ e.closed?.map Prod.snd ≠ some fd) ∨ e.accepted? = some fd

/-- What is closed leaves the connections on their way, and what is accepted joins them. -/
theorem Balanced.inFlight (h : Balanced s s' l l' e) :
    ((e.closed?.map Prod.snd).toList : Multiset ℤ) + s'.inFlight l' =
      s.inFlight l + (e.accepted?.toList : Multiset ℤ) := by
  -- The balance of the queue and that of the workers, as multisets of descriptors.
  have hqueue : ((e.dequeued?.map Prod.snd).toList : Multiset ℤ) +
    (queued l' + s'.listening.toList) =
      queued l + s.listening.toList + (e.accepted?.toList : Multiset ℤ) := by
    simpa only [Multiset.coe_add] using congrArg (fun l : List ℤ => (l : Multiset ℤ)) h.queue
  have hserved := carried_step h.served
  rw [sum_own, sum_own] at hserved
  refine add_left_cancel (a := ((e.dequeued?.map Prod.snd).toList : Multiset ℤ)) ?_
  calc ((e.dequeued?.map Prod.snd).toList : Multiset ℤ) +
        ((e.closed?.map Prod.snd).toList + s'.inFlight l')
      = (e.dequeued?.map Prod.snd).toList + (queued l' + s'.listening.toList) +
          ((e.closed?.map Prod.snd).toList + carried s'.serving) := by
        rw [Dbserver.inFlight]
        ac_rfl
    _ = queued l + s.listening.toList + e.accepted?.toList +
          (carried s.serving + (e.dequeued?.map Prod.snd).toList) := by
        rw [hqueue, hserved]
    _ = (e.dequeued?.map Prod.snd).toList + (s.inFlight l + e.accepted?.toList) := by
        rw [Dbserver.inFlight]
        ac_rfl

/-- Every descriptor that is open belongs to one connection. -/
def Apart (s : Dbserver W) (l : List (ℕ × Task)) : Prop :=
  ∀ fd ≠ -1, (s.inFlight l).count fd = if fd ∈ s.sockets then 1 else 0

/-- A step keeps the descriptors on their way apart. -/
theorem Balanced.apart (h : Balanced s s' l l' e) (hs : s.Apart l) : s'.Apart l' := by
  intro fd hfd
  have hcount := congrArg (Multiset.count fd) h.inFlight
  rw [Multiset.count_add, Multiset.count_add, hs fd hfd, count_toList, count_toList] at hcount
  have hopen := h.sockets fd hfd
  -- `fd` is accepted, closed, or neither; in each case its count follows the open sockets.
  by_cases haccepted : e.accepted? = some fd
  · have hnot : e.closed?.map Prod.snd ≠ some fd := by
      cases e <;> simp_all [Happening.accepted?, Happening.closed?]
    rw [if_neg hnot, if_neg (h.fresh fd hfd haccepted), if_pos haccepted] at hcount
    rw [if_pos (hopen.mpr (.inr haccepted))]
    omega
  · by_cases hclosed : e.closed?.map Prod.snd = some fd
    · have hnot : fd ∉ s'.sockets := fun hmem => by
        rcases hopen.mp hmem with ⟨-, hne⟩ | hmem
        · exact hne hclosed
        · exact haccepted hmem
      rw [if_pos hclosed, if_neg haccepted] at hcount
      rw [if_neg hnot]
      split_ifs at hcount <;> omega
    · have hsame : fd ∈ s'.sockets ↔ fd ∈ s.sockets := by simp [hopen, hclosed, haccepted]
      rw [if_neg hclosed, if_neg haccepted] at hcount
      simp only [hsame]
      omega

omit [Fintype W] [DecidableEq W] in
/-- The descriptors in the queue are those of the tasks in it. -/
theorem queued_eq (l : List (ℕ × Task)) : queued l = (l.map shown).map Prod.snd := by
  simp [queued, shown]

omit [Fintype W] in
/-- A step of a worker, which leaves the connections of the others where they are. -/
theorem Balanced.worker (hstage : ∀ w' ≠ w, s'.stage w' = s.stage w')
    (hhand : ∀ t ≠ some w, s'.pool.hand t = s.pool.hand t) (haccepted : s'.accepted = s.accepted)
    (he : e = .quiet ∨ e.worker? = some w)
    (hqueue : (e.dequeued?.map Prod.snd).toList ++ queued l' = queued l)
    (hserved : own w e.closed? ++ (s'.serving w).toList = (s.serving w).toList ++ own w e.dequeued?)
    (hanswered :
      own w e.closed? ++ (s'.finishing w).toList = (s.finishing w).toList ++ own w e.answered?)
    (hsockets : ∀ fd, fd ∈ s'.sockets ↔ fd ∈ s.sockets ∧ e.closed?.map Prod.snd ≠ some fd) :
    Balanced s s' l l' e := by
  -- A turn of worker `w` leaves the listener and the other workers alone.
  have hlistening : s'.listening = s.listening := by
    rw [listening, listening, haccepted, hhand none (by simp)]
  have hnew : e.accepted? = none := by
    cases e <;> simp_all [Happening.accepted?, Happening.worker?]
  have hother : ∀ w' ≠ w, e.worker? ≠ some w' := by
    rintro w' hne heq
    rcases he with rfl | he
    · cases heq
    · exact hne (Option.some.inj (heq.symm.trans he))
  refine ⟨?_, fun w' => ?_, fun w' => ?_, fun fd _ hfd => by simp [hnew] at hfd, fun fd _ => ?_⟩
  · rw [hlistening, hnew, Option.toList_none, List.append_nil, ← List.append_assoc, hqueue]
  · obtain rfl | hne := eq_or_ne w' w
    · exact hserved
    · obtain ⟨hdequeued, -, hclosed⟩ := own_eq_nil (hother w' hne)
      rw [hdequeued, hclosed, serving, serving, hstage w' hne, hhand _ (by simpa using hne),
        List.nil_append, List.append_nil]
  · obtain rfl | hne := eq_or_ne w' w
    · exact hanswered
    · obtain ⟨-, hanswered, hclosed⟩ := own_eq_nil (hother w' hne)
      rw [hanswered, hclosed, finishing, finishing, hstage w' hne, List.nil_append, List.append_nil]
  · rw [hsockets, hnew]
    simp

/-- What holds of the server, where `l` are the tasks in the queue. -/
structure Inv (s : Dbserver W) (l : List (ℕ × Task)) : Prop where
  pool : PoolInv s.pool l
  owned : s.pool.Owned l
  apart : s.Apart l
  sockets : ∀ fd ∈ s.sockets, 0 ≤ fd
  /-- The listener has no task while it has a descriptor that is in none. -/
  accepted : s.accepted ≠ none → s.pool.hand none = none
  /-- A worker past `dequeue` has a task. -/
  task : ∀ w, s.stage w ≠ .fetch → s.pool.hand (some w) ≠ none
  /-- A handler is at work for a worker that has read its request. -/
  phase : ∀ w, s.server.phase w ≠ .idle ↔ ∃ fd, s.stage w = .handling fd

omit [DecidableEq W] in
/-- The invariant holds at the start. -/
theorem inv_init : Inv (Dbserver.init W) [] where
  pool := poolInv_init
  owned p hp := absurd hp Finmap.notMem_empty
  apart fd _ := by
    have hserving : carried (Dbserver.init W).serving = 0 := carried_eq_zero fun _ => rfl
    rw [Dbserver.inFlight, hserving]
    rfl
  sockets fd h := absurd h (Finset.notMem_empty fd)
  accepted h := by simp [Dbserver.init] at h
  task w h := by simp [Dbserver.init] at h
  phase w := by simp [Dbserver.init, serverInit]

/-! ## One step -/

omit [DecidableEq W] in
/-- The listener has no descriptor outside of a task while it has a task. -/
theorem Inv.accepted_eq_none (h : s.Inv l) {x : ℕ × ℤ} (hhand : s.pool.hand none = some x) :
    s.accepted = none := by
  by_contra hne
  rw [h.accepted hne] at hhand
  cases hhand

omit [DecidableEq W] in
/-- A worker without a task is before or in `dequeue`. -/
theorem Inv.stage_eq_fetch (h : s.Inv l) (hnone : s.pool.task (some w) = none) :
    s.stage w = .fetch := by
  by_contra hne
  exact h.task w hne (Pool.hand_none hnone)

/-- A step of the pool by a worker. -/
theorem Inv.pool_worker (h : s.Inv l) {pool : Pool (Option W)} {x y : Option (ℕ × ℤ)}
    {given : List (ℕ × ℤ)} (hmoves : Pool.Moves (some w) x y [] given s.pool pool l l')
    (hstage : s.stage w = .fetch) (he : e = .quiet ∨ e.worker? = some w)
    (hclosed : e.closed? = none) (hanswered : e.answered? = none)
    (hown : own w e.dequeued? = given.map Prod.snd)
    (hgiven : (e.dequeued?.map Prod.snd).toList = given.map Prod.snd)
    (hxy : (y.map Prod.snd).toList = (x.map Prod.snd).toList ++ given.map Prod.snd) :
    ({ s with pool } : Dbserver W).Inv l' ∧ Balanced s { s with pool } l l' e := by
  have hhand : ∀ t ≠ some w, pool.hand t = s.pool.hand t := fun t ht => by
    rw [hmoves.after, Function.update_of_ne ht]
  have hbalanced : Balanced s { s with pool } l l' e := by
    refine .worker (w := w) (fun _ _ => rfl) hhand rfl he ?_ ?_ ?_ fun fd => ?_
    · rw [hgiven, queued_eq, queued_eq, ← List.map_append, hmoves.queue, List.append_nil]
    · simp only [serving, hstage, hmoves.after, Function.update_self, hmoves.before, hclosed, hown,
        own_none, List.nil_append, hxy]
    · rw [hanswered, hclosed, own_none, List.nil_append, List.append_nil]
      rfl
    · simp [hclosed]
  -- The invariant: the pool's part is given, the rest looks at `w` alone.
  refine ⟨⟨hmoves.inv, hmoves.owned h.owned, hbalanced.apart h.apart, h.sockets, fun hne => ?_,
    fun w' hne => ?_, h.phase⟩, hbalanced⟩
  · rw [hhand none (by simp)]
    exact h.accepted hne
  · have hne' : w' ≠ w := by
      rintro rfl
      exact hne hstage
    rw [hhand _ (by simpa using hne')]
    exact h.task w' hne

/-- `dequeue`, from its start or after a wait. -/
theorem Inv.test (h : s.Inv l) {pool : Pool (Option W)} {ev : PoolEvent}
    (hnone : s.pool.task (some w) = none) (htest : s.pool.test (some w) = some (pool, ev)) :
    ∃ l', ({ s with pool } : Dbserver W).Inv l' ∧
    Balanced s { s with pool } l l' (ev.happening w) := by
  have hstage := h.stage_eq_fetch hnone
  rcases h.pool.moves_test hnone htest with ⟨rfl, -, hmoves⟩ | ⟨x, l', rfl, -, hmoves⟩
  · exact ⟨l, h.pool_worker hmoves hstage (.inl rfl) rfl rfl rfl rfl rfl⟩
  · exact ⟨l', h.pool_worker hmoves hstage (.inr rfl) rfl rfl (own_self _) rfl rfl⟩

omit [Fintype W] in
/-- A step of the listener, which leaves the connections of the workers where they are. -/
theorem Balanced.listener (hstage : s'.stage = s.stage)
    (hhand : ∀ t ≠ none, s'.pool.hand t = s.pool.hand t) (hdequeued : e.dequeued? = none)
    (hclosed : e.closed? = none) (hanswered : e.answered? = none)
    (hqueue : queued l' ++ s'.listening.toList = queued l ++ s.listening.toList ++
      e.accepted?.toList)
    (hfresh : ∀ fd ≠ -1, e.accepted? = some fd → fd ∉ s.sockets)
    (hsockets : ∀ fd ≠ -1, fd ∈ s'.sockets ↔ fd ∈ s.sockets ∨ e.accepted? = some fd) :
    Balanced s s' l l' e := by
  have hserving : s'.serving = s.serving := by
    funext w
    rw [serving, serving, hstage, hhand _ (by simp)]
  have hfinishing : s'.finishing = s.finishing := by
    funext w
    rw [finishing, finishing, hstage]
  refine ⟨?_, fun w => ?_, fun w => ?_, hfresh, fun fd hfd => ?_⟩
  · rw [hdequeued, Option.map_none, Option.toList_none, List.nil_append, hqueue]
  · rw [hserving, hclosed, hdequeued, own_none, List.nil_append, List.append_nil]
  · rw [hfinishing, hclosed, hanswered, own_none, List.nil_append, List.append_nil]
  · rw [hsockets fd hfd, hclosed]
    simp

/-- A step of the pool by the listener. -/
theorem Inv.pool_listener (h : s.Inv l) {pool : Pool (Option W)} {x y : Option (ℕ × ℤ)}
    {got : List (ℕ × ℤ)} {accepted : Option ℤ}
    (hmoves : Pool.Moves none x y got [] s.pool pool l l') (haccepted : accepted = none)
    (hxy : got.map Prod.snd ++ (y.map Prod.snd).toList = s.listening.toList) :
    ({ s with pool, accepted } : Dbserver W).Inv l' ∧
      Balanced s { s with pool, accepted } l l' .quiet := by
  have hhand : ∀ t ≠ none, pool.hand t = s.pool.hand t := fun t ht => by
    rw [hmoves.after, Function.update_of_ne ht]
  have hbalanced : Balanced s { s with pool, accepted } l l' .quiet := by
    refine .listener rfl hhand rfl rfl rfl ?_ (by simp [Happening.accepted?])
      (by simp [Happening.accepted?])
    have hqueue := congrArg (List.map Prod.snd) hmoves.queue
    rw [List.nil_append, List.map_append] at hqueue
    simp only [listening, haccepted, hmoves.after, Function.update_self, Happening.accepted?,
      Option.toList_none, List.append_nil]
    rw [queued_eq, hqueue, List.append_assoc, hxy, ← queued_eq]
    rfl
  -- A turn of the listener leaves every worker's hand as it was.
  refine ⟨⟨hmoves.inv, hmoves.owned h.owned, hbalanced.apart h.apart, h.sockets,
    fun hne => absurd haccepted hne, fun w hne => ?_, h.phase⟩, hbalanced⟩
  rw [hhand _ (by simp)]
  exact h.task w hne

/-- A step of a worker in `dispatch`. -/
theorem Inv.dispatch (h : s.Inv l) {server : Server W} {sockets : Finset ℤ} {stage : W → Stage}
    (hhand : s.pool.hand (some w) ≠ none) (hstage : ∀ w' ≠ w, stage w' = s.stage w')
    (hphase : ∀ w' ≠ w, server.phase w' = s.server.phase w')
    (hself : server.phase w ≠ .idle ↔ ∃ fd, stage w = .handling fd)
    (he : e = .quiet ∨ e.worker? = some w) (hdequeued : e.dequeued? = none)
    (hserved :
      own w e.closed? ++ (serving ⟨s.pool, server, sockets, s.accepted, stage, s.ended⟩ w).toList =
      (s.serving w).toList)
    (hanswered : own w e.closed? ++
      (finishing ⟨s.pool, server, sockets, s.accepted, stage, s.ended⟩ w).toList =
      (s.finishing w).toList ++ own w e.answered?)
    (hsockets : ∀ fd, fd ∈ sockets ↔ fd ∈ s.sockets ∧ e.closed?.map Prod.snd ≠ some fd) :
    Inv ⟨s.pool, server, sockets, s.accepted, stage, s.ended⟩ l ∧
      Balanced s ⟨s.pool, server, sockets, s.accepted, stage, s.ended⟩ l l e := by
  have hbalanced : Balanced s ⟨s.pool, server, sockets, s.accepted, stage, s.ended⟩ l l e := by
    refine .worker hstage (fun _ _ => rfl) rfl he ?_ ?_ hanswered hsockets
    · rw [hdequeued]
      rfl
    · rw [hserved, hdequeued, own_none, List.append_nil]
  refine ⟨⟨h.pool, h.owned, hbalanced.apart h.apart, fun fd hfd => ?_, h.accepted, fun w' hne => ?_,
    fun w' => ?_⟩, hbalanced⟩
  · exact h.sockets fd ((hsockets fd).mp hfd).1
  · obtain rfl | hne' := eq_or_ne w' w
    · exact hhand
    · simp only [hstage w' hne'] at hne
      exact h.task w' hne
  · obtain rfl | hne' := eq_or_ne w' w
    · exact hself
    · simp only [hstage w' hne', hphase w' hne']
      exact h.phase w'

/-- The end of the process leaves everything in its place. -/
theorem Inv.quit (h : s.Inv l) :
    ({ s with ended := true } : Dbserver W).Inv l ∧
    Balanced s { s with ended := true } l l .quiet := by
  have hbalanced : Balanced s { s with ended := true } l l .quiet :=
    .listener rfl (fun _ _ => rfl) rfl rfl rfl (List.append_nil _).symm
      (by simp [Happening.accepted?])
      (by simp [Happening.accepted?])
  exact ⟨⟨h.pool, h.owned, hbalanced.apart h.apart, h.sockets, h.accepted, h.task, h.phase⟩,
    hbalanced⟩

/-- `accept` gives the listener a descriptor that is not open, or -1, which is handed on like
one. -/
theorem Inv.accept (h : s.Inv l) {fd : ℤ} {sockets : Finset ℤ} (haccepted : s.accepted = none)
    (htask : s.pool.task none = none) (hfresh : fd ≠ -1 → fd ∉ s.sockets)
    (hsockets : ∀ fd' ≠ -1, fd' ∈ sockets ↔ fd' ∈ s.sockets ∨ fd = fd')
    (hnonneg : ∀ fd' ∈ sockets, 0 ≤ fd') :
    ({ s with accepted := some fd, sockets } : Dbserver W).Inv l ∧
      Balanced s { s with accepted := some fd, sockets } l l (.accepted fd) := by
  have hlistening : s.listening = none := by
    rw [listening, haccepted, Pool.hand_none htask]
    rfl
  have hbalanced : Balanced s { s with accepted := some fd, sockets } l l (.accepted fd) := by
    refine .listener rfl (fun _ _ => rfl) rfl rfl rfl ?_ (fun fd' hne heq => ?_) fun fd' hne => ?_
    · rw [hlistening, Option.toList_none, List.append_nil]
      rfl
    · obtain rfl := Option.some.inj heq
      exact hfresh hne
    · rw [hsockets fd' hne, Happening.accepted?, Option.some_inj]
  exact ⟨⟨h.pool, h.owned, hbalanced.apart h.apart, hnonneg, fun _ => Pool.hand_none htask, h.task,
    h.phase⟩, hbalanced⟩

/-- `free` of the task that a worker is done with. -/
theorem Inv.free (h : s.Inv l) {pool : Pool (Option W)} {x : ℕ × ℤ}
    (hmoves : Pool.Moves (some w) (some x) none [] [] s.pool pool l l)
    (hstage : s.stage w = .closed) :
    ({ s with pool, stage := Function.update s.stage w .fetch } : Dbserver W).Inv l ∧
      Balanced s { s with pool, stage := Function.update s.stage w .fetch } l l .quiet := by
  have hhand : ∀ t ≠ some w, pool.hand t = s.pool.hand t := fun t ht => by
    rw [hmoves.after, Function.update_of_ne ht]
  have hself : pool.hand (some w) = none := by rw [hmoves.after, Function.update_self]
  have hbalanced : Balanced s { s with pool, stage := Function.update s.stage w .fetch } l l
      .quiet := by
    refine .worker (w := w) (fun w' hne => Function.update_of_ne hne ..) hhand rfl (.inl rfl) rfl
      ?_ ?_ (by simp [Happening.closed?])
    · simp [serving, hstage, hself, Happening.closed?, Happening.dequeued?]
    · simp [finishing, hstage, Happening.closed?, Happening.answered?]
  refine ⟨⟨hmoves.inv, hmoves.owned h.owned, hbalanced.apart h.apart, h.sockets, fun hne => ?_,
    fun w' hne => ?_, fun w' => ?_⟩, hbalanced⟩
  · rw [hhand none (by simp)]
    exact h.accepted hne
  -- The worker fetches again and needs no task; the others are where they were.
  · obtain rfl | hne' := eq_or_ne w' w
    · simp at hne
    · simp only [Function.update_of_ne hne'] at hne
      rw [hhand _ (by simpa using hne')]
      exact h.task w' hne
  · rw [h.phase w']
    obtain rfl | hne' := eq_or_ne w' w
    · simp [hstage]
    · simp only [Function.update_of_ne hne']

/-- One step of one thread keeps the invariant, and every connection in its place. -/
theorem Inv.step {turn : Turn W} (h : s.Inv l) (hstep : s.step turn = some (s', e)) :
    ∃ l', s'.Inv l' ∧ Balanced s s' l l' e := by
  cases (taken_of_step hstep).2 with
  | fail haccepted htask =>
    refine ⟨l, h.accept haccepted htask (absurd rfl) (fun fd' hne => ?_) h.sockets⟩
    exact (or_iff_left hne.symm).symm
  | accept haccepted htask hnonneg hfresh =>
    refine ⟨l, h.accept haccepted htask (fun _ => hfresh) (fun fd' _ => ?_) fun fd' hmem => ?_⟩
    · rw [Finset.mem_insert, or_comm, eq_comm]
    · rcases Finset.mem_insert.mp hmem with rfl | hmem
      · exact hnonneg
      · exact h.sockets fd' hmem
  | create hfd hpool =>
    obtain ⟨p, hmoves⟩ := h.pool.moves_create hpool
    refine ⟨l, h.pool_listener hmoves rfl ?_⟩
    rw [listening, hfd]
    rfl
  | enqueue hpool =>
    obtain ⟨x, l', hmoves⟩ := h.pool.moves_enqueue hpool
    have haccepted := h.accepted_eq_none hmoves.before
    refine ⟨l', h.pool_listener hmoves haccepted ?_⟩
    rw [listening, haccepted, hmoves.before]
    rfl
  | dequeue hplace hnone htest => exact h.test hnone htest
  | recheck hplace htest => exact h.test (h.pool.idle _ (by simp [hplace])) htest
  | @spurious w pool ev hplace hpool =>
    have hstage := h.stage_eq_fetch (h.pool.idle (some w) (by simp [hplace]))
    exact ⟨l, h.pool_worker (h.pool.moves_spurious hpool) hstage (.inl rfl) rfl rfl rfl rfl
      (List.append_nil _).symm⟩
  -- The worker begins to read; the request has not arrived.
  | @dispatch w p task hstage hp htask =>
    have hhand : s.pool.hand (some w) = some (p, task.fd) := by
      simp only [Pool.hand, hp, htask, Option.bind_eq_bind, Option.bind_some]
    have hidle : ¬ s.server.phase w ≠ .idle := by simp [h.phase, hstage]
    refine ⟨l, h.dispatch (by simp [hhand]) (fun w' hne => Function.update_of_ne hne ..)
      (fun _ _ => rfl) (by simp [hidle]) (.inl rfl) rfl ?_ ?_ (by simp [Happening.closed?])⟩
    · simp [serving, hstage, hhand, Happening.closed?]
    · simp [finishing, hstage, Happening.closed?, Happening.answered?]
  | @receive w fd rq hstage hopen hphase =>
    have hbusy : rq.phase ≠ .idle := by cases rq <;> exact Phase.noConfusion
    refine ⟨l, h.dispatch (h.task w (by simp [hstage]))
      (fun w' hne => Function.update_of_ne hne ..) (fun w' hne => Function.update_of_ne hne ..)
      (by simp [hbusy]) (.inl rfl) rfl ?_ ?_ (by simp [Happening.closed?])⟩
    · simp [serving, hstage, Happening.closed?]
    · simp [finishing, hstage, Happening.closed?, Happening.answered?]
  | @refuse w fd hstage =>
    have hidle : ¬ s.server.phase w ≠ .idle := by simp [h.phase, hstage]
    refine ⟨l, h.dispatch (h.task w (by simp [hstage]))
      (fun w' hne => Function.update_of_ne hne ..) (fun _ _ => rfl) (by simp [hidle]) (.inr rfl)
      rfl ?_ ?_ (by simp [Happening.closed?])⟩
    · simp [serving, hstage, Happening.closed?]
    · simp [finishing, hstage, Happening.closed?, Happening.answered?]
  | @go w A fd ph kv hstage hgo =>
    have hdone := (Phase.go_next hgo).1
    exact ⟨l, h.dispatch (h.task w (by simp [hstage])) (fun _ _ => rfl)
      (fun w' hne => Function.update_of_ne hne ..) (by simp [hdone, hstage]) (.inl rfl) rfl rfl
      (List.append_nil _).symm (by simp [Happening.closed?])⟩
  | @answer w A fd ph kv f hstage hgo =>
    have hdone := (Phase.go_next hgo).1
    refine ⟨l, h.dispatch (h.task w (by simp [hstage]))
      (fun w' hne => Function.update_of_ne hne ..) (fun w' hne => Function.update_of_ne hne ..)
      (by simp [hdone]) (.inr rfl) rfl ?_ ?_ (by simp [Happening.closed?])⟩
    · simp [serving, hstage, Happening.closed?]
    · simp [finishing, hstage, Happening.closed?, Happening.answered?]
  | @close w fd hstage =>
    have hidle : ¬ s.server.phase w ≠ .idle := by simp [h.phase, hstage]
    refine ⟨l, h.dispatch (h.task w (by simp [hstage]))
      (fun w' hne => Function.update_of_ne hne ..) (fun _ _ => rfl) (by simp [hidle]) (.inr rfl)
      rfl ?_ ?_ fun fd' => ?_⟩
    · simp [serving, hstage, Happening.closed?]
    · simp [finishing, hstage, Happening.closed?, Happening.answered?]
    · simp [Happening.closed?, and_comm, eq_comm]
  | free hstage hpool =>
    obtain ⟨x, hmoves⟩ := h.pool.moves_free hpool
    exact ⟨l, h.free hmoves hstage⟩
  | quit => exact ⟨l, h.quit⟩

end Dbserver

/-! ## Runs -/

variable [Fintype W] [DecidableEq W] {turns : List (Turn W)} {s : Dbserver W}
  {hist : List (Turn W × Happening W)}

/-- What the history tells of the connections in `s`, where `l` are the tasks in the queue. -/
structure Accounted (s : Dbserver W) (l : List (ℕ × Task)) (hist : List (Turn W × Happening W)) :
    Prop where
  /-- Connections are dequeued in the order in which they are accepted. -/
  fifo : servedIn hist ++ (Dbserver.queued l ++ s.listening.toList) = acceptedIn hist
  /-- A worker closes each connection that it has dequeued, before it dequeues another one. -/
  closed : ∀ w, ownIn w Happening.dequeued? hist =
    ownIn w Happening.closed? hist ++ (s.serving w).toList
  /-- A worker answers each connection once, before it closes it. -/
  answered : ∀ w, ownIn w Happening.answered? hist =
    ownIn w Happening.closed? hist ++ (s.finishing w).toList

omit [Fintype W] in
/-- One more step adds what it shows. -/
theorem ownIn_concat (w : W) (f : Happening W → Option (W × ℤ)) (x : Turn W × Happening W) :
    ownIn w f (hist ++ [x]) = ownIn w f hist ++ own w (f x.2) := by
  simp [ownIn]

omit [Fintype W] in
/-- One more step is accounted for. -/
theorem Accounted.concat {s' : Dbserver W} {l l' : List (ℕ × Task)} {e : Happening W}
    {turn : Turn W} (h : Accounted s l hist) (hstep : s.Balanced s' l l' e) :
    Accounted s' l' (hist ++ [(turn, e)]) := by
  refine ⟨?_, fun w => ?_, fun w => ?_⟩
  · calc servedIn (hist ++ [(turn, e)]) ++ (Dbserver.queued l' ++ s'.listening.toList)
        = servedIn hist ++ ((e.dequeued?.map Prod.snd).toList ++
            (Dbserver.queued l' ++ s'.listening.toList)) := by simp [servedIn]
      _ = acceptedIn hist ++ e.accepted?.toList := by rw [hstep.queue, ← List.append_assoc, h.fifo]
      _ = acceptedIn (hist ++ [(turn, e)]) := by simp [acceptedIn]
  · rw [ownIn_concat, ownIn_concat, h.closed, List.append_assoc, ← hstep.served, List.append_assoc]
  · rw [ownIn_concat, ownIn_concat, h.answered, List.append_assoc, ← hstep.answered,
      List.append_assoc]

/-- Every run keeps the invariant, and is accounted for. -/
theorem accounted_of_run (hrun : run Dbserver.step turns (Dbserver.init W) = some (s, hist)) :
    ∃ l, s.Inv l ∧ Accounted s l hist := by
  refine run_invariant (fun hist s => ∃ l, s.Inv l ∧ Accounted s l hist) ?_ ?_ (meets_true _ _) hrun
  · rintro hist s turn s' e ⟨l, hs, h⟩ - hstep
    obtain ⟨l', hs', hbalanced⟩ := hs.step hstep
    exact ⟨l', hs', h.concat hbalanced⟩
  · exact ⟨[], Dbserver.inv_init, rfl, fun _ => rfl, fun _ => rfl⟩

/-- **No connection is served twice.** After any interleaving of the listener and any number of
workers, the end of the process by 'Q' or by the main thread included: connections have been
dequeued in the order in which they were accepted, and the ones that a worker has dequeued it has
answered once and closed once, in their order, up to the last one, which it may still be serving.
The open descriptors are those of the connections that have not been closed, which differ from each
other; and the tasks that are allocated are those in the queue and in a hand. -/
theorem connections_served (hrun : run Dbserver.step turns (Dbserver.init W) = some (s, hist)) :
    ∃ l, s.pool.q.Holds l ∧ Accounted s l hist ∧
      (∀ fd, fd ∈ s.sockets ↔ fd ≠ -1 ∧ fd ∈ s.inFlight l) ∧
      ((s.inFlight l).filter (· ≠ -1)).Nodup ∧
      ∀ p, p ∈ s.pool.q.tasks ↔ p ∈ l.map Prod.fst ∨ ∃ t, s.pool.task t = some p := by
  obtain ⟨l, hs, h⟩ := accounted_of_run hrun
  refine ⟨l, hs.pool.holds, h, fun fd => ⟨fun hfd => ?_, fun ⟨hne, hfd⟩ => ?_⟩, ?_, fun p =>
    ⟨hs.owned p, ?_⟩⟩
  -- An open socket counts once among the connections in flight.
  · have hne : fd ≠ -1 := by
      have hnonneg := hs.sockets fd hfd
      omega
    have hcount := hs.apart fd hne
    rw [if_pos hfd] at hcount
    exact ⟨hne, Multiset.one_le_count_iff_mem.mp hcount.ge⟩
  -- A descriptor in flight is open, or its count would be 0.
  · by_contra hnot
    have hcount := hs.apart fd hne
    rw [if_neg hnot] at hcount
    exact Multiset.count_eq_zero.mp hcount hfd
  · refine Multiset.nodup_iff_count_le_one.mpr fun fd => ?_
    rw [Multiset.count_filter]
    split_ifs with hne
    · rw [hs.apart fd hne]
      split_ifs <;> omega
    · exact Nat.zero_le 1
  · rintro (hp | ⟨t, ht⟩)
    · obtain ⟨x, hx, rfl⟩ := List.mem_map.mp hp
      exact Finmap.mem_of_lookup_eq_some (hs.pool.holds.lookup hx)
    · exact (hs.pool.task t p ht).1

/-- A worker waits; a connection comes, is served, and is closed; the next one gets the same
descriptor, and then `accept` fails. -/
def connectionsRun : List (Turn Bool) :=
  [.dequeue true, .accept 4, .create (above 0) (some 9), .enqueue, .recheck true, .dispatch true,
    .receive true (some (.write nameAb keyAb)), .go true ⟨above 0, above 0⟩,
      .go true ⟨above 0, above 0⟩,
    .close true, .accept 4, .create (above 0) none, .enqueue, .free true, .dequeue false,
      .accept (-1),
    .create (above 0) none, .dispatch false, .receive false none, .enqueue]

/-- The run of the server above, with what holds after it. -/
theorem connections_served_connectionsRun : ∃ s hist l,
    run Dbserver.step connectionsRun (Dbserver.init Bool) = some (s, hist) ∧ s.pool.q.Holds l ∧
      Accounted s l hist := by
  obtain ⟨⟨s, hist⟩, hrun⟩ : ∃ res, run Dbserver.step connectionsRun (Dbserver.init Bool) =
    some res :=
    Option.isSome_iff_exists.mp (by decide +kernel)
  obtain ⟨l, hholds, h, -⟩ := connections_served hrun
  exact ⟨s, hist, l, hrun, hholds, h⟩

/-- A client sends 'Q': its connection stays with the worker, the one behind it in the queue, and
there are no more steps. -/
example : ((run Dbserver.step [.accept 4, .create (above 0) none, .enqueue, .accept 5,
    .create (above 0) none, .enqueue, .dequeue true, .dispatch true, .quit (some true)]
    (Dbserver.init Bool)).map fun x => (x.1.serving true, x.1.sockets, x.1.pool.q.count,
      (x.1.step (.dequeue false)).isSome)) = some (some 4, {4, 5}, 1, false) := by
  decide +kernel

end Cs5600.Lab3
