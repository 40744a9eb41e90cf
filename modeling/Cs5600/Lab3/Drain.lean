import Cs5600.Lab3.Connections
import Mathlib.Algebra.BigOperators.Ring.Finset
import Mathlib.Algebra.Order.BigOperators.Group.Finset

/-!
# No connection is left behind

The threads of `dbserver.c` again, from any state they can be in, when no more connections come.
Each step but a wakeup for no reason makes the work that is left smaller (`Dbserver.workLeft`), so
every schedule of the threads comes to an end. What stops them is a client that sends 'Q', which
ends the process, or one that keeps its connection and sends nothing, for which a worker stays in
`read`: as long as another connection is on its way and a worker is free for it, some thread can
take its next step. When neither happens every connection that was accepted is answered and closed
at the end (`connections_drain`).
-/

namespace Cs5600.Lab3

variable {W : Type} [DecidableEq W] [Fintype W]

namespace Dbserver

/-- The steps that a worker has still to take with its connection, and to wait for the next one. -/
def workerLeft (s : Dbserver W) (w : W) : ℕ :=
  match s.stage w with
  | .fetch =>
    if (s.pool.hand (some w)).isSome then 9
    else if (s.pool.place (some w)).isWaiting then 0 else 1
  | .opened _ => 8
  | .handling _ => 3 + (s.server.phase w).left
  | .answered _ => 3
  | .closed => 2

/-- The steps that a connection in the hands of the listener is still away from its end. `enqueue`
may wake all workers. -/
def listenerLeft (s : Dbserver W) : ℕ :=
  if s.accepted.isSome then 12 + Fintype.card W
  else if (s.pool.hand none).isSome then 11 + Fintype.card W else 0

/-- The steps that are left to the threads when no more connections come. -/
def workLeft (s : Dbserver W) : ℕ :=
  s.listenerLeft + 10 * s.pool.q.count.toNat + ∑ w, s.workerLeft w

end Dbserver

/-- A step with the connections that there are: none is accepted, no thread wakes for no reason, and
neither the main thread nor a signal ends the process. -/
def Turn.GoesOn : Turn W → Prop
  | .accept _ | .spurious _ | .quit none => False
  | _ => True

/-- The step frees no value cell that a worker in `handle_read` still has to read. -/
def FreesNone (s : Dbserver W) : Turn W → Prop
  | .go w A => FreesUnneeded s.server (.go w A)
  | _ => True

instance (s : Dbserver W) : ∀ turn, Decidable (FreesNone s turn)
  | .go w A => inferInstanceAs (Decidable (FreesUnneeded s.server (.go w A)))
  | .accept _ | .create _ _ | .enqueue | .dequeue _ | .recheck _ | .spurious _ | .dispatch _
  | .receive _ _ | .close _ | .free _ | .quit _ => isTrue trivial

/-- What the client of a connection does. -/
inductive Client where
  /-- It sends a request that `dispatch` has a handler for, and the value of a write. -/
  | asks (rq : Request)
  /-- It sends something else, or closes before the request is whole. -/
  | fails
  /-- It sends 'Q'. -/
  | quits
  /-- It neither sends a whole request nor closes, and `read` does not return. -/
  | silent

/-- What `dispatch` has read from a client, if it goes on. -/
def Client.sent : Client → Option (Option Request)
  | .asks rq => some (some rq)
  | .fails => some none
  | .quits | .silent => none

/-- What a worker reads is what the client at its descriptor sends; `read` fails on a descriptor
that is not open. -/
def Obeys (ask : ℤ → Client) (s : Dbserver W) : Turn W → Prop
  | .receive w rq => ∀ fd, s.stage w = .opened fd →
      (if fd ∈ s.sockets then (ask fd).sent else some none) = some rq
  | .quit (some w) => ∀ fd, s.stage w = .opened fd → ask fd = .quits
  | _ => True

variable {s s' : Dbserver W} {l l' : List (ℕ × Task)} {e : Happening W} {w : W} {turn : Turn W}

/-! ## Every step counts -/

/-- `malloc` leaves the threads where they are. -/
theorem Pool.place_create {T : Type} [DecidableEq T] {s s' : Pool T} {t : T} {A : Allocator}
    {next : Option ℕ} {fd : ℤ} {ev : PoolEvent} (h : s.step (.create t A next fd) = some (s', ev)) :
    s'.place = s.place := by
  simp only [Pool.step] at h
  split at h
  · simp only [Heap.malloc, Option.some_inj, Prod.mk.injEq] at h
    rw [← h.1]
  · cases h

/-- `enqueue` wakes all threads that wait. -/
theorem Pool.place_enqueue {T : Type} [DecidableEq T] {s s' : Pool T} {t : T} {ev : PoolEvent}
    (h : s.step (.enqueue t) = some (s', ev)) : s'.place = Place.broadcast s.place := by
  simp only [Pool.step] at h
  split at h
  · simp only [Option.bind_eq_bind, Option.bind_eq_some_iff, Option.some_inj, Prod.mk.injEq] at h
    obtain ⟨_, -, _, -, rfl, -⟩ := h
    rfl
  · cases h

/-- `free` leaves the threads where they are. -/
theorem Pool.place_free {T : Type} [DecidableEq T] {s s' : Pool T} {t : T} {ev : PoolEvent}
    (h : s.step (.free t) = some (s', ev)) : s'.place = s.place := by
  simp only [Pool.step] at h
  split at h
  · simp only [Option.bind_eq_bind, Option.bind_eq_some_iff, Option.some_inj, Prod.mk.injEq] at h
    obtain ⟨_, -, rfl, -⟩ := h
    rfl
  · cases h

namespace Dbserver

/-- A step of a worker that makes its own work less, and leaves that of the others. -/
theorem workLeft_lt {n : ℕ} (hlistener : s'.listenerLeft = s.listenerLeft)
    (hcount : 10 * s'.pool.q.count.toNat = 10 * s.pool.q.count.toNat - n)
    (hother : ∀ w' ≠ w, s'.workerLeft w' = s.workerLeft w')
    (hw : s'.workerLeft w < s.workerLeft w + n)
    (hn : n ≤ 10 * s.pool.q.count.toNat) : s'.workLeft < s.workLeft := by
  have hsum := sum_change hother
  rw [workLeft, workLeft]
  omega

omit [DecidableEq W] [Fintype W] in
/-- A worker that a step does not touch has as many steps left. -/
theorem workerLeft_congr (hstage : s'.stage w = s.stage w)
    (hhand : s'.pool.hand (some w) = s.pool.hand (some w))
    (hplace : s'.pool.place (some w) = s.pool.place (some w))
    (hphase : s'.server.phase w = s.server.phase w) : s'.workerLeft w = s.workerLeft w := by
  rw [workerLeft, workerLeft, hstage, hhand, hplace, hphase]

omit [DecidableEq W] in
/-- A listener that a step does not touch has as many steps left. -/
theorem listenerLeft_congr (haccepted : s'.accepted = s.accepted)
    (hhand : s'.pool.hand none = s.pool.hand none) : s'.listenerLeft = s.listenerLeft := by
  rw [listenerLeft, listenerLeft, haccepted, hhand]

/-- A step of a worker in `dispatch`. -/
theorem Inv.dispatch_lt {server : Server W} {sockets : Finset ℤ} {stage : W → Stage}
    (hstage : ∀ w' ≠ w, stage w' = s.stage w')
    (hphase : ∀ w' ≠ w, server.phase w' = s.server.phase w')
    (hw : workerLeft ⟨s.pool, server, sockets, s.accepted, stage, s.ended⟩ w < s.workerLeft w) :
    workLeft ⟨s.pool, server, sockets, s.accepted, stage, s.ended⟩ < s.workLeft :=
  workLeft_lt (n := 0) rfl rfl
    (fun w' hne => workerLeft_congr (hstage w' hne) rfl rfl (hphase w' hne)) hw
    (Nat.zero_le _)

/-- `dequeue`, from its start or after a wait. -/
theorem Inv.test_lt (h : s.Inv l) {pool : Pool (Option W)} {ev : PoolEvent}
    (hnone : s.pool.task (some w) = none) (hplace : (s.pool.place (some w)).isWaiting = false)
    (htest : s.pool.test (some w) = some (pool, ev)) :
    ({ s with pool } : Dbserver W).workLeft < s.workLeft := by
  have hstage := h.stage_eq_fetch hnone
  have hone : s.workerLeft w = 1 := by
    simp [workerLeft, hstage, Pool.hand_none hnone, hplace]
  rcases h.pool.moves_test hnone htest with ⟨-, rfl, hmoves⟩ | ⟨x, l', -, hplace', hmoves⟩
  · refine workLeft_lt (w := w) (n := 0) rfl rfl (fun w' hne => ?_) ?_ (Nat.zero_le _)
    · refine workerLeft_congr rfl rfl (Function.update_of_ne ?_ ..) rfl
      simpa using hne
    · have hwaits : workerLeft { s with pool := { s.pool with
          place := Function.update s.pool.place (some w) (.waiting ()) } } w = 0 := by
        have hhand : Pool.hand { s.pool with
            place := Function.update s.pool.place (some w) (.waiting ()) } (some w) = none :=
          Pool.hand_none hnone
        simp [workerLeft, hstage, hhand, Place.isWaiting]
      exact lt_of_eq_of_lt hwaits (by omega)
  -- The queue is one shorter, and the worker has a task.
  · have hlen := congrArg List.length hmoves.queue
    simp only [List.length_append, List.length_map, List.length_cons, List.length_nil] at hlen
    have hcount := h.pool.holds.count
    have hcount' := hmoves.inv.holds.count
    have hhand : ∀ t ≠ some w, pool.hand t = s.pool.hand t := fun t ht => by
      rw [hmoves.after, Function.update_of_ne ht]
    refine workLeft_lt (w := w) (n := 10) (listenerLeft_congr rfl (hhand none (by simp))) ?_
      (fun w' hne => workerLeft_congr rfl (hhand _ (by simpa using hne)) ?_ rfl) ?_ ?_
    · simp only
      omega
    · simp only [hplace']
      exact Function.update_of_ne (by simpa using hne) ..
    · have hnine : workerLeft { s with pool } w = 9 := by
        simp [workerLeft, hstage, hmoves.after]
      omega
    · omega

/-- `malloc` of a task takes the connection out of the hands of `accept`. -/
theorem Inv.create_lt (h : s.Inv l) {A : Allocator} {next : Option ℕ} {fd : ℤ}
    {pool : Pool (Option W)} {ev : PoolEvent} (hfd : s.accepted = some fd)
    (hpool : s.pool.step (.create none A next fd) = some (pool, ev)) :
    ({ s with pool, accepted := none } : Dbserver W).workLeft < s.workLeft := by
  obtain ⟨p, hmoves⟩ := h.pool.moves_create hpool
  have hcount : pool.q.count = s.pool.q.count := by
    rw [hmoves.inv.holds.count, h.pool.holds.count]
  have hworkers : ∀ w, workerLeft { s with pool, accepted := none } w = s.workerLeft w := fun w =>
    workerLeft_congr rfl
      (by simp only [hmoves.after, Function.update_of_ne (Option.some_ne_none w)])
      (congrFun (Pool.place_create hpool) _) rfl
  have hold : s.listenerLeft = 12 + Fintype.card W := by simp [listenerLeft, hfd]
  have hnew : listenerLeft { s with pool, accepted := none } = 11 + Fintype.card W := by
    simp [listenerLeft, hmoves.after]
  have hsum : ∑ w, workerLeft { s with pool, accepted := none } w = ∑ w, s.workerLeft w :=
    Finset.sum_congr rfl fun w _ => hworkers w
  rw [workLeft, workLeft, hold, hnew, hsum]
  simp only [hcount]
  omega

/-- `enqueue` makes the queue one longer, but the listener has nothing left to do. -/
theorem Inv.enqueue_lt (h : s.Inv l) {pool : Pool (Option W)} {ev : PoolEvent}
    (hpool : s.pool.step (.enqueue none) = some (pool, ev)) :
    ({ s with pool } : Dbserver W).workLeft < s.workLeft := by
  obtain ⟨x, l', hmoves⟩ := h.pool.moves_enqueue hpool
  have haccepted := h.accepted_eq_none hmoves.before
  have hlen := congrArg List.length hmoves.queue
  simp only [List.length_append, List.length_map, List.length_cons, List.length_nil] at hlen
  have hcount := h.pool.holds.count
  have hcount' := hmoves.inv.holds.count
  -- The broadcast gives every worker that waits one more step.
  have hworkers : ∑ w, workerLeft { s with pool } w ≤ ∑ w, s.workerLeft w + Fintype.card W := by
    rw [Fintype.card, Finset.card_eq_sum_ones, ← Finset.sum_add_distrib]
    refine Finset.sum_le_sum fun w _ => ?_
    have hhand : pool.hand (some w) = s.pool.hand (some w) := by
      rw [hmoves.after, Function.update_of_ne (Option.some_ne_none w)]
    cases hstage : s.stage w with
    | fetch =>
      simp only [workerLeft, hstage, hhand]
      split_ifs <;> omega
    | _ => simp [workerLeft, hstage]
  have hold : s.listenerLeft = 11 + Fintype.card W := by
    simp [listenerLeft, haccepted, hmoves.before]
  have hnew : listenerLeft { s with pool } = 0 := by
    simp [listenerLeft, haccepted, hmoves.after]
  rw [workLeft, workLeft, hold, hnew]
  simp only
  omega

/-- `free` is the last step of a worker with its connection. -/
theorem Inv.free_lt (h : s.Inv l) {pool : Pool (Option W)} {ev : PoolEvent}
    (hstage : s.stage w = .closed) (hpool : s.pool.step (.free (some w)) = some (pool, ev)) :
    ({ s with pool, stage := Function.update s.stage w .fetch } : Dbserver W).workLeft <
      s.workLeft := by
  obtain ⟨x, hmoves⟩ := h.pool.moves_free hpool
  have hcount : pool.q.count = s.pool.q.count := by
    rw [hmoves.inv.holds.count, h.pool.holds.count]
  have hhand : ∀ t ≠ some w, pool.hand t = s.pool.hand t := fun t ht => by
    rw [hmoves.after, Function.update_of_ne ht]
  have hself : pool.hand (some w) = none := by rw [hmoves.after, Function.update_self]
  refine Dbserver.workLeft_lt (w := w) (n := 0) (listenerLeft_congr rfl (hhand none (by simp)))
    (by simp only [hcount, Nat.sub_zero]) (fun w' hne => ?_) ?_ (Nat.zero_le _)
  · exact workerLeft_congr (Function.update_of_ne hne ..) (hhand _ (by simpa using hne))
      (congrFun (Pool.place_free hpool) _) rfl
  · simp only [workerLeft, hstage, Function.update_self, hself]
    split_ifs <;> simp_all

/-- Every step with the connections that there are makes the work less, if it does not end the
process. -/
theorem Inv.workLeft_lt (h : s.Inv l) (hgoes : turn.GoesOn) (hended : s'.ended = false)
    (hstep : s.Taken turn s' e) : s'.workLeft < s.workLeft := by
  cases hstep with
  | fail | accept | spurious => exact hgoes.elim
  | create hfd hpool => exact h.create_lt hfd hpool
  | enqueue hpool => exact h.enqueue_lt hpool
  | dequeue hplace hnone htest => exact h.test_lt hnone (by rw [hplace]; rfl) htest
  | recheck hplace htest =>
    exact h.test_lt (h.pool.idle _ (by simp [hplace])) (by rw [hplace]; rfl) htest
  | @dispatch w p task hstage hp htask =>
    have hhand : s.pool.hand (some w) = some (p, task.fd) := by
      simp only [Pool.hand, hp, htask, Option.bind_eq_bind, Option.bind_some]
    refine Inv.dispatch_lt (w := w) (fun w' hne => Function.update_of_ne hne ..)
      (fun _ _ => rfl) ?_
    simp [workerLeft, hstage, hhand]
  | @receive w fd rq hstage =>
    refine Inv.dispatch_lt (w := w) (fun w' hne => Function.update_of_ne hne ..)
      (fun w' hne => Function.update_of_ne hne ..) ?_
    cases rq <;> simp [workerLeft, hstage, Request.phase, Phase.left]
  | @refuse w fd hstage | @close w fd hstage =>
    refine Inv.dispatch_lt (w := w) (fun w' hne => Function.update_of_ne hne ..)
      (fun _ _ => rfl) ?_
    simp [workerLeft, hstage]
  | @go w A fd ph kv hstage hgo =>
    have hlt := (Phase.go_next hgo).2
    refine Inv.dispatch_lt (w := w) (fun _ _ => rfl)
      (fun w' hne => Function.update_of_ne hne ..) ?_
    simpa [workerLeft, hstage] using hlt
  | @answer w A fd ph kv f hstage hgo =>
    have hlt := (Phase.go_next hgo).2
    refine Inv.dispatch_lt (w := w) (fun w' hne => Function.update_of_ne hne ..)
      (fun w' hne => Function.update_of_ne hne ..) ?_
    simp only [workerLeft, hstage, Function.update_self]
    omega
  | free hstage hpool => exact h.free_lt hstage hpool
  | quit => cases hended

/-- The steps that are left, with the one that may end the process. -/
def stepsLeft (s : Dbserver W) : ℕ := if s.ended then 0 else s.workLeft + 1

/-- Every step with the connections that there are leaves fewer steps. -/
theorem Inv.stepsLeft_lt (h : s.Inv l) (hgoes : turn.GoesOn) (hstep : s.step turn = some (s', e)) :
    s'.stepsLeft < s.stepsLeft := by
  obtain ⟨hrunning, hstep⟩ := taken_of_step hstep
  have hold : s.stepsLeft = s.workLeft + 1 := by simp [stepsLeft, hrunning]
  cases hended : s'.ended with
  | true =>
    have hnew : s'.stepsLeft = 0 := by simp [stepsLeft, hended]
    omega
  | false =>
    have hnew : s'.stepsLeft = s'.workLeft + 1 := by simp [stepsLeft, hended]
    have hlt := h.workLeft_lt hgoes hended hstep
    omega

/-! ## Every connection can go on -/

/-- The listener is not in `dequeue`, and the body of `dequeue` is one step. -/
structure Seated (s : Dbserver W) : Prop where
  listener : s.pool.place none = .outside
  inside : ∀ t, s.pool.place t ≠ .inside ()

omit [Fintype W] in
/-- No step moves the listener into `dequeue`, or stops in the middle of it. -/
theorem Seated.step (h : s.Seated) (hstep : s.step turn = some (s', e)) : s'.Seated := by
  -- Only the pool's turns move a thread, and none of them puts one inside.
  have hsame : s'.pool.place = s.pool.place → s'.Seated := fun heq =>
    ⟨heq ▸ h.listener, fun t => heq ▸ h.inside t⟩
  have hone : ∀ w p, p ≠ .inside () → s'.pool.place = Function.update s.pool.place (some w) p →
      s'.Seated := by
    intro w p hp heq
    refine ⟨?_, fun t => ?_⟩
    · rw [heq, Function.update_of_ne (Option.some_ne_none w).symm]
      exact h.listener
    · rw [heq, Function.update_apply]
      split_ifs
      · exact hp
      · exact h.inside t
  -- `dequeue` sleeps or leaves.
  have htest : ∀ w pool ev, s.pool.test (some w) = some (pool, ev) → s'.pool = pool →
    s'.Seated := by
    rintro w pool ev htest rfl
    simp only [Pool.test] at htest
    split_ifs at htest
    · obtain ⟨hpool, -⟩ := Prod.mk.inj (Option.some.inj htest)
      exact hone w (.waiting ()) (by simp) (by rw [← hpool])
    · simp only [Option.bind_eq_bind, Option.bind_eq_some_iff, Option.some_inj,
        Prod.mk.injEq] at htest
      obtain ⟨_, -, _, -, hpool, -⟩ := htest
      exact hone w .outside (by simp) (by rw [← hpool])
  cases (taken_of_step hstep).2 with
  | create hfd hpool => exact hsame (Pool.place_create hpool)
  | enqueue hpool =>
    -- The broadcast wakes the sleepers, who are then at the door.
    have hplace := Pool.place_enqueue hpool
    refine ⟨?_, fun t => ?_⟩
    · simp [hplace, Place.broadcast, h.listener, Place.wake]
    · simp [hplace, Place.broadcast, h.inside t]
  | free hstage hpool => exact hsame (Pool.place_free hpool)
  | dequeue hplace hnone hpool => exact htest _ _ _ hpool rfl
  | recheck hplace hpool => exact htest _ _ _ hpool rfl
  | spurious hplace hpool =>
    simp only [Pool.step, hplace, Option.some_inj, Prod.mk.injEq] at hpool
    obtain ⟨rfl, -⟩ := hpool
    exact hone _ _ (by simp [hplace, Place.wake]) rfl
  | _ => exact hsame rfl

omit [Fintype W] in
/-- The store and the handlers take at most one step. -/
theorem step_server (hstep : s.step turn = some (s', e)) : s'.server = s.server ∨
    ∃ i m, serve i s.server = some (s'.server, m) ∧
    (FreesNone s turn → FreesUnneeded s.server i) := by
  -- Only the reads and the work of a worker reach the server.
  cases (taken_of_step hstep).2 with
  | @receive w fd rq hstage hopen hphase =>
    exact .inr ⟨.receive w rq, ⟨none, s.server.kv⟩, by simp only [serve, hphase], fun _ => trivial⟩
  | @go w A fd ph kv hstage hgo =>
    refine .inr ⟨.go w A, ⟨none, kv⟩, ?_, id⟩
    simp only [serve, hgo, Option.bind_eq_bind, Option.bind_some]
  | @answer w A fd ph kv f hstage hgo =>
    refine .inr ⟨.go w A, ⟨some f, kv⟩, ?_, id⟩
    simp only [serve, hgo, Option.bind_eq_bind, Option.bind_some]
  | _ => exact .inl rfl

/-- A worker in `read`, for a client that sends nothing. -/
def Blocked (ask : ℤ → Client) (s : Dbserver W) (w : W) : Prop :=
  ∃ fd ∈ s.sockets, s.stage w = .opened fd ∧ ask fd = .silent

/-- Only clients that send nothing hold a connection up: the listener has none, each worker has none
or waits for such a client, and one in the queue has no worker that is free for it. -/
structure HeldUp (ask : ℤ → Client) (s : Dbserver W) (l : List (ℕ × Task)) : Prop where
  accepted : s.accepted = none
  listener : s.pool.hand none = none
  worker : ∀ w, s.Blocked ask w ∨ s.stage w = .fetch ∧ s.pool.hand (some w) = none
  queue : l = [] ∨ ∀ w, s.Blocked ask w

/-- No connection is on its way. -/
structure Drained (s : Dbserver W) (l : List (ℕ × Task)) : Prop where
  accepted : s.accepted = none
  listener : s.pool.hand none = none
  queue : l = []
  stage : ∀ w, s.stage w = .fetch
  worker : ∀ w, s.pool.hand (some w) = none

/-- Some thread can take its next step with what the clients send. -/
def CanGoOn (ask : ℤ → Client) (s : Dbserver W) : Prop :=
  ∃ turn, Turn.GoesOn turn ∧ FreesNone s turn ∧ Obeys ask s turn ∧ (s.step turn).isSome

variable {ask : ℤ → Client} {shist : List (Input W × Moment)}

omit [DecidableEq W] [Fintype W] in
/-- No worker is held up where every client sends something or closes. -/
theorem HeldUp.drained [Nonempty W] (h : s.HeldUp ask l)
    (hask : ∀ fd ∈ s.sockets, ask fd ≠ .silent) :
    s.Drained l := by
  have hfree : ∀ w, ¬ s.Blocked ask w := fun w ⟨fd, hopen, _, hsilent⟩ => hask fd hopen hsilent
  have hworker := fun w => (h.worker w).resolve_left (hfree w)
  obtain ⟨w⟩ := ‹Nonempty W›
  exact ⟨h.accepted, h.listener, h.queue.resolve_right fun hall => hfree w (hall w),
    fun w => (hworker w).1, fun w => (hworker w).2⟩

omit [DecidableEq W] [Fintype W] in
/-- A handler that has the pointer of `kv_read` frees nothing. -/
theorem freesOf_eq_none {ph : Phase} (h : ph.needs ≠ none) : ph.freesOf = none := by
  cases ph <;> simp_all [Phase.needs, Phase.freesOf]

omit [Fintype W] in
/-- A turn that can be taken lets the threads go on. -/
theorem Taken.canGoOn (h : s.Taken turn s' e) (hrunning : s.ended = false) (hgoes : turn.GoesOn)
    (hfree : FreesNone s turn) (hobeys : Obeys ask s turn) : s.CanGoOn ask :=
  ⟨turn, hgoes, hfree, hobeys, Option.isSome_iff_exists.mpr ⟨_, h.step_eq hrunning⟩⟩

omit [Fintype W] in
/-- A handler at work can take its next step, and a reader goes first. -/
theorem canGoOn_handling (hserver : ServerInv shist s.server) (hrunning : s.ended = false) {fd : ℤ}
    (hphase : s.server.phase w ≠ .idle) (hstage : s.stage w = .handling fd)
    (hfree : ∀ A, FreesUnneeded s.server (.go w A)) : s.CanGoOn ask := by
  obtain ⟨c, hc⟩ := hserver.linked
  obtain ⟨⟨ph, kv, f⟩, hgo⟩ := (hserver.phase w).go_returns (A := ⟨above 0, above 0⟩) hc hphase
  cases f with
  | none =>
    exact (Taken.go hstage hgo).canGoOn hrunning trivial (hfree ⟨above 0, above 0⟩) trivial
  | some f =>
    exact (Taken.answer hstage hgo).canGoOn hrunning trivial (hfree ⟨above 0, above 0⟩) trivial

/-- Some handler at work can take its next step. -/
theorem Inv.canGoOn_handler (h : s.Inv l) (hserver : ServerInv shist s.server)
    (hrunning : s.ended = false) (hhandling : ∃ w fd, s.stage w = .handling fd) :
    s.CanGoOn ask := by
  by_cases hreads : ∃ w fd, s.stage w = .handling fd ∧ (s.server.phase w).freesOf = none
  · obtain ⟨w, fd, hstage, hnone⟩ := hreads
    refine canGoOn_handling hserver hrunning ((h.phase w).mpr ⟨fd, hstage⟩) hstage
      fun A k hk => ?_
    rw [hnone] at hk
    cases hk
  · obtain ⟨w, fd, hstage⟩ := hhandling
    refine canGoOn_handling hserver hrunning ((h.phase w).mpr ⟨fd, hstage⟩) hstage
      fun A k _ w' p hp => ?_
    -- Nobody has a pointer.
    refine absurd ?_ hreads
    have hbusy : s.server.phase w' ≠ .idle := by
      intro hidle
      rw [hidle] at hp
      cases hp
    obtain ⟨fd', hstage'⟩ := (h.phase w').mp hbusy
    refine ⟨w', fd', hstage', freesOf_eq_none ?_⟩
    rw [Option.mem_def.mp hp]
    exact Option.some_ne_none p

omit [Fintype W] in
/-- A worker that waits for its client can go on unless the client is silent. -/
theorem canGoOn_opened (hrunning : s.ended = false) {fd : ℤ} (hstage : s.stage w = .opened fd)
    (hidle : s.server.phase w = .idle) (hfree : ¬ s.Blocked ask w) : s.CanGoOn ask := by
  have hsock : ∀ fd', s.stage w = .opened fd' → fd' = fd := fun fd' heq =>
    Stage.opened.inj (heq.symm.trans hstage)
  by_cases hopen : fd ∈ s.sockets
  · cases hask : ask fd with
    | asks rq =>
      have htaken := @Taken.receive _ _ s w fd rq hstage hopen hidle
      refine htaken.canGoOn hrunning trivial trivial fun fd' heq => ?_
      rw [hsock fd' heq, if_pos hopen, hask, Client.sent]
    | fails =>
      refine (Taken.refuse hstage).canGoOn hrunning trivial trivial fun fd' heq => ?_
      rw [hsock fd' heq, if_pos hopen, hask, Client.sent]
    | quits =>
      refine (Taken.quit (o := some w) fun w' hw => ?_).canGoOn hrunning trivial trivial
        fun fd' heq => ?_
      · obtain rfl := Option.some.inj hw
        exact ⟨fd, hopen, hstage⟩
      · rw [hsock fd' heq, hask]
    | silent => exact absurd ⟨fd, hopen, hstage, hask⟩ hfree
  -- `read` fails on a descriptor that is not open.
  · refine (Taken.refuse hstage).canGoOn hrunning trivial trivial fun fd' heq => ?_
    rw [hsock fd' heq, if_neg hopen]

/-- A worker that has a connection can go on, if no handler is at work and no silent client holds it
up. -/
theorem Inv.canGoOn_worker (h : s.Inv l) (hrunning : s.ended = false)
    (hhandling : ¬ ∃ w fd, s.stage w = .handling fd) (hfree : ¬ s.Blocked ask w)
    (hw : s.stage w ≠ .fetch ∨ s.pool.hand (some w) ≠ none) : s.CanGoOn ask := by
  cases hstage : s.stage w with
  | fetch =>
    obtain ⟨p, task, hp, htask⟩ := h.pool.exists_task (hw.resolve_left fun hne => hne hstage)
    exact (Taken.dispatch hstage hp htask).canGoOn hrunning trivial trivial trivial
  | opened fd =>
    have hidle : s.server.phase w = .idle := by
      by_contra hne
      exact hhandling ⟨w, (h.phase w).mp hne⟩
    exact canGoOn_opened hrunning hstage hidle hfree
  | handling fd => exact absurd ⟨w, fd, hstage⟩ hhandling
  | answered fd => exact (Taken.close hstage).canGoOn hrunning trivial trivial trivial
  | closed =>
    obtain ⟨p, task, hp, htask⟩ := h.pool.exists_task (h.task w (by simp [hstage]))
    have hplace : s.pool.place (some w) = .outside := by
      by_contra hne
      rw [h.pool.idle _ hne] at hp
      cases hp
    have hfreed : (s.pool.step (.free (some w))).isSome := by
      simp [Pool.step, hplace, hp, Heap.free_of_lookup htask]
    obtain ⟨_, hfreed⟩ := Option.isSome_iff_exists.mp hfreed
    exact (Taken.free hstage hfreed).canGoOn hrunning trivial trivial trivial

/-- A worker without a task can dequeue one that there is. -/
theorem Inv.canGoOn_dequeue (h : s.Inv l) (hseated : s.Seated) (hrunning : s.ended = false)
    (hne : l ≠ []) (hhand : s.pool.hand (some w) = none) : s.CanGoOn ask := by
  have hcount : s.pool.q.count ≠ 0 := by
    rw [h.pool.holds.count]
    exact_mod_cast List.length_pos_iff.mpr hne |>.ne'
  have hnone := h.pool.task_eq_none hhand
  obtain ⟨pool, ev, -, htest, -⟩ := h.pool.test hnone
  have hwaits := h.pool.waiting hcount (some w)
  cases hplace : s.pool.place (some w) with
  | outside => exact (Taken.dequeue hplace hnone htest).canGoOn hrunning trivial trivial trivial
  | woken k => exact (Taken.recheck hplace htest).canGoOn hrunning trivial trivial trivial
  | waiting k =>
    rw [hplace] at hwaits
    cases hwaits
  | inside k => exact absurd hplace (hseated.inside (some w))

/-- The listener can go on with a connection that it has. -/
theorem Inv.canGoOn_listener (h : s.Inv l) (hseated : s.Seated) (hrunning : s.ended = false)
    (hhas : s.accepted ≠ none ∨ s.pool.hand none ≠ none) : s.CanGoOn ask := by
  cases haccepted : s.accepted with
  | some fd =>
    have hnone := h.pool.task_eq_none (h.accepted (by simp [haccepted]))
    have hcreated : (s.pool.step (.create none (above 0) none fd)).isSome := by
      simp [Pool.step, hseated.listener, hnone, Heap.malloc]
    obtain ⟨_, hcreated⟩ := Option.isSome_iff_exists.mp hcreated
    exact (Taken.create haccepted hcreated).canGoOn hrunning trivial trivial trivial
  | none =>
    obtain ⟨p, -, hp, -⟩ := h.pool.exists_task (hhas.resolve_left fun hne => hne haccepted)
    obtain ⟨q', -, task, htask, henq, -⟩ := h.pool.enqueue hp
    have hqueued : (s.pool.step (.enqueue none)).isSome := by
      simp [Pool.step, hseated.listener, hp, htask, henq]
    obtain ⟨_, hqueued⟩ := Option.isSome_iff_exists.mp hqueued
    exact (Taken.enqueue hqueued).canGoOn hrunning trivial trivial trivial

/-- As long as a connection is on its way that no silent client holds up, some thread can take its
next step. -/
theorem Inv.canGoOn (h : s.Inv l) (hseated : s.Seated) (hserver : ServerInv shist s.server)
    (hrunning : s.ended = false) (hleft : ¬ s.HeldUp ask l) : s.CanGoOn ask := by
  -- A handler is at work.
  by_cases hhandling : ∃ w fd, s.stage w = .handling fd
  · exact h.canGoOn_handler hserver hrunning hhandling
  -- A worker is in `dispatch`, or about to call it.
  by_cases hbusy : ∃ w, ¬ s.Blocked ask w ∧ (s.stage w ≠ .fetch ∨ s.pool.hand (some w) ≠ none)
  · obtain ⟨w, hfree, hw⟩ := hbusy
    exact h.canGoOn_worker hrunning hhandling hfree hw
  -- The listener has a connection.
  by_cases hhas : s.accepted ≠ none ∨ s.pool.hand none ≠ none
  · exact h.canGoOn_listener hseated hrunning hhas
  -- The queue has one, and a worker is free for it.
  obtain ⟨haccepted, hlistener⟩ := not_or.mp hhas
  have hworker : ∀ w, s.Blocked ask w ∨ s.stage w = .fetch ∧ s.pool.hand (some w) = none := by
    intro w
    by_contra hnot
    obtain ⟨hfree, hnot⟩ := not_or.mp hnot
    exact hbusy ⟨w, hfree, not_and_or.mp hnot⟩
  have hheld : l ≠ [] ∧ ¬ ∀ w, s.Blocked ask w := not_or.mp fun hqueue =>
    hleft ⟨not_not.mp haccepted, not_not.mp hlistener, hworker, hqueue⟩
  obtain ⟨w, hfree⟩ := not_forall.mp hheld.2
  exact h.canGoOn_dequeue hseated hrunning hheld.1 ((hworker w).resolve_left hfree).2

omit [DecidableEq W] in
/-- The work is bounded by the connections on their way. -/
theorem Inv.workLeft_le (h : s.Inv l) :
    s.workLeft ≤ (12 + Fintype.card W) * (s.inFlight l).card + 2 * Fintype.card W := by
  -- Each connection costs at most `12 + card W`, each worker 2 more.
  have hlistener : s.listenerLeft ≤ (12 + Fintype.card W) * s.listening.toList.length := by
    rw [listenerLeft, listening]
    cases s.accepted with
    | some fd => simp
    | none => cases s.pool.hand none <;> simp
  have hqueue : 10 * s.pool.q.count.toNat ≤ (12 + Fintype.card W) * (queued l).length := by
    rw [h.pool.holds.count, Int.toNat_natCast, queued, List.length_map]
    exact Nat.mul_le_mul_right _ (by omega)
  have hone : ∀ w, s.workerLeft w ≤ (12 + Fintype.card W) * (s.serving w).toList.length + 2 := by
    intro w
    rw [workerLeft, serving]
    cases s.stage w with
    | fetch =>
      cases s.pool.hand (some w) with
      | none =>
        simp only [Option.isSome_none, Bool.false_eq_true, if_false]
        split_ifs <;> omega
      | some x => simp; omega
    | handling fd =>
      have hleft : (s.server.phase w).left ≤ 4 := by cases s.server.phase w <;> simp [Phase.left]
      simp
      omega
    | opened | answered | closed => simp <;> omega
  -- Summed over the workers.
  have hworkers : ∑ w, s.workerLeft w ≤
      (12 + Fintype.card W) * (carried s.serving).card + 2 * Fintype.card W := by
    have hcard : (carried s.serving).card = ∑ w, (s.serving w).toList.length := by
      simp [carried]
    have hsum := Finset.sum_le_sum fun w (_ : w ∈ Finset.univ) => hone w
    rw [Finset.sum_add_distrib, ← Finset.mul_sum, Finset.sum_const, Finset.card_univ,
      Nat.nsmul_eq_mul] at hsum
    rw [hcard]
    omega
  rw [workLeft, inFlight, Multiset.card_add, Multiset.card_add, Multiset.coe_card,
    Multiset.coe_card, Nat.mul_add, Nat.mul_add]
  omega

omit [DecidableEq W] in
/-- The steps that are left are bounded too. -/
theorem Inv.stepsLeft_le (h : s.Inv l) : s.stepsLeft ≤
    (12 + Fintype.card W) * (s.inFlight l).card + 2 * Fintype.card W + 1 := by
  have hle := h.workLeft_le
  unfold stepsLeft
  split_ifs <;> omega

/-- What a run keeps, as long as no step frees a value cell that is still to be read. -/
structure Runs (s : Dbserver W) (hist : List (Turn W × Happening W)) : Prop where
  inv : ∃ l, s.Inv l ∧ Accounted s l hist
  seated : s.Seated
  server : ∃ shist, ServerInv shist s.server

/-- A run keeps the invariants of the threads and of the store. -/
theorem runs_of_run {turns : List (Turn W)} {hist : List (Turn W × Happening W)}
    (hfree : Meets Dbserver.step FreesNone turns (Dbserver.init W))
    (hrun : run Dbserver.step turns (Dbserver.init W) = some (s, hist)) : s.Runs hist := by
  refine run_invariant (fun hist s => s.Runs hist) ?_ ?_ hfree hrun
  · rintro hist s turn s' e ⟨⟨l, hs, h⟩, hseated, shist, hserver⟩ hnone hstep
    obtain ⟨l', hs', hbalanced⟩ := hs.step hstep
    refine ⟨⟨l', hs', h.concat hbalanced⟩, hseated.step hstep, ?_⟩
    rcases step_server hstep with heq | ⟨i, m, hserve, hfrees⟩
    · exact ⟨shist, heq ▸ hserver⟩
    · exact ⟨_, serve_inv hserver (hfrees hnone) hserve⟩
  · exact ⟨⟨[], inv_init, rfl, fun _ => rfl, fun _ => rfl⟩, ⟨rfl, fun _ h => by cases h⟩, [],
      serverInv_init⟩

/-- Nothing is open or allocated when no connection is on its way, and all of them are answered. -/
theorem Drained.all {hist : List (Turn W × Happening W)} (hd : s.Drained l) (h : s.Inv l)
    (hacc : Accounted s l hist) : s.sockets = ∅ ∧ s.pool.q.tasks = ∅ ∧
    servedIn hist = acceptedIn hist ∧
      ∀ w, ownIn w Happening.answered? hist = ownIn w Happening.dequeued? hist ∧
        ownIn w Happening.closed? hist = ownIn w Happening.dequeued? hist := by
  -- Nothing is served, finishing, accepted or queued, so nothing is in flight.
  have hserving : ∀ w, s.serving w = none := fun w => by
    rw [serving, hd.stage w, hd.worker w]
    rfl
  have hfinishing : ∀ w, s.finishing w = none := fun w => by rw [finishing, hd.stage w]
  have hlistening : s.listening = none := by
    rw [listening, hd.accepted, hd.listener]
    rfl
  have hqueued : queued l = [] := by rw [queued, hd.queue, List.map_nil]
  have hempty : s.inFlight l = 0 := by
    rw [inFlight, hqueued, hlistening, carried_eq_zero hserving]
    rfl
  refine ⟨Finset.eq_empty_of_forall_notMem fun fd hfd => ?_, ?_, ?_, fun w => ?_⟩
  · have hcount := h.apart fd (by have hnonneg := h.sockets fd hfd; omega)
    rw [if_pos hfd, hempty] at hcount
    cases hcount
  -- A task in the heap is queued or in a hand, and all of these are empty.
  · refine Finmap.ext_lookup fun p => ?_
    rw [Finmap.lookup_empty, Finmap.lookup_eq_none]
    intro hp
    rcases h.owned p hp with hmem | ⟨t, ht⟩
    · simp [hd.queue] at hmem
    · obtain ⟨task, -, hhand⟩ := h.pool.hand_eq ht
      cases t with
      | none =>
        rw [hd.listener] at hhand
        cases hhand
      | some w =>
        rw [hd.worker w] at hhand
        cases hhand
  · have hfifo := hacc.fifo
    rwa [hqueued, hlistening, Option.toList_none, List.append_nil, List.append_nil] at hfifo
  · have hclosed := hacc.closed w
    have hanswered := hacc.answered w
    rw [hserving w, Option.toList_none, List.append_nil] at hclosed
    rw [hfinishing w, Option.toList_none, List.append_nil] at hanswered
    exact ⟨hanswered.trans hclosed.symm, hclosed.symm⟩

end Dbserver

/-- **No connection is left behind.** In every state of a run in which no step frees a value cell
that a worker in `handle_read` still has to read, whatever each client does from then on: the
threads can take only so many more steps with the connections on their way, in any order. There is a
next one unless the process has ended or clients that send nothing hold up all that is left; and
where every client sends something or closes, all connections have then been dequeued, answered, and
closed, nothing is open, and nothing is allocated. -/
theorem connections_drain [Nonempty W] {turns : List (Turn W)} {hist : List (Turn W × Happening W)}
    (hfree : Meets Dbserver.step FreesNone turns (Dbserver.init W))
    (hrun : run Dbserver.step turns (Dbserver.init W) = some (s, hist)) (ask : ℤ → Client) :
    ∃ l, s.pool.q.Holds l ∧
      (∀ more s' hist', (∀ turn ∈ more, Turn.GoesOn turn) →
        run Dbserver.step more s = some (s', hist') →
        more.length ≤ (12 + Fintype.card W) * (s.inFlight l).card + 2 * Fintype.card W + 1) ∧
      (s.ended = true ∨ s.CanGoOn ask ∨ s.HeldUp ask l ∧
        ((∀ fd ∈ s.sockets, ask fd ≠ .silent) →
          s.sockets = ∅ ∧ s.pool.q.tasks = ∅ ∧ servedIn hist = acceptedIn hist ∧
            ∀ w, ownIn w Happening.answered? hist = ownIn w Happening.dequeued? hist ∧
              ownIn w Happening.closed? hist = ownIn w Happening.dequeued? hist)) := by
  obtain ⟨⟨l, hs, hacc⟩, hseated, shist, hserver⟩ := Dbserver.runs_of_run hfree hrun
  refine ⟨l, hs.pool.holds, fun more s' hist' hgoes hmore => ?_, ?_⟩
  -- Every turn that goes on takes one from `stepsLeft`.
  · have hlength := run_length_le (fun s => ∃ l, s.Inv l) Dbserver.stepsLeft
      (fun s turn s' e ⟨l, hl⟩ hturn hstep => ⟨(hl.step hstep).imp fun _ h => h.1,
        hl.stepsLeft_lt hturn hstep⟩) ⟨l, hs⟩ (Meets.of_forall hgoes s) hmore
    have hle := hs.stepsLeft_le
    omega
  · cases hended : s.ended with
    | true => exact .inl rfl
    | false =>
      refine .inr ?_
      by_cases hheld : s.HeldUp ask l
      · exact .inr ⟨hheld, fun hask => (hheld.drained hask).all hs hacc⟩
      · exact .inl (hs.canGoOn hseated hserver hended hheld)

/-- The run of the server above, and the bound on what is left of it. -/
theorem connections_drain_connectionsRun : ∃ s hist l,
    run Dbserver.step connectionsRun (Dbserver.init Bool) = some (s, hist) ∧ s.pool.q.Holds l ∧
      ∀ more s' hist', (∀ turn ∈ more, Turn.GoesOn turn) →
        run Dbserver.step more s = some (s', hist') →
        more.length ≤ 14 * (s.inFlight l).card + 5 := by
  obtain ⟨⟨s, hist⟩, hrun⟩ : ∃ res, run Dbserver.step connectionsRun (Dbserver.init Bool) =
    some res :=
    Option.isSome_iff_exists.mp (by decide +kernel)
  obtain ⟨l, hholds, hbound, -⟩ := connections_drain (by decide +kernel) hrun fun _ => .silent
  exact ⟨s, hist, l, hrun, hholds, hbound⟩

end Cs5600.Lab3
