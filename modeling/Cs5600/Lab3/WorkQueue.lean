import Cs5600.Lib.Basic
import Cs5600.Lib.CondVar
import Cs5600.Lib.Heap
import Cs5600.Lib.Run

/-!
# The work queue of the server

`queue.c`, with the threads that use it. The mutex `qm` makes `enqueue` one step and `dequeue` one
step, which `pthread_cond_wait` cuts in two. `listen_thread` allocates a task, sets its `fd`, and
enqueues it; its `next` is whatever the memory held. A worker dequeues a task and frees it when it
is done, so a later task may be at the same address.

`dequeue` does not reset `tail`, and when it takes the last task it leaves in `head` whatever that
task's `next` was. Neither is looked at while `count` is 0: the queue is a list segment of `count`
cells from `head` on, whose last cell is at `tail`.
-/

namespace Cs5600.Lab3

open Heap (Seg)

/-- `task_t`. -/
structure Task where
  next : Option ℕ
  fd : ℤ

/-- `queue_t`, with the tasks that are allocated. -/
structure Queue where
  head : Option ℕ
  tail : Option ℕ
  count : ℤ
  tasks : Heap Task

namespace Queue

/-- The queue as it is initialised, with all its bytes zero. -/
def zero : Queue := ⟨none, none, 0, ∅⟩

/-- `enqueue`, without the broadcast. -/
def enqueue (t : ℕ) (q : Queue) : Option Queue :=
  if q.count = 0 then some { q with head := some t, tail := some t, count := q.count + 1 }
  else do
    let tail ← q.tail
    let task ← q.tasks.lookup tail
    some { q with
      tasks := q.tasks.insert tail { task with next := some t }
      tail := some t
      count := q.count + 1 }

/-- The end of `dequeue`, after the loop: the task and the queue without it. -/
def take (q : Queue) : Option (ℕ × Queue) := do
  let curHead ← q.head
  let task ← q.tasks.lookup curHead
  some (curHead, { q with head := task.next, count := q.count - 1 })

end Queue

/-- The queue, where each thread is, and the task that a thread has in hand: one that it is about to
enqueue, or one that it has dequeued. -/
structure Pool (T : Type) where
  q : Queue
  place : T → Place Unit
  task : T → Option ℕ

/-- A step of a thread. -/
inductive PoolAction (T : Type) where
  /-- `malloc` of a task, with the `next` that the memory held and the `fd` that is set. -/
  | create (t : T) (A : Allocator) (next : Option ℕ) (fd : ℤ)
  | enqueue (t : T)
  | dequeue (t : T)
  /-- The return from `pthread_cond_wait`, with the test that follows. -/
  | recheck (t : T)
  | spurious (t : T)
  /-- `free` of the task in hand. -/
  | free (t : T)

/-- What a step shows of the queue: a task with its `fd`. -/
inductive PoolEvent where
  | quiet
  | enqueued (t : ℕ) (fd : ℤ)
  | dequeued (t : ℕ) (fd : ℤ)

variable {T : Type} [DecidableEq T]

namespace Pool

/-- The loop of `dequeue`: the thread waits, or takes the first task. -/
def test (s : Pool T) (t : T) : Option (Pool T × PoolEvent) :=
  if s.q.count = 0 then some ({ s with place := Function.update s.place t (.waiting ()) }, .quiet)
  else do
    let (p, q) ← s.q.take
    let task ← q.tasks.lookup p
    some (⟨q, Function.update s.place t .outside, Function.update s.task t (some p)⟩,
      .dequeued p task.fd)

/-- One step of one thread, where the thread is at the place for it. -/
def step : PoolAction T → Pool T → Option (Pool T × PoolEvent)
  -- `malloc` in `listen_thread`: the task is in the hand of the thread until it is queued.
  | .create t A next fd, s =>
    match s.place t, s.task t with
    | .outside, none =>
      let (p, tasks) := s.q.tasks.malloc A ⟨next, fd⟩
      some ({ s with q := { s.q with tasks }, task := Function.update s.task t (some p) }, .quiet)
    | _, _ => none
  -- `enqueue` signals with a broadcast before it leaves.
  | .enqueue t, s =>
    match s.place t, s.task t with
    | .outside, some p => do
      let task ← s.q.tasks.lookup p
      let q ← s.q.enqueue p
      some (⟨q, Place.broadcast s.place, Function.update s.task t none⟩, .enqueued p task.fd)
    | _, _ => none
  -- `dequeue`, from its first test of the count or from a later one.
  | .dequeue t, s =>
    match s.place t, s.task t with
    | .outside, none => s.test t
    | _, _ => none
  | .recheck t, s =>
    match s.place t with
    | .woken _ => s.test t
    | _ => none
  | .spurious t, s =>
    match s.place t with
    | .waiting _ => some ({ s with place := Place.wakeOne t s.place }, .quiet)
    | _ => none
  -- `free` of the task the thread has taken.
  | .free t, s =>
    match s.place t, s.task t with
    | .outside, some p => do
      let tasks ← s.q.tasks.free p
      some ({ s with q := { s.q with tasks }, task := Function.update s.task t none }, .quiet)
    | _, _ => none

/-- The queue is zero, and no thread has a call under way or a task. -/
def init (T : Type) : Pool T := ⟨.zero, fun _ => .outside, fun _ => none⟩

end Pool

/-! ## The queue as a list -/

/-- `l` are the tasks in the queue, in order, each with its address. -/
structure Queue.Holds (q : Queue) (l : List (ℕ × Task)) : Prop where
  seg : ∃ r, Seg Task.next q.tasks q.head l r
  nodup : (l.map Prod.fst).Nodup
  tail : ∀ l₀ x, l = l₀ ++ [x] → q.tail = some x.1
  count : q.count = l.length

/-- A task as the histories show it. -/
def shown (x : ℕ × Task) : ℕ × ℤ := (x.1, x.2.fd)

variable {q q' : Queue} {l : List (ℕ × Task)} {p : ℕ} {task : Task}

/-- A task in the queue is allocated. -/
theorem Queue.Holds.lookup (h : q.Holds l) {x : ℕ × Task} (hx : x ∈ l) :
    q.tasks.lookup x.1 = some x.2 := by
  obtain ⟨r, hseg⟩ := h.seg
  exact hseg.lookup hx

/-- The queue holds the same tasks in every heap that has them. -/
theorem Queue.Holds.frame (h : q.Holds l) {tasks : Heap Task}
    (hcell : ∀ x ∈ l, tasks.lookup x.1 = some x.2) : ({ q with tasks } : Queue).Holds l where
  seg := by
    obtain ⟨r, hseg⟩ := h.seg
    exact ⟨r, hseg.frame hcell⟩
  nodup := h.nodup
  tail := h.tail
  count := h.count

/-- `enqueue` of a task that is not in the queue puts it last. -/
theorem Queue.Holds.enqueue (h : q.Holds l) (hp : q.tasks.lookup p = some task)
    (hnot : p ∉ l.map Prod.fst) :
    ∃ q' l', q.enqueue p = some q' ∧ q'.Holds l' ∧ l'.map shown = l.map shown ++ [(p, task.fd)] ∧
      l'.map Prod.fst = l.map Prod.fst ++ [p] ∧ (∀ a, a ∈ q'.tasks ↔ a ∈ q.tasks) ∧
      ∀ a ∉ l.map Prod.fst, q'.tasks.lookup a = q.tasks.lookup a := by
  obtain ⟨r, hseg⟩ := h.seg
  have hcount := h.count
  rcases List.eq_nil_or_concat l with rfl | ⟨l₀, x, rfl⟩
  · -- `head` and `tail` are set, whatever they were.
    refine ⟨{ q with head := some p, tail := some p, count := q.count + 1 }, [(p, task)], ?_, ?_,
      rfl, rfl, fun _ => Iff.rfl, fun _ _ => rfl⟩
    · rw [Queue.enqueue, if_pos (by simpa using hcount)]
    · refine ⟨⟨task.next, rfl, hp, rfl⟩, List.nodup_singleton p, fun l₀ x hx => ?_, ?_⟩
      · obtain ⟨-, hlast⟩ := List.append_inj' (show [] ++ [(p, task)] = l₀ ++ [x] from hx) rfl
        obtain rfl := (List.cons.inj hlast).1
        rfl
      · simpa using hcount
  · rw [List.concat_eq_append] at *
    have htail := h.tail l₀ x rfl
    have hx := h.lookup (x := x) (by simp)
    have hne : q.count ≠ 0 := by
      rw [hcount, List.length_append, List.length_singleton]
      omega
    have hnodup := h.nodup
    rw [List.map_append, List.map_singleton, List.nodup_append] at hnodup
    have hx₀ : ∀ z ∈ l₀, z.1 ≠ x.1 := fun z hz =>
      hnodup.2.2 z.1 (List.mem_map_of_mem hz) x.1 List.mem_cons_self
    have hpx : p ≠ x.1 := by
      rintro rfl
      exact hnot (by simp)
    -- The last task gets to point to the new one, which points anywhere.
    have hnew : Seg Task.next q.tasks (some p) [(p, task)] task.next := ⟨rfl, hp, rfl⟩
    have hset := hseg.set (y := ⟨some p, x.2.fd⟩) hnew hx₀
      (by simpa using hpx)
    refine ⟨{ q with
        tasks := q.tasks.insert x.1 ⟨some p, x.2.fd⟩, tail := some p, count := q.count + 1 },
      l₀ ++ [(x.1, ⟨some p, x.2.fd⟩), (p, task)], ?_,
        ⟨⟨_, hset⟩, ?_, fun l₁ y hy => ?_, ?_⟩, ?_, ?_,
      fun a => ?_, fun a ha => ?_⟩
    · rw [Queue.enqueue, if_neg hne, htail, Option.bind_eq_bind, Option.bind_some, hx,
        Option.bind_eq_bind, Option.bind_some]
    · rw [show (l₀ ++ [(x.1, (⟨some p, x.2.fd⟩ : Task)), (p, task)]).map Prod.fst =
        (l₀ ++ [x]).map Prod.fst ++ [p] by simp]
      exact List.nodup_append_comm.mp (List.nodup_cons.mpr ⟨hnot, h.nodup⟩)
    · have hsplit : (l₀ ++ [(x.1, (⟨some p, x.2.fd⟩ : Task))]) ++ [(p, task)] = l₁ ++ [y] := by
        simpa using hy
      obtain rfl := (List.cons.inj (List.append_inj' hsplit rfl).2).1
      rfl
    · simp only [hcount, List.length_append, List.length_cons, List.length_nil]
      omega
    · simp [shown]
    · simp
    · rw [Finmap.mem_insert]
      exact ⟨fun ha => ha.elim (fun h => h ▸ Finmap.mem_of_lookup_eq_some hx) id, .inr⟩
    · refine Finmap.lookup_insert_of_ne _ ?_
      rintro rfl
      exact ha (by simp)

/-- `dequeue` of a queue that is not empty takes the first task. -/
theorem Queue.Holds.take (h : q.Holds l) (hne : q.count ≠ 0) :
    ∃ x l' q', l = x :: l' ∧ q.take = some (x.1, q') ∧ q'.Holds l' ∧ q'.tasks = q.tasks := by
  have hcount := h.count
  obtain ⟨r, hseg⟩ := h.seg
  cases l with
  | nil => exact absurd hcount hne
  | cons x l' =>
    obtain ⟨hhead, hx, hrest⟩ := hseg
    refine ⟨x, l', { q with head := x.2.next, count := q.count - 1 }, rfl, ?_,
      ⟨⟨r, hrest⟩, (List.nodup_cons.mp h.nodup).2, fun l₀ y hy => ?_, ?_⟩, rfl⟩
    · rw [Queue.take, hhead, Option.bind_eq_bind, Option.bind_some, hx, Option.bind_eq_bind,
        Option.bind_some]
    · exact h.tail (x :: l₀) y (by rw [hy, List.cons_append])
    · rw [List.length_cons] at hcount
      simp only
      omega

/-! ## The threads and the histories -/

/-- The task that an event puts into the queue. -/
def PoolEvent.enqueued? : PoolEvent → Option (ℕ × ℤ)
  | .enqueued t fd => some (t, fd)
  | _ => none

/-- The task that an event takes out of the queue. -/
def PoolEvent.dequeued? : PoolEvent → Option (ℕ × ℤ)
  | .dequeued t fd => some (t, fd)
  | _ => none

/-- The tasks enqueued in a history, in order. -/
def enqueuedIn (hist : List (PoolAction T × PoolEvent)) : List (ℕ × ℤ) :=
  hist.filterMap fun e => e.2.enqueued?

/-- The tasks that `dequeue` has returned in a history, in order. -/
def dequeuedIn (hist : List (PoolAction T × PoolEvent)) : List (ℕ × ℤ) :=
  hist.filterMap fun e => e.2.dequeued?

/-- What holds of the queue and the threads, where `l` is in the queue. -/
structure PoolInv (s : Pool T) (l : List (ℕ × Task)) : Prop where
  holds : s.q.Holds l
  /-- A task in hand is allocated and is not in the queue. -/
  task : ∀ t p, s.task t = some p → p ∈ s.q.tasks ∧ p ∉ l.map Prod.fst
  /-- A task is in one hand. -/
  task_inj : ∀ t t' p, s.task t = some p → s.task t' = some p → t = t'
  /-- A thread waits only for an empty queue. -/
  waiting : s.q.count ≠ 0 → ∀ t, (s.place t).isWaiting = false
  /-- A thread in `dequeue` has no task. -/
  idle : ∀ t, s.place t ≠ .outside → s.task t = none

omit [DecidableEq T] in
/-- The invariant holds at the start. -/
theorem poolInv_init : PoolInv (Pool.init T) [] where
  holds := ⟨⟨none, rfl⟩, List.nodup_nil, fun l₀ x h => by simp at h, rfl⟩
  task t p h := by simp [Pool.init] at h
  task_inj t t' p h := by simp [Pool.init] at h
  waiting h := absurd rfl h
  idle _ _ := rfl

variable {s s' : Pool T} {ev : PoolEvent}

/-- The task in the hand of one thread is set to one that no other thread has. -/
theorem task_inj_update {task : T → Option ℕ} {t : T} {o : Option ℕ}
    (h : ∀ t t' p, task t = some p → task t' = some p → t = t')
    (ho : ∀ t' p, o = some p → task t' ≠ some p)
    (t₁ t₂ : T) (p : ℕ) (h₁ : Function.update task t o t₁ = some p)
    (h₂ : Function.update task t o t₂ = some p) : t₁ = t₂ := by
  obtain rfl | hne₁ := eq_or_ne t₁ t
  · obtain rfl | hne₂ := eq_or_ne t₂ t₁
    · rfl
    · rw [Function.update_self] at h₁
      rw [Function.update_of_ne hne₂] at h₂
      exact absurd h₂ (ho t₂ p h₁)
  · rw [Function.update_of_ne hne₁] at h₁
    obtain rfl | hne₂ := eq_or_ne t₂ t
    · rw [Function.update_self] at h₂
      exact absurd h₁ (ho t₁ p h₂)
    · rw [Function.update_of_ne hne₂] at h₂
      exact h t₁ t₂ p h₁ h₂

/-- The loop of `dequeue`: it returns, and takes the first task of the queue if there is one. -/
theorem PoolInv.test {t : T} (hs : PoolInv s l) (ht : s.task t = none) :
    ∃ s' ev l', s.test t = some (s', ev) ∧ PoolInv s' l' ∧ ev.enqueued? = none ∧
      ev.dequeued?.toList ++ l'.map shown = l.map shown := by
  by_cases hzero : s.q.count = 0
  -- The queue is empty: the thread waits.
  · refine ⟨{ s with place := Function.update s.place t (.waiting ()) }, .quiet, l, ?_,
      ⟨hs.holds, hs.task, hs.task_inj, fun hne => absurd hzero hne, fun t' ht' => ?_⟩, rfl, rfl⟩
    · rw [Pool.test, if_pos hzero]
    · obtain rfl | hne := eq_or_ne t' t
      · exact ht
      · simp only [Function.update_of_ne hne] at ht'
        exact hs.idle t' ht'
  -- Else it takes the first task, which no other thread has.
  · obtain ⟨x, l', q', rfl, htake, hq', htasks⟩ := hs.holds.take hzero
    have hx := hs.holds.lookup (x := x) List.mem_cons_self
    have hnodup := List.nodup_cons.mp hs.holds.nodup
    refine ⟨⟨q', Function.update s.place t .outside, Function.update s.task t (some x.1)⟩,
      .dequeued x.1 x.2.fd, l', ?_, ⟨hq', fun t' p hp => ?_, ?_, fun _ t' => ?_, fun t' ht' => ?_⟩,
      rfl, rfl⟩
    · simp only [Pool.test, if_neg hzero, htake, htasks, hx, Option.bind_eq_bind, Option.bind_some]
    · simp only [htasks] at hp ⊢
      obtain rfl | hne := eq_or_ne t' t
      · rw [Function.update_self, Option.some_inj] at hp
        exact hp ▸ ⟨Finmap.mem_of_lookup_eq_some hx, hnodup.1⟩
      · rw [Function.update_of_ne hne] at hp
        obtain ⟨hmem, hnot⟩ := hs.task t' p hp
        exact ⟨hmem, fun h => hnot (List.mem_cons_of_mem _ h)⟩
    · refine task_inj_update hs.task_inj fun t' p hp hp' => ?_
      obtain rfl := Option.some.inj hp
      exact (hs.task t' _ hp').2 (by simp)
    · obtain rfl | hne := eq_or_ne t' t
      · simp [Place.isWaiting]
      · simpa only [Function.update_of_ne hne] using hs.waiting hzero t'
    · obtain rfl | hne := eq_or_ne t' t
      · simp at ht'
      · simp only [Function.update_of_ne hne] at ht' ⊢
        exact hs.idle t' ht'

/-- A thread lets go of its task. -/
theorem PoolInv.drop {t t' : T} {p : ℕ} (hs : PoolInv s l) (ht : s.task t = some p) {q : ℕ}
    (hq : Function.update s.task t none t' = some q) : s.task t' = some q ∧ q ≠ p := by
  obtain rfl | hne := eq_or_ne t' t
  · simp at hq
  · rw [Function.update_of_ne hne] at hq
    refine ⟨hq, ?_⟩
    rintro rfl
    exact hne (hs.task_inj t' t q hq ht)

/-- `enqueue` of the task in hand. -/
theorem PoolInv.enqueue {t : T} (hs : PoolInv s l) (hp : s.task t = some p) :
    ∃ q' l' task, s.q.tasks.lookup p = some task ∧ s.q.enqueue p = some q' ∧
      PoolInv ⟨q', Place.broadcast s.place, Function.update s.task t none⟩ l' ∧
      l'.map shown = l.map shown ++ [(p, task.fd)] := by
  obtain ⟨hmem, hnot⟩ := hs.task t p hp
  obtain ⟨task, htask⟩ := Finmap.mem_iff.mp hmem
  obtain ⟨q', l', henq, hq', hshown, haddr, htasks, -⟩ := hs.holds.enqueue htask hnot
  -- The task moves from the hand to the tail, and everyone who slept is awake.
  refine ⟨q', l', task, htask, henq, ⟨hq', fun t' r hr => ?_, ?_, fun _ t' => ?_, fun t' ht' => ?_⟩,
    hshown⟩
  · obtain ⟨hr, hne⟩ := hs.drop hp hr
    obtain ⟨hmem', hnot'⟩ := hs.task t' r hr
    simp only [haddr, htasks, List.mem_append, List.mem_singleton]
    exact ⟨hmem', fun h => h.elim hnot' hne⟩
  · exact task_inj_update hs.task_inj fun _ _ h => by simp at h
  · exact Place.isWaiting_wake _
  · obtain rfl | hne := eq_or_ne t' t
    · exact Function.update_self ..
    · simp only [Function.update_of_ne hne]
      refine hs.idle t' fun h => ht' ?_
      simp [Place.broadcast, h, Place.wake]

/-- A new task, wherever its `next` points. -/
theorem PoolInv.create {t : T} {A : Allocator} (hs : PoolInv s l) (hplace : s.place t = .outside) :
    PoolInv { s with
      q := { s.q with tasks := s.q.tasks.insert (A.pick s.q.tasks.keys) task }
      task := Function.update s.task t (some (A.pick s.q.tasks.keys)) } l := by
  have hfresh := Heap.pick_notMem A s.q.tasks
  -- The new address is none of the queued ones.
  have hnotIn : A.pick s.q.tasks.keys ∉ l.map Prod.fst := by
    intro hmem
    obtain ⟨x, hx, hxp⟩ := List.mem_map.mp hmem
    exact hfresh (hxp ▸ Finmap.mem_of_lookup_eq_some (hs.holds.lookup hx))
  refine ⟨hs.holds.frame fun x hx => Heap.lookup_insert_pick A (hs.holds.lookup hx),
    fun t' r hr => ?_, ?_, hs.waiting, fun t' ht' => ?_⟩
  · obtain rfl | hne := eq_or_ne t' t
    · simp only [Function.update_self, Option.some_inj] at hr
      exact ⟨Finmap.mem_insert.mpr (.inl hr.symm), hr ▸ hnotIn⟩
    · simp only [Function.update_of_ne hne] at hr
      obtain ⟨hmem, hnot⟩ := hs.task t' r hr
      exact ⟨Finmap.mem_insert.mpr (.inr hmem), hnot⟩
  · refine task_inj_update hs.task_inj fun t' r hr hr' => ?_
    obtain rfl := Option.some.inj hr
    exact hfresh (hs.task t' _ hr').1
  · obtain rfl | hne := eq_or_ne t' t
    · exact absurd hplace ht'
    · simp only [Function.update_of_ne hne]
      exact hs.idle t' ht'

/-- A wakeup for no reason. -/
theorem PoolInv.spurious {t : T} (hs : PoolInv s l) (hplace : s.place t = .waiting ()) :
    PoolInv { s with place := Place.wakeOne t s.place } l := by
  refine ⟨hs.holds, hs.task, hs.task_inj, fun hne t' => ?_, fun t' ht' => hs.idle t' fun h => ?_⟩
  · have hnot := hs.waiting hne t
    rw [hplace] at hnot
    cases hnot
  · refine ht' ?_
    obtain rfl | hne := eq_or_ne t' t
    · rw [hplace] at h
      cases h
    · simp only [Place.wakeOne, Function.update_of_ne hne, h]

/-- `free` of the task in hand. -/
theorem PoolInv.free {t : T} (hs : PoolInv s l) (hp : s.task t = some p) :
    PoolInv { s with
      q := { s.q with tasks := s.q.tasks.erase p }, task := Function.update s.task t none } l := by
  obtain ⟨hmem, hnot⟩ := hs.task t p hp
  refine ⟨hs.holds.frame fun x hx => ?_, fun t' r hr => ?_, ?_, hs.waiting, fun t' ht' => ?_⟩
  · rw [Finmap.lookup_erase_ne, hs.holds.lookup hx]
    rintro rfl
    exact hnot (List.mem_map_of_mem hx)
  · obtain ⟨hr, hne⟩ := hs.drop hp hr
    obtain ⟨hmem', hnot'⟩ := hs.task t' r hr
    exact ⟨Finmap.mem_erase.mpr ⟨hne, hmem'⟩, hnot'⟩
  · exact task_inj_update hs.task_inj fun _ _ h => by simp at h
  · obtain rfl | hne := eq_or_ne t' t
    · exact Function.update_self ..
    · simp only [Function.update_of_ne hne]
      exact hs.idle t' ht'

/-- One step of one thread: what `dequeue` returns and what stays in the queue is what was in it and
what is enqueued. -/
theorem PoolInv.step {a : PoolAction T} (hs : PoolInv s l) (h : Pool.step a s = some (s', ev)) :
    ∃ l', PoolInv s' l' ∧
      ev.dequeued?.toList ++ l'.map shown = l.map shown ++ ev.enqueued?.toList := by
  have htest : ∀ t, s.task t = none → s.test t = some (s', ev) → ∃ l', PoolInv s' l' ∧
      ev.dequeued?.toList ++ l'.map shown = l.map shown ++ ev.enqueued?.toList := by
    intro t ht htest
    obtain ⟨s₁, ev₁, l', htest', hs', henq, hdeq⟩ := hs.test ht
    rw [htest', Option.some_inj] at htest
    obtain ⟨rfl, rfl⟩ := Prod.mk.inj htest
    exact ⟨l', hs', by rw [henq, hdeq, Option.toList_none, List.append_nil]⟩
  -- The steps that do not touch the list of tasks.
  have hquiet : [] ++ l.map shown = l.map shown ++ [] := by rw [List.nil_append, List.append_nil]
  cases a with
  | create t A next fd =>
    simp only [Pool.step] at h
    split at h
    · rename_i hplace _
      simp only [Heap.malloc, Option.some_inj, Prod.mk.injEq] at h
      obtain ⟨rfl, rfl⟩ := h
      exact ⟨l, hs.create hplace, hquiet⟩
    · cases h
  | enqueue t =>
    simp only [Pool.step] at h
    split at h
    · rename_i p _ hp
      obtain ⟨q', l', task, htask, henq, hs', hshown⟩ := hs.enqueue hp
      simp only [htask, henq, Option.bind_eq_bind, Option.bind_some, Option.some_inj,
        Prod.mk.injEq] at h
      obtain ⟨rfl, rfl⟩ := h
      exact ⟨l', hs', hshown⟩
    · cases h
  | dequeue t =>
    simp only [Pool.step] at h
    split at h
    · rename_i _ hnone
      exact htest t hnone h
    · cases h
  | recheck t =>
    simp only [Pool.step] at h
    split at h
    · rename_i _ hplace
      exact htest t (hs.idle t (by simp [hplace])) h
    · cases h
  | spurious t =>
    simp only [Pool.step] at h
    split at h
    · rename_i _ hplace
      simp only [Option.some_inj, Prod.mk.injEq] at h
      obtain ⟨rfl, rfl⟩ := h
      exact ⟨l, hs.spurious hplace, hquiet⟩
    · cases h
  | free t =>
    simp only [Pool.step] at h
    split at h
    · rename_i p _ hp
      simp only [Heap.free, if_pos (hs.task t p hp).1, Option.bind_eq_bind, Option.bind_some,
        Option.some_inj, Prod.mk.injEq] at h
      obtain ⟨rfl, rfl⟩ := h
      exact ⟨l, hs.free hp, hquiet⟩
    · cases h

/-- **The work queue loses and duplicates nothing.** After any interleaving of any number of
threads, what `dequeue` has returned, followed by what is in the queue, is what was enqueued, in
order; `count` is the number of tasks in the queue; `head` and `tail`, which are followed only while
`count` is not 0, then point to tasks in the queue, and the calls that follow them return; and while
a task is in the queue no thread waits without having been woken. -/
theorem workQueue_fifo {acts : List (PoolAction T)} {s : Pool T}
    {hist : List (PoolAction T × PoolEvent)}
    (hrun : run Pool.step acts (Pool.init T) = some (s, hist)) :
    ∃ l, s.q.Holds l ∧ dequeuedIn hist ++ l.map shown = enqueuedIn hist ∧ s.q.count = l.length ∧
      (s.q.count ≠ 0 → (∃ x ∈ l, s.q.head = some x.1) ∧ ∃ x ∈ l, s.q.tail = some x.1) ∧
      (∀ t p, s.task t = some p → ∃ q', s.q.enqueue p = some q') ∧
      (s.q.count ≠ 0 → ∃ res, s.q.take = some res) ∧
      (0 < s.q.count → ∀ t, (s.place t).isWaiting = false) := by
  obtain ⟨l, hs, hfifo⟩ : ∃ l, PoolInv s l ∧ dequeuedIn hist ++ l.map shown = enqueuedIn hist := by
    refine run_invariant
      (fun hist s => ∃ l, PoolInv s l ∧ dequeuedIn hist ++ l.map shown = enqueuedIn hist)
      ?_ ⟨[], poolInv_init, rfl⟩ (meets_true _ _) hrun
    rintro hist s a s' ev ⟨l, hs, hfifo⟩ - hstep
    obtain ⟨l', hs', hone⟩ := hs.step hstep
    refine ⟨l', hs', ?_⟩
    -- One step moves a task from the queue to the history, or to its end.
    calc dequeuedIn (hist ++ [(a, ev)]) ++ l'.map shown
        = dequeuedIn hist ++ (ev.dequeued?.toList ++ l'.map shown) := by
          simp [dequeuedIn, List.filterMap_append, List.filterMap_cons]
          cases ev.dequeued? <;> rfl
      _ = enqueuedIn hist ++ ev.enqueued?.toList := by rw [hone, ← List.append_assoc, hfifo]
      _ = enqueuedIn (hist ++ [(a, ev)]) := by
          simp [enqueuedIn, List.filterMap_append, List.filterMap_cons]
          cases ev.enqueued? <;> rfl
  have hholds := hs.holds
  refine ⟨l, hholds, hfifo, hholds.count, fun hne => ⟨?_, ?_⟩, fun t p hp => ?_, fun hne => ?_,
    fun hpos => hs.waiting hpos.ne'⟩
  · obtain ⟨r, hseg⟩ := hholds.seg
    cases l with
    | nil => exact absurd hholds.count hne
    | cons x l => exact ⟨x, List.mem_cons_self, hseg.1⟩
  · rcases List.eq_nil_or_concat l with rfl | ⟨l₀, x, rfl⟩
    · exact absurd hholds.count hne
    · rw [List.concat_eq_append] at hholds ⊢
      exact ⟨x, by simp, hholds.tail l₀ x rfl⟩
  · obtain ⟨q', -, -, -, henq, -⟩ := hs.enqueue hp
    exact ⟨q', henq⟩
  · obtain ⟨x, -, q', -, htake, -⟩ := hholds.take hne
    exact ⟨_, htake⟩

/-- A worker waits, a listener enqueues two tasks with a `next` that points to no task, and the
worker takes the first of them and frees it. -/
def poolRun : List (PoolAction Bool) :=
  [.dequeue true, .create false (above 0) (some 7) 4, .enqueue false,
    .create false (above 0) (some 7) 5, .enqueue false, .recheck true, .free true]

/-- The run of the pool above, with what holds after it. -/
theorem workQueue_fifo_poolRun :
    ∃ s hist l, run Pool.step poolRun (Pool.init Bool) = some (s, hist) ∧
    s.q.Holds l ∧ dequeuedIn hist ++ l.map shown = enqueuedIn hist ∧ s.q.count = l.length := by
  obtain ⟨⟨s, hist⟩, hrun⟩ : ∃ res, run Pool.step poolRun (Pool.init Bool) = some res :=
    Option.isSome_iff_exists.mp (by decide +kernel)
  obtain ⟨l, hholds, hfifo, hcount, -⟩ := workQueue_fifo hrun
  exact ⟨s, hist, l, hrun, hholds, hfifo, hcount⟩

end Cs5600.Lab3
