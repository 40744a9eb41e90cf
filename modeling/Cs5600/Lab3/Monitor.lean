import Cs5600.Lib.Basic
import Cs5600.Lib.CondVar
import Mathlib.Algebra.Order.Ring.Int
import Mathlib.Logic.Relation

/-!
# The monitor of the key-value store

The entry and exit sections of the operations in `kvstore.c`, over `activeUsers` and the threads
that wait on `nonuser`. The mutex `kvm` makes each section one step, which `pthread_cond_wait` cuts
in two. `kv_read` and `kv_dump` are readers, which may be inside together; `kv_write`, `kv_delete`,
and `kv_destroy` are writers, which are inside alone.

A reader signals when it is the last one to leave, and a writer broadcasts. One signal is enough,
since the threads that wait while readers are inside are all writers, and whichever of them is woken
finds the store free or waits for a thread that will wake the next.
-/

namespace Cs5600.Lab3

/-- The operations that enter the monitor. -/
inductive Operation where
  | kvRead
  | kvDump
  | kvWrite
  | kvDelete
  | kvDestroy
  deriving DecidableEq

/-- How an operation uses the store. -/
inductive Kind where
  | reader
  | writer
  deriving DecidableEq

def Operation.kind : Operation → Kind
  | .kvRead | .kvDump => .reader
  | .kvWrite | .kvDelete | .kvDestroy => .writer

/-- `activeUsers`, and where each thread is. -/
structure Monitor (T : Type) where
  activeUsers : ℤ
  place : T → Place Operation

/-- A step of a thread: the start of an operation, the return from `pthread_cond_wait` with the test
that follows, a wakeup for no reason, and the exit section, with the thread that its signal
wakes. -/
inductive Action (T : Type) where
  | enter (t : T) (op : Operation)
  | recheck (t : T)
  | spurious (t : T)
  | exit (t : T) (choice : Option T)

variable {T : Type} [DecidableEq T]

/-- The test of the entry section, `while (activeUsers < 0)` for a reader and `while (activeUsers)`
for a writer: the thread waits or goes in. -/
def Monitor.test (s : Monitor T) (t : T) (op : Operation) : Monitor T :=
  match op.kind with
  | .reader =>
    if s.activeUsers < 0 then ⟨s.activeUsers, Function.update s.place t (.waiting op)⟩
    else ⟨s.activeUsers + 1, Function.update s.place t (.inside op)⟩
  | .writer =>
    if s.activeUsers ≠ 0 then ⟨s.activeUsers, Function.update s.place t (.waiting op)⟩
    else ⟨-1, Function.update s.place t (.inside op)⟩

/-- The exit section: a reader signals when no other one is inside, and a writer broadcasts. -/
def Monitor.leave [Fintype T] (s : Monitor T) (t : T) (op : Operation) (choice : Option T) :
    Option (Monitor T) :=
  match op.kind with
  | .reader =>
    if s.activeUsers - 1 = 0 then do
      let place ← Place.signal choice (Function.update s.place t .outside)
      some ⟨s.activeUsers - 1, place⟩
    else some ⟨s.activeUsers - 1, Function.update s.place t .outside⟩
  | .writer => some ⟨0, Place.broadcast (Function.update s.place t .outside)⟩

/-- One step of one thread, where the thread is at the place for it. -/
def Monitor.step [Fintype T] (s : Monitor T) : Action T → Option (Monitor T)
  | .enter t op =>
    match s.place t with
    | .outside => some (s.test t op)
    | _ => none
  | .recheck t =>
    match s.place t with
    | .woken op => some (s.test t op)
    | _ => none
  | .spurious t =>
    match s.place t with
    | .waiting _ => some ⟨s.activeUsers, Place.wakeOne t s.place⟩
    | _ => none
  | .exit t choice =>
    match s.place t with
    | .inside op => s.leave t op choice
    | _ => none

/-- No thread has a call under way. -/
def monitorInit (T : Type) : Monitor T := ⟨0, fun _ => .outside⟩

/-! ## The threads inside -/

/-- How a thread uses the store, when it is inside. -/
def usedAs : Place Operation → Option Kind
  | .inside op => some op.kind
  | _ => none

/-- A wakeup does not move a thread into the store or out of it. -/
@[simp]
theorem usedAs_wake (p : Place Operation) : usedAs p.wake = usedAs p := by
  cases p <;> rfl

variable [Fintype T]

/-- The threads of a kind that are inside. -/
def users (k : Kind) (place : T → Place Operation) : Finset T :=
  Finset.univ.filter fun t => usedAs (place t) = some k

/-- The number of threads inside changes with the place of one thread. -/
theorem card_users_update (k : Kind) (place : T → Place Operation) (t : T) (p : Place Operation) :
    (users k (Function.update place t p)).card + (if usedAs (place t) = some k then 1 else 0) =
      (users k place).card + if usedAs p = some k then 1 else 0 := by
  rw [users, users, Finset.card_filter, Finset.card_filter]
  exact sum_apply_update (fun p => if usedAs p = some k then 1 else 0) place t p

omit [DecidableEq T] in
/-- A broadcast does not move threads into the store or out of it. -/
theorem users_broadcast (k : Kind) (place : T → Place Operation) :
    users k (Place.broadcast place) = users k place := by
  simp [users, Place.broadcast]

/-- A signal does not move a thread into the store or out of it. -/
theorem users_wakeOne (k : Kind) (t : T) (place : T → Place Operation) :
    users k (Place.wakeOne t place) = users k place := by
  refine Finset.filter_congr fun t' _ => ?_
  unfold Place.wakeOne
  obtain rfl | hne := eq_or_ne t' t
  · rw [Function.update_self, usedAs_wake]
  · rw [Function.update_of_ne hne]

/-! ## The invariant -/

/-- What holds in every reachable state. -/
structure MonitorInv (s : Monitor T) : Prop where
  /-- `activeUsers` is -1 with one writer inside, and the number of readers inside otherwise. -/
  users : (s.activeUsers = -1 ∧ (users .writer s.place).card = 1 ∧
    (users .reader s.place).card = 0) ∨
    (s.activeUsers = (users .reader s.place).card ∧ (users .writer s.place).card = 0)
  /-- No reader waits while a reader could go in. -/
  readers : 0 ≤ s.activeUsers → ∀ t op, s.place t = .waiting op → op.kind = .writer
  /-- When nobody is inside, a thread that waits is not forgotten. -/
  wakeup : s.activeUsers = 0 → (∃ t, (s.place t).isWaiting = true) → ∃ t, (s.place t).isWoken = true

omit [DecidableEq T] in
/-- The invariant holds at the start. -/
theorem monitorInv_init : MonitorInv (monitorInit T) where
  users := .inr (by simp [monitorInit, Lab3.users, usedAs])
  readers _ t op h := by simp [monitorInit] at h
  wakeup _ h := by simp [monitorInit, Place.isWaiting] at h

variable {s s' : Monitor T} {t : T} {op : Operation}

/-- The test of the entry section, by a thread that is not inside. -/
theorem MonitorInv.test (hs : MonitorInv s) (ht : usedAs (s.place t) = none) :
    MonitorInv (s.test t op) := by
  have hreaders := card_users_update .reader s.place t
  have hwriters := card_users_update .writer s.place t
  simp only [ht, reduceCtorEq, if_false, Nat.add_zero] at hreaders hwriters
  have hwait : ∀ p, (∀ op', p ≠ Place.waiting op') → ∀ t' op',
      Function.update s.place t p t' = .waiting op' → s.place t' = .waiting op' := by
    intro p hp t' op' h
    obtain rfl | hne := eq_or_ne t' t
    · exact absurd (by rwa [Function.update_self] at h) (hp op')
    · rwa [Function.update_of_ne hne] at h
  have hinside : ∀ op', Place.inside op ≠ Place.waiting op' := fun _ h => by cases h
  -- A reader waits while there is a writer, a writer while there is anyone.
  cases hop : op.kind with
  | reader =>
    simp only [Monitor.test, hop]
    by_cases hneg : s.activeUsers < 0
    · rw [if_pos hneg]
      refine ⟨?_, fun hpos => absurd hpos (not_le.mpr hneg), fun hzero => ?_⟩
      · simpa [hreaders, hwriters, usedAs] using hs.users
      · exact absurd hzero hneg.ne
    · rw [if_neg hneg]
      refine ⟨?_, fun _ t' op' h => hs.readers (not_lt.mp hneg) t' op' (hwait _ hinside t' op' h),
        fun hzero => ?_⟩
      · have husers := hs.users
        simp only [hreaders, hwriters, usedAs, hop, if_true, reduceCtorEq,
          Option.some_inj, if_false]
        omega
      · simp only at hzero
        omega
  | writer =>
    simp only [Monitor.test, hop]
    by_cases hne : s.activeUsers ≠ 0
    · rw [if_pos hne]
      refine ⟨?_, fun hpos t' op' h => ?_, fun hzero => absurd hzero hne⟩
      · simpa [hreaders, hwriters, usedAs] using hs.users
      · simp only at h
        obtain rfl | htt := eq_or_ne t' t
        · rw [Function.update_self] at h
          exact Place.waiting.inj h ▸ hop
        · rw [Function.update_of_ne htt] at h
          exact hs.readers hpos t' op' h
    · rw [if_neg hne]
      refine ⟨?_, fun hpos => ?_, fun hzero => ?_⟩
      · have husers := hs.users
        refine .inl ⟨rfl, ?_⟩
        simp only [hreaders, hwriters, usedAs, hop, if_true, reduceCtorEq,
          Option.some_inj, if_false]
        omega
      · simp at hpos
      · simp at hzero

/-- A wakeup for no reason. -/
theorem MonitorInv.wakeOne (hs : MonitorInv s) (ht : (s.place t).isWaiting = true) :
    MonitorInv ⟨s.activeUsers, Place.wakeOne t s.place⟩ where
  users := by simpa only [users_wakeOne] using hs.users
  readers hpos t' op h := hs.readers hpos t' op (Place.waiting_of_wakeOne h)
  wakeup _ _ := ⟨t, by simpa [Place.wakeOne] using Place.isWoken_wake ht⟩

/-- The exit section. -/
theorem MonitorInv.leave {choice : Option T} (hs : MonitorInv s) (ht : s.place t = .inside op)
    (h : s.leave t op choice = some s') : MonitorInv s' := by
  have hreaders := card_users_update .reader s.place t .outside
  have hwriters := card_users_update .writer s.place t .outside
  have husers := hs.users
  unfold Monitor.leave at h
  cases hop : op.kind with
  | reader =>
    simp only [ht, usedAs, hop, if_true, reduceCtorEq, Option.some_inj, if_false,
      Nat.add_zero] at hreaders hwriters h
    -- The waiting threads are writers, since a reader is inside.
    have hwait : ∀ t' op', Function.update s.place t .outside t' = .waiting op' →
        op'.kind = .writer := by
      intro t' op' h'
      obtain rfl | hne := eq_or_ne t' t
      · simp at h'
      · rw [Function.update_of_ne hne] at h'
        exact hs.readers (by omega) t' op' h'
    split_ifs at h with hzero
    · simp only [Option.bind_eq_bind, Option.bind_eq_some_iff, Option.some_inj] at h
      obtain ⟨place, hsignal, rfl⟩ := h
      rcases Place.signal_cases hsignal with ⟨w, hw, rfl⟩ | ⟨hnone, rfl⟩
      · refine ⟨?_, fun _ t' op' h' => hwait t' op' (Place.waiting_of_wakeOne h'), fun _ _ =>
          ⟨w, ?_⟩⟩
        · simp only [users_wakeOne]
          omega
        · simpa [Place.wakeOne] using Place.isWoken_wake hw
      · refine ⟨?_, fun _ => hwait, fun _ hex => ?_⟩
        · simp only
          omega
        · obtain ⟨w, hw⟩ := hex
          exact absurd (hnone w) (by simp [hw])
    · obtain rfl := Option.some.inj h
      refine ⟨?_, fun _ => hwait, fun hzero' => absurd hzero' hzero⟩
      simp only
      omega
  | writer =>
    simp only [ht, usedAs, hop, if_true, reduceCtorEq, Option.some_inj, if_false,
      Nat.add_zero] at hreaders hwriters h
    obtain rfl := h
    have hnone : ∀ t',
      (Place.broadcast (Function.update s.place t .outside) t').isWaiting = false :=
      fun t' => Place.isWaiting_wake _
    refine ⟨?_, fun _ t' op' h' => ?_, fun _ hex => ?_⟩
    · simp only [users_broadcast]
      omega
    · have hnot := hnone t'
      simp only at h'
      rw [h'] at hnot
      cases hnot
    · obtain ⟨w, hw⟩ := hex
      exact absurd (hnone w) (by simp [hw])

/-- Every step keeps the invariant. -/
theorem MonitorInv.step {a : Action T} (hs : MonitorInv s) (h : s.step a = some s') :
    MonitorInv s' := by
  -- One case for each action, with the place of its thread.
  cases a with
  | enter t op =>
    cases ht : s.place t with
    | outside =>
      simp only [Monitor.step, ht, Option.some_inj] at h
      exact h ▸ hs.test (by rw [ht]; rfl)
    | _ => simp [Monitor.step, ht] at h
  | recheck t =>
    cases ht : s.place t with
    | woken op =>
      simp only [Monitor.step, ht, Option.some_inj] at h
      exact h ▸ hs.test (by rw [ht]; rfl)
    | _ => simp [Monitor.step, ht] at h
  | spurious t =>
    cases ht : s.place t with
    | waiting op =>
      simp only [Monitor.step, ht, Option.some_inj] at h
      exact h ▸ hs.wakeOne (by rw [ht]; rfl)
    | _ => simp [Monitor.step, ht] at h
  | exit t choice =>
    cases ht : s.place t with
    | inside op =>
      simp only [Monitor.step, ht] at h
      exact hs.leave ht h
    | _ => simp [Monitor.step, ht] at h

/-- **The monitor is a readers-writer lock.** In every state that any number of threads reach by any
interleaving: `activeUsers` is -1 exactly when one writer and no reader is inside, and is otherwise
the number of readers inside, with no writer; no reader waits unless a writer is inside; and when
nobody is inside and a thread waits, some thread has been woken. -/
theorem monitor_readers_writer
    (h : Relation.ReflTransGen (fun s s' => ∃ a, Monitor.step s a = some s') (monitorInit T) s) :
    (s.activeUsers = -1 ↔ (users .writer s.place).card = 1 ∧ (users .reader s.place).card = 0) ∧
      (s.activeUsers ≠ -1 →
        s.activeUsers = (users .reader s.place).card ∧ (users .writer s.place).card = 0) ∧
      (0 ≤ s.activeUsers → ∀ t op, s.place t = .waiting op → op.kind ≠ .reader) ∧
      ¬ (s.activeUsers = 0 ∧ (∃ t, (s.place t).isWaiting = true) ∧
        ∀ t, (s.place t).isWoken = false) := by
  -- The invariant holds in every reachable state.
  have hinv : MonitorInv s := by
    induction h with
    | refl => exact monitorInv_init
    | tail _ hstep ih =>
      obtain ⟨a, ha⟩ := hstep
      exact ih.step ha
  have husers := hinv.users
  refine ⟨by omega, by omega, fun hpos t op hwait => ?_, fun ⟨hzero, hwait, hnone⟩ => ?_⟩
  · rw [hinv.readers hpos t op hwait]
    decide
  · obtain ⟨t, ht⟩ := hinv.wakeup hzero hwait
    exact absurd (hnone t) (by simp [ht])

/-- A writer is inside and a reader waits for it. -/
theorem monitor_readers_writer_waiting : ∃ s : Monitor Bool,
    (s.activeUsers = -1 ∧ s.place false = .waiting .kvRead) ∧
    (s.activeUsers = -1 ↔ (users .writer s.place).card = 1 ∧ (users .reader s.place).card = 0) ∧
      (s.activeUsers ≠ -1 →
        s.activeUsers = (users .reader s.place).card ∧ (users .writer s.place).card = 0) ∧
      (0 ≤ s.activeUsers → ∀ t op, s.place t = .waiting op → op.kind ≠ .reader) ∧
      ¬ (s.activeUsers = 0 ∧ (∃ t, (s.place t).isWaiting = true) ∧
        ∀ t, (s.place t).isWoken = false) := by
  have hwrite : (monitorInit Bool).step (.enter true .kvWrite) =
      some ((monitorInit Bool).test true .kvWrite) := rfl
  have hread : ((monitorInit Bool).test true .kvWrite).step (.enter false .kvRead) =
      some (((monitorInit Bool).test true .kvWrite).test false .kvRead) := rfl
  exact ⟨_, ⟨rfl, rfl⟩, monitor_readers_writer (.tail (.single ⟨_, hwrite⟩) ⟨_, hread⟩)⟩

end Cs5600.Lab3
