import Cs5600.Lab3.Accesses

/-!
# Threads on one store

Any number of threads with operations on one store: each goes through the entry section of the
monitor, does the accesses of its operation one at a time, and goes through the exit section, while
the other threads take steps in between.

Behind every interleaving there is a sequential run: the operations that have left, in the order of
their exit sections, done as a whole one after the other, with the same results
(`kvstore_linearizable`). An operation that leaves before another one enters comes before it there.
No thread inside ever follows a pointer to a freed cell or frees one twice, and no threads block
each other for good (`kvstore_completes`).
-/

namespace Cs5600.Lab3

/-- The monitor, the store, and what each thread with an operation under way has to do. -/
structure System (T : Type) where
  monitor : Monitor T
  kv : KvStore
  work : T → Option (Job × Code)

/-- A step of one thread: those of the monitor, and one access of a thread inside. -/
inductive Event (T : Type) where
  | enter (t : T) (job : Job)
  | recheck (t : T)
  | spurious (t : T)
  | access (t : T)
  | exit (t : T) (choice : Option T)

/-- No thread has an operation under way, and the store is as `kv_init` makes it. -/
def systemInit (T : Type) : System T := ⟨monitorInit T, kvInit, fun _ => none⟩

variable {T : Type} [DecidableEq T] [Fintype T]

/-- One step, and the operation that leaves in it with its result. -/
def System.step (junk : Junk) (event : Event T) (s : System T) :
    Option (System T × Option (Job × Return)) :=
  match event with
  | .enter t job => do
    let monitor ← s.monitor.step (.enter t job.operation)
    some ({ s with monitor, work := Function.update s.work t (some (job, job.start)) }, none)
  | .recheck t => do
    let monitor ← s.monitor.step (.recheck t)
    some ({ s with monitor }, none)
  | .spurious t => do
    let monitor ← s.monitor.step (.spurious t)
    some ({ s with monitor }, none)
  | .access t =>
    match s.monitor.place t with
    | .inside _ => do
      let (job, l) ← s.work t
      let (l, kv) ← Lab3.access junk l s.kv
      some ({ s with kv, work := Function.update s.work t (some (job, l)) }, none)
    | _ => none
  | .exit t choice => do
    let (job, l) ← s.work t
    let ret ← l.result
    let monitor ← s.monitor.step (.exit t choice)
    some ({ s with monitor, work := Function.update s.work t none }, some (job, ret))

/-- The operations that have left, with their results, the first one first. -/
def left (hist : List (Event T × Option (Job × Return))) : List (Job × Return) :=
  hist.filterMap Prod.snd

/-- A key of at most 31 bytes, which fits into an entry. -/
def Job.Fits : Job → Prop
  | .call s => FitsEntry s
  | .dump => True

instance : ∀ job : Job, Decidable job.Fits
  | .call s => inferInstanceAs (Decidable (FitsEntry s))
  | .dump => inferInstanceAs (Decidable True)

/-- The operation that a thread starts has a key that fits. -/
def Event.Fits : Event T → Prop
  | .enter _ job => job.Fits
  | _ => True

instance : ∀ event : Event T, Decidable event.Fits
  | .enter _ job => inferInstanceAs (Decidable job.Fits)
  | .recheck _ | .spurious _ | .access _ | .exit _ _ => inferInstanceAs (Decidable True)

/-! ## One operation after the other -/

variable {junk : Junk} {kv kv' : KvStore} {c : Fin 200 → List (ℕ × KeyEntry)}

/-- What a call does as a whole is what it does in `exec`, up to the pointer that `kv_read`
returns. -/
theorem perform_of_exec {s : Step} {reply : Reply} (h : exec s kv = some (kv', reply)) :
    ∃ r, perform (.call s) kv = some (kv', r) := by
  obtain ⟨A, call⟩ := s
  cases call with
  | read k =>
    simp only [exec, Option.bind_eq_bind, Option.bind_eq_some_iff] at h
    obtain ⟨val, hread, h⟩ := h
    -- A read changes nothing, whatever it finds.
    have hkv : kv' = kv := by
      cases val with
      | none => exact (Prod.mk.inj (Option.some.inj h)).1.symm
      | some p =>
        simp only [Option.bind_eq_some_iff] at h
        obtain ⟨v, -, h⟩ := h
        exact (Prod.mk.inj (Option.some.inj h)).1.symm
    refine ⟨.pointer val, ?_⟩
    simp only [perform, hread, hkv, Option.bind_eq_bind, Option.bind_some]
  | write k v =>
    simp only [exec, Option.bind_eq_bind, Option.bind_eq_some_iff, Option.some.injEq,
      Prod.mk.injEq] at h
    obtain ⟨⟨kv₁, ret⟩, hwrite, rfl, -⟩ := h
    refine ⟨.code ret, ?_⟩
    simp only [perform, hwrite, Option.bind_eq_bind, Option.bind_some]
  | delete k =>
    simp only [exec, Option.bind_eq_bind, Option.bind_eq_some_iff, Option.some.injEq,
      Prod.mk.injEq] at h
    obtain ⟨kv₁, hdelete, rfl, -⟩ := h
    refine ⟨.done, ?_⟩
    simp only [perform, hdelete, Option.bind_eq_bind, Option.bind_some]

/-- An operation on a store with linked chains returns and leaves linked chains. -/
theorem perform_linked {job : Job} (h : Linked kv c) (hjob : job.Fits) :
    ∃ kv' r, perform job kv = some (kv', r) ∧ ∃ c', Linked kv' c' := by
  cases job with
  | call s =>
    obtain ⟨kv', reply, hexec, hlinked⟩ := exec_linked h hjob
    obtain ⟨r, hperform⟩ := perform_of_exec hexec
    exact ⟨kv', r, hperform, hlinked⟩
  | dump =>
    obtain ⟨lines, hdump, -⟩ := kvDump_spec h
    refine ⟨kv, .printed lines, ?_, c, h⟩
    simp only [perform, hdump, Option.bind_eq_bind, Option.bind_some]

/-- Sections that run one after the other are operations that do so. -/
theorem run_of_log {log : List (Job × Return)} (h : (sections junk).Log kvInit log kv)
    (hfits : ∀ x ∈ log, x.1.Fits) :
    run perform (log.map Prod.fst) kvInit = some (kv, log) ∧ ∃ c, Linked kv c := by
  induction h with
  | nil => exact ⟨rfl, _, linked_kvInit⟩
  | @concat log kv job r kv' _ hruns ih =>
    rw [List.forall_mem_append, List.forall_mem_singleton] at hfits
    obtain ⟨hrun, c, hc⟩ := ih hfits.1
    obtain ⟨kv₁, r₁, hperform, c', hc'⟩ := perform_linked hc hfits.2
    obtain ⟨rfl, rfl⟩ := hruns.unique (runs_perform hperform)
    refine ⟨?_, c', hc'⟩
    rw [List.map_append]
    refine run_append hrun ?_
    simp only [List.map_cons, List.map_nil, run, hperform, Option.bind_eq_bind, Option.bind_some]

/-! ## The monitor lets in as the sections need it -/

/-- What a thread has to do fits to where it is. -/
def Ready (place : Place Operation) (work : Option (Job × Code)) : Prop :=
  match place with
  | .outside => work = none
  | .waiting op | .woken op => ∃ job, work = some (job, job.start) ∧ op = job.operation
  | .inside op => ∃ job l, work = some (job, l) ∧ l.kind = op.kind

/-- A thread that is woken has the same to do. -/
theorem Ready.wake {place : Place Operation} {work : Option (Job × Code)} (h : Ready place work) :
    Ready place.wake work := by
  cases place with
  | outside => exact h
  | waiting op => exact h
  | woken op => exact h
  | inside op => exact h

/-- The first access of an operation reads or writes as the operation does. -/
theorem Job.kind_start (job : Job) : job.start.kind = job.operation.kind := by
  cases job with
  | call s =>
    obtain ⟨A, call⟩ := s
    cases call <;> rfl
  | dump => rfl

omit [DecidableEq T] in
/-- The readers and the writers are the threads that are inside as such. -/
theorem mem_users {k : Kind} {place : T → Place Operation} {t : T} :
    t ∈ users k place ↔ usedAs (place t) = some k := by
  simp [users]

namespace Monitor

variable {m m' : Monitor T} {t : T} {op : Operation}

/-- The test of the entry section: the thread waits, or it goes in and may share the store with
those inside. -/
theorem test_cases (h : MonitorInv m) (op : Operation) (t : T) :
    (m.test t op).place = Function.update m.place t (.waiting op) ∨
      (m.test t op).place = Function.update m.place t (.inside op) ∧
        ∀ t' op', m.place t' = .inside op' → op.kind = .reader ∧ op'.kind = .reader := by
  -- No user of kind `k` is counted, so none is inside.
  have hnone : ∀ {k t' op'}, (users k m.place).card = 0 → m.place t' = .inside op' →
    op'.kind ≠ k := by
    intro k t' op' hcard hin hk
    have hmem : t' ∈ users k m.place := mem_users.mpr (by rw [hin, usedAs, hk])
    rw [Finset.card_eq_zero.mp hcard] at hmem
    exact Finset.notMem_empty _ hmem
  have husers := h.users
  unfold test
  cases hop : op.kind with
  | reader =>
    dsimp only
    split_ifs with hneg
    · exact .inl rfl
    · refine .inr ⟨rfl, fun t' op' hin => ⟨rfl, ?_⟩⟩
      -- The count is not negative: no writer is inside.
      have hne := hnone (k := .writer) (by omega) hin
      cases hk : op'.kind with
      | reader => rfl
      | writer => exact absurd hk hne
  | writer =>
    dsimp only
    split_ifs with hne
    · exact .inl rfl
    · refine .inr ⟨rfl, fun t' op' hin => ?_⟩
      -- The count is 0: nobody is inside.
      have hreader := hnone (k := .reader) (by omega) hin
      have hwriter := hnone (k := .writer) (by omega) hin
      cases hk : op'.kind with
      | reader => exact absurd hk hreader
      | writer => exact absurd hk hwriter

/-- The exit section: the thread is outside, and others are woken. -/
theorem leave_cases {choice : Option T} (h : m.leave t op choice = some m') :
    m'.place t = .outside ∧ ∀ t' ≠ t, m'.place t' = m.place t' ∨
    m'.place t' = (m.place t').wake := by
  have hout : Function.update m.place t .outside t = .outside := Function.update_self ..
  have hothers : ∀ t' ≠ t, Function.update m.place t .outside t' = m.place t' := fun t' hne =>
    Function.update_of_ne hne ..
  unfold leave at h
  cases hop : op.kind with
  | reader =>
    simp only [hop] at h
    split_ifs at h
    · simp only [Option.bind_eq_bind, Option.bind_eq_some_iff, Option.some_inj] at h
      obtain ⟨place, hsignal, rfl⟩ := h
      -- The last reader signals one thread, of the monitor's choice.
      rcases Place.signal_cases hsignal with ⟨w, hw, rfl⟩ | ⟨-, rfl⟩
      · refine ⟨?_, fun t' hne => ?_⟩
        · obtain rfl | htw := eq_or_ne t w
          · rw [hout] at hw
            cases hw
          · exact (Function.update_of_ne htw ..).trans hout
        · rw [← hothers t' hne]
          obtain rfl | hw' := eq_or_ne t' w
          · exact .inr (Function.update_self ..)
          · exact .inl (Function.update_of_ne hw' ..)
      · exact ⟨hout, fun t' hne => .inl (hothers t' hne)⟩
    · obtain rfl := Option.some.inj h
      exact ⟨hout, fun t' hne => .inl (hothers t' hne)⟩
  | writer =>
    simp only [hop] at h
    obtain rfl := Option.some.inj h
    -- A writer wakes everyone.
    refine ⟨?_, fun t' hne => .inr ?_⟩
    · simp only [Place.broadcast, hout, Place.wake]
    · simp only [Place.broadcast, hothers t' hne]

end Monitor

/-! ## The invariant -/

/-- The threads inside with their sections, and the operations that have left. -/
def System.shared (s : System T) (log : List (Job × Return)) : Shared T Job Code KvStore Return :=
  ⟨s.kv, fun t => (usedAs (s.monitor.place t)).bind fun _ => s.work t, log⟩

/-- What holds in every reachable state. -/
structure SystemInv (junk : Junk) (log : List (Job × Return)) (s : System T) : Prop where
  monitor : MonitorInv s.monitor
  ready : ∀ t, Ready (s.monitor.place t) (s.work t)
  fits : ∀ {t job l}, s.work t = some (job, l) → job.Fits
  logged : ∀ x ∈ log, x.1.Fits
  linear : ∃ base, Shared.Linear (sections junk) kvInit (s.shared log) base

omit [DecidableEq T] in
/-- The invariant holds at the start. -/
theorem systemInv_init (junk : Junk) : SystemInv junk [] (systemInit T) where
  monitor := monitorInv_init
  ready _ := rfl
  fits h := by cases h
  logged _ h := by cases h
  linear := ⟨kvInit, Shared.linear_init _ _⟩

variable {log : List (Job × Return)} {s s' : System T} {t : T} {job : Job} {l : Code}

omit [DecidableEq T] [Fintype T] in
/-- A thread inside the monitor is inside its section. -/
theorem System.shared_inside {op : Operation} (hin : s.monitor.place t = .inside op) :
    (s.shared log).inside t = s.work t := by
  simp only [System.shared, hin, usedAs, Option.bind_some]

omit [DecidableEq T] in
/-- A thread in the monitor is inside with a section of its kind. -/
theorem SystemInv.inside_of_shared {x : Job × Code} (h : SystemInv junk log s)
    (hx : (s.shared log).inside t = some x) :
    ∃ op, s.monitor.place t = .inside op ∧ s.work t = some x ∧ x.2.kind = op.kind := by
  have hready := h.ready t
  cases hplace : s.monitor.place t with
  | inside op =>
    rw [hplace] at hready
    obtain ⟨job, l, hwork, hkind⟩ := hready
    rw [System.shared_inside hplace, hwork] at hx
    obtain rfl := Option.some.inj hx
    exact ⟨op, rfl, hwork, hkind⟩
  | _ =>
    simp only [System.shared, hplace, usedAs, Option.bind_none, reduceCtorEq] at hx

/-- A thread comes to another place or has something else to do, and others may be woken. -/
theorem SystemInv.update {m : Monitor T} {k : KvStore} {w : Option (Job × Code)}
    {log' : List (Job × Return)}
    (h : SystemInv junk log s) (hm : MonitorInv m)
    (hothers : ∀ t' ≠ t, m.place t' = s.monitor.place t' ∨ m.place t' = (s.monitor.place t').wake)
    (hready : Ready (m.place t) w) (hfits : ∀ job l, w = some (job, l) → job.Fits)
    (hlogged : ∀ x ∈ log', x.1.Fits)
    (hlinear : ∃ base, Shared.Linear (sections junk) kvInit
      ⟨k, Function.update (s.shared log).inside t ((usedAs (m.place t)).bind fun _ => w),
        log'⟩ base) :
    SystemInv junk log' ⟨m, k, Function.update s.work t w⟩ := by
  refine ⟨hm, fun t' => ?_, fun {t' job l} hwork => ?_, hlogged, ?_⟩
  · dsimp only
    obtain rfl | hne := eq_or_ne t' t
    · rwa [Function.update_self]
    · rw [Function.update_of_ne hne]
      rcases hothers t' hne with hplace | hplace
      · exact hplace ▸ h.ready t'
      · exact hplace ▸ (h.ready t').wake
  · dsimp only at hwork
    obtain rfl | hne := eq_or_ne t' t
    · rw [Function.update_self] at hwork
      exact hfits job l hwork
    · rw [Function.update_of_ne hne] at hwork
      exact h.fits hwork
  -- What the store sees of the other threads is unchanged, since a woken thread is still outside.
  · have hshared : System.shared ⟨m, k, Function.update s.work t w⟩ log' = ⟨k, Function.update
        (s.shared log).inside t ((usedAs (m.place t)).bind fun _ => w), log'⟩ := by
      simp only [System.shared]
      congr 1
      funext t'
      obtain rfl | hne := eq_or_ne t' t
      · rw [Function.update_self, Function.update_self]
      · rw [Function.update_of_ne hne, Function.update_of_ne hne]
        rcases hothers t' hne with hplace | hplace
        · rw [hplace]
        · rw [hplace, usedAs_wake]
    rwa [hshared]

/-- The test of the entry section, by a thread with a job that is not inside. -/
theorem SystemInv.test (h : SystemInv junk log s) (ht : usedAs (s.monitor.place t) = none)
    (hjob : job.Fits) : SystemInv junk log
      ⟨s.monitor.test t job.operation, s.kv, Function.update s.work t (some (job, job.start))⟩ := by
  have hfits : ∀ job' l, some (job, job.start) = some (job', l) → job'.Fits := by
    intro job' l heq
    obtain ⟨rfl, -⟩ := Prod.mk.inj (Option.some.inj heq)
    exact hjob
  have hout : (s.shared log).inside t = none := by simp only [System.shared, ht, Option.bind_none]
  obtain ⟨base, hlinear⟩ := h.linear
  rcases Monitor.test_cases h.monitor job.operation t with hplace | ⟨hplace, hfree⟩
  · have hself : (s.monitor.test t job.operation).place t = .waiting job.operation := by
      rw [hplace, Function.update_self]
    refine h.update (h.monitor.test ht) (fun t' hne => .inl ?_) ?_ hfits h.logged ⟨base, ?_⟩
    · rw [hplace, Function.update_of_ne hne]
    · rw [hself]
      exact ⟨job, rfl, rfl⟩
    · -- The thread waits, which the store does not see.
      simp only [hself, usedAs, Option.bind_none]
      rw [← hout, Function.update_eq_self]
      exact hlinear
  · have hself : (s.monitor.test t job.operation).place t = .inside job.operation := by
      rw [hplace, Function.update_self]
    refine h.update (h.monitor.test ht) (fun t' hne => .inl ?_) ?_ hfits h.logged ?_
    · rw [hplace, Function.update_of_ne hne]
    · rw [hself]
      exact ⟨job, _, rfl, job.kind_start⟩
    -- The thread goes in, and only readers are inside with a reader.
    · rw [hself, usedAs, Option.bind_some]
      refine hlinear.step (.enter hout fun t' x hx => ?_)
      obtain ⟨op, hin, -, hkind⟩ := h.inside_of_shared hx
      obtain ⟨hreader, hop⟩ := hfree t' op hin
      refine ⟨decide_eq_false ?_, decide_eq_false ?_⟩
      · rw [show (sections junk).start job = job.start from rfl, job.kind_start, hreader]
        decide
      · rw [hkind, hop]
        decide

/-- One access of a thread inside. -/
theorem SystemInv.access {op : Operation} {l' : Code} (h : SystemInv junk log s)
    (hin : s.monitor.place t = .inside op) (hwork : s.work t = some (job, l))
    (haccess : Lab3.access junk l s.kv = some (l', kv')) :
    SystemInv junk log ⟨s.monitor, kv', Function.update s.work t (some (job, l'))⟩ := by
  obtain ⟨base, hlinear⟩ := h.linear
  have hready := h.ready t
  rw [hin, hwork] at hready
  obtain ⟨job', l₁, heq, hkind⟩ := hready
  obtain ⟨rfl, rfl⟩ := Prod.mk.inj (Option.some.inj heq)
  refine h.update h.monitor (fun _ _ => .inl rfl) ?_ (fun job' l₁ heq => ?_) h.logged ?_
  · rw [hin]
    exact ⟨job, l', rfl, (access_kind haccess).1.trans hkind⟩
  · obtain ⟨rfl, -⟩ := Prod.mk.inj (Option.some.inj heq)
    exact h.fits hwork
  · rw [hin, usedAs, Option.bind_some]
    exact hlinear.step (.act ((System.shared_inside hin).trans hwork) haccess)

/-- The exit section of a thread that is in front of it. -/
theorem SystemInv.leave {op : Operation} {choice : Option T} {m : Monitor T} {r : Return}
    (h : SystemInv junk log s) (hin : s.monitor.place t = .inside op)
    (hwork : s.work t = some (job, l)) (hr : l.result = some r)
    (hleave : s.monitor.leave t op choice = some m) :
    SystemInv junk (log ++ [(job, r)]) ⟨m, s.kv, Function.update s.work t none⟩ := by
  obtain ⟨base, hlinear⟩ := h.linear
  obtain ⟨hout, hothers⟩ := Monitor.leave_cases hleave
  refine h.update (h.monitor.leave hin hleave) hothers ?_ (fun _ _ heq => by cases heq) ?_ ?_
  · rw [hout]
    rfl
  · rw [List.forall_mem_append, List.forall_mem_singleton]
    exact ⟨h.logged, h.fits hwork⟩
  · simp only [hout, usedAs, Option.bind_none]
    exact hlinear.step (.leave ((System.shared_inside hin).trans hwork) hr)

/-- Every step keeps the invariant. -/
theorem SystemInv.step {event : Event T} {o : Option (Job × Return)} (h : SystemInv junk log s)
    (hevent : event.Fits) (hstep : s.step junk event = some (s', o)) :
    SystemInv junk (log ++ o.toList) s' := by
  -- One case for each event; the test of the monitor serves two of them.
  cases event with
  | enter t job =>
    simp only [System.step, Monitor.step, Option.bind_eq_bind, Option.bind_eq_some_iff,
      Option.some.injEq, Prod.mk.injEq] at hstep
    obtain ⟨m, hm, rfl, rfl⟩ := hstep
    split at hm
    · rename_i hplace
      obtain rfl := Option.some.inj hm
      rw [Option.toList_none, List.append_nil]
      exact h.test (by rw [hplace]; rfl) hevent
    · cases hm
  | recheck t =>
    simp only [System.step, Monitor.step, Option.bind_eq_bind, Option.bind_eq_some_iff,
      Option.some.injEq, Prod.mk.injEq] at hstep
    obtain ⟨m, hm, rfl, rfl⟩ := hstep
    split at hm
    · rename_i op hplace
      obtain rfl := Option.some.inj hm
      have hready := h.ready t
      rw [hplace] at hready
      obtain ⟨job, hwork, rfl⟩ := hready
      have htest : SystemInv junk log ⟨s.monitor.test t job.operation, s.kv,
          Function.update s.work t (some (job, job.start))⟩ :=
        h.test (by rw [hplace]; rfl) (h.fits hwork)
      rw [← hwork, Function.update_eq_self] at htest
      rwa [Option.toList_none, List.append_nil]
    · cases hm
  | spurious t =>
    simp only [System.step, Monitor.step, Option.bind_eq_bind, Option.bind_eq_some_iff,
      Option.some.injEq, Prod.mk.injEq] at hstep
    obtain ⟨m, hm, rfl, rfl⟩ := hstep
    split at hm
    · rename_i op hplace
      obtain rfl := Option.some.inj hm
      rw [Option.toList_none, List.append_nil]
      -- A thread woken for no reason is still one that waits, as far as the store goes.
      have hwake : Place.wakeOne t s.monitor.place t = (s.monitor.place t).wake :=
        Function.update_self ..
      have hready : Ready (Place.wakeOne t s.monitor.place t) (s.work t) := by
        rw [hwake]
        exact (h.ready t).wake
      have hupdate :=
        h.update (t := t) (m := ⟨s.monitor.activeUsers, Place.wakeOne t s.monitor.place⟩)
        (w := s.work t) (k := s.kv) (h.monitor.wakeOne (by rw [hplace]; rfl))
        (fun t' hne => .inl (Function.update_of_ne hne ..)) hready (fun job l => h.fits) h.logged
      rw [Function.update_eq_self] at hupdate
      refine hupdate ?_
      dsimp only
      rw [hwake, usedAs_wake]
      have hself := Function.update_eq_self t (s.shared log).inside
      simp only [System.shared] at hself ⊢
      rw [hself]
      exact h.linear
    · cases hm
  | access t =>
    simp only [System.step] at hstep
    split at hstep
    · rename_i op hin
      simp only [Option.bind_eq_bind, Option.bind_eq_some_iff, Option.some.injEq,
        Prod.mk.injEq] at hstep
      obtain ⟨⟨job, l⟩, hwork, ⟨l', kv'⟩, haccess, rfl, rfl⟩ := hstep
      rw [Option.toList_none, List.append_nil]
      exact h.access hin hwork haccess
    · cases hstep
  | exit t choice =>
    simp only [System.step, Monitor.step, Option.bind_eq_bind, Option.bind_eq_some_iff,
      Option.some.injEq, Prod.mk.injEq] at hstep
    obtain ⟨⟨job, l⟩, hwork, r, hr, m, hm, rfl, rfl⟩ := hstep
    split at hm
    · rename_i op hin
      exact h.leave hin hwork hr hm
    · cases hm

variable {events : List (Event T)} {hist : List (Event T × Option (Job × Return))}

omit [DecidableEq T] [Fintype T] in
/-- One more event adds the operation that leaves with it. -/
theorem left_concat (x : Event T × Option (Job × Return)) :
    left (hist ++ [x]) = left hist ++ x.2.toList := by
  obtain ⟨event, o⟩ := x
  rw [left, List.filterMap_append, left]
  cases o <;> rfl

/-- Every run keeps the invariant. -/
theorem systemInv_of_run (hfits : ∀ e ∈ events, e.Fits)
    (hrun : run (System.step junk) events (systemInit T) = some (s, hist)) :
    SystemInv junk (left hist) s := by
  refine run_invariant (fun hist s => SystemInv junk (left hist) s) ?_ (systemInv_init junk)
    (Meets.of_forall hfits (systemInit T)) hrun
  intro hist s event s' o h hevent hstep
  rw [left_concat]
  exact h.step hevent hstep

omit [DecidableEq T] in
/-- The operations that have left are a sequential run, and a thread inside has begun in the store
at its end and gets to its exit section when it is left alone. -/
theorem SystemInv.sequential (h : SystemInv junk log s) : ∃ kv,
    run perform (log.map Prod.fst) kvInit = some (kv, log) ∧
    ((∀ t op, s.monitor.place t = .inside op → op.kind = .reader) → s.kv = kv) ∧
    ∀ t op, s.monitor.place t = .inside op → ∃ job l r kv', s.work t = some (job, l) ∧
      perform job kv = some (kv', r) ∧
      ∃ l', (sections junk).Steps (l, s.kv) (l', kv') ∧ l'.result = some r := by
  obtain ⟨base, hlinear⟩ := h.linear
  obtain ⟨hrun, c, hc⟩ := run_of_log hlinear.log h.logged
  refine ⟨base, hrun, fun hreaders => hlinear.still fun t x hx => ?_, fun t op hin => ?_⟩
  -- With readers alone inside the store is the one all finished calls have left.
  · obtain ⟨op, hin, -, hkind⟩ := h.inside_of_shared hx
    refine decide_eq_false ?_
    rw [hkind, hreaders t op hin]
    decide
  -- A thread inside is somewhere in its call, taken on that store.
  · have hready := h.ready t
    rw [hin] at hready
    obtain ⟨job, l, hwork, -⟩ := hready
    obtain ⟨kv', r, hperform, -⟩ := perform_linked hc (h.fits hwork)
    obtain ⟨l', hsteps, hr⟩ : (sections junk).Runs job base r kv' := runs_perform hperform
    have hbegun := hlinear.steps ((System.shared_inside hin).trans hwork)
    exact ⟨job, l, r, kv', hwork, hperform, l', hbegun.to_end hsteps hr, hr⟩

/-- A thread can always go through its exit section. -/
theorem Monitor.exists_leave (m : Monitor T) (t : T) (op : Operation) :
    ∃ choice m', m.leave t op choice = some m' := by
  cases hop : op.kind with
  | writer => exact ⟨none, ⟨0, _⟩, by simp only [Monitor.leave, hop]; rfl⟩
  | reader =>
    obtain ⟨choice, place, hsignal⟩ := Place.exists_signal (Function.update m.place t .outside)
    by_cases hzero : m.activeUsers - 1 = 0
    · refine ⟨choice, ⟨m.activeUsers - 1, place⟩, ?_⟩
      simp only [Monitor.leave, hop, hzero, if_true, hsignal, Option.bind_eq_bind, Option.bind_some]
    · refine ⟨choice, ⟨m.activeUsers - 1, Function.update m.place t .outside⟩, ?_⟩
      simp only [Monitor.leave, hop, hzero, if_false]

/-- A thread in front of its exit section can leave. -/
theorem SystemInv.exists_exit {op : Operation} {r : Return} (h : SystemInv junk log s)
    (hin : s.monitor.place t = .inside op) (hwork : s.work t = some (job, l))
    (hr : l.result = some r) : ∃ choice m, s.step junk (.exit t choice) =
      some (⟨m, s.kv, Function.update s.work t none⟩, some (job, r)) ∧
      SystemInv junk (log ++ [(job, r)]) ⟨m, s.kv, Function.update s.work t none⟩ := by
  obtain ⟨choice, m, hleave⟩ := s.monitor.exists_leave t op
  refine ⟨choice, m, ?_, h.leave hin hwork hr hleave⟩
  simp only [System.step, Monitor.step, hwork, hr, hin, hleave, Option.bind_eq_bind,
    Option.bind_some]

/-- **The store is linearizable.** After any interleaving of the steps of any number of threads, the
operations that have left, in the order of their exit sections, are a sequential run on a new store
with the same results; the store is the one at the end of that run unless a writer is inside; and a
thread inside is able to take its next step, so that none has to follow a pointer to a freed cell,
free one twice, or write past an array. -/
theorem kvstore_linearizable (hfits : ∀ e ∈ events, e.Fits)
    (hrun : run (System.step junk) events (systemInit T) = some (s, hist)) :
    ∃ kv, run perform ((left hist).map Prod.fst) kvInit = some (kv, left hist) ∧
      ((∀ t op, s.monitor.place t = .inside op → op.kind = .reader) → s.kv = kv) ∧
      ∀ t op, s.monitor.place t = .inside op → ∃ event s' o,
        (event = .access t ∨ ∃ choice, event = .exit t choice) ∧
        s.step junk event = some (s', o) := by
  have h := systemInv_of_run hfits hrun
  obtain ⟨kv, hseq, hstill, hinside⟩ := h.sequential
  refine ⟨kv, hseq, hstill, fun t op hin => ?_⟩
  obtain ⟨job, l, r, kv', hwork, -, l', hsteps, hr⟩ := hinside t op hin
  rcases hsteps.cases_head with heq | ⟨⟨l₁, kv₁⟩, haccess, -⟩
  · obtain ⟨rfl, rfl⟩ := Prod.mk.inj heq
    obtain ⟨choice, m, hexit, -⟩ := h.exists_exit hin hwork hr
    exact ⟨.exit t choice, _, _, .inr ⟨choice, rfl⟩, hexit⟩
  · have haccess : Lab3.access junk l s.kv = some (l₁, kv₁) := haccess
    refine ⟨.access t, ⟨s.monitor, kv₁, Function.update s.work t (some (job, l₁))⟩, none,
      .inl rfl, ?_⟩
    simp only [System.step, hin, hwork, haccess, Option.bind_eq_bind, Option.bind_some]

/-- A dump waits while `ab` is written, and a read of `ab` enters and leaves while the dump goes
on. -/
def overlap : List (Event Bool) :=
  [.enter true (.call (Call.write keyAb keyBA).step), .enter false .dump] ++
    List.replicate 10 (.access true) ++ [.exit true none, .recheck false, .access false,
    .enter true (.call (Call.read keyAb).step), .access true, .access true, .access true,
      .access true,
    .exit true none, .access false]

/-- The run with two threads above, with what holds after it. -/
theorem kvstore_linearizable_overlap : ∃ s hist,
    run (System.step ⟨⟨keyAb, 0, none⟩, keyAb⟩) overlap (systemInit Bool) = some (s, hist) ∧
    ∃ kv, run perform ((left hist).map Prod.fst) kvInit = some (kv, left hist) ∧
      ((∀ t op, s.monitor.place t = .inside op → op.kind = .reader) → s.kv = kv) ∧
      ∀ t op, s.monitor.place t = .inside op → ∃ event s' o,
        (event = .access t ∨ ∃ choice, event = .exit t choice) ∧
          s.step ⟨⟨keyAb, 0, none⟩, keyAb⟩ event = some (s', o) := by
  have hreturns :
    (run (System.step ⟨⟨keyAb, 0, none⟩, keyAb⟩) overlap (systemInit Bool)).isSome = true :=
    by decide +kernel
  obtain ⟨⟨s, hist⟩, hrun⟩ := Option.isSome_iff_exists.mp hreturns
  exact ⟨s, hist, hrun, kvstore_linearizable (by decide) hrun⟩

/-! ## No operation is blocked for good -/

/-- A step of an operation that is under way. -/
def Event.GoesOn : Event T → Prop
  | .enter _ _ | .spurious _ => False
  | .recheck _ | .access _ | .exit _ _ => True

/-- The threads with an operation under way. -/
def busy (s : System T) : Finset T := Finset.univ.filter fun t => s.work t ≠ none

/-- A thread leaves the ones that are busy. -/
theorem busy_leave {m : Monitor T} (hwork : s.work t ≠ none) :
    (busy ⟨m, kv, Function.update s.work t none⟩).card < (busy s).card := by
  refine Finset.card_lt_card (Finset.ssubset_iff_subset_ne.mpr ⟨fun t' ht' => ?_, fun heq => ?_⟩)
  · simp only [busy, Finset.mem_filter, Finset.mem_univ, true_and] at ht' ⊢
    obtain rfl | hne := eq_or_ne t' t
    · exact hwork
    · rwa [Function.update_of_ne hne] at ht'
  · have ht : t ∈ busy s := by simpa [busy] using hwork
    rw [← heq] at ht
    simp [busy] at ht

/-- Steps that lead to a state in which fewer threads are busy. -/
def Proceeds (junk : Junk) (log : List (Job × Return)) (s : System T) : Prop :=
  ∃ events s' hist, (∀ e ∈ events, e.GoesOn) ∧ run (System.step junk) events s = some (s', hist) ∧
    SystemInv junk (log ++ left hist) s' ∧ (busy s').card < (busy s).card

/-- A step comes in front of those that let the operations proceed. -/
theorem Proceeds.cons {event : Event T} (hevent : event.GoesOn)
    (hstep : s.step junk event = some (s', none)) (hbusy : busy s' = busy s)
    (h : Proceeds junk log s') : Proceeds junk log s := by
  obtain ⟨events, s₁, hist, hgo, hrun, hinv, hlt⟩ := h
  refine ⟨event :: events, s₁, (event, none) :: hist, ?_, ?_, ?_, hbusy ▸ hlt⟩
  · rw [List.forall_mem_cons]
    exact ⟨hevent, hgo⟩
  · simp only [run, hstep, hrun, Option.bind_eq_bind, Option.bind_some]
  · exact hinv

/-- The thread inside takes its steps up to its exit section and leaves. -/
theorem SystemInv.finish {op : Operation} {r : Return} {x y : Code × KvStore}
    (hr : y.1.result = some r) (hsteps : (sections junk).Steps x y) (h : SystemInv junk log s)
    (hin : s.monitor.place t = .inside op) (hwork : s.work t = some (job, x.1)) (hkv : s.kv = x.2) :
    Proceeds junk log s := by
  -- Induction on the accesses left; each is a step, and the last one leaves the monitor.
  induction hsteps using Relation.ReflTransGen.head_induction_on generalizing s with
  | refl =>
    obtain ⟨choice, m, hexit, hinv⟩ := h.exists_exit hin hwork hr
    refine ⟨[.exit t choice], _, [(.exit t choice, some (job, r))], ?_, ?_, hinv, ?_⟩
    · rw [List.forall_mem_singleton]
      trivial
    · simp only [run, hexit, Option.bind_eq_bind, Option.bind_some]
    · exact busy_leave (by rw [hwork]; exact Option.some_ne_none _)
  | @head x z haccess _ ih =>
    obtain ⟨l', kv'⟩ := z
    have haccess : Lab3.access junk x.1 s.kv = some (l', kv') := hkv ▸ haccess
    have hstep : s.step junk (.access t) =
        some (⟨s.monitor, kv', Function.update s.work t (some (job, l'))⟩, none) := by
      simp only [System.step, hin, hwork, haccess, Option.bind_eq_bind, Option.bind_some]
    have hgo : (Event.access t).GoesOn := trivial
    refine .cons hgo hstep ?_ (ih (h.access hin hwork haccess) hin (Function.update_self ..) rfl)
    refine Finset.filter_congr fun t' _ => ?_
    dsimp only
    obtain rfl | hne := eq_or_ne t' t
    · rw [Function.update_self, hwork]
      exact iff_of_true (Option.some_ne_none _) (Option.some_ne_none _)
    · rw [Function.update_of_ne hne]

/-- As long as a thread is inside, the operations can proceed. -/
theorem SystemInv.proceeds_inside {op : Operation} (h : SystemInv junk log s)
    (hin : s.monitor.place t = .inside op) : Proceeds junk log s := by
  obtain ⟨kv, -, -, hinside⟩ := h.sequential
  obtain ⟨job, l, r, kv', hwork, -, l', hsteps, hr⟩ := hinside t op hin
  exact SystemInv.finish hr hsteps h hin hwork rfl

/-- As long as a thread is busy, some thread gets to its end. -/
theorem SystemInv.proceeds (h : SystemInv junk log s) (hwork : s.work t ≠ none) :
    Proceeds junk log s := by
  by_cases hinside : ∃ t op, s.monitor.place t = .inside op
  · obtain ⟨t', op, hin⟩ := hinside
    exact h.proceeds_inside hin
  · -- Nobody is inside, so a thread has been woken, and it finds the store free.
    have hnobody : ∀ k, (users k s.monitor.place).card = 0 := by
      refine fun k => Finset.card_eq_zero.mpr (Finset.eq_empty_of_forall_notMem fun t' ht' => ?_)
      have hused := mem_users.mp ht'
      cases hplace : s.monitor.place t' with
      | inside op => exact hinside ⟨t', op, hplace⟩
      | _ =>
        rw [hplace] at hused
        cases hused
    have hzero : s.monitor.activeUsers = 0 := by
      have husers := h.monitor.users
      have hreader := hnobody .reader
      have hwriter := hnobody .writer
      omega
    have hwoken : ∃ w op, s.monitor.place w = .woken op := by
      have hready := h.ready t
      cases hplace : s.monitor.place t with
      | outside =>
        rw [hplace] at hready
        exact absurd hready hwork
      | inside op => exact absurd ⟨t, op, hplace⟩ hinside
      | woken op => exact ⟨t, op, hplace⟩
      | waiting op =>
        obtain ⟨w, hw⟩ := h.monitor.wakeup hzero ⟨t, by rw [hplace]; rfl⟩
        cases hplace' : s.monitor.place w with
        | woken op => exact ⟨w, op, hplace'⟩
        | _ =>
          rw [hplace'] at hw
          cases hw
    obtain ⟨w, op, hw⟩ := hwoken
    have htest : s.monitor.step (.recheck w) = some (s.monitor.test w op) := by
      simp only [Monitor.step, hw]
    have hstep : s.step junk (.recheck w) =
      some ({ s with monitor := s.monitor.test w op }, none) := by
      simp only [System.step, htest, Option.bind_eq_bind, Option.bind_some]
    have hfits : (Event.recheck w).Fits := trivial
    have hinv : SystemInv junk log { s with monitor := s.monitor.test w op } := by
      have hstep' := h.step hfits hstep
      rwa [Option.toList_none, List.append_nil] at hstep'
    have hin : (s.monitor.test w op).place w = .inside op := by
      cases hop : op.kind with
      | reader => simp [Monitor.test, hop, hzero]
      | writer => simp [Monitor.test, hop, hzero]
    have hgo : (Event.recheck w).GoesOn := trivial
    exact .cons hgo hstep rfl (hinv.proceeds_inside hin)

/-- **No operation is blocked for good.** From every state that any interleaving leads to, steps of
the operations that are under way alone, without a spurious wakeup, lead to one in which every
operation has left. -/
theorem kvstore_completes (hfits : ∀ e ∈ events, e.Fits)
    (hrun : run (System.step junk) events (systemInit T) = some (s, hist)) :
    ∃ more s' rest, (∀ e ∈ more, e.GoesOn) ∧
      run (System.step junk) (events ++ more) (systemInit T) = some (s', hist ++ rest) ∧
      ∀ t, s'.work t = none ∧ s'.monitor.place t = .outside := by
  -- Induction on the number of threads with work.
  have hgo : ∀ n log, ∀ s : System T, SystemInv junk log s → (busy s).card = n →
      ∃ more s' rest, (∀ e ∈ more, e.GoesOn) ∧ run (System.step junk) more s = some (s', rest) ∧
        ∀ t, s'.work t = none ∧ s'.monitor.place t = .outside := by
    intro n
    induction n using Nat.strong_induction_on with
    | _ n ih =>
      intro log s h hn
      by_cases hbusy : ∃ t, s.work t ≠ none
      · obtain ⟨t, ht⟩ := hbusy
        obtain ⟨events₁, s₁, hist₁, hgo₁, hrun₁, h₁, hlt⟩ := h.proceeds ht
        obtain ⟨more, s', rest, hgo, hrun, hdone⟩ := ih _ (hn ▸ hlt) _ s₁ h₁ rfl
        refine ⟨events₁ ++ more, s', hist₁ ++ rest, ?_, run_append hrun₁ hrun, hdone⟩
        rw [List.forall_mem_append]
        exact ⟨hgo₁, hgo⟩
      · refine ⟨[], s, [], List.forall_mem_nil _, rfl, fun t => ?_⟩
        have hwork : s.work t = none := not_not.mp fun hne => hbusy ⟨t, hne⟩
        refine ⟨hwork, ?_⟩
        have hready := h.ready t
        rw [hwork] at hready
        cases hplace : s.monitor.place t with
        | outside => rfl
        | _ => simp [Ready, hplace] at hready
  obtain ⟨more, s', rest, hmore, hrest, hdone⟩ := hgo _ _ s (systemInv_of_run hfits hrun) rfl
  exact ⟨more, s', rest, hmore, run_append hrun hrest, hdone⟩

/-- The run with two threads above, and how it can be completed. -/
theorem kvstore_completes_overlap : ∃ s hist,
    run (System.step ⟨⟨keyAb, 0, none⟩, keyAb⟩) overlap (systemInit Bool) = some (s, hist) ∧
    ∃ more s' rest, (∀ e ∈ more, e.GoesOn) ∧
      run (System.step ⟨⟨keyAb, 0, none⟩, keyAb⟩) (overlap ++ more) (systemInit Bool) =
        some (s', hist ++ rest) ∧
      ∀ t, s'.work t = none ∧ s'.monitor.place t = .outside := by
  have hreturns :
    (run (System.step ⟨⟨keyAb, 0, none⟩, keyAb⟩) overlap (systemInit Bool)).isSome = true :=
    by decide +kernel
  obtain ⟨⟨s, hist⟩, hrun⟩ := Option.isSome_iff_exists.mp hreturns
  exact ⟨s, hist, hrun, kvstore_completes (by decide) hrun⟩

end Cs5600.Lab3
