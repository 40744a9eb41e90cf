import Mathlib.Data.Int.Notation
import Mathlib.Data.List.Perm.Basic
import Mathlib.Tactic.Common

/-!
# Processes that fork

`Prog` is a program of one process: it calls the system, forks, and in the end returns. Both
processes that a `fork` leaves go on with the rest of the program, the parent with the number of the
child and the child with 0. A `Kernel` answers the calls of a process from the state it has for this
process, and does not answer one that the process does not return from. A kernel is a parameter of
everything below, so a statement for every kernel is one for every outcome of every call.

`run` is what becomes of a program: the process that starts it and those that are forked on the way.
A program is marked at points of interest, and each process notes the marks it passes. `notes_bind`,
`returned_bind` and `main_bind` say how runs of parts make a run of the whole.

`Always` is for properties of what each process passes: a state is kept along the marks, and every
process that is forked takes it over. `last` is the call that ends the process that starts.
-/

namespace Cs5600

/-- A program that makes the calls `C`, with answers in `R`, passes marks in `M` and returns in
`α`. -/
inductive Prog (C : Type) (R : C → Type) (M α : Type) : Type
  | ret (a : α)
  | call (c : C) (k : R c → Prog C R M α)
  | mark (m : M) (k : Prog C R M α)
  | fork (k : ℤ → Prog C R M α)

/-- How calls are answered, for a process in state `κ`. -/
structure Kernel (C : Type) (R : C → Type) (κ : Type) where
  /-- The answer and the state after the call, or `none` when the call does not return. -/
  call : κ → (c : C) → Option (R c × κ)
  /-- The number of the child, and the states of parent and child, or `none` when there is no
  child. -/
  fork : κ → Option ({pid : ℤ // 0 < pid} × κ × κ)

variable {C : Type} {R : C → Type} {M α β κ : Type}

namespace Prog

def bind : Prog C R M α → (α → Prog C R M β) → Prog C R M β
  | ret a, f => f a
  | call c k, f => call c fun r => (k r).bind f
  | mark m k, f => mark m (k.bind f)
  | fork k, f => fork fun pid => (k pid).bind f

instance : Monad (Prog C R M) where
  pure := ret
  bind := bind

/-- The call `c` and its answer. -/
def sys (c : C) : Prog C R M (R c) := call c ret

/-- The mark `m`. -/
def note (m : M) : Prog C R M Unit := mark m (ret ())

/-- `fork` and what it returns. -/
def forks : Prog C R M ℤ := fork ret

/-- `pure` is `ret`. -/
@[simp] theorem pure_eq (a : α) : (pure a : Prog C R M α) = ret a := rfl

/-- A program that returns hands its value on. -/
@[simp] theorem ret_bind (a : α) (f : α → Prog C R M β) : (ret a >>= f) = f a := rfl

/-- What follows a call stands behind it. -/
@[simp] theorem call_bind (c : C) (k : R c → Prog C R M α) (f : α → Prog C R M β) :
    (call c k >>= f) = call c fun r => k r >>= f := rfl

/-- What follows a mark stands behind it. -/
@[simp] theorem mark_bind (m : M) (k : Prog C R M α) (f : α → Prog C R M β) :
    (mark m k >>= f) = mark m (k >>= f) := rfl

/-- What follows a fork stands behind it, in parent and child. -/
@[simp] theorem fork_bind (k : ℤ → Prog C R M α) (f : α → Prog C R M β) :
    (fork k >>= f) = fork fun pid => k pid >>= f := rfl

/-- A single call, and what follows it. -/
@[simp] theorem sys_bind (c : C) (f : R c → Prog C R M β) : (sys c >>= f) = call c f := rfl

/-- A single mark, and what follows it. -/
@[simp] theorem note_bind (m : M) (f : Unit → Prog C R M β) : (note m >>= f) = mark m (f ()) := rfl

/-- A single fork, and what follows it. -/
@[simp] theorem forks_bind (f : ℤ → Prog C R M β) : (forks >>= f) = fork f := rfl

end Prog

/-! ## Runs -/

/-- One process of a run: the marks it has passed since it was forked, each with the state there,
and what it returned, with the state it returned in. -/
structure Proc (M κ α : Type) where
  notes : List (M × κ)
  result : Option (α × κ)

/-- The process that started, and the others. -/
structure Run (M κ α : Type) where
  main : Proc M κ α
  others : List (Proc M κ α)

namespace Run

def procs (r : Run M κ α) : List (Proc M κ α) := r.main :: r.others

/-- The marks that all processes have passed. -/
def notes (r : Run M κ α) : List (M × κ) := r.procs.flatMap Proc.notes

/-- What the processes that returned have returned. -/
def returned (r : Run M κ α) : List (α × κ) := r.procs.filterMap Proc.result

/-- A run whose first process has passed one more mark. -/
def pass (m : M × κ) (r : Run M κ α) : Run M κ α := ⟨⟨m :: r.main.notes, r.main.result⟩, r.others⟩

/-- The runs of a parent and a child. -/
def par (r c : Run M κ α) : Run M κ α := ⟨r.main, r.others ++ c.procs⟩

/-- A mark that is passed is the first one of the run. -/
@[simp] theorem notes_pass (m : M × κ) (r : Run M κ α) : (r.pass m).notes = m :: r.notes := rfl

/-- A mark that is passed returns nothing. -/
@[simp] theorem returned_pass (m : M × κ) (r : Run M κ α) : (r.pass m).returned = r.returned := rfl

/-- The marks of a run with a child are those of both. -/
@[simp] theorem notes_par (r c : Run M κ α) : (r.par c).notes = r.notes ++ c.notes := by
  simp [notes, par, procs]

/-- Parent and child both may return. -/
@[simp] theorem returned_par (r c : Run M κ α) : (r.par c).returned = r.returned ++ c.returned := by
  rw [returned, returned, returned, ← List.filterMap_append]
  rfl

/-- The run of a process that returns. -/
def ret (x : α × κ) : Run M κ α := ⟨⟨[], some x⟩, []⟩

/-- A run that returns at once passes no mark. -/
@[simp] theorem notes_ret (x : α × κ) : (ret x : Run M κ α).notes = [] := rfl

/-- A run that returns at once returns its value. -/
@[simp] theorem returned_ret (x : α × κ) : (ret x : Run M κ α).returned = [x] := rfl

/-- The run of a process that does not return from a call. -/
def stuck : Run M κ α := ⟨⟨[], none⟩, []⟩

/-- A run that is stuck passes no mark. -/
@[simp] theorem notes_stuck : (stuck : Run M κ α).notes = [] := rfl

/-- A run that is stuck returns nothing. -/
@[simp] theorem returned_stuck : (stuck : Run M κ α).returned = [] := rfl

/-- No process returns but the one that started. -/
def Lone (r : Run M κ α) : Prop := ∀ p ∈ r.others, p.result = none

/-- Where nothing returns, no child does. -/
theorem lone_stuck : (stuck : Run M κ α).Lone := fun _ h => by cases h

/-- Where there is no child, none returns. -/
theorem lone_ret (x : α × κ) : (ret x : Run M κ α).Lone := fun _ h => by cases h

/-- Where no child returns, only the main process does. -/
theorem Lone.returned {r : Run M κ α} (h : r.Lone) : r.returned = r.main.result.toList := by
  have hothers : r.others.filterMap Proc.result = [] := List.filterMap_eq_nil_iff.mpr h
  rw [Run.returned, procs, List.filterMap_cons, hothers]
  cases r.main.result <;> rfl

/-- No child returns when neither the new one does nor any other one. -/
theorem lone_par {r c : Run M κ α} : (r.par c).Lone ↔ r.Lone ∧ c.returned = [] := by
  simp only [Lone, par, returned, List.mem_append, or_imp, forall_and, List.filterMap_eq_nil_iff]

end Run

namespace Prog

variable (K : Kernel C R κ)

def run : Prog C R M α → κ → Run M κ α
  | ret a, s => .ret (a, s)
  | call c k, s =>
    match K.call s c with
    | none => .stuck
    | some (r, s') => (k r).run s'
  | mark m k, s => (k.run s).pass (m, s)
  | fork k, s =>
    match K.fork s with
    | none => (k (-1)).run s
    | some (pid, s', c) => ((k pid).run s').par ((k 0).run c)

variable {K}

/-- What a sequence returns comes from each of the returns of its first part. -/
theorem returned_bind (p : Prog C R M α) (f : α → Prog C R M β) (s : κ) :
    ((p >>= f).run K s).returned =
      (p.run K s).returned.flatMap fun x => ((f x.1).run K x.2).returned := by
  induction p generalizing s with
  | ret a => simp [run]
  | call c k ih =>
    simp only [call_bind, run]
    cases K.call s c with
    | none => rfl
    | some x => exact ih x.1 x.2
  | mark m k ih => exact ih s
  | fork k ih =>
    simp only [fork_bind, run]
    cases K.fork s with
    | none => exact ih (-1) s
    | some x =>
      simp only [Run.returned_par, List.flatMap_append]
      exact congrArg₂ (· ++ ·) (ih _ _) (ih _ _)

/-- The marks of a sequence are those of its first part and those that the processes that return
from it pass afterwards. -/
theorem notes_bind (p : Prog C R M α) (f : α → Prog C R M β) (s : κ) :
    ((p >>= f).run K s).notes.Perm ((p.run K s).notes ++
      (p.run K s).returned.flatMap fun x => ((f x.1).run K x.2).notes) := by
  induction p generalizing s with
  | ret a => simp [run]
  | call c k ih =>
    simp only [call_bind, run]
    cases K.call s c with
    | none => exact List.Perm.refl _
    | some x => exact ih x.1 x.2
  | mark m k ih => exact (ih s).cons (m, s)
  | fork k ih =>
    simp only [fork_bind, run]
    cases K.fork s with
    | none => exact ih (-1) s
    -- The notes of the two branches, then of what follows each: the same ones in another order.
    | some x =>
      simp only [Run.returned_par, Run.notes_par, List.flatMap_append]
      refine ((ih _ _).append (ih _ _)).trans ?_
      rw [List.append_assoc, List.append_assoc]
      refine List.Perm.append_left _ ?_
      rw [← List.append_assoc, ← List.append_assoc]
      exact List.perm_append_comm.append_right _

/-- A function of the result changes what is returned. -/
theorem returned_bind_ret (p : Prog C R M α) (g : α → β) (s : κ) :
    ((p >>= fun a => ret (g a)).run K s).returned =
      (p.run K s).returned.map fun x => (g x.1, x.2) := by
  rw [returned_bind, List.map_eq_flatMap]
  rfl

/-- A function of the result changes no mark. -/
theorem notes_bind_ret (p : Prog C R M α) (g : α → β) (s : κ) :
    ((p >>= fun a => ret (g a)).run K s).notes.Perm (p.run K s).notes := by
  refine (notes_bind p _ s).trans ?_
  have hnil : ((p.run K s).returned.flatMap fun x =>
      ((ret (g x.1) : Prog C R M β).run K x.2).notes) = [] :=
    List.flatMap_eq_nil_iff.mpr fun _ _ => rfl
  rw [hnil, List.append_nil]

/-- The process that starts a sequence, up to the end of its first part. -/
theorem main_bind (p : Prog C R M α) (f : α → Prog C R M β) (s : κ) :
    ((p >>= f).run K s).main =
      match (p.run K s).main.result with
      | none => ⟨(p.run K s).main.notes, none⟩
      | some (a, s') =>
        ⟨(p.run K s).main.notes ++ ((f a).run K s').main.notes, ((f a).run K s').main.result⟩ := by
  induction p generalizing s with
  | ret a => rfl
  | call c k ih =>
    simp only [call_bind, run]
    cases K.call s c with
    | none => rfl
    | some x => exact ih x.1 x.2
  | mark m k ih =>
    simp only [mark_bind, run, Run.pass, ih s]
    cases (k.run K s).main.result with
    | none => rfl
    | some x => rfl
  | fork k ih =>
    simp only [fork_bind, run]
    cases K.fork s with
    | none => exact ih (-1) s
    | some x => exact ih _ _

/-- The main process of a sequence goes on where its first part has returned. -/
theorem main_bind_of_returns {p : Prog C R M α} {f : α → Prog C R M β} {s s' : κ} {a : α}
    {notes : List (M × κ)} (h : (p.run K s).main = ⟨notes, some (a, s')⟩) :
    ((p >>= f).run K s).main =
      ⟨notes ++ ((f a).run K s').main.notes, ((f a).run K s').main.result⟩ := by
  rw [main_bind, h]

/-- A sequence from whose first part only the process that starts it returns. -/
theorem lone_bind {p : Prog C R M α} {f : α → Prog C R M β} {s : κ} (hp : (p.run K s).Lone)
    (hf : ∀ x, (p.run K s).main.result = some x → ((f x.1).run K x.2).Lone) :
    -- Induction on the program; a child that does not return stays so under `f`.
    ((p >>= f).run K s).Lone := by
  induction p generalizing s with
  | ret a => exact hf (a, s) rfl
  | call c k ih =>
    simp only [call_bind, run] at hp hf ⊢
    cases h : K.call s c with
    | none => exact Run.lone_stuck
    | some x =>
      rw [h] at hp hf
      exact ih _ hp hf
  | mark m k ih => exact ih hp hf
  | fork k ih =>
    simp only [fork_bind, run] at hp hf ⊢
    cases h : K.fork s with
    | none =>
      rw [h] at hp hf
      exact ih _ hp hf
    | some x =>
      rw [h] at hp hf
      simp only [Run.lone_par] at hp ⊢
      refine ⟨ih _ hp.1 hf, ?_⟩
      rw [returned_bind, hp.2, List.flatMap_nil]

/-! ## How a process ends -/

/-- The call that the process that starts does not return from, if it comes to one. -/
def last (K : Kernel C R κ) : Prog C R M α → κ → Option C
  | ret _, _ => none
  | call c k, s =>
    match K.call s c with
    | none => some c
    | some (r, s') => (k r).last K s'
  | mark _ k, s => k.last K s
  | fork k, s =>
    match K.fork s with
    | none => (k (-1)).last K s
    | some (pid, s', _) => (k pid).last K s'

/-- A sequence whose first part returns ends as its second part does. -/
theorem last_bind_of_returns {p : Prog C R M α} {f : α → Prog C R M β} {s s' : κ} {a : α}
    -- Induction on the program: what the main process does leads to `f`.
    (h : (p.run K s).main.result = some (a, s')) : (p >>= f).last K s = (f a).last K s' := by
  induction p generalizing s with
  | ret b =>
    obtain ⟨rfl, rfl⟩ := Prod.mk.inj (Option.some.inj h)
    rfl
  | call c k ih =>
    simp only [call_bind, last, run] at h ⊢
    cases hcall : K.call s c with
    | none =>
      rw [hcall] at h
      cases h
    | some x =>
      rw [hcall] at h
      exact ih x.1 h
  | mark m k ih => exact ih h
  | fork k ih =>
    simp only [fork_bind, last, run] at h ⊢
    cases hfork : K.fork s with
    | none =>
      rw [hfork] at h
      exact ih _ h
    | some x =>
      rw [hfork] at h
      exact ih _ h

/-- A sequence whose first part does not return ends as this part does. -/
theorem last_bind_of_stuck {p : Prog C R M α} {f : α → Prog C R M β} {s : κ}
    (h : (p.run K s).main.result = none) : (p >>= f).last K s = p.last K s := by
  induction p generalizing s with
  | ret b => cases h
  | call c k ih =>
    simp only [call_bind, last, run] at h ⊢
    cases hcall : K.call s c with
    | none => rfl
    | some x =>
      rw [hcall] at h
      exact ih x.1 h
  | mark m k ih => exact ih h
  | fork k ih =>
    simp only [fork_bind, last, run] at h ⊢
    cases hfork : K.fork s with
    | none =>
      rw [hfork] at h
      exact ih _ h
    | some x =>
      rw [hfork] at h
      exact ih _ h

/-! ## Which calls are made -/

/-- The calls of the process that starts, with the one it does not return from. -/
def calls (K : Kernel C R κ) : Prog C R M α → κ → List C
  | ret _, _ => []
  | call c k, s =>
    match K.call s c with
    | none => [c]
    | some (r, s') => c :: (k r).calls K s'
  | mark _ k, s => k.calls K s
  | fork k, s =>
    match K.fork s with
    | none => (k (-1)).calls K s
    | some (pid, s', _) => (k pid).calls K s'

/-- The calls of each child of the process that starts. -/
def children (K : Kernel C R κ) : Prog C R M α → κ → List (List C)
  | ret _, _ => []
  | call c k, s =>
    match K.call s c with
    | none => []
    | some (r, s') => (k r).children K s'
  | mark _ k, s => k.children K s
  | fork k, s =>
    match K.fork s with
    | none => (k (-1)).children K s
    | some (pid, s', c) => (k 0).calls K c :: (k pid).children K s'

/-- The calls of a sequence are those of its parts, where the first one returns. -/
theorem calls_bind_of_returns {p : Prog C R M α} {f : α → Prog C R M β} {s s' : κ} {a : α}
    (h : (p.run K s).main.result = some (a, s')) :
    -- Induction on the program: the calls before `f` come first.
    (p >>= f).calls K s = p.calls K s ++ (f a).calls K s' := by
  induction p generalizing s with
  | ret b =>
    obtain ⟨rfl, rfl⟩ := Prod.mk.inj (Option.some.inj h)
    rfl
  | call c k ih =>
    simp only [call_bind, calls, run] at h ⊢
    cases hcall : K.call s c with
    | none =>
      rw [hcall] at h
      cases h
    | some x =>
      rw [hcall] at h
      exact congrArg (c :: ·) (ih x.1 h)
  | mark m k ih => exact ih h
  | fork k ih =>
    simp only [fork_bind, calls, run] at h ⊢
    cases hfork : K.fork s with
    | none =>
      rw [hfork] at h
      exact ih _ h
    | some x =>
      rw [hfork] at h
      exact ih _ h

/-- A function of the result makes no call. -/
theorem calls_bind_ret (p : Prog C R M α) (g : α → β) (s : κ) :
    (p >>= fun a => ret (g a)).calls K s = p.calls K s := by
  induction p generalizing s with
  | ret a => rfl
  | call c k ih =>
    simp only [call_bind, calls]
    cases K.call s c with
    | none => rfl
    | some x => exact congrArg (c :: ·) (ih x.1 x.2)
  | mark m k ih => exact ih s
  | fork k ih =>
    simp only [fork_bind, calls]
    cases K.fork s with
    | none => exact ih _ s
    | some x => exact ih _ _

/-- The program makes calls in `P` and nothing else. -/
def CallsIn (P : C → Prop) : Prog C R M α → Prop
  | ret _ => True
  | call c k => P c ∧ ∀ r, (k r).CallsIn P
  | mark _ _ | fork _ => False

/-- A program that returns makes no call. -/
@[simp] theorem callsIn_ret {P : C → Prop} (a : α) : (ret a : Prog C R M α).CallsIn P := trivial

/-- A call of a program is one that is allowed, and so are those behind it. -/
@[simp] theorem callsIn_call {P : C → Prop} {c : C} {k : R c → Prog C R M α} :
    (call c k).CallsIn P ↔ P c ∧ ∀ r, (k r).CallsIn P := Iff.rfl

/-- The calls of a run are calls of the program. -/
theorem CallsIn.mem {P : C → Prop} {p : Prog C R M α} (hp : p.CallsIn P) {s : κ} {c : C}
    (h : c ∈ p.calls K s) : P c := by
  induction p generalizing s with
  | ret => cases h
  | call c' k ih =>
    simp only [calls] at h
    cases hcall : K.call s c' with
    | none =>
      rw [hcall] at h
      rw [List.mem_singleton.mp h]
      exact hp.1
    | some x =>
      rw [hcall] at h
      rcases List.mem_cons.mp h with rfl | h
      · exact hp.1
      · exact ih x.1 (hp.2 x.1) h
  | mark | fork => exact hp.elim

/-- Where the calls are answered and keep what `I` reads, the program returns and keeps it too. -/
theorem CallsIn.returns {P : C → Prop} {ι : Type} {I : κ → ι}
    (hP : ∀ s c, P c → ∃ r s', K.call s c = some (r, s') ∧ I s' = I s) {p : Prog C R M α}
    (hp : p.CallsIn P) (s : κ) :
    ∃ a s', I s' = I s ∧ (p.run K s).main = ⟨[], some (a, s')⟩ := by
  induction p generalizing s with
  | ret a => exact ⟨a, s, rfl, rfl⟩
  | call c k ih =>
    obtain ⟨r, s', hcall, hI⟩ := hP s c hp.1
    obtain ⟨a, s'', hI', hmain⟩ := ih r (hp.2 r) s'
    refine ⟨a, s'', hI'.trans hI, ?_⟩
    simp only [run, hcall, hmain]
  | mark | fork => exact hp.elim

/-! ## Programs that only call -/

/-- The program passes no mark and does not fork. -/
def CallsOnly : Prog C R M α → Prop
  | ret _ => True
  | call _ k => ∀ r, (k r).CallsOnly
  | mark _ _ | fork _ => False

/-- A program that returns does not fork or leave a mark. -/
@[simp] theorem callsOnly_ret (a : α) : (ret a : Prog C R M α).CallsOnly := trivial

/-- A call may be followed by calls only. -/
@[simp] theorem callsOnly_call {c : C} {k : R c → Prog C R M α} :
    (call c k).CallsOnly ↔ ∀ r, (k r).CallsOnly := Iff.rfl

/-- A single call is a call only. -/
theorem callsOnly_sys (c : C) : (sys c : Prog C R M (R c)).CallsOnly := fun _ => trivial

/-- Calls after calls are calls only. -/
theorem CallsOnly.bind {p : Prog C R M α} {f : α → Prog C R M β} (hp : p.CallsOnly)
    (hf : ∀ a, (f a).CallsOnly) : (p >>= f).CallsOnly := by
  induction p with
  | ret a => exact hf a
  | call c k ih => exact fun r => ih r (hp r)
  | mark | fork => exact hp.elim

/-- Calls only leave no mark. -/
theorem CallsOnly.notes {p : Prog C R M α} (hp : p.CallsOnly) (s : κ) : (p.run K s).notes = [] := by
  induction p generalizing s with
  | ret a => rfl
  | call c k ih =>
    simp only [run]
    cases K.call s c with
    | none => rfl
    | some x => exact ih x.1 (hp x.1) x.2
  | mark | fork => exact hp.elim

/-- Where there are calls only, there is no child that returns. -/
theorem CallsOnly.lone {p : Prog C R M α} (hp : p.CallsOnly) (s : κ) : (p.run K s).Lone := by
  induction p generalizing s with
  | ret a => exact Run.lone_ret _
  | call c k ih =>
    simp only [run]
    cases K.call s c with
    | none => exact Run.lone_stuck
    | some x => exact ih x.1 (hp x.1) x.2
  | mark | fork => exact hp.elim

/-- Calls only leave no mark, whatever is made of the result. -/
theorem CallsOnly.notes_bind_ret {p : Prog C R M α} (hp : p.CallsOnly) (g : α → β) (s : κ) :
    ((p >>= fun a => ret (g a)).run K s).notes = [] :=
  (hp.bind fun a => callsOnly_ret (g a)).notes s

/-- Where there are calls only, there is no child. -/
theorem CallsOnly.children {p : Prog C R M α} (hp : p.CallsOnly) (s : κ) :
    p.children K s = [] := by
  induction p generalizing s with
  | ret a => rfl
  | call c k ih =>
    simp only [Prog.children]
    cases K.call s c with
    | none => rfl
    | some x => exact ih x.1 (hp x.1) x.2
  | mark | fork => exact hp.elim

/-- From `s`, the program does not get to `q`, or it runs `q` from some state and nothing else. -/
def Leads (K : Kernel C R κ) (p q : Prog C R M α) (s : κ) : Prop :=
  p.run K s = .stuck ∨ ∃ s', p.run K s = q.run K s'

/-- A program leads to itself. -/
theorem Leads.refl (p : Prog C R M α) (s : κ) : Leads K p p s := .inr ⟨s, rfl⟩

/-- Calls lead to what follows them, if they return. -/
theorem CallsOnly.leads {p : Prog C R M α} {f : α → Prog C R M β} {q : Prog C R M β}
    (hp : p.CallsOnly) (hf : ∀ a s, Leads K (f a) q s) (s : κ) : Leads K (p >>= f) q s := by
  induction p generalizing s with
  | ret a => exact hf a s
  | call c k ih =>
    simp only [call_bind, Leads, run]
    cases K.call s c with
    | none => exact .inl rfl
    | some x => exact ih x.1 (hp x.1) x.2
  | mark | fork => exact hp.elim

/-- The program calls until a call does not return. -/
def Ends : Prog C R M α → Prop
  | ret _ => False
  | call _ k => ∀ r, (k r).Ends
  | mark _ _ | fork _ => False

/-- A call ends when all that may follow it does. -/
@[simp] theorem ends_call {c : C} {k : R c → Prog C R M α} : (call c k).Ends ↔ ∀ r, (k r).Ends :=
  Iff.rfl

/-- A program that ends makes calls only. -/
theorem Ends.callsOnly {p : Prog C R M α} (hp : p.Ends) : p.CallsOnly := by
  induction p with
  | ret | mark | fork => exact hp.elim
  | call c k ih => exact fun r => ih r (hp r)

/-- A program that ends does not return. -/
theorem Ends.run {p : Prog C R M α} (hp : p.Ends) (s : κ) : p.run K s = .stuck := by
  induction p generalizing s with
  | ret | mark | fork => exact hp.elim
  | call c k ih =>
    simp only [Prog.run]
    cases K.call s c with
    | none => rfl
    | some x => exact ih x.1 (hp x.1) x.2

/-! ## What holds along the marks of every process -/

section Always

variable {γ : Type} {watch : γ → M × κ → γ} {N : γ → M × κ → Prop} {Q : α → γ → κ → Prop}
  {Q₂ : β → γ → κ → Prop} {g : γ} {s : κ}

/-- Every process that comes of the program keeps a state in `γ`, which `watch` changes at each
mark, and which a child takes over from its parent. At each mark `N` holds, and `Q` where a process
returns. -/
def Always (K : Kernel C R κ) (watch : γ → M × κ → γ) (N : γ → M × κ → Prop)
    (Q : α → γ → κ → Prop) :
    Prog C R M α → γ → κ → Prop
  | ret a, g, s => Q a g s
  | call c k, g, s => ∀ r s', K.call s c = some (r, s') → (k r).Always K watch N Q g s'
  | mark m k, g, s => N g (m, s) ∧ k.Always K watch N Q (watch g (m, s)) s
  | fork k, g, s =>
    (K.fork s = none → (k (-1)).Always K watch N Q g s) ∧
      ∀ pid s' c, K.fork s = some (pid, s', c) →
        (k pid).Always K watch N Q g s' ∧ (k 0).Always K watch N Q g c

/-- What holds at the marks of two parts holds at those of their sequence. -/
theorem always_bind {p : Prog C R M α} {f : α → Prog C R M β} (hp : p.Always K watch N Q g s)
    (hf : ∀ a g' s', Q a g' s' → (f a).Always K watch N Q₂ g' s') :
    (p >>= f).Always K watch N Q₂ g s := by
  induction p generalizing g s with
  | ret a => exact hf a g s hp
  | call c k ih => exact fun r s' h => ih r (hp r s' h)
  | mark m k ih => exact ⟨hp.1, ih hp.2⟩
  | fork k ih =>
    exact ⟨fun h => ih _ (hp.1 h), fun pid s' c h =>
      ⟨ih _ (hp.2 pid s' c h).1, ih _ (hp.2 pid s' c h).2⟩⟩

/-- What holds at the marks behind a call holds at all marks. -/
theorem always_sys_bind {c : C} {f : R c → Prog C R M β}
    (h : ∀ r s', K.call s c = some (r, s') → (f r).Always K watch N Q₂ g s') :
    (sys c >>= f).Always K watch N Q₂ g s := h

/-- What holds of the returns may be weakened. -/
theorem always_imp {Q' : α → γ → κ → Prop} {p : Prog C R M α} (hp : p.Always K watch N Q g s)
    (hQ : ∀ a g' s', Q a g' s' → Q' a g' s') : p.Always K watch N Q' g s := by
  induction p generalizing g s with
  | ret a => exact hQ a g s hp
  | call c k ih => exact fun r s' h => ih r (hp r s' h)
  | mark m k ih => exact ⟨hp.1, ih hp.2⟩
  | fork k ih =>
    exact ⟨fun h => ih _ (hp.1 h), fun pid s' c h =>
      ⟨ih _ (hp.2 pid s' c h).1, ih _ (hp.2 pid s' c h).2⟩⟩

/-- There are no marks in a program that ends. -/
theorem Ends.always {p : Prog C R M α} (hp : p.Ends) : p.Always K watch N Q g s := by
  induction p generalizing s with
  | ret | mark | fork => exact hp.elim
  | call c k ih => exact fun r s' _ => ih r (hp r)

/-- A part of a process that makes calls only passes no mark. -/
theorem CallsOnly.always {p : Prog C R M α} (hp : p.CallsOnly) :
    p.Always K watch N (fun _ g' _ => g' = g) g s := by
  induction p generalizing s with
  | ret a => rfl
  | call c k ih => exact fun r s' _ => ih r (hp r)
  | mark | fork => exact hp.elim

/-- What two watchers see together, when something about both of them stays true from mark to
mark. -/
theorem Always.together {γ' : Type} {watch' : γ' → M × κ → γ'} {N' : γ' → M × κ → Prop}
    {Q' : α → γ' → κ → Prop} {N₂ : γ × γ' → M × κ → Prop} {I : γ → γ' → Prop}
    (hmark : ∀ g g' m, I g g' → N g m → N' g' m → I (watch g m) (watch' g' m) ∧ N₂ (g, g') m)
    {p : Prog C R M α} {g' : γ'} (hp : p.Always K watch N Q g s)
    (hp' : p.Always K watch' N' Q' g' s) (hI : I g g') :
    p.Always K (fun x m => (watch x.1 m, watch' x.2 m)) N₂ (fun a x s' => Q a x.1 s' ∧ Q' a x.2 s')
      (g, g') s := by
  induction p generalizing g g' s with
  | ret a => exact ⟨hp, hp'⟩
  | call c k ih => exact fun r s' h => ih r (hp r s' h) (hp' r s' h) hI
  | mark m k ih =>
    obtain ⟨hI', hN₂⟩ := hmark g g' (m, s) hI hp.1 hp'.1
    exact ⟨hN₂, ih hp.2 hp'.2 hI'⟩
  | fork k ih =>
    exact ⟨fun h => ih _ (hp.1 h) (hp'.1 h) hI, fun pid s' c h =>
      ⟨ih _ (hp.2 pid s' c h).1 (hp'.2 pid s' c h).1 hI,
        ih _ (hp.2 pid s' c h).2 (hp'.2 pid s' c h).2 hI⟩⟩

/-- What holds at the returns holds of everything that is returned. -/
theorem Always.returned {p : Prog C R M α} (hp : p.Always K watch N Q g s) :
    -- Induction on the program; a fork asks it of both processes.
    ∀ y ∈ (p.run K s).returned, ∃ g', Q y.1 g' y.2 := by
  induction p generalizing g s with
  | ret a => simpa [run] using ⟨g, hp⟩
  | call c k ih =>
    simp only [run]
    cases h : K.call s c with
    | none => simp
    | some x => exact ih x.1 (hp x.1 x.2 h)
  | mark m k ih => exact ih hp.2
  | fork k ih =>
    simp only [run]
    cases h : K.fork s with
    | none => exact ih _ (hp.1 h)
    | some x =>
      intro y hy
      rw [Run.returned_par] at hy
      rcases List.mem_append.mp hy with hy | hy
      · exact ih _ (hp.2 _ _ _ h).1 y hy
      · exact ih _ (hp.2 _ _ _ h).2 y hy

end Always

end Prog

end Cs5600
