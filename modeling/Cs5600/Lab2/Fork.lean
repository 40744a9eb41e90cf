import Cs5600.Lab2.Exec

/-!
# Who runs the commands

After `fork` the child of `cmd_exec` is a copy of the shell. Its branch ends in a subshell, in a
builtin or in `execvp`, each of which ends the process, except that `execvp` may fail. The child
then leaves `cmd_exec` like the parent, and goes on with the line.

A run is followed through its marks. `cmdLoop_back` says that some `cmd_exec` returns in a child
(`ChildBack`) exactly when some `execvp` fails (`ExecFails`), in all processes of the line and of
its subshells. Where none fails, `cmdLoop_below` says that each command is started once at most.
-/

namespace Cs5600.Lab2

/-! ## The parts of `cmd_exec` that only call the system -/

/-- Nothing comes after `exit`. -/
@[simp] theorem exit_ends {α : Type} (status : ℤ) : (exit status : Shell α).Ends := fun r => r.elim

/-- Nothing comes after `abort`. -/
theorem abort_ends {α : Type} : (abort : Shell α).Ends := fun r => r.elim

/-- `exit` only calls the system. -/
@[simp] theorem exit_callsOnly {α : Type} (status : ℤ) : (exit status : Shell α).CallsOnly :=
  (exit_ends status).callsOnly

/-- The child of `cd` ends. -/
theorem cdChild_ends (args : List Text) : (cdChild args).Ends := by
  unfold cdChild
  split
  · simp only [Prog.sys_bind, Prog.ends_call]
    intro r
    split_ifs <;> simp
  · simp

/-- The child of `exit` ends. -/
theorem exitChild_ends (args : List Text) : (exitChild args).Ends := by
  unfold exitChild
  split
  · simp
  · split_ifs <;> simp
  · simp

/-- The child of `our_pwd` ends. -/
theorem pwdChild_ends (args : List Text) : (pwdChild args).Ends := by
  unfold pwdChild
  split_ifs
  · simp
  · simp only [Prog.sys_bind, Prog.ends_call]
    intro r
    cases r <;> simp

/-- The child's part of the pipes only calls the system. -/
theorem childPipes_callsOnly (passPipefd : ℤ) (pipefd : Option (ℤ × ℤ)) :
    (childPipes passPipefd pipefd).CallsOnly := by
  unfold childPipes
  cases pipefd <;> split_ifs <;> simp

/-- A redirection only calls the system. -/
theorem redirect_callsOnly (file : Option Text) (fd : ℤ) (writing : Bool) :
    (redirect file fd writing).CallsOnly := by
  cases file <;> simp [redirect]

/-- The parent's part of `exit` only calls the system. -/
theorem parentExit_callsOnly (args : List Text) (pid : ℤ) : (parentExit args pid).CallsOnly := by
  unfold parentExit
  split
  · simp
  · simp only [Prog.sys_bind, Prog.callsOnly_call]
    intro _
    split_ifs <;> simp
  · simp

/-- The parent's part of the builtins only calls the system. -/
theorem parentBuiltin_callsOnly (argv : List Text) (pid : ℤ) :
    (parentBuiltin argv pid).CallsOnly := by
  cases argv with
  | nil => trivial
  | cons name args =>
    unfold parentBuiltin
    dsimp only
    split_ifs <;> simp [parentExit_callsOnly]

/-- The parent's part of the pipes only calls the system. -/
theorem parentPipes_callsOnly (passPipefd : ℤ) (pipefd : Option (ℤ × ℤ)) :
    (parentPipes passPipefd pipefd).CallsOnly := by
  unfold parentPipes
  cases pipefd <;> split_ifs <;> simp

/-- The parent's branch only calls the system. -/
theorem parentBranch_callsOnly (argv : List Text) (passPipefd : ℤ) (pipefd : Option (ℤ × ℤ))
    (pid : ℤ) : (parentBranch argv passPipefd pipefd pid).CallsOnly :=
  (parentPipes_callsOnly passPipefd pipefd).bind fun _ =>
    (parentBuiltin_callsOnly argv pid).bind fun _ => Prog.callsOnly_ret _

/-- The end of `cmd_exec` when `fork` fails only calls the system. -/
theorem forkFailed_callsOnly (pipefd : Option (ℤ × ℤ)) : (forkFailed pipefd).CallsOnly := by
  cases pipefd <;> simp [forkFailed]

/-! ## The child -/

variable {κ : Type} {K : Kernel Call Call.Answer κ}

/-- A child does not get to its redirections, or not past them, or runs what follows them. -/
theorem childBranch_run (argv : List Text) (f : Fin 3 → Option Text) (sub : Option (Shell ℤ))
    (fd : ℤ) (pipefd : Option (ℤ × ℤ)) (s : κ) :
    (childBranch argv f sub fd pipefd).run K s = .stuck ∨
      ∃ s', (childBranch argv f sub fd pipefd).run K s = Run.stuck.pass (.child, s') ∨
        ∃ s'', (childBranch argv f sub fd pipefd).run K s =
          ((childBody argv sub).run K s'').pass (.child, s') := by
  -- After the pipes the three redirections lead to the body or stop the child.
  have hredirects : ∀ s', Prog.Leads K (do
      redirect (f stdinFileno) 0 false
      redirect (f stdoutFileno) 1 true
      redirect (f stderrFileno) 2 true
      childBody argv sub) (childBody argv sub) s' :=
    (redirect_callsOnly _ _ _).leads fun _ => (redirect_callsOnly _ _ _).leads fun _ =>
      (redirect_callsOnly _ _ _).leads fun _ => Prog.Leads.refl _
  refine ((childPipes_callsOnly fd pipefd).leads (fun _ => Prog.Leads.refl _) s).imp_right ?_
  rintro ⟨s', h⟩
  refine ⟨s', ?_⟩
  rw [childBranch, h]
  rcases hredirects s' with h' | ⟨s'', h'⟩
  · exact .inl (congrArg (Run.pass (Mark.child, s')) h')
  · exact .inr ⟨s'', congrArg (Run.pass (Mark.child, s')) h'⟩

/-- A child that has a subshell does not return from `cmd_exec`. -/
theorem childBody_some (argv : List Text) (line : Shell ℤ) (s : κ) :
    ((childBody argv (some line)).run K s).notes.Perm (line.run K s).notes ∧
      ((childBody argv (some line)).run K s).returned = [] := by
  have hstuck : ∀ x : ℤ × κ,
      (if x.1 = 0 then exit 0 else exit 5 : Shell ℤ).run K x.2 = .stuck := by
    intro x
    split_ifs <;> exact (exit_ends _).run _
  constructor
  · refine (Prog.notes_bind line _ s).trans ?_
    rw [List.flatMap_eq_nil_iff.mpr fun x _ => by rw [hstuck, Run.notes_stuck], List.append_nil]
  · rw [childBody, Prog.returned_bind]
    exact List.flatMap_eq_nil_iff.mpr fun x _ => by rw [hstuck, Run.returned_stuck]

/-- A child that has no subshell ends, or calls `execvp` and returns when this fails. -/
theorem childBody_none (argv : List Text) (s : κ) :
    (childBody argv none).run K s = .stuck ∨ (childBody argv none).run K s =
      (Prog.mark (.exec argv) (.call (.execvp argv) fun _ => .ret 0) : Shell ℤ).run K s := by
  unfold childBody
  cases argv with
  | nil => exact .inl ((exit_ends 0).run s)
  | cons name args =>
    dsimp only
    split_ifs
    · exact .inl ((cdChild_ends args).run s)
    · exact .inl ((exitChild_ends args).run s)
    · exact .inl ((pwdChild_ends args).run s)
    · exact .inr rfl

/-! ## Who returns to `cmd_line_exec` -/

/-- The mark is at a call of `execvp` that fails. -/
def FailsAt (K : Kernel Call Call.Answer κ) : Mark × κ → Prop
  | (.exec argv, s) => K.call s (.execvp argv) ≠ none
  | _ => False

/-- An `execvp` of the run fails. -/
def ExecFails (K : Kernel Call Call.Answer κ) (notes : List (Mark × κ)) : Prop :=
  ∃ x ∈ notes, FailsAt K x

/-- `cmd_exec` returns to `cmd_line_exec` in a child. -/
def ChildBack (notes : List (Mark × κ)) : Prop := ∃ x ∈ notes, x.1 = .back 0

variable {notes notes' : List (Mark × κ)} {x : Mark × κ}

/-- Without marks no `execvp` fails. -/
@[simp] theorem not_execFails_nil : ¬ ExecFails K [] := by simp [ExecFails]

/-- An `execvp` fails at the first mark or at a later one. -/
@[simp] theorem execFails_cons : ExecFails K (x :: notes) ↔ FailsAt K x ∨ ExecFails K notes := by
  simp [ExecFails]

/-- An `execvp` fails in one part of the marks or in the other one. -/
@[simp] theorem execFails_append :
    ExecFails K (notes ++ notes') ↔ ExecFails K notes ∨ ExecFails K notes' := by
  simp [ExecFails, or_and_right, exists_or]

/-- The order of the marks does not matter to whether an `execvp` fails. -/
theorem execFails_congr (h : notes.Perm notes') : ExecFails K notes ↔ ExecFails K notes' := by
  simp [ExecFails, h.mem_iff]

/-- Without marks no child is back. -/
@[simp] theorem not_childBack_nil : ¬ ChildBack ([] : List (Mark × κ)) := by simp [ChildBack]

/-- A child is back at the first mark or at a later one. -/
@[simp] theorem childBack_cons : ChildBack (x :: notes) ↔ x.1 = .back 0 ∨ ChildBack notes := by
  simp [ChildBack]

/-- A child is back in one part of the marks or in the other one. -/
@[simp] theorem childBack_append :
    ChildBack (notes ++ notes') ↔ ChildBack notes ∨ ChildBack notes' := by
  simp [ChildBack, or_and_right, exists_or]

/-- An `execvp` fails in one of several runs. -/
theorem execFails_flatMap {β : Type} {l : List β} {g : β → List (Mark × κ)} :
    ExecFails K (l.flatMap g) ↔ ∃ y ∈ l, ExecFails K (g y) := by
  simp only [ExecFails, List.mem_flatMap]
  tauto

/-- A child is back in one of several runs. -/
theorem childBack_flatMap {β : Type} {l : List β} {g : β → List (Mark × κ)} :
    ChildBack (l.flatMap g) ↔ ∃ y ∈ l, ChildBack (g y) := by
  simp only [ChildBack, List.mem_flatMap]
  tauto

/-- The order of the marks does not matter to whether a child is back. -/
theorem childBack_congr (h : notes.Perm notes') : ChildBack notes ↔ ChildBack notes' := by
  simp [ChildBack, h.mem_iff]

/-- A child returns from `cmd_exec`, or a child of its subshell does, when an `execvp` fails. -/
theorem childBranch_back (argv : List Text) (f : Fin 3 → Option Text) (fd : ℤ)
    (pipefd : Option (ℤ × ℤ)) {sub : Option (Shell ℤ)}
    (hsub : ∀ line s, sub = some line →
      (ChildBack (line.run K s).notes ↔ ExecFails K (line.run K s).notes)) (s : κ) :
    (((childBranch argv f sub fd pipefd).run K s).returned ≠ [] ∨
        ChildBack ((childBranch argv f sub fd pipefd).run K s).notes ↔
      ExecFails K ((childBranch argv f sub fd pipefd).run K s).notes) ∧
    ∀ y ∈ ((childBranch argv f sub fd pipefd).run K s).returned, y.1 = 0 := by
  rcases childBranch_run (K := K) argv f sub fd pipefd s with h | ⟨s', h | ⟨s'', h⟩⟩
  · simp [h]
  · simp [h, FailsAt]
  · rw [h]
    cases sub with
    | some line =>
      obtain ⟨hnotes, hreturned⟩ := childBody_some (K := K) argv line s''
      simp [hreturned, childBack_congr hnotes, execFails_congr hnotes, FailsAt, hsub line s'' rfl]
    | none =>
      rcases childBody_none (K := K) argv s'' with h' | h'
      · simp [h', FailsAt]
      · rw [h']
        -- The only note before `execvp` is the call itself; what comes back is its failure.
        simp only [Prog.run]
        cases hcall : K.call s'' (.execvp argv) with
        | none => simp [FailsAt, hcall]
        | some x => simp [FailsAt, hcall]

/-- From `fork` on: a child returns exactly when an `execvp` fails, if this holds of the
subshell. -/
theorem forkExec_back (argv : List Text) (f : Fin 3 → Option Text) (fd : ℤ)
    (pipefd : Option (ℤ × ℤ)) {sub : Option (Shell ℤ)}
    (hsub : ∀ line s, sub = some line →
      (ChildBack (line.run K s).notes ↔ ExecFails K (line.run K s).notes)) (s : κ) :
    (∃ y ∈ ((forkExec argv f sub fd pipefd).run K s).returned, y.1.1 = 0) ∨
        ChildBack ((forkExec argv f sub fd pipefd).run K s).notes ↔
      ExecFails K ((forkExec argv f sub fd pipefd).run K s).notes := by
  rw [forkExec, Prog.forks_bind, Prog.run]
  cases hfork : K.fork s with
  | none =>
    -- A failed `fork` returns -1, which is not a child's 0.
    have hnotes := (forkFailed_callsOnly pipefd).notes_bind_ret (K := K) (fun _ => (-1, fd)) s
    simp only [show (-1 : ℤ) < 0 by decide, if_true, Prog.pure_eq, Prog.returned_bind_ret, hnotes]
    simp
  | some x =>
    obtain ⟨⟨pid, hpid⟩, s', c⟩ := x
    have hne : pid ≠ 0 := hpid.ne'
    obtain ⟨hback, hzero⟩ := childBranch_back argv f fd pipefd hsub c
    have hparent :=
      (parentBranch_callsOnly argv fd pipefd pid).notes_bind_ret (K := K) (fun a => (pid, a)) s'
    have hchild := Prog.notes_bind_ret (K := K) (childBranch argv f sub fd pipefd)
      (fun p => (p, fd)) c
    -- The parent makes no notes, so the notes of the fork are the child's.
    simp only [if_neg hpid.not_gt, if_neg hne, lt_irrefl, if_false, if_true, Run.notes_par,
      Run.returned_par, Prog.pure_eq, Prog.returned_bind_ret, hparent, List.nil_append,
      childBack_congr hchild, execFails_congr hchild, ← hback]
    refine or_congr_left ⟨?_, fun hreturned => ?_⟩
    · rintro ⟨y, hy, h0⟩
      rcases List.mem_append.mp hy with hy | hy
      · -- The parent's value.
        obtain ⟨z, -, rfl⟩ := List.mem_map.mp hy
        exact absurd h0 hne
      · exact List.ne_nil_of_mem (List.mem_map.mp hy).choose_spec.1
    · obtain ⟨z, hz⟩ := List.exists_mem_of_ne_nil _ hreturned
      exact ⟨_, List.mem_append_right _ (List.mem_map_of_mem hz), hzero z hz⟩

/-- `cmd_exec` returns in a child exactly when an `execvp` fails, if this holds of the subshell. -/
theorem cmdExec_back (pos : Pos) (argv : List Text) (f : Fin 3 → Option Text) (op : ControlOp)
    (hasNext : Bool) (fd : ℤ) {sub : Option (Shell ℤ)}
    (hsub : ∀ line s, sub = some line →
      (ChildBack (line.run K s).notes ↔ ExecFails K (line.run K s).notes)) (s : κ) :
    (∃ y ∈ ((cmdExec pos argv f sub op hasNext fd).run K s).returned, y.1.1 = 0) ∨
        ChildBack ((cmdExec pos argv f sub op hasNext fd).run K s).notes ↔
      ExecFails K ((cmdExec pos argv f sub op hasNext fd).run K s).notes := by
  rw [cmdExec, Prog.note_bind, Prog.run, Run.returned_pass, Run.notes_pass, childBack_cons,
    execFails_cons]
  simp only [FailsAt, false_or, reduceCtorEq]
  -- `|` at the end of the list, `|` before a command, any other operator.
  split_ifs
  · simp [Prog.run]
  · simp only [Prog.sys_bind, Prog.run]
    cases K.call s .pipe with
    | none => simp
    | some x =>
      obtain ⟨_ | ⟨r, w⟩, s'⟩ := x
      · simp [Prog.run]
      · simpa [Prog.run, FailsAt] using forkExec_back argv f fd (some (r, w)) hsub s'
  · exact forkExec_back argv f fd none hsub s

/-- After `cmd_exec` a process stops, or returns from `cmd_line_exec`, or goes on with the list. -/
theorem afterExec_run (op : ControlOp) (status pid : ℤ) (goOn : ℤ → Shell ℤ) (s : κ) :
    ∃ r, (afterExec op status pid goOn).run K s = Run.pass (Mark.back pid, s) r ∧
      (r = .stuck ∨ (∃ st s', r = (lineDone st).run K s') ∨ ∃ st s', r = (goOn st).run K s') := by
  unfold afterExec
  rw [Prog.note_bind, Prog.run]
  refine ⟨_, rfl, ?_⟩
  split_ifs
  · exact .inl (abort_ends.run s)
  -- Every branch that waits goes one of three ways on the status it gets.
  have hwait : ∀ k : BitVec 32 → Shell ℤ, (∀ w, (∃ st, k w = lineDone st) ∨ ∃ st, k w = goOn st) →
      ((.call (.waitpid pid) k : Shell ℤ).run K s = .stuck ∨
        (∃ st s', (.call (.waitpid pid) k : Shell ℤ).run K s = (lineDone st).run K s') ∨
        ∃ st s', (.call (.waitpid pid) k : Shell ℤ).run K s = (goOn st).run K s') := by
    intro k hk
    rw [Prog.run]
    cases K.call s (.waitpid pid) with
    | none => exact .inl rfl
    | some x =>
      rcases hk x.1 with ⟨st, h⟩ | ⟨st, h⟩
      · exact .inr (.inl ⟨st, x.2, congrArg (Prog.run K · x.2) h⟩)
      · exact .inr (.inr ⟨st, x.2, congrArg (Prog.run K · x.2) h⟩)
  cases op with
  | cmdEnd | cmdSemicolon | cmdAnd | cmdOr =>
    simp only [Prog.sys_bind]
    refine hwait _ fun w => ?_
    split_ifs
    all_goals first | exact .inl ⟨_, rfl⟩ | exact .inr ⟨_, rfl⟩
  | cmdBackground | cmdPipe => exact .inr (.inr ⟨0, s, rfl⟩)

/-- The end of a line leaves its mark and returns the status. -/
theorem lineDone_run (status : ℤ) (s : κ) :
    (lineDone status).run K s = Run.pass (Mark.returns, s) (.ret (status, s)) := rfl

/-- At the end of a line the open pipe is closed, and the line is done. -/
theorem cmdLoop_null (pos : Pos) (status fd : ℤ) (s : κ) :
    Prog.Leads K (cmdLoop .null pos status fd) (lineDone status) s := by
  unfold cmdLoop
  exact (Prog.callsOnly_sys _).leads (fun _ => Prog.Leads.refl _) s

/-- A subshell runs the loop over its commands behind a mark of its own. -/
theorem subshellExec_run {sub : Command} {pos : Pos} {line : Shell ℤ}
    (h : subshellExec sub pos = some line) (s : κ) :
    line.run K s = Run.pass (Mark.line, s) ((cmdLoop sub (true :: pos) 0 0).run K s) := by
  unfold subshellExec at h
  split_ifs at h
  rw [← Option.some.inj h]
  rfl

/-- The turns after `cmd_exec`, when it is so for what follows. -/
theorem afterExec_back (op : ControlOp) (status pid : ℤ) {goOn : ℤ → Shell ℤ}
    (hgoOn : ∀ st s, ChildBack ((goOn st).run K s).notes ↔ ExecFails K ((goOn st).run K s).notes)
    (s : κ) : ∃ tail : List (Mark × κ),
      ((afterExec op status pid goOn).run K s).notes = (.back pid, s) :: tail ∧
        (ChildBack tail ↔ ExecFails K tail) := by
  obtain ⟨r, hr, hcases⟩ := afterExec_run (K := K) op status pid goOn s
  refine ⟨r.notes, by rw [hr, Run.notes_pass], ?_⟩
  rcases hcases with rfl | ⟨st, s', rfl⟩ | ⟨st, s', rfl⟩
  · simp
  · simp [lineDone_run, FailsAt]
  · exact hgoOn st s'

/-- A subshell, when it is so for its list. -/
theorem subshellExec_back {sub : Command} {pos : Pos}
    (hsub : ∀ s, ChildBack ((cmdLoop sub (true :: pos) 0 0).run K s).notes ↔
      ExecFails K ((cmdLoop sub (true :: pos) 0 0).run K s).notes) (line : Shell ℤ) (s : κ)
    (hline : subshellExec sub pos = some line) :
    ChildBack (line.run K s).notes ↔ ExecFails K (line.run K s).notes := by
  simpa [subshellExec_run hline, FailsAt] using hsub s

/-- In every process of a line: `cmd_exec` returns in a child when an `execvp` fails. -/
theorem cmdLoop_back (c : Command) (pos : Pos) (status fd : ℤ) (s : κ) :
    ChildBack ((cmdLoop c pos status fd).run K s).notes ↔
      ExecFails K ((cmdLoop c pos status fd).run K s).notes := by
  induction c generalizing pos status fd s with
  | null =>
    rcases cmdLoop_null (K := K) pos status fd s with h | ⟨s', h⟩ <;>
      simp [h, lineDone_run, FailsAt]
  | mk argv f sub op next ihsub ihnext =>
    -- The turns after `cmd_exec` has returned `y`.
    have hafter := fun y : (ℤ × ℤ) × κ => afterExec_back (K := K) op status y.1.1
      (fun st s' => ihnext (false :: pos) st y.1.2 s') y.2
    have hsub := subshellExec_back (ihsub (true :: pos) 0 0)
    rw [cmdLoop_mk, childBack_congr (Prog.notes_bind _ _ s),
      execFails_congr (Prog.notes_bind _ _ s), childBack_append, execFails_append,
        childBack_flatMap, execFails_flatMap,
      ← cmdExec_back pos argv f op _ fd hsub]
    constructor
    · rintro (h | ⟨y, hy, h⟩)
      · exact .inl (.inr h)
      · obtain ⟨tail, htail, hiff⟩ := hafter y
        rw [htail, childBack_cons] at h
        rcases h with h | h
        · exact .inl (.inl ⟨y, hy, Mark.back.inj h⟩)
        · exact .inr ⟨y, hy, by rw [htail]; exact execFails_cons.mpr (.inr (hiff.mp h))⟩
    · rintro ((⟨y, hy, h⟩ | h) | ⟨y, hy, h⟩)
      · obtain ⟨tail, htail, -⟩ := hafter y
        exact .inr ⟨y, hy, by rw [htail]; exact childBack_cons.mpr (.inl (congrArg Mark.back h))⟩
      · exact .inl h
      · obtain ⟨tail, htail, hiff⟩ := hafter y
        rw [htail, execFails_cons] at h
        refine .inr ⟨y, hy, ?_⟩
        rw [htail]
        exact childBack_cons.mpr (.inr (hiff.mpr (h.resolve_left id)))

/-! ## Which commands are started -/

/-- The command that is started at the mark. -/
def startOf : Mark × κ → Option Pos
  | (.start pos, _) => some pos
  | _ => none

/-- The commands that are started. -/
def starts (notes : List (Mark × κ)) : List Pos := notes.filterMap startOf

/-- Without marks nothing is started. -/
@[simp] theorem starts_nil : starts ([] : List (Mark × κ)) = [] := rfl

/-- What is started in two parts is started in one or the other. -/
@[simp] theorem starts_append : starts (notes ++ notes') = starts notes ++ starts notes' :=
  List.filterMap_append

/-- The commands that are started are the one at `pos` or stand below it, and each is started
once. -/
def Below (pos : Pos) (notes : List (Mark × κ)) : Prop :=
  (starts notes).Nodup ∧ ∀ q ∈ starts notes, pos <:+ q

/-- Without marks nothing is started anywhere. -/
theorem below_nil (pos : Pos) : Below pos ([] : List (Mark × κ)) := ⟨List.nodup_nil, by simp⟩

/-- The order of the marks does not matter to what is started below a place. -/
theorem below_congr {pos : Pos} (h : notes.Perm notes') : Below pos notes ↔ Below pos notes' := by
  have hstarts : (starts notes).Perm (starts notes') := h.filterMap startOf
  rw [Below, Below, hstarts.nodup_iff]
  simp only [hstarts.mem_iff]

/-- A mark that starts nothing does not matter to what is started below a place. -/
theorem below_cons {pos : Pos} (h : startOf x = none) :
    Below pos (x :: notes) ↔ Below pos notes := by
  rw [Below, Below, starts, List.filterMap_cons_none h]
  rfl

/-- The next command of a list and those in the subshell stand in different parts of the tree. -/
theorem below_start {pos : Pos} {s : κ} (hsub : Below (true :: pos) notes)
    (hnext : Below (false :: pos) notes') : Below pos ((.start pos, s) :: (notes ++ notes')) := by
  have hstarts : starts ((.start pos, s) :: (notes ++ notes')) =
      pos :: (starts notes ++ starts notes') := by
    rw [← starts_append]
    rfl
  rw [Below, hstarts]
  refine ⟨?_, ?_⟩
  -- Positions below the two branches differ from `pos` and from each other.
  · rw [List.nodup_cons, List.nodup_append]
    refine ⟨fun hmem => ?_, hsub.1, hnext.1, fun a ha b hb heq => ?_⟩
    · rcases List.mem_append.mp hmem with h | h
      · exact not_suffix_self (hsub.2 pos h)
      · exact not_suffix_self (hnext.2 pos h)
    · exact branches_differ (heq ▸ hsub.2 a ha) (hnext.2 b hb)
  · intro q hq
    rcases List.mem_cons.mp hq with rfl | hq
    · exact List.suffix_rfl
    · rcases List.mem_append.mp hq with h | h
      · exact (List.suffix_cons _ _).trans (hsub.2 q h)
      · exact (List.suffix_cons _ _).trans (hnext.2 q h)

section Once

variable {pos : Pos} {sub : Option (Shell ℤ)}
  (hback : ∀ line s, sub = some line →
    (ChildBack (line.run K s).notes ↔ ExecFails K (line.run K s).notes))
  (hbelow : ∀ line s, sub = some line → ¬ ExecFails K (line.run K s).notes →
    Below (true :: pos) (line.run K s).notes)

include hbelow in
/-- A child starts the commands of its subshell only, each once, if no `execvp` fails. -/
theorem childBranch_below (argv : List Text) (f : Fin 3 → Option Text) (fd : ℤ)
    (pipefd : Option (ℤ × ℤ)) (s : κ)
    (h : ¬ ExecFails K ((childBranch argv f sub fd pipefd).run K s).notes) :
    Below (true :: pos) ((childBranch argv f sub fd pipefd).run K s).notes := by
  rcases childBranch_run (K := K) argv f sub fd pipefd s with heq | ⟨s', heq | ⟨s'', heq⟩⟩
  · rw [heq]
    exact below_nil _
  · rw [heq, Run.notes_pass, below_cons rfl]
    exact below_nil _
  -- The child reaches its body: a subshell's line, or a command.
  rw [heq, Run.notes_pass, execFails_cons, not_or] at h
  rw [heq, Run.notes_pass, below_cons rfl]
  cases sub with
  | some line =>
    obtain ⟨hnotes, -⟩ := childBody_some (K := K) argv line s''
    rw [execFails_congr hnotes] at h
    rw [below_congr hnotes]
    exact hbelow line s'' rfl h.2
  | none =>
    rcases childBody_none (K := K) argv s'' with heq' | heq'
    · rw [heq']
      exact below_nil _
    · rw [heq', Prog.run, Run.notes_pass, below_cons rfl, Prog.run]
      cases K.call s'' (.execvp argv) <;> exact below_nil _

include hback hbelow

/-- From `fork` on only the commands of the subshell are started, each once, and the child does not
return, if no `execvp` fails. -/
theorem forkExec_below (argv : List Text) (f : Fin 3 → Option Text) (fd : ℤ)
    (pipefd : Option (ℤ × ℤ)) (s : κ)
    (h : ¬ ExecFails K ((forkExec argv f sub fd pipefd).run K s).notes) :
    Below (true :: pos) ((forkExec argv f sub fd pipefd).run K s).notes ∧
      ((forkExec argv f sub fd pipefd).run K s).Lone := by
  rw [forkExec, Prog.forks_bind, Prog.run] at h ⊢
  cases hfork : K.fork s with
  | none =>
    simp only [show (-1 : ℤ) < 0 by decide, if_true, Prog.pure_eq]
    rw [(forkFailed_callsOnly pipefd).notes_bind_ret]
    exact ⟨below_nil _, ((forkFailed_callsOnly pipefd).bind fun _ => Prog.callsOnly_ret _).lone s⟩
  | some x =>
    obtain ⟨⟨pid, hpid⟩, s', c⟩ := x
    have hne : pid ≠ 0 := hpid.ne'
    have hparent := (parentBranch_callsOnly argv fd pipefd pid).notes_bind_ret (K := K)
      (fun a => (pid, a)) s'
    have hchild := Prog.notes_bind_ret (K := K) (childBranch argv f sub fd pipefd)
      (fun p => (p, fd)) c
    simp only [hfork, if_neg hpid.not_gt, if_neg hne, lt_irrefl, if_false, if_true, Run.notes_par,
      Prog.pure_eq, hparent, List.nil_append, execFails_congr hchild, below_congr hchild] at h ⊢
    -- If the child came back, some `execvp` has failed, which `h` excludes.
    refine ⟨childBranch_below hbelow argv f fd pipefd c h, Run.lone_par.mpr ⟨?_, ?_⟩⟩
    · exact ((parentBranch_callsOnly argv fd pipefd pid).bind fun _ => Prog.callsOnly_ret _).lone s'
    · rw [Prog.returned_bind_ret, List.map_eq_nil_iff]
      by_contra hreturned
      exact h ((childBranch_back argv f fd pipefd hback c).1.mp (.inl hreturned))

/-- `cmd_exec` starts its command and those of the subshell, each once, and the child does not
return, if no `execvp` fails. -/
theorem cmdExec_below (argv : List Text) (f : Fin 3 → Option Text) (op : ControlOp)
    (hasNext : Bool) (fd : ℤ) (s : κ)
    (h : ¬ ExecFails K ((cmdExec pos argv f sub op hasNext fd).run K s).notes) :
    ((cmdExec pos argv f sub op hasNext fd).run K s).Lone ∧
      ∃ tail, Below (true :: pos) tail ∧
        ((cmdExec pos argv f sub op hasNext fd).run K s).notes = (.start pos, s) :: tail := by
  rw [cmdExec, Prog.note_bind, Prog.run, Run.notes_pass, execFails_cons, not_or] at h
  rw [cmdExec, Prog.note_bind, Prog.run, Run.notes_pass]
  suffices hrest : Run.Lone _ ∧ Below (true :: pos) _ from ⟨hrest.1, _, hrest.2, rfl⟩
  replace h := h.2
  -- The branches of `cmd_exec`: a dangling pipe, a pipe, a plain command.
  split_ifs at h ⊢
  · exact ⟨Run.lone_ret ((-1, fd), s), below_nil _⟩
  · simp only [Prog.sys_bind, Prog.run] at h ⊢
    cases hpipe : K.call s .pipe with
    | none => exact ⟨Run.lone_stuck, below_nil _⟩
    | some x =>
      obtain ⟨_ | ⟨r, w⟩, s'⟩ := x
      · exact ⟨Run.lone_ret ((-1, fd), s'), below_nil _⟩
      · rw [hpipe] at h
        simp only [Prog.note_bind, Prog.run, Run.notes_pass, execFails_cons, not_or] at h
        obtain ⟨hforked, hlone⟩ := forkExec_below hback hbelow argv f fd (some (r, w)) s' h.2
        exact ⟨hlone, (below_cons rfl).mpr hforked⟩
  · exact (forkExec_below hback hbelow argv f fd none s h).symm

end Once

/-- The turns after `cmd_exec`, when it is so for what follows. -/
theorem afterExec_below (op : ControlOp) (status pid : ℤ) {goOn : ℤ → Shell ℤ} {pos : Pos} {s : κ}
    (hgoOn : ∀ st s, ¬ ExecFails K ((goOn st).run K s).notes →
      Below pos ((goOn st).run K s).notes ∧ ((goOn st).run K s).Lone)
    (h : ¬ ExecFails K ((afterExec op status pid goOn).run K s).notes) :
    Below pos ((afterExec op status pid goOn).run K s).notes ∧
      ((afterExec op status pid goOn).run K s).Lone := by
  obtain ⟨r, hr, hcases⟩ := afterExec_run (K := K) op status pid goOn s
  rw [hr, Run.notes_pass, execFails_cons, not_or] at h
  rw [hr, Run.notes_pass, below_cons rfl]
  rcases hcases with rfl | ⟨st, s', rfl⟩ | ⟨st, s', rfl⟩
  · exact ⟨below_nil _, Run.lone_stuck⟩
  · exact ⟨(below_cons rfl).mpr (below_nil _), Run.lone_ret (st, s')⟩
  · exact hgoOn st s' h.2

/-- Where no `execvp` fails, each command is started once at most, and only the process that started
the line goes on with it. -/
theorem cmdLoop_below (c : Command) (pos : Pos) (status fd : ℤ) (s : κ)
    (h : ¬ ExecFails K ((cmdLoop c pos status fd).run K s).notes) :
    Below pos ((cmdLoop c pos status fd).run K s).notes ∧
      ((cmdLoop c pos status fd).run K s).Lone := by
  induction c generalizing pos status fd s with
  | null =>
    rcases cmdLoop_null (K := K) pos status fd s with heq | ⟨s', heq⟩
    · rw [heq]
      exact ⟨below_nil _, Run.lone_stuck⟩
    · rw [heq, lineDone_run]
      exact ⟨(below_cons rfl).mpr (below_nil _), Run.lone_ret (status, s')⟩
  | mk argv f sub op next ihsub ihnext =>
    have hback := subshellExec_back (K := K) (cmdLoop_back sub (true :: pos) 0 0)
    have hbelow : ∀ line s', subshellExec sub pos = some line →
        ¬ ExecFails K (line.run K s').notes → Below (true :: pos) (line.run K s').notes := by
      intro line s' hline hno
      rw [subshellExec_run hline, Run.notes_pass, execFails_cons, not_or] at hno
      rw [subshellExec_run hline, Run.notes_pass, below_cons rfl]
      exact (ihsub (true :: pos) 0 0 s' hno.2).1
    rw [cmdLoop_mk, execFails_congr (Prog.notes_bind _ _ s), execFails_append, execFails_flatMap,
      not_or] at h
    obtain ⟨hexec, hrest⟩ := h
    obtain ⟨hlone, tail, htail, heq⟩ := cmdExec_below hback hbelow argv f op _ fd s hexec
    rw [hlone.returned] at hrest
    rw [cmdLoop_mk, below_congr (Prog.notes_bind _ _ s), heq, hlone.returned, List.cons_append]
    -- Only the process that starts `cmd_exec` comes back from it, if any does.
    cases hmain : (Prog.run K (cmdExec pos argv f (subshellExec sub pos) op (next ≠ .null) fd)
        s).main.result with
    | none =>
      rw [Option.toList_none, List.flatMap_nil]
      refine ⟨below_start htail (below_nil _), Prog.lone_bind hlone fun y hy => ?_⟩
      rw [hmain] at hy
      cases hy
    | some y =>
      rw [hmain] at hrest
      have hy := afterExec_below op status y.1.1 (fun st s' => ihnext (false :: pos) st y.1.2 s')
        fun hfails => hrest ⟨y, List.mem_singleton_self y, hfails⟩
      rw [Option.toList_some, List.flatMap_singleton]
      refine ⟨below_start htail hy.1, Prog.lone_bind hlone fun z hz => ?_⟩
      rw [hmain] at hz
      obtain rfl := Option.some.inj hz
      exact hy.2

/-- What one evaluation of a line should be: `cmd_exec` returns to `cmd_line_exec` in no child,
every command is started at most once, and only the shell that started the line returns from it. -/
def RunOnce (r : Run Mark κ ℤ) : Prop :=
  (∀ x ∈ r.notes, x.1 ≠ .back 0) ∧ (starts r.notes).Nodup ∧ ∀ p ∈ r.others, p.result = none

/-- **Each command is run at most once and by one shell**, whatever the system calls answer, exactly
when no `execvp` that the line makes fails. -/
theorem runOnce_iff (K : Kernel Call Call.Answer κ) (cmdlist : Command) (s : κ) :
    RunOnce ((cmdLineExec cmdlist []).run K s) ↔ ∀ argv s',
      (Mark.exec argv, s') ∈ ((cmdLineExec cmdlist []).run K s).notes →
        K.call s' (.execvp argv) = none := by
  have hback := cmdLoop_back (K := K) cmdlist [] 0 0 s
  constructor
  · rintro ⟨hnone, -⟩ argv s' hmem
    by_contra hfails
    -- The note of the failing `execvp` is one of the loop's, not the mark of the line.
    have hloop : ExecFails K ((cmdLoop cmdlist [] 0 0).run K s).notes := by
      rcases List.mem_cons.mp hmem with h | h
      · cases h
      · exact ⟨_, h, hfails⟩
    obtain ⟨x, hx, h0⟩ := hback.mpr hloop
    exact hnone x (List.mem_cons_of_mem _ hx) h0
  · intro hexec
    have hno : ¬ ExecFails K ((cmdLoop cmdlist [] 0 0).run K s).notes := by
      rintro ⟨⟨m, s'⟩, hx, hfails⟩
      cases m with
      | exec argv => exact hfails (hexec argv s' (List.mem_cons_of_mem _ hx))
      | _ => exact hfails
    obtain ⟨hbelow, hlone⟩ := cmdLoop_below cmdlist [] 0 0 s hno
    refine ⟨fun x hx h0 => ?_, hbelow.1, hlone⟩
    rcases List.mem_cons.mp hx with rfl | hx
    · cases h0
    · exact hno (hback.mp ⟨x, hx, h0⟩)

/-- A kernel that finds no program to execute. -/
def notFound : Kernel Call Call.Answer Unit where
  call _ c := (match c with
    | .pipe => some (some (3, 4))
    | .getcwd => some none
    | .exit _ | .abort => none
    | .waitpid _ => some (0 : BitVec 32)
    | .indeterminate => some (0, 0)
    | .execvp _ => some (-1 : ℤ)
    | .dup2 _ _ | .close _ | .openFile _ _ | .write _ _ | .perror _ | .chdir _ | .reap | .errno =>
      some (0 : ℤ) : Option c.Answer).map fun a => (a, ())
  fork _ := some (⟨1, by decide⟩, (), ())

/-- `a ; b`, where there is no program `a`: the child that was to be `a` goes on with the line, and
`b` is started twice. -/
theorem not_runOnce_notFound : ¬ RunOnce ((cmdLineExec (.mk [text "a"] (fun _ => none) .null
    .cmdSemicolon (.mk [text "b"] (fun _ => none) .null .cmdEnd .null)) []).run notFound ()) := by
  rintro ⟨-, hnodup, -⟩
  exact absurd hnodup (by decide +kernel)

end Cs5600.Lab2
