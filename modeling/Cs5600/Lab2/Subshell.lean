import Cs5600.Lab2.Control

/-!
# The status of a subshell

The process for `( LIST )` exits with 0 or with 5, as `cmd_line_exec` returns 0 or not. But an
`exit` in LIST that is not in a subshell of its own ends this process at once, with the argument as
its status, and `cmd_line_exec` does not always return the status of the last command.

`Command.outcome` is what becomes of the process, by the operators and the results of the commands.
`reportsZeroOrFive_iff` says when it exits as the comment on `cmd_exec` wants it.
-/

namespace Cs5600.Lab2

/-- The command is an `exit` that ends the shell it is given to. -/
def endsShell : List Text → Bool
  | [] => false
  | name :: args => name = text "exit" ∧ args.length ≤ 1

/-- The argument of the `exit` with which the shell ends for such a command. -/
def exitStatus (argv : List Text) (errno : ℤ) : ℤ :=
  match argv with
  | [_, code] => if code = text "0" then 0 else if extCode code ≠ 0 then extCode code else errno
  | _ => 0

/-- The kernel answers all calls of a shell with these wait results, and every pipe and process is
made. `err n` is `errno` after the shell has started `n` processes. -/
structure Answers {κ : Type} (K : Kernel Call Call.Answer κ) (w : ℕ → Wait) (err : ℕ → ℤ)
    (count : κ → ℕ) (number : ℤ → ℕ) : Prop extends Waits K w count number where
  dup2 (s : κ) (fd fd' : ℤ) : ∃ a s', K.call s (.dup2 fd fd') = some (a, s') ∧ count s' = count s
  openFile (s : κ) (path : Text) (writing : Bool) :
    ∃ a s', K.call s (.openFile path writing) = some (a, s') ∧ count s' = count s
  chdir (s : κ) (path : Option Text) :
    ∃ a s', K.call s (.chdir path) = some (a, s') ∧ count s' = count s
  errno (s : κ) : ∃ s', K.call s .errno = some (err (count s), s')

/-- What becomes of a shell that runs a list, from the `i`-th command on: how many commands it
starts, and the status that `cmd_line_exec` returns, or else the argument of its `exit`. -/
def Command.outcome (w : ℕ → Wait) (err : ℕ → ℤ) : Command → ℕ → ℤ → ℕ × (ℤ ⊕ ℤ)
  | .null, _, status => (0, .inl status)
  | .mk argv _ _ op next, i, status =>
    if endsShell argv then (1, .inr (exitStatus argv (err (i + 1))))
    else
      match turn op status (w i) with
      | .inl status =>
        let rest := next.outcome w err (i + 1) status
        (rest.1 + 1, rest.2)
      | .inr status => (1, .inl status)

/-- The calls that `cmd_exec` makes to set up descriptors. -/
def Call.Plumbs : Call → Prop
  | .dup2 _ _ | .close _ | .openFile _ _ => True
  | _ => False

/-- The child's part of the pipes makes calls for pipes and files. -/
theorem childPipes_plumbs (passPipefd : ℤ) (pipefd : Option (ℤ × ℤ)) :
    (childPipes passPipefd pipefd).CallsIn Call.Plumbs := by
  unfold childPipes
  cases pipefd <;> split_ifs <;> simp [Call.Plumbs]

/-- A redirection makes calls for pipes and files. -/
theorem redirect_plumbs (file : Option Text) (fd : ℤ) (writing : Bool) :
    (redirect file fd writing).CallsIn Call.Plumbs := by
  cases file <;> simp [redirect, Call.Plumbs]

/-- The process returns the value, or ends with `exit`. -/
def EndsAs {κ : Type} (K : Kernel Call Call.Answer κ) (p : Shell ℤ) (s : κ) : ℤ ⊕ ℤ → Prop
  | .inl v => ∃ s', (p.run K s).main.result = some (v, s')
  | .inr n => (p.run K s).main.result = none ∧ p.last K s = some (.exit n)

/-- A program that ends like another one ends as it does. -/
theorem EndsAs.of_eq {κ : Type} {K : Kernel Call Call.Answer κ} {p q : Shell ℤ} {s s' : κ}
    {r : ℤ ⊕ ℤ} (h : EndsAs K q s' r) (hresult : (p.run K s).main.result = (q.run K s').main.result)
    (hlast : p.last K s = q.last K s') : EndsAs K p s r := by
  cases r with
  | inl v =>
    obtain ⟨s'', hv⟩ := h
    exact ⟨s'', hresult.trans hv⟩
  | inr n => exact ⟨hresult.trans h.1, hlast.trans h.2⟩

/-! ## The run of the process -/

section Run

variable {κ : Type} {K : Kernel Call Call.Answer κ} {w : ℕ → Wait} {err : ℕ → ℤ} {count : κ → ℕ}
  {number : ℤ → ℕ} (hK : Answers K w err count number)
include hK

/-- The calls for pipes and files return, and make no child. -/
theorem Answers.plumbs (s : κ) (c : Call) (h : c.Plumbs) :
    ∃ a s', K.call s c = some (a, s') ∧ count s' = count s := by
  cases c with
  | dup2 fd fd' => exact hK.dup2 s fd fd'
  | close fd => exact hK.close s fd
  | openFile path writing => exact hK.openFile s path writing
  | _ => cases h

/-- The parent's part of the builtins returns unless it ends the shell. -/
theorem parentBuiltin_returns {argv : List Text} (h : endsShell argv = false) :
    BuiltinReturns K count argv := by
  intro pid s
  cases argv with
  | nil => exact ⟨s, rfl, rfl⟩
  | cons name args =>
    -- `cd` and the commands that are no builtins return; `exit` does with too many arguments.
    by_cases hcd : name = text "cd"
    · obtain ⟨a, s', hcall, hcount⟩ := hK.chdir s args.head?
      have hexit : text "cd" ≠ text "exit" := by decide
      refine ⟨s', hcount, ?_⟩
      simp [parentBuiltin, hcd, hexit, Prog.run, hcall, Run.ret]
    by_cases hexit : name = text "exit"
    · -- There are too many arguments.
      obtain ⟨a, b, args, rfl⟩ : ∃ a b args', args = a :: b :: args' := by
        cases args with
        | nil => simp [endsShell, hexit] at h
        | cons a args =>
          cases args with
          | nil => simp [endsShell, hexit] at h
          | cons b args => exact ⟨a, b, args, rfl⟩
      exact ⟨s, rfl, by simp only [parentBuiltin, if_true, hexit]; rfl⟩
    · exact ⟨s, rfl, by simp [parentBuiltin, hcd, hexit, Prog.run, Run.ret]⟩

omit hK in
/-- A call of `exit` does not return. -/
theorem exit_call (n : ℤ) (s : κ) : K.call s (.exit n) = none := by
  cases h : K.call s (.exit n) with
  | none => rfl
  | some x => exact x.1.elim

omit hK in
/-- `exit` ends the process with its number. -/
theorem exit_run (n : ℤ) (s : κ) {α : Type} : ((exit n : Shell α).run K s).main = ⟨[], none⟩ ∧
    (exit n : Shell α).last K s = some (.exit n) := by
  simp [exit, Prog.run, Prog.last, exit_call, Run.stuck]

/-- The parent's part of `exit` ends the shell with the status of its arguments. -/
theorem parentBuiltin_exits {argv : List Text} (h : endsShell argv = true) (pid : ℤ) (s : κ) :
    ((parentBuiltin argv pid).run K s).main = ⟨[], none⟩ ∧
      (parentBuiltin argv pid).last K s = some (.exit (exitStatus argv (err (count s)))) := by
  obtain ⟨s', hwait, hcount⟩ := hK.waitpid s pid
  cases argv with
  | nil => cases h
  | cons name args =>
    have hname : name = text "exit" ∧ args.length ≤ 1 := by simpa [endsShell] using h
    obtain ⟨rfl, hlen⟩ := hname
    have hcd : text "exit" ≠ text "cd" := by decide
    have hbuiltin : parentBuiltin (text "exit" :: args) pid = parentExit args pid := by
      simp only [parentBuiltin, if_neg hcd, if_true]
    rw [hbuiltin]
    -- `exit` with no argument, or with one that `strtol` reads.
    cases args with
    | nil =>
      simp only [parentExit, Prog.sys_bind, Prog.run, Prog.last, hwait]
      exact exit_run 0 s'
    | cons code args =>
      have hnil : args = [] := by
        cases args with
        | nil => rfl
        | cons b args => simp at hlen
      subst hnil
      simp only [parentExit, exitStatus, Prog.sys_bind, Prog.run, Prog.last, hwait]
      split_ifs
      · exact exit_run 0 s'
      · exact exit_run _ s'
      · obtain ⟨s'', herrno⟩ := hK.errno s'
        simp only [Prog.run, Prog.last, herrno]
        rw [hcount]
        exact exit_run _ s''

/-- The parent's branch ends the shell at an `exit` that does. -/
theorem parentBranch_exits {argv : List Text} (h : endsShell argv = true) (fd : ℤ)
    (pipefd : Option (ℤ × ℤ)) (pid : ℤ) (s : κ) :
    ((parentBranch argv fd pipefd pid).run K s).main = ⟨[], none⟩ ∧
      (parentBranch argv fd pipefd pid).last K s =
        some (.exit (exitStatus argv (err (count s)))) := by
  obtain ⟨fd', s', hcount, hpipes⟩ := parentPipes_main hK.toWaits fd pipefd s
  obtain ⟨hmain, hlast⟩ := parentBuiltin_exits hK h pid s'
  have hrest : ((parentBuiltin argv pid >>= fun _ => pure fd').run K s').main = ⟨[], none⟩ := by
    rw [Prog.main_bind, hmain]
  rw [parentBranch, Prog.last_bind_of_returns (congrArg Proc.result hpipes),
    Prog.last_bind_of_stuck (congrArg Proc.result hmain), hlast, hcount, Prog.main_bind, hpipes]
  simp only [hrest, List.nil_append, and_self]

/-- `cmd_exec` in a shell that an `exit` ends. -/
theorem cmdExec_exits {argv : List Text} (h : endsShell argv = true) (pos : Pos)
    (f : Fin 3 → Option Text) (sub : Option (Shell ℤ)) {op : ControlOp} {hasNext : Bool}
    (hop : op = .cmdPipe → hasNext = true) (fd : ℤ) (s : κ) :
    ∃ notes, starts notes = [pos] ∧
      ((cmdExec pos argv f sub op hasNext fd).run K s).main = ⟨notes, none⟩ ∧
      (cmdExec pos argv f sub op hasNext fd).last K s =
        some (.exit (exitStatus argv (err (count s + 1)))) := by
  -- From the `fork` on.
  have hfork : ∀ pipefd s, ((forkExec argv f sub fd pipefd).run K s).main = ⟨[], none⟩ ∧
      (forkExec argv f sub fd pipefd).last K s =
        some (.exit (exitStatus argv (err (count s + 1)))) := by
    intro pipefd s
    obtain ⟨⟨pid, hpid⟩, s', c, hfork, -, hcount⟩ := hK.fork s
    obtain ⟨hmain, hlast⟩ := parentBranch_exits hK h fd pipefd pid s'
    rw [forkExec, Prog.forks_bind, Prog.run, Prog.last, hfork]
    simp only [Run.par, if_neg hpid.not_gt, if_neg hpid.ne']
    rw [Prog.main_bind, Prog.last_bind_of_stuck (congrArg Proc.result hmain), hmain, hlast, hcount]
    exact ⟨rfl, rfl⟩
  rw [cmdExec, Prog.note_bind, Prog.run, Prog.last]
  split_ifs with hpipe hnext
  · rw [hop hpipe] at hnext
    cases hnext
  · obtain ⟨fds, s', hcall, hcount⟩ := hK.pipe s
    obtain ⟨hmain, hlast⟩ := hfork (some fds) s'
    refine ⟨[(.start pos, s), (.piped fds.1 fds.2, s')], rfl, ?_⟩
    simp only [Prog.sys_bind, Prog.run, Prog.last, hcall, Prog.note_bind, Run.pass, hmain, hlast,
      hcount, and_self]
  · obtain ⟨hmain, hlast⟩ := hfork none s
    refine ⟨[(.start pos, s)], rfl, ?_⟩
    simp only [Run.pass, hmain, hlast, and_self]

/-- The run of any list, in a process that has started `count s` commands. -/
theorem cmdLoop_outcome {c : Command} (hwf : c.WellFormed) (pos : Pos) (status fd : ℤ) (s : κ) :
    (starts ((cmdLoop c pos status fd).run K s).main.notes).length =
        (c.outcome w err (count s) status).1 ∧
      EndsAs K (cmdLoop c pos status fd) s (c.outcome w err (count s) status).2 := by
  induction c generalizing pos status fd s with
  | null =>
    obtain ⟨a, s', hreap, -⟩ := hK.reap s
    simp only [cmdLoop, Prog.sys_bind, EndsAs, Command.outcome, Prog.run, hreap, lineDone_run]
    exact ⟨rfl, s', rfl⟩
  | mk argv f sub op next ihsub ihnext =>
    obtain ⟨-, -, hlast, -, -, hwfnext⟩ := hwf
    have hnext : op = .cmdPipe → decide (next ≠ .null) = true := by
      rintro rfl
      exact decide_eq_true fun h => by simpa using hlast h
    rw [cmdLoop_mk]
    unfold Command.outcome
    split_ifs with hends
    · -- The `exit` ends the process inside `cmd_exec`.
      obtain ⟨notes, hstarts, hmain, hexit⟩ :=
        cmdExec_exits hK hends pos f (subshellExec sub pos) hnext fd s
      have hrun := Prog.main_bind (K := K) (cmdExec pos argv f (subshellExec sub pos) op
        (next ≠ .null) fd) (fun y => afterExec op status y.1 fun status =>
          cmdLoop next (false :: pos) status y.2) s
      rw [hmain] at hrun
      refine ⟨by rw [hrun, hstarts]; rfl, congrArg Proc.result hrun, ?_⟩
      rw [Prog.last_bind_of_stuck (congrArg Proc.result hmain), hexit]
    obtain ⟨notes, pid, fd', s', hstarts, hpid, hnumber, hcount, hmain⟩ :=
      cmdExec_main hK.toWaits (parentBuiltin_returns hK (Bool.eq_false_iff.mpr hends)) pos f
        (subshellExec sub pos) hnext fd s
    obtain ⟨s'', hcount', hrun, hrunLast⟩ := afterExec_run_eq hK.toWaits op status hpid
      (fun st => cmdLoop next (false :: pos) st fd') s'
    rw [hnumber] at hrun hrunLast
    -- The process goes on as `turn` says.
    have hloop := Prog.main_bind (K := K) (cmdExec pos argv f (subshellExec sub pos) op
      (next ≠ .null) fd) (fun y => afterExec op status y.1 fun status =>
        cmdLoop next (false :: pos) status y.2) s
    have hloopLast := Prog.last_bind_of_returns (f := fun y => afterExec op status y.1 fun status =>
        cmdLoop next (false :: pos) status y.2) (congrArg Proc.result hmain)
    simp only [hmain, hrun, Run.pass] at hloop
    rw [hrunLast] at hloopLast
    cases hturn : turn op status (w (count s)) with
    | inl st =>
      rw [hturn] at hloop hloopLast
      obtain ⟨hlength, hend⟩ := ihnext hwfnext (false :: pos) st fd' s''
      rw [hcount', hcount] at hlength hend
      refine ⟨?_, hend.of_eq (by rw [hloop]; rfl) hloopLast⟩
      rw [hloop, starts_append, hstarts]
      exact congrArg (· + 1) hlength
    | inr st =>
      rw [hturn] at hloop hloopLast
      refine ⟨by rw [hloop, starts_append, hstarts]; rfl, s'', congrArg Proc.result hloop⟩

/-- The pipes of the child do not stop it. -/
theorem childPipes_main (fd : ℤ) (pipefd : Option (ℤ × ℤ)) (s : κ) :
    ∃ s', count s' = count s ∧ ((childPipes fd pipefd).run K s).main = ⟨[], some ((), s')⟩ := by
  obtain ⟨_, h⟩ := (childPipes_plumbs fd pipefd).returns hK.plumbs s
  exact h

/-- A redirection does not stop the child. -/
theorem redirect_main (file : Option Text) (fd : ℤ) (writing : Bool) (s : κ) :
    ∃ s', count s' = count s ∧ ((redirect file fd writing).run K s).main = ⟨[], some ((), s')⟩ := by
  obtain ⟨_, h⟩ := (redirect_plumbs file fd writing).returns hK.plumbs s
  exact h

/-- The process for `( LIST )`, to its end. -/
theorem childBranch_ends {c : Command} (hne : c ≠ .null) (hwf : c.WellFormed)
    (f : Fin 3 → Option Text) (pos : Pos) (fd : ℤ) (pipefd : Option (ℤ × ℤ)) (s : κ) :
    (starts ((childBranch [] f (subshellExec c pos) fd pipefd).run K s).main.notes).length =
        (c.outcome w err (count s) 0).1 ∧
      (childBranch [] f (subshellExec c pos) fd pipefd).last K s =
        some (.exit ((c.outcome w err (count s) 0).2.elim
          (fun v => if v = 0 then 0 else 5) id)) := by
  obtain ⟨s₁, hcount₁, h₁⟩ := childPipes_main hK fd pipefd s
  obtain ⟨s₂, hcount₂, h₂⟩ := redirect_main hK (f stdinFileno) 0 false s₁
  obtain ⟨s₃, hcount₃, h₃⟩ := redirect_main hK (f stdoutFileno) 1 true s₂
  obtain ⟨s₄, hcount₄, h₄⟩ := redirect_main hK (f stderrFileno) 2 true s₃
  have hcount : count s₄ = count s := by omega
  obtain ⟨hlength, hend⟩ := cmdLoop_outcome hK hwf (true :: pos) 0 0 s₄
  rw [hcount] at hlength hend
  have hsub : subshellExec c pos = some (cmdLineExec c (true :: pos)) := if_neg hne
  -- The process comes to the list.
  have hnotes : ((childBranch [] f (subshellExec c pos) fd pipefd).run K s).main.notes =
      (.child, s₁) :: ((childBody [] (subshellExec c pos)).run K s₄).main.notes := by
    rw [childBranch, Prog.main_bind_of_returns h₁, Prog.note_bind, Prog.run, Run.pass,
      Prog.main_bind_of_returns h₂, Prog.main_bind_of_returns h₃, Prog.main_bind_of_returns h₄]
    rfl
  have hlast : (childBranch [] f (subshellExec c pos) fd pipefd).last K s =
      (childBody [] (subshellExec c pos)).last K s₄ := by
    rw [childBranch, Prog.last_bind_of_returns (congrArg Proc.result h₁), Prog.note_bind, Prog.last,
      Prog.last_bind_of_returns (congrArg Proc.result h₂),
      Prog.last_bind_of_returns (congrArg Proc.result h₃),
      Prog.last_bind_of_returns (congrArg Proc.result h₄)]
  rw [hnotes, hlast, hsub]
  simp only [childBody, cmdLineExec, Prog.mark_bind, Prog.run, Prog.last]
  -- How it ends with what `cmd_line_exec` returns, or in `cmd_line_exec`.
  cases hout : (c.outcome w err (count s) 0).2 with
  | inl v =>
    rw [hout] at hend
    obtain ⟨s₅, hv⟩ := hend
    obtain ⟨hmain, hexit⟩ : ((if v = 0 then exit 0 else exit 5 : Shell ℤ).run K s₅).main =
      ⟨[], none⟩ ∧
        (if v = 0 then exit 0 else exit 5 : Shell ℤ).last K s₅ =
          some (.exit (if v = 0 then 0 else 5)) := by
      split_ifs <;> exact exit_run _ s₅
    rw [Prog.last_bind_of_returns hv, hexit, ← hlength]
    refine ⟨?_, rfl⟩
    simp only [Run.pass, Prog.main_bind, hv, hmain, List.append_nil]
    rfl
  | inr n =>
    rw [hout] at hend
    rw [Prog.last_bind_of_stuck hend.1, hend.2, ← hlength]
    refine ⟨?_, rfl⟩
    simp only [Run.pass, Prog.main_bind, hend.1]
    rfl

end Run

/-! ## The status that the process should have -/

/-- The commands of the list, each with its operator. -/
def Command.items : Command → List (List Text × ControlOp)
  | .null => []
  | .mk argv _ _ op next => (argv, op) :: next.items

/-- The command counts as one with status 0: it ends so, or it is not waited for. -/
def countsZero (argv : List Text) (op : ControlOp) (r : Wait) : Prop :=
  r = .exited 0#8 ∨ endsShell argv = false ∧ (op = .cmdBackground ∨ op = .cmdPipe)

instance (argv : List Text) (op : ControlOp) (r : Wait) : Decidable (countsZero argv op r) :=
  inferInstanceAs (Decidable (_ ∨ _))

/-- The process exits with 0 if the last command it has started has status 0, and with 5
otherwise. -/
def ReportsZeroOrFive {κ : Type} (K : Kernel Call Call.Answer κ) (c : Command) (w : ℕ → Wait)
    (p : Shell ℤ) (s : κ) : Prop :=
  ∃ i argv op n, (starts (p.run K s).main.notes).length = i + 1 ∧ c.items[i]? = some (argv, op) ∧
    p.last K s = some (.exit n) ∧ BitVec.ofInt 8 n = if countsZero argv op (w i) then 0#8 else 5#8

/-- An `exit` that the process comes to has 0 or 5 as its status, as its own child does or does not
exit with 0. And where the list stops without storing a result, the status that the commands before
have left is not 0: this is at a command that is followed by `&&` and fails, and at one that is
followed by `||` and killed. `failed` says whether the status left by the commands before is not
0. -/
def Command.passesStatus (w : ℕ → Wait) (err : ℕ → ℤ) : Command → ℕ → Bool → Bool
  | .null, _, _ => true
  | .mk argv _ _ op next, i, failed =>
    if endsShell argv then
      BitVec.ofInt 8 (exitStatus argv (err (i + 1))) = if w i = .exited 0#8 then 0#8 else 5#8
    else
      match op, w i with
      | .cmdEnd, .exited st | .cmdSemicolon, .exited st =>
        next.passesStatus w err (i + 1) (st ≠ 0#8)
      | .cmdEnd, .killed _ _ | .cmdSemicolon, .killed _ _ => true
      | .cmdBackground, _ | .cmdPipe, _ => next.passesStatus w err (i + 1) false
      | .cmdAnd, r => if r = .exited 0#8 then next.passesStatus w err (i + 1) false else failed
      | .cmdOr, .exited st => st = 0#8 || next.passesStatus w err (i + 1) true
      | .cmdOr, .killed _ _ => failed && next.passesStatus w err (i + 1) true

/-- The status in which the outcome of a list shows. -/
def statusByte : ℤ ⊕ ℤ → BitVec 8
  | .inl v => if v = 0 then 0#8 else 5#8
  | .inr n => BitVec.ofInt 8 n

/-- What `outcome` says, against the last command it starts. -/
def OutcomeReports (c : Command) (w : ℕ → Wait) (err : ℕ → ℤ) (i : ℕ) (status : ℤ) : Prop :=
  ∃ k argv op, (c.outcome w err i status).1 = k + 1 ∧ c.items[k]? = some (argv, op) ∧
    statusByte (c.outcome w err i status).2 = if countsZero argv op (w (i + k)) then 0#8 else 5#8

section Report

variable {w : ℕ → Wait} {err : ℕ → ℤ} {argv : List Text} {f : Fin 3 → Option Text}
  {sub next : Command} {op : ControlOp} {i : ℕ} {status st : ℤ}

/-- Where the line stops at its first command, it reports the command when the byte of its status is
0 or 5 as it should be. -/
theorem outcomeReports_last {r : ℤ ⊕ ℤ}
    (h : (Command.mk argv f sub op next).outcome w err i status = (1, r)) :
    OutcomeReports (.mk argv f sub op next) w err i status ↔
      statusByte r = if countsZero argv op (w i) then 0#8 else 5#8 := by
  unfold OutcomeReports
  rw [h]
  constructor
  · rintro ⟨k, argv', op', hk, hitem, hbyte⟩
    obtain rfl : k = 0 := by simpa using hk.symm
    obtain ⟨rfl, rfl⟩ := Prod.mk.inj (Option.some.inj hitem)
    exact hbyte
  · exact fun hbyte => ⟨0, argv, op, rfl, rfl, hbyte⟩

/-- A line starts its first command. -/
theorem outcome_pos (hne : next ≠ .null) : 0 < (next.outcome w err i status).1 := by
  cases next with
  | null => exact absurd rfl hne
  | mk argv f sub op next =>
    unfold Command.outcome
    split_ifs
    · exact Nat.one_pos
    · cases turn op status (w i) <;> exact Nat.succ_pos _

/-- Where the loop goes on, the outcome is that of the rest of the line. -/
theorem outcomeReports_next (hnext : next ≠ .null)
    (h : (Command.mk argv f sub op next).outcome w err i status =
      ((next.outcome w err (i + 1) st).1 + 1, (next.outcome w err (i + 1) st).2)) :
    OutcomeReports (.mk argv f sub op next) w err i status ↔
      OutcomeReports next w err (i + 1) st := by
  have hpos : 0 < (next.outcome w err (i + 1) st).1 := outcome_pos hnext
  obtain ⟨n, hn⟩ := Nat.exists_eq_succ_of_ne_zero hpos.ne'
  unfold OutcomeReports
  rw [h, hn]
  have hindex : ∀ k, i + 1 + k = i + (k + 1) := fun k => by omega
  simp only [Command.items, Nat.succ_eq_add_one, Nat.add_right_cancel_iff, hindex]
  constructor
  · rintro ⟨k, argv', op', rfl, hitem, hbyte⟩
    exact ⟨n, argv', op', rfl, hitem, hbyte⟩
  · rintro ⟨k, argv', op', rfl, hitem, hbyte⟩
    exact ⟨n + 1, argv', op', rfl, hitem, hbyte⟩

end Report

/-- A subshell reports 0 or 5 exactly when the line passes its status on. -/
theorem outcomeReports_iff {w : ℕ → Wait} {err : ℕ → ℤ} {c : Command} (hne : c ≠ .null)
    (hwf : c.WellFormed) (i : ℕ) (status : ℤ) :
    OutcomeReports c w err i status ↔ c.passesStatus w err i (status ≠ 0) = true := by
  induction c generalizing i status with
  | null => exact absurd rfl hne
  | mk argv f sub op next ihsub ihnext =>
    obtain ⟨-, -, hlast, -, -, hwfnext⟩ := hwf
    unfold Command.passesStatus
    by_cases hends : endsShell argv = true
    · have hout : (Command.mk argv f sub op next).outcome w err i status =
          (1, .inr (exitStatus argv (err (i + 1)))) := by
        rw [Command.outcome, if_pos hends]
      rw [outcomeReports_last hout, if_pos hends]
      simp [countsZero, hends, statusByte]
    rw [if_neg hends]
    -- A turn that goes on leaves the status to the next commands, or to this one if there are none.
    have hgo : ∀ st, turn op status (w i) = .inl st → (st = 0 ↔ countsZero argv op (w i)) →
        (OutcomeReports (.mk argv f sub op next) w err i status ↔
          next.passesStatus w err (i + 1) (st ≠ 0) = true) := by
      intro st hturn hst
      have hout : (Command.mk argv f sub op next).outcome w err i status =
          ((next.outcome w err (i + 1) st).1 + 1, (next.outcome w err (i + 1) st).2) := by
        rw [Command.outcome, if_neg hends, hturn]
      by_cases hnext : next = .null
      · rw [outcomeReports_last (r := .inl st) (by rw [hout, hnext]; rfl), hnext]
        exact iff_of_true (if_congr hst rfl rfl) rfl
      · rw [outcomeReports_next hnext hout]
        exact ihnext hnext hwfnext _ _
    have hstop : ∀ st, turn op status (w i) = .inr st →
        (OutcomeReports (.mk argv f sub op next) w err i status ↔
          (st = 0 ↔ countsZero argv op (w i))) := by
      intro st hturn
      rw [outcomeReports_last (r := .inl st) (by rw [Command.outcome, if_neg hends, hturn])]
      by_cases hst : st = 0 <;> by_cases hzero : countsZero argv op (w i) <;>
        simp [statusByte, hst, hzero]
    have hends : endsShell argv = false := Bool.eq_false_iff.mpr hends
    cases hw : w i with
    | exited st =>
      rw [hw] at hgo hstop
      cases op with
      | cmdEnd | cmdSemicolon =>
        simpa [toNat_eq_zero_iff] using hgo st.toNat rfl (by simp [countsZero, toNat_eq_zero_iff])
      | cmdBackground | cmdPipe => simpa using hgo 0 rfl (by simp [countsZero, hends])
      | cmdAnd =>
        by_cases hst : st = 0#8
        · simpa [hst] using hgo 0 (by simp [turn, hst]) (by simp [countsZero, hst])
        · simpa [hst, countsZero] using hstop status (by simp [turn, hst])
      | cmdOr =>
        by_cases hst : st = 0#8
        · simpa [hst, countsZero] using hstop 0 (by simp [turn, hst])
        · simpa [hst, toNat_eq_zero_iff] using
            hgo st.toNat (by simp [turn, hst]) (by simp [countsZero, toNat_eq_zero_iff])
    | killed signal core =>
      rw [hw] at hgo hstop
      cases op with
      | cmdEnd | cmdSemicolon =>
        simpa [countsZero, wpStatus_killed_ne_zero] using hstop _ rfl
      | cmdBackground | cmdPipe => simpa using hgo 0 rfl (by simp [countsZero, hends])
      | cmdAnd => simpa [countsZero] using hstop status (by simp [turn])
      | cmdOr =>
        by_cases hst : status = 0
        · simpa [hst, countsZero] using hstop 0 (by simp [turn, hst])
        · simpa [hst] using hgo status (by simp [turn, hst]) (by simp [countsZero, hst])

/-- **A subshell reports 0 or 5** by the status of its last command, exactly when each `exit` that
it comes to has the right status, and the list does not stop where it forgets that a command has
failed. -/
theorem reportsZeroOrFive_iff {κ : Type} {K : Kernel Call Call.Answer κ} {w : ℕ → Wait}
    {err : ℕ → ℤ} {count : κ → ℕ} {number : ℤ → ℕ} (hK : Answers K w err count number) {c : Command}
    (hne : c ≠ .null) (hwf : c.WellFormed) (f : Fin 3 → Option Text) (pos : Pos) (fd : ℤ)
    (pipefd : Option (ℤ × ℤ)) {s : κ} (hs : count s = 0) :
    ReportsZeroOrFive K c w (childBranch [] f (subshellExec c pos) fd pipefd) s ↔
      c.passesStatus w err 0 false = true := by
  obtain ⟨hlength, hlast⟩ := childBranch_ends hK hne hwf f pos fd pipefd s
  rw [hs] at hlength hlast
  -- The eight bits that reach `waitpid` are those of the number given to `exit`.
  have hbyte : BitVec.ofInt 8 ((c.outcome w err 0 0).2.elim (fun v => if v = 0 then 0 else 5) id) =
      statusByte (c.outcome w err 0 0).2 := by
    cases (c.outcome w err 0 0).2 with
    | inl v =>
      simp only [Sum.elim_inl, statusByte]
      split_ifs <;> rfl
    | inr n => rfl
  have hreports : OutcomeReports c w err 0 0 ↔ _ := outcomeReports_iff hne hwf 0 0
  simp only [ne_eq, not_true_eq_false, decide_false] at hreports
  rw [← hreports, ReportsZeroOrFive, OutcomeReports, hlength, hlast, ← hbyte]
  simp only [Nat.zero_add, Option.some.injEq, Call.exit.injEq]
  constructor
  · rintro ⟨i, argv, op, n, hi, hitem, rfl, hn⟩
    exact ⟨i, argv, op, hi, hitem, hn⟩
  · rintro ⟨i, argv, op, hi, hitem, hn⟩
    exact ⟨i, argv, op, _, hi, hitem, rfl, hn⟩

/-! ## Examples -/

/-- A kernel whose children end as a list of results says answers the calls. -/
theorem steady_answers (w : ℕ → Wait) :
    Answers (steady w) w (fun _ => 0) id fun pid => (pid - 1).toNat where
  toWaits := steady_waits w
  dup2 _ _ _ := ⟨_, _, rfl, rfl⟩
  openFile _ _ _ := ⟨_, _, rfl, rfl⟩
  chdir _ _ := ⟨_, _, rfl, rfl⟩
  errno _ := ⟨_, rfl⟩

/-- `( a && exit 5 )`, where `a` exits with 0. -/
theorem reportsZeroOrFive_exit :
    ReportsZeroOrFive (steady fun i => .exited (BitVec.ofNat 8 (5 * i)))
    (external "a" .cmdAnd (.mk [text "exit", text "5"] (fun _ => none) .null .cmdEnd .null))
    (fun i => .exited (BitVec.ofNat 8 (5 * i)))
    (childBranch [] (fun _ => none) (subshellExec (external "a" .cmdAnd
      (.mk [text "exit", text "5"] (fun _ => none) .null .cmdEnd .null)) []) 0 none) 0 :=
  (reportsZeroOrFive_iff (steady_answers _) Command.noConfusion
    (by simp [external, Command.WellFormed, maxtokens]) _ _ _ _ rfl).mpr (by decide +kernel)

/-- `( exit 3 )` -/
theorem not_reportsZeroOrFive_exit : ¬ ReportsZeroOrFive (steady fun _ => .exited 3)
    (.mk [text "exit", text "3"] (fun _ => none) .null .cmdEnd .null) (fun _ => .exited 3)
    (childBranch [] (fun _ => none) (subshellExec (.mk [text "exit", text "3"] (fun _ => none) .null
      .cmdEnd .null) []) 0 none) 0 := by
  rintro ⟨i, argv, op, n, hi, hitem, hlast, hn⟩
  have hexit : (childBranch [] (fun _ => none) (subshellExec (.mk [text "exit", text "3"]
      (fun _ => none) .null .cmdEnd .null) []) 0 none).last (steady fun _ => .exited 3) 0 =
        some (.exit 3) := rfl
  rw [hexit] at hlast
  obtain rfl := Call.exit.inj (Option.some.inj hlast)
  split_ifs at hn <;> exact absurd hn (by decide)

end Cs5600.Lab2
