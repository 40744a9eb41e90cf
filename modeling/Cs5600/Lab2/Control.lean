import Cs5600.Lab2.Accept
import Cs5600.Lab2.Fork

/-!
# Which commands run, and with what status

A list of external commands is run by a kernel that makes every pipe and process it is asked for,
and ends the `n`-th command as `w n` says (`Waits`). What `cmd_line_exec` then does depends on the
operators and on `w` alone: `Command.turns` is the commands it starts and the status it returns, and
`cmdLoop_main` says so of its run.

The comment on `cmd_line_exec` says which commands should run (`Command.selected`) and what should
be returned (`Reports`).
-/

namespace Cs5600.Lab2

/-- How a process ended: `_exit` or a signal, with or without a core dump. The signals are counted
from `SIGHUP`, which has the number 1. -/
inductive Wait
  | exited (status : BitVec 8)
  | killed (signal : Fin 126) (core : Bool)
deriving DecidableEq

/-- What `waitpid` stores. -/
def Wait.wpStatus : Wait → BitVec 32
  | .exited status => status.setWidth 32 <<< 8
  | .killed signal core => BitVec.ofNat 32 (signal + 1 + if core then 128 else 0)

/-- The status of a child that has exited says so. -/
@[simp] theorem wifexited_exited (status : BitVec 8) :
    wifexited (Wait.exited status).wpStatus = true := by
  revert status
  decide +kernel

/-- The status of a child that has exited has its number. -/
@[simp] theorem wexitstatus_exited (status : BitVec 8) :
    wexitstatus (Wait.exited status).wpStatus = status.toNat := by
  revert status
  decide +kernel

/-- The status of a child that a signal has killed does not say that it has exited. -/
@[simp] theorem wifexited_killed (signal : Fin 126) (core : Bool) :
    wifexited (Wait.killed signal core).wpStatus = false := by
  revert signal core
  decide +kernel

/-- The status of a child that a signal has killed is not 0. -/
theorem wpStatus_killed_ne_zero (signal : Fin 126) (core : Bool) :
    (Wait.killed signal core).wpStatus.toInt ≠ 0 := by
  revert signal core
  decide +kernel

/-- An exit status is 0 when its number is. -/
theorem toNat_eq_zero_iff {status : BitVec 8} : status.toNat = 0 ↔ status = 0#8 :=
  ⟨fun h => BitVec.eq_of_toNat_eq h, fun h => by rw [h]; rfl⟩

/-! ## Lists of external commands -/

/-- A command that is neither a builtin nor empty. -/
def External (argv : List Text) : Prop :=
  ∃ name args, argv = name :: args ∧ name ≠ text "cd" ∧ name ≠ text "exit" ∧ name ≠ text "our_pwd"

/-- There are no builtins and no subshells in the list. -/
def Command.AllExternal : Command → Prop
  | .null => True
  | .mk argv _ subshell _ next => External argv ∧ subshell = .null ∧ next.AllExternal

/-- The kernel answers the calls of a shell that runs external commands. `count` is how many
processes the shell has started, and `number` which of them has a process ID; the `n`-th ends as
`w n` says. -/
structure Waits {κ : Type} (K : Kernel Call Call.Answer κ) (w : ℕ → Wait) (count : κ → ℕ)
    (number : ℤ → ℕ) : Prop where
  fork (s : κ) : ∃ pid s' c, K.fork s = some (pid, s', c) ∧ number pid = count s ∧
    count s' = count s + 1
  pipe (s : κ) : ∃ fds s', K.call s .pipe = some (some fds, s') ∧ count s' = count s
  close (s : κ) (fd : ℤ) : ∃ a s', K.call s (.close fd) = some (a, s') ∧ count s' = count s
  waitpid (s : κ) (pid : ℤ) : ∃ s', K.call s (.waitpid pid) = some ((w (number pid)).wpStatus, s') ∧
    count s' = count s
  reap (s : κ) : ∃ a s', K.call s .reap = some (a, s') ∧ count s' = count s

/-- What `cmd_line_exec` does after a command that ends in this way: it goes on with the next
command, or returns, each with the status it has then. -/
def turn (op : ControlOp) (status : ℤ) (r : Wait) : ℤ ⊕ ℤ :=
  match op, r with
  | .cmdEnd, .exited st | .cmdSemicolon, .exited st => .inl st.toNat
  | .cmdEnd, r | .cmdSemicolon, r => .inr r.wpStatus.toInt
  | .cmdBackground, _ | .cmdPipe, _ => .inl 0
  | .cmdAnd, r => if r = .exited 0#8 then .inl 0 else .inr status
  | .cmdOr, .exited st => if st = 0#8 then .inr 0 else .inl st.toNat
  | .cmdOr, .killed _ _ => if status = 0 then .inr 0 else .inl status

/-- The commands that `cmd_line_exec` starts, from the `i`-th on, and the status it returns. It
aborts at a pipe that leads nowhere, which no list of the parser has. -/
def Command.turns (w : ℕ → Wait) : Command → ℕ → Pos → ℤ → List Pos × Option ℤ
  | .null, _, _, status => ([], some status)
  | .mk _ _ _ op next, i, pos, status =>
    if op = .cmdPipe ∧ next = .null then
      ([pos], none)
    else
      match turn op status (w i) with
      | .inl status =>
        let rest := next.turns w (i + 1) (false :: pos) status
        (pos :: rest.1, rest.2)
      | .inr status => ([pos], some status)

/-- What the shell does for a builtin besides the child comes to its end, and starts no process. -/
def BuiltinReturns {κ : Type} (K : Kernel Call Call.Answer κ) (count : κ → ℕ) (argv : List Text) :
    Prop :=
  ∀ pid s, ∃ s', count s' = count s ∧ ((parentBuiltin argv pid).run K s).main = ⟨[], some ((), s')⟩

section Run

variable {κ : Type} {K : Kernel Call Call.Answer κ} {w : ℕ → Wait} {count : κ → ℕ} {number : ℤ → ℕ}
  (hK : Waits K w count number)
include hK

/-- The pipes of the parent do not stop it. -/
theorem parentPipes_main (fd : ℤ) (pipefd : Option (ℤ × ℤ)) (s : κ) :
    ∃ fd' s', count s' = count s ∧
      ((parentPipes fd pipefd).run K s).main = ⟨[], some (fd', s')⟩ := by
  unfold parentPipes
  obtain ⟨a, s₁, h₁, hcount₁⟩ := hK.close s fd
  cases pipefd with
  | none =>
    split_ifs
    · exact ⟨0, s₁, hcount₁, by simp [Prog.run, h₁, Run.ret]⟩
    · exact ⟨0, s, rfl, by simp [Prog.run, Run.ret]⟩
  | some fds =>
    split_ifs
    · obtain ⟨a', s₂, h₂, hcount₂⟩ := hK.close s₁ fds.2
      exact ⟨fds.1, s₂, hcount₂.trans hcount₁, by simp [Prog.run, h₁, h₂, Run.ret]⟩
    · obtain ⟨a', s₂, h₂, hcount₂⟩ := hK.close s fds.2
      exact ⟨fds.1, s₂, hcount₂, by simp [Prog.run, h₂, Run.ret]⟩

omit hK in
/-- The parent does nothing more for a program that is not a builtin. -/
theorem parentBuiltin_external {argv : List Text} (hargv : External argv) :
    BuiltinReturns K count argv := by
  obtain ⟨name, args, rfl, hcd, hexit, -⟩ := hargv
  exact fun pid s => ⟨s, rfl, by simp [parentBuiltin, hcd, hexit, Prog.run, Run.ret]⟩

/-- The parent's branch returns the process id, when the builtins return. -/
theorem parentBranch_main {argv : List Text} (hargv : BuiltinReturns K count argv) (fd : ℤ)
    (pipefd : Option (ℤ × ℤ)) (pid : ℤ) (s : κ) :
    ∃ fd' s', count s' = count s ∧
      ((parentBranch argv fd pipefd pid).run K s).main = ⟨[], some (fd', s')⟩ := by
  obtain ⟨fd', s₁, hcount₁, hmain₁⟩ := parentPipes_main hK fd pipefd s
  obtain ⟨s₂, hcount₂, hmain₂⟩ := hargv pid s₁
  refine ⟨fd', s₂, hcount₂.trans hcount₁, ?_⟩
  rw [parentBranch, Prog.main_bind, hmain₁]
  simp only [Prog.main_bind, hmain₂]
  rfl

/-- `cmd_exec` in the shell: the command is started, and the process ID is that of the next
process. -/
theorem cmdExec_main {argv : List Text} (hargv : BuiltinReturns K count argv) (pos : Pos)
    (f : Fin 3 → Option Text) (sub : Option (Shell ℤ)) {op : ControlOp} {hasNext : Bool}
    (hop : op = .cmdPipe → hasNext = true) (fd : ℤ) (s : κ) :
    ∃ notes pid fd' s', starts notes = [pos] ∧ 0 < pid ∧ number pid = count s ∧
      count s' = count s + 1 ∧
      ((cmdExec pos argv f sub op hasNext fd).run K s).main = ⟨notes, some ((pid, fd'), s')⟩ := by
  -- From the `fork` on.
  have hfork : ∀ pipefd s, ∃ pid fd' s', 0 < pid ∧ number pid = count s ∧ count s' = count s + 1 ∧
      ((forkExec argv f sub fd pipefd).run K s).main = ⟨[], some ((pid, fd'), s')⟩ := by
    intro pipefd s
    obtain ⟨⟨pid, hpid⟩, s', c, hfork, hnumber, hcount⟩ := hK.fork s
    obtain ⟨fd', s'', hcount', hmain⟩ := parentBranch_main hK hargv fd pipefd pid s'
    refine ⟨pid, fd', s'', hpid, hnumber, hcount'.trans hcount, ?_⟩
    rw [forkExec, Prog.forks_bind, Prog.run, hfork]
    simp only [Run.par, if_neg hpid.not_gt, if_neg hpid.ne']
    rw [Prog.main_bind, hmain]
    rfl
  rw [cmdExec, Prog.note_bind, Prog.run]
  split_ifs with hpipe hnext
  · rw [hop hpipe] at hnext
    cases hnext
  · obtain ⟨fds, s', hcall, hcount⟩ := hK.pipe s
    obtain ⟨pid, fd', s'', hpos, hnumber, hcount', hmain⟩ := hfork (some fds) s'
    refine ⟨[(.start pos, s), (.piped fds.1 fds.2, s')], pid, fd', s'', rfl, hpos,
      hnumber.trans hcount, by rw [hcount', hcount], ?_⟩
    simp only [Prog.sys_bind, Prog.run, hcall, Prog.note_bind, Run.pass, hmain]
  · obtain ⟨pid, fd', s', hpos, hnumber, hcount, hmain⟩ := hfork none s
    refine ⟨[(.start pos, s)], pid, fd', s', rfl, hpos, hnumber, hcount, ?_⟩
    simp only [Run.pass, hmain]

omit hK in
/-- Equal programs have the same run behind a mark. -/
theorem pass_run_congr {p q : Shell ℤ} (h : p = q) (m : Mark × κ) (s : κ) :
    Run.pass m (p.run K s) = Run.pass m (q.run K s) ∧ p.last K s = q.last K s := by
  rw [h]
  exact ⟨rfl, rfl⟩

/-- What follows `cmd_exec` in the shell, in a turn whose command ends as `w` says. -/
theorem afterExec_run_eq (op : ControlOp) (status : ℤ) {pid : ℤ} (hpid : 0 < pid)
    (goOn : ℤ → Shell ℤ) (s : κ) :
    ∃ s', count s' = count s ∧ (afterExec op status pid goOn).run K s =
      Run.pass (Mark.back pid, s)
        ((Sum.elim goOn lineDone (turn op status (w (number pid)))).run K s') ∧
      (afterExec op status pid goOn).last K s =
        (Sum.elim goOn lineDone (turn op status (w (number pid)))).last K s' := by
  obtain ⟨s', hwait, hcount⟩ := hK.waitpid s pid
  unfold afterExec
  rw [Prog.note_bind, Prog.run, Prog.last, if_neg hpid.not_gt]
  -- Only `;`, `&&`, `||` and the end of the line wait.
  cases op with
  | cmdBackground | cmdPipe => exact ⟨s, rfl, rfl, rfl⟩
  | cmdEnd | cmdSemicolon | cmdAnd | cmdOr =>
    refine ⟨s', hcount, ?_⟩
    simp only [Prog.sys_bind, Prog.run, Prog.last, hwait]
    refine pass_run_congr ?_ _ _
    cases w (number pid) with
    | exited st =>
      by_cases hst : st = 0#8
      · simp [turn, hst]
      · simp [turn, hst, toNat_eq_zero_iff]
    | killed signal core =>
      by_cases hst : status = 0 <;> simp [turn, hst]

/-- The run of a list of external commands. -/
theorem cmdLoop_main {c : Command} (hext : c.AllExternal) (pos : Pos) (status fd : ℤ) (s : κ) :
    ∃ notes s', starts notes = (c.turns w (count s) pos status).1 ∧
      ((cmdLoop c pos status fd).run K s).main =
        ⟨notes, (c.turns w (count s) pos status).2.map fun v => (v, s')⟩ := by
  -- Induction on the list; the wait count ties the kernel's answers to `w`.
  induction c generalizing pos status fd s with
  | null =>
    obtain ⟨a, s', hreap, -⟩ := hK.reap s
    refine ⟨[(.returns, s')], s', rfl, ?_⟩
    simp only [cmdLoop, Prog.sys_bind, Prog.run, hreap, lineDone_run]
    rfl
  | mk argv f sub op next ihsub ihnext =>
    obtain ⟨hargv, -, hextnext⟩ := hext
    by_cases hop : op = .cmdPipe ∧ next = .null
    · -- `cmd_exec` returns -1, and the shell aborts.
      obtain ⟨rfl, rfl⟩ := hop
      refine ⟨[(.start pos, s), (.back (-1), s)], s, rfl, ?_⟩
      have hexec :
        (cmdExec pos argv f (subshellExec sub pos) .cmdPipe (Command.null ≠ .null) fd).run K
          s = Run.pass (Mark.start pos, s) (.ret ((-1, fd), s)) := by
        simp [cmdExec, Prog.run]
      have habort : ∀ goOn, (afterExec .cmdPipe status (-1) goOn).run K s =
          Run.pass (Mark.back (-1), s) .stuck :=
        fun goOn => congrArg (Run.pass (Mark.back (-1), s)) (abort_ends.run s)
      rw [cmdLoop_mk, Prog.main_bind, hexec]
      simp only [Run.pass, Run.ret, habort]
      rfl
    have hnext : op = .cmdPipe → decide (next ≠ .null) = true :=
      fun h => decide_eq_true fun h' => hop ⟨h, h'⟩
    obtain ⟨notes, pid, fd', s', hstarts, hpid, hnumber, hcount, hmain⟩ :=
      cmdExec_main hK (parentBuiltin_external hargv) pos f (subshellExec sub pos) hnext fd s
    obtain ⟨s'', hcount', hafter, -⟩ := afterExec_run_eq hK op status hpid
      (fun st => cmdLoop next (false :: pos) st fd') s'
    rw [hnumber] at hafter
    rw [cmdLoop_mk, Prog.main_bind, hmain]
    simp only [hafter, Command.turns, if_neg hop]
    -- The loop goes on with the next command or leaves with the status.
    cases turn op status (w (count s)) with
    | inl st =>
      obtain ⟨notes', s₃, hstarts', hmain'⟩ := ihnext hextnext (false :: pos) st fd' s''
      rw [hcount', hcount] at hstarts' hmain'
      refine ⟨notes ++ (.back pid, s') :: notes', s₃, ?_, ?_⟩
      · rw [starts_append, hstarts]
        exact congrArg (pos :: ·) hstarts'
      · simp only [Sum.elim_inl, Run.pass, hmain']
    | inr st =>
      refine ⟨notes ++ [(.back pid, s'), (.returns, s'')], s'', ?_, rfl⟩
      rw [starts_append, hstarts]
      rfl

end Run

/-! ## A kernel that runs every command -/

/-- The kernel that starts every process it is asked for; the state is how many there are. -/
def steady (w : ℕ → Wait) : Kernel Call Call.Answer ℕ where
  call n c := (match c with
    | .pipe => some (some (3, 4))
    | .getcwd => some none
    | .exit _ | .abort | .execvp _ => none
    | .waitpid pid => some (w (pid - 1).toNat).wpStatus
    | .indeterminate => some (0, 0)
    | .dup2 _ _ | .close _ | .openFile _ _ | .write _ _ | .perror _ | .chdir _ | .reap | .errno =>
      some (0 : ℤ) : Option c.Answer).map fun a => (a, n)
  fork n := some (⟨n + 1, by omega⟩, n + 1, 0)

/-- A kernel whose children end as a list of results says is one of those considered here. -/
theorem steady_waits (w : ℕ → Wait) : Waits (steady w) w id fun pid => (pid - 1).toNat where
  fork n := ⟨_, _, _, rfl, by simp, rfl⟩
  pipe _ := ⟨_, _, rfl, rfl⟩
  close _ _ := ⟨_, _, rfl, rfl⟩
  waitpid _ _ := ⟨_, rfl, rfl⟩
  reap _ := ⟨_, _, rfl, rfl⟩

/-- An external command without arguments. -/
def external (name : String) (op : ControlOp) (next : Command) : Command :=
  .mk [text name] (fun _ => none) .null op next

/-! ## The commands that should run -/

/-- Whether the line should go on after a command that ends in this way. -/
def proceeds (op : ControlOp) (r : Wait) : Bool :=
  match op with
  | .cmdEnd | .cmdSemicolon | .cmdBackground | .cmdPipe => true
  | .cmdAnd => r = .exited 0#8
  | .cmdOr => r ≠ .exited 0#8

/-- The commands that the operators select, from the `i`-th on. -/
def Command.selected (w : ℕ → Wait) : Command → ℕ → Pos → List Pos
  | .null, _, _ => []
  | .mk _ _ _ op next, i, pos =>
    pos :: if proceeds op (w i) then next.selected w (i + 1) (false :: pos) else []

/-- The signals among the results do no harm: no command is killed that is followed by `;` and
another command, and a command that is followed by `||` is killed only after one that is followed by
`||` too, or by `;` and exited with a status that is not 0. `failed` says that of the command
before. -/
def Command.signalsPass (w : ℕ → Wait) : Command → ℕ → Bool → Bool
  | .null, _, _ => true
  | .mk _ _ _ op next, i, failed =>
    match op, w i with
    | .cmdEnd, .exited st | .cmdSemicolon, .exited st => next.signalsPass w (i + 1) (st ≠ 0#8)
    | .cmdEnd, .killed _ _ | .cmdSemicolon, .killed _ _ => next = .null
    | .cmdBackground, _ | .cmdPipe, _ => next.signalsPass w (i + 1) false
    | .cmdAnd, r => r ≠ .exited 0#8 || next.signalsPass w (i + 1) false
    | .cmdOr, .exited st => st = 0#8 || next.signalsPass w (i + 1) true
    | .cmdOr, .killed _ _ => failed && next.signalsPass w (i + 1) true

/-- The operators select the first command, if there is one. -/
theorem selected_eq_nil_iff {w : ℕ → Wait} {c : Command} {i : ℕ} {pos : Pos} :
    c.selected w i pos = [] ↔ c = .null := by
  cases c <;> simp [Command.selected]

/-- The loop starts the commands that the operators select exactly when signals do no harm. -/
theorem turns_eq_selected_iff {w : ℕ → Wait} {c : Command} (hwf : c.WellFormed) (i : ℕ) (pos : Pos)
    (status : ℤ) :
    (c.turns w i pos status).1 = c.selected w i pos ↔ c.signalsPass w i (status ≠ 0) = true := by
  induction c generalizing i pos status with
  | null => simp [Command.turns, Command.selected, Command.signalsPass]
  | mk argv f sub op next ihsub ihnext =>
    obtain ⟨-, -, hlast, -, -, hwfnext⟩ := hwf
    have hpipe : ¬ (op = .cmdPipe ∧ next = .null) := by
      rintro ⟨rfl, h⟩
      simpa using hlast h
    -- The turns that go on with the next command.
    have hgo : ∀ st : ℤ, (pos :: (next.turns w (i + 1) (false :: pos) st).1 =
        pos :: next.selected w (i + 1) (false :: pos)) ↔
        next.signalsPass w (i + 1) (st ≠ 0) = true := by
      intro st
      rw [List.cons.injEq, ← ihnext hwfnext (i + 1) (false :: pos) st]
      simp
    have hstop : [pos] = pos :: next.selected w (i + 1) (false :: pos) ↔ next = .null := by
      rw [List.cons.injEq, eq_self, true_and, eq_comm]
      exact selected_eq_nil_iff
    unfold Command.turns Command.selected Command.signalsPass
    rw [if_neg hpipe]
    cases op with
    | cmdEnd | cmdSemicolon =>
      cases w i with
      | exited st =>
        simpa [turn, proceeds, toNat_eq_zero_iff] using hgo st.toNat
      | killed signal core => simpa [turn, proceeds] using hstop
    | cmdBackground | cmdPipe => simpa [turn, proceeds] using hgo 0
    | cmdAnd =>
      by_cases hr : w i = .exited 0#8
      · simpa [turn, proceeds, hr] using hgo 0
      · simp [turn, proceeds, hr]
    | cmdOr =>
      cases w i with
      | exited st =>
        by_cases hst : st = 0#8
        · simp [turn, proceeds, hst]
        · simpa [turn, proceeds, hst, toNat_eq_zero_iff] using hgo st.toNat
      | killed signal core =>
        have hne : next ≠ .null := fun h => by simpa using hlast h
        by_cases hst : status = 0
        · simpa [turn, proceeds, hst, hne] using hstop
        · simpa [turn, proceeds, hst] using hgo status

section Selection

variable {κ : Type} {K : Kernel Call Call.Answer κ} {w : ℕ → Wait} {count : κ → ℕ} {number : ℤ → ℕ}

/-- **Control operators select the right commands**, exactly when the signals among the results do
no harm: the shell starts the commands that the operators select. -/
theorem starts_eq_selected_iff (hK : Waits K w count number) {c : Command} (hwf : c.WellFormed)
    (hext : c.AllExternal) {s : κ} (hs : count s = 0) :
    starts ((cmdLineExec c []).run K s).main.notes = c.selected w 0 [] ↔
      c.signalsPass w 0 false = true := by
  obtain ⟨notes, s', hstarts, hmain⟩ := cmdLoop_main hK hext [] 0 0 s
  have hnotes : starts ((cmdLineExec c []).run K s).main.notes = starts notes := by
    rw [cmdLineExec, Prog.run, Run.pass, hmain]
    rfl
  rw [hnotes, hstarts, hs, turns_eq_selected_iff hwf]
  simp

end Selection

/-- `a || b ; c`, where `a` exits with 1, and `c` is killed. -/
theorem starts_or_semicolon : starts ((cmdLineExec (external "a" .cmdOr (external "b" .cmdSemicolon
    (external "c" .cmdEnd .null))) []).run
      (steady fun n => if n < 2 then .exited (BitVec.ofNat 8 (1 - n)) else .killed 8 false)
      0).main.notes =
    [[], [false], [false, false]] := by
  have hext : (external "a" .cmdOr (external "b" .cmdSemicolon
      (external "c" .cmdEnd .null))).AllExternal :=
    ⟨⟨_, _, rfl, by decide, by decide, by decide⟩, rfl,
      ⟨_, _, rfl, by decide, by decide, by decide⟩, rfl,
        ⟨_, _, rfl, by decide, by decide, by decide⟩, rfl, trivial⟩
  refine ((starts_eq_selected_iff (steady_waits _) ?_ hext rfl).mpr (by decide +kernel)).trans
    (by decide +kernel)
  simp [external, Command.WellFormed, maxtokens]

/-- `a ; b`, where `a` is killed: the line stops. -/
theorem not_selected_killed : starts ((cmdLineExec (external "a" .cmdSemicolon
    (external "b" .cmdEnd .null)) []).run (steady fun _ => .killed 8 false) 0).main.notes ≠
    (external "a" .cmdSemicolon (external "b" .cmdEnd .null)).selected
      (fun _ => .killed 8 false) 0 [] := by
  decide +kernel

/-! ## The status that should be returned -/

def Command.ops : Command → List ControlOp
  | .null => []
  | .mk _ _ _ op next => op :: next.ops

/-- The status is the result of a command with this operator after it: 0 for one that is not waited
for, and any but 0 for one that is killed. -/
def Reports (op : ControlOp) (r : Wait) (status : ℤ) : Prop :=
  match op, r with
  | .cmdBackground, _ | .cmdPipe, _ => status = 0
  | _, .exited st => status = st.toNat
  | _, .killed _ _ => status ≠ 0

/-- A shell that runs `c` returns the result of the last command it has started. -/
def ReturnsLast {κ : Type} (c : Command) (w : ℕ → Wait) (p : Proc Mark κ ℤ) : Prop :=
  ∃ status s op, p.result = some (status, s) ∧
    c.ops[(starts p.notes).length - 1]? = some op ∧
    Reports op (w ((starts p.notes).length - 1)) status

/-- Where the line stops without storing a result, the status that the commands before have left is
the one to return. This is at a command that is followed by `&&` and fails, which must exit with
that status or be killed where it is not 0, and at one that is followed by `||` and killed, which
must not be where it is 0. `status` is what the commands before have left: the status of the last
one that exited and is followed by `;` or `||`, and 0 when there is `&`, `|` or `&&` after that. A
pipe leads to a command. -/
def Command.statusKept (w : ℕ → Wait) : Command → ℕ → ℤ → Bool
  | .null, _, _ => true
  | .mk _ _ _ op next, i, status =>
    match op, w i with
    | .cmdEnd, .exited st | .cmdSemicolon, .exited st => next.statusKept w (i + 1) st.toNat
    | .cmdEnd, .killed _ _ | .cmdSemicolon, .killed _ _ => true
    | .cmdBackground, _ => next.statusKept w (i + 1) 0
    | .cmdPipe, _ => next ≠ .null && next.statusKept w (i + 1) 0
    | .cmdAnd, .exited st =>
      if st = 0#8 then next.statusKept w (i + 1) 0 else status = st.toNat
    | .cmdAnd, .killed _ _ => status ≠ 0
    | .cmdOr, .exited st => st = 0#8 || next.statusKept w (i + 1) st.toNat
    | .cmdOr, .killed _ _ => status ≠ 0 && next.statusKept w (i + 1) status

/-- What `turns` returns, against the last command it starts. -/
def TurnsReport (c : Command) (w : ℕ → Wait) (i : ℕ) (pos : Pos) (status : ℤ) : Prop :=
  ∃ v op, (c.turns w i pos status).2 = some v ∧
    c.ops[(c.turns w i pos status).1.length - 1]? = some op ∧
    Reports op (w (i + ((c.turns w i pos status).1.length - 1))) v

/-- The loop starts the first command. -/
theorem length_turns_pos {w : ℕ → Wait} {c : Command} (hne : c ≠ .null) (i : ℕ) (pos : Pos)
    (status : ℤ) : 0 < (c.turns w i pos status).1.length := by
  cases c with
  | null => exact absurd rfl hne
  | mk argv f sub op next =>
    unfold Command.turns
    split_ifs
    · exact Nat.one_pos
    · cases turn op status (w i) <;> exact Nat.succ_pos _

section Report

variable {w : ℕ → Wait} {argv : List Text} {f : Fin 3 → Option Text} {sub next : Command}
  {op : ControlOp} {i : ℕ} {status st : ℤ} (hpipe : ¬ (op = .cmdPipe ∧ next = .null)) (pos : Pos)
include hpipe

/-- Where the loop stops at the first command, it reports what it is left with. -/
theorem turnsReport_stop (h : turn op status (w i) = .inr st ∨
    turn op status (w i) = .inl st ∧ next = .null) :
    TurnsReport (.mk argv f sub op next) w i pos status ↔ Reports op (w i) st := by
  have hturns : (Command.mk argv f sub op next).turns w i pos status = ([pos], some st) := by
    unfold Command.turns
    rw [if_neg hpipe]
    rcases h with h | ⟨h, rfl⟩
    · rw [h]
    · rw [h]
      rfl
  unfold TurnsReport
  rw [hturns]
  constructor
  · rintro ⟨v, op', hv, hop, hreports⟩
    obtain rfl := Option.some.inj hv
    obtain rfl := Option.some.inj hop
    exact hreports
  · exact fun hreports => ⟨st, op, rfl, rfl, hreports⟩

/-- Where the loop goes on, it reports what the rest of the line does. -/
theorem turnsReport_next (h : turn op status (w i) = .inl st) (hnext : next ≠ .null) :
    TurnsReport (.mk argv f sub op next) w i pos status ↔
      TurnsReport next w (i + 1) (false :: pos) st := by
  have hturns : (Command.mk argv f sub op next).turns w i pos status =
      (pos :: (next.turns w (i + 1) (false :: pos) st).1,
        (next.turns w (i + 1) (false :: pos) st).2) := by
    rw [Command.turns, if_neg hpipe, h]
  obtain ⟨n, hn⟩ := Nat.exists_eq_succ_of_ne_zero
    (length_turns_pos (w := w) hnext (i + 1) (false :: pos) st).ne'
  unfold TurnsReport
  rw [hturns, Command.ops]
  simp only [List.length_cons, hn, Nat.add_sub_cancel, Nat.succ_eq_add_one, List.getElem?_cons_succ]
  rw [show i + 1 + n = i + (n + 1) by omega]

end Report

/-- The loop reports the status of the last command exactly when the line keeps it. -/
theorem turnsReport_iff {w : ℕ → Wait} {c : Command} (hne : c ≠ .null) (i : ℕ) (pos : Pos)
    (status : ℤ) : TurnsReport c w i pos status ↔ c.statusKept w i status = true := by
  induction c generalizing i pos status with
  | null => exact absurd rfl hne
  | mk argv f sub op next ihsub ihnext =>
    by_cases hpipe : op = .cmdPipe ∧ next = .null
    · obtain ⟨rfl, rfl⟩ := hpipe
      simp [TurnsReport, Command.turns, Command.statusKept]
    -- A turn that goes on reports what the next ones do, and the result itself when there are none.
    have hgo : ∀ st, turn op status (w i) = .inl st → Reports op (w i) st →
        (TurnsReport (.mk argv f sub op next) w i pos status ↔
          next.statusKept w (i + 1) st = true) := by
      intro st hturn hreports
      by_cases hnext : next = .null
      · rw [turnsReport_stop hpipe pos (.inr ⟨hturn, hnext⟩), hnext]
        exact iff_of_true hreports rfl
      · rw [turnsReport_next hpipe pos hturn hnext]
        exact ihnext hnext _ _ _
    have hstop : ∀ st, turn op status (w i) = .inr st →
        (TurnsReport (.mk argv f sub op next) w i pos status ↔ Reports op (w i) st) :=
      fun st hturn => turnsReport_stop hpipe pos (.inl hturn)
    unfold Command.statusKept
    cases hw : w i with
    | exited st =>
      rw [hw] at hgo hstop
      cases op with
      | cmdEnd | cmdSemicolon => exact hgo _ rfl rfl
      | cmdBackground => exact hgo 0 rfl rfl
      | cmdPipe =>
        have hnext : next ≠ .null := fun h => hpipe ⟨rfl, h⟩
        simpa [hnext] using hgo 0 rfl rfl
      | cmdAnd =>
        by_cases hst : st = 0#8
        · simpa [hst] using hgo 0 (by simp [turn, hst]) (by simp [Reports, hst])
        · simpa [hst, Reports] using hstop status (by simp [turn, hst])
      | cmdOr =>
        by_cases hst : st = 0#8
        · simpa [hst, Reports] using hstop 0 (by simp [turn, hst])
        · simpa [hst] using hgo st.toNat (by simp [turn, hst]) rfl
    | killed signal core =>
      rw [hw] at hgo hstop
      cases op with
      | cmdEnd | cmdSemicolon =>
        exact (hstop _ rfl).trans (iff_of_true (wpStatus_killed_ne_zero signal core) rfl)
      | cmdBackground => exact hgo 0 rfl rfl
      | cmdPipe =>
        have hnext : next ≠ .null := fun h => hpipe ⟨rfl, h⟩
        simpa [hnext] using hgo 0 rfl rfl
      | cmdAnd => simpa [Reports] using hstop status (by simp [turn])
      | cmdOr =>
        by_cases hst : status = 0
        · simpa [hst, Reports] using hstop 0 (by simp [turn, hst])
        · simpa [hst] using hgo status (by simp [turn, hst]) hst

/-- **The status of a list is that of its last command**, exactly when the line stores it or stops
where the commands before have left the same one. -/
theorem returnsLast_iff {κ : Type} {K : Kernel Call Call.Answer κ} {w : ℕ → Wait} {count : κ → ℕ}
    {number : ℤ → ℕ} (hK : Waits K w count number) {c : Command} (hne : c ≠ .null)
    (hext : c.AllExternal) {s : κ} (hs : count s = 0) :
    ReturnsLast c w ((cmdLineExec c []).run K s).main ↔ c.statusKept w 0 0 = true := by
  obtain ⟨notes, s', hstarts, hmain⟩ := cmdLoop_main hK hext [] 0 0 s
  rw [hs] at hstarts hmain
  have hline : ((cmdLineExec c []).run K s).main =
      ⟨(.line, s) :: notes, (c.turns w 0 [] 0).2.map fun v => (v, s')⟩ := by
    rw [cmdLineExec, Prog.run, Run.pass, hmain]
  have hall : starts ((Mark.line, s) :: notes) = (c.turns w 0 [] 0).1 := hstarts
  rw [← turnsReport_iff hne 0 [] 0, hline]
  simp only [ReturnsLast, TurnsReport, hall, Nat.zero_add, Option.map_eq_some_iff, Prod.mk.injEq]
  constructor
  · rintro ⟨status, _, op, ⟨v, hv, rfl, -⟩, hop, hreports⟩
    exact ⟨v, op, hv, hop, hreports⟩
  · rintro ⟨v, op, hv, hop, hreports⟩
    exact ⟨v, s', op, ⟨v, hv, rfl, rfl⟩, hop, hreports⟩

/-- `a ; b && c`, where `a` and `b` exit with 1. -/
theorem returnsLast_and : ReturnsLast (external "a" .cmdSemicolon (external "b" .cmdAnd
    (external "c" .cmdEnd .null))) (fun _ => .exited 1) ((cmdLineExec (external "a" .cmdSemicolon
      (external "b" .cmdAnd (external "c" .cmdEnd .null))) []).run
        (steady fun _ => .exited 1) 0).main := by
  refine (returnsLast_iff (steady_waits _) Command.noConfusion ?_ rfl).mpr (by decide +kernel)
  exact ⟨⟨_, _, rfl, by decide, by decide, by decide⟩, rfl,
    ⟨_, _, rfl, by decide, by decide, by decide⟩, rfl, ⟨_, _, rfl, by decide, by decide, by decide⟩,
      rfl, trivial⟩

/-- `a && b`, where `a` exits with 1: the line returns 0. -/
theorem not_returnsLast_and : ¬ ReturnsLast (external "a" .cmdAnd (external "b" .cmdEnd .null))
    (fun _ => .exited 1) ((cmdLineExec (external "a" .cmdAnd (external "b" .cmdEnd .null)) []).run
      (steady fun _ => .exited 1) 0).main := by
  rintro ⟨status, s, op, hresult, hop, hreports⟩
  have hrun : ((cmdLineExec (external "a" .cmdAnd (external "b" .cmdEnd .null)) []).run
      (steady fun _ => .exited 1) 0).main =
        ⟨[(.line, 0), (.start [], 0), (.back 1, 1), (.returns, 1)],
        some (0, 1)⟩ := rfl
  rw [hrun] at hresult hop hreports
  obtain ⟨rfl, -⟩ := Prod.mk.inj (Option.some.inj hresult)
  obtain rfl := Option.some.inj hop
  have hone : (0 : ℤ) = 1 := hreports
  exact absurd hone (by decide)

end Cs5600.Lab2
