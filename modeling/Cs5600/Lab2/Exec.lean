import Cs5600.Lib.Process
import Cs5600.Lab2.Parse

/-!
# Running a command line

`cmd_exec` forks a process for one command and `cmd_line_exec` runs a list of them. Both are
programs of a process that calls the system (`Shell`); what the calls answer is left to a `Kernel`.

The marks of the programs are the points that the shell's properties speak of. A command is named by
its place in the tree: `false` leads to the `next` command of a list and `true` into a subshell, the
last step first.
-/

namespace Cs5600.Lab2

inductive Call
  | pipe
  | dup2 (oldfd newfd : ℤ)
  | close (fd : ℤ)
  /-- `open`, for reading or for writing (`O_WRONLY | O_CREAT | O_TRUNC`). -/
  | openFile (path : Text) (writing : Bool)
  /-- `write` and `dprintf`. -/
  | write (fd : ℤ) (buf : Text)
  | perror (s : Text)
  | chdir (path : Option Text)
  | getcwd
  | execvp (argv : List Text)
  | exit (status : ℤ)
  | abort
  /-- The answer is what `wp_status` holds after the call. -/
  | waitpid (pid : ℤ)
  /-- `while (waitpid(0, 0, WNOHANG) > 0);` -/
  | reap
  /-- The value of `errno`. -/
  | errno
  /-- What is in a `pipefd` that has not been set. -/
  | indeterminate

@[reducible] def Call.Answer : Call → Type
  | .pipe => Option (ℤ × ℤ)
  | .getcwd => Option Text
  | .exit _ | .abort => Empty
  | .waitpid _ => BitVec 32
  | .indeterminate => ℤ × ℤ
  | _ => ℤ

/-- The place of a command in a tree of commands. -/
abbrev Pos : Type := List Bool

/-- The place of a branch is not above itself. -/
theorem not_suffix_self {b : Bool} {pos : Pos} : ¬ b :: pos <:+ pos := fun h => by
  simpa using h.length_le

/-- The subshell and the rest of the list have no place in common. -/
theorem branches_differ {pos q : Pos} (hsub : true :: pos <:+ q) : ¬ false :: pos <:+ q := by
  intro hnext
  have heq := List.IsSuffix.eq_of_length (List.suffix_of_suffix_length_le hsub hnext le_rfl) rfl
  cases heq

inductive Mark
  /-- `cmd_line_exec` is called. -/
  | line
  /-- `cmd_exec` is called with the command at `pos`. -/
  | start (pos : Pos)
  /-- `cmd_exec` has made a pipe. -/
  | piped (readEnd writeEnd : ℤ)
  /-- The child of `cmd_exec` comes to its redirections. -/
  | child
  /-- The child of `cmd_exec` calls `execvp`. -/
  | exec (argv : List Text)
  /-- `cmd_exec` has returned to `cmd_line_exec`. -/
  | back (pid : ℤ)
  /-- `cmd_line_exec` returns. -/
  | returns
deriving DecidableEq

abbrev Shell : Type → Type := Prog Call Call.Answer Mark

open Prog (sys note forks)

def exit {α : Type} (status : ℤ) : Shell α := .call (.exit status) Empty.elim

def abort {α : Type} : Shell α := .call .abort Empty.elim

/-- `strtol` in base 10, where `long` has 64 bits. -/
def strtol (s : Text) : ℤ := max (-2 ^ 63) (min (2 ^ 63 - 1) (atoi s))

/-- `strtol`, stored in an `int`. -/
def extCode (s : Text) : ℤ := (strtol s).bmod (2 ^ 32)

/-- `WIFEXITED` -/
def wifexited (wpStatus : BitVec 32) : Bool := wpStatus &&& 0x7f = 0

/-- `WEXITSTATUS` -/
def wexitstatus (wpStatus : BitVec 32) : ℤ := ((wpStatus &&& 0xff00) >>> 8).toInt

/-- The child takes the pipe of the command before as its input, and its own pipe as its output. -/
def childPipes (passPipefd : ℤ) (pipefd : Option (ℤ × ℤ)) : Shell Unit := do
  -- The call is made for descriptor 0 as well, where it does nothing.
  let _ ← sys (.dup2 passPipefd 0)
  if passPipefd ≠ 0 then
    let _ ← sys (.close passPipefd)
  match pipefd with
  | none => return
  | some (readEnd, writeEnd) =>
    let _ ← sys (.dup2 writeEnd 1)
    let _ ← sys (.close readEnd)
    let _ ← sys (.close writeEnd)

/-- The redirection of one descriptor. -/
def redirect (file : Option Text) (fd : ℤ) (writing : Bool) : Shell Unit := do
  match file with
  | none => return
  | some path =>
    let opened ← sys (.openFile path writing)
    let _ ← sys (.dup2 opened fd)
    let _ ← sys (.close opened)

/-- The child for `cd`, with the arguments after the name. -/
def cdChild (args : List Text) : Shell ℤ := do
  match args with
  | [dir] =>
    if (← sys (.chdir (some dir))) ≠ 0 then
      let _ ← sys (.perror (text "cd"))
      exit 1
    else
      exit 0
  | _ =>
    let _ ← sys (.write 2 (text "cd: Syntax error! Wrong number of arguments!\n"))
    exit 1

/-- The child for `exit`, with the arguments after the name. -/
def exitChild (args : List Text) : Shell ℤ := do
  match args with
  | [] => exit 0
  | [code] =>
    if code = text "0" then
      exit 0
    else if extCode code ≠ 0 then
      exit (extCode code)
    else
      let _ ← sys (.perror (text "exit"))
      -- `strtol` has read 0, and its `errno` is the status.
      exit (← sys .errno)
  | _ =>
    let _ ← sys (.write 2 (text "exit: Syntax error! Wrong number of arguments!\n"))
    exit 1

/-- The child for `our_pwd`, with the arguments after the name. -/
def pwdChild (args : List Text) : Shell ℤ := do
  if args ≠ [] then
    let _ ← sys (.write 2 (text "pwd: Syntax error! Wrong number of arguments!\n"))
    exit 1
  else
    match ← sys Call.getcwd with
    | none =>
      let _ ← sys (.perror (text "pwd"))
      exit 1
    | some pathname =>
      let _ ← sys (.write 1 (pathname ++ text "\n"))
      exit 0

/-- What the child does after its redirections. `subshell` runs `cmd_line_exec` on the subshell, if
there is one. The value is the 0 that `fork` returned, for a child that leaves `cmd_exec`. -/
def childBody (argv : List Text) (subshell : Option (Shell ℤ)) : Shell ℤ := do
  match subshell with
  | some line => if (← line) = 0 then exit 0 else exit 5
  | none =>
    match argv with
    | [] => exit 0
    | name :: args =>
      if name = text "cd" then
        cdChild args
      else if name = text "exit" then
        exitChild args
      else if name = text "our_pwd" then
        pwdChild args
      else
        note (.exec argv)
        -- The call returns only when it fails, and nothing stops the child then.
        let _ ← sys (.execvp argv)
        return 0

/-- The branch of `cmd_exec` for the child. -/
def childBranch (argv : List Text) (redirectFilename : Fin 3 → Option Text)
    (subshell : Option (Shell ℤ)) (passPipefd : ℤ) (pipefd : Option (ℤ × ℤ)) : Shell ℤ := do
  childPipes passPipefd pipefd
  note .child
  redirect (redirectFilename stdinFileno) 0 false
  redirect (redirectFilename stdoutFileno) 1 true
  redirect (redirectFilename stderrFileno) 2 true
  childBody argv subshell

/-- The parent for `exit`, with the arguments after the name: it goes on only when there are too
many. -/
def parentExit (args : List Text) (pid : ℤ) : Shell Unit := do
  match args with
  | [] =>
    let _ ← sys (.waitpid pid)
    exit 0
  | [code] =>
    let _ ← sys (.waitpid pid)
    if code = text "0" then
      exit 0
    else if extCode code ≠ 0 then
      exit (extCode code)
    else
      exit (← sys .errno)
  | _ => return

/-- What the parent does for a builtin, besides the child. -/
def parentBuiltin (argv : List Text) (pid : ℤ) : Shell Unit := do
  match argv with
  | [] => return
  | name :: args =>
    if name = text "cd" then
      -- The first argument, however many there are.
      let _ ← sys (.chdir args.head?)
    if name = text "exit" then
      parentExit args pid

/-- The parent closes the pipe of the command before and its end of the own pipe. The value is the
new `*pass_pipefd`. -/
def parentPipes (passPipefd : ℤ) (pipefd : Option (ℤ × ℤ)) : Shell ℤ := do
  if passPipefd ≠ 0 then
    let _ ← sys (.close passPipefd)
  match pipefd with
  | none => return 0
  | some (readEnd, writeEnd) =>
    let _ ← sys (.close writeEnd)
    return readEnd

/-- The branch of `cmd_exec` for the parent. -/
def parentBranch (argv : List Text) (passPipefd : ℤ) (pipefd : Option (ℤ × ℤ)) (pid : ℤ) :
    Shell ℤ := do
  let passPipefd ← parentPipes passPipefd pipefd
  parentBuiltin argv pid
  return passPipefd

/-- The branch of `cmd_exec` for a `fork` that fails. -/
def forkFailed (pipefd : Option (ℤ × ℤ)) : Shell Unit := do
  -- Without a pipe the two numbers are what the array happens to hold.
  let fds ← match pipefd with
    | none => sys Call.indeterminate
    | some fds => pure fds
  let _ ← sys (.close fds.1)
  let _ ← sys (.close fds.2)

/-- `cmd_exec` after the pipe is made. The values are the process ID and `*pass_pipefd`. -/
def forkExec (argv : List Text) (redirectFilename : Fin 3 → Option Text)
    (subshell : Option (Shell ℤ)) (passPipefd : ℤ) (pipefd : Option (ℤ × ℤ)) : Shell (ℤ × ℤ) := do
  let pid ← forks
  if pid < 0 then
    forkFailed pipefd
    return (-1, passPipefd)
  else if pid = 0 then
    let pid ← childBranch argv redirectFilename subshell passPipefd pipefd
    return (pid, passPipefd)
  else
    let passPipefd ← parentBranch argv passPipefd pipefd pid
    return (pid, passPipefd)

/-- `cmd_exec`, for the command at `pos`; `hasNext` says whether `next` is set. -/
def cmdExec (pos : Pos) (argv : List Text) (redirectFilename : Fin 3 → Option Text)
    (subshell : Option (Shell ℤ)) (controlop : ControlOp) (hasNext : Bool) (passPipefd : ℤ) :
    Shell (ℤ × ℤ) := do
  note (.start pos)
  if controlop = .cmdPipe then
    if !hasNext then
      return (-1, passPipefd)
    else
      match ← sys Call.pipe with
      | none => return (-1, passPipefd)
      | some (readEnd, writeEnd) =>
        note (.piped readEnd writeEnd)
        forkExec argv redirectFilename subshell passPipefd (some (readEnd, writeEnd))
  else
    forkExec argv redirectFilename subshell passPipefd none

/-- The label `done` of `cmd_line_exec`. -/
def lineDone (cmdStatus : ℤ) : Shell ℤ := do
  note .returns
  return cmdStatus

/-- A turn of the loop of `cmd_line_exec` after `cmd_exec`; `goOn` runs the next turns, with the
`cmd_status` they start from. -/
def afterExec (controlop : ControlOp) (cmdStatus pid : ℤ) (goOn : ℤ → Shell ℤ) : Shell ℤ := do
  note (.back pid)
  if pid < 0 then
    abort
  else
    match controlop with
    | .cmdEnd | .cmdSemicolon =>
      let wpStatus ← sys (Call.waitpid pid)
      if wifexited wpStatus then
        goOn (wexitstatus wpStatus)
      else
        -- A command ended by a signal ends the line, with the raw status as its value.
        lineDone wpStatus.toInt
    | .cmdBackground | .cmdPipe => goOn 0
    | .cmdAnd =>
      let wpStatus ← sys (Call.waitpid pid)
      if wifexited wpStatus ∧ wexitstatus wpStatus = 0 then
        goOn 0
      else
        -- The status of the command that fails is not stored.
        lineDone cmdStatus
    | .cmdOr =>
      let wpStatus ← sys (Call.waitpid pid)
      let cmdStatus := if wifexited wpStatus then wexitstatus wpStatus else cmdStatus
      if cmdStatus = 0 then
        lineDone cmdStatus
      else
        goOn cmdStatus

/-- The loop of `cmd_line_exec`, from the command at `pos` on. -/
def cmdLoop : Command → Pos → ℤ → ℤ → Shell ℤ
  | .null, _, cmdStatus, _ => do
    let _ ← sys .reap
    lineDone cmdStatus
  | .mk argv redirectFilename subshell controlop next, pos, cmdStatus, pipefd => do
    let inner := if subshell = .null then none
      else some (.mark .line (cmdLoop subshell (true :: pos) 0 0))
    let (pid, pipefd) ←
      cmdExec pos argv redirectFilename inner controlop (next ≠ .null) pipefd
    afterExec controlop cmdStatus pid fun cmdStatus => cmdLoop next (false :: pos) cmdStatus pipefd

/-- `cmd_line_exec`, for the list at `pos`. -/
def cmdLineExec (cmdlist : Command) (pos : Pos) : Shell ℤ := .mark .line (cmdLoop cmdlist pos 0 0)

/-- What the child of the command at `pos` runs for its subshell, if it has one. -/
def subshellExec (subshell : Command) (pos : Pos) : Option (Shell ℤ) :=
  if subshell = .null then none else some (cmdLineExec subshell (true :: pos))

/-- One pass of the loop: the command is started, waited for, and followed by the rest of the
line. -/
theorem cmdLoop_mk (argv : List Text) (f : Fin 3 → Option Text) (sub : Command) (op : ControlOp)
    (next : Command) (pos : Pos) (status fd : ℤ) :
    cmdLoop (.mk argv f sub op next) pos status fd =
      cmdExec pos argv f (subshellExec sub pos) op (next ≠ .null) fd >>= fun y =>
        afterExec op status y.1 fun status => cmdLoop next (false :: pos) status y.2 := by
  rw [cmdLoop]
  rfl

end Cs5600.Lab2
