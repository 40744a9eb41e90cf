import Cs5600.Lab2.Subshell

/-!
# The two sides of the builtins

`cd` and `exit` run twice in `cmd_exec`: in the child for the status and the messages, and in the
shell for the effect. Each side looks at the arguments on its own.

`builtinsAgree_iff` says when the effect is what the child reports. For `exit` it always is, if
there is a child. For `cd` the shell does not count the arguments: it goes to the first of several,
where the child finds a syntax error.
-/

namespace Cs5600.Lab2

/-- The calls that come back and do not change the directory. -/
def Call.Stays : Call → Prop
  | .chdir _ | .exit _ | .abort | .execvp _ => False
  | _ => True

/-- A kernel with directories. `cwd` is the one a process is in, and `fs` says where `chdir` leads
from there, if it succeeds. -/
structure Dirs {κ D : Type} (K : Kernel Call Call.Answer κ) (cwd : κ → D)
    (fs : D → Text → Option D) :
    Prop where
  stays (s : κ) (c : Call) (h : c.Stays) : ∃ a s', K.call s c = some (a, s') ∧ cwd s' = cwd s
  chdir (s : κ) (path : Option Text) : ∃ a s', K.call s (.chdir path) = some (a, s') ∧
    (a = 0 ↔ (path.bind (fs (cwd s))).isSome) ∧ cwd s' = (path.bind (fs (cwd s))).getD (cwd s)
  fork {s : κ} {pid : {pid : ℤ // 0 < pid}} {s' c : κ} (h : K.fork s = some (pid, s', c)) :
    cwd s' = cwd s ∧ cwd c = cwd s

/-! ## What should hold -/

section Spec

variable {κ D : Type} (K : Kernel Call Call.Answer κ) (cwd : κ → D) (fs : D → Text → Option D)

/-- The shell comes back from `cd` in the directory that the argument names if the child exits with
0, and where it was otherwise. -/
def CdAgrees (args : List Text) (p : Shell (ℤ × ℤ)) (s : κ) : Prop :=
  ∃ v s', (p.run K s).main.result = some (v, s') ∧
    ((∃ calls ∈ p.children K s, Call.exit 0 ∈ calls) →
      ∃ dir, args.head? = some dir ∧ fs (cwd s) dir = some (cwd s')) ∧
    ((∀ calls ∈ p.children K s, Call.exit 0 ∉ calls) → cwd s' = cwd s)

/-- The shell ends with `exit` when there is at most one argument, which is when no child reports a
syntax error. -/
def ExitAgrees (args : List Text) (p : Shell (ℤ × ℤ)) (s : κ) : Prop :=
  ((∃ n, Call.exit n ∈ p.calls K s) ↔ args.length ≤ 1) ∧
    (args.length ≤ 1 ↔ ∀ calls ∈ p.children K s,
      Call.write 2 (text "exit: Syntax error! Wrong number of arguments!\n") ∉ calls)

/-- `cmd_exec` agrees with its child about `cd` and `exit`. -/
def BuiltinsAgree (argv : List Text) (p : Shell (ℤ × ℤ)) (s : κ) : Prop :=
  (∀ args, argv = text "cd" :: args → CdAgrees K cwd fs args p s) ∧
    ∀ args, argv = text "exit" :: args → ExitAgrees K args p s

/-- `cmd_exec` gets a child: the pipe is made, if there is one to make, and the process. -/
def Spawns (op : ControlOp) (hasNext : Bool) (s : κ) : Prop :=
  if op = .cmdPipe then
    hasNext = true ∧ ∃ fds s', K.call s .pipe = some (some fds, s') ∧ K.fork s' ≠ none
  else
    K.fork s ≠ none

end Spec

/-! ## The two sides -/

section Sides

variable {κ D : Type} {K : Kernel Call Call.Answer κ} {cwd : κ → D} {fs : D → Text → Option D}

/-- `exit` makes the call and no other. -/
theorem exit_calls (n : ℤ) (s : κ) {α : Type} : (exit n : Shell α).calls K s = [.exit n] := by
  simp [exit, Prog.calls, exit_call]

variable (hK : Dirs K cwd fs)
include hK

/-- The calls for pipes and files return, and stay in the directory. -/
theorem Dirs.plumbs (s : κ) (c : Call) (h : c.Plumbs) :
    ∃ a s', K.call s c = some (a, s') ∧ cwd s' = cwd s := by
  refine hK.stays s c ?_
  cases c <;> trivial

/-- The child of a command that is not in parentheses comes to its builtin. -/
theorem childBranch_calls (argv : List Text) (f : Fin 3 → Option Text) (fd : ℤ)
    (pipefd : Option (ℤ × ℤ)) (s : κ) :
    ∃ s', cwd s' = cwd s ∧ ∀ c : Call, ¬ c.Plumbs →
      (c ∈ (childBranch argv f none fd pipefd).calls K s ↔
        c ∈ (childBody argv none).calls K s') := by
  have hpipes := childPipes_plumbs fd pipefd
  have hin := redirect_plumbs (f stdinFileno) 0 false
  have hout := redirect_plumbs (f stdoutFileno) 1 true
  have herr := redirect_plumbs (f stderrFileno) 2 true
  -- The plumbing returns and leaves the directory; its calls are none of `c`.
  obtain ⟨_, s₁, hcwd₁, h₁⟩ := hpipes.returns hK.plumbs s
  obtain ⟨_, s₂, hcwd₂, h₂⟩ := hin.returns hK.plumbs s₁
  obtain ⟨_, s₃, hcwd₃, h₃⟩ := hout.returns hK.plumbs s₂
  obtain ⟨_, s₄, hcwd₄, h₄⟩ := herr.returns hK.plumbs s₃
  refine ⟨s₄, hcwd₄.trans (hcwd₃.trans (hcwd₂.trans hcwd₁)), fun c hc => ?_⟩
  rw [childBranch, Prog.calls_bind_of_returns (congrArg Proc.result h₁), Prog.note_bind, Prog.calls,
    Prog.calls_bind_of_returns (congrArg Proc.result h₂),
    Prog.calls_bind_of_returns (congrArg Proc.result h₃),
    Prog.calls_bind_of_returns (congrArg Proc.result h₄)]
  simp only [List.mem_append]
  have hnot : ∀ {p : Shell Unit} {s : κ}, p.CallsIn Call.Plumbs → c ∉ p.calls K s :=
    fun hp h => hc (hp.mem h)
  simp only [hnot hpipes, hnot hin, hnot hout, hnot herr, false_or]

/-- After a call that comes back, with a message for instance, the process ends. -/
theorem call_exit_calls {c : Call} (h : c.Stays) (n : ℤ) (s : κ) :
    (Prog.call c fun _ => exit n : Shell ℤ).calls K s = [c, .exit n] := by
  obtain ⟨_, s', hcall, -⟩ := hK.stays s c h
  simp [Prog.calls, hcall, exit_calls]

/-- The child of `cd` exits with 0 when it has one argument, which leads to a directory. -/
theorem cdChild_exits (args : List Text) (s : κ) :
    Call.exit 0 ∈ (cdChild args).calls K s ↔ ∃ dir, args = [dir] ∧ (fs (cwd s) dir).isSome := by
  -- `cd` goes by its number of arguments; only with one does `chdir` decide.
  cases args with
  | nil =>
    rw [cdChild, Prog.sys_bind, call_exit_calls hK (c := .write 2 _) trivial]
    · simp
    · simp
  | cons dir args =>
    cases args with
    | nil =>
      obtain ⟨a, s', hcall, hzero, -⟩ := hK.chdir s (some dir)
      have hzero : a = 0 ↔ (fs (cwd s) dir).isSome := hzero
      rw [cdChild, Prog.sys_bind, Prog.calls, hcall]
      by_cases h : a = 0
      · simp [h, exit_calls, ← hzero]
      · have herror := call_exit_calls hK (c := .perror (text "cd")) trivial 1 s'
        simp [h, herror, ← hzero]
    | cons dir' args =>
      rw [cdChild, Prog.sys_bind, call_exit_calls hK (c := .write 2 _) trivial]
      · simp
      · simp

/-- The child of `exit` reports an error when it has more than one argument. -/
theorem exitChild_reports (args : List Text) (s : κ) :
    Call.write 2 (text "exit: Syntax error! Wrong number of arguments!\n") ∉
      (exitChild args).calls K s ↔ args.length ≤ 1 := by
  -- `exit` reports only from two arguments on.
  cases args with
  | nil => simp [exitChild, exit_calls]
  | cons code args =>
    cases args with
    | nil =>
      rw [exitChild]
      split_ifs
      · simp [exit_calls]
      · simp [exit_calls]
      · obtain ⟨_, s', hperror, -⟩ := hK.stays s (.perror (text "exit")) trivial
        obtain ⟨_, s'', herrno, -⟩ := hK.stays s' .errno trivial
        simp [Prog.calls, hperror, herrno, exit_calls]
    | cons code' args =>
      rw [exitChild, Prog.sys_bind, call_exit_calls hK (c := .write 2 _) trivial]
      · simp
      · simp
      · simp

/-- What the shell does for `cd`. -/
theorem parentBuiltin_cd (args : List Text) (pid : ℤ) (s : κ) :
    ∃ s', cwd s' = (args.head?.bind (fs (cwd s))).getD (cwd s) ∧
      ((parentBuiltin (text "cd" :: args) pid).run K s).main = ⟨[], some ((), s')⟩ := by
  obtain ⟨a, s', hcall, -, hcwd⟩ := hK.chdir s args.head?
  have hexit : text "cd" ≠ text "exit" := by decide
  exact ⟨s', hcwd, by simp [parentBuiltin, hexit, Prog.run, hcall, Run.ret]⟩

/-- What the shell does for `exit`. -/
theorem parentBuiltin_exit (args : List Text) (pid : ℤ) (s : κ) :
    (∃ n, Call.exit n ∈ (parentBuiltin (text "exit" :: args) pid).calls K s) ↔ args.length ≤ 1 := by
  -- In the parent `exit` waits for the child before it looks at its arguments.
  have hcd : text "exit" ≠ text "cd" := by decide
  have hbuiltin : parentBuiltin (text "exit" :: args) pid = parentExit args pid := by
    simp only [parentBuiltin, if_neg hcd, if_true]
  obtain ⟨_, s', hwait, -⟩ := hK.stays s (.waitpid pid) trivial
  rw [hbuiltin]
  cases args with
  | nil =>
    simp only [parentExit, Prog.sys_bind, Prog.calls, hwait, exit_calls]
    simp
  | cons code args =>
    cases args with
    | nil =>
      obtain ⟨e, s'', herrno, -⟩ := hK.stays s' .errno trivial
      simp only [parentExit, Prog.sys_bind, Prog.calls, hwait]
      split_ifs <;> simp [Prog.calls, herrno, exit_calls]
    | cons code' args => simp [parentExit, Prog.calls]

/-- The shell comes to its builtin too. -/
theorem parentBranch_sides (argv : List Text) (fd : ℤ) (pipefd : Option (ℤ × ℤ)) (pid : ℤ) (s : κ) :
    ∃ s', cwd s' = cwd s ∧
      (∀ n, Call.exit n ∈ (parentBranch argv fd pipefd pid).calls K s ↔
        Call.exit n ∈ (parentBuiltin argv pid).calls K s') ∧
      ∀ s'', ((parentBuiltin argv pid).run K s').main = ⟨[], some ((), s'')⟩ →
        ∃ fd', ((parentBranch argv fd pipefd pid).run K s).main = ⟨[], some (fd', s'')⟩ := by
  have hpipes : (parentPipes fd pipefd).CallsIn Call.Plumbs := by
    unfold parentPipes
    cases pipefd <;> split_ifs <;> simp [Call.Plumbs]
  obtain ⟨fd', s', hcwd, hmain⟩ := hpipes.returns hK.plumbs s
  refine ⟨s', hcwd, fun n => ?_, fun s'' hbuiltin => ⟨fd', ?_⟩⟩
  · have hnot : Call.exit n ∉ (parentPipes fd pipefd).calls K s := hpipes.mem
    rw [parentBranch, Prog.calls_bind_of_returns (congrArg Proc.result hmain), List.mem_append]
    simp only [hnot, false_or, Prog.pure_eq, Prog.calls_bind_ret]
  · rw [parentBranch, Prog.main_bind_of_returns hmain, Prog.main_bind_of_returns hbuiltin]
    rfl

omit hK in
/-- After `fork` the parent and the child each make the calls of their branch. -/
theorem forkExec_sides (argv : List Text) (f : Fin 3 → Option Text) (fd : ℤ)
    (pipefd : Option (ℤ × ℤ)) {pid : {pid : ℤ // 0 < pid}} {s s' c : κ}
    (hfork : K.fork s = some (pid, s', c)) :
    (forkExec argv f none fd pipefd).children K s =
        [(childBranch argv f none fd pipefd).calls K c] ∧
      (forkExec argv f none fd pipefd).calls K s = (parentBranch argv fd pipefd pid).calls K s' ∧
      ∀ fd' s'', ((parentBranch argv fd pipefd pid).run K s').main = ⟨[], some (fd', s'')⟩ →
        ((forkExec argv f none fd pipefd).run K s).main = ⟨[], some ((pid.1, fd'), s'')⟩ := by
  obtain ⟨pid, hpid⟩ := pid
  rw [forkExec, Prog.forks_bind, Prog.children, Prog.calls, Prog.run, hfork]
  simp only [if_neg hpid.not_gt, if_neg hpid.ne', lt_irrefl, if_false, if_true, Prog.pure_eq,
    Prog.calls_bind_ret, Run.par, true_and]
  refine ⟨?_, fun fd' s'' hmain => by rw [Prog.main_bind_of_returns hmain]; rfl⟩
  rw [((parentBranch_callsOnly argv fd pipefd pid).bind fun _ => Prog.callsOnly_ret _).children]

/-- `cmd_exec` with a child. -/
theorem cmdExec_spawns (pos : Pos) (argv : List Text) (f : Fin 3 → Option Text) {op : ControlOp}
    {hasNext : Bool} (fd : ℤ) {s : κ} (h : Spawns K op hasNext s) :
    ∃ s' c pid, cwd s' = cwd s ∧ cwd c = cwd s ∧
      (∃ calls, (cmdExec pos argv f none op hasNext fd).children K s = [calls] ∧
        ∀ c' : Call, ¬ c'.Plumbs → (c' ∈ calls ↔ c' ∈ (childBody argv none).calls K c)) ∧
      (∀ n, Call.exit n ∈ (cmdExec pos argv f none op hasNext fd).calls K s ↔
        Call.exit n ∈ (parentBuiltin argv pid).calls K s') ∧
      ∀ s'', ((parentBuiltin argv pid).run K s').main = ⟨[], some ((), s'')⟩ →
        ∃ v, ((cmdExec pos argv f none op hasNext fd).run K s).main.result = some (v, s'') := by
  -- From the `fork` on.
  have hfork : ∀ pipefd s₀, cwd s₀ = cwd s → K.fork s₀ ≠ none →
      ∃ s' c pid, cwd s' = cwd s ∧ cwd c = cwd s ∧
        (∃ calls, (forkExec argv f none fd pipefd).children K s₀ = [calls] ∧
          ∀ c' : Call, ¬ c'.Plumbs → (c' ∈ calls ↔ c' ∈ (childBody argv none).calls K c)) ∧
        (∀ n, Call.exit n ∈ (forkExec argv f none fd pipefd).calls K s₀ ↔
          Call.exit n ∈ (parentBuiltin argv pid).calls K s') ∧
        ∀ s'', ((parentBuiltin argv pid).run K s').main = ⟨[], some ((), s'')⟩ →
          ∃ v, ((forkExec argv f none fd pipefd).run K s₀).main.result = some (v, s'') := by
    intro pipefd s₀ hcwd₀ hforks
    obtain ⟨⟨pid, s₁, c⟩, hfork⟩ := Option.ne_none_iff_exists'.mp hforks
    obtain ⟨hcwd₁, hcwdc⟩ := hK.fork hfork
    obtain ⟨hchildren, hcalls, hmain⟩ := forkExec_sides argv f fd pipefd hfork
    obtain ⟨c', hcwdc', hchild⟩ := childBranch_calls hK argv f fd pipefd c
    obtain ⟨s', hcwd', hexit, hreturns⟩ := parentBranch_sides hK argv fd pipefd pid s₁
    refine ⟨s', c', pid, hcwd'.trans (hcwd₁.trans hcwd₀), hcwdc'.trans (hcwdc.trans hcwd₀),
      ⟨_, hchildren, hchild⟩, fun n => by rw [hcalls]; exact hexit n, fun s'' hbuiltin => ?_⟩
    obtain ⟨fd', hparent⟩ := hreturns s'' hbuiltin
    exact ⟨_, congrArg Proc.result (hmain fd' s'' hparent)⟩
  unfold Spawns at h
  split_ifs at h with hop
  · obtain ⟨rfl, fds, s₀, hpipe, hforks⟩ := h
    obtain ⟨a, s₀', hpipe', hcwd⟩ := hK.stays s .pipe trivial
    obtain ⟨-, rfl⟩ := Prod.mk.inj (Option.some.inj (hpipe'.symm.trans hpipe))
    have hexec : cmdExec pos argv f none op true fd = .mark (.start pos) (.call .pipe fun fds =>
        fds.elim (.ret (-1, fd)) fun fds => .mark (.piped fds.1 fds.2)
          (forkExec argv f none fd (some fds))) := by
      rw [cmdExec, if_pos hop]
      refine congrArg (Prog.mark _) (congrArg (Prog.call _) (funext fun fds => ?_))
      cases fds <;> rfl
    simp only [hexec, Prog.children, Prog.calls, Prog.run, Run.pass, hpipe, Option.elim_some,
      List.mem_cons, reduceCtorEq, false_or]
    exact hfork (some fds) s₀' hcwd hforks
  · have hexec : cmdExec pos argv f none op hasNext fd =
        .mark (.start pos) (forkExec argv f none fd none) := by
      rw [cmdExec, if_neg hop]
      rfl
    simp only [hexec, Prog.children, Prog.calls, Prog.run, Run.pass]
    exact hfork none s rfl h

/-- `cmd_exec` without a child. -/
theorem cmdExec_not_spawns (pos : Pos) (argv : List Text) (f : Fin 3 → Option Text) {op : ControlOp}
    {hasNext : Bool} (fd : ℤ) {s : κ} (h : ¬ Spawns K op hasNext s) :
    (cmdExec pos argv f none op hasNext fd).children K s = [] ∧
      (∀ n, Call.exit n ∉ (cmdExec pos argv f none op hasNext fd).calls K s) ∧
      ∃ v s', ((cmdExec pos argv f none op hasNext fd).run K s).main.result = some (v, s') ∧
        cwd s' = cwd s := by
  -- From a `fork` that fails on.
  have hfork : ∀ pipefd s₀, cwd s₀ = cwd s → K.fork s₀ = none →
      (forkExec argv f none fd pipefd).children K s₀ = [] ∧
        (∀ n, Call.exit n ∉ (forkExec argv f none fd pipefd).calls K s₀) ∧
        ∃ v s', ((forkExec argv f none fd pipefd).run K s₀).main.result = some (v, s') ∧
          cwd s' = cwd s := by
    intro pipefd s₀ hcwd₀ hnone
    have hfailed : (forkFailed pipefd).CallsIn Call.Stays := by
      cases pipefd <;> simp [forkFailed, Call.Stays]
    obtain ⟨_, s', hcwd, hmain⟩ := hfailed.returns hK.stays s₀
    rw [forkExec, Prog.forks_bind, Prog.children, Prog.calls, Prog.run, hnone]
    simp only [show (-1 : ℤ) < 0 by decide, if_true, Prog.pure_eq, Prog.calls_bind_ret]
    refine ⟨((forkFailed_callsOnly pipefd).bind fun _ => Prog.callsOnly_ret _).children s₀,
      fun n hn => hfailed.mem hn, (-1, fd), s', ?_, hcwd.trans hcwd₀⟩
    rw [Prog.main_bind_of_returns hmain]
    rfl
  unfold Spawns at h
  rw [cmdExec, Prog.note_bind, Prog.children, Prog.calls, Prog.run]
  split_ifs at h ⊢ with hop hnext
  · exact ⟨rfl, fun n hn => (List.not_mem_nil hn).elim, (-1, fd), s, rfl, rfl⟩
  · obtain ⟨a, s₀, hpipe, hcwd⟩ := hK.stays s .pipe trivial
    simp only [Prog.sys_bind, Prog.children, Prog.calls, Prog.run, Run.pass, hpipe, List.mem_cons,
      reduceCtorEq, false_or]
    cases a with
    | none => exact ⟨rfl, fun n hn => (List.not_mem_nil hn).elim, (-1, fd), s₀, rfl, hcwd⟩
    | some fds =>
      refine hfork (some fds) s₀ hcwd ?_
      by_contra hforks
      exact h ⟨by simpa using hnext, fds, s₀, hpipe, hforks⟩
  · exact hfork none s rfl (not_not.mp h)

/-- The two halves of `cd` agree unless a child is made, there is more than one argument, and the
first one leads to another directory. -/
theorem cdAgrees_iff (pos : Pos) (args : List Text) (f : Fin 3 → Option Text) (op : ControlOp)
    (hasNext : Bool) (fd : ℤ) (s : κ) :
    CdAgrees K cwd fs args (cmdExec pos (text "cd" :: args) f none op hasNext fd) s ↔
      (Spawns K op hasNext s → args.length ≤ 1 ∨
        ∀ d, args.head?.bind (fs (cwd s)) = some d → d = cwd s) := by
  by_cases hspawns : Spawns K op hasNext s
  · obtain ⟨s', c, pid, hs', hc, ⟨calls, hchildren, hchild⟩, -, hreturns⟩ :=
      cmdExec_spawns hK pos (text "cd" :: args) f fd hspawns
    obtain ⟨s'', hcwd, hmain⟩ := parentBuiltin_cd hK args pid s'
    obtain ⟨v, hv⟩ := hreturns s'' hmain
    have hbody : childBody (text "cd" :: args) none = cdChild args := by simp [childBody]
    have hexits : Call.exit 0 ∈ calls ↔ ∃ dir, args = [dir] ∧ (fs (cwd s) dir).isSome := by
      rw [hchild _ id, hbody, cdChild_exits hK, hc]
    have hagrees : CdAgrees K cwd fs args (cmdExec pos (text "cd" :: args) f none op hasNext fd) s ↔
        (Call.exit 0 ∈ calls → ∃ dir, args.head? = some dir ∧ fs (cwd s) dir = some (cwd s'')) ∧
          (Call.exit 0 ∉ calls → cwd s'' = cwd s) := by
      simp only [CdAgrees, hv, hchildren, Option.some.injEq, Prod.mk.injEq, List.mem_singleton,
        exists_eq_left, forall_eq]
      constructor
      · rintro ⟨_, _, ⟨rfl, rfl⟩, h⟩
        exact h
      · exact fun h => ⟨v, s'', ⟨rfl, rfl⟩, h⟩
    rw [hagrees, hexits, hcwd, hs']
    simp only [hspawns, true_imp_iff]
    -- The child counts the arguments, the shell takes the first.
    cases args with
    | nil => simp
    | cons dir args =>
      cases hdir : fs (cwd s) dir with
      | none => simp [hdir]
      | some d => cases args <;> simp [hdir]
  · obtain ⟨hchildren, -, v, s', hv, hcwd⟩ :=
      cmdExec_not_spawns hK pos (text "cd" :: args) f fd hspawns
    refine iff_of_true ⟨v, s', hv, ?_, fun _ => hcwd⟩ fun h => absurd h hspawns
    rw [hchildren]
    rintro ⟨calls, hmem, -⟩
    cases hmem

/-- The two halves of `exit` agree exactly when a child is made. -/
theorem exitAgrees_iff (pos : Pos) (args : List Text) (f : Fin 3 → Option Text) (op : ControlOp)
    (hasNext : Bool) (fd : ℤ) (s : κ) :
    ExitAgrees K args (cmdExec pos (text "exit" :: args) f none op hasNext fd) s ↔
      Spawns K op hasNext s := by
  by_cases hspawns : Spawns K op hasNext s
  · obtain ⟨s', c, pid, -, -, ⟨calls, hchildren, hchild⟩, hexit, -⟩ :=
      cmdExec_spawns hK pos (text "exit" :: args) f fd hspawns
    have hcd : text "exit" ≠ text "cd" := by decide
    have hbody : childBody (text "exit" :: args) none = exitChild args := by
      simp [childBody, hcd]
    refine iff_of_true ⟨?_, ?_⟩ hspawns
    · simp only [hexit]
      exact parentBuiltin_exit hK args pid s'
    · simp only [hchildren, List.mem_singleton, forall_eq]
      rw [hchild _ id, hbody, exitChild_reports hK]
  · obtain ⟨hchildren, hexit, -⟩ := cmdExec_not_spawns hK pos (text "exit" :: args) f fd hspawns
    refine iff_of_false ?_ hspawns
    rintro ⟨hends, hreports⟩
    -- No child reports an error, so the shell should have ended.
    obtain ⟨n, hn⟩ :=
      hends.mpr (hreports.mpr fun calls hmem => by rw [hchildren] at hmem; cases hmem)
    exact hexit n hn

end Sides

/-- **The two sides of the builtins agree**, exactly when `exit` has a child, and `cd` with a child
has at most one argument, or the first one leads nowhere else. -/
theorem builtinsAgree_iff {κ D : Type} {K : Kernel Call Call.Answer κ} {cwd : κ → D}
    {fs : D → Text → Option D} (hK : Dirs K cwd fs) (pos : Pos) (argv : List Text)
    (f : Fin 3 → Option Text) (op : ControlOp) (hasNext : Bool) (fd : ℤ) (s : κ) :
    BuiltinsAgree K cwd fs argv (cmdExec pos argv f none op hasNext fd) s ↔
      (∀ args, argv = text "cd" :: args → Spawns K op hasNext s → args.length ≤ 1 ∨
        ∀ d, args.head?.bind (fs (cwd s)) = some d → d = cwd s) ∧
      (∀ args, argv = text "exit" :: args → Spawns K op hasNext s) := by
  refine and_congr (forall₂_congr ?_) (forall₂_congr ?_)
  · rintro args rfl
    exact cdAgrees_iff hK pos args f op hasNext fd s
  · rintro args rfl
    exact exitAgrees_iff hK pos args f op hasNext fd s

/-! ## A kernel with directories -/

/-- Where `chdir` leads in a file system of nested directories, each of which is called `a`. -/
def nestedIn (depth : ℕ) (dir : Text) : Option ℕ :=
  if dir = text "a" then some (depth + 1) else none

/-- A kernel for that file system. The state of a process is the depth of its directory. -/
def nested : Kernel Call Call.Answer ℕ where
  call depth c := match c with
    | .chdir path => match path.bind (nestedIn depth) with
      | none => some ((-1 : ℤ), depth)
      | some depth => some ((0 : ℤ), depth)
    | .pipe => some (some (3, 4), depth)
    | .getcwd => some (none, depth)
    | .exit _ | .abort | .execvp _ => none
    | .waitpid _ => some ((0 : BitVec 32), depth)
    | .indeterminate => some ((0, 0), depth)
    | .dup2 _ _ | .close _ | .openFile _ _ | .write _ _ | .perror _ | .reap | .errno =>
      some ((0 : ℤ), depth)
  fork depth := some (⟨1, Int.one_pos⟩, depth, depth)

/-- Directories with a number of levels are directories. -/
theorem nested_dirs : Dirs nested id nestedIn where
  stays depth c h := by
    cases c <;> first | exact ⟨_, _, rfl, rfl⟩ | cases h
  chdir depth path := by
    simp only [nested, id_eq]
    cases path.bind (nestedIn depth) with
    | none => exact ⟨-1, depth, rfl, by simp⟩
    | some depth' => exact ⟨0, depth', rfl, by simp⟩
  fork h := by
    obtain ⟨-, h⟩ := Prod.mk.inj (Option.some.inj h)
    obtain ⟨rfl, rfl⟩ := Prod.mk.inj h
    exact ⟨rfl, rfl⟩

/-- `cd a` -/
theorem builtinsAgree_cd : BuiltinsAgree nested id nestedIn [text "cd", text "a"]
    (cmdExec [] [text "cd", text "a"] (fun _ => none) none .cmdEnd false 0) 0 := by
  refine (builtinsAgree_iff nested_dirs [] _ _ .cmdEnd false 0 0).mpr ⟨?_, ?_⟩
  · rintro args h -
    rw [← (List.cons.inj h).2]
    exact .inl le_rfl
  · intro args h
    exact absurd (List.cons.inj h).1 (by decide)

/-- `cd a b`: the child reports a syntax error, and the shell is in `a`. -/
theorem not_builtinsAgree_cd : ¬ BuiltinsAgree nested id nestedIn [text "cd", text "a", text "b"]
    (cmdExec [] [text "cd", text "a", text "b"] (fun _ => none) none .cmdEnd false 0) 0 := by
  rintro ⟨hcd, -⟩
  obtain ⟨v, s', hresult, -, hstays⟩ := hcd _ rfl
  have hrun : ((cmdExec [] [text "cd", text "a", text "b"] (fun _ => none) none .cmdEnd false 0).run
      nested 0).main.result = some ((1, 0), 1) := rfl
  rw [hrun] at hresult
  obtain ⟨-, rfl⟩ := Prod.mk.inj (Option.some.inj hresult)
  refine absurd (hstays ?_) (by decide)
  have hchildren : (cmdExec [] [text "cd", text "a", text "b"] (fun _ => none) none .cmdEnd false
      0).children nested 0 = [[.dup2 0 0,
        .write 2 (text "cd: Syntax error! Wrong number of arguments!\n"), .exit 1]] := rfl
  simp [hchildren]

end Cs5600.Lab2
