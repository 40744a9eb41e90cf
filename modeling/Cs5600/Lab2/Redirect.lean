import Cs5600.Lab2.Pipes

/-!
# Redirections

The child of `cmd_exec` opens the files of its command one after the other and puts them at 0, 1,
and 2, after the pipes are in place. So a program that is run, or a subshell, has at each of the
three descriptors the file of the redirection, if there is one and it could be opened, else the end
of the pipe, else what the shell had there; all other descriptors are as in the shell
(`redirections_made`).
-/

namespace Cs5600.Lab2

open Function (update)
open Prog (sys note forks)

/-! ## What is opened -/

/-- A call of `open`: the path, whether it is for writing, and the file, unless the call failed. -/
structure Opened (δ : Type) where
  path : Text
  writing : Bool
  file : Option δ

/-- The calls of `open` are written down in `log s`, the latest last. -/
structure Logged {κ δ : Type} (K : Kernel Call Call.Answer κ) (table : κ → Table δ)
    (made : κ → Set δ) (log : κ → List (Opened δ)) : Prop extends Descriptors K table made where
  opens {s s' : κ} {path : Text} {writing : Bool} {fd : ℤ} :
    K.call s (.openFile path writing) = some (fd, s') →
      fd < 0 ∧ table s' = table s ∧ log s' = log s ++ [⟨path, writing, none⟩] ∨
      0 ≤ fd ∧ table s fd = none ∧ ∃ x, x ∉ made s ∧ table s' = update (table s) fd (some x) ∧
        log s' = log s ++ [⟨path, writing, some x⟩]
  keeps {s s' : κ} {oldfd newfd a : ℤ} : K.call s (.dup2 oldfd newfd) = some (a, s') →
    log s' = log s
  keeps' {s s' : κ} {fd a : ℤ} : K.call s (.close fd) = some (a, s') → log s' = log s

/-- The table with `xs i` at descriptor `i`, where there is one. -/
def redirectTable {δ : Type} (t : Table δ) (xs : Fin 3 → Option δ) : Table δ :=
  update (update (update t 0 ((xs stdinFileno).or (t 0))) 1 ((xs stdoutFileno).or (t 1))) 2
    ((xs stderrFileno).or (t 2))

/-- The calls of `open` for the redirections `f`, where the files `xs` are opened. -/
def redirectOpens {δ : Type} (f : Fin 3 → Option Text) (xs : Fin 3 → Option δ) : List (Opened δ) :=
  (List.finRange 3).filterMap fun i => (f i).map fun path => ⟨path, i ≠ stdinFileno, xs i⟩

section

variable {κ δ : Type} {K : Kernel Call Call.Answer κ} (table : κ → Table δ) {made : κ → Set δ}
  (log : κ → List (Opened δ))

/-- The redirections `f` have been made, from the table `t` and the log `l` on. -/
def Redirected (f : Fin 3 → Option Text) (t : Table δ) (l : List (Opened δ)) (s : κ) : Prop :=
  ∃ xs : Fin 3 → Option δ, (∀ i, f i = none → xs i = none) ∧ log s = l ++ redirectOpens f xs ∧
    table s = redirectTable t xs

variable {table log}

/-- The standard descriptors stay open when one of them is replaced. -/
theorem Standard.update {t : Table δ} (h : Standard t) (fd : ℤ) (x : Option δ) :
    Standard (update t fd (x.or (t fd))) := by
  have key : ∀ i, t i ≠ none → Function.update t fd (x.or (t fd)) i ≠ none := by
    intro i hi
    rw [Function.update_apply]
    split_ifs with heq
    · subst heq
      cases x <;> simp [hi]
    · exact hi
  exact ⟨key 0 h.1, key 1 h.2.1, key 2 h.2.2⟩

/-- The standard descriptors stay open when files are put in their places. -/
theorem Standard.redirectTable {t : Table δ} (h : Standard t) (xs : Fin 3 → Option δ) :
    Standard (redirectTable t xs) := ((h.update 0 (xs 0)).update 1 (xs 1)).update 2 (xs 2)

/-- The standard descriptors stay open when pipes are put in their places. -/
theorem Standard.route {t : Table δ} (h : Standard t) (prev own : Option δ) :
    Standard (route t prev own) := (h.update 0 prev).update 1 own

/-- After the redirections the standard descriptors are open. -/
theorem Redirected.standard {f : Fin 3 → Option Text} {t : Table δ} {l : List (Opened δ)} {s : κ}
    (h : Redirected table log f t l s) (ht : Standard t) : Standard (table s) := by
  obtain ⟨xs, -, -, hs⟩ := h
  rw [hs]
  exact ht.redirectTable xs

/-! ## The redirections of a command -/

/-- What is known of a child: the place of its command, and the table and the calls of `open` there
were when it came to its redirections. -/
structure Child (δ : Type) where
  pos : Pos
  before : Option (Table δ × List (Opened δ))

variable (table log) in
def childWatch (g : Child δ) : Mark × κ → Child δ
  | (.start pos, _) => ⟨pos, none⟩
  | (.child, s) => ⟨g.pos, some (table s, log s)⟩
  | (.line, _) | (.piped _ _, _) | (.back _, _) => ⟨g.pos, none⟩
  | (.exec _, _) | (.returns, _) => g

/-- The lists of commands at the places of the tree `c₀` at `pos₀`. -/
inductive Inside (c₀ : Command) (pos₀ : Pos) : Command → Pos → Prop
  | root : Inside c₀ pos₀ c₀ pos₀
  | sub {argv : List Text} {f : Fin 3 → Option Text} {sub next : Command} {op : ControlOp}
    {pos : Pos} :
    Inside c₀ pos₀ (.mk argv f sub op next) pos → Inside c₀ pos₀ sub (true :: pos)
  | next {argv : List Text} {f : Fin 3 → Option Text} {sub next : Command} {op : ControlOp}
    {pos : Pos} :
    Inside c₀ pos₀ (.mk argv f sub op next) pos → Inside c₀ pos₀ next (false :: pos)

variable (table log) in
/-- The child has made the redirections of the command at its place when it runs it. -/
def Redirects (c₀ : Command) (pos₀ : Pos) (g : Child δ) : Mark × κ → Prop
  | (.exec argv, s) => ∃ f op next t l, Inside c₀ pos₀ (.mk argv f .null op next) g.pos ∧
      g.before = some (t, l) ∧ (Standard t → Redirected table log f t l s)
  | (.line, s) => ∃ argv f sub op next t l, Inside c₀ pos₀ (.mk argv f sub op next) g.pos ∧
      sub ≠ .null ∧ g.before = some (t, l) ∧ (Standard t → Redirected table log f t l s)
  | _ => True

variable {c₀ : Command} {pos₀ : Pos} {g : Child δ} {s : κ}

/-- A redirection opens its file, if it has one, puts it at its descriptor if it could be opened,
and writes it down. -/
theorem redirect_logged (hK : Logged K table made log) (file : Option Text) {fd : ℤ}
    (hfd : fd = 0 ∨ fd = 1 ∨ fd = 2) (writing : Bool) :
    (redirect file fd writing).Always K (childWatch table log) (Redirects table log c₀ pos₀)
      (fun _ g' s' => g' = g ∧ (Standard (table s) → ∃ x : Option δ, (file = none → x = none) ∧
        log s' = log s ++ (file.map fun path => ⟨path, writing, x⟩).toList ∧
        table s' = update (table s) fd (x.or (table s fd)))) g s := by
  cases file with
  | none => exact ⟨rfl, fun _ => ⟨none, fun _ => rfl, by simp, by simp⟩⟩
  | some path =>
    intro (opened : ℤ) s₁ h₁ a s₂ h₂ b s₃ h₃
    refine ⟨rfl, fun hstandard => ?_⟩
    have hnonneg : 0 ≤ fd := by omega
    have hlog : log s₃ = log s₁ := (hK.keeps' h₃).trans (hK.keeps h₂)
    have hfree : ∀ {i : ℤ}, table s i = none → update (table s) i none = table s := by
      intro i hi
      rw [← hi, Function.update_eq_self]
    rcases hK.opens h₁ with ⟨hneg, ht₁, hl₁⟩ | ⟨hopened, hnone, x, -, ht₁, hl₁⟩
    · refine ⟨none, by simp, by rw [hlog, hl₁]; rfl, ?_⟩
      -- Neither `dup2` nor `close` does anything.
      rw [hK.close h₃, hK.dup2 hnonneg h₂, if_pos (hK.neg _ hneg), ht₁, hfree (hK.neg _ hneg),
        Option.none_or, Function.update_eq_self]
    · refine ⟨some x, by simp, by rw [hlog, hl₁]; rfl, ?_⟩
      have hx : table s₁ opened = some x := by rw [ht₁, Function.update_self]
      -- The file is opened above 2, and closed there after the `dup2`.
      have hne : opened ≠ fd := by
        rintro rfl
        exact hstandard.ne_none hfd hnone
      rw [hK.close h₃, hK.dup2 hnonneg h₂, if_neg (by simp [hx]), hx, ht₁, Option.some_or,
        Function.update_comm hne.symm, Function.update_idem, hfree hnone]

/-- The three redirections, one after the other. -/
theorem redirects_logged (hK : Logged K table made log) (f : Fin 3 → Option Text) {rest : Shell ℤ}
    {Q : ℤ → Child δ → κ → Prop}
    (hrest : ∀ s', (Standard (table s) → Redirected table log f (table s) (log s) s') →
      rest.Always K (childWatch table log) (Redirects table log c₀ pos₀) Q g s') :
    (do
      redirect (f stdinFileno) 0 false
      redirect (f stdoutFileno) 1 true
      redirect (f stderrFileno) 2 true
      rest : Shell ℤ).Always K (childWatch table log) (Redirects table log c₀ pos₀) Q g s := by
  refine Prog.always_bind (redirect_logged hK (f 0) (.inl rfl) false) ?_
  rintro _ _ s₁ ⟨rfl, h₁⟩
  refine Prog.always_bind (redirect_logged hK (f 1) (.inr (.inl rfl)) true) ?_
  rintro _ _ s₂ ⟨rfl, h₂⟩
  refine Prog.always_bind (redirect_logged hK (f 2) (.inr (.inr rfl)) true) ?_
  rintro _ _ s₃ ⟨rfl, h₃⟩
  refine hrest s₃ fun hs => ?_
  -- Each redirection finds the table that the one before left, with the standard numbers in use.
  obtain ⟨x₀, hx₀, hl₁, ht₁⟩ := h₁ hs
  have hs₁ : Standard (table s₁) := ht₁ ▸ hs.update 0 x₀
  obtain ⟨x₁, hx₁, hl₂, ht₂⟩ := h₂ hs₁
  have hs₂ : Standard (table s₂) := ht₂ ▸ hs₁.update 1 x₁
  obtain ⟨x₂, hx₂, hl₃, ht₃⟩ := h₃ hs₂
  refine ⟨![x₀, x₁, x₂], ?_, ?_, ?_⟩
  · intro i hi
    fin_cases i
    · exact hx₀ hi
    · exact hx₁ hi
    · exact hx₂ hi
  · rw [hl₃, hl₂, hl₁, redirectOpens, List.append_assoc, List.append_assoc]
    cases h0 : f 0 <;> cases h1 : f 1 <;> cases h2 : f 2 <;>
      simp [List.finRange, stdinFileno, h0, h1, h2]
  · rw [ht₃, ht₂, ht₁, redirectTable]
    simp [stdinFileno, stdoutFileno, stderrFileno]

/-- What a child does after its redirections, where `execvp` does not return. -/
theorem childBody_logged (hK : Logged K table made log) (argv : List Text) {sub : Option (Shell ℤ)}
    (hsub : ∀ line ∈ sub, line.Always K (childWatch table log) (Redirects table log c₀ pos₀)
      (fun _ _ _ => True) g s)
    (hexec : sub = none → Redirects table log c₀ pos₀ g (.exec argv, s)) :
    (childBody argv sub).Always K (childWatch table log) (Redirects table log c₀ pos₀)
      (fun _ _ _ => True) g s := by
  unfold childBody
  cases sub with
  | some line =>
    -- A subshell's line comes back to `exit`.
    refine Prog.always_bind (hsub line rfl) fun a g' s' _ => ?_
    split_ifs <;> exact (exit_ends _).always
  | none =>
    cases argv with
    | nil => exact (exit_ends _).always
    | cons name args =>
      dsimp only
      split_ifs
      · exact (cdChild_ends args).always
      · exact (exitChild_ends args).always
      · exact (pwdChild_ends args).always
      · refine ⟨hexec rfl, fun r s' hcall => ?_⟩
        rw [hK.execvp] at hcall
        cases hcall

section

variable {argv : List Text} {f : Fin 3 → Option Text} {sub next : Command} {op : ControlOp}

/-- A child has made its redirections at its marks, if its subshell has. -/
theorem childBranch_logged (hK : Logged K table made log) (fd : ℤ) (pipefd : Option (ℤ × ℤ))
    (hinside : Inside c₀ pos₀ (.mk argv f sub op next) g.pos)
    (hloop : ∀ g' s', (cmdLoop sub (true :: g.pos) 0 0).Always K (childWatch table log)
      (Redirects table log c₀ pos₀) (fun _ _ _ => True) g' s') :
    (childBranch argv f (subshellExec sub g.pos) fd pipefd).Always K (childWatch table log)
      (Redirects table log c₀ pos₀) (fun _ _ _ => True) g s := by
  refine Prog.always_bind (childPipes_callsOnly fd pipefd).always ?_
  rintro _ _ s' rfl
  rw [Prog.note_bind]
  refine ⟨trivial, redirects_logged hK f fun s'' hs'' => childBody_logged hK argv ?_ ?_⟩
  -- The child runs the inner list of the command it was made for.
  · intro line hline
    rw [Option.mem_def, subshellExec] at hline
    split_ifs at hline with hsub
    obtain rfl := Option.some.inj hline
    exact ⟨⟨argv, f, sub, op, next, _, _, hinside, hsub, rfl, hs''⟩, hloop _ s''⟩
  -- With no inner list it runs the command itself.
  · intro hnone
    have hsub : sub = .null := by
      rw [subshellExec] at hnone
      split_ifs at hnone with hsub
      exact hsub
    exact ⟨f, op, next, _, _, hsub ▸ hinside, rfl, hs''⟩

/-- From `fork` on, redirections are made before what needs them, if they are in the subshell. -/
theorem forkExec_logged (hK : Logged K table made log) (fd : ℤ) (pipefd : Option (ℤ × ℤ))
    (hinside : Inside c₀ pos₀ (.mk argv f sub op next) g.pos)
    (hloop : ∀ g' s', (cmdLoop sub (true :: g.pos) 0 0).Always K (childWatch table log)
      (Redirects table log c₀ pos₀) (fun _ _ _ => True) g' s') :
    (forkExec argv f (subshellExec sub g.pos) fd pipefd).Always K (childWatch table log)
      (Redirects table log c₀ pos₀) (fun _ _ _ => True) g s := by
  unfold forkExec
  rw [Prog.forks_bind]
  refine ⟨fun hnone => absurd hnone (hK.fork_ne_none s), fun pid s' c hfork => ?_⟩
  have hpid : 0 < pid.1 := pid.2
  constructor
  · beta_reduce
    rw [if_neg (by omega), if_neg (by omega)]
    exact Prog.always_bind (parentBranch_callsOnly argv fd pipefd pid).always
      fun _ _ _ _ => trivial
  · exact Prog.always_bind (childBranch_logged hK fd pipefd hinside hloop) fun _ _ _ _ => trivial

/-- In `cmd_exec`, redirections are made before what needs them, if they are in the subshell. -/
theorem cmdExec_logged (hK : Logged K table made log) {pos : Pos} (fd : ℤ)
    (hinside : Inside c₀ pos₀ (.mk argv f sub op next) pos)
    (hloop : ∀ g' s', (cmdLoop sub (true :: pos) 0 0).Always K (childWatch table log)
      (Redirects table log c₀ pos₀) (fun _ _ _ => True) g' s') :
    (cmdExec pos argv f (subshellExec sub pos) op (next ≠ .null) fd).Always K (childWatch table log)
      (Redirects table log c₀ pos₀) (fun _ _ _ => True) g s := by
  have hfork : ∀ pipefd s', (forkExec argv f (subshellExec sub pos) fd pipefd).Always K
      (childWatch table log) (Redirects table log c₀ pos₀) (fun _ _ _ => True) ⟨pos, none⟩ s' :=
    fun pipefd s' => forkExec_logged (g := ⟨pos, none⟩) hK fd pipefd hinside hloop
  unfold cmdExec
  rw [Prog.note_bind]
  refine ⟨trivial, ?_⟩
  split_ifs
  · trivial
  · intro a s' _
    cases a with
    | none => trivial
    | some ends => exact ⟨trivial, hfork _ s'⟩
  · exact hfork none s

/-- In what follows `cmd_exec`, redirections are made, if they are in the rest of the line. -/
theorem afterExec_logged (op : ControlOp) (status pid : ℤ) {goOn : ℤ → Shell ℤ}
    (hgo : ∀ status' g' s', (goOn status').Always K (childWatch table log)
      (Redirects table log c₀ pos₀) (fun _ _ _ => True) g' s') :
    (afterExec op status pid goOn).Always K (childWatch table log) (Redirects table log c₀ pos₀)
      (fun _ _ _ => True) g s := by
  have hdone : ∀ status' g' s', (lineDone status').Always K (childWatch table log)
      (Redirects table log c₀ pos₀) (fun _ _ _ => True) g' s' := fun _ _ _ => ⟨trivial, trivial⟩
  unfold afterExec
  rw [Prog.note_bind]
  refine ⟨trivial, ?_⟩
  split_ifs
  · exact abort_ends.always
  · cases op with
    | cmdEnd | cmdSemicolon | cmdAnd =>
      -- A command that failed leaves the line; one that did not goes on.
      refine Prog.always_sys_bind fun a s' _ => ?_
      split_ifs
      · exact hgo _ _ s'
      · exact hdone _ _ s'
    | cmdOr =>
      refine Prog.always_sys_bind fun a s' _ => ?_
      dsimp only
      generalize (if wifexited a = true then wexitstatus a else status) = status'
      split_ifs
      · exact hdone _ _ s'
      · exact hgo _ _ s'
    | cmdBackground | cmdPipe => exact hgo _ _ s

end

/-- In the loop, redirections are made before what needs them. -/
theorem cmdLoop_logged (hK : Logged K table made log) {c : Command} {pos : Pos} (status fd : ℤ)
    (g : Child δ) (s : κ) (hinside : Inside c₀ pos₀ c pos) :
    (cmdLoop c pos status fd).Always K (childWatch table log) (Redirects table log c₀ pos₀)
      (fun _ _ _ => True) g s := by
  induction c generalizing pos status fd g s with
  | null => exact fun a s' _ => ⟨trivial, trivial⟩
  | mk argv f sub op next ihsub ihnext =>
    rw [cmdLoop_mk]
    refine Prog.always_bind (cmdExec_logged hK fd hinside fun g' s' => ?_) fun y g' s' _ => ?_
    · exact ihsub 0 0 g' s' hinside.sub
    · exact afterExec_logged op status y.1 fun status' g' s' =>
        ihnext status' y.2 g' s' hinside.next

/-! ## Pipes and redirections -/

variable (table log) in
/-- The redirections `f` have been made in a child, in the table that the pipes have given it. -/
def Prepared (f : Fin 3 → Option Text) (x : Watch δ × Child δ) (s : κ) : Prop :=
  ∃ l, x.2.before = some (route x.1.initial x.1.prev x.1.own.2, l) ∧
    Redirected table log f (route x.1.initial x.1.prev x.1.own.2) l s

variable (table log) in
/-- A program is run, and a subshell is entered, with the descriptors that the line gives it. -/
def RunsPrepared (c₀ : Command) (pos₀ : Pos) (x : Watch δ × Child δ) : Mark × κ → Prop
  | (.exec argv, s) => ∃ f op next, Inside c₀ pos₀ (.mk argv f .null op next) x.2.pos ∧
      Prepared table log f x s
  | (.line, s) => x.2 = ⟨pos₀, none⟩ ∨ ∃ argv f sub op next,
      Inside c₀ pos₀ (.mk argv f sub op next) x.2.pos ∧ sub ≠ .null ∧ Prepared table log f x s
  | _ => True

/-- The child of a shell with 0, 1, and 2 open got the table of its pipes before its
redirections. -/
def Agree (w : Watch δ) (g : Child δ) : Prop :=
  Standard w.initial ∧ ∀ t l, g.before = some (t, l) → t = route w.initial w.prev w.own.2

/-- The two watches together say that the command is prepared. -/
theorem Agree.prepared {w : Watch δ} {f : Fin 3 → Option Text} {t : Table δ} {l : List (Opened δ)}
    (h : Agree w g) (hbefore : g.before = some (t, l))
    (hmade : Standard t → Redirected table log f t l s) :
    Prepared table log f (w, g) s ∧ Standard (table s) := by
  obtain rfl := h.2 t l hbefore
  have hs : Standard (route w.initial w.prev w.own.2) := h.1.route _ _
  exact ⟨⟨l, hbefore, hmade hs⟩, (hmade hs).standard hs⟩

/-- The two watches stay in step. -/
theorem Agree.step {w : Watch δ} {m : Mark × κ} (h : Agree w g) (hw : Routed table w m)
    (hg : Redirects table log c₀ pos₀ g m) :
    Agree (watch table w m) (childWatch table log g m) ∧
    RunsPrepared table log c₀ pos₀ (w, g) m := by
  obtain ⟨m, s⟩ := m
  -- After these marks no child's table is remembered.
  have hnone : ∀ w' : Watch δ, ∀ pos, Standard w'.initial → Agree w' ⟨pos, none⟩ :=
    fun w' pos hs => ⟨hs, by simp⟩
  cases m with
  | line =>
    obtain ⟨argv, f, sub, op, next, t, l, hinside, hsub, hbefore, hmade⟩ := hg
    obtain ⟨hprepared, hs⟩ := h.prepared hbefore hmade
    exact ⟨hnone _ _ hs, .inr ⟨argv, f, sub, op, next, hinside, hsub, hprepared⟩⟩
  | exec argv =>
    obtain ⟨f, op, next, t, l, hinside, hbefore, hmade⟩ := hg
    exact ⟨h, f, op, next, hinside, (h.prepared hbefore hmade).1⟩
  -- The mark of the child, where the pipes are in place and the redirections begin.
  | child =>
    refine ⟨⟨h.1, fun t l heq => ?_⟩, trivial⟩
    obtain ⟨rfl, -⟩ := Prod.mk.inj (Option.some.inj heq)
    exact hw.2
  | start | piped | back => exact ⟨hnone _ _ h.1, trivial⟩
  | returns => exact ⟨h, trivial⟩

/-- Every program and every subshell of a line finds the files of its redirections at 0, 1, and 2,
where they could be opened, and else what its pipes have put there. -/
theorem redirections_made (hK : Logged K table made log) {c : Command} (hwf : c.WellFormed)
    (pos : Pos) {s : κ} (hs : Standard (table s)) :
    (cmdLineExec c pos).Always K (fun x m => (watch table x.1 m, childWatch table log x.2 m))
      (RunsPrepared table log c pos) (fun _ _ s' => table s' = table s)
      (Watch.start, ⟨pos, none⟩) s := by
  refine ⟨.inl rfl, ?_⟩
  have hkept : Kept table made (Watch.start : Watch δ).others s :=
    ⟨hs, List.forall_mem_nil _, List.forall_mem_nil _⟩
  have hpipes := cmdLoop_always hK.toDescriptors hwf pos 0 0 ⟨table s, none, (none, none), []⟩ s
    (fun hne => absurd rfl hne) ⟨hkept, rfl, rfl⟩
  have hroot : Inside c pos c pos := .root
  have hfiles := cmdLoop_logged hK 0 0 ⟨pos, none⟩ s hroot
  have hstart : Agree (⟨table s, none, (none, none), []⟩ : Watch δ) ⟨pos, none⟩ := ⟨hs, by simp⟩
  exact Prog.always_imp (Prog.Always.together (fun _ _ _ => Agree.step) hpipes hfiles hstart)
    fun _ _ _ h => h.1

end

/-! ## A line with a subshell -/

namespace Descs

/-- What is written down after a call. -/
def written (s : Descs × List (Opened ℕ)) : Call → List (Opened ℕ)
  | .openFile path writing => s.2 ++ [⟨path, writing, some s.1.fresh⟩]
  | _ => s.2

def kernelLogged : Kernel Call Call.Answer (Descs × List (Opened ℕ)) where
  call s c := (call s.1 c).map fun y => (y.1, y.2, written s c)
  fork s := some (⟨1, Int.one_pos⟩, s, s)

/-- A logged call is a call, and `open` is written down. -/
theorem call_of_logged {s s' : Descs × List (Opened ℕ)} {c : Call} {a : c.Answer}
    (h : kernelLogged.call s c = some (a, s')) :
    kernel.call s.1 c = some (a, s'.1) ∧ s'.2 = written s c := by
  obtain ⟨⟨b, s₁⟩, hcall, heq⟩ := Option.map_eq_some_iff.mp h
  obtain ⟨rfl, rfl⟩ := Prod.mk.inj heq
  exact ⟨hcall, rfl⟩

/-- The kernel that writes down its calls of `open` does so. -/
theorem logged_kernelLogged :
    Logged kernelLogged (fun s => table s.1) (fun s => made s.1) Prod.snd where
  neg s := descriptors_kernel.neg s.1
  mem_made := descriptors_kernel.mem_made
  made_subset h := descriptors_kernel.made_subset (call_of_logged h).1
  pipe h := descriptors_kernel.pipe (call_of_logged h).1
  dup2 hnew h := descriptors_kernel.dup2 hnew (call_of_logged h).1
  close h := descriptors_kernel.close (call_of_logged h).1
  openFile h := descriptors_kernel.openFile (call_of_logged h).1
  chdir h := descriptors_kernel.chdir (call_of_logged h).1
  waitpid h := descriptors_kernel.waitpid (call_of_logged h).1
  reap h := descriptors_kernel.reap (call_of_logged h).1
  execvp _ _ := rfl
  fork_ne_none _ := Option.some_ne_none _
  fork {s s' c pid} h := by
    obtain ⟨-, hs⟩ := Prod.mk.inj (Option.some.inj h)
    obtain ⟨rfl, rfl⟩ := Prod.mk.inj hs
    exact ⟨⟨rfl, subset_rfl⟩, rfl, subset_rfl⟩
  -- The descriptor handed out is the first number never used.
  opens {s s' path writing fd} h := by
    obtain ⟨rfl, rfl⟩ := Prod.mk.inj (Option.some.inj h)
    exact .inr ⟨by omega, table_of_fresh_le le_rfl, s.1.fresh, notMem_made_of_fresh_le le_rfl,
      table_cons (.inl (by omega)) s.1, rfl⟩
  keeps h := (call_of_logged h).2
  keeps' h := (call_of_logged h).2

end Descs

/-- `(a | b > e) | c < f` -/
theorem redirections_made_subshell :
    (cmdLineExec (.mk [] (fun _ => none)
      (.mk [text "a"] (fun _ => none) .null .cmdPipe
        (.mk [text "b"] ![none, some (text "e"), none] .null .cmdEnd .null))
      .cmdPipe (.mk [text "c"] ![some (text "f"), none, none] .null .cmdEnd .null)) []).Always
        Descs.kernelLogged
        (fun x m => (watch (fun s => Descs.table s.1) x.1 m,
          childWatch (fun s => Descs.table s.1) Prod.snd x.2 m))
        (RunsPrepared (fun s => Descs.table s.1) Prod.snd
          (.mk [] (fun _ => none)
            (.mk [text "a"] (fun _ => none) .null .cmdPipe
              (.mk [text "b"] ![none, some (text "e"), none] .null .cmdEnd .null))
            .cmdPipe (.mk [text "c"] ![some (text "f"), none, none] .null .cmdEnd .null)) [])
        (fun _ _ s => Descs.table s.1 = Descs.table [(0, some 0), (1, some 1), (2, some 2)])
        (Watch.start, ⟨[], none⟩) ([(0, some 0), (1, some 1), (2, some 2)], []) :=
  redirections_made Descs.logged_kernelLogged
    (by simp [Command.WellFormed, maxtokens]) [] ⟨by decide, by decide, by decide⟩

end Cs5600.Lab2
