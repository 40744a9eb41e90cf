import Mathlib.Logic.Function.Basic
import Cs5600.Lab2.Accept
import Cs5600.Lab2.Fork

/-!
# The descriptors of pipes

The descriptor table of a process maps descriptors to open files. `Descriptors` is what the calls do
to it, where pipes, processes and programs are made whenever they are asked for.

A process that runs a list of commands is watched along its marks: the table that it had when it
called `cmd_line_exec`, the read end of the pipe of the command before, the ends of the pipe it has
made for the command it starts, and the write ends of all other pipes (`Watch`). `Routed` is what
its table should be at each mark, and `cmdLoop_always` carries it through the loop of
`cmd_line_exec`. Between two commands the shell is in a `Turn`; a `Forked` process, parent or child,
gets there or to its redirections by closing what it has too much.
-/

namespace Cs5600.Lab2

open Function (update)
open Prog (sys note forks)

/-- What is open at each descriptor. -/
abbrev Table (δ : Type) : Type := ℤ → Option δ

/-- What the calls do to the descriptor table `table s` of a process in state `s`; `made s` are the
files that have been opened up to then. -/
structure Descriptors {κ δ : Type} (K : Kernel Call Call.Answer κ) (table : κ → Table δ)
    (made : κ → Set δ) : Prop where
  neg (s : κ) {fd : ℤ} : fd < 0 → table s fd = none
  mem_made {s : κ} {fd : ℤ} {x : δ} : table s fd = some x → x ∈ made s
  made_subset {s s' : κ} {c : Call} {a : c.Answer} : K.call s c = some (a, s') → made s ⊆ made s'
  /-- A pipe gets two descriptors that are not in use. -/
  pipe {s s' : κ} {a : Option (ℤ × ℤ)} : K.call s .pipe = some (a, s') →
    ∃ r w x y, a = some (r, w) ∧ 0 ≤ r ∧ 0 ≤ w ∧ r ≠ w ∧ table s r = none ∧ table s w = none ∧
      x ∉ made s ∧ y ∉ made s ∧ x ≠ y ∧ table s' = update (update (table s) r (some x)) w (some y)
  dup2 {s s' : κ} {oldfd newfd a : ℤ} : 0 ≤ newfd → K.call s (.dup2 oldfd newfd) = some (a, s') →
    table s' = if table s oldfd = none then table s else update (table s) newfd (table s oldfd)
  close {s s' : κ} {fd a : ℤ} : K.call s (.close fd) = some (a, s') →
    table s' = update (table s) fd none
  /-- A file is opened at a descriptor that is not in use, or `open` fails. -/
  openFile {s s' : κ} {path : Text} {writing : Bool} {fd : ℤ} :
    K.call s (.openFile path writing) = some (fd, s') →
      fd < 0 ∧ table s' = table s ∨
        0 ≤ fd ∧ table s fd = none ∧ ∃ x, x ∉ made s ∧ table s' = update (table s) fd (some x)
  chdir {s s' : κ} {path : Option Text} {a : ℤ} : K.call s (.chdir path) = some (a, s') →
    table s' = table s
  waitpid {s s' : κ} {pid : ℤ} {a : BitVec 32} : K.call s (.waitpid pid) = some (a, s') →
    table s' = table s
  reap {s s' : κ} {a : ℤ} : K.call s .reap = some (a, s') → table s' = table s
  execvp (s : κ) (argv : List Text) : K.call s (.execvp argv) = none
  fork_ne_none (s : κ) : K.fork s ≠ none
  fork {s s' c : κ} {pid : {pid : ℤ // 0 < pid}} : K.fork s = some (pid, s', c) →
    (table s' = table s ∧ made s ⊆ made s') ∧ table c = table s ∧ made s ⊆ made c

/-- What is known of a process that runs a list of commands. -/
structure Watch (δ : Type) where
  /-- The table it had when it called `cmd_line_exec`. -/
  initial : Table δ
  /-- The read end of the pipe of the command before, if this is followed by `|`. -/
  prev : Option δ
  /-- The read end and the write end of the pipe of the command that is started, if it has one. -/
  own : Option δ × Option δ
  /-- The write ends of the pipes of other commands, in this line and those that it is part of. -/
  others : List δ

/-- Nothing is known yet. -/
def Watch.start {δ : Type} : Watch δ := ⟨fun _ => none, none, (none, none), []⟩

/-- The descriptors 0, 1 and 2 are open. -/
def Standard {δ : Type} (t : Table δ) : Prop := t 0 ≠ none ∧ t 1 ≠ none ∧ t 2 ≠ none

/-- None of the files `ys` is open. -/
def Unheld {δ : Type} (ys : List δ) (t : Table δ) : Prop := ∀ y ∈ ys, ∀ fd, t fd ≠ some y

section

variable {κ δ : Type} {K : Kernel Call Call.Answer κ} (table : κ → Table δ) (made : κ → Set δ)

def watch (g : Watch δ) : Mark × κ → Watch δ
  | (.line, s) => ⟨table s, none, (none, none), g.others⟩
  | (.start _, _) => ⟨g.initial, g.prev, (none, none), g.others⟩
  | (.piped readEnd writeEnd, s) =>
    ⟨g.initial, g.prev, (table s readEnd, table s writeEnd), g.others⟩
  | (.back _, _) => ⟨g.initial, g.own.1, (none, none), g.own.2.toList ++ g.others⟩
  | (.child, _) | (.exec _, _) | (.returns, _) => g

/-- The table of a shell that holds the read end `pipe` of a pipe, if there is one, at `fd`. -/
def Between (initial : Table δ) (pipe : Option δ) (fd : ℤ) (t : Table δ) : Prop :=
  match pipe with
  | none => fd = 0 ∧ t = initial
  | some x => 2 < fd ∧ initial fd = none ∧ t = update initial fd (some x)

/-- The table of a child: its input is the pipe of the command before, and its output the own pipe,
if there are such, and all else is as in the shell. -/
def route (initial : Table δ) (prev own : Option δ) : Table δ :=
  update (update initial 0 (prev.or (initial 0))) 1 (own.or (initial 1))

/-- The table is as it should be at the mark. -/
def Routed (g : Watch δ) : Mark × κ → Prop
  | (.start _, s) => Unheld g.others (table s) ∧ ∃ fd, Between g.initial g.prev fd (table s)
  | (.child, s) => Unheld g.others (table s) ∧ table s = route g.initial g.prev g.own.2
  | (.back _, s) => Unheld (g.own.2.toList ++ g.others) (table s) ∧
      ∃ fd, Between g.initial g.own.1 fd (table s)
  | (.returns, s) => Unheld g.others (table s) ∧ table s = g.initial
  | (.line, s) | (.exec _, s) => Unheld g.others (table s)
  | (.piped _ _, _) => True

/-- A process that has 0, 1 and 2 open and none of the write ends `ys`, which exist. -/
structure Kept (ys : List δ) (s : κ) : Prop where
  standard : Standard (table s)
  made : ∀ y ∈ ys, y ∈ made s
  unheld : Unheld ys (table s)

/-- The shell between two commands, with `pass_pipefd` at `fd`. -/
structure Turn (g : Watch δ) (fd : ℤ) (s : κ) : Prop where
  kept : Kept table made g.others s
  between : Between g.initial g.prev fd (table s)

/-- `t'` is `t` with the ends of a new pipe at `pipefd`, if there is one. -/
inductive Extended (t : Table δ) : Option δ × Option δ → Option (ℤ × ℤ) → Table δ → Prop
  | none : Extended t (none, none) none t
  | some {r w : ℤ} (x y : δ) (hr : 2 < r) (hw : 2 < w) (hne : r ≠ w) (htr : t r = none)
      (htw : t w = none) :
    Extended t (some x, some y) (some (r, w)) (update (update t r (some x)) w (some y))

/-- The parent and the child after `fork`, with the shell's own pipe at `pipefd`. -/
structure Forked (g : Watch δ) (fd : ℤ) (pipefd : Option (ℤ × ℤ)) (s : κ) : Prop where
  kept : Kept table made g.others s
  made : ∀ y ∈ g.own.2, y ∈ made s
  /-- The own write end is at no other place. -/
  own : ∀ y ∈ g.own.2, g.own.1 ≠ some y ∧ ∀ fd, g.initial fd ≠ some y
  extended : ∃ t, Between g.initial g.prev fd t ∧ Extended t g.own pipefd (table s)

variable {table made}

/-- Calls that leave the table alone keep what is kept. -/
theorem Kept.congr {ys : List δ} {s s' : κ} (h : Kept table made ys s) (ht : table s' = table s)
    (hm : made s ⊆ made s') : Kept table made ys s' where
  standard := by rw [ht]; exact h.standard
  made y hy := hm (h.made y hy)
  unheld := by rw [ht]; exact h.unheld

/-- Calls that leave the table alone keep the state at the start of a turn. -/
theorem Turn.congr {g : Watch δ} {fd : ℤ} {s s' : κ} (h : Turn table made g fd s)
    (ht : table s' = table s) (hm : made s ⊆ made s') : Turn table made g fd s' where
  kept := h.kept.congr ht hm
  between := by rw [ht]; exact h.between

/-- Calls that leave the table alone keep the state after the pipe. -/
theorem Forked.congr {g : Watch δ} {fd : ℤ} {pipefd : Option (ℤ × ℤ)} {s s' : κ}
    (h : Forked table made g fd pipefd s) (ht : table s' = table s) (hm : made s ⊆ made s') :
    Forked table made g fd pipefd s' where
  kept := h.kept.congr ht hm
  made y hy := hm (h.made y hy)
  own := h.own
  extended := by rw [ht]; exact h.extended

/-! ## The tables of parent and child -/

/-- Between two commands, descriptors other than the pipe are as at the start. -/
theorem Between.apply_initial {initial t : Table δ} {pipe : Option δ} {fd i : ℤ}
    (h : Between initial pipe fd t) (hi : i ≤ 2 ∨ i ≠ fd) : t i = initial i := by
  cases pipe with
  | none => rw [h.2]
  | some x =>
    obtain ⟨hfd, -, rfl⟩ := h
    exact Function.update_of_ne (by omega) _ _

/-- Between two commands, what was open at the start is open. -/
theorem Between.of_initial {initial t : Table δ} {pipe : Option δ} {fd i : ℤ} {y : δ}
    (h : Between initial pipe fd t) (hi : initial i = some y) : t i = some y := by
  cases pipe with
  | none => rw [h.2, hi]
  | some x =>
    have hne : i ≠ fd := by
      rintro rfl
      rw [h.2.1] at hi
      cases hi
    rw [h.apply_initial (.inr hne), hi]

/-- Once the pipe is closed, the table is the one at the start. -/
theorem Between.eq_update {initial t : Table δ} {pipe : Option δ} {fd : ℤ}
    (h : Between initial pipe fd t) (hfd : fd ≠ 0) : update t fd none = initial := by
  cases pipe with
  | none => exact absurd h.1 hfd
  | some x =>
    obtain ⟨-, hnone, rfl⟩ := h
    rw [Function.update_idem, ← hnone, Function.update_eq_self]

/-- The child has the pipe of the command before at 0. -/
theorem Between.apply_fd {initial t : Table δ} {pipe : Option δ} {fd : ℤ}
    (h : Between initial pipe fd t) : t fd = pipe.or (initial 0) := by
  cases pipe with
  | none =>
    obtain ⟨rfl, rfl⟩ := h
    rfl
  | some x =>
    obtain ⟨-, -, rfl⟩ := h
    exact Function.update_self _ _ _

/-- The table after the child has moved the pipe of the command before to 0. -/
def moved (t : Table δ) (fd : ℤ) : Table δ :=
  if fd = 0 then update t 0 (t fd) else update (update t 0 (t fd)) fd none

/-- With the pipe moved to standard input, the table is the one at the start but for it. -/
theorem Between.moved {initial t : Table δ} {pipe : Option δ} {fd : ℤ}
    (h : Between initial pipe fd t) : moved t fd = update initial 0 (pipe.or (initial 0)) := by
  cases pipe with
  | none =>
    obtain ⟨rfl, rfl⟩ := h
    rfl
  | some x =>
    obtain ⟨hfd, hnone, rfl⟩ := h
    funext i
    simp only [Lab2.moved, Function.update_apply, Option.some_or]
    grind

/-- The ends of the own pipe do not interfere with the move. -/
theorem moved_update {t : Table δ} {fd r w : ℤ} {x y : δ} (hr : 2 < r) (hw : 2 < w) (hfdr : fd ≠ r)
    (hfdw : fd ≠ w) : moved (update (update t r (some x)) w (some y)) fd =
      update (update (moved t fd) r (some x)) w (some y) := by
  funext i
  simp only [moved, Function.update_apply]
  grind

/-- The child's calls for its new pipe end in the routed table. -/
theorem route_eq {initial t : Table δ} {prev : Option δ} {r w : ℤ} {x y : δ} (hr : 2 < r)
    (hw : 2 < w) (htr : t r = none) (htw : t w = none)
    (ht : t = update initial 0 (prev.or (initial 0))) :
    update (update (update (update (update t r (some x)) w (some y)) 1 (some y)) r none) w none =
      route initial prev (some y) := by
  rw [route, ← ht]
  funext i
  simp only [Function.update_apply, Option.some_or]
  grind

/-! ## The child -/

/-- The standard descriptors are open. -/
theorem Standard.ne_none {t : Table δ} (h : Standard t) {fd : ℤ} (hfd : fd = 0 ∨ fd = 1 ∨ fd = 2) :
    t fd ≠ none := by
  rcases hfd with rfl | rfl | rfl
  · exact h.1
  · exact h.2.1
  · exact h.2.2

/-- `dup2` keeps what is kept. -/
theorem Kept.dup {ys : List δ} {s s' : κ} {oldfd newfd : ℤ} (h : Kept table made ys s)
    (hold : table s oldfd ≠ none) (ht : table s' = update (table s) newfd (table s oldfd))
    (hm : made s ⊆ made s') : Kept table made ys s' where
  standard := by
    obtain ⟨h0, h1, h2⟩ := h.standard
    rw [ht]
    refine ⟨?_, ?_, ?_⟩ <;> rw [Function.update_apply] <;> split_ifs <;> assumption
  made y hy := hm (h.made y hy)
  unheld y hy fd := by
    rw [ht, Function.update_apply]
    split_ifs <;> exact h.unheld y hy _

/-- Closing a descriptor above 2 keeps what is kept. -/
theorem Kept.closed {ys : List δ} {s s' : κ} {fd : ℤ} (h : Kept table made ys s) (hfd : 2 < fd)
    (ht : table s' = update (table s) fd none) (hm : made s ⊆ made s') : Kept table made ys s' where
  standard := by
    obtain ⟨h0, h1, h2⟩ := h.standard
    rw [ht]
    refine ⟨?_, ?_, ?_⟩ <;> rwa [Function.update_of_ne (by omega)]
  made y hy := hm (h.made y hy)
  unheld y hy i := by
    rw [ht, Function.update_apply]
    split_ifs
    · simp
    · exact h.unheld y hy i

/-- A new file keeps what is kept. -/
theorem Kept.opened {ys : List δ} {s s' : κ} {fd : ℤ} {x : δ} (h : Kept table made ys s)
    (hx : x ∉ made s) (ht : table s' = update (table s) fd (some x)) (hm : made s ⊆ made s') :
    Kept table made ys s' where
  standard := by
    obtain ⟨h0, h1, h2⟩ := h.standard
    rw [ht]
    refine ⟨?_, ?_, ?_⟩ <;> rw [Function.update_apply] <;> split_ifs <;> first | assumption | simp
  made y hy := hm (h.made y hy)
  unheld y hy i := by
    rw [ht, Function.update_apply]
    split_ifs
    · intro hxy
      exact hx (Option.some.inj hxy ▸ h.made y hy)
    · exact h.unheld y hy i

variable {g : Watch δ} {s : κ}

/-- `dup2` of an open descriptor copies it. -/
theorem dup2_open (hK : Descriptors K table made) {s s' : κ} {oldfd newfd a : ℤ} (hnew : 0 ≤ newfd)
    (hopen : table s oldfd ≠ none) (h : K.call s (.dup2 oldfd newfd) = some (a, s')) :
    table s' = update (table s) newfd (table s oldfd) := by
  rw [hK.dup2 hnew h, if_neg hopen]

/-- The child moves the pipe of the command before to 0. -/
theorem moveInput_always (hK : Descriptors K table made) {fd : ℤ} {Q : Unit → Watch δ → κ → Prop}
    (rest : Shell Unit) (hkept : Kept table made g.others s) (hfd : fd = 0 ∨ 2 < fd)
    (hopen : table s fd ≠ none)
    (hrest : ∀ s', Kept table made g.others s' → table s' = moved (table s) fd →
      rest.Always K (watch table) (Routed table) Q g s') :
    (do
      let _ ← sys (.dup2 fd 0)
      if fd ≠ 0 then
        let _ ← sys (.close fd)
      rest : Shell Unit).Always K (watch table) (Routed table) Q g s := by
  intro a s₁ h₁
  have ht₁ := dup2_open hK le_rfl hopen h₁
  have hkept₁ := hkept.dup hopen ht₁ (hK.made_subset h₁)
  -- An input already on 0 stays; any other is moved there and its number closed.
  rcases hfd with rfl | hfd
  · exact hrest s₁ hkept₁ (by rw [ht₁, moved, if_pos rfl])
  · rw [if_pos (by omega)]
    intro b s₂ h₂
    have ht₂ := hK.close h₂
    exact hrest s₂ (hkept₁.closed hfd ht₂ (hK.made_subset h₂))
      (by rw [ht₂, ht₁, moved, if_neg (by omega)])

/-- The child gets to its redirections with the tables of the pipes in place. -/
theorem childPipes_always (hK : Descriptors K table made) {fd : ℤ} {pipefd : Option (ℤ × ℤ)}
    (h : Forked table made g fd pipefd s) :
    (childPipes fd pipefd).Always K (watch table) (Routed table)
      (fun _ g' s' => g' = g ∧ Kept table made g.others s' ∧
        table s' = route g.initial g.prev g.own.2) g s := by
  obtain ⟨hkept, -, -, t, hbetween, hextended⟩ := h
  obtain ⟨initial, prev, own, others⟩ := g
  dsimp only at hkept hbetween hextended ⊢
  have hfd : fd = 0 ∨ 2 < fd := by
    cases prev with
    | none => exact .inl hbetween.1
    | some x => exact .inr hbetween.1
  generalize htable : table s = t' at hextended
  -- The ends of the pipes are beyond the standard descriptors.
  have hle : ∀ i ≤ 2, t' i = initial i := by
    intro i hi
    cases hextended with
    | none => exact hbetween.apply_initial (.inl hi)
    | some x y hr hw =>
      rw [Function.update_of_ne (by omega), Function.update_of_ne (by omega)]
      exact hbetween.apply_initial (.inl hi)
  have hstandard : initial 0 ≠ none := by
    rw [← hle 0 (by omega), ← htable]
    exact hkept.standard.1
  have hopen : t fd ≠ none := by
    rw [hbetween.apply_fd]
    cases prev <;> simp [hstandard]
  -- Without a pipe of its own the child only moves its input.
  cases hextended with
  | none =>
    refine moveInput_always hK _ hkept hfd (by rwa [htable]) fun s' hkept' ht' => ?_
    refine ⟨rfl, hkept', ?_⟩
    rw [ht', htable, hbetween.moved, route, Option.none_or]
    have hone : update initial 0 (prev.or (initial 0)) 1 = initial 1 :=
      Function.update_of_ne (by decide) _ _
    rw [← hone, Function.update_eq_self]
  | some x y hr hw hne htr htw =>
    rename_i r w
    -- With one, it also moves the write end to its output and closes both ends.
    have hfdr : fd ≠ r := fun heq => hopen (heq ▸ htr)
    have hfdw : fd ≠ w := fun heq => hopen (heq ▸ htw)
    have hopen' : table s fd ≠ none := by
      rwa [htable, Function.update_of_ne hfdw, Function.update_of_ne hfdr]
    refine moveInput_always hK _ hkept hfd hopen' fun s₀ hkept₀ ht₀ => ?_
    rw [htable, moved_update hr hw hfdr hfdw] at ht₀
    intro a₁ s₁ h₁
    have hw₀ : table s₀ w = some y := by rw [ht₀, Function.update_self]
    have ht₁ := dup2_open hK (by decide) (by simp [hw₀]) h₁
    have hkept₁ := hkept₀.dup (by simp [hw₀]) ht₁ (hK.made_subset h₁)
    intro a₂ s₂ h₂
    have hkept₂ := hkept₁.closed hr (hK.close h₂) (hK.made_subset h₂)
    intro a₃ s₃ h₃
    refine ⟨rfl, hkept₂.closed hw (hK.close h₃) (hK.made_subset h₃), ?_⟩
    rw [hK.close h₃, hK.close h₂, ht₁, hw₀, ht₀]
    refine route_eq hr hw ?_ ?_ hbetween.moved
    · rw [hbetween.moved, Function.update_of_ne (by omega),
        ← hbetween.apply_initial (.inr hfdr.symm)]
      exact htr
    · rw [hbetween.moved, Function.update_of_ne (by omega),
        ← hbetween.apply_initial (.inr hfdw.symm)]
      exact htw

/-- A redirection happens with the pipes in place, and keeps what is kept. -/
theorem redirect_always (hK : Descriptors K table made) (file : Option Text) {fd : ℤ}
    (hfd : fd = 0 ∨ fd = 1 ∨ fd = 2) (writing : Bool) (h : Kept table made g.others s) :
    (redirect file fd writing).Always K (watch table) (Routed table)
      (fun _ g' s' => g' = g ∧ Kept table made g.others s') g s := by
  cases file with
  | none => exact ⟨rfl, h⟩
  | some path =>
    intro (opened : ℤ) s₁ h₁ a s₂ h₂ b s₃ h₃
    refine ⟨rfl, ?_⟩
    have hnonneg : 0 ≤ fd := by omega
    have hgrows := ((hK.made_subset h₁).trans (hK.made_subset h₂)).trans (hK.made_subset h₃)
    rcases hK.openFile h₁ with ⟨hneg, ht₁⟩ | ⟨hopened, hnone, x, hx, ht₁⟩
    · -- Neither `dup2` nor `close` does anything.
      refine h.congr ?_ hgrows
      rw [hK.close h₃, hK.dup2 hnonneg h₂, if_pos (hK.neg _ hneg), ht₁, ← hK.neg s hneg,
        Function.update_eq_self]
    -- An opened file has a number above 2, since the standard ones are all in use.
    · have hkept₁ := h.opened hx ht₁ (hK.made_subset h₁)
      have hopen : table s₁ opened ≠ none := by simp [ht₁]
      have hkept₂ := hkept₁.dup hopen (dup2_open hK hnonneg hopen h₂) (hK.made_subset h₂)
      have hbig : 2 < opened := by
        by_contra hle
        have hsmall : opened = 0 ∨ opened = 1 ∨ opened = 2 := by omega
        exact h.standard.ne_none hsmall hnone
      exact hkept₂.closed hbig (hK.close h₃) (hK.made_subset h₃)

/-- The child does not return from `cmd_exec`. -/
theorem childBody_always (hK : Descriptors K table made) (argv : List Text) {sub : Option (Shell ℤ)}
    (hsub : ∀ line ∈ sub, line.Always K (watch table) (Routed table) (fun _ _ _ => True) g s)
    (h : Kept table made g.others s) :
    (childBody argv sub).Always K (watch table) (Routed table) (fun _ _ _ => False) g s := by
  unfold childBody
  cases sub with
  | some line =>
    -- A subshell's line comes back to `exit`, which ends the child.
    refine Prog.always_bind (hsub line rfl) fun a g' s' _ => ?_
    split_ifs <;> exact (exit_ends _).always
  | none =>
    cases argv with
    | nil => exact (exit_ends _).always
    | cons name args =>
      dsimp only
      split_ifs
      · exact (cdChild_ends args).always
      · exact (exitChild_ends args).always
      · exact (pwdChild_ends args).always
      · refine ⟨h.unheld, fun r s' hexec => ?_⟩
        -- The kernel's `execvp` does not return.
        rw [hK.execvp] at hexec
        cases hexec

/-- The child has its pipes in place at its marks, if its subshell has. -/
theorem childBranch_always (hK : Descriptors K table made) (argv : List Text)
    (f : Fin 3 → Option Text) {sub : Option (Shell ℤ)} {fd : ℤ} {pipefd : Option (ℤ × ℤ)}
    (hsub : ∀ line ∈ sub, ∀ s', Kept table made g.others s' →
      line.Always K (watch table) (Routed table) (fun _ _ _ => True) g s')
    (h : Forked table made g fd pipefd s) :
    (childBranch argv f sub fd pipefd).Always K (watch table) (Routed table)
      (fun _ _ _ => False) g s := by
  -- The child passes its pipes, then each redirection, and holds no pipe end beyond its own.
  refine Prog.always_bind (childPipes_always hK h) ?_
  rintro _ _ s₀ ⟨rfl, hkept₀, hroute⟩
  rw [Prog.note_bind]
  refine ⟨⟨hkept₀.unheld, hroute⟩, ?_⟩
  refine Prog.always_bind (redirect_always hK (f stdinFileno) (.inl rfl) false hkept₀) ?_
  rintro _ _ s₁ ⟨rfl, hkept₁⟩
  refine Prog.always_bind (redirect_always hK (f stdoutFileno) (.inr (.inl rfl)) true hkept₁) ?_
  rintro _ _ s₂ ⟨rfl, hkept₂⟩
  refine Prog.always_bind (redirect_always hK (f stderrFileno) (.inr (.inr rfl)) true hkept₂) ?_
  rintro _ _ s₃ ⟨rfl, hkept₃⟩
  exact childBody_always hK argv (fun line hline => hsub line hline s₃ hkept₃) hkept₃

/-! ## The parent -/

/-- What is known of the shell after `cmd_exec` has returned. -/
def Watch.after (g : Watch δ) : Watch δ :=
  ⟨g.initial, g.own.1, (none, none), g.own.2.toList ++ g.others⟩

/-- The read end of the own pipe, if there is one, is all that is left in the shell. -/
theorem Forked.after {fd fd' : ℤ} {pipefd : Option (ℤ × ℤ)} {s' : κ}
    (h : Forked table made g fd pipefd s) (hbetween : Between g.initial g.own.1 fd' (table s'))
    (hkept : Kept table made g.others s') (hm : made s ⊆ made s') :
    Turn table made g.after fd' s' where
  kept := by
    refine ⟨hkept.standard, ?_, ?_⟩
    -- The ends behind the parent now: its own pipe's and those it knew before.
    · intro y hy
      rcases List.mem_append.mp hy with hy | hy
      · exact hm (h.made y (by simpa using hy))
      · exact hkept.made y hy
    · intro y hy i hi
      rcases List.mem_append.mp hy with hy | hy
      · obtain ⟨hne, hinitial⟩ := h.own y (by simpa using hy)
        cases hread : g.own.1 with
        | none =>
          rw [hread] at hbetween
          exact hinitial i (hbetween.2 ▸ hi)
        | some x =>
          rw [hread] at hbetween hne
          rw [hbetween.2.2, Function.update_apply] at hi
          split_ifs at hi
          · exact hne hi
          · exact hinitial i hi
      · exact hkept.unheld y hy i hi
  between := hbetween

/-- Without the pipe of the command before, the process is like one that never had it. -/
theorem Forked.closePrev {fd : ℤ} {pipefd : Option (ℤ × ℤ)} {s' : κ}
    (h : Forked table made g fd pipefd s) (hfd : fd ≠ 0) (ht : table s' = update (table s) fd none)
    (hm : made s ⊆ made s') :
    Forked table made ⟨g.initial, none, g.own, g.others⟩ 0 pipefd s' := by
  -- `fd` is the read end that the previous command left.
  obtain ⟨t, hbetween, hextended⟩ := h.extended
  obtain ⟨hbig, hopen⟩ : 2 < fd ∧ t fd ≠ none := by
    cases hprev : g.prev with
    | none => exact absurd (hprev ▸ hbetween).1 hfd
    | some x =>
      rw [hprev] at hbetween
      exact ⟨hbetween.1, by simp [hbetween.2.2]⟩
  refine ⟨h.kept.closed hbig ht hm, fun y hy => hm (h.made y hy), h.own, g.initial, ⟨rfl, rfl⟩, ?_⟩
  dsimp only
  have hinitial : update t fd none = g.initial := hbetween.eq_update hfd
  generalize table s = t' at ht hextended
  generalize g.own = own at hextended
  cases hextended with
  | none =>
    rw [ht, hinitial]
    exact .none
  | some x y hr hw hne htr htw =>
    rename_i r w
    -- The new pipe's ends are numbers that were free, so closing `fd` leaves them alone.
    have hfdr : r ≠ fd := fun heq => hopen (heq ▸ htr)
    have hfdw : w ≠ fd := fun heq => hopen (heq ▸ htw)
    rw [ht, Function.update_comm hfdw, Function.update_comm hfdr, hinitial]
    refine .some x y hr hw hne ?_ ?_
    · rw [← hbetween.apply_initial (.inr hfdr), htr]
    · rw [← hbetween.apply_initial (.inr hfdw), htw]

/-- Without a pipe from before, the parent goes on with the new one, if there is one. -/
theorem parentPipes_zero_always (hK : Descriptors K table made) (g₀ : Watch δ)
    {pipefd : Option (ℤ × ℤ)} (h : Forked table made g 0 pipefd s) :
    (parentPipes 0 pipefd).Always K (watch table) (Routed table)
      (fun fd g' s' => g' = g₀ ∧ Turn table made g.after fd s') g₀ s := by
  obtain ⟨t, hbetween, hextended⟩ := h.extended
  -- With `fd` 0 there is no previous pipe, and the table between is the initial one.
  obtain rfl : t = g.initial := by
    cases hprev : g.prev with
    | none => exact (hprev ▸ hbetween).2
    | some x => exact absurd (hprev ▸ hbetween).1 (by decide)
  have hafter : ∀ {fd s'}, Between g.initial g.own.1 fd (table s') → Kept table made g.others s' →
      made s ⊆ made s' → Turn table made g.after fd s' := h.after
  obtain ⟨initial, prev, own, others⟩ := g
  dsimp only at hextended hafter
  generalize htable : table s = t' at hextended
  cases hextended with
  | none => exact ⟨rfl, hafter ⟨rfl, htable⟩ h.kept subset_rfl⟩
  | some x y hr hw hne htr htw =>
    -- The write end is closed; the read end goes to the next command.
    intro a s' hclose
    have ht := hK.close hclose
    refine ⟨rfl, hafter ⟨hr, htr, ?_⟩ (h.kept.closed hw ht (hK.made_subset hclose))
      (hK.made_subset hclose)⟩
    rw [ht, htable, Function.update_idem, Function.update_comm hne, ← htw, Function.update_eq_self]

/-- The parent closes the pipe from before and goes on with the new one. -/
theorem parentPipes_always (hK : Descriptors K table made) {fd : ℤ} {pipefd : Option (ℤ × ℤ)}
    (h : Forked table made g fd pipefd s) :
    (parentPipes fd pipefd).Always K (watch table) (Routed table)
      (fun fd' g' s' => g' = g ∧ Turn table made g.after fd' s') g s := by
  by_cases hfd : fd = 0
  · subst hfd
    exact parentPipes_zero_always hK g h
  · have hparent : parentPipes fd pipefd = .call (.close fd) fun _ => parentPipes 0 pipefd := by
      unfold parentPipes
      rw [if_pos hfd]
      rfl
    rw [hparent]
    intro a s' hclose
    have hzero := parentPipes_zero_always hK g
      (h.closePrev hfd (hK.close hclose) (hK.made_subset hclose))
    exact hzero

/-- The parent's part of `exit` leaves the table alone. -/
theorem parentExit_always (args : List Text) (pid : ℤ) {g' : Watch δ} {fd : ℤ}
    (h : Turn table made g' fd s) :
    (parentExit args pid).Always K (watch table) (Routed table)
      (fun _ g₁ s' => g₁ = g ∧ Turn table made g' fd s') g s := by
  unfold parentExit
  split
  · intro a s₁ _
    exact (exit_ends _).always
  · intro a s₁ _
    split_ifs
    · exact (exit_ends _).always
    · exact (exit_ends _).always
    · intro b s₂ _
      exact (exit_ends _).always
  · exact ⟨rfl, h⟩

/-- The parent's part of the builtins leaves the table alone. -/
theorem parentBuiltin_always (hK : Descriptors K table made) (argv : List Text) (pid : ℤ)
    {g' : Watch δ} {fd : ℤ} (h : Turn table made g' fd s) :
    (parentBuiltin argv pid).Always K (watch table) (Routed table)
      (fun _ g₁ s' => g₁ = g ∧ Turn table made g' fd s') g s := by
  cases argv with
  | nil => exact ⟨rfl, h⟩
  | cons name args =>
    unfold parentBuiltin
    dsimp only
    split_ifs
    · intro a s' hchdir
      exact parentExit_always args pid (h.congr (hK.chdir hchdir) (hK.made_subset hchdir))
    · intro a s' hchdir
      exact ⟨rfl, h.congr (hK.chdir hchdir) (hK.made_subset hchdir)⟩
    · exact parentExit_always args pid h
    · exact ⟨rfl, h⟩

/-- The parent's branch ends with the table of the next turn. -/
theorem parentBranch_always (hK : Descriptors K table made) (argv : List Text) (pid : ℤ) {fd : ℤ}
    {pipefd : Option (ℤ × ℤ)} (h : Forked table made g fd pipefd s) :
    (parentBranch argv fd pipefd pid).Always K (watch table) (Routed table)
      (fun fd' g' s' => g' = g ∧ Turn table made g.after fd' s') g s := by
  refine Prog.always_bind (parentPipes_always hK h) ?_
  rintro fd' _ s₁ ⟨rfl, hturn⟩
  refine Prog.always_bind (parentBuiltin_always hK argv pid hturn) ?_
  rintro _ _ s₂ ⟨rfl, hturn₂⟩
  exact ⟨rfl, hturn₂⟩

/-! ## `cmd_exec` and `cmd_line_exec` -/

variable (table made) in
/-- What `cmd_exec` leaves behind in the shell; a child does not come here. -/
structure Executed (g : Watch δ) (op : ControlOp) (y : ℤ × ℤ) (g' : Watch δ) (s' : κ) : Prop where
  pid : 0 < y.1
  initial : g'.initial = g.initial
  own : op ≠ .cmdPipe → g'.own.1 = none
  turn : Turn table made g'.after y.2 s'

/-- From `fork` on, parent and child have their pipes in place. -/
theorem forkExec_always (hK : Descriptors K table made) (argv : List Text) (f : Fin 3 → Option Text)
    {sub : Option (Shell ℤ)} {fd : ℤ} {pipefd : Option (ℤ × ℤ)}
    (hsub : ∀ line ∈ sub, ∀ s', Kept table made g.others s' →
      line.Always K (watch table) (Routed table) (fun _ _ _ => True) g s')
    (h : Forked table made g fd pipefd s) :
    (forkExec argv f sub fd pipefd).Always K (watch table) (Routed table)
      (fun y g' s' => 0 < y.1 ∧ g' = g ∧ Turn table made g.after y.2 s') g s := by
  unfold forkExec
  rw [Prog.forks_bind]
  refine ⟨fun hnone => absurd hnone (hK.fork_ne_none s), fun pid s' c hfork => ?_⟩
  obtain ⟨⟨ht, hm⟩, htc, hmc⟩ := hK.fork hfork
  have hpid : 0 < pid.1 := pid.2
  constructor
  -- First the parent, then the child.
  · beta_reduce
    rw [if_neg (by omega), if_neg (by omega)]
    refine Prog.always_bind (parentBranch_always hK argv pid (h.congr ht hm)) ?_
    rintro fd' _ s₁ ⟨rfl, hturn⟩
    exact ⟨hpid, rfl, hturn⟩
  · refine Prog.always_bind (childBranch_always hK argv f hsub (h.congr htc hmc)) ?_
    exact fun _ _ _ hfalse => hfalse.elim

/-- The descriptors of a new pipe are above 2. -/
theorem Turn.pipe (hK : Descriptors K table made) {fd : ℤ} {a : Option (ℤ × ℤ)} {s' : κ}
    (h : Turn table made g fd s) (hpipe : K.call s .pipe = some (a, s')) :
    ∃ r w, a = some (r, w) ∧
      Forked table made ⟨g.initial, g.prev, (table s' r, table s' w), g.others⟩ fd
      (some (r, w)) s' := by
  obtain ⟨r, w, x, y, rfl, hr, hw, hne, htr, htw, hx, hy, hxy, ht⟩ := hK.pipe hpipe
  have hm := hK.made_subset hpipe
  have hfree : ∀ {i : ℤ}, 0 ≤ i → table s i = none → 2 < i := by
    intro i hi hnone
    by_contra hle
    have hsmall : i = 0 ∨ i = 1 ∨ i = 2 := by omega
    exact h.kept.standard.ne_none hsmall hnone
  have htr' : table s' r = some x := by rw [ht, Function.update_of_ne hne, Function.update_self]
  have htw' : table s' w = some y := by rw [ht, Function.update_self]
  have hkept : Kept table made g.others s' := by
    refine ⟨?_, fun y hy => hm (h.kept.made y hy), ?_⟩
    · obtain ⟨h0, h1, h2⟩ := h.kept.standard
      have hsmall : ∀ i ≤ 2, table s' i = table s i := by
        intro i hi
        rw [ht, Function.update_of_ne (by have := hfree hw htw; omega),
          Function.update_of_ne (by have := hfree hr htr; omega)]
      rw [Standard, hsmall 0 (by decide), hsmall 1 (by decide), hsmall 2 le_rfl]
      exact ⟨h0, h1, h2⟩
    · intro z hz i hi
      rw [ht, Function.update_apply, Function.update_apply] at hi
      split_ifs at hi
      · exact hy (Option.some.inj hi ▸ h.kept.made z hz)
      · exact hx (Option.some.inj hi ▸ h.kept.made z hz)
      · exact h.kept.unheld z hz i hi
  refine ⟨r, w, rfl, hkept, ?_, ?_, table s, h.between, ?_⟩
  · rintro z hz
    exact hK.mem_made hz
  · rintro z hz
    obtain rfl : y = z := by simpa [htw'] using hz
    -- The shell has all that is in its initial table, and what it has is older than the pipe.
    exact ⟨by simpa [htr'] using hxy, fun i hi => hy (hK.mem_made (h.between.of_initial hi))⟩
  · dsimp only
    rw [htr', htw', ht]
    exact .some x y (hfree hr htr) (hfree hw htw) hne htr htw

/-- Without a new pipe, the state after the pipe is that at the start of the turn. -/
theorem Turn.forked {fd : ℤ} (h : Turn table made g fd s) (hown : g.own = (none, none)) :
    Forked table made g fd none s where
  kept := h.kept
  made y hy := by simp [hown] at hy
  own y hy := by simp [hown] at hy
  extended := ⟨table s, h.between, hown ▸ .none⟩

/-- `cmd_exec` has its pipes in place at its marks, and leaves the table of the next turn. -/
theorem cmdExec_always (hK : Descriptors K table made) (pos : Pos) (argv : List Text)
    (f : Fin 3 → Option Text) {sub : Option (Shell ℤ)} {op : ControlOp} {hasNext : Bool} {fd : ℤ}
    (hop : op = .cmdPipe → hasNext = true)
    (hsub : ∀ line ∈ sub, ∀ g' s', g'.others = g.others → Kept table made g'.others s' →
      line.Always K (watch table) (Routed table) (fun _ _ _ => True) g' s')
    (h : Turn table made g fd s) :
    (cmdExec pos argv f sub op hasNext fd).Always K (watch table) (Routed table)
      (Executed table made g op) g s := by
  unfold cmdExec
  rw [Prog.note_bind]
  refine ⟨⟨h.kept.unheld, fd, h.between⟩, ?_⟩
  -- The marks only change the own pipe.
  have hlines : ∀ own : Option δ × Option δ, ∀ line ∈ sub, ∀ s', Kept table made g.others s' →
      line.Always K (watch table) (Routed table) (fun _ _ _ => True)
        ⟨g.initial, g.prev, own, g.others⟩ s' :=
    fun own line hline s' hkept => hsub line hline _ s' rfl hkept
  split_ifs with hpipe hnext
  · simp [hop hpipe] at hnext
  · intro a s' hcall
    obtain ⟨r, w, rfl, hforked⟩ := Turn.pipe hK h hcall
    refine ⟨trivial, ?_⟩
    refine Prog.always_imp (forkExec_always hK argv f (hlines _) hforked) ?_
    rintro y _ s₁ ⟨hpid, rfl, hturn⟩
    exact ⟨hpid, rfl, fun hne => absurd hpipe hne, hturn⟩
  · have hforked : Forked table made ⟨g.initial, g.prev, (none, none), g.others⟩ fd none s :=
      Turn.forked ⟨h.kept, h.between⟩ rfl
    refine Prog.always_imp (forkExec_always hK argv f (hlines _) hforked) ?_
    rintro y _ s₁ ⟨hpid, rfl, hturn⟩
    exact ⟨hpid, rfl, fun _ => rfl, hturn⟩

/-- A line ends with the table at its start. -/
theorem lineDone_always {fd : ℤ} (status : ℤ) (h : Turn table made g fd s)
    (hprev : g.prev = none) :
    (lineDone status).Always K (watch table) (Routed table)
    (fun _ _ s' => table s' = g.initial) g s := by
  have heq : table s = g.initial := by
    have hbetween := h.between
    rw [hprev] at hbetween
    exact hbetween.2
  exact ⟨⟨h.kept.unheld, heq⟩, heq⟩

/-- What follows `cmd_exec` ends with the table at the start, when the rest of the line does. -/
theorem afterExec_always (hK : Descriptors K table made) {op : ControlOp} {status : ℤ} {y : ℤ × ℤ}
    {goOn : ℤ → Shell ℤ} {g' : Watch δ} (h : Executed table made g op y g' s)
    (hgo : ∀ status s', Turn table made g'.after y.2 s' → (goOn status).Always K (watch table)
      (Routed table) (fun _ _ s' => table s' = g.initial) g'.after s') :
    (afterExec op status y.1 goOn).Always K (watch table) (Routed table)
      (fun _ _ s' => table s' = g.initial) g' s := by
  obtain ⟨hpid, hinitial, hown, hturn⟩ := h
  -- A wait changes nothing, and then the line goes on or is done.
  have hwait : op ≠ .cmdPipe → ∀ {a s'}, K.call s (.waitpid y.1) = some (a, s') →
      Turn table made g'.after y.2 s' ∧ ∀ status, (lineDone status).Always K (watch table)
        (Routed table) (fun _ _ s' => table s' = g.initial) g'.after s' := by
    intro hop a s' hcall
    have hturn' := hturn.congr (hK.waitpid hcall) (hK.made_subset hcall)
    exact ⟨hturn', fun status => hinitial ▸ lineDone_always status hturn' (hown hop)⟩
  unfold afterExec
  rw [Prog.note_bind, if_neg (by omega)]
  refine ⟨⟨hturn.kept.unheld, y.2, hturn.between⟩, ?_⟩
  cases op with
  | cmdEnd | cmdSemicolon =>
    refine Prog.always_sys_bind fun a s' hcall => ?_
    obtain ⟨hturn', hdone⟩ := hwait (by decide) hcall
    split_ifs
    · exact hgo _ s' hturn'
    · exact hdone _
  | cmdBackground | cmdPipe => exact hgo _ s hturn
  | cmdAnd =>
    refine Prog.always_sys_bind fun a s' hcall => ?_
    obtain ⟨hturn', hdone⟩ := hwait (by decide) hcall
    split_ifs
    · exact hgo _ s' hturn'
    · exact hdone _
  | cmdOr =>
    refine Prog.always_sys_bind fun a s' hcall => ?_
    obtain ⟨hturn', hdone⟩ := hwait (by decide) hcall
    dsimp only
    split_ifs
    · exact hdone _
    · exact hgo _ s' hturn'
    · exact hdone _
    · exact hgo _ s' hturn'

/-- A line that starts with an empty hand. -/
theorem cmdLineExec_always {c : Command} {pos : Pos}
    (hloop : ∀ g' s', g'.prev = none → Turn table made g' 0 s' → (cmdLoop c pos 0 0).Always K
      (watch table) (Routed table) (fun _ _ s' => table s' = g'.initial) g' s')
    (h : Kept table made g.others s) :
    (cmdLineExec c pos).Always K (watch table) (Routed table)
    (fun _ _ s' => table s' = table s) g s :=
  ⟨h.unheld, hloop ⟨table s, none, (none, none), g.others⟩ s rfl ⟨h, rfl, rfl⟩⟩

/-- The loop has the pipes in place at all marks, and ends with the table at its start. -/
theorem cmdLoop_always (hK : Descriptors K table made) {c : Command} (hwf : c.WellFormed)
    (pos : Pos) (status fd : ℤ) (g : Watch δ) (s : κ) (hlast : g.prev ≠ none → c ≠ .null)
    (h : Turn table made g fd s) :
    (cmdLoop c pos status fd).Always K (watch table) (Routed table)
      (fun _ _ s' => table s' = g.initial) g s := by
  induction c generalizing pos status fd g s with
  | null =>
    intro a s' hcall
    have hprev : g.prev = none := by
      by_contra hne
      exact hlast hne rfl
    exact lineDone_always status (h.congr (hK.reap hcall) (hK.made_subset hcall)) hprev
  | mk argv f sub op next ihsub ihnext =>
    obtain ⟨-, -, hnull, -, hwfsub, hwfnext⟩ := hwf
    rw [cmdLoop_mk]
    refine Prog.always_bind (cmdExec_always hK pos argv f ?_ ?_ h) ?_
    -- A pipe is made only when a command follows.
    · rintro rfl
      simp only [decide_eq_true_eq]
      intro hnone
      simpa using hnull hnone
    -- The child of a subshell evaluates the list inside.
    · intro line hline g' s' hothers hkept
      obtain rfl : line = cmdLineExec sub (true :: pos) := by
        rw [Option.mem_def, subshellExec] at hline
        split_ifs at hline
        exact (Option.some.inj hline).symm
      refine Prog.always_imp (cmdLineExec_always (fun g₁ s₁ hprev hturn => ?_) hkept)
        fun _ _ _ _ => trivial
      exact ihsub hwfsub (true :: pos) 0 0 g₁ s₁ (fun hne => absurd hprev hne) hturn
    -- The shell goes on, with the read end of a pipe only if there is a next command.
    · intro y g' s' hexec
      refine afterExec_always hK hexec fun status' s₁ hturn => ?_
      have hlast' : g'.after.prev ≠ none → next ≠ .null := by
        intro hne hnone
        refine hne (hexec.own ?_)
        rintro rfl
        simpa using hnull hnone
      exact Prog.always_imp (ihnext hwfnext (false :: pos) status' y.2 g'.after s₁ hlast' hturn)
        fun _ _ _ heq => heq.trans hexec.initial

/-- A process has the input and the output of its place in the line when it comes to its
redirections, the shell has nothing but the read end of the last pipe between two commands, and it
ends as it began. -/
theorem pipes_routed (hK : Descriptors K table made) {c : Command} (hwf : c.WellFormed) (pos : Pos)
    {s : κ} (hs : Standard (table s)) :
    (cmdLineExec c pos).Always K (watch table) (Routed table) (fun _ _ s' => table s' = table s)
      Watch.start s := by
  have hkept : Kept table made (Watch.start : Watch δ).others s :=
    ⟨hs, List.forall_mem_nil _, List.forall_mem_nil _⟩
  refine cmdLineExec_always (fun g s' hprev hturn => ?_) hkept
  exact cmdLoop_always hK hwf pos 0 0 g s' (fun hne => absurd hprev hne) hturn

end

/-! ## A line with a subshell -/

/-- A process that has nothing but descriptors: what was last put at each of them. -/
abbrev Descs : Type := List (ℤ × Option ℕ)

namespace Descs

def table (s : Descs) : Table ℕ := fun fd => if fd < 0 then none else (s.lookup fd).join

def made (s : Descs) : Set ℕ := {x | ∃ fd, (fd, some x) ∈ s}

/-- A number above all descriptors that have been in use, and all files. -/
def fresh : Descs → ℕ
  | [] => 0
  | (fd, a) :: s => fresh s + fd.natAbs + a.getD 0 + 1

def call (s : Descs) : (c : Call) → Option (c.Answer × Descs)
  | .pipe => some (some ((s.fresh : ℤ), s.fresh + 1), ((s.fresh : ℤ) + 1, some (s.fresh + 1)) ::
      ((s.fresh : ℤ), some s.fresh) :: s)
  | .dup2 oldfd newfd => some (if s.table oldfd = none then (-1, s)
      else (newfd, (newfd, s.table oldfd) :: s))
  | .close fd => some ((0 : ℤ), (fd, none) :: s)
  | .openFile _ _ => some ((s.fresh : ℤ), ((s.fresh : ℤ), some s.fresh) :: s)
  | .write _ _ | .perror _ | .chdir _ | .reap | .errno => some ((0 : ℤ), s)
  | .getcwd => some (none, s)
  | .execvp _ | .exit _ | .abort => none
  | .waitpid _ => some ((0 : BitVec 32), s)
  | .indeterminate => some ((0, 0), s)

def kernel : Kernel Call Call.Answer Descs where
  call := call
  fork s := some (⟨1, Int.one_pos⟩, s, s)

/-- The last entry of a descriptor counts. -/
theorem table_cons {fd : ℤ} {a : Option ℕ} (h : 0 ≤ fd ∨ a = none) (s : Descs) :
    table ((fd, a) :: s) = update s.table fd a := by
  funext i
  rw [Function.update_apply]
  by_cases hi : i = fd
  · subst hi
    rcases h with h | rfl
    · simp [table, h]
    · simp [table]
  · simp [table, List.lookup_cons, beq_eq_false_iff_ne.mpr hi, hi]

/-- Descriptors and files in use are below the next new one. -/
theorem lt_fresh {s : Descs} {fd : ℤ} {a : Option ℕ} (h : (fd, a) ∈ s) :
    fd < s.fresh ∧ a.getD 0 < s.fresh := by
  induction s with
  | nil => cases h
  | cons p s ih =>
    rw [fresh]
    rcases List.mem_cons.mp h with rfl | h
    · dsimp only
      omega
    · have := ih h
      omega

/-- What is open at a descriptor is an entry. -/
theorem mem_of_table {s : Descs} {fd : ℤ} {x : ℕ} (h : s.table fd = some x) : (fd, some x) ∈ s := by
  have hnonneg : ¬ fd < 0 := by
    intro hneg
    simp [table, hneg] at h
  rw [table, if_neg hnonneg, Option.join_eq_some_iff] at h
  obtain ⟨before, after, rfl, -⟩ := List.lookup_eq_some_iff.mp h
  simp

/-- A descriptor from the next new one on is not open. -/
theorem table_of_fresh_le {s : Descs} {fd : ℤ} (h : s.fresh ≤ fd) : s.table fd = none := by
  cases ht : s.table fd with
  | none => rfl
  | some x =>
    have := (lt_fresh (mem_of_table ht)).1
    omega

/-- A file from the next new one on has not been made. -/
theorem notMem_made_of_fresh_le {s : Descs} {x : ℕ} (h : s.fresh ≤ x) : x ∉ s.made := by
  rintro ⟨fd, hmem⟩
  have := (lt_fresh hmem).2
  rw [Option.getD_some] at this
  omega

/-- Files that have been made stay made. -/
theorem made_cons (p : ℤ × Option ℕ) (s : Descs) : s.made ⊆ made (p :: s) :=
  fun _ ⟨fd, h⟩ => ⟨fd, List.mem_cons_of_mem _ h⟩

/-- The kernel with a list of descriptors does to its table what the calls do. -/
theorem descriptors_kernel : Descriptors kernel table made where
  neg s fd hfd := by simp [table, hfd]
  mem_made h := ⟨_, mem_of_table h⟩
  made_subset {s s' c a} h := by
    cases c with
    | pipe =>
      rw [← (Prod.mk.inj (Option.some.inj h)).2]
      exact (made_cons _ s).trans (made_cons _ _)
    | dup2 oldfd newfd =>
      have h := Option.some.inj h
      split_ifs at h <;> rw [← (Prod.mk.inj h).2]
      exact made_cons _ s
    | close | openFile =>
      rw [← (Prod.mk.inj (Option.some.inj h)).2]
      exact made_cons _ s
    -- These calls leave the table alone.
    | write | perror | chdir | reap | errno | getcwd | waitpid | indeterminate =>
      rw [← (Prod.mk.inj (Option.some.inj h)).2]
    | execvp | exit | abort => cases h
  pipe {s s' a} h := by
    obtain ⟨rfl, rfl⟩ := Prod.mk.inj (Option.some.inj h)
    refine ⟨s.fresh, s.fresh + 1, s.fresh, s.fresh + 1, rfl, by omega, by omega, by omega,
      table_of_fresh_le le_rfl, table_of_fresh_le (by omega), notMem_made_of_fresh_le le_rfl,
      notMem_made_of_fresh_le (by omega), by omega, ?_⟩
    rw [table_cons (.inl (by omega)), table_cons (.inl (by omega))]
  dup2 {s s' oldfd newfd a} hnew h := by
    have h := Option.some.inj h
    split_ifs at h ⊢
    · rw [← (Prod.mk.inj h).2]
    · rw [← (Prod.mk.inj h).2, table_cons (.inl hnew)]
  close {s s' fd a} h := by
    rw [← (Prod.mk.inj (Option.some.inj h)).2, table_cons (.inr rfl)]
  openFile {s s' path writing fd} h := by
    obtain ⟨rfl, rfl⟩ := Prod.mk.inj (Option.some.inj h)
    exact .inr ⟨by omega, table_of_fresh_le le_rfl, s.fresh, notMem_made_of_fresh_le le_rfl,
      table_cons (.inl (by omega)) s⟩
  chdir h := by rw [← (Prod.mk.inj (Option.some.inj h)).2]
  waitpid h := by rw [← (Prod.mk.inj (Option.some.inj h)).2]
  reap h := by rw [← (Prod.mk.inj (Option.some.inj h)).2]
  execvp _ _ := rfl
  fork_ne_none _ := Option.some_ne_none _
  fork h := by
    obtain ⟨-, hs⟩ := Prod.mk.inj (Option.some.inj h)
    obtain ⟨rfl, rfl⟩ := Prod.mk.inj hs
    exact ⟨⟨rfl, subset_rfl⟩, rfl, subset_rfl⟩

end Descs

/-- `(a | b) | c > f` -/
theorem pipes_routed_subshell :
    (cmdLineExec (.mk [] (fun _ => none)
      (.mk [text "a"] (fun _ => none) .null .cmdPipe
        (.mk [text "b"] (fun _ => none) .null .cmdEnd .null))
      .cmdPipe (.mk [text "c"] ![none, some (text "f"), none] .null .cmdEnd .null)) []).Always
        Descs.kernel (watch Descs.table) (Routed Descs.table)
          (fun _ _ s => Descs.table s = Descs.table [(0, some 0), (1, some 1), (2, some 2)])
          Watch.start [(0, some 0), (1, some 1), (2, some 2)] :=
  pipes_routed Descs.descriptors_kernel
    (by simp [Command.WellFormed, maxtokens]) [] ⟨by decide, by decide, by decide⟩

end Cs5600.Lab2
