import Cs5600.Lab2.Accept
import Cs5600.Lab2.Exec

/-!
# Freeing a tree of commands

`cmd_free` goes through the strings of a command up to the first slot that is not set. The arguments
fill the front of their array, but a command may have an output file and no input file, and its file
name is then not freed.

`freesAll_iff` says which trees are freed whole: those in which no redirection is set after one that
is not. No tree has an object that is freed twice (`cmdFree_nodup`).
-/

namespace Cs5600.Lab2

/-- What is allocated for the tree: the command at `pos`, its strings, and those of its file
names. -/
inductive Obj
  | node (pos : Pos)
  | arg (pos : Pos) (i : ℕ)
  | file (pos : Pos) (i : ℕ)
deriving DecidableEq

/-- The command to which the object belongs. -/
def Obj.pos : Obj → Pos
  | .node pos | .arg pos _ | .file pos _ => pos

/-- The slots of `redirect_filename`. -/
def fileSlot (redirectFilename : Fin 3 → Option Text) (i : ℕ) : Option Text :=
  if h : i < 3 then redirectFilename ⟨i, h⟩ else none

/-- The slot of a descriptor is that of its number. -/
@[simp] theorem fileSlot_val (f : Fin 3 → Option Text) (fd : Fin 3) : fileSlot f fd = f fd :=
  dif_pos fd.2

/-- There are three slots. -/
theorem exists_of_fileSlot {f : Fin 3 → Option Text} {i : ℕ} (h : (fileSlot f i).isSome) :
    ∃ fd : Fin 3, i = fd := by
  by_contra hno
  rw [fileSlot, dif_neg fun hi => hno ⟨⟨i, hi⟩, rfl⟩] at h
  cases h

/-- `for (i = 0; i < n && slots[i]; i++)`: the turns of the loop. -/
def setFront (slots : ℕ → Option Text) (n : ℕ) : List ℕ :=
  (List.range n).takeWhile fun i => (slots i).isSome

/-- `cmd_free`: the objects that are passed to `free`, for the tree at `pos`. -/
def cmdFree : Command → Pos → List Obj
  | .null, _ => []
  | .mk argv redirectFilename subshell _ next, pos =>
    (setFront (argv[·]?) maxtokens).map (.arg pos) ++
      ((setFront (fileSlot redirectFilename) 3).map (.file pos) ++
        (cmdFree subshell (true :: pos) ++ (cmdFree next (false :: pos) ++ [.node pos])))

/-- The object is part of the tree at `pos`. -/
def Command.Owns : Command → Pos → Obj → Prop
  | .null, _, _ => False
  | .mk argv redirectFilename subshell _ next, pos, o =>
    o = .node pos ∨ (∃ i < argv.length, o = .arg pos i) ∨
      (∃ i, (fileSlot redirectFilename i).isSome ∧ o = .file pos i) ∨
      subshell.Owns (true :: pos) o ∨ next.Owns (false :: pos) o

/-- `cmd_free` frees each object of the tree exactly once. -/
def FreesAll (c : Command) : Prop := ∀ o, c.Owns [] o → (cmdFree c []).count o = 1

/-- Every command has room for its arguments, as `cmd_parse` sees to before it stores one. -/
def Command.Bounded : Command → Prop
  | .null => True
  | .mk argv _ subshell _ next => argv.length ≤ maxtokens ∧ subshell.Bounded ∧ next.Bounded

/-- In every command the redirections that are set come before those that are not. -/
def Command.FilesLead : Command → Prop
  | .null => True
  | .mk _ redirectFilename subshell _ next =>
    (∀ fd fd', fd ≤ fd' → (redirectFilename fd').isSome → (redirectFilename fd).isSome) ∧
      subshell.FilesLead ∧ next.FilesLead

instance Command.decidableBounded : (c : Command) → Decidable c.Bounded
  | .null => .isTrue trivial
  | .mk argv _ sub _ next =>
    have := sub.decidableBounded
    have := next.decidableBounded
    inferInstanceAs (Decidable (argv.length ≤ maxtokens ∧ sub.Bounded ∧ next.Bounded))

instance Command.decidableFilesLead : (c : Command) → Decidable c.FilesLead
  | .null => .isTrue trivial
  | .mk _ f sub _ next =>
    have := sub.decidableFilesLead
    have := next.decidableFilesLead
    inferInstanceAs (Decidable ((∀ fd fd', fd ≤ fd' → (f fd').isSome → (f fd).isSome) ∧
      sub.FilesLead ∧ next.FilesLead))

/-- A tree that parsing gives fits the arrays, so its `argv` ends before they do. -/
theorem Command.WellFormed.bounded {c : Command} (h : c.WellFormed) : c.Bounded := by
  induction c with
  | null => trivial
  | mk argv f sub op next ihsub ihnext =>
    obtain ⟨-, hlength, -, -, hsub, hnext⟩ := h
    exact ⟨hlength, ihsub hsub, ihnext hnext⟩

/-! ## The loops -/

/-- The loop gets to a slot when all slots up to it are set. -/
theorem mem_setFront {slots : ℕ → Option Text} {n i : ℕ} :
    i ∈ setFront slots n ↔ i < n ∧ ∀ j ≤ i, (slots j).isSome := by
  -- The loop from any start.
  have hfrom : ∀ n s, i ∈ (List.range' s n).takeWhile (fun i => (slots i).isSome) ↔
      s ≤ i ∧ i < s + n ∧ ∀ j, s ≤ j → j ≤ i → (slots j).isSome := by
    intro n
    induction n with
    | zero =>
      intro s
      simp only [List.range'_zero, List.takeWhile_nil, List.not_mem_nil, false_iff]
      omega
    | succ n ih =>
      intro s
      rw [List.range'_succ, List.takeWhile_cons]
      split_ifs with hs
      · rw [List.mem_cons, ih]
        constructor
        · rintro (rfl | ⟨hle, hlt, hset⟩)
          · refine ⟨le_rfl, by omega, fun j hj hji => ?_⟩
            rwa [le_antisymm hji hj]
          · refine ⟨by omega, by omega, fun j hj hji => ?_⟩
            rcases Nat.eq_or_lt_of_le hj with rfl | hj
            · exact hs
            · exact hset j hj hji
        · rintro ⟨hle, hlt, hset⟩
          rcases Nat.eq_or_lt_of_le hle with rfl | hle
          · exact .inl rfl
          · exact .inr ⟨hle, by omega, fun j hj hji => hset j (by omega) hji⟩
      · simp only [List.not_mem_nil, false_iff]
        exact fun ⟨hle, _, hset⟩ => hs (hset s le_rfl hle)
  rw [setFront, List.range_eq_range', hfrom]
  simp

/-- The loop gets to a slot once. -/
theorem nodup_setFront (slots : ℕ → Option Text) (n : ℕ) : (setFront slots n).Nodup :=
  List.nodup_range.sublist (List.takeWhile_sublist _)

/-- The arguments fill the front of their array. -/
theorem mem_setFront_argv {argv : List Text} {i : ℕ} :
    i ∈ setFront (argv[·]?) maxtokens ↔ i < maxtokens ∧ i < argv.length := by
  rw [mem_setFront]
  refine and_congr_right fun _ => ⟨fun h => by simpa using h i le_rfl, fun h j hj => ?_⟩
  simpa using hj.trans_lt h

/-! ## Where the objects are -/

/-- What is freed for a tree lies in it. -/
theorem pos_of_mem_cmdFree {c : Command} {pos : Pos} {o : Obj} (h : o ∈ cmdFree c pos) :
    pos <:+ o.pos := by
  induction c generalizing pos with
  | null => cases h
  | mk argv f sub op next ihsub ihnext =>
    simp only [cmdFree, List.mem_append, List.mem_map, List.mem_singleton] at h
    rcases h with ⟨i, -, rfl⟩ | ⟨i, -, rfl⟩ | h | h | rfl
    · exact List.suffix_rfl
    · exact List.suffix_rfl
    · exact (List.suffix_cons _ _).trans (ihsub h)
    · exact (List.suffix_cons _ _).trans (ihnext h)
    · exact List.suffix_rfl

/-- What belongs to a tree lies in it. -/
theorem Command.Owns.suffix {c : Command} {pos : Pos} {o : Obj} (h : c.Owns pos o) :
    pos <:+ o.pos := by
  induction c generalizing pos with
  | null => cases h
  | mk argv f sub op next ihsub ihnext =>
    rcases h with rfl | ⟨i, -, rfl⟩ | ⟨i, -, rfl⟩ | h | h
    · exact List.suffix_rfl
    · exact List.suffix_rfl
    · exact List.suffix_rfl
    · exact (List.suffix_cons _ _).trans (ihsub h)
    · exact (List.suffix_cons _ _).trans (ihnext h)

/-! ## What is freed -/

section Node

variable {argv : List Text} {f : Fin 3 → Option Text} {sub next : Command} {op : ControlOp}
  {pos : Pos}

/-- What is freed for a command: its words, its files, its subshell, the rest, and the node. -/
theorem mem_cmdFree {o : Obj} : o ∈ cmdFree (.mk argv f sub op next) pos ↔
    (∃ i ∈ setFront (argv[·]?) maxtokens, .arg pos i = o) ∨
      (∃ i ∈ setFront (fileSlot f) 3, .file pos i = o) ∨ o ∈ cmdFree sub (true :: pos) ∨
      o ∈ cmdFree next (false :: pos) ∨ o = .node pos := by
  simp only [cmdFree, List.mem_append, List.mem_map, List.mem_singleton]

/-- A file of a command is freed when the loop over the files gets to it. -/
theorem mem_cmdFree_file {i : ℕ} :
    .file pos i ∈ cmdFree (.mk argv f sub op next) pos ↔ i ∈ setFront (fileSlot f) 3 := by
  rw [mem_cmdFree]
  constructor
  · rintro (⟨j, -, h⟩ | ⟨j, hj, h⟩ | h | h | h)
    · cases h
    · cases h
      exact hj
    · exact absurd (pos_of_mem_cmdFree h) not_suffix_self
    · exact absurd (pos_of_mem_cmdFree h) not_suffix_self
    · cases h
  · exact fun hi => .inr (.inl ⟨i, hi, rfl⟩)

/-- What lies in the subshell is freed with it. -/
theorem mem_cmdFree_sub {o : Obj} (h : true :: pos <:+ o.pos) :
    o ∈ cmdFree (.mk argv f sub op next) pos ↔ o ∈ cmdFree sub (true :: pos) := by
  rw [mem_cmdFree]
  constructor
  · rintro (⟨j, -, rfl⟩ | ⟨j, -, rfl⟩ | hmem | hmem | rfl)
    · exact absurd h not_suffix_self
    · exact absurd h not_suffix_self
    · exact hmem
    · exact absurd (pos_of_mem_cmdFree hmem) (branches_differ h)
    · exact absurd h not_suffix_self
  · exact fun hmem => .inr (.inr (.inl hmem))

/-- What lies in the rest of the line is freed with it. -/
theorem mem_cmdFree_next {o : Obj} (h : false :: pos <:+ o.pos) :
    o ∈ cmdFree (.mk argv f sub op next) pos ↔ o ∈ cmdFree next (false :: pos) := by
  rw [mem_cmdFree]
  constructor
  · rintro (⟨j, -, rfl⟩ | ⟨j, -, rfl⟩ | hmem | hmem | rfl)
    · exact absurd h not_suffix_self
    · exact absurd h not_suffix_self
    · exact absurd h (branches_differ (pos_of_mem_cmdFree hmem))
    · exact hmem
    · exact absurd h not_suffix_self
  · exact fun hmem => .inr (.inr (.inr (.inl hmem)))

end Node

/-- Nothing is freed twice. -/
theorem cmdFree_nodup (c : Command) (pos : Pos) : (cmdFree c pos).Nodup := by
  induction c generalizing pos with
  | null => exact List.nodup_nil
  | mk argv f sub op next ihsub ihnext =>
    have hargs : ((setFront (argv[·]?) maxtokens).map (Obj.arg pos)).Nodup :=
      (nodup_setFront _ _).map fun i j h => (Obj.arg.inj h).2
    have hfiles : ((setFront (fileSlot f) 3).map (Obj.file pos)).Nodup :=
      (nodup_setFront _ _).map fun i j h => (Obj.file.inj h).2
    -- The strings of the command are no part of its list or subshell.
    have hown : ∀ o : Obj, o.pos = pos →
        o ∉ cmdFree sub (true :: pos) ∧ o ∉ cmdFree next (false :: pos) := by
      rintro o rfl
      exact ⟨fun h => not_suffix_self (pos_of_mem_cmdFree h),
        fun h => not_suffix_self (pos_of_mem_cmdFree h)⟩
    simp only [cmdFree, List.nodup_append]
    refine ⟨hargs, ⟨hfiles, ⟨ihsub _, ⟨ihnext _, List.nodup_singleton _, ?_⟩, ?_⟩, ?_⟩, ?_⟩
    · rintro o hnext o' ho' rfl
      rw [List.mem_singleton.mp ho'] at hnext
      exact (hown _ rfl).2 hnext
    · rintro o hsub o' hrest rfl
      rcases List.mem_append.mp hrest with hnext | hnode
      · exact branches_differ (pos_of_mem_cmdFree hsub) (pos_of_mem_cmdFree hnext)
      · rw [List.mem_singleton.mp hnode] at hsub
        exact (hown _ rfl).1 hsub
    · rintro o hfile o' hrest rfl
      obtain ⟨i, -, rfl⟩ := List.mem_map.mp hfile
      simp [hown (.file pos i) rfl] at hrest
    · rintro o harg o' hrest rfl
      obtain ⟨i, -, rfl⟩ := List.mem_map.mp harg
      simp [hown (.arg pos i) rfl] at hrest

/-- What is part of the tree is freed, when the redirections that are set lead. -/
theorem mem_cmdFree_iff {c : Command} (hc : c.Bounded) (pos : Pos) :
    (∀ o, c.Owns pos o → o ∈ cmdFree c pos) ↔ c.FilesLead := by
  -- Induction on the command: its own objects, then the two trees that hang off it.
  induction c generalizing pos with
  | null => exact iff_of_true (fun _ h => h.elim) trivial
  | mk argv f sub op next ihsub ihnext =>
    obtain ⟨hlength, hsub, hnext⟩ := hc
    constructor
    · intro h
      refine ⟨fun fd fd' hle hset => ?_, (ihsub hsub (true :: pos)).mp fun o ho => ?_,
        (ihnext hnext (false :: pos)).mp fun o ho => ?_⟩
      -- A file name that is set is freed only if every slot before it is set.
      · have howns : (Command.mk argv f sub op next).Owns pos (.file pos fd') :=
          .inr (.inr (.inl ⟨fd', by rwa [fileSlot_val], rfl⟩))
        have hfront := (mem_setFront.mp (mem_cmdFree_file.mp (h _ howns))).2 fd hle
        rwa [fileSlot_val] at hfront
      · exact (mem_cmdFree_sub ho.suffix).mp (h o (.inr (.inr (.inr (.inl ho)))))
      · exact (mem_cmdFree_next ho.suffix).mp (h o (.inr (.inr (.inr (.inr ho)))))
    · rintro ⟨hlead, hleadsub, hleadnext⟩ o (rfl | ⟨i, hi, rfl⟩ | ⟨i, hi, rfl⟩ | ho | ho)
      · exact mem_cmdFree.mpr (.inr (.inr (.inr (.inr rfl))))
      · exact mem_cmdFree.mpr (.inl ⟨i, mem_setFront_argv.mpr ⟨hi.trans_le hlength, hi⟩, rfl⟩)
      · obtain ⟨fd, rfl⟩ := exists_of_fileSlot hi
        rw [fileSlot_val] at hi
        refine mem_cmdFree_file.mpr (mem_setFront.mpr ⟨fd.2, fun j hj => ?_⟩)
        rw [show j = (⟨j, hj.trans_lt fd.2⟩ : Fin 3) from rfl, fileSlot_val]
        exact hlead ⟨j, hj.trans_lt fd.2⟩ fd hj hi
      · exact (mem_cmdFree_sub ho.suffix).mpr ((ihsub hsub _).mpr hleadsub o ho)
      · exact (mem_cmdFree_next ho.suffix).mpr ((ihnext hnext _).mpr hleadnext o ho)

/-- **`cmd_free` releases everything exactly once**, exactly when no command of the tree has a
redirection that is set after one that is not. -/
theorem freesAll_iff {c : Command} (hc : c.Bounded) : FreesAll c ↔ c.FilesLead := by
  rw [← mem_cmdFree_iff hc []]
  refine forall₂_congr fun o _ => ⟨fun h => ?_, fun h => ?_⟩
  · exact List.one_le_count_iff.mp h.ge
  · exact List.count_eq_one_of_mem (cmdFree_nodup c []) h

/-- A semicolon is an operator. -/
theorem isOperator_semicolon : TokenType.tokSemicolon.joins ∨ TokenType.tokSemicolon.separates :=
  .inr rfl

/-- `( a < x ; b ) < y > z` -/
def leadLine : Line :=
  .last (.paren (.cons (.simple (text "a") [.redir ⟨stdinFileno, text "x"⟩])
    ⟨.tokSemicolon, isOperator_semicolon⟩ (.last (.simple (text "b") [])))
    [⟨stdinFileno, text "y"⟩, ⟨stdoutFileno, text "z"⟩])

/-- All of `a < x ; b` is freed. -/
theorem freesAll_leadLine : FreesAll leadLine.command :=
  (freesAll_iff (by decide +kernel)).mpr (by decide +kernel)

/-- `a > x`: the file name is not freed. -/
theorem not_freesAll_redirect : ∃ c st,
    cmdLineParse 60 false (parseInit (text "a > x")) = .ok (c, st) ∧ ¬ FreesAll c := by
  obtain ⟨c, st, hrun, -, htree, -⟩ :=
    @cmdLineParse_accepts (text "a > x") (by decide +kernel) 60 (by decide)
  have hc : c = (Line.last (.simple (text "a") [.redir ⟨stdoutFileno, text "x"⟩])).command :=
    htree _ (by simp [Line.Fits, Cmd.Fits, words, maxtokens]) (by decide +kernel)
  refine ⟨c, st, hrun, fun hfrees => ?_⟩
  have hfile : c.Owns [] (.file [] 1) := by
    rw [hc]
    exact .inr (.inr (.inl ⟨1, by decide +kernel, rfl⟩))
  have hcount := hfrees _ hfile
  rw [hc] at hcount
  exact absurd hcount (by decide +kernel)

end Cs5600.Lab2
