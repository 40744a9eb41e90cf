import Cs5600.Lab1.Allocated

/-!
# The queue program

`queue_main.c` reads commands line by line and changes one queue. The tokens of a line are copied
into strings of their own, which are freed at the end of the line. An `enqueue` without an argument
ends the program there and then, after it has freed the queue and these strings.

`fifo` is what the program is for: a list, of which each line appends, takes or leaves something.
The program prints what it says, whatever addresses `malloc` returns, and on each of its ways out
all nodes and all strings have been freed (`main_eq_fifo`).
-/

namespace Cs5600.Lab1.QueueMain

/-- The nodes of the queue, and the strings of `argv`. -/
structure Memory where
  nodes : Nodes
  strings : Heap Text

/-- `malloc` and `strcpy` for each token. -/
def storeArgs (A : Allocator) : List Text → Heap Text → List ℕ × Heap Text
  | [], h => ([], h)
  | token :: tokens, h =>
    let (arg, h) := h.malloc A token
    let (argv, h) := storeArgs A tokens h
    (arg :: argv, h)

def stringAt (h : Heap Text) (arg : ℕ) : Except Fault Text :=
  match h.lookup arg with
  | none => .error .memory
  | some s => .ok s

/-- `process_cmd`: pointers to the first two tokens, the last of them without a newline at its end.
A line without a token is indexed at -1. -/
def processCmd (A : Allocator) (line : Text) (h : Heap Text) :
    Except Fault (List ℕ × Heap Text) := do
  let (argv, h) := storeArgs A ((tokens line).take 2) h
  match argv.getLast? with
  | none => throw .range
  | some arg =>
    let s ← stringAt h arg
    if s.getLast? = some 10 then return (argv, h.insert arg s.dropLast) else return (argv, h)

/-- `for(int i = 0; i < nbr_args; i++){ free(argv[i]); }` -/
def freeArgs : List ℕ → Heap Text → Except Fault (Heap Text)
  | [], h => .ok h
  | arg :: argv, h =>
    match h.free arg with
    | none => .error .memory
    | some h => freeArgs argv h

/-- `process_line`: whether it exits, what it prints, the queue and the memory. -/
def processLine (A : Allocator) (line : Text) (q : Queue) (m : Memory) :
    Except Fault (Bool × Text × Queue × Memory) := do
  let (argv, strings) ← processCmd A line m.strings
  match argv with
  | [] => throw .range
  | name :: args =>
    if (← stringAt strings name) = text "enqueue" then
      match args with
      -- `enqueue` without its argument ends the program.
      | [] =>
        let nodes ← freeQueue q m.nodes
        return (true, text "ERROR\n", q, ⟨nodes, ← freeArgs argv strings⟩)
      | data :: _ =>
        let (q, nodes) ← enqueue A q (← stringAt strings data) m.nodes
        return (false, [], q, ⟨nodes, ← freeArgs argv strings⟩)
    else if (← stringAt strings name) = text "dequeue" then
      let (pnode, q) ← dequeue q m.nodes
      let (out, nodes) ← answer pnode m.nodes
      return (false, out, q, ⟨nodes, ← freeArgs argv strings⟩)
    else
      return (false, [], q, ⟨m.nodes, ← freeArgs argv strings⟩)

/-- `main` after the queue is made: what it prints, and the memory at its end. -/
def mainLoop (A : Allocator) : List Text → Queue → Memory → Except Fault (Text × Memory)
  | [], q, m => do
    let printed ← printQueue q m.nodes
    return (printed, ⟨← freeQueue q m.nodes, m.strings⟩)
  | line :: lines, q, m => do
    let (exits, out, q, m) ← processLine A line q m
    if exits then
      return (out, m)
    else
      let (out', m) ← mainLoop A lines q m
      return (out ++ out', m)

/-- `main`, for a file with the given lines. -/
def main (A : Allocator) (script : List Text) : Except Fault (Text × Memory) :=
  mainLoop A script ⟨none, none⟩ ⟨∅, ∅⟩

/-! ## What it is for -/

/-- The first two tokens, the last of them without a newline at its end. -/
def words (line : Text) : List Text :=
  match ((tokens line).take 2).getLast? with
  | none => []
  | some arg => ((tokens line).take 2).dropLast ++
      [if arg.getLast? = some 10 then arg.dropLast else arg]

/-- What is printed for the lines when the queue has the strings `datas`. -/
def fifo : List Text → List Text → Except Fault Text
  | [], datas => .ok (text "finally: " ++ joined datas ++ text "\n")
  | line :: lines, datas =>
    match words line with
    | [] => .error .range
    | name :: args =>
      if name = text "enqueue" then
        match args with
        | [] => .ok (text "ERROR\n")
        | data :: _ => fifo lines (datas ++ [data])
      else if name = text "dequeue" then
        (fifo lines datas.tail).map (front datas ++ ·)
      else
        fifo lines datas

/-! ## The strings of `argv` -/

/-- The heap `h'` is `h` with the strings `args` at `argv`. -/
structure Stored (h : Heap Text) (argv : List ℕ) (h' : Heap Text) (args : List Text) : Prop where
  holds : argv.map h'.lookup = args.map some
  nodup : argv.Nodup
  apart : ∀ a ∈ argv, a ∉ h
  frame : ∀ b ∉ argv, h'.lookup b = h.lookup b

variable {A : Allocator} {h h' : Heap Text} {argv : List ℕ} {args : List Text}

/-- The copies of the tokens are stored at their addresses. -/
theorem storeArgs_stored (A : Allocator) (tokens : List Text) (h : Heap Text) :
    Stored h (storeArgs A tokens h).1 (storeArgs A tokens h).2 tokens := by
  -- Induction on the tokens; each is stored in a cell that no earlier one has.
  induction tokens generalizing h with
  | nil => exact ⟨rfl, List.nodup_nil, by simp [storeArgs], fun _ _ => rfl⟩
  | cons token tokens ih =>
    have hpick := Heap.pick_notMem A h
    generalize ha : A.pick h.keys = a at hpick
    have hstore : storeArgs A (token :: tokens) h =
        (a :: (storeArgs A tokens (h.insert a token)).1,
          (storeArgs A tokens (h.insert a token)).2) := by
      rw [storeArgs, Heap.malloc, ha]
    rw [hstore]
    obtain ⟨hholds, hnodup, hapart, hframe⟩ := ih (h.insert a token)
    generalize storeArgs A tokens (h.insert a token) = r at hholds hnodup hapart hframe ⊢
    have hnot : a ∉ r.1 := fun hmem => hapart a hmem (Finmap.mem_insert.mpr (.inl rfl))
    refine ⟨?_, List.nodup_cons.mpr ⟨hnot, hnodup⟩, ?_, ?_⟩
    · rw [List.map_cons, List.map_cons, hholds, hframe a hnot, Finmap.lookup_insert]
    · intro b hb hmem
      rcases List.mem_cons.mp hb with rfl | hb
      · exact hpick hmem
      · exact hapart b hb (Finmap.mem_insert.mpr (.inr hmem))
    · intro b hb
      rw [List.mem_cons, not_or] at hb
      rw [hframe b hb.2, Finmap.lookup_insert_of_ne _ hb.1]

/-- There is one address for each string. -/
theorem Stored.length (hs : Stored h argv h' args) : argv.length = args.length := by
  simpa using congrArg List.length hs.holds

/-- A string is found at its address. -/
theorem Stored.stringAt {i : ℕ} {a : ℕ} {s : Text} (hs : Stored h argv h' args)
    (ha : argv[i]? = some a) (hi : args[i]? = some s) : stringAt h' a = .ok s := by
  have hmap : (argv.map h'.lookup)[i]? = (args.map some)[i]? := by rw [hs.holds]
  rw [List.getElem?_map, List.getElem?_map, ha, hi] at hmap
  have hlookup : h'.lookup a = some s := Option.some.inj hmap
  rw [QueueMain.stringAt, hlookup]

/-- The last string is overwritten. -/
theorem Stored.overwrite {a : ℕ} {x : Text} (hs : Stored h (argv ++ [a]) h' (args ++ [x]))
    (y : Text) :
    Stored h (argv ++ [a]) (h'.insert a y) (args ++ [y]) := by
  obtain ⟨hnodup, -, hapart⟩ := List.nodup_append.mp hs.nodup
  have hne : ∀ b ∈ argv, b ≠ a := fun b hb => hapart b hb a (List.mem_singleton_self a)
  refine ⟨?_, hs.nodup, hs.apart, fun b hb => ?_⟩
  · have hholds := hs.holds
    rw [List.map_append, List.map_append] at hholds
    have hinit : argv.map h'.lookup = args.map some := List.append_inj_left' hholds rfl
    rw [List.map_append, List.map_append, ← hinit, List.map_singleton, List.map_singleton,
      Finmap.lookup_insert]
    congr 1
    exact List.map_congr_left fun b hb => Finmap.lookup_insert_of_ne _ (hne b hb)
  · have hba : b ≠ a := fun heq => hb (by simp [heq])
    rw [Finmap.lookup_insert_of_ne _ hba, hs.frame b hb]

/-- What was stored is freed. -/
theorem freeArgs_of_stored (hs : Stored h argv h' args) : freeArgs argv h' = .ok h := by
  -- Induction on `argv`: freeing one cell leaves the others stored, as no address occurs twice.
  induction argv generalizing h' args with
  | nil => rw [freeArgs, Finmap.ext_lookup fun b => hs.frame b List.not_mem_nil]
  | cons a argv ih =>
    cases args with
    | nil => simpa using hs.length
    | cons s args =>
      obtain ⟨hlookup, hholds⟩ := List.cons.inj hs.holds
      obtain ⟨hnot, hnodup⟩ := List.nodup_cons.mp hs.nodup
      have hne : ∀ b ∈ argv, b ≠ a := fun b hb heq => hnot (heq ▸ hb)
      have hrest : Stored h argv (h'.erase a) args := by
        refine ⟨?_, hnodup, fun b hb => hs.apart b (List.mem_cons_of_mem a hb), fun b hb => ?_⟩
        · rw [← hholds]
          exact List.map_congr_left fun b hb => Finmap.lookup_erase_ne (hne b hb)
        · by_cases hba : b = a
          · subst hba
            rw [Finmap.lookup_erase, eq_comm, Finmap.lookup_eq_none]
            exact hs.apart b List.mem_cons_self
          · rw [Finmap.lookup_erase_ne hba, hs.frame b (by simp [hba, hb])]
      rw [freeArgs, Heap.free_of_lookup hlookup]
      exact ih hrest

/-- `process_cmd` stores the words of a line that has any, and leaves `argv` otherwise. -/
theorem processCmd_words (A : Allocator) (line : Text) (h : Heap Text) :
    (words line = [] ∧ processCmd A line h = .error .range) ∨
      ∃ argv h', processCmd A line h = .ok (argv, h') ∧ Stored h argv h' (words line) ∧
        words line ≠ [] := by
  have hs := storeArgs_stored A ((tokens line).take 2) h
  unfold words processCmd
  generalize storeArgs A ((tokens line).take 2) h = r at hs ⊢
  generalize (tokens line).take 2 = l at hs ⊢
  obtain ⟨argv, h'⟩ := r
  dsimp only at hs ⊢
  -- With no token `argv[i - 1]` is out of range; else the newline is cut off the last one.
  rcases List.eq_nil_or_concat argv with rfl | ⟨argv, a, rfl⟩
  · obtain rfl : l = [] := List.length_eq_zero_iff.mp hs.length.symm
    exact .inl ⟨rfl, rfl⟩
  · rcases List.eq_nil_or_concat l with rfl | ⟨l, x, rfl⟩
    · simpa using hs.length
    simp only [List.concat_eq_append] at hs ⊢
    have hlen : argv.length = l.length := by simpa using hs.length
    have hx : QueueMain.stringAt h' a = .ok x :=
      hs.stringAt (i := argv.length) List.getElem?_concat_length
        (hlen ▸ List.getElem?_concat_length)
    refine .inr ?_
    simp only [List.getLast?_concat, List.dropLast_concat, hx, ok_bind]
    split_ifs
    · exact ⟨_, _, rfl, hs.overwrite _, by simp⟩
    · exact ⟨_, _, rfl, hs, by simp⟩

/-! ## A line -/

/-- All that is allocated is the queue `q`, with the strings `datas`. -/
def Sole (m : Memory) (q : Queue) (datas : List Text) : Prop :=
  ∃ cells, Holds m.nodes q cells ∧ cells.datas = datas ∧ m.nodes.keys.card = cells.length ∧
    m.strings = ∅

variable {m : Memory} {q : Queue} {datas : List Text} {line : Text}

/-- A queue that is all there is leaves nothing when it is freed. -/
theorem Sole.free (hm : Sole m q datas) : freeQueue q m.nodes = .ok ∅ := by
  obtain ⟨cells, hq, -, hcard, -⟩ := hm
  obtain ⟨nodes, hfree, -⟩ := freeQueue_spec hq
  have hleft := freeQueue_card hq hfree
  have hempty : nodes = ∅ := Heap.eq_empty (by omega)
  rw [hfree, hempty]

/-- A line without a word makes `process_line` read in front of `argv`. -/
theorem processLine_nil (hwords : words line = []) (m : Memory) :
    processLine A line q m = .error .range := by
  rcases processCmd_words A line m.strings with ⟨-, hcmd⟩ | ⟨-, -, -, -, hne⟩
  · rw [processLine, hcmd]
    rfl
  · exact absurd hwords hne

/-- The words of a line that has some are at `argv`, from where they are read and freed. -/
theorem processCmd_cons {name : Text} {args : List Text} (hwords : words line = name :: args)
    (A : Allocator) (h : Heap Text) :
    ∃ a argv h', processCmd A line h = .ok (a :: argv, h') ∧ freeArgs (a :: argv) h' = .ok h ∧
      stringAt h' a = .ok name ∧ Stored h (a :: argv) h' (name :: args) := by
  rcases processCmd_words A line h with ⟨hnil, -⟩ | ⟨argv, h', hcmd, hs, -⟩
  · simp [hwords] at hnil
  · rw [hwords] at hs
    cases argv with
    | nil => simpa using hs.length
    | cons a argv =>
      exact ⟨a, argv, h', hcmd, freeArgs_of_stored hs, hs.stringAt (i := 0) rfl rfl, hs⟩

/-- Without an argument, `enqueue` frees everything and ends the program. -/
theorem processLine_exits (hm : Sole m q datas) (hwords : words line = [text "enqueue"]) :
    processLine A line q m = .ok (true, text "ERROR\n", q, ⟨∅, ∅⟩) := by
  have hnodes := hm.free
  obtain ⟨nodes, strings⟩ := m
  obtain ⟨cells, -, -, -, rfl⟩ := hm
  obtain ⟨a, argv, h', hcmd, hfree, hname, hs⟩ := processCmd_cons hwords A ∅
  obtain rfl : argv = [] := by simpa using hs.length
  simp only [processLine, hcmd, hname, hnodes, hfree, ok_bind, if_true]
  rfl

/-- A line `enqueue w` appends `w`. -/
theorem processLine_enqueue (hm : Sole m q datas) {data : Text} {args : List Text}
    (hwords : words line = text "enqueue" :: data :: args) :
    ∃ q' m', processLine A line q m = .ok (false, [], q', m') ∧ Sole m' q' (datas ++ [data]) := by
  obtain ⟨nodes, strings⟩ := m
  obtain ⟨cells, hq, rfl, hcard, rfl⟩ := hm
  obtain ⟨a, argv, h', hcmd, hfree, hname, hs⟩ := processCmd_cons hwords A ∅
  cases argv with
  | nil => simpa using hs.length
  | cons b argv =>
    have hdata : stringAt h' b = .ok data := hs.stringAt (i := 1) rfl rfl
    obtain ⟨q', nodes', cells', henqueue, hq', hdatas, -⟩ := enqueue_spec A data hq
    refine ⟨q', ⟨nodes', ∅⟩, ?_, cells', hq', hdatas, ?_, rfl⟩
    · simp only [processLine, hcmd, hname, hdata, henqueue, hfree, ok_bind, if_true]
      rfl
    -- One cell more in the heap for one value more in the queue.
    · have hlen := congrArg List.length hdatas
      rw [List.length_append, Cells.length_datas, Cells.length_datas, List.length_singleton] at hlen
      rw [enqueue_card henqueue]
      omega

/-- A line `dequeue` takes the first word off and prints it, or NULL. -/
theorem processLine_dequeue (hm : Sole m q datas) {args : List Text}
    (hwords : words line = text "dequeue" :: args) :
    ∃ q' m', processLine A line q m = .ok (false, front datas, q', m') ∧ Sole m' q' datas.tail := by
  obtain ⟨nodes, strings⟩ := m
  obtain ⟨cells, hq, rfl, hcard, rfl⟩ := hm
  obtain ⟨a, argv, h', hcmd, hfree, hname, -⟩ := processCmd_cons hwords A ∅
  obtain ⟨q', hdequeue, hq'⟩ := dequeue_spec hq
  obtain ⟨out, nodes', hanswer, hrest, -⟩ := answer_spec hq hq'
  obtain ⟨rfl, hcard'⟩ := answer_front hq hanswer
  have hne : text "dequeue" ≠ text "enqueue" := by decide +kernel
  refine ⟨q', ⟨nodes', ∅⟩, ?_, cells.tail, hrest, Cells.datas_tail cells, by dsimp only; omega, rfl⟩
  simp only [processLine, hcmd, hname, hdequeue, hanswer, hfree, ok_bind, if_true, if_neg hne]
  rfl

/-- Another line does nothing. -/
theorem processLine_other (hm : Sole m q datas) {name : Text} {args : List Text}
    (hwords : words line = name :: args) (henqueue : name ≠ text "enqueue")
    (hdequeue : name ≠ text "dequeue") :
    ∃ m', processLine A line q m = .ok (false, [], q, m') ∧ Sole m' q datas := by
  obtain ⟨nodes, strings⟩ := m
  obtain ⟨cells, hq, rfl, hcard, rfl⟩ := hm
  obtain ⟨a, argv, h', hcmd, hfree, hname, -⟩ := processCmd_cons hwords A ∅
  refine ⟨⟨nodes, ∅⟩, ?_, cells, hq, rfl, hcard, rfl⟩
  simp only [processLine, hcmd, hname, hfree, ok_bind, if_neg henqueue, if_neg hdequeue]
  rfl

/-! ## A file -/

/-- From a queue that is all there is, the loop of `main` prints what the list does, and leaves
nothing allocated. -/
theorem mainLoop_eq_fifo (A : Allocator) (script : List Text) (hm : Sole m q datas) :
    mainLoop A script q m = (fifo script datas).map fun out => (out, ⟨∅, ∅⟩) := by
  -- Induction on the script; `Sole` is what each line keeps.
  induction script generalizing q m datas with
  | nil =>
    have hfree := hm.free
    obtain ⟨nodes, strings⟩ := m
    obtain ⟨cells, hq, rfl, -, rfl⟩ := hm
    simp only [mainLoop, printQueue_spec hq, hfree, ok_bind]
    rfl
  | cons line lines ih =>
    rw [mainLoop, fifo]
    cases hwords : words line with
    | nil =>
      rw [processLine_nil hwords]
      rfl
    | cons name args =>
      dsimp only
      by_cases henqueue : name = text "enqueue"
      · subst henqueue
        rw [if_pos rfl]
        cases args with
        | nil =>
          rw [processLine_exits hm hwords]
          rfl
        | cons data args =>
          obtain ⟨q', m', hline, hm'⟩ := processLine_enqueue (A := A) hm hwords
          rw [hline, ok_bind, if_neg Bool.false_ne_true, ih hm']
          dsimp only
          cases fifo lines (datas ++ [data]) <;> rfl
      · rw [if_neg henqueue]
        by_cases hdequeue : name = text "dequeue"
        · subst hdequeue
          obtain ⟨q', m', hline, hm'⟩ := processLine_dequeue (A := A) hm hwords
          rw [if_pos rfl, hline, ok_bind, if_neg Bool.false_ne_true, ih hm']
          cases fifo lines datas.tail <;> rfl
        · obtain ⟨m', hline, hm'⟩ := processLine_other (A := A) hm hwords henqueue hdequeue
          rw [if_neg hdequeue, hline, ok_bind, if_neg Bool.false_ne_true, ih hm']
          cases fifo lines datas <;> rfl

/-- At the start there is an empty queue and nothing else. -/
theorem sole_start : Sole ⟨∅, ∅⟩ ⟨none, none⟩ [] := ⟨[], ⟨rfl, rfl⟩, rfl, rfl, rfl⟩

/-- **The queue program is a list.** For every file it prints what the list says, or indexes `argv`
at -1 at the first line without a token, and it frees all that it allocates. -/
theorem main_eq_fifo (A : Allocator) (script : List Text) :
    main A script = (fifo script []).map fun out => (out, ⟨∅, ∅⟩) :=
  mainLoop_eq_fifo A script sole_start

example : fifo [text "enqueue CS\n", text "enqueue \n", text "dequeue\n", text "dequeue\n",
    text "dequeue\n", text "enqueue 5600"] [] = .ok (text "CS\n\nNULL\nfinally: [5600]\n") := by
  decide +kernel

end Cs5600.Lab1.QueueMain
