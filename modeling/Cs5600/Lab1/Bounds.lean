import Cs5600.Lab1.Undo

/-!
# The arrays of the ciphered queue

`process_line2` reads `argv` at fixed places, and writes `gq` one place further for each command
that counts. `mainAt` is the interpreter in which reading `argv` where `process_cmd` has stored
nothing is an error. `mainAt_eq` says that this is never one, so what is left are `argv[nbr_args-1]`
for a line without a token, and a history that is full (`staysInBounds_iff`).
-/

namespace Cs5600.Lab1

/-! ## Reading `argv` -/

/-- `argv[i]`, of an array of 3 in which `process_cmd` has stored `argv`. -/
def argvAt (argv : List Text) (i : ℕ) : Except Fault Text :=
  if 3 ≤ i then .error .range
  else match argv[i]? with
    | none => .error .range
    | some arg => .ok arg

/-- `check_cmd`, with its reads. -/
def checkCmdAt (argv : List Text) : Except Fault Bool := do
  if (← argvAt argv 0) = text "encode_enqueue" then
    if argv.length < 3 then return false
  if (← argvAt argv 0) = text "dequeue_decode" then
    if argv.length < 2 then return false
  if (← argvAt argv 0) = text "enqueue" then
    if argv.length < 2 then return false
  return true

/-- The branches of `process_line2`, with their reads. -/
def readCmdAt (argv : List Text) : Except Fault Cmd := do
  if (← argvAt argv 0) = text "encode_enqueue" then
    let key := atoiInt (← argvAt argv 1)
    return .encodeEnqueue key (← argvAt argv 2)
  else if (← argvAt argv 0) = text "dequeue_decode" then
    return .dequeueDecode (atoiInt (← argvAt argv 1))
  else if (← argvAt argv 0) = text "enqueue" then
    return .enqueue (← argvAt argv 1)
  else if (← argvAt argv 0) = text "dequeue" then
    return .dequeue
  else if (← argvAt argv 0) = text "undo" then
    return .undo
  else
    return .unknown

/-- `process_line2`, with its reads. -/
def processLine2At (A : Allocator) (int : Arith) (line : Text) (st : State) :
    Except Fault (Bool × Text × State) := do
  let argv ← processCmd line
  if !(← checkCmdAt argv) then
    return (true, text "ERROR\n", st)
  else
    let q ← st.gqAt st.nbrCmds
    let (q, nodes) ← copyQueue A q st.nodes
    let st ← State.setGq ⟨nodes, st.gq, st.nbrCmds + 1⟩ (st.nbrCmds + 1) q
    let (out, st) ← runCmd A int (← readCmdAt argv) q st
    return (false, out, st)

/-- The loop of `main`, with the reads of its calls. -/
def mainLoopAt (A : Allocator) (int : Arith) :
    List Text → State → Except Fault (Bool × Text × State)
  | [], st => return (false, [], st)
  | line :: lines, st => do
    let (ret, out, st) ← processLine2At A int line st
    if ret then
      return (true, out, st)
    else
      let (ret, out', st) ← mainLoopAt A int lines st
      return (ret, out ++ out', st)

/-- `main`, with the reads of its calls. -/
def mainAt (A : Allocator) (int : Arith) (script : List Text) : Except Fault Text := do
  let (ret, out, st) ← mainLoopAt A int script .start
  if ret then
    let _ ← st.freeAll
    return out
  else
    let printed ← printQueue (← st.gqAt st.nbrCmds) st.nodes
    let _ ← st.freeAll
    return out ++ printed

/-- No index is out of bounds, and the last thing that is printed is the final queue or `ERROR`. -/
def StaysInBounds (A : Allocator) (script : List Text) : Prop :=
  ∃ ret out st out', mainLoopAt A wrapping script .start = .ok (ret, out, st) ∧
    mainAt A wrapping script = .ok out' ∧
    if ret = true then out' = out ∧ ∃ before, out = before ++ text "ERROR\n"
    else ∃ q printed, st.gqAt st.nbrCmds = .ok q ∧ printQueue q st.nodes = .ok printed ∧
      out' = out ++ printed

/-- Every line has a token, and finds room in the history for one more command; there are `n` in it
before the first line. The script ends at a line that `check_cmd` rejects. -/
def scriptFits : List Text → ℕ → Bool
  | [], _ => true
  | line :: lines, n =>
    match processCmd line with
    | .error _ => false
    | .ok argv =>
      if checkCmd argv then
        decide (n + 1 < 50000) && scriptFits lines (if readCmd argv = .undo then n - 1 else n + 1)
      else true

/-- `process_cmd` finds at least one token when it returns. -/
theorem processCmd_ne_nil {line : Text} {argv : List Text} (h : processCmd line = .ok argv) :
    argv ≠ [] := by
  simp only [processCmd] at h
  cases hlast : ((tokens line).take 3).getLast? with
  | none =>
    rw [hlast] at h
    cases h
  | some arg =>
    rw [hlast] at h
    cases h
    exact List.append_ne_nil_of_right_ne_nil _ (List.cons_ne_nil _ _)

/-- The first word of an `argv` can be read. -/
@[simp] theorem argvAt_zero (name : Text) (args : List Text) : argvAt (name :: args) 0 = .ok name :=
  rfl

/-- `check_cmd` looks at words that are there. -/
theorem checkCmdAt_eq {argv : List Text} (h : argv ≠ []) :
    checkCmdAt argv = .ok (checkCmd argv) := by
  obtain ⟨name, args, rfl⟩ := List.exists_cons_of_ne_nil h
  -- The three names differ, so at most one of the tests of `check_cmd` holds.
  obtain ⟨h₁₂, h₁₃, h₂₃⟩ : text "encode_enqueue" ≠ text "dequeue_decode" ∧
      text "encode_enqueue" ≠ text "enqueue" ∧ text "dequeue_decode" ≠ text "enqueue" := by
    decide +kernel
  simp only [checkCmdAt, checkCmd, argvAt_zero, ok_bind, List.head?_cons, Option.some.injEq]
  by_cases hencode : name = text "encode_enqueue"
  · subst hencode
    by_cases hlen : (text "encode_enqueue" :: args).length < 3 <;>
      simp only [hlen, h₁₂, h₁₃, if_true, if_false] <;> rfl
  by_cases hdecode : name = text "dequeue_decode"
  · subst hdecode
    by_cases hlen : (text "dequeue_decode" :: args).length < 2 <;>
      simp only [hlen, h₁₂.symm, h₂₃, if_true, if_false] <;> rfl
  by_cases henqueue : name = text "enqueue"
  · subst henqueue
    by_cases hlen : (text "enqueue" :: args).length < 2 <;>
      simp only [hlen, h₁₃.symm, h₂₃.symm, if_true, if_false] <;> rfl
  · simp only [hencode, hdecode, henqueue, if_false]
    rfl

/-- What `check_cmd` lets pass is read where it is stored. -/
theorem readCmdAt_eq {argv : List Text} (h : argv ≠ []) (hcheck : checkCmd argv = true) :
    readCmdAt argv = .ok (readCmd argv) := by
  rw [checkCmd, Bool.not_eq_true', decide_eq_false_iff_not, not_or, not_or] at hcheck
  obtain ⟨hencode', hdecode', henqueue'⟩ := hcheck
  obtain ⟨name, args, rfl⟩ := List.exists_cons_of_ne_nil h
  simp only [readCmdAt, readCmd, argvAt_zero, ok_bind, List.head?_cons, Option.some.injEq]
  rw [List.head?_cons, Option.some_inj, List.length_cons] at hencode' hdecode' henqueue'
  split_ifs with hencode hdecode henqueue
  -- `encode_enqueue` reads `argv[1]` and `argv[2]`, which `check_cmd` has counted.
  · have hlen : 2 ≤ args.length := by
      by_contra hlen
      exact hencode' ⟨hencode, by omega⟩
    obtain ⟨key, args, rfl⟩ := List.exists_cons_of_length_pos (by omega : 0 < args.length)
    obtain ⟨data, args, rfl⟩ : ∃ data args', args = data :: args' :=
      List.exists_cons_of_length_pos (by rw [List.length_cons] at hlen; omega)
    rfl
  · have hlen : 1 ≤ args.length := by
      by_contra hlen
      exact hdecode' ⟨hdecode, by omega⟩
    obtain ⟨key, args, rfl⟩ := List.exists_cons_of_length_pos hlen
    rfl
  · have hlen : 1 ≤ args.length := by
      by_contra hlen
      exact henqueue' ⟨henqueue, by omega⟩
    obtain ⟨data, args, rfl⟩ := List.exists_cons_of_length_pos hlen
    rfl
  all_goals rfl

/-- No read of `argv` is out of bounds. -/
theorem processLine2At_eq (A : Allocator) (int : Arith) (line : Text) (st : State) :
    processLine2At A int line st = processLine2 A int line st := by
  unfold processLine2At processLine2
  cases hargv : processCmd line with
  | error e => rfl
  | ok argv =>
    have hne := processCmd_ne_nil hargv
    simp only [ok_bind, checkCmdAt_eq hne]
    by_cases hcheck : checkCmd argv = true
    · simp only [readCmdAt_eq hne hcheck, ok_bind]
    · simp [hcheck]

/-- The loop of `main` with checked reads is the loop. -/
theorem mainLoopAt_eq (A : Allocator) (int : Arith) (script : List Text) (st : State) :
    mainLoopAt A int script st = mainLoop A int script st := by
  induction script generalizing st with
  | nil => rfl
  | cons line lines ih => simp only [mainLoopAt, mainLoop, processLine2At_eq, ih]

/-- The program with checked reads is the program. -/
theorem mainAt_eq (A : Allocator) (int : Arith) (script : List Text) :
    mainAt A int script = main A int script := by
  simp only [mainAt, main, mainLoopAt_eq]

/-! ## The run -/

/-- A command that finds the history full is out of bounds. -/
theorem processLine2_full (A : Allocator) {line : Text} {argv : List Text}
    (hargv : processCmd line = .ok argv) (hcheck : checkCmd argv = true) {st : State}
    (hfull : 50000 ≤ st.nbrCmds + 1) (r : Bool × Text × State) :
    processLine2 A wrapping line st ≠ .ok r := by
  intro h
  simp only [processLine2, hargv, hcheck, ok_bind, Bool.not_true, Bool.false_eq_true, if_false] at h
  obtain ⟨q, -, h⟩ := bind_eq_ok.mp h
  obtain ⟨⟨q', nodes⟩, -, h⟩ := bind_eq_ok.mp h
  obtain ⟨st', hset, -⟩ := bind_eq_ok.mp h
  rw [State.setGq, if_pos hfull] at hset
  cases hset

/-- A command is one more to keep, and `undo` one less. -/
theorem length_survive_eq (kept : List Cmd) (cmd : Cmd) :
    (survive kept cmd).length = if cmd = .undo then kept.length - 1 else kept.length + 1 := by
  unfold survive
  split_ifs
  · exact List.length_dropLast
  · exact List.length_append

/-- The loop of `main` comes to its end exactly when the script fits. -/
theorem mainLoop_fits (A : Allocator) {script : List Text} {st : State} {kept : List Cmd}
    {cs : List Cells} (h : Snapshots st kept cs) (hlt : kept.length < 50000) :
    ((∃ r, mainLoop A wrapping script st = .ok r) ↔ scriptFits script kept.length = true) ∧
      ∀ ret out st', mainLoop A wrapping script st = .ok (ret, out, st') →
        (∃ kept' cs', Snapshots st' kept' cs' ∧ kept'.length < 50000) ∧
          (ret = true → ∃ before, out = before ++ text "ERROR\n") := by
  induction script generalizing st kept cs with
  | nil =>
    refine ⟨iff_of_true ⟨_, rfl⟩ rfl, fun ret out st' hrun => ?_⟩
    cases hrun
    exact ⟨⟨kept, cs, h, hlt⟩, fun hret => by cases hret⟩
  | cons line script ih =>
    unfold scriptFits
    cases hargv : processCmd line with
    | error e =>
      have hrun : mainLoop A wrapping (line :: script) st = .error e := by
        rw [mainLoop, processLine2, hargv]
        rfl
      rw [hrun]
      refine ⟨iff_of_false ?_ Bool.false_ne_true, fun ret out st' h => by cases h⟩
      rintro ⟨r, hr⟩
      cases hr
    | ok argv =>
      dsimp only
      by_cases hcheck : checkCmd argv = true
      · have hcmd : command line = some (readCmd argv) := by
          simp only [command, hargv, hcheck, if_true]
        rw [if_pos hcheck, ← length_survive_eq, Bool.and_eq_true, decide_eq_true_iff]
        by_cases hroom : kept.length + 1 < 50000
        · obtain ⟨out₁, st₁, cs₁, hline, h₁, -⟩ := processLine2_spec A h hcmd hroom
          obtain ⟨hfits, hend⟩ := ih h₁ ((length_survive kept _).trans_lt hroom)
          have hrun : mainLoop A wrapping (line :: script) st =
              mainLoop A wrapping script st₁ >>= fun r => .ok (r.1, out₁ ++ r.2.1, r.2.2) := by
            rw [mainLoop, hline]
            rfl
          rw [hrun, ← hfits]
          constructor
          · simp only [hroom, true_and, bind_eq_ok]
            constructor
            · rintro ⟨r, r', hr', -⟩
              exact ⟨r', hr'⟩
            · rintro ⟨r', hr'⟩
              exact ⟨_, r', hr', rfl⟩
          · intro ret out st' hret
            obtain ⟨⟨ret', out', st''⟩, hr, heq⟩ := bind_eq_ok.mp hret
            cases heq
            obtain ⟨hsnapshots, herror⟩ := hend _ _ _ hr
            refine ⟨hsnapshots, fun hret => ?_⟩
            obtain ⟨before, rfl⟩ := herror hret
            exact ⟨out₁ ++ before, (List.append_assoc _ _ _).symm⟩
        · -- The history is full.
          have hno : ∀ r, mainLoop A wrapping (line :: script) st ≠ .ok r := by
            intro r hr
            obtain ⟨r', hline, -⟩ := bind_eq_ok.mp hr
            refine processLine2_full A hargv hcheck ?_ r' hline
            rw [h.nbrCmds]
            omega
          refine ⟨iff_of_false (not_exists.mpr hno) fun h => hroom h.1, fun ret out st' hr => ?_⟩
          exact absurd hr (hno _)
      · -- `check_cmd` rejects the line.
        have hrun : mainLoop A wrapping (line :: script) st = .ok (true, text "ERROR\n", st) := by
          rw [mainLoop, processLine2, hargv]
          simp only [ok_bind, hcheck]
          rfl
        rw [if_neg hcheck, hrun]
        refine ⟨iff_of_true ⟨_, rfl⟩ rfl, fun ret out st' hr => ?_⟩
        cases hr
        exact ⟨⟨kept, cs, h, hlt⟩, fun _ => ⟨[], rfl⟩⟩

/-- **The interpreter stays in bounds**, exactly when each line has a token and finds room in the
history, up to one that `check_cmd` rejects. -/
theorem staysInBounds_iff (A : Allocator) (script : List Text) :
    StaysInBounds A script ↔ scriptFits script 0 = true := by
  -- The run starts with one empty queue, which fits.
  have hstart : ((∃ r, mainLoop A wrapping script _ = .ok r) ↔ _) ∧ _ :=
    mainLoop_fits A snapshots_start (by decide)
  obtain ⟨hfits, hend⟩ := hstart
  rw [List.length_nil] at hfits
  rw [← hfits]
  simp only [StaysInBounds, mainLoopAt_eq, mainAt_eq]
  constructor
  · rintro ⟨ret, out, st, -, hrun, -⟩
    exact ⟨_, hrun⟩
  · rintro ⟨⟨ret, out, st⟩, hrun⟩
    obtain ⟨⟨kept, cs, h, hlt⟩, herror⟩ := hend _ _ _ hrun
    obtain ⟨nodes, hfree⟩ := freeAll_spec h hlt
    cases ret with
    | true =>
      refine ⟨true, out, st, out, hrun, ?_, rfl, herror rfl⟩
      simp only [main, hrun, hfree, ok_bind, if_true]
      rfl
    -- The end of the file: `final_print` finds the queue on top of the history.
    | false =>
      obtain ⟨cs₀, c, rfl, hcs₀, -⟩ := h.exists_concat
      obtain ⟨q, hgq, hq⟩ := h.stack.last
      have hat : st.gqAt st.nbrCmds = .ok q := by
        rw [State.gqAt, h.nbrCmds, if_neg (by omega), ← hcs₀, hgq]
      refine ⟨false, out, st, _, hrun, ?_, q, _, hat, printQueue_spec hq, rfl⟩
      simp only [main, hrun, hat, printQueue_spec hq, hfree, ok_bind]
      rfl

/-- A file of one space. -/
theorem not_staysInBounds_space : ¬ StaysInBounds (above 0) [text " "] := by
  rintro ⟨ret, out, st, -, hrun, -⟩
  have hline : mainLoopAt (above 0) wrapping [text " "] .start = .error .range := rfl
  rw [hline] at hrun
  cases hrun

end Cs5600.Lab1
