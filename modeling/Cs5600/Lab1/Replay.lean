import Cs5600.Lab1.QueueMain

/-!
# What the ciphered queue prints

`replay` is what the program prints, line by line, from the commands that are not cancelled alone:
no copies, no history of queues, no heap. `main_eq_replay` says that this is its output for every
file, and that no node is left when it has freed the queues of its history.

On a file without the commands of the cipher and without `undo`, both programs print the same
(`main_eq_queueMain`).
-/

namespace Cs5600.Lab1

open Function (update)

/-- What `dequeue_decode` makes of the string at the front. -/
def decoded (key : ℤ) (data : Text) : Text :=
  if data = illchar then data
  else match decode wrapping data key with
    | .ok (buffer, _) => buffer
    | .error _ => data

/-- What a command prints when the queue has the strings `datas`. -/
def Cmd.prints (datas : List Text) : Cmd → Text
  | .dequeue => front datas
  | .dequeueDecode key => front (datas.map (decoded key))
  | .encodeEnqueue _ _ | .enqueue _ | .undo | .unknown => []

/-- What is printed for the lines when the commands `kept` have come before and are not
cancelled. -/
def replay : List Text → List Cmd → Except Fault Text
  | [], kept =>
    .ok (text "finally: " ++ joined (kept.foldl (Cmd.apply wrapping) []) ++ text "\n")
  | line :: lines, kept =>
    match processCmd line with
    | .error e => .error e
    | .ok argv =>
      if !checkCmd argv then
        .ok (text "ERROR\n")
      else if kept.length + 1 < 50000 then
        (replay lines (survive kept (readCmd argv))).map
          ((readCmd argv).prints (kept.foldl (Cmd.apply wrapping) []) ++ ·)
      else
        .error .range

/-! ## Commands -/

variable {A : Allocator} {nodes nodes' : Nodes} {gq : ℕ → Option Queue} {cs : List Cells}
  {top : Cells} {q : Queue} {out : Text} {st' : State} {cmd : Cmd} {kept : List Cmd}

/-- The node that was taken off is decoded, printed and freed. -/
theorem dequeueDecode_answer (hq : Holds nodes q top) {key : ℤ} {pnode : Option ℕ} {q' : Queue}
    {nodes'' : Nodes} (hdequeue : dequeueDecode wrapping q key nodes = .ok (pnode, q', nodes'))
    (hanswer : answer pnode nodes' = .ok (out, nodes'')) :
    out = front (top.datas.map (decoded key)) ∧
      nodes''.keys.card + top.length = nodes.keys.card + top.tail.length := by
  obtain ⟨q₁, hdequeue₁, -⟩ := dequeue_spec hq
  rw [dequeueDecode, hdequeue₁] at hdequeue
  cases top with
  -- An empty queue answers nothing, and nothing leaves the heap.
  | nil =>
    obtain ⟨rfl, heq⟩ := Prod.mk.inj (Except.ok.inj hdequeue)
    obtain ⟨rfl, rfl⟩ := Prod.mk.inj heq
    obtain ⟨rfl, rfl⟩ := Prod.mk.inj (Except.ok.inj hanswer)
    exact ⟨rfl, rfl⟩
  | cons x cells =>
    have hx := hq.seg.2.1
    simp only [List.head?_cons, Option.map_some, ok_bind, nodeAt_of_lookup hx] at hdequeue
    rw [List.length_cons, List.tail_cons]
    have hfront : front (Cells.datas (x :: cells) |>.map (decoded key)) =
        decoded key x.2.data ++ text "\n" := rfl
    rw [hfront, decoded]
    -- `illchar` is handed out as it stands; any other string is decoded where it lies.
    split_ifs at hdequeue with hill
    · obtain ⟨rfl, heq⟩ := Prod.mk.inj (Except.ok.inj hdequeue)
      obtain ⟨rfl, rfl⟩ := Prod.mk.inj heq
      obtain ⟨rfl, hone⟩ := answer_some hx hanswer
      rw [if_pos hill]
      exact ⟨rfl, by omega⟩
    · obtain ⟨⟨buffer, r⟩, hdecode⟩ := decode_wrapping x.2.data key
      rw [hdecode, ok_bind] at hdequeue
      obtain ⟨rfl, heq⟩ := Prod.mk.inj (Except.ok.inj hdequeue)
      obtain ⟨rfl, rfl⟩ := Prod.mk.inj heq
      obtain ⟨rfl, hone⟩ := answer_some (Finmap.lookup_insert _) hanswer
      rw [Heap.card_insert_of_mem _ (Finmap.mem_of_lookup_eq_some hx)] at hone
      rw [if_neg hill, hdecode]
      exact ⟨rfl, by omega⟩

/-- What a command prints, and how many nodes it leaves. -/
theorem runCmd_prints (hcmd : cmd ≠ .undo) (hq : Holds nodes q top) {n : ℕ}
    (hrun : runCmd A wrapping cmd q ⟨nodes, gq, n⟩ = .ok (out, st')) :
    out = cmd.prints top.datas ∧
      st'.nodes.keys.card + top.length =
        nodes.keys.card + (cmd.apply wrapping top.datas).length := by
  cases cmd with
  | undo => exact absurd rfl hcmd
  | unknown =>
    obtain ⟨rfl, rfl⟩ := Prod.mk.inj (Except.ok.inj hrun)
    exact ⟨rfl, by rw [Cmd.apply, Cells.length_datas]⟩
  | enqueue data =>
    obtain ⟨⟨q', nodes'⟩, henqueue, heq⟩ := bind_eq_ok.mp hrun
    obtain ⟨rfl, rfl⟩ := Prod.mk.inj (Except.ok.inj heq)
    refine ⟨rfl, ?_⟩
    -- The enqueueing commands add one cell each.
    have hcard : nodes'.keys.card = nodes.keys.card + 1 := enqueue_card henqueue
    rw [Cmd.apply, List.length_append, Cells.length_datas, List.length_singleton]
    dsimp only
    omega
  | encodeEnqueue key data =>
    obtain ⟨⟨q', nodes'⟩, hboth, heq⟩ := bind_eq_ok.mp hrun
    obtain ⟨rfl, rfl⟩ := Prod.mk.inj (Except.ok.inj heq)
    obtain ⟨⟨buffer, ciphertext⟩, hencode, henqueue⟩ := bind_eq_ok.mp hboth
    have hcard : nodes'.keys.card = nodes.keys.card + 1 := enqueue_card henqueue
    refine ⟨rfl, ?_⟩
    rw [Cmd.apply, hencode]
    dsimp only
    rw [List.length_append, Cells.length_datas, List.length_singleton]
    omega
  | dequeue =>
    -- The dequeueing ones free the cell they answer from.
    obtain ⟨q', hdequeue, -⟩ := dequeue_spec hq
    simp only [runCmd, hdequeue, ok_bind] at hrun
    obtain ⟨⟨out₁, nodes₁⟩, hanswer, heq⟩ := bind_eq_ok.mp hrun
    obtain ⟨rfl, rfl⟩ := Prod.mk.inj (Except.ok.inj heq)
    obtain ⟨rfl, hcard⟩ := answer_front hq hanswer
    exact ⟨rfl, by rw [Cmd.apply, ← Cells.datas_tail, Cells.length_datas]; exact hcard⟩
  | dequeueDecode key =>
    simp only [runCmd] at hrun
    obtain ⟨⟨pnode, q', nodes₁⟩, hdequeue, hrest⟩ := bind_eq_ok.mp hrun
    obtain ⟨⟨out₂, nodes₂⟩, hanswer, heq⟩ := bind_eq_ok.mp hrest
    obtain ⟨rfl, rfl⟩ := Prod.mk.inj (Except.ok.inj heq)
    obtain ⟨rfl, hcard⟩ := dequeueDecode_answer hq hdequeue hanswer
    exact ⟨rfl, by rw [Cmd.apply, ← Cells.datas_tail, Cells.length_datas]; exact hcard⟩

/-- Going back by one command frees the nodes of the last copy. -/
theorem pop_card (hs : Stack nodes gq (cs ++ [top]))
    (hpop : State.pop ⟨nodes, gq, cs.length⟩ = .ok st') :
    st'.nodes.keys.card + top.length = nodes.keys.card := by
  obtain ⟨q, hgq, hq⟩ := hs.last
  obtain ⟨q', hat, hrest⟩ := bind_eq_ok.mp hpop
  obtain ⟨nodes', hfree, heq⟩ := bind_eq_ok.mp hrest
  rw [State.gqAt] at hat
  split_ifs at hat
  simp only [hgq] at hat
  rw [← Except.ok.inj hat] at hfree
  rw [← Except.ok.inj heq]
  exact freeQueue_card hq hfree

/-! ## Lines -/

/-- The nodes of the queues after each of the commands `kept`. -/
def total (kept : List Cmd) : ℕ := ((kept.scanl (Cmd.apply wrapping) []).map List.length).sum

/-- One more command brings the nodes of the copy that it leaves. -/
theorem total_concat (kept : List Cmd) (cmd : Cmd) :
    total (kept ++ [cmd]) =
      total kept + (cmd.apply wrapping (kept.foldl (Cmd.apply wrapping) [])).length := by
  simp [total, List.scanl_append]

/-- The copies in the history have as many nodes as the commands leave after each other. -/
theorem Snapshots.sum_length {st : State} (h : Snapshots st kept cs) :
    (cs.map List.length).sum = total kept := by
  rw [total, ← h.datas, List.map_map]
  congr 1
  exact List.map_congr_left fun c _ => (Cells.length_datas c).symm

/-- `undo` prints nothing and frees the copy and the queue below it, unless this is the first. -/
theorem runCmd_undo_card {c : Cells} (hs : Stack nodes gq (cs ++ [c] ++ [top]))
    (hlt : cs.length + 1 < 50000)
    (hrun : runCmd A wrapping .undo q ⟨nodes, gq, cs.length + 1⟩ = .ok (out, st')) :
    out = [] ∧ st'.nodes.keys.card + top.length + (if cs = [] then 0 else c.length) =
      nodes.keys.card := by
  obtain ⟨nodes₁, hpop₁, hs₁⟩ := pop_spec hs (by simpa using hlt)
  have hcard₁ : nodes₁.keys.card + top.length = nodes.keys.card := pop_card hs hpop₁
  rw [show (cs ++ [c]).length = cs.length + 1 by simp] at hpop₁ hs₁
  rw [Nat.add_sub_cancel] at hpop₁
  simp only [runCmd, hpop₁, ok_bind] at hrun
  -- With nothing to undo only the copy made for this line is popped.
  by_cases hcs : cs = []
  · subst hcs
    obtain ⟨rfl, rfl⟩ := Prod.mk.inj (Except.ok.inj hrun)
    exact ⟨rfl, by simpa using hcard₁⟩
  · rw [if_pos (List.length_pos_iff.mpr hcs)] at hrun
    obtain ⟨st₂, hpop₂, heq⟩ := bind_eq_ok.mp hrun
    obtain ⟨rfl, rfl⟩ := Prod.mk.inj (Except.ok.inj heq)
    have hcard₂ := pop_card hs₁ hpop₂
    rw [if_neg hcs]
    exact ⟨rfl, by omega⟩

/-- A line prints what its command prints, and there are no nodes but those of the snapshots. -/
theorem processLine2_prints (A : Allocator) {st : State} (h : Snapshots st kept cs)
    (hcard : st.nodes.keys.card = total kept) {line : Text} (hcmd : command line = some cmd)
    (hlt : kept.length + 1 < 50000) :
    ∃ st' cs', processLine2 A wrapping line st =
        .ok (false, cmd.prints (kept.foldl (Cmd.apply wrapping) []), st') ∧
      Snapshots st' (survive kept cmd) cs' ∧ st'.nodes.keys.card = total (survive kept cmd) := by
  obtain ⟨out, st', cs', hline, h', -⟩ := processLine2_spec A h hcmd hlt
  obtain ⟨cs₀, c, rfl, hlen, hc⟩ := h.exists_concat
  obtain ⟨q, q', nodes', c', hgq, hcopy, hdatas, hs⟩ := copy_spec A h.stack
  obtain ⟨q₀, hq₀, hholds⟩ := h.stack.last
  obtain rfl : q = q₀ := Option.some.inj (hgq.symm.trans hq₀)
  have hcopied := copyQueue_card hholds hcopy
  have hclen : c.length = (kept.foldl (Cmd.apply wrapping) []).length := by
    rw [← hc, Cells.length_datas]
  have hlength : c'.length = c.length := by
    rw [← Cells.length_datas, hdatas, Cells.length_datas]
  obtain ⟨nodes, gq, n⟩ := st
  obtain rfl : n = cs₀.length := h.nbrCmds.trans hlen.symm
  dsimp only at hcard hcopied hs
  rw [processLine2_eq A hcmd (by omega) hgq hcopy] at hline ⊢
  obtain ⟨⟨out₁, st₁⟩, hrun, heq⟩ := bind_eq_ok.mp hline
  obtain ⟨-, heq⟩ := Prod.mk.inj (Except.ok.inj heq)
  obtain ⟨rfl, rfl⟩ := Prod.mk.inj heq
  rw [hrun, ok_bind]
  suffices hout : out₁ = cmd.prints (kept.foldl (Cmd.apply wrapping) []) ∧
      st₁.nodes.keys.card = total (survive kept cmd) by
    exact ⟨st₁, cs', by rw [hout.1], h', hout.2⟩
  by_cases hundo : cmd = .undo
  · subst hundo
    obtain ⟨rfl, hfreed⟩ := runCmd_undo_card hs (by omega) hrun
    refine ⟨rfl, ?_⟩
    rw [survive, if_pos rfl]
    -- The nodes of the copy go, and those of the command that is cancelled.
    rcases List.eq_nil_or_concat kept with rfl | ⟨kept, cmd, rfl⟩
    · rw [if_pos (List.length_eq_zero_iff.mp hlen)] at hfreed
      rw [List.dropLast_nil]
      omega
    · rw [List.concat_eq_append] at hlen hcard hclen ⊢
      have hne : cs₀ ≠ [] := by
        rintro rfl
        simp at hlen
      rw [if_neg hne] at hfreed
      rw [total_concat] at hcard
      rw [List.foldl_append, List.foldl_cons, List.foldl_nil] at hclen
      rw [List.dropLast_concat]
      omega
  · obtain ⟨q'', hq', hq''⟩ := hs.last
    rw [List.length_append, List.length_singleton, Function.update_self] at hq'
    obtain rfl := Option.some.inj hq'
    obtain ⟨rfl, hleft⟩ := runCmd_prints hundo hq'' hrun
    rw [hdatas, hc] at hleft ⊢
    rw [survive, if_neg hundo, total_concat]
    exact ⟨rfl, by omega⟩

/-! ## Files -/

/-- The queues from `gq[k]` on are freed, and their nodes are gone. -/
theorem freeFrom_card {st : State} {k n : ℕ} (hlen : cs.length = k + n)
    (hs : ∀ i c, k ≤ i → cs[i]? = some c → ∃ q, st.gq i = some q ∧ Holds nodes q c)
    (hapart : cs.Pairwise fun c c' => ∀ a ∈ c.addrs, a ∉ c'.addrs)
    (hfree : (List.range' k n).foldlM (fun h i => do freeQueue (← st.gqAt i) h) nodes =
      Except.ok nodes') :
    nodes'.keys.card + ((cs.drop k).map List.length).sum = nodes.keys.card := by
  -- Induction on the slots left; freeing slot `k` leaves the cells of the later ones.
  induction n generalizing k nodes with
  | zero =>
    rw [List.drop_eq_nil_of_le (by omega), ← Except.ok.inj hfree]
    rfl
  | succ n ih =>
    have hk : k < cs.length := by omega
    obtain ⟨q, hgq, hq⟩ := hs k _ le_rfl (List.getElem?_eq_getElem hk)
    rw [List.range'_succ, List.foldlM_cons] at hfree
    obtain ⟨nodes₁, hone, hrest⟩ := bind_eq_ok.mp hfree
    obtain ⟨q', hat, hone⟩ := bind_eq_ok.mp hone
    rw [State.gqAt] at hat
    split_ifs at hat
    rw [hgq] at hat
    obtain rfl := Except.ok.inj hat
    obtain ⟨nodes₂, hone', hm⟩ := freeQueue_spec hq
    obtain rfl := Except.ok.inj (hone.symm.trans hone')
    have hs' : ∀ i c, k + 1 ≤ i → cs[i]? = some c → ∃ q, st.gq i = some q ∧ Holds nodes₁ q c := by
      intro i c hi hc
      obtain ⟨q', hgq', hq'⟩ := hs i c (by omega) hc
      obtain ⟨hi', rfl⟩ := List.getElem?_eq_some_iff.mp hc
      refine ⟨q', hgq', hq'.of_moves hm fun a ha ha' => ?_⟩
      exact List.pairwise_iff_getElem.mp hapart k i hk hi' (by omega) a ha' ha
    have hleft := ih (by omega) hs' hrest
    have hfreed := freeQueue_card hq hone
    rw [List.drop_eq_getElem_cons hk, List.map_cons, List.sum_cons]
    omega

/-- Nothing is left when the history is freed. -/
theorem freeAll_empty {st : State} (h : Snapshots st kept cs) (hlt : kept.length < 50000)
    (hcard : st.nodes.keys.card = total kept) : st.freeAll = .ok ∅ := by
  obtain ⟨nodes', hfree⟩ := freeAll_spec h hlt
  have hlen := h.length
  have hrange := hfree
  rw [State.freeAll, List.range_eq_range'] at hrange
  have hlen' : cs.length = 0 + (st.nbrCmds + 1) := by
    rw [h.nbrCmds]
    omega
  have hleft := freeFrom_card hlen' (fun i c _ hc => h.stack.holds i c hc) h.stack.apart hrange
  rw [List.drop_zero, h.sum_length] at hleft
  have hempty : nodes' = ∅ := Heap.eq_empty (by omega)
  rw [hfree, hempty]

/-- The end of `main`, after its loop. -/
def finish (r : Bool × Text × State) : Except Fault Text := do
  if r.1 then
    let _ ← r.2.2.freeAll
    return r.2.1
  else
    let printed ← printQueue (← r.2.2.gqAt r.2.2.nbrCmds) r.2.2.nodes
    let _ ← r.2.2.freeAll
    return r.2.1 ++ printed

/-- The program is its loop and what comes after it. -/
theorem main_eq_finish (A : Allocator) (script : List Text) :
    main A wrapping script = mainLoop A wrapping script .start >>= finish := rfl

/-- What has been printed before stays in front. -/
theorem finish_append (ret : Bool) (out out' : Text) (st : State) :
    finish (ret, out ++ out', st) = (finish (ret, out', st)).map (out ++ ·) := by
  cases ret with
  | true =>
    simp only [finish]
    cases st.freeAll <;> rfl
  | false =>
    simp only [finish]
    cases st.gqAt st.nbrCmds with
    | error e => rfl
    | ok q =>
      simp only [ok_bind]
      cases printQueue q st.nodes with
      | error e => rfl
      | ok printed => cases st.freeAll <;> simp [bind, Except.bind, Except.map, pure, Except.pure]

/-- A command that counts is out of bounds when the history is full. -/
theorem processLine2_range (A : Allocator) {st : State} (h : Snapshots st kept cs)
    (hlt : kept.length < 50000) {line : Text} {argv : List Text}
    (hargv : processCmd line = .ok argv) (hcheck : checkCmd argv = true)
    (hfull : ¬ kept.length + 1 < 50000) :
    processLine2 A wrapping line st = .error .range := by
  obtain ⟨cs₀, c, rfl, hlen, -⟩ := h.exists_concat
  obtain ⟨q, q', nodes', c', hgq, hcopy, -, -⟩ := copy_spec A h.stack
  have hn : st.nbrCmds = cs₀.length := h.nbrCmds.trans hlen.symm
  have hat : st.gqAt st.nbrCmds = .ok q := by
    rw [State.gqAt, hn, if_neg (by omega), hgq]
  simp only [processLine2, hargv, hcheck, hat, hcopy, ok_bind, Bool.not_true, Bool.false_eq_true,
    if_false, State.setGq, if_pos (show 50000 ≤ st.nbrCmds + 1 by omega)]
  rfl

/-- From any state of the loop, the program prints what a replay of the kept commands prints, and
its history can be freed. -/
theorem mainLoop_replay (A : Allocator) (script : List Text) {st : State} (h : Snapshots st kept cs)
    (hlt : kept.length < 50000) (hcard : st.nodes.keys.card = total kept) :
    mainLoop A wrapping script st >>= finish = replay script kept ∧
      ∀ ret out st', mainLoop A wrapping script st = .ok (ret, out, st') → st'.freeAll = .ok ∅ := by
  have hfree := freeAll_empty h hlt hcard
  induction script generalizing st kept cs with
  | nil =>
    obtain ⟨cs₀, c, rfl, hlen, hc⟩ := h.exists_concat
    obtain ⟨q, hgq, hq⟩ := h.stack.last
    have hat : st.gqAt st.nbrCmds = .ok q := by
      rw [State.gqAt, h.nbrCmds, if_neg (by omega), ← hlen, hgq]
    have hprint := printQueue_spec hq
    rw [hc] at hprint
    constructor
    · simp only [mainLoop, finish, hat, hprint, hfree, pure_bind, Bool.false_eq_true,
        if_false, ok_bind]
      rfl
    · rintro ret out st' heq
      obtain ⟨-, heq⟩ := Prod.mk.inj (Except.ok.inj heq)
      obtain ⟨-, rfl⟩ := Prod.mk.inj heq
      exact hfree
  | cons line lines ih =>
    rw [mainLoop, replay]
    cases hargv : processCmd line with
    | error e =>
      have hline : processLine2 A wrapping line st = .error e := by
        rw [processLine2, hargv]
        rfl
      rw [hline]
      exact ⟨rfl, fun _ _ _ heq => by cases heq⟩
    | ok argv =>
      dsimp only
      by_cases hcheck : checkCmd argv = true
      · rw [if_neg (by simp [hcheck])]
        by_cases hroom : kept.length + 1 < 50000
        · have hcmd : command line = some (readCmd argv) := by
            simp only [command, hargv, hcheck, if_true]
          obtain ⟨st₁, cs₁, hline, h₁, hcard₁⟩ := processLine2_prints A h hcard hcmd hroom
          have hlt₁ := (length_survive kept (readCmd argv)).trans_lt hroom
          obtain ⟨hrest, hend⟩ := ih h₁ hlt₁ hcard₁ (freeAll_empty h₁ hlt₁ hcard₁)
          rw [if_pos hroom, hline, ok_bind, if_neg Bool.false_ne_true, ← hrest]
          cases hloop : mainLoop A wrapping lines st₁ with
          | error e => exact ⟨rfl, fun _ _ _ heq => by cases heq⟩
          | ok r =>
            refine ⟨finish_append _ _ _ _, fun ret out st' heq => ?_⟩
            obtain ⟨-, heq⟩ := Prod.mk.inj (Except.ok.inj heq)
            obtain ⟨-, rfl⟩ := Prod.mk.inj heq
            exact hend _ _ _ hloop
        · rw [if_neg hroom, processLine2_range A h hlt hargv hcheck hroom]
          exact ⟨rfl, fun _ _ _ heq => by cases heq⟩
      -- `check_cmd` rejects the line
      · have hline : processLine2 A wrapping line st = .ok (true, text "ERROR\n", st) := by
          rw [processLine2, hargv]
          simp only [ok_bind, hcheck]
          rfl
        rw [if_pos (by simp [hcheck]), hline, ok_bind, if_pos rfl]
        refine ⟨by simp only [finish, pure_bind, if_true, hfree, ok_bind]; rfl,
          fun ret out st' heq => ?_⟩
        obtain ⟨-, heq⟩ := Prod.mk.inj (Except.ok.inj heq)
        obtain ⟨-, rfl⟩ := Prod.mk.inj heq
        exact hfree

/-- **Undone commands leave no trace in what is printed afterwards.** For every file the program
prints what a replay of the commands that are not cancelled prints, line by line, and all nodes that
it has allocated are freed when it has freed its history. -/
theorem main_eq_replay (A : Allocator) (script : List Text) :
    main A wrapping script = replay script [] ∧
      ∀ ret out st, mainLoop A wrapping script .start = .ok (ret, out, st) → st.freeAll = .ok ∅ :=
  mainLoop_replay A script snapshots_start (by decide) rfl

example :
    replay [text "enqueue ab\n", text "encode_enqueue 1 yz\n", text "dequeue\n", text "undo\n",
    text "dequeue\n", text "dequeue_decode 1\n"] [] = .ok (text "ab\nab\nyz\nfinally: \n") := by
  decide +kernel

/-! ## Files for both programs -/

/-- A line that ends at its newline, if it has one. -/
def IsLine (line : Text) : Prop := 10 ∉ line.dropLast

/-- A line whose command is none of the three that only the ciphered queue has. -/
def Plain (line : Text) : Prop :=
  ∀ name ∈ (QueueMain.words line).head?,
    name ≠ text "encode_enqueue" ∧ name ≠ text "dequeue_decode" ∧ name ≠ text "undo"

instance (line : Text) : Decidable (IsLine line) := inferInstanceAs (Decidable (10 ∉ line.dropLast))

instance (line : Text) : Decidable (Plain line) :=
  inferInstanceAs (Decidable (∀ name ∈ (QueueMain.words line).head?,
    name ≠ text "encode_enqueue" ∧ name ≠ text "dequeue_decode" ∧ name ≠ text "undo"))

/-- A piece that is not the last one lies before some separator. -/
theorem exists_eq_intercalate {sep x : UInt8} {b : Text} {l₁ l₂ : List Text} (hb : b ∈ l₁)
    (hx : x ∈ b) (hne : l₂ ≠ []) :
    ∃ before after, [sep].intercalate (l₁ ++ l₂) = before ++ sep :: after ∧ x ∈ before := by
  induction l₁ with
  | nil => cases hb
  | cons y l₁ ih =>
    rw [List.cons_append, List.intercalate_cons_of_ne_nil
      (List.append_ne_nil_of_right_ne_nil _ hne)]
    rcases List.mem_cons.mp hb with rfl | hb
    · exact ⟨b, _, by rw [List.append_assoc, List.singleton_append], hx⟩
    · obtain ⟨before, after, heq, hmem⟩ := ih hb
      exact ⟨y ++ [sep] ++ before, after, by rw [heq, List.append_assoc _ before],
        List.mem_append_right _ hmem⟩

/-- A token that is not the last one lies before the last character of the line. -/
theorem mem_dropLast_of_tokens {line b c : Text} {before rest : List Text}
    (htokens : tokens line = before ++ b :: c :: rest) {x : UInt8} (hx : x ∈ b) :
    x ∈ line.dropLast := by
  rw [List.append_cons, tokens, List.filter_eq_append_iff] at htokens
  obtain ⟨l₁, l₂, hsplit, h₁, h₂⟩ := htokens
  have hb : b ∈ l₁ := by
    have hmem : b ∈ before ++ [b] := by simp
    exact List.mem_of_mem_filter (h₁ ▸ hmem)
  have hne : l₂ ≠ [] := by
    rintro rfl
    cases h₂
  obtain ⟨start, stop, heq, hmem⟩ := @exists_eq_intercalate 32 x b l₁ l₂ hb hx hne
  rw [← hsplit, List.intercalate_splitOn] at heq
  rw [← List.takeWhile_append_dropWhile (p := (· ≠ 0)) (l := line), heq, List.append_assoc,
    List.cons_append, List.dropLast_append_of_ne_nil (List.cons_ne_nil _ _)]
  exact List.mem_append_left _ hmem

/-- Two words are all that the programs look at in a plain line. -/
theorem processCmd_take {line : Text} (hline : IsLine line) :
    (processCmd line = .error .range ∧ QueueMain.words line = []) ∨
      ∃ name args, processCmd line = .ok (name :: args) ∧
        QueueMain.words line = name :: args.take 1 := by
  rw [processCmd, QueueMain.words]
  cases htokens : tokens line with
  | nil => exact .inl ⟨rfl, rfl⟩
  | cons a l =>
    refine .inr ?_
    cases l with
    | nil => exact ⟨_, [], rfl, rfl⟩
    | cons b l =>
      cases l with
      | nil => exact ⟨a, _, rfl, rfl⟩
      | cons c l =>
        -- A token before the last ends in no newline, so cutting it there changes nothing.
        have hmiddle : tokens line = [a] ++ b :: c :: l := htokens
        have hb : b.getLast? ≠ some 10 := fun hlast =>
          hline (mem_dropLast_of_tokens hmiddle (List.mem_of_getLast? hlast))
        refine ⟨a, _, rfl, ?_⟩
        simp [hb]

/-- The replay of plain lines is the list of the other program. -/
theorem replay_eq_fifo {script : List Text} (hlines : ∀ line ∈ script, IsLine line ∧ Plain line)
    {kept : List Cmd} (hlt : kept.length + script.length < 50000) :
    replay script kept = QueueMain.fifo script (kept.foldl (Cmd.apply wrapping) []) := by
  -- Induction on the script: what `replay` keeps folds to the queue that `fifo` carries.
  induction script generalizing kept with
  | nil => rfl
  | cons line lines ih =>
    obtain ⟨⟨hline, hplain⟩, hrest⟩ := List.forall_mem_cons.mp hlines
    rw [List.length_cons] at hlt
    have hstep : ∀ cmd, cmd ≠ .undo → replay lines (survive kept cmd) =
        QueueMain.fifo lines (cmd.apply wrapping (kept.foldl (Cmd.apply wrapping) [])) := by
      intro cmd hcmd
      rw [survive, if_neg hcmd, ih hrest (by rw [List.length_append, List.length_singleton]; omega),
        List.foldl_append]
      rfl
    rw [replay, QueueMain.fifo]
    rcases processCmd_take hline with ⟨hcmd, hwords⟩ | ⟨name, args, hcmd, hwords⟩
    · rw [hcmd, hwords]
    · obtain ⟨hencode, hdecode, hundo⟩ := hplain name (by simp [hwords])
      rw [hcmd, hwords]
      dsimp only
      have hroom : kept.length + 1 < 50000 := by omega
      -- A command that prints nothing prepends nothing.
      have hsilent : ∀ r : Except Fault Text, r.map ([] ++ ·) = r := fun r => by cases r <;> rfl
      by_cases henqueue : name = text "enqueue"
      · subst henqueue
        rw [if_pos rfl]
        cases args with
        | nil =>
          rw [if_pos (by simp [checkCmd, hencode, hdecode])]
          rfl
        | cons data args =>
          have hread : readCmd (text "enqueue" :: data :: args) = .enqueue data := by
            simp [readCmd, hencode, hdecode]
          rw [if_neg (by simp [checkCmd, hencode, hdecode]), if_pos hroom, hread,
            Cmd.prints, hsilent, hstep _ (by simp)]
          rfl
      · rw [if_neg (by simp [checkCmd, hencode, hdecode, henqueue]), if_pos hroom, if_neg henqueue]
        by_cases hdequeue : name = text "dequeue"
        · subst hdequeue
          have hread : readCmd (text "dequeue" :: args) = .dequeue := by
            simp [readCmd, hencode, hdecode, henqueue]
          rw [if_pos rfl, hread, hstep _ (by simp)]
          rfl
        · have hread : readCmd (name :: args) = .unknown := by
            simp [readCmd, hencode, hdecode, henqueue, hdequeue, hundo]
          rw [if_neg hdequeue, hread, Cmd.prints, hsilent, hstep _ (by simp)]
          rfl

/-- **The history is invisible without `undo`.** A file of fewer than 50000 lines that uses only
what both programs know makes both print the same. -/
theorem main_eq_queueMain (A A' : Allocator) {script : List Text} (hlen : script.length < 50000)
    (hlines : ∀ line ∈ script, IsLine line ∧ Plain line) :
    main A wrapping script = (QueueMain.main A' script).map Prod.fst := by
  rw [main_eq_finish, (mainLoop_replay A script snapshots_start (by decide) rfl).1,
    replay_eq_fifo hlines (by simpa using hlen), QueueMain.main,
    QueueMain.mainLoop_eq_fifo A' script QueueMain.sole_start, List.foldl_nil]
  cases QueueMain.fifo script [] <;> rfl

/-- `enqueue CS`, `dequeue now`, a line with a word that no program knows, and `enqueue` alone -/
theorem main_eq_queueMain_error :
    main (above 0) wrapping [text "enqueue CS\n", text "dequeue now\n", text "pop\n",
      text "enqueue\n"] =
      (QueueMain.main (above 3)
        [text "enqueue CS\n", text "dequeue now\n", text "pop\n", text "enqueue\n"]).map Prod.fst :=
  main_eq_queueMain (above 0) (above 3) (by decide) (by decide +kernel)

end Cs5600.Lab1
