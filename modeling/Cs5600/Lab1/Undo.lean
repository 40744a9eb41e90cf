import Cs5600.Lab1.CipheredQueue

/-!
# Undo

A script is a list of commands, and each `undo` cancels the last command before it that is not
cancelled yet (`survivors`). `Stack` is the invariant of the interpreter: `gq` holds queues whose
nodes are apart, the last of them at `gq[nbr_cmds]`. What a command does to the last queue moves its
nodes only (`Moves`), so that the others stay as they are; their strings are those after each of the
commands that survive (`Snapshots`).
-/

namespace Cs5600.Lab1

open Function (update)

/-- What a command does to a list, where `undo` is none. -/
def Cmd.apply (int : Arith) (l : List Text) : Cmd → List Text
  | .encodeEnqueue key data =>
    match encode int data key with
    | .ok (_, ciphertext) => l ++ [ciphertext]
    | .error _ => l
  | .enqueue data => l ++ [data]
  | .dequeueDecode _ | .dequeue => l.tail
  | .undo | .unknown => l

/-- The commands that are not cancelled, when `cmd` comes after the commands of which `kept` are
not. -/
def survive (kept : List Cmd) (cmd : Cmd) : List Cmd :=
  if cmd = .undo then kept.dropLast else kept ++ [cmd]

def survivors (cmds : List Cmd) : List Cmd := cmds.foldl survive []

/-- The command of a line that is well-formed. -/
def command (line : Text) : Option Cmd :=
  match processCmd line with
  | .error _ => none
  | .ok argv => if checkCmd argv then some (readCmd argv) else none

/-- The queues at `gq[0]` and on have the nodes `cs`, and no node is in two of them. -/
structure Stack (nodes : Nodes) (gq : ℕ → Option Queue) (cs : List Cells) : Prop where
  holds : ∀ i c, cs[i]? = some c → ∃ q, gq i = some q ∧ Holds nodes q c
  apart : cs.Pairwise fun c c' => ∀ a ∈ c.addrs, a ∉ c'.addrs

variable {nodes nodes' : Nodes} {gq gq' : ℕ → Option Queue} {cs : List Cells} {top top' : Cells}

/-- One queue moves, and the queues that are apart from it stay. -/
theorem Stack.moves (hs : Stack nodes gq cs) (hm : Moves nodes top nodes' top')
    (hapart : ∀ c ∈ cs, ∀ a ∈ c.addrs, a ∉ top.addrs) (hgq : ∀ i < cs.length, gq' i = gq i) :
    Stack nodes' gq' cs ∧ ∀ c ∈ cs, ∀ a ∈ c.addrs, a ∉ top'.addrs := by
  have hmem : ∀ c ∈ cs, ∃ q, Holds nodes q c := by
    intro c hc
    obtain ⟨i, hi⟩ := List.mem_iff_getElem?.mp hc
    obtain ⟨q, -, hq⟩ := hs.holds i c hi
    exact ⟨q, hq⟩
  refine ⟨⟨fun i c hc => ?_, hs.apart⟩, fun c hc a ha => ?_⟩
  · obtain ⟨q, hq, hholds⟩ := hs.holds i c hc
    have hlt : i < cs.length := (List.getElem?_eq_some_iff.mp hc).1
    exact ⟨q, (hgq i hlt).trans hq,
      hholds.of_moves hm (hapart c (List.mem_of_getElem? hc))⟩
  · obtain ⟨q, hq⟩ := hmem c hc
    exact (hm.mem (hq.mem ha) (hapart c hc a ha)).2

/-- A queue on top of the stack. -/
theorem Stack.concat {q : Queue} (hs : Stack nodes gq cs) (htop : Holds nodes q top)
    (hapart : ∀ c ∈ cs, ∀ a ∈ c.addrs, a ∉ top.addrs) :
    Stack nodes (update gq cs.length (some q)) (cs ++ [top]) where
  holds i c hc := by
    -- Below the top nothing moves; at the top is the new queue; above there is nothing.
    rcases Nat.lt_trichotomy i cs.length with hlt | rfl | hgt
    · rw [List.getElem?_append_left hlt] at hc
      rw [Function.update_of_ne hlt.ne]
      exact hs.holds i c hc
    · rw [List.getElem?_concat_length, Option.some.injEq] at hc
      rw [Function.update_self, ← hc]
      exact ⟨q, rfl, htop⟩
    · rw [List.getElem?_eq_none (by simp; omega)] at hc
      cases hc
  apart := by
    rw [List.pairwise_append]
    refine ⟨hs.apart, List.pairwise_singleton _ _, fun c hc c' hc' => ?_⟩
    rw [List.mem_singleton.mp hc']
    exact hapart c hc

/-- The last copy of the history is a queue. -/
theorem Stack.last (hs : Stack nodes gq (cs ++ [top])) :
    ∃ q, gq cs.length = some q ∧ Holds nodes q top :=
  hs.holds cs.length top List.getElem?_concat_length

/-- The history without its last copy is a history, with other nodes. -/
theorem Stack.init (hs : Stack nodes gq (cs ++ [top])) :
    Stack nodes gq cs ∧ ∀ c ∈ cs, ∀ a ∈ c.addrs, a ∉ top.addrs := by
  obtain ⟨hcs, -, hapart⟩ := List.pairwise_append.mp hs.apart
  refine ⟨⟨fun i c hc => hs.holds i c ?_, hcs⟩,
    fun c hc => hapart c hc top (List.mem_singleton_self top)⟩
  rw [List.getElem?_append_left (List.getElem?_eq_some_iff.mp hc).1, hc]

/-- The last copy may move. -/
theorem Stack.replace {q : Queue} (hs : Stack nodes gq (cs ++ [top]))
    (hm : Moves nodes top nodes' top') (hq : Holds nodes' q top') :
    Stack nodes' (update gq cs.length (some q)) (cs ++ [top']) := by
  obtain ⟨hinit, hapart⟩ := hs.init
  obtain ⟨hstack, hapart'⟩ := hinit.moves hm hapart fun _ _ => rfl
  exact hstack.concat hq hapart'

/-- The queue on top is dropped. -/
theorem pop_spec (hs : Stack nodes gq (cs ++ [top])) (hlt : cs.length < 50000) :
    ∃ nodes', State.pop ⟨nodes, gq, cs.length⟩ =
      .ok ⟨nodes', update gq cs.length none, cs.length - 1⟩ ∧
      Stack nodes' (update gq cs.length none) cs := by
  obtain ⟨q, hgq, hq⟩ := hs.last
  obtain ⟨nodes', hfree, hm⟩ := freeQueue_spec hq
  obtain ⟨hinit, hapart⟩ := hs.init
  refine ⟨nodes', ?_, (hinit.moves hm hapart fun i hi => Function.update_of_ne hi.ne _ _).1⟩
  have hat : State.gqAt ⟨nodes, gq, cs.length⟩ cs.length = .ok q := by
    rw [State.gqAt, if_neg (by omega)]
    simp only [hgq]
  simp only [State.pop, hat, hfree, ok_bind]
  rfl

/-! ## Commands -/

/-- The node that `dequeue` has taken off is printed and freed. -/
theorem answer_spec {q : Queue} (hq : Holds nodes q top) {q' : Queue}
    (hq' : Holds nodes q' top.tail) :
    ∃ out nodes', answer (top.head?.map Prod.fst) nodes = .ok (out, nodes') ∧
      Holds nodes' q' top.tail ∧ Moves nodes top nodes' top.tail := by
  cases top with
  | nil => exact ⟨_, nodes, rfl, hq', Moves.refl nodes []⟩
  | cons x cells =>
    obtain ⟨hfree, hrest, hm⟩ := freeNode_cons hq hq'
    refine ⟨x.2.data ++ text "\n", nodes.erase x.1, ?_, hrest, hm⟩
    simp only [List.head?_cons, Option.map_some, answer, nodeAt_of_lookup hq.seg.2.1, hfree]
    rfl

/-- `dequeue` takes off the first node, if there is one. -/
theorem dequeue_spec {q : Queue} (hq : Holds nodes q top) :
    ∃ q', dequeue q nodes = .ok (top.head?.map Prod.fst, q') ∧ Holds nodes q' top.tail := by
  cases top with
  | nil => exact ⟨q, dequeue_nil hq, hq⟩
  | cons x cells => exact dequeue_cons hq

/-- `dequeue_decode` changes the string of the node that it takes off. -/
theorem dequeueDecode_spec {q : Queue} (key : ℤ) (hq : Holds nodes q top) :
    ∃ q' nodes' top', dequeueDecode wrapping q key nodes =
      .ok (top.head?.map Prod.fst, q', nodes') ∧
      Holds nodes' q top' ∧ Holds nodes' q' top'.tail ∧
      top'.head?.map Prod.fst = top.head?.map Prod.fst ∧
      top'.tail = top.tail ∧ Moves nodes top nodes' top' := by
  obtain ⟨q', hdequeue, hq'⟩ := dequeue_spec hq
  rw [dequeueDecode, hdequeue]
  cases top with
  | nil => exact ⟨q', nodes, [], rfl, hq, hq', rfl, rfl, Moves.refl nodes []⟩
  | cons x cells =>
    have hx := hq.seg.2.1
    simp only [List.head?_cons, Option.map_some, ok_bind, nodeAt_of_lookup hx]
    split_ifs
    · exact ⟨q', nodes, x :: cells, rfl, hq, hq', rfl, rfl, Moves.refl nodes _⟩
    · obtain ⟨⟨buffer, r⟩, hdecode⟩ := decode_wrapping x.2.data key
      simp only [hdecode, ok_bind]
      -- The overwritten node is the head's, so the rest of the queue reads as before.
      have hnot : x.1 ∉ Cells.addrs cells := (List.nodup_cons.mp hq.nodup).1
      have hrest : ∀ a ∈ Cells.addrs cells,
          (nodes.insert x.1 ⟨buffer, x.2.next⟩).lookup a = nodes.lookup a :=
        fun a ha => Finmap.lookup_insert_of_ne _ fun heq => hnot (heq ▸ ha)
      have hholds' : Holds (nodes.insert x.1 ⟨buffer, x.2.next⟩) q' cells := hq'.frame hrest
      have hseg : Heap.Seg Node.next (nodes.insert x.1 ⟨buffer, x.2.next⟩) x.2.next cells none :=
        hq.seg.2.2.frame fun y hy => by
          rw [hrest y.1 (List.mem_map_of_mem hy)]
          exact hq.seg.2.2.lookup hy
      refine ⟨q', _, (x.1, ⟨buffer, x.2.next⟩) :: cells, rfl,
        ⟨⟨hq.seg.1, Finmap.lookup_insert _, hseg⟩, ?_⟩, hholds', rfl, rfl, ?_, ?_⟩
      · rw [hq.tail]
        rfl
      · intro a _ ha
        exact Finmap.lookup_insert_of_ne _ fun heq => ha (heq ▸ List.mem_cons_self)
      · exact fun a ha => .inl ha

/-- The words behind the first node are the words behind the first word. -/
theorem Cells.datas_tail (cells : Cells) : Cells.datas cells.tail = (Cells.datas cells).tail := by
  cases cells <;> rfl

/-- A command that is not `undo` changes the queue on top. -/
theorem runCmd_spec (A : Allocator) {cmd : Cmd} (hcmd : cmd ≠ .undo) {q : Queue}
    (hs : Stack nodes gq (cs ++ [top])) (hgq : gq cs.length = some q) :
    ∃ out nodes' gq' top', runCmd A wrapping cmd q ⟨nodes, gq, cs.length⟩ =
        .ok (out, ⟨nodes', gq', cs.length⟩) ∧
      Stack nodes' gq' (cs ++ [top']) ∧ Cells.datas top' = cmd.apply wrapping (Cells.datas top) ∧
      ∀ i < cs.length, gq' i = gq i := by
  obtain ⟨q', hgq', hq⟩ := hs.last
  obtain rfl : q = q' := Option.some.inj (hgq.symm.trans hgq')
  have hkeep : ∀ q', ∀ i < cs.length, update gq cs.length (some q') i = gq i :=
    fun _ _ hi => Function.update_of_ne hi.ne _ _
  cases cmd with
  | undo => exact absurd rfl hcmd
  | unknown =>
    exact ⟨[], nodes, gq, top, rfl, hs, rfl, fun _ _ => rfl⟩
  | enqueue data =>
    obtain ⟨q', nodes', top', henqueue, hq', hdatas, hm⟩ := enqueue_spec A data hq
    refine ⟨[], nodes', update gq cs.length (some q'), top', ?_, hs.replace hm hq',
      hdatas, hkeep q'⟩
    simp only [runCmd, henqueue, ok_bind]
    rfl
  | encodeEnqueue key data =>
    obtain ⟨⟨buffer, ciphertext⟩, hencode⟩ := encode_wrapping data key
    obtain ⟨q', nodes', top', henqueue, hq', hdatas, hm⟩ := enqueue_spec A ciphertext hq
    refine ⟨[], nodes', update gq cs.length (some q'), top', ?_, hs.replace hm hq', ?_, hkeep q'⟩
    · simp only [runCmd, encodeEnqueue, hencode, henqueue, ok_bind]
      rfl
    · rw [hdatas, Cmd.apply, hencode]
  | dequeue =>
    obtain ⟨q', hdequeue, hq'⟩ := dequeue_spec hq
    obtain ⟨out, nodes', hanswer, hrest, hm⟩ := answer_spec hq hq'
    refine ⟨out, nodes', update gq cs.length (some q'), top.tail, ?_, hs.replace hm hrest,
      Cells.datas_tail top, hkeep q'⟩
    simp only [runCmd, hdequeue, hanswer, ok_bind]
    rfl
  -- The node is taken out, decoded, and only then answered, so the nodes move twice.
  | dequeueDecode key =>
    obtain ⟨q', nodes₁, top₁, hdequeue, hq₁, hq', hhead, htail, hm⟩ := dequeueDecode_spec key hq
    obtain ⟨out, nodes', hanswer, hrest, hm'⟩ := answer_spec hq₁ hq'
    rw [hhead] at hanswer
    rw [htail] at hrest hm'
    refine ⟨out, nodes', update gq cs.length (some q'), top.tail, ?_,
      hs.replace (hm.trans hm') hrest, Cells.datas_tail top, hkeep q'⟩
    simp only [runCmd, hdequeue, hanswer, ok_bind]
    rfl

/-- `undo` drops the copy and the queue below it, unless this is the first. -/
theorem runCmd_undo (A : Allocator) {q : Queue} {c : Cells}
    (hs : Stack nodes gq (cs ++ [c] ++ [top])) (hlt : cs.length + 1 < 50000) :
    ∃ nodes' gq', runCmd A wrapping .undo q ⟨nodes, gq, cs.length + 1⟩ =
        .ok ([], ⟨nodes', gq', cs.length - 1⟩) ∧
      Stack nodes' gq' (if cs = [] then [c] else cs) ∧ ∀ i < cs.length - 1, gq' i = gq i := by
  obtain ⟨nodes₁, hpop₁, hs₁⟩ := pop_spec hs (by simpa using hlt)
  rw [show (cs ++ [c]).length = cs.length + 1 by simp] at hpop₁ hs₁
  rw [Nat.add_sub_cancel] at hpop₁
  simp only [runCmd, hpop₁, ok_bind]
  by_cases hcs : cs = []
  -- One queue below the copy: the second pop is not made.
  · subst hcs
    refine ⟨nodes₁, update gq 1 none, rfl, ?_, fun i hi => by cases hi⟩
    simpa using hs₁
  · have hpos : 0 < cs.length := List.length_pos_iff.mpr hcs
    obtain ⟨nodes₂, hpop₂, hs₂⟩ := pop_spec hs₁ (by omega)
    refine ⟨nodes₂, update (update gq (cs.length + 1) none) cs.length none, ?_, ?_, ?_⟩
    · rw [if_pos hpos, hpop₂]
      rfl
    · rw [if_neg hcs]
      exact hs₂
    · intro i hi
      rw [Function.update_of_ne (by omega), Function.update_of_ne (by omega)]

/-! ## Scripts -/

/-- The queues with the nodes `cs` are those after each of the commands `kept`. -/
structure Snapshots (st : State) (kept : List Cmd) (cs : List Cells) : Prop where
  nbrCmds : st.nbrCmds = kept.length
  stack : Stack st.nodes st.gq cs
  datas : cs.map Cells.datas = kept.scanl (Cmd.apply wrapping) []

/-- There is one copy for each command that is kept, and the empty queue at the start. -/
theorem Snapshots.length {st : State} {kept : List Cmd} (h : Snapshots st kept cs) :
    cs.length = kept.length + 1 := by
  have hlen := congrArg List.length h.datas
  rwa [List.length_map, List.length_scanl] at hlen

/-- The nodes of the current queue. -/
theorem Snapshots.exists_concat {st : State} {kept : List Cmd} (h : Snapshots st kept cs) :
    ∃ cs₀ c, cs = cs₀ ++ [c] ∧ cs₀.length = kept.length ∧
      Cells.datas c = kept.foldl (Cmd.apply wrapping) [] := by
  have hlen := h.length
  rcases List.eq_nil_or_concat cs with rfl | ⟨cs₀, c, rfl⟩
  · cases hlen
  · rw [List.concat_eq_append] at hlen ⊢
    have hlast := congrArg List.getLast? h.datas
    rw [List.concat_eq_append, List.getLast?_scanl, List.map_append, List.map_singleton,
      List.getLast?_concat] at hlast
    exact ⟨cs₀, c, rfl, by simpa using hlen, Option.some.inj hlast⟩

/-- A copy of the current queue is put on top. -/
theorem copy_spec (A : Allocator) {c : Cells} (hs : Stack nodes gq (cs ++ [c])) :
    ∃ q q' nodes' c', gq cs.length = some q ∧ copyQueue A q nodes = .ok (q', nodes') ∧
      Cells.datas c' = Cells.datas c ∧
      Stack nodes' (update gq (cs.length + 1) (some q')) (cs ++ [c] ++ [c']) := by
  obtain ⟨q, hgq, hq⟩ := hs.last
  obtain ⟨q', nodes', c', hcopy, hq', hdatas, hm⟩ := copyQueue_spec A hq
  obtain ⟨hs', hapart⟩ : Stack nodes' gq (cs ++ [c]) ∧
    ∀ x ∈ cs ++ [c], ∀ a ∈ x.addrs, a ∉ c'.addrs :=
    hs.moves hm (fun _ _ _ _ => List.not_mem_nil) fun _ _ => rfl
  have hconcat := hs'.concat hq' hapart
  rw [List.length_append, List.length_singleton] at hconcat
  exact ⟨q, q', nodes', c', hgq, hcopy, hdatas, hconcat⟩

/-- A line with a command copies the last queue and runs the command on the copy. -/
theorem processLine2_eq (A : Allocator) {line : Text} {cmd : Cmd} (hcmd : command line = some cmd)
    {n : ℕ} (hlt : n + 1 < 50000) {q q' : Queue} (hgq : gq n = some q)
    (hcopy : copyQueue A q nodes = .ok (q', nodes')) :
    processLine2 A wrapping line ⟨nodes, gq, n⟩ =
      runCmd A wrapping cmd q' ⟨nodes', update gq (n + 1) (some q'), n + 1⟩ >>= fun r =>
        .ok (false, r.1, r.2) := by
  unfold command at hcmd
  cases hargv : processCmd line with
  | error e =>
    rw [hargv] at hcmd
    cases hcmd
  | ok argv =>
    rw [hargv] at hcmd
    dsimp only at hcmd
    split_ifs at hcmd with hcheck
    obtain rfl := Option.some.inj hcmd
    -- `gq[nbr_cmds]` is in range and set.
    have hat : State.gqAt ⟨nodes, gq, n⟩ n = .ok q := by
      rw [State.gqAt, if_neg (by omega)]
      simp only [hgq]
    simp only [processLine2, hargv, hcheck, hat, hcopy, ok_bind, Bool.not_true, Bool.false_eq_true,
      if_false, State.setGq, if_neg (show ¬ 50000 ≤ n + 1 by omega)]
    rfl

/-- A line changes the snapshots as its command says, and those below the current one not at all. -/
theorem processLine2_spec (A : Allocator) {st : State} {kept : List Cmd} (h : Snapshots st kept cs)
    {line : Text} {cmd : Cmd} (hcmd : command line = some cmd) (hlt : kept.length + 1 < 50000) :
    ∃ out st' cs', processLine2 A wrapping line st = .ok (false, out, st') ∧
      Snapshots st' (survive kept cmd) cs' ∧
      ∀ i < st'.nbrCmds, cs'[i]? = cs[i]? ∧ st'.gq i = st.gq i := by
  obtain ⟨cs₀, c, rfl, hlen, hc⟩ := h.exists_concat
  obtain ⟨q, q', nodes', c', hgq, hcopy, hdatas, hs⟩ := copy_spec A h.stack
  obtain ⟨nodes, gq, n⟩ := st
  obtain rfl : n = cs₀.length := h.nbrCmds.trans hlen.symm
  rw [processLine2_eq A hcmd (by omega) hgq hcopy]
  -- `undo` goes back to a snapshot that is there already; every other command works on the copy
  by_cases hundo : cmd = .undo
  · subst hundo
    obtain ⟨nodes'', gq', hrun, hs', hkeep⟩ := runCmd_undo A (q := q') hs (by omega)
    rw [hrun, ok_bind]
    refine ⟨[], _, if cs₀ = [] then [c] else cs₀, rfl, ?_⟩
    have hmap := h.datas
    -- With nothing to take back the copy is dropped and the first queue stays.
    rcases List.eq_nil_or_concat kept with rfl | ⟨kept, cmd, rfl⟩
    · obtain rfl : cs₀ = [] := List.length_eq_zero_iff.mp hlen
      exact ⟨⟨rfl, hs', hmap⟩, fun i hi => by cases hi⟩
    · rw [List.concat_eq_append] at hlen hmap ⊢
      have hne : cs₀ ≠ [] := by
        rintro rfl
        simp at hlen
      rw [if_neg hne] at hs' ⊢
      rw [List.scanl_append, List.map_append] at hmap
      refine ⟨⟨?_, hs', ?_⟩, ?_⟩
      · simp [survive, hlen]
      · rw [survive, if_pos rfl, List.dropLast_concat]
        exact List.append_inj_left' hmap (by simp)
      · intro i hi
        have hi' : i < cs₀.length - 1 := hi
        refine ⟨(List.getElem?_append_left (by omega)).symm, (hkeep i hi).trans ?_⟩
        exact Function.update_of_ne (by omega) _ _
  · have hlen' : (cs₀ ++ [c]).length = cs₀.length + 1 := by simp
    rw [← hlen'] at hs ⊢
    obtain ⟨out, nodes'', gq', c'', hrun, hs', hdatas', hkeep⟩ :=
      runCmd_spec A hundo hs (Function.update_self _ _ _)
    rw [hrun, ok_bind]
    refine ⟨out, _, cs₀ ++ [c] ++ [c''], rfl, ⟨?_, hs', ?_⟩, ?_⟩
    · simp [survive, hundo, hlen]
    · have hmap := h.datas
      rw [survive, if_neg hundo, List.scanl_append, List.map_append, hmap,
        List.map_singleton, hdatas', hdatas, hc]
      rfl
    · intro i hi
      exact ⟨List.getElem?_append_left hi, (hkeep i hi).trans (Function.update_of_ne hi.ne _ _)⟩

/-- A command keeps at most one more. -/
theorem length_survive (kept : List Cmd) (cmd : Cmd) :
    (survive kept cmd).length ≤ kept.length + 1 := by
  unfold survive
  split_ifs
  · rw [List.length_dropLast]
    omega
  · rw [List.length_append, List.length_singleton]

/-- Commands keep at most as many more as they are. -/
theorem length_foldl_survive (kept cmds : List Cmd) :
    (cmds.foldl survive kept).length ≤ kept.length + cmds.length := by
  induction cmds generalizing kept with
  | nil => exact le_rfl
  | cons cmd cmds ih =>
    have hstep := length_survive kept cmd
    have hrest := ih (survive kept cmd)
    rw [List.foldl_cons, List.length_cons]
    omega

/-- The loop of `main` leaves the copies that the commands kept have made. -/
theorem mainLoop_spec (A : Allocator) {script : List Text} {cmds : List Cmd}
    (hcmds : script.map command = cmds.map some) {st : State} {kept : List Cmd}
    (h : Snapshots st kept cs) (hlt : kept.length + script.length < 50000) :
    ∃ out st' cs', mainLoop A wrapping script st = .ok (false, out, st') ∧
      Snapshots st' (cmds.foldl survive kept) cs' := by
  -- Induction on the script; `Snapshots` is what each line keeps.
  induction script generalizing cmds st kept cs with
  | nil =>
    obtain rfl : cmds = [] := by simpa using hcmds.symm
    exact ⟨[], st, cs, rfl, h⟩
  | cons line script ih =>
    cases cmds with
    | nil => simp at hcmds
    | cons cmd cmds =>
      obtain ⟨hcmd, hrest⟩ := List.cons.inj hcmds
      rw [List.length_cons] at hlt
      obtain ⟨out, st', cs', hline, h', -⟩ := processLine2_spec A h hcmd (by omega)
      have hlen := length_survive kept cmd
      obtain ⟨out', st'', cs'', hloop, h''⟩ := ih hrest h' (by omega)
      refine ⟨out ++ out', st'', cs'', ?_, h''⟩
      simp only [mainLoop, hline, hloop, ok_bind]
      rfl

/-- At the start the history is one empty queue. -/
theorem snapshots_start : Snapshots State.start [] [[]] where
  nbrCmds := rfl
  stack :=
  { holds := fun i c hc => by
      obtain ⟨hi, rfl⟩ := List.getElem?_eq_some_iff.mp hc
      obtain rfl : i = 0 := by simpa using hi
      exact ⟨⟨none, none⟩, rfl, rfl, rfl⟩
    apart := List.pairwise_singleton _ _ }
  datas := rfl

/-- The queues from `gq[k]` on are freed. -/
theorem freeFrom_spec {st : State} (cs : List Cells) (nodes : Nodes) {k n : ℕ}
    (hlen : cs.length = k + n) (hlt : cs.length ≤ 50000)
    (hholds : ∀ i c, k ≤ i → cs[i]? = some c → ∃ q, st.gq i = some q ∧ Holds nodes q c)
    (hapart : cs.Pairwise fun c c' => ∀ a ∈ c.addrs, a ∉ c'.addrs) :
    ∃ nodes', (List.range' k n).foldlM (fun h i => do freeQueue (← st.gqAt i) h) nodes =
      Except.ok nodes' := by
  -- Induction on the slots left; the stacked queues share no cell.
  induction n generalizing k nodes with
  | zero => exact ⟨nodes, rfl⟩
  | succ n ih =>
    have hk : k < cs.length := by omega
    obtain ⟨q, hgq, hq⟩ := hholds k _ le_rfl (List.getElem?_eq_getElem hk)
    obtain ⟨nodes', hfree, hm⟩ := freeQueue_spec hq
    have hat : st.gqAt k = .ok q := by
      rw [State.gqAt, if_neg (by omega), hgq]
    have hholds' : ∀ i c, k + 1 ≤ i → cs[i]? = some c →
      ∃ q, st.gq i = some q ∧ Holds nodes' q c := by
      intro i c hi hc
      obtain ⟨q', hgq', hq'⟩ := hholds i c (by omega) hc
      obtain ⟨hi', rfl⟩ := List.getElem?_eq_some_iff.mp hc
      refine ⟨q', hgq', hq'.of_moves hm fun a ha ha' => ?_⟩
      exact List.pairwise_iff_getElem.mp hapart k i hk hi' (by omega) a ha' ha
    obtain ⟨nodes'', hrest⟩ := ih nodes' (by omega) hholds'
    refine ⟨nodes'', ?_⟩
    rw [List.range'_succ, List.foldlM_cons, hat, ok_bind, hfree, ok_bind, hrest]

/-- A history can be freed. -/
theorem freeAll_spec {st : State} {kept : List Cmd} (h : Snapshots st kept cs)
    (hlt : kept.length < 50000) : ∃ nodes', st.freeAll = .ok nodes' := by
  have hlen := h.length
  rw [State.freeAll, List.range_eq_range']
  refine freeFrom_spec cs st.nodes ?_ (by omega)
    (fun i c _ hc => h.stack.holds i c hc) h.stack.apart
  rw [h.nbrCmds]
  omega

/-- `gq[i]` is the same queue, with the same nodes. -/
def Unchanged (st st' : State) (i : ℕ) : Prop :=
  ∃ q c, st.gq i = some q ∧ st'.gq i = some q ∧ Holds st.nodes q c ∧ Holds st'.nodes q c

/-- A script whose lines are all well-formed leaves the list of the commands that survive, and
prints it at the end; no command changes a snapshot. -/
theorem undo_exact (A : Allocator) {script : List Text} (hlen : script.length < 50000)
    {cmds : List Cmd} (hcmds : script.map command = cmds.map some) :
    ∃ out st, mainLoop A wrapping script .start = .ok (false, out, st) ∧
      (∃ q c, st.gq st.nbrCmds = some q ∧ Holds st.nodes q c ∧
        Cells.datas c = (survivors cmds).foldl (Cmd.apply wrapping) []) ∧
      main A wrapping script = .ok (out ++ (text "finally: " ++
        joined ((survivors cmds).foldl (Cmd.apply wrapping) []) ++ text "\n")) ∧
      ∀ before line after, script = before ++ line :: after →
        ∃ out₁ st₁ out₂ st₂, mainLoop A wrapping before .start = .ok (false, out₁, st₁) ∧
          processLine2 A wrapping line st₁ = .ok (false, out₂, st₂) ∧
          ∀ i < st₂.nbrCmds, Unchanged st₁ st₂ i := by
  have hlength : script.length = cmds.length := by simpa using congrArg List.length hcmds
  obtain ⟨out, st, cs, hloop, h⟩ := mainLoop_spec A hcmds snapshots_start (by simpa using hlen)
  obtain ⟨cs₀, c, rfl, hcs₀, hc⟩ := h.exists_concat
  obtain ⟨q, hgq, hq⟩ := h.stack.last
  have hkept := length_foldl_survive [] cmds
  rw [List.length_nil, Nat.zero_add] at hkept
  have hn : st.nbrCmds = cs₀.length := h.nbrCmds.trans hcs₀.symm
  rw [← hn] at hgq
  refine ⟨out, st, hloop, ⟨q, c, hgq, hq, hc⟩, ?_, ?_⟩
  -- The queue on top is printed, and then all queues are freed.
  · have hat : st.gqAt st.nbrCmds = .ok q := by
      rw [State.gqAt, hn, if_neg (by omega), ← hn, hgq]
    obtain ⟨nodes', hfree⟩ := freeAll_spec h (by omega)
    have hprint := printQueue_spec hq
    rw [hc] at hprint
    simp only [main, hloop, hat, hprint, hfree, ok_bind]
    rfl
  -- A line in the middle finds the state that the lines before it have left.
  · rintro before line after rfl
    rw [List.map_append] at hcmds
    obtain ⟨cmds₁, cmds₂, rfl, hbefore, hafter⟩ := List.map_eq_append_iff.mp hcmds.symm
    cases cmds₂ with
    | nil => cases hafter
    | cons cmd cmds₂ =>
      obtain ⟨hcmd, -⟩ := List.cons.inj hafter
      simp only [List.length_append, List.length_cons] at hlen hlength
      obtain ⟨out₁, st₁, cs₁, hloop₁, h₁⟩ :=
        mainLoop_spec A hbefore.symm snapshots_start (by rw [List.length_nil]; omega)
      have hkept₁ := length_foldl_survive [] cmds₁
      rw [List.length_nil, Nat.zero_add] at hkept₁
      have hlen₁ : before.length = cmds₁.length := by simpa using congrArg List.length hbefore.symm
      obtain ⟨out₂, st₂, cs₂, hline, h₂, hsame⟩ := processLine2_spec A h₁ hcmd.symm (by omega)
      refine ⟨out₁, st₁, out₂, st₂, hloop₁, hline, fun i hi => ?_⟩
      obtain ⟨hcell, hgqi⟩ := hsame i hi
      -- A snapshot below the current one has its nodes where it had them before the line.
      have hi' : i < cs₂.length := by
        have := h₂.length
        have := h₂.nbrCmds
        omega
      have hc₂ := List.getElem?_eq_getElem hi'
      obtain ⟨q₂, hq₂, hholds₂⟩ := h₂.stack.holds i _ hc₂
      obtain ⟨q₁, hq₁, hholds₁⟩ := h₁.stack.holds i _ (hcell.symm.trans hc₂)
      obtain rfl : q₁ = q₂ := Option.some.inj (hq₁.symm.trans (hgqi.symm.trans hq₂))
      exact ⟨q₁, _, hq₁, hq₂, hholds₁, hholds₂⟩

/-- `enqueue a`, `undo` and `encode_enqueue 1 Ab`. -/
theorem undo_exact_encode : ∃ out,
    main (above 0) wrapping [text "enqueue a\n", text "undo\n", text "encode_enqueue 1 Ab\n"] =
      .ok (out ++ (text "finally: " ++ joined [text "Bc"] ++ text "\n")) := by
  obtain ⟨out, -, -, -, hmain, -⟩ := @undo_exact (above 0)
    [text "enqueue a\n", text "undo\n", text "encode_enqueue 1 Ab\n"] (by decide)
    [.enqueue (text "a"), .undo, .encodeEnqueue 1 (text "Ab")] (by decide +kernel)
  exact ⟨out, hmain⟩

end Cs5600.Lab1
