import Cs5600.Lab1.Undo

/-!
# How many nodes are allocated

`enqueue` allocates one node, `free_queue` frees those of its queue, and so on for all operations.
So the number of nodes that are allocated is always that of the strings in the queues, and nothing
is left when all queues have been freed.
-/

namespace Cs5600.Lab1

variable {A : Allocator} {h h' : Nodes} {q q' : Queue} {cells : Cells}

/-- A node that is read is allocated. -/
theorem nodeAt_eq_ok {a : ℕ} {node : Node} (hnode : nodeAt h a = .ok node) :
    h.lookup a = some node := by
  rw [nodeAt] at hnode
  split at hnode
  · cases hnode
  · rw [‹h.lookup a = _›, ← Except.ok.inj hnode]

/-- A queue has as many words as nodes. -/
@[simp] theorem Cells.length_datas (cells : Cells) : (Cells.datas cells).length = cells.length :=
  List.length_map _

/-- `enqueue` allocates one node. -/
theorem enqueue_card {data : Text} (henqueue : enqueue A q data h = .ok (q', h')) :
    h'.keys.card = h.keys.card + 1 := by
  simp only [enqueue, Heap.malloc] at henqueue
  cases htail : q.tail with
  | none =>
    rw [htail] at henqueue
    rw [← (Prod.mk.inj (Except.ok.inj henqueue)).2, Heap.card_malloc]
  | some tail =>
    rw [htail] at henqueue
    obtain ⟨node, hnode, heq⟩ := bind_eq_ok.mp henqueue
    have hmem := Finmap.mem_of_lookup_eq_some (nodeAt_eq_ok hnode)
    rw [← (Prod.mk.inj (Except.ok.inj heq)).2, Heap.card_insert_of_mem _ hmem, Heap.card_malloc]

/-- `free` takes one node off the heap. -/
theorem freeNode_card {a : ℕ} (hfree : freeNode h a = .ok h') : h'.keys.card + 1 = h.keys.card := by
  rw [freeNode] at hfree
  split at hfree
  · cases hfree
  · rw [← Except.ok.inj hfree]
    exact Heap.card_free ‹_›

/-- The loop of `free_queue` takes off as many nodes as the queue still has. -/
theorem freeQueueLoop_card {fuel : ℕ} (hq : Holds h q cells)
    (hloop : freeQueueLoop fuel q h = .ok h') :
    h'.keys.card + cells.length = h.keys.card := by
  induction cells generalizing fuel q h with
  | nil =>
    cases fuel with
    | zero => cases hloop
    | succ fuel =>
      rw [freeQueueLoop, dequeue_nil hq] at hloop
      rw [← Except.ok.inj hloop, List.length_nil, Nat.add_zero]
  | cons x cells ih =>
    cases fuel with
    | zero => cases hloop
    | succ fuel =>
      -- One pass of the loop frees the head, which takes one cell out of the heap.
      obtain ⟨q', hdequeue, hq'⟩ := dequeue_cons hq
      obtain ⟨hfree, hrest, -⟩ := freeNode_cons hq hq'
      simp only [freeQueueLoop, hdequeue, hfree, ok_bind] at hloop
      have hcard := ih hrest hloop
      have hone := freeNode_card hfree
      rw [List.length_cons]
      omega

/-- `free_queue` takes off as many nodes as the queue has. -/
theorem freeQueue_card (hq : Holds h q cells) (hfree : freeQueue q h = .ok h') :
    h'.keys.card + cells.length = h.keys.card := freeQueueLoop_card hq hfree

/-- A queue has no other nodes. -/
theorem Holds.unique {cells' : Cells} (hq : Holds h q cells) (hq' : Holds h q cells') :
    cells = cells' := hq.seg.unique hq'.seg

/-- The loop of `copy_queue` allocates a node for each one that it appends to the copy. -/
theorem copyLoop_card {fuel : ℕ} {p : Option ℕ} {copied : Cells} (hq : Holds h q copied)
    (hloop : copyLoop A fuel p q h = .ok (q', h')) :
    ∃ cells', Holds h' q' cells' ∧ h'.keys.card + copied.length = h.keys.card + cells'.length := by
  -- Induction on the fuel, for every pointer `p` into the original and every copy so far.
  induction fuel generalizing p q h copied with
  | zero => cases hloop
  | succ fuel ih =>
    cases p with
    | none =>
      obtain ⟨rfl, rfl⟩ := Prod.mk.inj (Except.ok.inj hloop)
      exact ⟨copied, hq, rfl⟩
    | some pnode =>
      rw [copyLoop] at hloop
      obtain ⟨node, -, hloop⟩ := bind_eq_ok.mp hloop
      obtain ⟨⟨q₁, h₁⟩, henqueue, hloop⟩ := bind_eq_ok.mp hloop
      obtain ⟨node', -, hloop⟩ := bind_eq_ok.mp hloop
      obtain ⟨q₂, h₂, copied₁, henqueue', hq₁, hdatas, -⟩ := enqueue_spec A node.data hq
      obtain ⟨rfl, rfl⟩ := Prod.mk.inj (Except.ok.inj (henqueue.symm.trans henqueue'))
      obtain ⟨cells', hq', hcard⟩ := ih hq₁ hloop
      -- `enqueue` adds one cell to the heap and one to the copy.
      have hone := enqueue_card henqueue
      have hlen := congrArg List.length hdatas
      rw [List.length_append, Cells.length_datas, Cells.length_datas, List.length_singleton] at hlen
      exact ⟨cells', hq', by omega⟩

/-- `copy_queue` allocates as many nodes as the queue has. -/
theorem copyQueue_card (hq : Holds h q cells) (hcopy : copyQueue A q h = .ok (q', h')) :
    h'.keys.card = h.keys.card + cells.length := by
  obtain ⟨q₁, h₁, cells₁, hcopy₁, hq₁, hdatas, -⟩ := copyQueue_spec A hq
  obtain ⟨rfl, rfl⟩ := Prod.mk.inj (Except.ok.inj (hcopy.symm.trans hcopy₁))
  have hempty : Holds h ⟨none, none⟩ [] := ⟨rfl, rfl⟩
  obtain ⟨cells', hq', hcard⟩ := copyLoop_card hempty hcopy
  have hlen := congrArg List.length hdatas
  rw [Cells.length_datas, Cells.length_datas, hq₁.unique hq'] at hlen
  rw [List.length_nil] at hcard
  omega

/-! ## What is printed -/

/-- What `dequeue` prints. -/
def front (datas : List Text) : Text :=
  match datas with
  | [] => text "NULL\n"
  | data :: _ => data ++ text "\n"

/-- A node is printed and freed. -/
theorem answer_some {a : ℕ} {node : Node} (ha : h.lookup a = some node) {out : Text}
    (hanswer : answer (some a) h = .ok (out, h')) :
    out = node.data ++ text "\n" ∧ h'.keys.card + 1 = h.keys.card := by
  rw [answer, nodeAt_of_lookup ha, ok_bind] at hanswer
  obtain ⟨h₁, hfree, heq⟩ := bind_eq_ok.mp hanswer
  obtain ⟨rfl, rfl⟩ := Prod.mk.inj (Except.ok.inj heq)
  exact ⟨rfl, freeNode_card hfree⟩

/-- The node that was taken off a queue is printed and freed. -/
theorem answer_front (hq : Holds h q cells) {out : Text}
    (hanswer : answer (cells.head?.map Prod.fst) h = .ok (out, h')) :
    out = front cells.datas ∧ h'.keys.card + cells.length = h.keys.card + cells.tail.length := by
  cases cells with
  | nil =>
    obtain ⟨rfl, rfl⟩ := Prod.mk.inj (Except.ok.inj hanswer)
    exact ⟨rfl, rfl⟩
  | cons x cells =>
    obtain ⟨rfl, hone⟩ := answer_some hq.seg.2.1 hanswer
    rw [List.length_cons, List.tail_cons]
    exact ⟨rfl, by omega⟩

end Cs5600.Lab1
