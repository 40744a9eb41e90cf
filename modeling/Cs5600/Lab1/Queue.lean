import Cs5600.Lib.Heap
import Cs5600.Lab1.Caesar

/-!
# The queue

`queue.c` keeps a queue as a linked list of nodes with pointers to its first and its last node. The
nodes are the cells of a heap, and each owns the string it holds. `Holds` says which nodes a queue
has; every operation is given by what it does to them, and leaves all other nodes alone.
-/

namespace Cs5600.Lab1

/-- `node_t`, with the string it points to. -/
structure Node where
  data : Text
  next : Option ℕ
deriving DecidableEq

/-- `queue_t` -/
structure Queue where
  head : Option ℕ
  tail : Option ℕ
deriving DecidableEq

abbrev Nodes : Type := Heap Node

/-- The node that a pointer points to. -/
def nodeAt (h : Nodes) (pnode : ℕ) : Except Fault Node :=
  match h.lookup pnode with
  | none => .error .memory
  | some node => .ok node

/-- `free` of a node and its string. -/
def freeNode (h : Nodes) (pnode : ℕ) : Except Fault Nodes :=
  match h.free pnode with
  | none => .error .memory
  | some h => .ok h

def enqueue (A : Allocator) (q : Queue) (data : Text) (h : Nodes) : Except Fault (Queue × Nodes) :=
  let (pnode, h) := h.malloc A ⟨data, none⟩
  match q.tail with
  | none => .ok (⟨some pnode, some pnode⟩, h)
  | some tail => do
    let node ← nodeAt h tail
    return (⟨q.head, some pnode⟩, h.insert tail ⟨node.data, some pnode⟩)

/-- The node at the front, which the caller frees, and the queue without it. -/
def dequeue (q : Queue) (h : Nodes) : Except Fault (Option ℕ × Queue) :=
  match q.head with
  | none => .ok (none, q)
  | some pnode => do
    let node ← nodeAt h pnode
    return (some pnode, ⟨node.next, if node.next = none then none else q.tail⟩)

/-- The loop of `free_queue`, in at most `fuel` passes. -/
def freeQueueLoop : ℕ → Queue → Nodes → Except Fault Nodes
  | 0, _, _ => .error .running
  | fuel + 1, q, h => do
    match ← dequeue q h with
    | (none, _) => return h
    | (some pnode, q) => freeQueueLoop fuel q (← freeNode h pnode)

/-- `free_queue`; the queue is not used any more. -/
def freeQueue (q : Queue) (h : Nodes) : Except Fault Nodes := freeQueueLoop (h.keys.card + 1) q h

/-- The loop of `print_queue`, in at most `fuel` passes. -/
def printLoop (h : Nodes) : ℕ → Option ℕ → Except Fault Text
  | 0, _ => .error .running
  | _ + 1, none => return []
  | fuel + 1, some pnode => do
    let node ← nodeAt h pnode
    let rest ← printLoop h fuel node.next
    return text "[" ++ node.data ++ text "]" ++ (if node.next = none then [] else text "->") ++ rest

def printQueue (q : Queue) (h : Nodes) : Except Fault Text := do
  let nodes ← printLoop h (h.keys.card + 1) q.head
  return text "finally: " ++ nodes ++ text "\n"

/-- The loop of `copy_queue`, in at most `fuel` passes. -/
def copyLoop (A : Allocator) : ℕ → Option ℕ → Queue → Nodes → Except Fault (Queue × Nodes)
  | 0, _, _, _ => .error .running
  | _ + 1, none, q, h => return (q, h)
  | fuel + 1, some pnode, q, h => do
    let node ← nodeAt h pnode
    let (q, h) ← enqueue A q node.data h
    -- `pnode` may be the node that `enqueue` has changed, for all that the code says
    let node ← nodeAt h pnode
    copyLoop A fuel node.next q h

def copyQueue (A : Allocator) (q : Queue) (h : Nodes) : Except Fault (Queue × Nodes) :=
  copyLoop A (h.keys.card + 1) q.head ⟨none, none⟩ h

/-! ## The nodes of a queue -/

/-- The nodes of a queue, with their addresses, in order. -/
abbrev Cells : Type := List (ℕ × Node)

def Cells.addrs (cells : Cells) : List ℕ := cells.map Prod.fst

def Cells.datas (cells : Cells) : List Text := cells.map fun x => x.2.data

/-- `cells` are the nodes of `q`. -/
structure Holds (h : Nodes) (q : Queue) (cells : Cells) : Prop where
  seg : Heap.Seg Node.next h q.head cells none
  tail : q.tail = Heap.lastAddr none cells

variable {A : Allocator} {h h' : Nodes} {q : Queue} {cells : Cells}

/-- A heap with the same nodes holds the same queue. -/
theorem Holds.frame (hq : Holds h q cells) (hframe : ∀ a ∈ cells.addrs, h'.lookup a = h.lookup a) :
    Holds h' q cells where
  seg := hq.seg.frame fun x hx => by
    rw [hframe x.1 (List.mem_map_of_mem hx)]
    exact hq.seg.lookup hx
  tail := hq.tail

/-- The nodes of a queue are allocated. -/
theorem Holds.mem (hq : Holds h q cells) {a : ℕ} (ha : a ∈ cells.addrs) : a ∈ h := by
  obtain ⟨x, hx, rfl⟩ := List.mem_map.mp ha
  exact Finmap.mem_of_lookup_eq_some (hq.seg.lookup hx)

/-- The nodes of a queue differ. -/
theorem Holds.nodup (hq : Holds h q cells) : cells.addrs.Nodup := hq.seg.nodup

/-- A node that is allocated can be read. -/
theorem nodeAt_of_lookup {a : ℕ} {node : Node} (ha : h.lookup a = some node) :
    nodeAt h a = .ok node := by
  rw [nodeAt, ha]

/-- A queue goes from the nodes `cells` to the nodes `cells'`: all other nodes stay, and it takes
none of them. -/
structure Moves (h : Nodes) (cells : Cells) (h' : Nodes) (cells' : Cells) : Prop where
  frame : ∀ a ∈ h, a ∉ cells.addrs → h'.lookup a = h.lookup a
  fresh : ∀ a ∈ cells'.addrs, a ∈ cells.addrs ∨ a ∉ h

/-- Nothing moves. -/
theorem Moves.refl (h : Nodes) (cells : Cells) : Moves h cells h cells :=
  ⟨fun _ _ _ => rfl, fun _ ha => .inl ha⟩

/-- A node that is not the queue's stays allocated, and does not become the queue's. -/
theorem Moves.mem {cells cells' : Cells} (hm : Moves h cells h' cells') {a : ℕ} (ha : a ∈ h)
    (hnot : a ∉ cells.addrs) : a ∈ h' ∧ a ∉ cells'.addrs := by
  obtain ⟨node, hnode⟩ := Finmap.mem_iff.mp ha
  refine ⟨Finmap.mem_of_lookup_eq_some ((hm.frame a ha hnot).trans hnode), fun ha' => ?_⟩
  exact (hm.fresh a ha').elim hnot fun hfresh => hfresh ha

/-- One move after the other is a move. -/
theorem Moves.trans {h'' : Nodes} {cells cells' cells'' : Cells} (hm : Moves h cells h' cells')
    (hm' : Moves h' cells' h'' cells'') : Moves h cells h'' cells'' where
  frame a ha hnot := by
    obtain ⟨ha', hnot'⟩ := hm.mem ha hnot
    rw [hm'.frame a ha' hnot', hm.frame a ha hnot]
  fresh a ha := by
    by_contra hneither
    rw [not_or, not_not] at hneither
    obtain ⟨ha', hnot'⟩ := hm.mem hneither.2 hneither.1
    exact (hm'.fresh a ha).elim hnot' fun hfresh => hfresh ha'

/-- `enqueue` adds one node at the end. -/
theorem enqueue_spec (A : Allocator) (data : Text) (hq : Holds h q cells) :
    ∃ q' h' cells', enqueue A q data h = .ok (q', h') ∧ Holds h' q' cells' ∧
      cells'.datas = cells.datas ++ [data] ∧ Moves h cells h' cells' := by
  have hpick : A.pick h.keys ∉ h := Heap.pick_notMem A h
  generalize ha : A.pick h.keys = a at hpick
  rcases List.eq_nil_or_concat cells with rfl | ⟨l, x, rfl⟩
  -- An empty queue: the new node is head and tail.
  · have htail : q.tail = none := hq.tail
    refine ⟨⟨some a, some a⟩, h.insert a ⟨data, none⟩, [(a, ⟨data, none⟩)], ?_, ?_, rfl, ?_, ?_⟩
    · simp only [enqueue, Heap.malloc, ha, htail]
    · exact ⟨⟨rfl, Finmap.lookup_insert _, rfl⟩, rfl⟩
    · intro b hb _
      exact Finmap.lookup_insert_of_ne _ fun heq => hpick (heq ▸ hb)
    · intro b hb
      rw [List.mem_singleton.mp hb]
      exact .inr hpick
  -- Else the last node is set to point to the new one, and no other node changes.
  · obtain ⟨t, node⟩ := x
    rw [List.concat_eq_append] at hq ⊢
    have htail : q.tail = some t := by rw [hq.tail, Heap.lastAddr_concat]
    have hnode : h.lookup t = some node := hq.seg.lookup (x := (t, node)) (by simp)
    have hne : t ≠ a := by
      rintro rfl
      exact hpick (Finmap.mem_of_lookup_eq_some hnode)
    have hnode' : (h.insert a ⟨data, none⟩).lookup t = some node := by
      rw [Finmap.lookup_insert_of_ne _ hne, hnode]
    have hseg : Heap.Seg Node.next (h.insert a ⟨data, none⟩) q.head (l ++ (t, node) :: []) none :=
      hq.seg.frame fun x hx => by
        rw [Finmap.lookup_insert_of_ne, hq.seg.lookup hx]
        rintro rfl
        exact hpick (Finmap.mem_of_lookup_eq_some (hq.seg.lookup hx))
    have hnodup : ∀ z ∈ l, z.1 ≠ t := by
      intro z hz heq
      have := hq.nodup
      simp only [Cells.addrs, List.map_append, List.map_cons, List.map_nil,
        List.nodup_append] at this
      exact this.2.2 z.1 (List.mem_map_of_mem hz) t (by simp) heq
    refine ⟨⟨q.head, some a⟩, (h.insert a ⟨data, none⟩).insert t ⟨node.data, some a⟩,
      l ++ (t, ⟨node.data, some a⟩) :: [(a, ⟨data, none⟩)], ?_, ⟨?_, ?_⟩, ?_, ?_, ?_⟩
    · simp only [enqueue, Heap.malloc, ha, htail, nodeAt_of_lookup hnode']
      rfl
    · refine hseg.set ⟨rfl, Finmap.lookup_insert _, rfl⟩ hnodup ?_
      intro z hz
      rw [List.mem_singleton.mp hz]
      exact hne.symm
    · simp [Heap.lastAddr]
    · simp [Cells.datas]
    · intro b hb hnot
      have hbt : b ≠ t := by
        rintro rfl
        simp [Cells.addrs] at hnot
      have hba : b ≠ a := fun heq => hpick (heq ▸ hb)
      rw [Finmap.lookup_insert_of_ne _ hbt, Finmap.lookup_insert_of_ne _ hba]
    · intro b hb
      simp only [Cells.addrs, List.map_append, List.map_cons, List.map_nil, List.mem_append,
        List.mem_cons, List.not_mem_nil, or_false] at hb ⊢
      rcases hb with hb | rfl | rfl
      · exact .inl (.inl hb)
      · exact .inl (.inr rfl)
      · exact .inr hpick

/-- `dequeue` of an empty queue returns NULL. -/
theorem dequeue_nil (hq : Holds h q []) : dequeue q h = .ok (none, q) := by
  rw [dequeue, show q.head = none from hq.seg]

/-- `dequeue` takes the first node off. -/
theorem dequeue_cons {x : ℕ × Node} (hq : Holds h q (x :: cells)) :
    ∃ q', dequeue q h = .ok (some x.1, q') ∧ Holds h q' cells := by
  obtain ⟨hhead, hx, hseg⟩ := hq.seg
  refine ⟨⟨x.2.next, if x.2.next = none then none else q.tail⟩, ?_, hseg, ?_⟩
  · rw [dequeue, hhead]
    simp only [nodeAt_of_lookup hx]
    rfl
  · dsimp only
    cases cells with
    | nil =>
      rw [if_pos (show x.2.next = none from hseg)]
      rfl
    | cons y cells =>
      rw [if_neg (by rw [hseg.1]; simp), hq.tail]
      rfl

/-- A node that was taken off is freed. -/
theorem freeNode_cons {x : ℕ × Node} (hq : Holds h q (x :: cells)) {q' : Queue}
    (hq' : Holds h q' cells) :
    freeNode h x.1 = .ok (h.erase x.1) ∧ Holds (h.erase x.1) q' cells ∧
      Moves h (x :: cells) (h.erase x.1) cells := by
  have hx := hq.seg.2.1
  have hnodup : x.1 ∉ cells.addrs := (List.nodup_cons.mp hq.nodup).1
  refine ⟨by rw [freeNode, Heap.free_of_lookup hx], ?_, ?_, ?_⟩
  · exact hq'.frame fun a ha => Finmap.lookup_erase_ne fun heq => hnodup (heq ▸ ha)
  · intro a _ hnot
    exact Finmap.lookup_erase_ne fun heq => hnot (heq ▸ List.mem_cons_self)
  · exact fun a ha => .inl (List.mem_cons_of_mem _ ha)

/-- The loop of `free_queue` frees the nodes of its queue and no others. -/
theorem freeQueueLoop_spec {fuel : ℕ} (hq : Holds h q cells) (hfuel : cells.length < fuel) :
    ∃ h', freeQueueLoop fuel q h = .ok h' ∧ Moves h cells h' [] := by
  induction cells generalizing fuel q h with
  | nil =>
    obtain ⟨fuel, rfl⟩ : ∃ n, fuel = n + 1 := ⟨fuel - 1, by simp at hfuel; omega⟩
    refine ⟨h, ?_, Moves.refl h []⟩
    rw [freeQueueLoop, dequeue_nil hq]
    rfl
  | cons x cells ih =>
    obtain ⟨fuel, rfl⟩ : ∃ n, fuel = n + 1 := ⟨fuel - 1, by simp at hfuel; omega⟩
    obtain ⟨q', hdequeue, hq'⟩ := dequeue_cons hq
    obtain ⟨hfree, hrest, hmoves⟩ := freeNode_cons hq hq'
    obtain ⟨h', hloop, hmoves'⟩ := ih hrest (by simpa using hfuel)
    refine ⟨h', ?_, hmoves.trans hmoves'⟩
    rw [freeQueueLoop, hdequeue]
    exact (congrArg (· >>= freeQueueLoop fuel q') hfree).trans hloop

/-- `free_queue` frees the nodes of the queue. -/
theorem freeQueue_spec (hq : Holds h q cells) :
    ∃ h', freeQueue q h = .ok h' ∧ Moves h cells h' [] :=
  freeQueueLoop_spec hq (Nat.lt_succ_of_le hq.seg.length_le)

/-! ## Copies and output -/

/-- A queue with other nodes is not touched by a move. -/
theorem Holds.of_moves {c c' : Cells} (hq : Holds h q cells)
    (hm : Moves h c h' c') (hdisjoint : ∀ a ∈ cells.addrs, a ∉ c.addrs) : Holds h' q cells :=
  hq.frame fun a ha => hm.frame a (hq.mem ha) (hdisjoint a ha)

/-- The loop copies what is left of the queue, behind what it has copied. -/
theorem copyLoop_spec {fuel : ℕ} {p : Option ℕ} {copied : Cells}
    (hseg : Heap.Seg Node.next h p cells none) (hq : Holds h q copied)
    (hdisjoint : ∀ a ∈ cells.addrs, a ∉ copied.addrs) (hfuel : cells.length < fuel) :
    ∃ q' h' cells', copyLoop A fuel p q h = .ok (q', h') ∧ Holds h' q' cells' ∧
      cells'.datas = copied.datas ++ cells.datas ∧ Moves h copied h' cells' := by
  induction cells generalizing fuel p q h copied with
  | nil =>
    obtain ⟨fuel, rfl⟩ : ∃ n, fuel = n + 1 := ⟨fuel - 1, by simp at hfuel; omega⟩
    obtain rfl : p = none := hseg
    exact ⟨q, h, copied, rfl, hq, by simp [Cells.datas], Moves.refl h copied⟩
  | cons x cells ih =>
    obtain ⟨fuel, rfl⟩ : ∃ n, fuel = n + 1 := ⟨fuel - 1, by simp at hfuel; omega⟩
    obtain ⟨rfl, hx, hrest⟩ := hseg
    obtain ⟨q₁, h₁, copied₁, henqueue, hq₁, hdatas₁, hmoves₁⟩ := enqueue_spec A x.2.data hq
    -- `enqueue` writes only to nodes of the copy, so what is left to copy stays as it is
    have hlookup : ∀ y ∈ x :: cells, h.lookup y.1 = some y.2 := by
      intro y hy
      rcases List.mem_cons.mp hy with rfl | hy
      · exact hx
      · exact hrest.lookup hy
    have hlookup₁ : ∀ y ∈ x :: cells, h₁.lookup y.1 = some y.2 := by
      intro y hy
      rw [hmoves₁.frame y.1 (Finmap.mem_of_lookup_eq_some (hlookup y hy))
        (hdisjoint y.1 (List.mem_map_of_mem hy)), hlookup y hy]
    have hdisjoint₁ : ∀ a ∈ Cells.addrs cells, a ∉ copied₁.addrs := by
      intro a ha
      obtain ⟨y, hy, rfl⟩ := List.mem_map.mp ha
      have hmem : y.1 ∈ h := Finmap.mem_of_lookup_eq_some (hrest.lookup hy)
      exact (hmoves₁.mem hmem (hdisjoint y.1 (List.mem_cons_of_mem _ ha))).2
    obtain ⟨q', h', cells', hloop, hq', hdatas', hmoves'⟩ :=
      ih (hrest.frame fun y hy => hlookup₁ y (List.mem_cons_of_mem _ hy)) hq₁ hdisjoint₁
        (by simpa using hfuel)
    refine ⟨q', h', cells', ?_, hq', ?_, hmoves₁.trans hmoves'⟩
    · rw [copyLoop, nodeAt_of_lookup hx]
      simp only [henqueue, nodeAt_of_lookup (hlookup₁ x List.mem_cons_self), bind, Except.bind]
      exact hloop
    · rw [hdatas', hdatas₁, List.append_assoc]
      rfl

/-- `copy_queue` makes a queue of new nodes with the same strings. -/
theorem copyQueue_spec (A : Allocator) (hq : Holds h q cells) :
    ∃ q' h' cells', copyQueue A q h = .ok (q', h') ∧ Holds h' q' cells' ∧
      cells'.datas = cells.datas ∧ Moves h [] h' cells' := by
  have hempty : Holds h ⟨none, none⟩ [] := ⟨rfl, rfl⟩
  exact copyLoop_spec hq.seg hempty (fun _ _ => List.not_mem_nil)
    (Nat.lt_succ_of_le hq.seg.length_le)

/-- The strings of a queue, each in brackets, with arrows between them. -/
def joined : List Text → Text
  | [] => []
  | data :: datas =>
    text "[" ++ data ++ text "]" ++ (if datas = [] then [] else text "->") ++ joined datas

/-- The loop of `print_queue` prints the words that are left. -/
theorem printLoop_spec {fuel : ℕ} {p : Option ℕ} (hseg : Heap.Seg Node.next h p cells none)
    (hfuel : cells.length < fuel) : printLoop h fuel p = .ok (joined cells.datas) := by
  induction cells generalizing fuel p with
  | nil =>
    obtain ⟨fuel, rfl⟩ : ∃ n, fuel = n + 1 := ⟨fuel - 1, by simp at hfuel; omega⟩
    obtain rfl : p = none := hseg
    rfl
  | cons x cells ih =>
    obtain ⟨fuel, rfl⟩ : ∃ n, fuel = n + 1 := ⟨fuel - 1, by simp at hfuel; omega⟩
    obtain ⟨rfl, hx, hrest⟩ := hseg
    have hnext : x.2.next = none ↔ Cells.datas cells = [] := by
      cases cells with
      | nil => exact iff_of_true hrest rfl
      | cons y cells => simp [Cells.datas, hrest.1]
    rw [printLoop, nodeAt_of_lookup hx]
    simp only [bind, Except.bind, ih hrest (by simpa using hfuel), hnext]
    rfl

/-- `print_queue` prints the words of the queue. -/
theorem printQueue_spec (hq : Holds h q cells) :
    printQueue q h = .ok (text "finally: " ++ joined cells.datas ++ text "\n") := by
  rw [printQueue, printLoop_spec hq.seg (Nat.lt_succ_of_le hq.seg.length_le)]
  rfl

end Cs5600.Lab1
