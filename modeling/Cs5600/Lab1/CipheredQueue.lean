import Cs5600.Lib.Decimal
import Cs5600.Lab1.Queue

/-!
# The ciphered queue

`ciphered_queue_main.c` reads commands line by line. Each command makes a copy of the current queue
and changes the copy, and `undo` drops copies, so `gq` holds the queues before each command that
counts.
-/

namespace Cs5600.Lab1

open Function (update)

/-- `encode_enqueue` -/
def encodeEnqueue (A : Allocator) (int : Arith) (q : Queue) (plaintext : Text) (key : ℤ)
    (h : Nodes) :
    Except Fault (Queue × Nodes) := do
  let (_, ciphertext) ← encode int plaintext key
  enqueue A q ciphertext h

/-- `dequeue_decode`: the node that was taken off, if there is one, with its string decoded in
place. What `decode` returns is not used. -/
def dequeueDecode (int : Arith) (q : Queue) (key : ℤ) (h : Nodes) :
    Except Fault (Option ℕ × Queue × Nodes) := do
  match ← dequeue q h with
  | (none, q) => return (none, q, h)
  | (some pnode, q) =>
    let node ← nodeAt h pnode
    if node.data = illchar then
      return (some pnode, q, h)
    else
      let (buffer, _) ← decode int node.data key
      return (some pnode, q, h.insert pnode ⟨buffer, node.next⟩)

/-! ## Lines -/

/-- The tokens that `strtok` finds with the delimiter `" "`. -/
def tokens (line : Text) : List Text :=
  ((line.takeWhile (· ≠ 0)).splitOn 32).filter (· ≠ [])

/-- `process_cmd`: the first three tokens, the last of them without a newline at its end. A line
without a token is indexed at -1. -/
def processCmd (line : Text) : Except Fault (List Text) :=
  let argv := (tokens line).take 3
  match argv.getLast? with
  | none => .error .range
  | some arg =>
    return argv.dropLast ++ [if arg.getLast? = some 10 then arg.dropLast else arg]

/-- `check_cmd` -/
def checkCmd (argv : List Text) : Bool :=
  !(argv.head? = some (text "encode_enqueue") ∧ argv.length < 3 ∨
    argv.head? = some (text "dequeue_decode") ∧ argv.length < 2 ∨
    argv.head? = some (text "enqueue") ∧ argv.length < 2)

inductive Cmd
  | encodeEnqueue (key : ℤ) (data : Text)
  | dequeueDecode (key : ℤ)
  | enqueue (data : Text)
  | dequeue
  | undo
  | unknown
deriving DecidableEq

/-- Which command `argv` is, for `argv` that has passed `check_cmd`. -/
def readCmd (argv : List Text) : Cmd :=
  if argv.head? = some (text "encode_enqueue") then
    .encodeEnqueue (atoiInt (argv.getD 1 [])) (argv.getD 2 [])
  else if argv.head? = some (text "dequeue_decode") then .dequeueDecode (atoiInt (argv.getD 1 []))
  else if argv.head? = some (text "enqueue") then .enqueue (argv.getD 1 [])
  else if argv.head? = some (text "dequeue") then .dequeue
  else if argv.head? = some (text "undo") then .undo
  else .unknown

/-! ## The interpreter -/

/-- The heap, the array `gq`, and `nbr_cmds`. An entry of `gq` is the `queue_t` it points to, or
`none` when it points to none that is allocated. -/
structure State where
  nodes : Nodes
  gq : ℕ → Option Queue
  nbrCmds : ℕ

/-- The state in which `main` begins to read. -/
def State.start : State := ⟨∅, update (fun _ => none) 0 (some ⟨none, none⟩), 0⟩

/-- `gq[i]`, of an array of 50000. -/
def State.gqAt (st : State) (i : ℕ) : Except Fault Queue :=
  if 50000 ≤ i then .error .range
  else match st.gq i with
    | none => .error .memory
    | some q => .ok q

/-- The assignment `gq[i] = q`. -/
def State.setGq (st : State) (i : ℕ) (q : Queue) : Except Fault State :=
  if 50000 ≤ i then .error .range else .ok { st with gq := update st.gq i (some q) }

/-- `free_queue(gq[*pnbr_cmds]); free(gq[*pnbr_cmds]); *pnbr_cmds = (*pnbr_cmds)-1;` -/
def State.pop (st : State) : Except Fault State := do
  let q ← st.gqAt st.nbrCmds
  let nodes ← freeQueue q st.nodes
  return ⟨nodes, update st.gq st.nbrCmds none, st.nbrCmds - 1⟩

/-- The answer to `dequeue` and `dequeue_decode`: the node is printed and freed. -/
def answer (pnode : Option ℕ) (h : Nodes) : Except Fault (Text × Nodes) :=
  match pnode with
  | none => .ok (text "NULL\n", h)
  | some pnode => do
    let node ← nodeAt h pnode
    return (node.data ++ text "\n", ← freeNode h pnode)

/-- What `process_line2` does with the copy `q` at `gq[*pnbr_cmds]`: what it prints, and the
state. -/
def runCmd (A : Allocator) (int : Arith) (cmd : Cmd) (q : Queue) (st : State) :
    Except Fault (Text × State) := do
  match cmd with
  | .encodeEnqueue key data =>
    let (q, nodes) ← encodeEnqueue A int q data key st.nodes
    return ([], ⟨nodes, update st.gq st.nbrCmds (some q), st.nbrCmds⟩)
  | .dequeueDecode key =>
    let (pnode, q, nodes) ← dequeueDecode int q key st.nodes
    let (out, nodes) ← answer pnode nodes
    return (out, ⟨nodes, update st.gq st.nbrCmds (some q), st.nbrCmds⟩)
  | .enqueue data =>
    let (q, nodes) ← enqueue A q data st.nodes
    return ([], ⟨nodes, update st.gq st.nbrCmds (some q), st.nbrCmds⟩)
  | .dequeue =>
    let (pnode, q) ← dequeue q st.nodes
    let (out, nodes) ← answer pnode st.nodes
    return (out, ⟨nodes, update st.gq st.nbrCmds (some q), st.nbrCmds⟩)
  | .undo =>
    -- An undo pops the copy made for this very line, then the queue before it.
    let st ← st.pop
    if 0 < st.nbrCmds then return ([], ← st.pop) else return ([], st)
  | .unknown => return ([], st)

/-- `process_line2`: whether it returns 1, what it prints, and the state. -/
def processLine2 (A : Allocator) (int : Arith) (line : Text) (st : State) :
    Except Fault (Bool × Text × State) := do
  let argv ← processCmd line
  if !checkCmd argv then
    return (true, text "ERROR\n", st)
  else
    let q ← st.gqAt st.nbrCmds
    -- Every command works on a copy of the queue before it.
    let (q, nodes) ← copyQueue A q st.nodes
    let st ← State.setGq ⟨nodes, st.gq, st.nbrCmds + 1⟩ (st.nbrCmds + 1) q
    let (out, st) ← runCmd A int (readCmd argv) q st
    return (false, out, st)

/-- The loop of `main`: whether a line made it stop, what it prints, and the state. -/
def mainLoop (A : Allocator) (int : Arith) : List Text → State → Except Fault (Bool × Text × State)
  | [], st => return (false, [], st)
  | line :: lines, st => do
    let (ret, out, st) ← processLine2 A int line st
    if ret then
      return (true, out, st)
    else
      let (ret, out', st) ← mainLoop A int lines st
      return (ret, out ++ out', st)

/-- The loop at the end of `main`, which frees the queues up to `gq[nbr_cmds]`. -/
def State.freeAll (st : State) : Except Fault Nodes :=
  (List.range (st.nbrCmds + 1)).foldlM (fun h i => do freeQueue (← st.gqAt i) h) st.nodes

/-- What `main` prints for a file with the given lines. -/
def main (A : Allocator) (int : Arith) (script : List Text) : Except Fault Text := do
  let (ret, out, st) ← mainLoop A int script .start
  if ret then
    let _ ← st.freeAll
    return out
  else
    -- `final_print` of the newest queue, before all of them are freed.
    let printed ← printQueue (← st.gqAt st.nbrCmds) st.nodes
    let _ ← st.freeAll
    return out ++ printed

end Cs5600.Lab1
