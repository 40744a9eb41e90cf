import Cs5600.Lab4.Update

/-!
# Calls and runs

A call of one of the fourteen operations of `fs_ops`, with its arguments, and sequences of calls.
-/

namespace Cs5600.Lab4

/-- A call of an operation of `fs_ops`. -/
inductive Call where
  | init
  | statfs (path : CString)
  | getattr (path : CString)
  | readdir (path : CString)
  | read (path : CString) (len : ℕ) (offset : Int64)
  | rename (srcPath dstPath : CString)
  | chmod (path : CString) (mode : UInt32)
  | create (path : CString) (mode : UInt32)
  | mkdir (path : CString) (mode : UInt32)
  | unlink (path : CString)
  | rmdir (path : CString)
  | write (path : CString) (buf : Buf) (offset : Int64)
  | truncate (path : CString) (len : ℤ)
  | utime (path : CString) (ut : Option ℤ)

/-- The data that a call hands back besides its return value. -/
inductive Output where
  | none
  | statvfs (st : Option Statvfs)
  | stat (sb : Option Stat)
  | entries (filled : List (CString × Stat))
  | data (bytes : List UInt8)
  deriving DecidableEq

/-- An operation without output. -/
def noOutput (r : Except Fault (ℤ × Disk)) : Except Fault (ℤ × Output × Disk) := do
  let r ← r
  .ok (r.1, .none, r.2)

/-- What a call returns, its output, and the disk afterwards. The loop of `fs_readdir` gets one pass
for each of the 128 entries of a block. -/
def Call.run (ctx : Ctx) (u : Stack) (d : Disk) : Call → Except Fault (ℤ × Output × Disk)
  -- The read-only operations return the image they were given.
  | .init => do
    fsInit u d
    .ok (0, .none, d)
  | .statfs _ => .ok ((fsStatfs u d).1, .statvfs (fsStatfs u d).2, d)
  | .getattr path => .ok ((fsGetattr u path d).1, .stat (fsGetattr u path d).2, d)
  | .readdir path => do
    let r ← fsReaddir u 128 path d
    .ok (r.1, .entries r.2, d)
  | .read path len offset => do
    let r ← fsRead u path len offset d
    .ok (r.1, .data r.2, d)
  -- The editing ones return nothing but their value.
  | .rename srcPath dstPath => noOutput (fsRename u srcPath dstPath d)
  | .chmod path mode => noOutput (fsChmod u path mode d)
  | .create path mode => noOutput (fsCreate ctx u path mode d)
  | .mkdir path mode => noOutput (fsMkdir ctx u path mode d)
  | .unlink path => noOutput (fsUnlink ctx u path d)
  | .rmdir path => noOutput (fsRmdir ctx u path d)
  | .write path buf offset => noOutput (fsWrite ctx u path buf offset d)
  | .truncate path len => noOutput (fsTruncate u path len d)
  | .utime path ut => noOutput (fsUtime ctx u path ut d)

/-- One call of a run, with its surroundings and what its uninitialised locals hold. -/
structure Step where
  ctx : Ctx
  stack : Stack
  call : Call

/-- The disk after a sequence of calls, when each of them returns. -/
def runAll : List Step → Disk → Except Fault Disk
  | [], d => .ok d
  | s :: steps, d => do
    let r ← s.call.run s.ctx s.stack d
    runAll steps r.2.2

/-- A run goes on from where its first part ended. -/
theorem runAll_append {steps steps' : List Step} {d d' : Disk} (h : runAll steps d = .ok d') :
    runAll (steps ++ steps') d = runAll steps' d' := by
  induction steps generalizing d with
  | nil =>
    cases h
    rfl
  | cons s steps ih =>
    rw [runAll] at h
    rw [List.cons_append, runAll]
    cases hs : s.call.run s.ctx s.stack d with
    | error e =>
      rw [hs] at h
      cases h
    | ok r =>
      rw [hs] at h
      exact ih h

end Cs5600.Lab4
