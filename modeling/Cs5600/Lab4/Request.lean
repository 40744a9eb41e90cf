import Cs5600.Lab4.Make
import Cs5600.Lab4.Read
import Cs5600.Lab4.Rename

/-!
# Requests

A `Request` is a call as FUSE makes it: its paths are normalised and have at most 10 components.
`View.exec` and `View.output` say what each of the fourteen requests does on the abstract file
system, and `Request.run_answers` that the code does the same on every well-formed disk. What holds
along a run of calls follows from the latter by `runAll_invariant`.
-/

namespace Cs5600.Lab4

/-- A call with paths as FUSE passes them. -/
inductive Request where
  | init
  | statfs (path : AbsPath)
  | getattr (path : AbsPath)
  | readdir (path : AbsPath)
  | read (path : NormPath) (len : ℕ) (offset : Int64)
  | rename (srcPath dstPath : NormPath)
  | chmod (path : NormPath) (mode : UInt32)
  | create (path : NormPath) (mode : UInt32)
  | mkdir (path : NormPath) (mode : UInt32)
  | unlink (path : NormPath)
  | rmdir (path : NormPath)
  | write (path : NormPath) (buf : Buf) (offset : Int64)
  | truncate (path : NormPath) (len : ℤ)
  | utime (path : NormPath) (ut : Option ℤ)

namespace Request

/-- The call that a request makes. -/
def call : Request → Call
  | init => .init
  | statfs p => .statfs p.str
  | getattr p => .getattr p.str
  | readdir p => .readdir p.str
  | read p len offset => .read p.str len offset
  | rename src dst => .rename src.str dst.str
  | chmod p mode => .chmod p.str mode
  | create p mode => .create p.str mode
  | mkdir p mode => .mkdir p.str mode
  | unlink p => .unlink p.str
  | rmdir p => .rmdir p.str
  | write p buf offset => .write p.str buf offset
  | truncate p len => .truncate p.str len
  | utime p ut => .utime p.str ut

/-- Whether a request is one of the eight that may change the disk and are not `fs_rename`. -/
def edits : Request → Bool
  | chmod .. | create .. | mkdir .. | unlink .. | rmdir .. | write .. | truncate .. | utime .. =>
    true
  | _ => false

/-- Whether a request is an `fs_rename`. -/
def renames : Request → Bool
  | rename .. => true
  | _ => false

/-- A request that the abstract file system describes: the new name of a rename fits into a
directory entry, and a read does not start in front of a file. No path with a component of more than
27 bytes leads to a file. -/
def InRange : Request → Prop
  | rename _ dst => dst.name.length ≤ 27
  | read p len offset => 0 ≤ offset.toInt ∨ len = 0 ∨ ∃ n ∈ p.comps, 27 < n.length
  | _ => True

/-- The eight operations that change the disk are in range. -/
theorem inRange_of_edits {r : Request} (h : r.edits = true) : r.InRange := by
  cases r <;> trivial

end Request

namespace View

/-- What a request does on the abstract file system. -/
def exec (ctx : Ctx) (v : View) : Request → Except Fault Outcome
  | .init => v.init.map fun _ => ⟨0, [], none⟩
  | .statfs _ => .ok ⟨v.statfs.1, [], none⟩
  | .getattr p => .ok ⟨(v.getattr p.comps).1, [], none⟩
  | .readdir p => .ok ⟨(v.readdir p.comps).1, [], none⟩
  | .read p len offset => .ok ⟨(v.read p.comps len offset.toInt.toNat).1, [], none⟩
  | .rename src dst => v.rename src dst
  | .chmod p mode => v.chmod p.comps mode
  | .create p mode => v.create ctx p mode
  | .mkdir p mode => v.mkdir ctx p mode
  | .unlink p => v.unlink ctx p
  | .rmdir p => v.rmdir ctx p
  | .write p buf offset => v.write ctx p.comps buf offset.toInt
  | .truncate p len => v.truncate p.comps len
  | .utime p ut => v.utime ctx p.comps ut

/-- The data that a request hands back. -/
def output (v : View) : Request → Output
  | .statfs _ => .statvfs v.statfs.2
  | .getattr p => .stat (v.getattr p.comps).2
  | .readdir p => .entries (v.readdir p.comps).2
  | .read p len offset => .data (v.read p.comps len offset.toInt.toNat).2
  | _ => .none

end View

/-- A run of a request on `d` ends as the outcome says, and hands back the output. -/
def Answers (d : Disk) (run : Except Fault (ℤ × Output × Disk)) (o : Except Fault Outcome)
    (out : Output) : Prop :=
  Refines d (run.map fun r => (r.1, r.2.2)) o ∧ ∀ r, run = .ok r → r.2.1 = out

section

variable {d : Disk} {o : Except Fault Outcome} {out : Output}

/-- An operation that refines its outcome answers with it. -/
theorem Answers.of_refines {r : Except Fault (ℤ × Disk)} (h : Refines d r o) :
    Answers d (noOutput r) o .none := by
  cases r with
  | error e => exact ⟨h, fun _ h => by cases h⟩
  | ok r => exact ⟨h, fun _ h => Except.ok.inj h ▸ rfl⟩

/-- An operation that reads answers and changes nothing. -/
theorem Answers.of_read (d : Disk) (rc : ℤ) (out : Output) :
    Answers d (.ok (rc, out, d)) (.ok ⟨rc, [], none⟩) out :=
  ⟨refines_fail d rc, fun _ h => Except.ok.inj h ▸ rfl⟩

/-- A run that ends as an outcome says and returns. -/
theorem Answers.of_ok {r : ℤ × Output × Disk} (h : Answers d (.ok r) o out) :
    ∃ o', o = .ok o' ∧ o'.Holds d r.1 r.2.2 ∧ r.2.1 = out := by
  cases o with
  | error e => exact h.1.elim
  | ok o' => exact ⟨o', rfl, h.1, h.2 r rfl⟩

/-- A run that an outcome lets return. -/
theorem Answers.eq_ok {run : Except Fault (ℤ × Output × Disk)} {o : Outcome}
    (h : Answers d run (.ok o) out) :
    ∃ r, run = .ok r ∧ o.Holds d r.1 r.2.2 ∧ r.2.1 = out := by
  cases run with
  | error e => exact h.1.elim
  | ok r => exact ⟨r, rfl, h.1, h.2 r rfl⟩

/-- A run that an outcome does not let return. -/
theorem Answers.eq_error {run : Except Fault (ℤ × Output × Disk)} {e : Fault}
    (h : Answers d run (.error e) out) : run = .error e := by
  cases run with
  | error e' => exact congrArg _ h.1
  | ok r => exact h.1.elim

end

/-- The code does what the abstract file system does, on every well-formed disk. -/
theorem Request.run_answers {d : Disk} (hW : WellFormed d) (ctx : Ctx) (u : Stack) {r : Request}
    (hr : r.InRange) :
    Answers d (r.call.run ctx u d) ((view d).exec ctx r) ((view d).output r) := by
  have hT := hW.toTree
  cases r with
  | init =>
    simp only [call, Call.run, View.exec, View.output, fsInit_eq hT]
    cases (view d).init with
    | error e => exact ⟨rfl, fun _ h => by cases h⟩
    | ok _ => exact Answers.of_read d 0 .none
  | statfs p =>
    simp only [call, Call.run, View.exec, View.output, fsStatfs_eq hT]
    exact Answers.of_read d _ _
  | getattr p =>
    simp only [call, Call.run, View.exec, View.output, fsGetattr_eq hT]
    exact Answers.of_read d _ _
  | readdir p =>
    simp only [call, Call.run, View.exec, View.output, fsReaddir_eq hT, ok_bind]
    exact Answers.of_read d _ _
  | read p len offset =>
    -- `fs_read` reads from a position behind the start, reads nothing, or finds no file.
    have hoff : 0 ≤ offset.toInt ∨ len = 0 ∨
        ∀ i, resolve d p.comps = some i → (inodeAt d i).isDir = true := by
      refine hr.imp_right (Or.imp_right ?_)
      rintro ⟨n, hn, hlong⟩ i hi
      exact absurd (hT.length_le_of_resolve hi n hn) (by omega)
    simp only [call, Call.run, View.exec, View.output, ok_bind, fsRead_eq hT u p len offset hoff]
    exact Answers.of_read d _ _
  | rename src dst => exact .of_refines (fsRename_refines hW u src dst hr)
  | chmod p mode => exact .of_refines (fsChmod_refines hW u p mode)
  | create p mode => exact .of_refines (fsCreate_refines hW ctx u p mode)
  | mkdir p mode => exact .of_refines (fsMkdir_refines hW ctx u p mode)
  | unlink p => exact .of_refines (fsUnlink_refines hW ctx u p)
  | rmdir p => exact .of_refines (fsRmdir_refines hW ctx u p)
  | write p buf offset => exact .of_refines (fsWrite_refines hW ctx u p buf offset)
  | truncate p len => exact .of_refines (fsTruncate_refines hW u p len)
  | utime p ut => exact .of_refines (fsUtime_refines hW ctx u p ut)

/-- A request that returns keeps the disk well-formed. -/
theorem Request.run_wellFormed {d : Disk} (hW : WellFormed d) {ctx : Ctx} {u : Stack} {r : Request}
    (hr : r.InRange) {res : ℤ × Output × Disk} (h : r.call.run ctx u d = .ok res) :
    WellFormed res.2.2 := by
  have ha := run_answers hW ctx u hr
  rw [h] at ha
  obtain ⟨o, -, ho, -⟩ := ha.of_ok
  exact ho.wellFormed hW

/-! ## Runs -/

/-- Every call of a run meets a condition on it and on the disk that it finds. -/
def RunMeets (C : Disk → Call → Prop) : List Step → Disk → Prop
  | [], _ => True
  | s :: steps, d => C d s.call ∧
      ∀ res, s.call.run s.ctx s.stack d = .ok res → RunMeets C steps res.2.2

/-- A condition on the calls alone is met along the run. -/
theorem RunMeets.of_forall {C : Call → Prop} {steps : List Step} (h : ∀ s ∈ steps, C s.call)
    (d : Disk) : RunMeets (fun _ => C) steps d := by
  induction steps generalizing d with
  | nil => trivial
  | cons s steps ih =>
    rw [List.forall_mem_cons] at h
    exact ⟨h.1, fun res _ => ih h.2 res.2.2⟩

/-- Induction over a run: what holds at the start and is kept by every call that meets the condition
and returns holds at the end of a run whose calls all meet it. -/
theorem runAll_invariant {P : Disk → Prop} {C : Disk → Call → Prop}
    (hstep : ∀ d ctx u c res, P d → C d c → Call.run ctx u d c = .ok res → P res.2.2)
    {steps : List Step} : ∀ {d d' : Disk}, P d → RunMeets C steps d →
      runAll steps d = .ok d' → P d' := by
  induction steps with
  | nil =>
    intro d d' hd _ h
    exact Except.ok.inj h ▸ hd
  | cons s steps ih =>
    intro d d' hd hC h
    rw [runAll] at h
    cases hrun : s.call.run s.ctx s.stack d with
    | error _ =>
      rw [hrun, error_bind] at h
      cases h
    | ok res =>
      rw [hrun, ok_bind] at h
      exact ih (hstep d s.ctx s.stack s.call res hd hC.1 hrun) (hC.2 res hrun) h

/-- How such a run stops: in a state in which the invariant holds, by a call that meets the
condition. -/
theorem runAll_error {P : Disk → Prop} {C : Disk → Call → Prop}
    (hstep : ∀ d ctx u c res, P d → C d c → Call.run ctx u d c = .ok res → P res.2.2)
    {steps : List Step} {e : Fault} : ∀ {d : Disk}, P d → RunMeets C steps d →
      runAll steps d = .error e → ∃ d' ctx u c, P d' ∧ C d' c ∧ Call.run ctx u d' c = .error e := by
  induction steps with
  | nil =>
    intro d _ _ h
    cases h
  | cons s steps ih =>
    intro d hd hC h
    rw [runAll] at h
    cases hrun : s.call.run s.ctx s.stack d with
    | error e' =>
      rw [hrun, error_bind] at h
      rw [← Except.error.inj h]
      exact ⟨d, s.ctx, s.stack, s.call, hd, hC.1, hrun⟩
    | ok res =>
      rw [hrun, ok_bind] at h
      exact ih (hstep d s.ctx s.stack s.call res hd hC.1 hrun) (hC.2 res hrun) h

/-- The first calls of a run meet the condition that all of them do. -/
theorem RunMeets.take {C : Disk → Call → Prop} {steps : List Step} (n : ℕ) {d : Disk}
    (h : RunMeets C steps d) : RunMeets C (steps.take n) d := by
  induction steps generalizing d n with
  | nil => rwa [List.take_nil]
  | cons s steps ih =>
    cases n with
    | zero => trivial
    | succ n => exact ⟨h.1, fun res hres => ih n (h.2 res hres)⟩

end Cs5600.Lab4
