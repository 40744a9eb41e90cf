import Cs5600.Lab4.InBounds
import Cs5600.Lab4.Contents

/-!
# Consistency of the disk

A run of operations keeps the disk well-formed, whether they succeed or fail, and an operation that
returns an error leaves every block as it was.
-/

namespace Cs5600.Lab4

/-! ## Runs -/

/-- A run leaves a well-formed disk, or `block_write` aborts it. -/
def EndsWellFormed : Except Fault Disk → Prop
  | .ok d => WellFormed d
  | .error e => e = .assertion

/-- A call of one of the eight operations that change the disk, except `fs_rename`, that stays
inside the arrays of the code. -/
def EditsInBounds (d : Disk) (c : Call) : Prop :=
  ∃ r : Request, r.edits = true ∧ c = r.call ∧ r.InBounds d

/-- A call of the eight operations that stays inside the arrays keeps the disk well-formed. -/
theorem EditsInBounds.wellFormed {d : Disk} {ctx : Ctx} {u : Stack} {c : Call}
    {res : ℤ × Output × Disk} (hW : WellFormed d) (hc : EditsInBounds d c)
    (h : c.run ctx u d = .ok res) : WellFormed res.2.2 := by
  obtain ⟨r, hr, rfl, -⟩ := hc
  exact Request.run_wellFormed hW (Request.inRange_of_edits hr) h

/-- A call of the eight operations that stays inside the arrays is stopped by `block_write` only. -/
theorem EditsInBounds.assertion {d : Disk} {ctx : Ctx} {u : Stack} {c : Call} {e : Fault}
    (hW : WellFormed d) (hc : EditsInBounds d c) (h : c.run ctx u d = .error e) :
    e = .assertion := by
  obtain ⟨r, hr, rfl, hin⟩ := hc
  refine (Request.run_error hW hin ?_ (Request.inRange_of_edits hr) h).1
  cases r <;> trivial

/-- A run of the eight operations that change the disk, except `fs_rename`, keeps it well-formed
after each call until `block_write` aborts it, exactly when all of its calls stay inside the
arrays. -/
theorem runAll_wellFormed_iff {d : Disk} (hW : WellFormed d) {steps : List Step}
    (hedits : ∀ s ∈ steps, ∃ r : Request, r.edits = true ∧ s.call = r.call) :
    (∀ n, EndsWellFormed (runAll (steps.take n) d)) ↔ RunMeets EditsInBounds steps d := by
  constructor
  · intro h
    -- Induction on the steps; a prefix of the run is a run of its own.
    induction steps generalizing d with
    | nil => trivial
    | cons s steps ih =>
      obtain ⟨⟨r, hr, hcall⟩, hrest⟩ := List.forall_mem_cons.mp hedits
      have hrange := Request.inRange_of_edits hr
      refine ⟨⟨r, hr, hcall, ?_⟩, ?_⟩
      · -- A call that leaves the arrays is where the run of one call ends.
        by_contra hout
        have h1 := h 1
        rw [List.take_succ_cons, runAll, hcall, Request.run_outOfRange hW hrange hout,
          error_bind] at h1
        cases h1
      · intro res hres
        refine ih (Request.run_wellFormed hW hrange (hcall ▸ hres)) hrest fun n => ?_
        have hn := h (n + 1)
        rwa [List.take_succ_cons, runAll, hres, ok_bind] at hn
  · intro hmeets n
    have hn := hmeets.take n
    have hstep : ∀ d ctx u c res, WellFormed d → EditsInBounds d c → Call.run ctx u d c = .ok res →
        WellFormed res.2.2 := fun _ _ _ _ _ hW hc hres => hc.wellFormed hW hres
    -- A run that ends well was kept well-formed; one that stops was stopped by the assertion.
    cases hrun : runAll (steps.take n) d with
    | ok d' => exact runAll_invariant hstep hW hn hrun
    | error e =>
      obtain ⟨d', ctx, u, c, hW', hc, hres⟩ := runAll_error hstep hW hn hrun
      exact hc.assertion hW' hres

/-- After the call that creates `/a` the image of `disk2.in` is well-formed. -/
theorem runAll_wellFormed_iff_disk2 :
    EndsWellFormed (runAll [⟨someCtx, zeroStack, .create pathA.str 0o644⟩] disk2) := by
  have hin : EditsInBounds disk2 (.create pathA.str 0o644) :=
    ⟨.create pathA 0o644, rfl, rfl, (by decide : (render pathA.parent).length ≤ 298)⟩
  have hmeets : RunMeets EditsInBounds [⟨someCtx, zeroStack, .create pathA.str 0o644⟩] disk2 :=
    ⟨hin, fun _ _ => trivial⟩
  refine (runAll_wellFormed_iff disk2_wellFormed fun s hs => ?_).mpr hmeets 1
  exact ⟨.create pathA 0o644, rfl, by rw [List.mem_singleton.mp hs]; rfl⟩

/-- A block of zeros. -/
def zeroBlock : Buf where
  bytes := List.replicate 4096 0
  fits := by rw [List.length_replicate]; norm_num

/-- The calls that make the file `/a`, write one byte to it, and write 4096 bytes in front of it. -/
def writeInFront : List Step :=
  [⟨someCtx, zeroStack, .create pathA.str 0o644⟩,
    ⟨someCtx, zeroStack, .write pathA.str oneByte 0⟩,
    ⟨someCtx, zeroStack, .write pathA.str zeroBlock (-4096)⟩]

/-- On the image of `disk2.in` the first two of these calls return, and the third one begins with
`in.ptrs[-1]`, in front of the array. -/
theorem not_endsWellFormed_disk2 : WellFormed disk2 ∧
    (∃ d, runAll (writeInFront.take 2) disk2 = .ok d ∧ WellFormed d) ∧
    runAll writeInFront disk2 = .error .outOfRange ∧
    ¬ EndsWellFormed (runAll writeInFront disk2) := by
  obtain ⟨d, n, hcreate, hW, hn, hfile, hbytes, hfree⟩ := disk2_create
  obtain ⟨a, ha, -⟩ := allocN_of_le le_rfl (View.blocksNeeded n.bytes.length (0 + 1)) (d.blk 1)
    (by rw [hbytes]; exact hfree)
  obtain ⟨d', hwrite, hW', hview⟩ := @fsWrite_eq d hW pathA n hn hfile someCtx zeroStack oneByte 0 0
    rfl (Nat.zero_le _) (by decide) a ha
  have htwo : runAll (writeInFront.take 2) disk2 = .ok d' := by
    simp only [writeInFront, List.take_succ_cons, List.take_zero, runAll, Call.run, hcreate, hwrite,
      noOutput, ok_bind]
  -- The file is still there, and the window ends at its first byte.
  have hout : ¬ (Request.write pathA zeroBlock (-4096)).InBounds d' := by
    have hn' : liveNode d' pathA.comps =
        some (n.wrote someCtx.now 0 oneByte.bytes a.1) := by
      rw [← view_nodes, hview]
      exact Function.update_self (f := (view d).nodes) pathA.comps _
    have hlen : zeroBlock.bytes.length = 4096 := List.length_replicate ..
    have hoff : (-4096 : Int64).toInt = -4096 := rfl
    simp only [Request.InBounds, hlen, hoff, hn', not_or, not_forall]
    exact ⟨by norm_num, by norm_num, by norm_num, _, rfl, Bool.false_ne_true⟩
  have hthree : runAll writeInFront disk2 = .error .outOfRange := by
    have hlast : (Request.write pathA zeroBlock (-4096)).call.run someCtx zeroStack d' =
        .error .outOfRange := Request.run_outOfRange hW' trivial hout
    rw [show writeInFront = writeInFront.take 2 ++ writeInFront.drop 2 from rfl, runAll_append htwo,
      writeInFront, List.drop_succ_cons, List.drop_succ_cons, List.drop_zero, runAll]
    exact congrArg (· >>= fun r => runAll [] r.2.2) hlast
  refine ⟨disk2_wellFormed, ⟨d', htwo, hW'⟩, hthree, ?_⟩
  rw [hthree]
  intro h
  cases h

/-! ## Errors -/

/-- An operation that may return does not change the view when it returns an error. -/
def Honest (x : Except Fault Outcome) : Prop := ∀ o, x = .ok o → o.rc < 0 → o.view = none

/-- An error that changes nothing is honest. -/
theorem honest_fail (rc : ℤ) : Honest (fail rc) := fun _ h _ => Except.ok.inj h ▸ rfl

/-- A call that stops is honest. -/
theorem honest_error (e : Fault) : Honest (.error e) := fun _ h => (nomatch h)

/-- A call that succeeds is honest. -/
theorem honest_done {rc : ℤ} (h : 0 ≤ rc) (handed : List ℕ) (v : View) :
    Honest (done rc handed v) := by
  intro o ho hneg
  rw [← Except.ok.inj ho] at hneg
  exact absurd h (not_le.mpr hneg)

/-- A removal that returns an error has changed nothing. -/
theorem honest_removeWith (ctx : Ctx) (p : NormPath) (remove : LiveNode → Option ℤ) (v : View) :
    Honest (v.removeWith ctx p remove) := by
  unfold View.removeWith
  split_ifs
  · exact honest_error _
  · split
    · exact honest_fail _
    · split
      · split
        · exact honest_fail _
        · exact honest_done le_rfl _ _
      · exact honest_fail _

/-- An operation that returns an error does not change the view. -/
theorem honest_exec (ctx : Ctx) (v : View) {r : Request} (hr : r.edits = true) :
    Honest (v.exec ctx r) := by
  cases r with
  | chmod p mode =>
    rw [View.exec, View.chmod]
    split
    · exact honest_fail _
    · exact honest_done le_rfl _ _
  | create p mode =>
    rw [View.exec, View.create]
    split_ifs
    · exact honest_fail _
    · exact honest_error _
    · exact honest_fail _
    · split
      · exact honest_fail _
      · split
        · exact honest_done le_rfl _ _
        · exact honest_fail _
  | mkdir p mode =>
    rw [View.exec, View.mkdir]
    split_ifs
    · exact honest_fail _
    · exact honest_error _
    · exact honest_fail _
    · split
      · exact honest_fail _
      · split
        · split
          · exact honest_done le_rfl _ _
          · -- The only free block was handed out and given back.
            exact fun o ho _ => Except.ok.inj ho ▸ rfl
        · exact honest_fail _
  | unlink p => exact honest_removeWith ctx p _ v
  | rmdir p => exact honest_removeWith ctx p _ v
  | write p buf offset =>
    rw [View.exec, View.write]
    split
    · exact honest_fail _
    · simp only
      split_ifs
      · exact honest_fail _
      · exact honest_fail _
      · exact honest_fail _
      · exact honest_error _
      · split
        · exact honest_error _
        · exact honest_done (Int.natCast_nonneg _) _ _
  | truncate p len =>
    rw [View.exec, View.truncate]
    split_ifs
    · exact honest_fail _
    · split
      · exact honest_fail _
      · split_ifs
        · exact honest_fail _
        · exact honest_done le_rfl _ _
  | utime p ut =>
    rw [View.exec, View.utime]
    split
    · exact honest_fail _
    · split_ifs
      · exact honest_fail _
      · exact honest_done le_rfl _ _
  | _ => cases hr

/-- A rename that returns an error leaves the disk as it was, however long the new name is. -/
theorem fsRename_neg {d d' : Disk} (hT : Tree d) {u : Stack} {src dst : NormPath} {rc : ℤ}
    (h : fsRename u src.str dst.str d = .ok (rc, d')) (hneg : rc < 0) : d' = d := by
  rcases fsRename_cases hT u src dst with ⟨-, he⟩ | ⟨-, -, he⟩ | ⟨-, -, -, he⟩ |
    ⟨P, s, f, -, -, -, -, -, he⟩
  · rw [he] at h
    exact (Prod.mk.inj (Except.ok.inj h)).2.symm
  · rw [he] at h
    exact (Prod.mk.inj (Except.ok.inj h)).2.symm
  · rw [he] at h
    exact (Prod.mk.inj (Except.ok.inj h)).2.symm
  · rw [he] at h
    cases hcopy : strcpyName (dirBlock d P) s dst.name with
    | error e => rw [hcopy, error_bind] at h; cases h
    | ok buf =>
      rw [hcopy, ok_bind] at h
      rw [← (Prod.mk.inj (Except.ok.inj h)).1] at hneg
      exact absurd hneg (lt_irrefl 0)

/-- An operation that may change the disk and returns a negative value leaves every block of the
disk as it was, the bitmap included. -/
theorem unchanged_of_error {d : Disk} (hW : WellFormed d) {ctx : Ctx} {u : Stack} {r : Request}
    (hr : r.edits = true ∨ r.renames = true) {rc : ℤ} {out : Output} {d' : Disk}
    (h : r.call.run ctx u d = .ok (rc, out, d')) (hneg : rc < 0) :
    d'.nblks = d.nblks ∧ d'.blk = d.blk := by
  rcases hr with hr | hr
  -- The refinement's outcome is honest, and an honest negative one changes nothing.
  · have ha := Request.run_answers hW ctx u (Request.inRange_of_edits hr)
    rw [h] at ha
    obtain ⟨o, ho, hholds, -⟩ := ha.of_ok
    refine hholds.unchanged (honest_exec ctx (view d) hr o ho ?_)
    rw [← hholds.rc]
    exact hneg
  -- `fs_rename` is no part of the refinement here; its errors return the image as it was.
  · cases r with
    | rename src dst =>
      simp only [Request.call, Call.run, noOutput] at h
      cases hrun : fsRename u src.str dst.str d with
      | error e => rw [hrun, error_bind] at h; cases h
      | ok res =>
        rw [hrun, ok_bind] at h
        obtain ⟨hrc, hout⟩ := Prod.mk.inj (Except.ok.inj h)
        have hd : res.2 = d := fsRename_neg hW.toTree hrun (by rw [hrc]; exact hneg)
        rw [← (Prod.mk.inj hout).2, hd]
        exact ⟨rfl, rfl⟩
    | _ => cases hr

/-- `fs_unlink("/a")` on the image of `disk2.in` returns `-ENOENT` and changes nothing. -/
theorem unchanged_of_error_disk2 : ∃ d',
    (Request.unlink pathA).call.run someCtx zeroStack disk2 = .ok (-ENOENT, .none, d') ∧
      d'.nblks = disk2.nblks ∧ d'.blk = disk2.blk := by
  have hnone : (view disk2).nodes pathA.comps = none := liveNode_none (disk2_resolve [97] [])
  have hspec : (view disk2).unlink someCtx pathA = fail (-ENOENT) := by
    have hroot := dirAt_dir (d := disk2) (p := pathA.parent) (i := 2) rfl genDisk_isDir
    rw [View.unlink, View.removeWith, if_neg (by decide), hroot, hnone]
    simp
  have href := fsUnlink_refines disk2_wellFormed someCtx zeroStack pathA
  rw [hspec] at href
  obtain ⟨r, hr⟩ : ∃ r, fsUnlink someCtx zeroStack pathA.str disk2 = .ok r := by
    cases hrun : fsUnlink someCtx zeroStack pathA.str disk2 with
    | error e => rw [hrun] at href; exact href.elim
    | ok r => exact ⟨r, rfl⟩
  rw [hr] at href
  have hrc : r.1 = -ENOENT := Outcome.Holds.rc href
  have hrun : (Request.unlink pathA).call.run someCtx zeroStack disk2 =
    .ok (-ENOENT, .none, r.2) := by
    simp only [Request.call, Call.run, hr, noOutput, ok_bind, hrc]
  exact ⟨r.2, hrun, unchanged_of_error disk2_wellFormed (.inl rfl) hrun (by decide)⟩

end Cs5600.Lab4
