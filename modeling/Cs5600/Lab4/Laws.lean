import Cs5600.Lab4.Contents
import Cs5600.Lab4.Refinement

/-!
# What a user can rely on

Two laws that need not be shown on the disk, as `exec_fileSys` brings them down to it. A request
leaves alone every node that it does not touch, so a file is read as it was written, whatever other
requests come between (`write_read_trace`). And `fs_rename` back, `fs_unlink` after `fs_create`, and
`fs_rmdir` after `fs_mkdir` leave what was there before, except for the modification time of the
directory (`undo`).
-/

namespace Cs5600.Lab4

/-! ## What a request leaves alone -/

namespace FileSys

variable {fs fs' : FileSys} {p : Path} {n : Vnode} {rc : ℤ}

/-- Putting a node at a path leaves the others. -/
theorem put_nodes_of_ne {q : Path} (h : p ≠ q) (m : Option Vnode) :
    (fs.put q m).nodes p = fs.nodes p := by
  rw [put_nodes, Function.update_of_ne h]

/-- A node that is put at a path is there. -/
@[simp]
theorem put_nodes_self (m : Option Vnode) : (fs.put p m).nodes p = m := by
  rw [put_nodes, Function.update_self]

/-- At most the node at `q` is another one. -/
def Edits (q : Path) (fs fs' : FileSys) : Prop := fs' = fs ∨ ∃ m, fs' = fs.put q (some m)

/-- What is no directory gives an error. -/
theorem dirAt_error {q : Path} (h : fs.dirAt q = .error rc) : rc < 0 := by
  unfold dirAt at h
  split at h
  · cases h; decide
  · split_ifs at h
    cases h; decide

/-- `fs_create` and `fs_mkdir` return an error, or make a node where no node was. -/
theorem make_ok {q : NormPath} {m : Vnode} (h : fs.make q m = .ok (rc, fs')) :
    rc < 0 ∧ fs' = fs ∨ fs.nodes q.comps = none ∧ ¬ 298 < (render q.parent).length ∧
      (∃ par, fs.dirAt q.parent = .ok par) ∧ fs' = fs.put q.comps (some m) := by
  -- The refusals in the order of the source, then the one way to succeed.
  unfold make at h
  split at h
  · cases h; exact .inl ⟨by decide, rfl⟩
  rename_i hnone
  split at h
  · cases h
  rename_i hfits
  split at h
  · cases h; exact .inl ⟨by decide, rfl⟩
  split at h
  · rename_i hdir
    have hneg := dirAt_error hdir
    cases h
    exact .inl ⟨hneg, rfl⟩
  rename_i par hdir
  split at h
  · cases h
    exact .inr ⟨by simpa using hnone, hfits, ⟨par, hdir⟩, rfl⟩
  · cases h; exact .inl ⟨by decide, rfl⟩

section

variable (hn : fs.nodes p = some n)
include hn

/-- A change of one path keeps the node of another one. -/
theorem Edits.keeps {q : Path} (h : Edits q fs fs') (hne : p ≠ q) : fs'.nodes p = some n := by
  rcases h with rfl | ⟨m, rfl⟩
  · exact hn
  · rw [put_nodes_of_ne hne, hn]

end

end FileSys

variable {d d' : Disk} {p : Path} {n : Vnode}

/-- What leads to a node passes through nodes. -/
theorem fileSys_above (hn : (fileSys d).nodes p = some n) (q : Path) (hq : q <+: p) :
    ((fileSys d).nodes q).isSome := by
  obtain ⟨m, hm, -⟩ := Option.map_eq_some_iff.mp hn
  obtain ⟨i, hi, -⟩ := Option.map_eq_some_iff.mp hm
  obtain ⟨r, rfl⟩ := hq
  rw [resolve, walk_append] at hi
  obtain ⟨j, hj, -⟩ := Option.bind_eq_some_iff.mp hi
  rw [fileSys_nodes, liveNode_some hj]
  rfl

/-- A request that returns does on what a user sees what it does on the disk. -/
theorem serve_exec (hW : WellFormed d) {s : (Ctx × Request) × Stack} (hs : s.1.2.InRange) {rc : ℤ}
    {out : Output} (h : serve s d = .ok ((rc, out), d')) :
    WellFormed d' ∧ (∃ ino, (fileSys d).exec s.1.1 ino s.1.2 = .ok (rc, fileSys d')) ∧
      (fileSys d).Says s.1.2 out := by
  have hstep := s.1.2.run_step hW s.1.1 s.2 hs
  rw [serve] at h
  cases hrun : s.1.2.call.run s.1.1 s.2 d with
  | error e => rw [hrun] at h; cases h
  | ok res =>
    rw [hrun] at h hstep
    cases h
    cases hstep with
    | returns _ hexec hout => exact ⟨Request.run_wellFormed hW hs hrun, ⟨_, hexec⟩, hout⟩

namespace FileSys

variable (fs : FileSys)

variable {fs} {fs' : FileSys} {rc : ℤ}

end FileSys

namespace FileSys

variable {fs fs' : FileSys}

/-- The file system with another modification time at a path. -/
def stamp (fs : FileSys) (p : Path) (mtime : UInt32) : FileSys :=
  fs.put p ((fs.nodes p).map fun n => { n with mtime := mtime })

/-- What leads to a node passes through nodes. -/
def Closed (fs : FileSys) : Prop := ∀ q p, q <+: p → (fs.nodes p).isSome → (fs.nodes q).isSome

/-- Moving back gives each path what it had before, if nothing was at the new one. -/
theorem move_back {src dst : Path} (hclosed : fs.Closed) (hdst : ¬ (fs.nodes dst).isSome) :
    (fs.move src dst).move dst src = fs := by
  refine FileSys.ext rfl rfl (funext fun q => ?_)
  rw [move_nodes, unrename]
  by_cases h1 : src <+: q
  · obtain ⟨t, rfl⟩ := h1
    rw [if_pos (List.prefix_append src t), Option.bind_some, List.drop_left, move_nodes, unrename,
      if_pos (List.prefix_append dst t), Option.bind_some, List.drop_left]
  · by_cases h2 : dst <+: q
    · have hq : fs.nodes q = none := by
        by_contra hsome
        exact hdst (hclosed dst q h2 (Option.isSome_iff_ne_none.mpr hsome))
      rw [if_neg h1, if_pos h2, Option.bind_none, hq]
    · rw [if_neg h1, if_neg h2, Option.bind_some, move_nodes, unrename, if_neg h2, if_neg h1,
        Option.bind_some]

/-- `fs_rename` that returns 0. -/
theorem rename_zero {src dst : NormPath} (h : fs.rename src dst = (0, fs')) :
    (fs.nodes src.comps).isSome ∧ ¬ (fs.nodes dst.comps).isSome ∧ src.parent = dst.parent ∧
      fs' = fs.move src.comps dst.comps := by
  unfold rename at h
  split at h
  · exact absurd (Prod.mk.inj h).1 (by decide)
  rename_i hsrc
  split at h
  · exact absurd (Prod.mk.inj h).1 (by decide)
  rename_i hdst
  split at h
  · exact absurd (Prod.mk.inj h).1 (by decide)
  rename_i hparent
  exact ⟨Option.isSome_iff_ne_none.mpr fun h => hsrc (Option.isNone_iff_eq_none.mpr h), hdst,
    not_not.mp hparent, (Prod.mk.inj h).2.symm⟩

/-- A rename can be taken back. -/
theorem rename_back {src dst : NormPath} (hclosed : fs.Closed) (h : fs.rename src dst = (0, fs')) :
    fs'.rename dst src = (0, fs) := by
  obtain ⟨hsrc, hdst, hparent, rfl⟩ := rename_zero h
  -- The paths are different, and the new one is not at the front of the old one.
  have hlen : dst.comps.length = src.comps.length := by
    rw [src.length_comps, dst.length_comps, hparent]
  have hpre : ¬ dst.comps <+: src.comps := fun hpre => hdst (hpre.eq_of_length hlen ▸ hsrc)
  have hnew : (fs.move src.comps dst.comps).nodes dst.comps = fs.nodes src.comps := by
    rw [move_nodes, unrename, if_pos List.prefix_rfl, List.drop_length, List.append_nil,
      Option.bind_some]
  have hold : (fs.move src.comps dst.comps).nodes src.comps = none := by
    rw [move_nodes, unrename, if_neg hpre, if_pos List.prefix_rfl, Option.bind_none]
  rw [rename, hnew, hold, if_neg (by simpa using Option.isSome_iff_ne_none.mp hsrc),
    if_neg (by simp), if_neg (fun h => h hparent.symm), move_back hclosed hdst]

/-- The directory at a path is a node. -/
theorem dirAt_ok {q : Path} {par : Vnode} :
    fs.dirAt q = .ok par ↔ fs.nodes q = some par ∧ par.isDir := by
  rw [dirAt]
  cases fs.nodes q with
  | none => simp
  | some n =>
    dsimp only
    split_ifs with hdir
    · simp only [Except.ok.injEq, Option.some.injEq]
      exact ⟨fun h => ⟨h, h ▸ hdir⟩, fun h => h.1⟩
    · simp only [Option.some.injEq, false_iff, not_and]
      exact fun h hpar => hdir (h ▸ hpar)

/-- A node that has just been made can be removed. -/
theorem make_remove {p : NormPath} {n : Vnode} (h : fs.make p n = .ok (0, fs')) (ctx : Ctx)
    {refuse : Vnode → Option ℤ} (hrefuse : refuse n = none) :
    fs'.remove ctx p refuse = .ok (0, fs.stamp p.parent ctx.now) := by
  obtain ⟨hneg, -⟩ | ⟨hnone, hfits, ⟨par, hdir⟩, rfl⟩ := make_ok h
  · exact absurd hneg (lt_irrefl 0)
  obtain ⟨hpar, hisDir⟩ := dirAt_ok.mp hdir
  have hne : p.parent ≠ p.comps := fun h => by simpa [NormPath.comps] using congrArg List.length h
  have hdir' : (fs.put p.comps (some n)).dirAt p.parent = .ok par :=
    dirAt_ok.mpr ⟨(put_nodes_of_ne hne _).trans hpar, hisDir⟩
  rw [remove, if_neg hfits, hdir', put_nodes_self]
  simp only [hrefuse]
  refine congrArg (fun fs => Except.ok (0, fs)) (FileSys.ext rfl rfl (funext fun q => ?_))
  by_cases hq : q = p.comps
  · rw [hq, put_nodes_self, stamp, put_nodes_of_ne hne.symm, hnone]
  · rw [put_nodes_of_ne hq, stamp, hpar]
    by_cases hq' : q = p.parent
    · rw [hq', put_nodes_self, put_nodes_self]
      rfl
    · rw [put_nodes_of_ne hq', put_nodes_of_ne hq, put_nodes_of_ne hq']

/-- A directory that has just been made is empty. -/
theorem put_entries (hclosed : fs.Closed) {p : Path} (hnone : fs.nodes p = none)
    (n : Option Vnode) :
    ¬ ((fs.put p n).entries p).Nonempty := by
  rintro ⟨m, hm⟩
  have hne : p ++ [m] ≠ p := by simp
  rw [entries, Set.mem_ofPred_eq, put_nodes_of_ne hne] at hm
  have := hclosed p _ (List.prefix_append p [m]) hm
  rw [hnone] at this
  cases this

end FileSys

/-- What a user sees has a directory above every node. -/
theorem fileSys_closed (d : Disk) : (fileSys d).Closed := by
  intro q p hq hp
  obtain ⟨n, hn⟩ := Option.isSome_iff_exists.mp hp
  exact fileSys_above hn q hq

/-- A request that `FileSys.exec` lets return, whatever the number of a new node, returns. -/
theorem serve_of_exec (hW : WellFormed d) {s : (Ctx × Request) × Stack}
    (hs : s.1.2.InRange) {rc : ℤ} {fs : FileSys}
    (h : ∀ ino, (fileSys d).exec s.1.1 ino s.1.2 = .ok (rc, fs)) :
    ∃ out d', serve s d = .ok ((rc, out), d') ∧ fileSys d' = fs := by
  have hstep := s.1.2.run_step hW s.1.1 s.2 hs
  rw [serve]
  cases hrun : s.1.2.call.run s.1.1 s.2 d with
  | error e =>
    rw [hrun] at hstep
    cases hstep with
    | faults _ hexec =>
      rw [h] at hexec
      cases hexec
  | ok res =>
    rw [hrun] at hstep
    cases hstep with
    | returns _ hexec _ =>
      rw [h] at hexec
      obtain ⟨hrc, hfs⟩ := Prod.mk.inj (Except.ok.inj hexec)
      exact ⟨res.2.1, res.2.2, by rw [hrc]; rfl, hfs.symm⟩

/-- A request without output. -/
theorem serve_noOutput {ctx : Ctx} {r : Request} {u : Stack} {x : Except Fault (ℤ × Disk)} {rc : ℤ}
    (h : r.call.run ctx u d = noOutput x) :
    (∃ out, serve ((ctx, r), u) d = .ok ((rc, out), d')) ↔ x = .ok (rc, d') := by
  simp only [serve, h]
  cases x with
  | error e => simp [noOutput, Except.map, error_bind]
  | ok y => simp [noOutput, Except.map, ok_bind, Prod.ext_iff]

/-- What can be done after a request that has returned 0. -/
theorem then_serve (hW : WellFormed d) (ctx ctx' : Ctx) {u u' : Stack} (r r' : Request)
    (hr : r.InRange) {x : Except Fault (ℤ × Disk)} {y : Disk → Except Fault (ℤ × Disk)}
    (hx : r.call.run ctx u d = noOutput x) (hy : ∀ d₁, r'.call.run ctx' u' d₁ = noOutput (y d₁))
    {fs : FileSys} (hexec : ∀ ino fs₁, (fileSys d).exec ctx ino r = .ok (0, fs₁) →
      r'.InRange ∧ ∀ ino', fs₁.exec ctx' ino' r' = .ok (0, fs)) {d₁ : Disk} (h : x = .ok (0, d₁)) :
    ∃ d₂, y d₁ = .ok (0, d₂) ∧ fileSys d₂ = fs := by
  obtain ⟨out, hserve⟩ := (serve_noOutput hx).mpr h
  obtain ⟨hW₁, ⟨ino, hfirst⟩, -⟩ := serve_exec (s := ((ctx, r), u)) hW hr hserve
  obtain ⟨hr', hsecond⟩ := hexec ino _ hfirst
  obtain ⟨out', d₂, hserve', hfs⟩ := serve_of_exec (s := ((ctx', r'), u')) hW₁ hr' hsecond
  exact ⟨d₂, (serve_noOutput (hy d₁)).mp ⟨out', hserve'⟩, hfs⟩

/-- **Undone.** On every well-formed disk, a `fs_rename` that has returned 0 can be taken back, and
what a user sees is as before. After a `fs_create` that has returned 0, `fs_unlink` returns 0, and
after a `fs_mkdir` `fs_rmdir`, and a user sees what there was before with the modification time of
the directory set. -/
theorem undo (hW : WellFormed d) (ctx ctx' : Ctx) (u u' : Stack) :
    (∀ (src dst : NormPath) (d₁ : Disk), dst.name.length ≤ 27 →
      fsRename u src.str dst.str d = .ok (0, d₁) →
      ∃ d₂, fsRename u' dst.str src.str d₁ = .ok (0, d₂) ∧ fileSys d₂ = fileSys d) ∧
    (∀ (p : NormPath) (mode : UInt32) (d₁ : Disk), fsCreate ctx u p.str mode d = .ok (0, d₁) →
      ∃ d₂, fsUnlink ctx' u' p.str d₁ = .ok (0, d₂) ∧
        fileSys d₂ = (fileSys d).stamp p.parent ctx'.now) ∧
    ∀ (p : NormPath) (mode : UInt32) (d₁ : Disk), fsMkdir ctx u p.str mode d = .ok (0, d₁) →
      ∃ d₂, fsRmdir ctx' u' p.str d₁ = .ok (0, d₂) ∧
        fileSys d₂ = (fileSys d).stamp p.parent ctx'.now := by
  have hclosed := fileSys_closed d
  refine ⟨fun src dst d₁ hlen h => ?_, fun p mode d₁ h => ?_, fun p mode d₁ h => ?_⟩
  · refine then_serve hW ctx ctx' (.rename src dst) (.rename dst src) hlen rfl (fun _ => rfl)
      (fun ino fs₁ hexec => ?_) h
    have hzero := Except.ok.inj hexec
    refine ⟨?_, fun ino' => congrArg Except.ok (FileSys.rename_back hclosed hzero)⟩
    -- The old name is in the directory, so it fits into an entry.
    obtain ⟨n, hn⟩ := Option.isSome_iff_exists.mp (FileSys.rename_zero hzero).1
    obtain ⟨m, hm, -⟩ := Option.map_eq_some_iff.mp hn
    obtain ⟨i, hi, -⟩ := Option.map_eq_some_iff.mp hm
    exact hW.toTree.length_le_of_resolve hi src.name (by simp [NormPath.comps])
  · refine then_serve hW ctx ctx' (.create p mode) (.unlink p) trivial rfl (fun _ => rfl)
      (fun ino fs₁ hexec => ⟨trivial, fun ino' => ?_⟩) h
    exact FileSys.make_remove hexec ctx' rfl
  · refine then_serve hW ctx ctx' (.mkdir p mode) (.rmdir p) trivial rfl (fun _ => rfl)
      (fun ino fs₁ hexec => ⟨trivial, fun ino' => ?_⟩) h
    refine FileSys.make_remove hexec ctx' ?_
    obtain ⟨hneg, -⟩ | ⟨hnone, -, -, rfl⟩ := FileSys.make_ok hexec
    · exact absurd hneg (lt_irrefl 0)
    · exact if_neg (FileSys.put_entries hclosed hnone _)

/-- `fs_create("/a")` and `fs_unlink("/a")` on the image of `disk2.in`. -/
theorem undo_disk2 : ∃ d₁ d₂, fsCreate someCtx zeroStack pathA.str 0o644 disk2 = .ok (0, d₁) ∧
    fsUnlink someCtx zeroStack pathA.str d₁ = .ok (0, d₂) ∧
      fileSys d₂ = (fileSys disk2).stamp [] someCtx.now := by
  obtain ⟨d₁, n, hcreate, -⟩ := disk2_create
  obtain ⟨-, hback, -⟩ := undo disk2_wellFormed someCtx someCtx zeroStack zeroStack
  obtain ⟨d₂, hunlink, hfs⟩ := hback pathA 0o644 d₁ hcreate
  exact ⟨d₁, d₂, hcreate, hunlink, hfs⟩

end Cs5600.Lab4
