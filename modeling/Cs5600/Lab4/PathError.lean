import Cs5600.Lab4.Namespace
import Cs5600.Lab4.Request

/-!
# Errors of path translation

A walk from the root that does not get to the directory of a path meets an `Obstacle`: the first
component that it cannot enter is missing, or is a file. `path2inum` has an error number for each,
and most operations return what it returns. `fs_chmod` and `fs_rename` return `-ENOENT` for both,
and so do the operations that walk to the parent, unless the file is the parent itself.
-/

namespace Cs5600.Lab4

/-- What the first component is that a walk cannot enter. -/
inductive Obstacle where
  | missing
  | file
  deriving DecidableEq

/-- The error number of an obstacle. -/
def Obstacle.errno : Obstacle → ℤ
  | missing => ENOENT
  | file => ENOTDIR

/-- The obstacle on the walk from the directory `i` along `ns`; `none` when the walk ends in a
directory. -/
def obstacle (d : Disk) : ℕ → Path → Option Obstacle
  | _, [] => none
  | i, n :: ns => match entry d i n with
    | none => some .missing
    | some j => if (inodeAt d j).isDir then obstacle d j ns else some .file

/-- The calls that translate `path`: it is the source of `fs_rename`, whose destination may be any
absolute path, and `fs_truncate` truncates to nothing. -/
def Call.Translates (path : CString) : Call → Prop
  | init | statfs _ => False
  | getattr q | readdir q | read q _ _ | chmod q _ | create q _ | mkdir q _ | unlink q | rmdir q
  | write q _ _ | utime q _ => q = path
  | truncate q len => q = path ∧ len = 0
  | rename srcPath dstPath => srcPath = path ∧ dstPath.head? = some slash

/-- The operations that return the result of `path2inum` when it is negative. -/
def Call.returnsWalk : Call → Bool
  | getattr _ | readdir _ | read _ _ _ | write _ _ _ | truncate _ _ | utime _ _ => true
  | _ => false

/-- The operations that walk to the parent, and look there for the last component. -/
def Call.walksToParent : Call → Bool
  | create _ _ | mkdir _ _ | unlink _ | rmdir _ => true
  | _ => false

variable {d : Disk}

/-- The error of `path2inum` is that of the obstacle in front of the last component. -/
theorem walkInum_obstacle {ns : Path} {name : CString} {o : Obstacle}
    (hns : ∀ n ∈ ns, n.length ≤ 27) (hname : name.length ≤ 27) {i : ℕ}
    (hdir : (inodeAt d i).isDir = true) (ho : obstacle d i ns = some o) :
    walkInum d i (ns ++ [name]) = -o.errno := by
  induction ns generalizing i with
  | nil => cases ho
  | cons n ns ih =>
    rw [List.forall_mem_cons] at hns
    rw [List.cons_append, walkInum, if_neg (by omega), if_pos hdir]
    rw [obstacle] at ho
    cases he : entry d i n with
    | none =>
      rw [he] at ho
      cases ho
      rfl
    | some j =>
      rw [he] at ho
      dsimp only at ho ⊢
      split_ifs at ho with hj
      · exact ih hns.2 hj ho
      · cases ho
        -- The next component is looked up in a file.
        cases ns with
        | nil => rw [List.nil_append, walkInum, if_neg (by omega), if_neg hj]; rfl
        | cons m ms =>
          have hm := hns.2 m List.mem_cons_self
          rw [List.cons_append, walkInum, if_neg (by omega), if_neg hj]
          rfl

/-- A path with a component missing leads nowhere. -/
theorem walk_of_missing {ns : Path} {i : ℕ} (ho : obstacle d i ns = some .missing) :
    walk (entry d) i ns = none := by
  induction ns generalizing i with
  | nil => cases ho
  | cons n ns ih =>
    rw [obstacle] at ho
    rw [walk_cons]
    cases he : entry d i n with
    | none => rfl
    | some j =>
      rw [he] at ho
      dsimp only at ho
      split_ifs at ho
      · exact ih ho
      · cases ho

section

variable (hW : WellFormed d) {p : NormPath} (hlen : ∀ n ∈ p.comps, n.length ≤ 27) {o : Obstacle}
  (ho : obstacle d 2 p.parent = some o)
include hW hlen ho

/-- `path2inum` returns the error of the first obstacle. -/
theorem path2inum_obstacle (u : Stack) : path2inum u d p.str = -o.errno := by
  rw [NormPath.comps, List.forall_mem_append, List.forall_mem_singleton] at hlen
  rw [path2inum_str hW.toTree, NormPath.comps]
  exact walkInum_obstacle hlen.1 hlen.2 hW.root ho

omit hW ho in
/-- The parent's part of the path fits into the buffer of `par_path`. -/
theorem length_render_parent : (render p.parent).length ≤ 298 := by
  have hle : ∀ k ∈ p.parent.map (fun n => n.length + 1), k ≤ 28 := by
    intro k hk
    obtain ⟨n, hn, rfl⟩ := List.mem_map.mp hk
    have := hlen n (List.mem_append_left _ hn)
    omega
  have hsum := List.sum_le_card_nsmul _ 28 hle
  rw [← length_render, List.length_map, nsmul_eq_mul, Nat.cast_id] at hsum
  have := p.parent_lt
  omega

/-- The operations that return what `path2inum` returns. -/
theorem run_walk (ctx : Ctx) (u : Stack) {c : Call} (hc : c.Translates p.str)
    (hwalks : c.returnsWalk = true) : ∃ out, c.run ctx u d = .ok (-o.errno, out, d) := by
  have hwalk := path2inum_obstacle hW hlen ho u
  have hneg : -o.errno < 0 := by cases o <;> decide
  -- Each of these operations returns what `path2inum` does.
  cases c with
  | init | statfs | chmod | create | mkdir | unlink | rmdir | rename => cases hwalks
  | getattr q =>
    obtain rfl : q = p.str := hc
    exact ⟨.stat none, by simp only [Call.run, fsGetattr, hwalk, if_pos hneg]⟩
  | readdir q =>
    obtain rfl : q = p.str := hc
    exact ⟨.entries [], by simp only [Call.run, fsReaddir, hwalk, if_pos hneg.le, ok_bind]⟩
  | read q len offset =>
    obtain rfl : q = p.str := hc
    exact ⟨.data [], by simp only [Call.run, fsRead, hwalk, if_pos hneg, ok_bind]⟩
  | write q buf offset =>
    obtain rfl : q = p.str := hc
    exact ⟨.none, by simp only [Call.run, fsWrite, hwalk, if_pos hneg, noOutput, ok_bind]⟩
  | truncate q len =>
    obtain ⟨rfl, rfl⟩ := hc
    exact ⟨.none, by simp only [Call.run, fsTruncate, hwalk, if_pos hneg.le, noOutput, ok_bind,
      ne_eq, not_true, if_false]⟩
  | utime q ut =>
    obtain rfl : q = p.str := hc
    exact ⟨.none, by simp only [Call.run, fsUtime, hwalk, if_pos hneg.le, noOutput, ok_bind]⟩

/-- `fs_chmod` and `fs_rename` do not tell one obstacle from the other. -/
theorem run_chmod_rename (ctx : Ctx) (u : Stack) :
    (∀ mode, Call.run ctx u d (.chmod p.str mode) = .ok (-ENOENT, .none, d)) ∧
      ∀ dstPath, dstPath.head? = some slash →
        Call.run ctx u d (.rename p.str dstPath) = .ok (-ENOENT, .none, d) := by
  have hwalk := path2inum_obstacle hW hlen ho u
  have hneg : -o.errno < 0 := by cases o <;> decide
  constructor
  · intro mode
    simp only [Call.run, fsChmod, hwalk, if_pos hneg.le, noOutput, ok_bind]
  · intro dstPath hdst
    simp only [Call.run, fsRename, hwalk, head_str, hdst, ne_eq, not_true, or_self, if_false,
      if_pos hneg, noOutput, ok_bind]

/-- The operations that walk to the parent return the error of looking for it as a directory. -/
theorem run_parent (ctx : Ctx) (u : Stack) {c : Call} (hc : c.Translates p.str)
    (hparent : c.walksToParent = true) {rc : ℤ} (hrc : (view d).dirAt p.parent = .error rc) :
    ∃ out d', c.run ctx u d = .ok (rc, out, d') := by
  have hrun : ∀ r : Request, r.InRange → (view d).exec ctx r = fail rc →
      ∃ out d', r.call.run ctx u d = .ok (rc, out, d') := by
    intro r hr hexec
    have hanswers := Request.run_answers hW ctx u hr
    rw [hexec] at hanswers
    obtain ⟨⟨rc', out, d'⟩, hrun, hholds, -⟩ := hanswers.eq_ok
    obtain rfl : rc' = rc := hholds.rc
    exact ⟨out, d', hrun⟩
  have hnone : (view d).nodes p.comps = none := by
    refine liveNode_none ?_
    cases hr : resolve d p.comps with
    | none => rfl
    | some i =>
      have hwalk := path2inum_obstacle hW hlen ho u
      rw [path2inum_str hW.toTree, walkInum_some hW.toTree hr] at hwalk
      have hneg : -o.errno < 0 := by cases o <;> decide
      omega
  have hfits : ¬ 298 < (render p.parent).length := by
    have := length_render_parent hlen
    omega
  have hname : ¬ 27 < p.name.length := by
    have := hlen p.name (by simp [NormPath.comps])
    omega
  -- Nothing is at the path, and it fits, so the parent is what the operations look at.
  cases c with
  | init | statfs | getattr | readdir | read | write | truncate | utime | chmod | rename =>
    cases hparent
  | create q mode =>
    obtain rfl : q = p.str := hc
    exact hrun (.create p mode) trivial (by simp [View.exec, View.create, hnone, hfits, hname, hrc])
  | mkdir q mode =>
    obtain rfl : q = p.str := hc
    exact hrun (.mkdir p mode) trivial (by simp [View.exec, View.mkdir, hnone, hfits, hname, hrc])
  | unlink q =>
    obtain rfl : q = p.str := hc
    exact hrun (.unlink p) trivial (by simp [View.exec, View.unlink, View.removeWith, hfits, hrc])
  | rmdir q =>
    obtain rfl : q = p.str := hc
    exact hrun (.rmdir p) trivial (by simp [View.exec, View.rmdir, View.removeWith, hfits, hrc])

/-- Every operation returns the error of the obstacle just when the component is missing. -/
theorem run_errno_iff :
    (∀ c : Call, c.Translates p.str → ∀ ctx u, ∃ out d', c.run ctx u d = .ok (-o.errno, out, d')) ↔
      o = .missing := by
  constructor
  · intro h
    -- `fs_chmod` answers -ENOENT to every path, so the obstacle has to be a missing name.
    obtain ⟨out, d', hrun⟩ := h (.chmod p.str 0) rfl someCtx zeroStack
    rw [(run_chmod_rename hW hlen ho _ _).1] at hrun
    have herrno : -ENOENT = -o.errno := (Prod.mk.inj (Except.ok.inj hrun)).1
    cases o with
    | missing => rfl
    | file => exact absurd herrno (by decide)
  · rintro rfl c hc ctx u
    have hdirAt : (view d).dirAt p.parent = .error (-ENOENT) := dirAt_none (walk_of_missing ho)
    -- Behind a missing name: the operations that return the walk, those that walk to the parent,
    -- and the two that answer -ENOENT themselves.
    cases hwalks : c.returnsWalk with
    | true =>
      obtain ⟨out, hrun⟩ := run_walk hW hlen ho ctx u hc hwalks
      exact ⟨out, d, hrun⟩
    | false =>
      cases hparent : c.walksToParent with
      | true => exact run_parent hW hlen ho ctx u hc hparent hdirAt
      | false =>
        obtain ⟨hchmod, hrename⟩ := run_chmod_rename hW hlen ho ctx u
        cases c with
        | init | statfs => exact hc.elim
        | chmod q mode =>
          obtain rfl : q = p.str := hc
          exact ⟨.none, d, hchmod mode⟩
        | rename srcPath dstPath =>
          obtain ⟨rfl, hdst⟩ := hc
          exact ⟨.none, d, hrename dstPath hdst⟩
        | getattr | readdir | read | write | truncate | utime => cases hwalks
        | create | mkdir | unlink | rmdir => cases hparent

end

/-- The path `/a/b`. -/
def pathAB : NormPath where
  parent := [[97]]
  name := [98]
  parent_isName n hn := List.mem_singleton.mp hn ▸ pathA.name_isName
  name_isName := isName_b
  parent_lt := by decide

/-- On the image of `disk2.in`, where there is no `/a`, every operation on `/a/b` returns
`-ENOENT`. -/
theorem run_errno_disk2 : obstacle disk2 2 pathAB.parent = some .missing ∧
    ∀ c : Call, c.Translates pathAB.str →
    ∀ ctx u, ∃ out d', c.run ctx u disk2 = .ok (-ENOENT, out, d') := by
  have hentry : entry disk2 2 [97] = none := disk2_resolve [97] []
  have hmissing : obstacle disk2 2 pathAB.parent = some .missing := by
    simp only [pathAB, obstacle, hentry]
  exact ⟨hmissing, (run_errno_iff disk2_wellFormed (by decide) hmissing).mpr rfl⟩

/-- After `fs_create("/a")`, `fs_chmod` of `/a/b` does not return `-ENOTDIR`. -/
theorem not_run_errno_file : ∃ d, fsCreate someCtx zeroStack pathA.str 0o644 disk2 = .ok (0, d) ∧
    WellFormed d ∧ obstacle d 2 pathAB.parent = some .file ∧
      Call.run someCtx zeroStack d (.chmod pathAB.str 0o600) = .ok (-ENOENT, .none, d) ∧
      ¬ ∀ c : Call, c.Translates pathAB.str →
      ∀ ctx u, ∃ out d', c.run ctx u d = .ok (-ENOTDIR, out, d') := by
  obtain ⟨d, n, hcreate, hW, hn, hfile, -⟩ := disk2_create
  obtain ⟨i, hi, rfl⟩ := Option.map_eq_some_iff.mp hn
  have hentry : entry d 2 [97] = some i := (resolve_concat d [] [97]).symm.trans hi
  have hobstacle : obstacle d 2 pathAB.parent = some .file := by
    rw [nodeView_isDir] at hfile
    simp only [pathAB, obstacle, hentry, hfile]
    rfl
  have hlen : ∀ n ∈ pathAB.comps, n.length ≤ 27 := by decide
  have hchmod := (run_chmod_rename hW hlen hobstacle someCtx zeroStack).1 0o600
  refine ⟨d, hcreate, hW, hobstacle, hchmod, ?_⟩
  intro h
  obtain ⟨out, d', hrun⟩ := h (.chmod pathAB.str 0o600) rfl someCtx zeroStack
  rw [hchmod] at hrun
  exact absurd (Prod.mk.inj (Except.ok.inj hrun)).1 (by decide)

end Cs5600.Lab4
