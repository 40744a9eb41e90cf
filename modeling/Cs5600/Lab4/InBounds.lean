import Cs5600.Lab4.Namespace

/-!
# Requests that stay inside the arrays

`par_path` overruns its buffer of 300 bytes when the part of the path in front of the last component
has more than 298 bytes, and a negative offset that passes the checks of `fs_write` makes it index
outside the inode's pointers or the block buffer: a write of 4096 bytes at offset -4096 stores the
block that it allocates in `in.ptrs[-1]`, which is `in.size`. `Request.InBounds` excludes exactly
these requests, on the disk that they find. The others stop at the assertion of `block_write`, if at
all.
-/

namespace Cs5600.Lab4

/-- What a request needs of the disk: `fs_init` exits on an image without the magic number. -/
def Request.Admits (d : Disk) : Request → Prop
  | .init => superMagic (d.blk 0) = fsMagic
  | _ => True

/-- A request that keeps the code inside its arrays on the disk that it finds. `fs_write` refuses a
window that ends in front of the file or behind the size limit, and a path that leads to no file. -/
def Request.InBounds (d : Disk) : Request → Prop
  | .create p _ | .mkdir p _ | .unlink p | .rmdir p => (render p.parent).length ≤ 298
  | .write p buf offset => 0 ≤ offset.toInt ∨ offset.toInt + buf.bytes.length < 0 ∨
      1019 * 4096 < offset.toInt + buf.bytes.length ∨
      ∀ n, liveNode d p.comps = some n → n.isDir = true
  | _ => True

/-- A write to a file, inside its limits, for which too few blocks are free. -/
inductive View.RunsDry (v : View) : Request → Prop where
  | write {p : NormPath} {buf : Buf} {offset : Int64} {n : LiveNode}
    (node : v.nodes p.comps = some n)
      (file : ¬ n.isDir = true) (le : ¬ (n.bytes.length : ℤ) < offset.toInt)
      (max : ¬ 4096 * 1019 < sizeT (offset.toInt + buf.bytes.length)) (nonneg : 0 ≤ offset.toInt)
      (dry :
        allocN (View.blocksNeeded n.bytes.length (offset.toInt.toNat + buf.bytes.length)) v.bitmap
        = none) :
      RunsDry v (.write p buf offset)

/-- Nothing has a name of more than 27 bytes. -/
theorem liveNode_of_long {d : Disk} (hT : Tree d) {p : Path} {n : CString} (hn : n ∈ p)
    (hlong : 27 < n.length) : liveNode d p = none := by
  rw [liveNode_eq_none, Option.eq_none_iff_forall_ne_some]
  intro i hi
  exact absurd (hT.length_le_of_resolve hi n hn) (by omega)

/-- A window that is too long for a file has a size that the check of `fs_write` refuses. -/
theorem sizeT_refused {n : ℤ} (hmin : -2^63 ≤ n) (hmax : n < 2^64)
    (h : n < 0 ∨ 1019 * 4096 < n) : 4096 * 1019 < sizeT n := by
  rw [sizeT]
  omega

/-- A removal whose path fits into the buffer returns. -/
theorem removeWith_ne_error {v : View} {ctx : Ctx} {p : NormPath} {remove : LiveNode → Option ℤ}
    {e : Fault} (hlen : (render p.parent).length ≤ 298) : v.removeWith ctx p remove ≠ .error e := by
  intro h
  rw [View.removeWith, if_neg (by omega)] at h
  split at h
  · cases h
  · split at h
    · split at h <;> cases h
    · cases h

section

variable {d : Disk}

/-- A rename to a name that fits returns. -/
theorem fsRename_returns (hT : Tree d) (u : Stack) (src : NormPath) {dst : NormPath}
    (hlen : dst.name.length ≤ 27) : ∃ r, fsRename u src.str dst.str d = .ok r := by
  rcases fsRename_cases hT u src dst with ⟨-, h⟩ | ⟨-, -, h⟩ | ⟨-, -, -, h⟩ |
    ⟨P, s, f, -, -, hs, -, -, h⟩
  · exact ⟨_, h⟩
  · exact ⟨_, h⟩
  · exact ⟨_, h⟩
  · have hlt := slot_lt hs
    rw [strcpyName, if_pos (by omega), ok_bind] at h
    exact ⟨_, h⟩

variable (hW : WellFormed d)
include hW

/-- A path that overruns the buffer of `par_path` leads nowhere. -/
theorem liveNode_of_overrun {p : NormPath} (hlen : 298 < (render p.parent).length) :
    liveNode d p.comps = none := by
  rw [liveNode_eq_none, NormPath.comps, resolve_concat]
  cases hP : resolve d p.parent with
  | none => rfl
  | some P => exact absurd (hW.render_parent_le p hP) (by omega)

/-- A request that stays inside the arrays fails only by the assertion of `block_write`, in a write
for which too few blocks are free. -/
theorem exec_error {ctx : Ctx} {r : Request} (hin : r.InBounds d) (hadmits : r.Admits d)
    (hrange : r.InRange) {e : Fault} (h : (view d).exec ctx r = .error e) :
    e = .assertion ∧ (view d).RunsDry r := by
  cases r with
  | init =>
    have hmagic : superMagic (d.blk 0) = fsMagic := hadmits
    rw [View.exec, View.init, view_super, if_neg (not_not.mpr hmagic)] at h
    cases h
  | statfs p => cases h
  | getattr p => cases h
  | readdir p => cases h
  | read p len offset => cases h
  | rename src dst =>
    -- The code returns, so the view does as well.
    obtain ⟨r, hr⟩ := fsRename_returns hW.toTree (fun _ => Bytes.zero) src hrange
    have href := fsRename_refines hW (fun _ => Bytes.zero) src dst hrange
    rw [View.exec] at h
    rw [hr, h] at href
    exact href.elim
  | chmod p mode =>
    rw [View.exec, View.chmod] at h
    split at h <;> cases h
  | create p mode =>
    have hlen : (render p.parent).length ≤ 298 := hin
    rw [View.exec, View.create, if_neg (show ¬ 298 < (render p.parent).length by omega)] at h
    split_ifs at h
    · cases h
    · cases h
    · split at h
      · cases h
      · split at h <;> cases h
  | mkdir p mode =>
    have hlen : (render p.parent).length ≤ 298 := hin
    rw [View.exec, View.mkdir, if_neg (show ¬ 298 < (render p.parent).length by omega)] at h
    split_ifs at h
    · cases h
    · cases h
    · split at h
      · cases h
      · split at h
        · split at h <;> cases h
        · cases h
  | unlink p => exact absurd h (removeWith_ne_error hin)
  | rmdir p => exact absurd h (removeWith_ne_error hin)
  | write p buf offset =>
    rw [View.exec, View.write] at h
    split at h
    · cases h
    · rename_i n hn
      simp only at h
      split_ifs at h with h1 h2 h3 h4
      · cases h
      · cases h
      · cases h
      · -- A negative offset that the checks let through leaves the arrays.
        have hmin := offset.le_toInt
        have hfits := buf.fits
        rcases hin with h0 | hneg | hbig | hdir
        · omega
        · exact absurd (sizeT_refused (by omega) (by omega) (.inl hneg)) h3
        · exact absurd (sizeT_refused (by omega) (by omega) (.inr hbig)) h3
        · exact absurd (hdir n hn) h1
      · split at h
        · rename_i hdry
          exact ⟨(Except.error.inj h).symm, .write hn h1 h2 h3 (not_lt.mp h4) hdry⟩
        · cases h
  | truncate p len =>
    rw [View.exec, View.truncate] at h
    split_ifs at h
    · cases h
    · split at h
      · cases h
      · split_ifs at h <;> cases h
  | utime p ut =>
    rw [View.exec, View.utime] at h
    split at h
    · cases h
    · split_ifs at h <;> cases h

/-- A request that does not stay inside the arrays leaves them. -/
theorem exec_outOfRange (ctx : Ctx) {r : Request} (hout : ¬ r.InBounds d) :
    (view d).exec ctx r = .error .outOfRange := by
  -- The five requests that write through an array or a pointer.
  cases r with
  | create p mode =>
    have hlen : 298 < (render p.parent).length := not_le.mp hout
    rw [View.exec, View.create, view_nodes, liveNode_of_overrun hW hlen, if_neg (by simp),
      if_pos hlen]
  | mkdir p mode =>
    have hlen : 298 < (render p.parent).length := not_le.mp hout
    rw [View.exec, View.mkdir, view_nodes, liveNode_of_overrun hW hlen, if_neg (by simp),
      if_pos hlen]
  | unlink p =>
    have hlen : 298 < (render p.parent).length := not_le.mp hout
    rw [View.exec, View.unlink, View.removeWith, if_pos hlen]
  | rmdir p =>
    have hlen : 298 < (render p.parent).length := not_le.mp hout
    rw [View.exec, View.rmdir, View.removeWith, if_pos hlen]
  | write p buf offset =>
    simp only [Request.InBounds, not_or, not_forall, not_lt, not_le] at hout
    obtain ⟨hneg, hnonneg, hmax, n, hn, hfile⟩ := hout
    have hT : ¬ 4096 * 1019 < sizeT (offset.toInt + buf.bytes.length) := by
      rw [sizeT]
      omega
    have hfront : ¬ (n.bytes.length : ℤ) < offset.toInt := by omega
    rw [View.exec, View.write, view_nodes, hn]
    simp only [hfile, Bool.false_eq_true, if_false, hfront, hT, hneg, if_true]
  | _ => exact absurd trivial hout

variable {ctx : Ctx} {u : Stack} {r : Request}

/-- A call that stays inside the arrays returns, or it is a write for which too few blocks are free
and stops at the assertion of `block_write`. -/
theorem Request.run_error (hin : r.InBounds d) (hadmits : r.Admits d) (hrange : r.InRange)
    {e : Fault} (h : r.call.run ctx u d = .error e) : e = .assertion ∧ (view d).RunsDry r := by
  have ha := Request.run_answers hW ctx u hrange
  cases hexec : (view d).exec ctx r with
  | error e' =>
    rw [hexec] at ha
    rw [ha.eq_error] at h
    rw [← Except.error.inj h]
    exact exec_error hW hin hadmits hrange hexec
  | ok o =>
    rw [hexec] at ha
    obtain ⟨res, hres, -⟩ := ha.eq_ok
    rw [hres] at h
    cases h

/-- A call that does not stay inside the arrays leaves them. -/
theorem Request.run_outOfRange (hrange : r.InRange) (hout : ¬ r.InBounds d) :
    r.call.run ctx u d = .error .outOfRange := by
  have ha := Request.run_answers hW ctx u hrange
  rw [exec_outOfRange hW ctx hout] at ha
  exact ha.eq_error

end

end Cs5600.Lab4
