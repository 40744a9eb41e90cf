import Cs5600.Lab4.Make
import Mathlib.Algebra.Order.BigOperators.Group.List

/-!
# `fs_rename`

A rename inside one directory, to a name that fits into an entry, moves the nodes below the old name
to the new one. `unrename` gives the path that a path of the new tree had before.
-/

namespace Cs5600.Lab4

variable {d : Disk}

/-- The same place at another path. -/
def LiveKey.move (k : LiveKey) (q : Path) : LiveKey :=
  match k with
  | .inode _ => .inode q
  | .dirData _ => .dirData q
  | .fileData _ j => .fileData q j

/-- A place that is moved is at its new path. -/
@[simp]
theorem LiveKey.move_path (k : LiveKey) (q : Path) : (k.move q).path = q := by cases k <;> rfl

/-- A place that is moved to its own path stays. -/
theorem LiveKey.move_self (k : LiveKey) : k.move k.path = k := by cases k <;> rfl

/-- The last move counts. -/
theorem LiveKey.move_move (k : LiveKey) (q r : Path) : (k.move q).move r = k.move r := by
  cases k <;> rfl

/-- Different paths come from different paths. -/
theorem unrename_inj {src dst q r t : Path} (hq : unrename src dst q = some t)
    (hr : unrename src dst r = some t) : q = r := by
  -- A path that was renamed is below `src` before, and one that was not is not.
  have key : ∀ {q r : Path}, dst <+: q → ¬ dst <+: r → unrename src dst q = some t →
      unrename src dst r = some t → False := by
    intro q r hdq hdr hq hr
    rw [unrename, if_pos hdq, Option.some.injEq] at hq
    rw [unrename, if_neg hdr] at hr
    split_ifs at hr with hs
    apply hs
    rw [Option.some.inj hr, ← hq]
    exact List.prefix_append _ _
  by_cases hdq : dst <+: q <;> by_cases hdr : dst <+: r
  · obtain ⟨a, rfl⟩ := hdq
    obtain ⟨b, rfl⟩ := hdr
    simp only [unrename, List.prefix_append, if_true, List.drop_left, Option.some.injEq] at hq hr
    rw [List.append_cancel_left (hq.trans hr.symm)]
  · exact (key hdq hdr hq hr).elim
  · exact (key hdr hdq hr hq).elim
  · rw [unrename, if_neg hdq] at hq
    rw [unrename, if_neg hdr] at hr
    split_ifs at hq hr
    rw [Option.some.inj hq, Option.some.inj hr]

/-- Disk `d'` is `d` with the name `n` in entry `s` of directory `P`, at path `p`, replaced by
`n'`. -/
structure NameEdit (d d' : Disk) (p : Path) (n n' : CString) (P s f : ℕ) : Prop where
  parent : resolve d p = some P
  isDir : (inodeAt d P).isDir = true
  slot_old : slot (dirBlock d P) s = some (f, n)
  slots : SlotSet (dirBlock d P) (d'.blk ((inodeAt d P).ptr 0)) s (some (f, n'))
  free : resolve d (p ++ [n']) = none
  name : IsName n'
  nblks : d'.nblks = d.nblks
  keep : ∀ j, j ≠ (inodeAt d P).ptr 0 → d'.blk j = d.blk j

namespace NameEdit

variable {d' : Disk} {p : Path} {n n' : CString} {P s f : ℕ} (e : NameEdit d d' p n n' P s f)
  (hT : Tree d)
include e hT

/-- The two names differ. -/
theorem ne : n' ≠ n := by
  rintro rfl
  have := hT.resolve_of_slot e.parent e.isDir e.slot_old
  rw [e.free] at this
  cases this

/-- The inodes stay as they are. -/
theorem inodeAt_eq {q : Path} {i : ℕ} (hq : resolve d q = some i) : inodeAt d' i = inodeAt d i := by
  rw [inodeAt, e.keep, inodeAt]
  rintro rfl
  cases hT.inj (.inode q) (.dirData p) _ hq (Tree.dirData_live e.parent e.isDir)

/-- The blocks of another path are kept. -/
theorem keep_path {q : Path} (hq : q ≠ p) :
    ∀ k b, k.path = q → live d k = some b → d'.blk b = d.blk b := by
  rintro k b rfl hk
  apply e.keep
  rintro rfl
  exact hq (by rw [hT.inj k (.dirData p) _ hk (Tree.dirData_live e.parent e.isDir)]; rfl)

/-- The directory keeps its block. -/
theorem dirBlock_eq : dirBlock d' P = d'.blk ((inodeAt d P).ptr 0) := by
  rw [dirBlock, e.inodeAt_eq hT e.parent]

/-- The entries of the directory stay proper. -/
theorem dirOk' : DirOk (dirBlock d' P) := by
  rw [e.dirBlock_eq hT]
  refine e.slots.dirOk (hT.dirOk e.parent e.isDir) ?_
  intro i name h
  obtain ⟨rfl, rfl⟩ := Prod.mk.inj (Option.some.inj h)
  refine ⟨e.name.ne_nil, e.name.noSlash, ?_⟩
  intro t j _ ht
  have := hT.resolve_of_slot e.parent e.isDir ht
  rw [e.free] at this
  cases this

/-- The slot of the entry has the new name, and the others are as before. -/
theorem slot_eq (t : ℕ) :
    slot (dirBlock d' P) t = Function.update (slot (dirBlock d P)) s (some (f, n')) t := by
  rw [e.dirBlock_eq hT]
  by_cases ht : t = s
  · rw [ht, Function.update_self, e.slots.slot_self]
  · rw [Function.update_of_ne ht, e.slots.slot_of_ne (hT.dirOk e.parent e.isDir) ht]

/-- What the directory binds afterwards. -/
theorem entry_eq (l : CString) :
    entry d' P l = if l = n' then some f else if l = n then none else entry d P l := by
  have hb := hT.dirOk e.parent e.isDir
  have hd' : (inodeAt d' P).isDir = true := by rw [e.inodeAt_eq hT e.parent, e.isDir]
  have hne := e.ne hT
  ext i
  rw [entry, if_pos hd', dirEntry_eq_some (e.dirOk' hT)]
  simp only [e.slot_eq hT]
  -- In turn the new name, the old one, and the names in the other entries.
  by_cases hl' : l = n'
  · rw [if_pos hl', hl']
    constructor
    · rintro ⟨t, ht⟩
      by_cases hts : t = s
      · rw [hts, Function.update_self, Option.some.injEq, Prod.mk.injEq] at ht
        rw [ht.1]
      · rw [Function.update_of_ne hts] at ht
        have := hT.resolve_of_slot e.parent e.isDir ht
        rw [e.free] at this
        cases this
    · intro h
      exact ⟨s, by rw [Function.update_self, Option.some.inj h]⟩
  · rw [if_neg hl']
    by_cases hl : l = n
    · rw [if_pos hl, hl]
      constructor
      · rintro ⟨t, ht⟩
        by_cases hts : t = s
        · rw [hts, Function.update_self, Option.some.injEq, Prod.mk.injEq] at ht
          exact absurd ht.2 hne
        · rw [Function.update_of_ne hts] at ht
          exact absurd (hb.slot_unique e.slot_old ht) hts
      · intro h
        cases h
    · rw [if_neg hl, entry, if_pos e.isDir, dirEntry_eq_some hb]
      constructor
      · rintro ⟨t, ht⟩
        by_cases hts : t = s
        · rw [hts, Function.update_self, Option.some.injEq, Prod.mk.injEq] at ht
          exact absurd ht.2.symm hl'
        · rw [Function.update_of_ne hts] at ht
          exact ⟨t, ht⟩
      · rintro ⟨t, ht⟩
        refine ⟨t, ?_⟩
        rw [Function.update_of_ne]
        · exact ht
        · rintro rfl
          rw [e.slot_old, Option.some.injEq, Prod.mk.injEq] at ht
          exact hl ht.2.symm

/-- The inode number of every path afterwards. -/
theorem resolve_eq (q : Path) :
    resolve d' q = (unrename (p ++ [n]) (p ++ [n']) q).bind (resolve d) := by
  have hkeep : ∀ q v l, walk (entry d) 2 q = some v → ¬ (v = P ∧ (l = n ∨ l = n')) →
      entry d' v l = entry d v l := by
    intro q v l hv hne
    by_cases hq : q = p
    · have hvP : v = P := Option.some.inj (by rw [← e.parent, ← hq]; exact hv.symm)
      rw [hvP] at hne ⊢
      rw [e.entry_eq hT, if_neg (fun h => hne ⟨rfl, .inr h⟩), if_neg (fun h => hne ⟨rfl, .inl h⟩)]
    · rw [entry_frame hv (e.keep_path hT hq)]
  have huniq : ∀ q, walk (entry d) 2 q = some P → q = p := fun q hq => hT.resolve_inj hq e.parent
  have hnew : entry d' P n' = entry d P n := by
    rw [e.entry_eq hT, if_pos rfl, entry, if_pos e.isDir]
    exact ((dirEntry_eq_some (hT.dirOk e.parent e.isDir)).mpr ⟨s, e.slot_old⟩).symm
  have hold : entry d' P n = none := by
    rw [e.entry_eq hT, if_neg (e.ne hT).symm, if_pos rfl]
  -- A path below the new name was below the old one; below the old one there is nothing.
  unfold unrename
  split_ifs with hd hs
  · obtain ⟨r, rfl⟩ := hd
    rw [List.drop_left, Option.bind_some, List.append_assoc, List.append_assoc]
    exact walk_relabel_below e.parent huniq hkeep hnew r
  · obtain ⟨r, rfl⟩ := hs
    rw [List.append_assoc]
    exact walk_relabel_old e.parent huniq hkeep hold r
  · exact walk_relabel_outside e.parent huniq hkeep hs hd

/-- What is live below the new name was live below the old one. -/
theorem live_eq (k : LiveKey) :
    live d' k = (unrename (p ++ [n]) (p ++ [n']) k.path).bind fun q => live d (k.move q) := by
  rw [Cs5600.Lab4.live_eq, e.resolve_eq hT]
  cases hu : unrename (p ++ [n]) (p ++ [n']) k.path with
  | none => rfl
  | some q =>
    rw [Option.bind_some, Option.bind_some, Cs5600.Lab4.live_eq, LiveKey.move_path]
    cases hq : resolve d q with
    | none => rfl
    | some i =>
      rw [Option.bind_some, Option.bind_some, e.inodeAt_eq hT hq]
      cases k <;> rfl

/-- The renamed tree has the same live blocks. -/
theorem exists_live (b : ℕ) : (∃ k, live d' k = some b) ↔ ∃ k, live d k = some b := by
  constructor
  · rintro ⟨k, hk⟩
    rw [e.live_eq hT] at hk
    obtain ⟨q, -, hq⟩ := Option.bind_eq_some_iff.mp hk
    exact ⟨_, hq⟩
  · rintro ⟨k, hk⟩
    obtain ⟨i, hi⟩ := resolve_of_live hk
    -- A live key below the old name moves with it; any other stays, and none was below the new
    -- name.
    by_cases hs : p ++ [n] <+: k.path
    · obtain ⟨r, hr⟩ := hs
      refine ⟨k.move (p ++ [n'] ++ r), ?_⟩
      rw [e.live_eq hT, LiveKey.move_path, unrename, if_pos (List.prefix_append _ _),
        List.drop_left, Option.bind_some, LiveKey.move_move, hr, LiveKey.move_self]
      exact hk
    · have hd : ¬ p ++ [n'] <+: k.path := by
        rintro ⟨r, hr⟩
        rw [← hr, resolve, walk_append] at hi
        rw [show walk (entry d) 2 (p ++ [n']) = none from e.free] at hi
        cases hi
      refine ⟨k, ?_⟩
      rw [e.live_eq hT, unrename, if_neg hd, if_neg hs, Option.bind_some, LiveKey.move_self]
      exact hk

/-- The root stays a directory. -/
theorem root' : (inodeAt d' 2).isDir = true := by
  rw [e.inodeAt_eq hT (resolve_nil d)]
  exact hT.root

/-- Every path is as sound as before. -/
theorem nodeOk' {q : Path} {i : ℕ} (hq : resolve d q = some i) : NodeOk d' i := by
  by_cases hp : q = p
  · have hiP : i = P := Option.some.inj (by rw [← hq, hp, e.parent])
    have hd' : (inodeAt d' P).isDir = true := by rw [e.inodeAt_eq hT e.parent, e.isDir]
    rw [hiP, NodeOk, if_pos hd', e.inodeAt_eq hT e.parent]
    exact ⟨hT.dir_size e.parent e.isDir, e.dirOk' hT⟩
  · exact (nodeOk_frame hq (e.keep_path hT hp)).mpr (hT.node q i hq)

omit hT in
/-- The renamed tree is well-formed. -/
theorem wellFormed (hW : WellFormed d) : WellFormed d' := by
  have hT := hW.toTree
  refine ⟨⟨e.root' hT, ?_, ?_, ?_⟩, ?_⟩
  · intro q i hq
    rw [e.resolve_eq hT] at hq
    obtain ⟨r, -, hr⟩ := Option.bind_eq_some_iff.mp hq
    exact e.nodeOk' hT hr
  -- Two keys of one block are one key before the move, and the move is injective.
  · intro k k' b hk hk'
    rw [e.live_eq hT] at hk hk'
    obtain ⟨q, hq, hk⟩ := Option.bind_eq_some_iff.mp hk
    obtain ⟨q', hq', hk'⟩ := Option.bind_eq_some_iff.mp hk'
    have hmove := hT.inj _ _ b hk hk'
    have hqq : q = q' := by
      have := congrArg LiveKey.path hmove
      rwa [LiveKey.move_path, LiveKey.move_path] at this
    have hpath : k.path = k'.path := unrename_inj hq (hqq ▸ hq')
    rw [← k.move_self, ← k'.move_self, ← hpath, ← k.move_move q, hmove, LiveKey.move_move]
  · intro k b hk
    obtain ⟨k', hk'⟩ := (e.exists_live hT b).mp ⟨k, hk⟩
    rw [e.nblks]
    exact hT.range k' b hk'
  · intro j hj
    have hD2 := (hT.dirData_range e.parent e.isDir).1
    rw [e.keep 1 (by omega), hW.exact j hj, e.exists_live hT]

/-- Everything live afterwards: the directory with the new name, and the rest at its new path. -/
theorem liveNode_eq (q : Path) :
    liveNode d' q =
      if q = p then some { nodeView d P with
        body := .dir (Function.update (slot (dirBlock d P)) s (some (f, n'))) }
      else (unrename (p ++ [n]) (p ++ [n']) q).bind (liveNode d) := by
  have hlen : ∀ l : CString, ¬ p ++ [l] <+: p := by
    intro l h
    have := h.length_le
    rw [List.length_append, List.length_singleton] at this
    omega
  rw [liveNode, e.resolve_eq hT]
  -- The directory itself is at the same path before and after.
  split_ifs with hq
  · have hbody : bodyOf d' (inodeAt d' P) =
        .dir (Function.update (slot (dirBlock d P)) s (some (f, n'))) := by
      rw [bodyOf, e.inodeAt_eq hT e.parent, if_pos e.isDir, ← e.dirBlock_eq hT]
      exact congrArg Body.dir (funext (e.slot_eq hT))
    rw [hq, unrename, if_neg (hlen n'), if_neg (hlen n), Option.bind_some, e.parent,
      Option.map_some, nodeView]
    simp only [hbody]
    rw [e.inodeAt_eq hT e.parent]
    rfl
  · cases hu : unrename (p ++ [n]) (p ++ [n']) q with
    | none => rfl
    | some r =>
      rw [Option.bind_some, Option.bind_some, liveNode]
      cases hr : resolve d r with
      | none => rfl
      | some i =>
        have hrp : r ≠ p := by
          rintro rfl
          unfold unrename at hu
          split_ifs at hu with h1 h2
          · have := congrArg List.length (Option.some.inj hu)
            simp at this
          · exact hq (Option.some.inj hu)
        rw [Option.map_some, Option.map_some, nodeView_frame hT hr (e.keep_path hT hrp)]

end NameEdit

/-- The names of a path that resolves fit into directory entries. -/
theorem Tree.length_le_of_resolve (hT : Tree d) {q : Path} :
    ∀ {i : ℕ}, resolve d q = some i → ∀ n ∈ q, n.length ≤ 27 := by
  induction q using List.reverseRecOn with
  | nil => simp
  | append_singleton q l ih =>
    intro i hi n hn
    rw [resolve_concat] at hi
    obtain ⟨v, hv, hl⟩ := Option.bind_eq_some_iff.mp hi
    rcases List.mem_append.mp hn with h | h
    · exact ih hv n h
    · rw [List.mem_singleton.mp h]
      exact hT.entry_length hv hl

/-- The parent's part of a path whose parent resolves fits into the buffer of `par_path`. -/
theorem Tree.render_parent_le (hT : Tree d) (p : NormPath) {P : ℕ}
    (hP : resolve d p.parent = some P) : (render p.parent).length ≤ 298 := by
  have hle := length_render_le (hT.length_le_of_resolve hP)
  have := p.parent_lt
  omega

/-- What `fs_rename` does on a well-formed disk: the three errors, or the new name is copied into
the entry. -/
theorem fsRename_cases (hT : Tree d) (u : Stack) (src dst : NormPath) :
    resolve d src.comps = none ∧ fsRename u src.str dst.str d = .ok (-ENOENT, d) ∨
    (resolve d src.comps).isSome ∧ (resolve d dst.comps).isSome ∧
      fsRename u src.str dst.str d = .ok (-EEXIST, d) ∨
    (resolve d src.comps).isSome ∧ resolve d dst.comps = none ∧ src.parent ≠ dst.parent ∧
      fsRename u src.str dst.str d = .ok (-EINVAL, d) ∨
    ∃ P s f, resolve d src.parent = some P ∧ (inodeAt d P).isDir = true ∧
      slot (dirBlock d P) s = some (f, src.name) ∧ resolve d dst.comps = none ∧
      src.parent = dst.parent ∧
      fsRename u src.str dst.str d = (do
        let buf ← strcpyName (dirBlock d P) s dst.name
        .ok (0, d.write ((inodeAt d P).ptr 0) buf)) := by
  have hx : ∀ i, Inode.ofBlock (d.blk i) = inodeAt d i := fun _ => rfl
  simp only [fsRename, head_str, ne_eq, not_true, or_self, if_false, path2inum_str hT, sepPath_str]
  -- The checks of the source: the source has to exist, the destination not.
  cases hsrc : resolve d src.comps with
  | none => exact .inl ⟨rfl, by rw [if_pos (walkInum_none hsrc)]⟩
  | some f =>
    have hf := hT.inode_range hsrc
    rw [walkInum_some hT hsrc, if_neg (by omega)]
    cases hdst : resolve d dst.comps with
    | some g =>
      refine .inr (.inl ⟨rfl, rfl, ?_⟩)
      rw [if_pos ((walkInum_pos_iff hT).mpr ⟨g, hdst⟩)]
    | none =>
      have hneg := walkInum_none hdst
      rw [if_neg (by omega)]
      have htake : ∀ p : NormPath, p.comps.take p.parent.length = p.parent := by
        intro p
        rw [NormPath.comps]
        simp
      by_cases hpar : src.parent = dst.parent
      · -- The parent resolves, because the source does, so its path fits into the buffer.
        obtain ⟨P, hP, hentry⟩ := Option.bind_eq_some_iff.mp
          ((resolve_concat d src.parent src.name).symm.trans hsrc)
        have hdir : (inodeAt d P).isDir = true := by
          unfold entry at hentry
          split_ifs at hentry with h
          exact h
        rw [entry, if_pos hdir] at hentry
        obtain ⟨s, hs⟩ := (dirEntry_eq_some (hT.dirOk hP hdir)).mp hentry
        obtain ⟨hP2, hP', hP''⟩ := hT.inode_range hP
        obtain ⟨hD2, hD', hD''⟩ := hT.dirData_range hP hdir
        have hD : d.blk ((inodeAt d P).ptr 0) = dirBlock d P := rfl
        have hfind : findDirent (dirBlock d P) src.name = some s :=
          (findDirent_eq_some (hT.dirOk hP hdir)).mpr ⟨f, hs⟩
        have hlen := hT.render_parent_le src hP
        have hcopy : copyParent src.str
            ((src.comps.take ((src.parent.length : ℤ) + 1 - 1).toNat).map fun t =>
              t.length + 1).sum = .ok (render src.parent ++ [slash]) := by
          rw [← parPath, parPath_str, if_neg (by omega)]
        refine .inr (.inr (.inr ⟨P, s, f, hP, hdir, hs, rfl, hpar, ?_⟩))
        have hdt : dst.comps.take ((src.parent.length : ℤ) + 1 - 1).toNat =
            src.comps.take ((src.parent.length : ℤ) + 1 - 1).toNat := by
          rw [show ((src.parent.length : ℤ) + 1 - 1).toNat = src.parent.length by omega, htake src]
          rw [hpar, htake dst]
        simp only [hdt, not_true, if_false, hcopy, ok_bind, path2inum_parent hT,
          walkInum_some hT hP, blockRead_of_lt d _ hP' hP'', hx, hT.lbaOf_dir hP hdir,
          blockRead_of_lt d _ hD' hD'', hD, tokenAt_comps, hfind,
          show (dst.parent.length : ℤ) = src.parent.length by rw [hpar],
          blockWrite_of_lt _ _ (show 0 < (inodeAt d P).ptr 0 by omega) hD']
        have htok : tokenAt dst.comps ((src.parent.length : ℤ) + 1 - 1) = .ok dst.name := by
          rw [hpar, tokenAt_comps]
        rw [htok, ok_bind]
      -- Different parents: by their number of tokens or by a token.
      · refine .inr (.inr (.inl ⟨rfl, rfl, hpar, ?_⟩))
        by_cases hl : src.parent.length = dst.parent.length
        · have hne : ¬ src.comps.take ((src.parent.length : ℤ) + 1 - 1).toNat =
              dst.comps.take ((src.parent.length : ℤ) + 1 - 1).toNat := by
            rw [show ((src.parent.length : ℤ) + 1 - 1).toNat =
              src.parent.length by omega, htake src,
              hl, htake dst]
            exact hpar
          rw [if_neg (by omega), if_pos hne]
        · rw [if_pos (by omega)]

/-- A name that fits into an entry, copied over the name in the entry. -/
theorem nameEdit_write (hT : Tree d) {p : Path} {n n' : CString} {P s f : ℕ}
    (hP : resolve d p = some P) (hdir : (inodeAt d P).isDir = true)
    (hs : slot (dirBlock d P) s = some (f, n)) (hfree : resolve d (p ++ [n']) = none)
    (hname : IsName n') (hlen : n'.length ≤ 27) :
    NameEdit d (d.write ((inodeAt d P).ptr 0) ((dirBlock d P).blit (32 * s + 4) (n' ++ [0])))
    p n n' P s
      f := by
  obtain ⟨-, -, hD⟩ := hT.dirData_range hP hdir
  refine ⟨hP, hdir, hs, ?_, hfree, hname, by rw [Disk.write_nblks_of_lt _ _ _ hD], ?_⟩
  · rw [Disk.write_blk_self]
    exact slotSet_rename _ (slot_lt hs) hs hlen hname.noNul
  · intro j hj
    rw [Disk.write_blk_of_lt _ _ _ hD, if_neg hj]

/-- `fs_rename` to a name that fits into an entry, on a well-formed disk. -/
theorem fsRename_refines (hW : WellFormed d) (u : Stack) (src dst : NormPath)
    (hlen : dst.name.length ≤ 27) :
    Refines d (fsRename u src.str dst.str d) ((view d).rename src dst) := by
  have hT := hW.toTree
  have hnodes : ∀ p, (liveNode d p).isSome = (resolve d p).isSome := fun p => Option.isSome_map
  have hnone : ∀ p, (liveNode d p).isNone = (resolve d p).isNone := fun p => Option.isNone_map
  simp only [View.rename, view_nodes, hnodes, hnone]
  rcases fsRename_cases hT u src dst with ⟨h1, h⟩ | ⟨h1, h2, h⟩ | ⟨h1, h2, h3, h⟩ |
    ⟨P, s, f, hP, hdir, hs, hfree, hpar, h⟩
  · simp only [h, h1, Option.isNone_none, if_true]
    exact refines_fail d _
  · have h1' : (resolve d src.comps).isNone = false := by simpa using h1
    simp only [h, h1', h2, Bool.false_eq_true, if_true, if_false]
    exact refines_fail d _
  · have h1' : (resolve d src.comps).isNone = false := by simpa using h1
    simp only [h, h1', h2, Option.isSome_none, Bool.false_eq_true, if_false, ne_eq, h3,
      not_false_eq_true, if_true]
    exact refines_fail d _
  · have hsrc : resolve d src.comps = some f := hT.resolve_of_slot hP hdir hs
    have hslot := (findDirent_eq _ _).symm.trans
      ((findDirent_eq_some (hT.dirOk hP hdir)).mpr ⟨f, hs⟩)
    obtain ⟨hD2, -, hD⟩ := hT.dirData_range hP hdir
    rw [h, strcpyName_eq _ (slot_lt hs) hlen, ok_bind]
    simp only [hsrc, hfree, Option.isNone_some, Option.isSome_none, Bool.false_eq_true,
      if_false, hpar, ne_eq, not_true]
    rw [← hpar]
    simp only [dirAt_dir hP hdir, hslot, hs, Option.map_some]
    -- One entry is rewritten in place.
    have e := nameEdit_write hT hP hdir hs (hpar ▸ hfree) dst.name_isName hlen
    refine refines_done rfl (e.wellFormed hW) (View.ext ?_ ?_ ?_) (.of_eq [] e.nblks)
    · exact e.keep 0 (by omega)
    · exact e.keep 1 (by omega)
    · funext q
      rw [view_nodes, e.liveNode_eq hT]
      simp only [NormPath.comps, hpar]

end Cs5600.Lab4
