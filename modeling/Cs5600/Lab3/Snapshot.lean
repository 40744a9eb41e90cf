import Cs5600.Lab3.Interleaved

/-!
# What readers see

The threads on one store again, and what their reads and dumps find. In the sequential run behind an
interleaving, each `kv_read` that has left returned a pointer to the value that was the latest then,
and each `kv_dump` printed a snapshot: all the latest values, each once, though it went over the
table in many steps while other threads entered and left.
-/

namespace Cs5600.Lab3

variable {T : Type} [DecidableEq T] [Fintype T] {junk : Junk} {kv kv' : KvStore}
  {c : Fin 200 → List (ℕ × KeyEntry)} {s : System T} {events : List (Event T)}
  {hist : List (Event T × Option (Job × Return))} {log : List (Job × Return)}

/-- The value of `k` after an operation. -/
def settle (k : Str) (old : Option Str) : Job × Return → Option Str
  | (.call s, .code ret) => next k old (s, .code ret)
  | (.call s, .done) => next k old (s, .done)
  | _ => old

/-- The value of the latest `kv_write` of `k` that returned 0 and was not followed by a
`kv_delete`. -/
def settled (k : Str) (log : List (Job × Return)) : Option Str := log.foldl (settle k) none

/-- The operation does not delete the first of a chain of two or more entries. -/
def Job.KeepsChains (kv : KvStore) : Job → Prop
  | .call s => Lab3.KeepsChains kv s
  | .dump => True

instance (kv : KvStore) : ∀ job : Job, Decidable (job.KeepsChains kv)
  | .call s => inferInstanceAs (Decidable (Lab3.KeepsChains kv s))
  | .dump => inferInstanceAs (Decidable True)

/-- What an operation returns, as far as it tells of the values in a store. -/
def Tells (kv : KvStore) (value : Str → Option Str) : Job × Return → Prop
  | (.call ⟨_, .read k⟩, .pointer p) =>
    p.bind kv.values.lookup = value k ∧ (p = none ↔ value k = none)
  | (.dump, .printed lines) =>
    (∀ k v, (k, v) ∈ lines ↔ value k = some v) ∧ (lines.map Prod.fst).Nodup
  | _ => True

/-- An operation tells of the values before it, and changes them as `settle` says. -/
theorem perform_spec {job : Job} (h : Linked kv c) (hjob : job.KeepsChains kv) :
    ∃ kv' r c', perform job kv = some (kv', r) ∧ Linked kv' c' ∧
      (∀ k, kv'.held k = settle k (kv.held k) (job, r)) ∧ Tells kv kv.held (job, r) := by
  cases job with
  | dump =>
    obtain ⟨lines, hdump, hlines, hnodup, -⟩ := kvDump_spec h
    refine ⟨kv, .printed lines, c, ?_, h, fun _ => rfl, hlines, hnodup⟩
    simp only [perform, hdump, Option.bind_eq_bind, Option.bind_some]
  | call s =>
    obtain ⟨kv', reply, c', hexec, h', hnext, -⟩ := exec_spec h hjob
    obtain ⟨A, call⟩ := s
    cases call with
    -- A read returns where the value of the key lies, or nothing.
    | read k =>
      rcases kvRead_cases h k with ⟨hread, hheld⟩ | ⟨p, v, hread, hv, hheld⟩
      · refine ⟨kv, .pointer none, c, ?_, h, fun _ => rfl, ?_⟩
        · simp only [perform, hread, Option.bind_eq_bind, Option.bind_some]
        · exact ⟨hheld.symm, iff_of_true rfl hheld⟩
      · refine ⟨kv, .pointer (some p), c, ?_, h, fun _ => rfl, ?_⟩
        · simp only [perform, hread, Option.bind_eq_bind, Option.bind_some]
        · refine ⟨hv.trans hheld.symm, iff_of_false (Option.some_ne_none p) ?_⟩
          rw [hheld]
          exact Option.some_ne_none v
    | write k v =>
      simp only [exec, Option.bind_eq_bind, Option.bind_eq_some_iff, Option.some.injEq,
        Prod.mk.injEq] at hexec
      obtain ⟨⟨kv₁, ret⟩, hwrite, rfl, rfl⟩ := hexec
      refine ⟨kv₁, .code ret, c', ?_, h', hnext, trivial⟩
      simp only [perform, hwrite, Option.bind_eq_bind, Option.bind_some]
    | delete k =>
      simp only [exec, Option.bind_eq_bind, Option.bind_eq_some_iff, Option.some.injEq,
        Prod.mk.injEq] at hexec
      obtain ⟨kv₁, hdelete, rfl, rfl⟩ := hexec
      refine ⟨kv₁, .done, c', ?_, h', hnext, trivial⟩
      simp only [perform, hdelete, Option.bind_eq_bind, Option.bind_some]

/-- Every operation of the log told of the store that those before it had left. -/
def Snapshots (log : List (Job × Return)) : Prop :=
  ∀ older x newer, log = older ++ x :: newer → ∃ kv,
    run perform (older.map Prod.fst) kvInit = some (kv, older) ∧ Tells kv (settled · older) x

/-- In a serial run that drops no chain, the keys have the settled values, and reads and dumps show
them. -/
theorem snapshots_of_run {jobs : List Job}
    (hkeep : Meets perform (fun kv t => t.KeepsChains kv) jobs
      kvInit) (hrun : run perform jobs kvInit = some (kv, log)) :
    (∀ k, kv.held k = settled k log) ∧ Snapshots log := by
  -- Along the run: the log is itself a run, the store holds what the log has settled.
  have hinv := run_invariant (fun log kv => run perform (log.map Prod.fst) kvInit = some (kv, log) ∧
    (∃ c, Linked kv c) ∧ (∀ k, kv.held k = settled k log) ∧ Snapshots log) ?_ ?_ hkeep hrun
  · exact hinv.2.2
  · rintro log kv job kv' r ⟨hlog, ⟨c, hc⟩, hheld, hsnap⟩ hjob hperform
    obtain ⟨kv₁, r₁, c', hperform₁, hc', hsettle, htells⟩ := perform_spec hc hjob
    obtain ⟨rfl, rfl⟩ := Prod.mk.inj (Option.some.inj (hperform₁.symm.trans hperform))
    refine ⟨?_, ⟨c', hc'⟩, fun k => ?_, fun older x newer heq => ?_⟩
    · rw [List.map_append]
      refine run_append hlog ?_
      simp only [List.map_cons, List.map_nil, run, hperform, Option.bind_eq_bind, Option.bind_some]
    · rw [hsettle, hheld, settled, settled, List.foldl_append, List.foldl_cons, List.foldl_nil]
    -- The newest entry tells what the store holds now; the others were told before.
    · rcases concat_eq_append_cons heq with ⟨rfl, rfl, -⟩ | ⟨newer, -, heq⟩
      · rw [funext hheld] at htells
        exact ⟨kv, hlog, htells⟩
      · exact hsnap older x newer heq
  · refine ⟨rfl, ⟨_, linked_kvInit⟩, fun k => ?_, fun older x newer hnil => ?_⟩
    · exact (held_eq_none_iff linked_kvInit).mpr (List.forall_mem_nil _)
    · simp at hnil

/-- **Readers see snapshots.** In any interleaving in which no `kv_delete` finds its key first in a
chain of two or more entries, every operation that has left told of the values that the operations
which had left before it made: a `kv_read` returned a pointer to the value of its key and null
without one, and a `kv_dump` printed every key that had a value once, with the value. -/
theorem kvstore_snapshots (hfits : ∀ e ∈ events, e.Fits)
    (hrun : run (System.step junk) events (systemInit T) = some (s, hist))
    (hkeep : Meets perform (fun kv job => job.KeepsChains kv) ((left hist).map Prod.fst) kvInit) :
    Snapshots (left hist) := by
  obtain ⟨kv, hseq, -⟩ := (systemInv_of_run hfits hrun).sequential
  exact (snapshots_of_run hkeep hseq).2

/-- The run with two threads above shows snapshots. -/
theorem kvstore_snapshots_overlap : ∃ s hist,
    run (System.step ⟨⟨keyAb, 0, none⟩, keyAb⟩) overlap (systemInit Bool) = some (s, hist) ∧
      Snapshots (left hist) := by
  have hkeep : (run (System.step ⟨⟨keyAb, 0, none⟩, keyAb⟩) overlap (systemInit Bool)).any
      (fun x => decide (Meets perform (fun kv job => job.KeepsChains kv)
        ((left x.2).map Prod.fst) kvInit)) = true := by decide +kernel
  rw [Option.any_eq_true] at hkeep
  obtain ⟨⟨s, hist⟩, hrun, hmeets⟩ := hkeep
  exact ⟨s, hist, hrun, kvstore_snapshots (by decide) hrun (of_decide_eq_true hmeets)⟩

end Cs5600.Lab3
