import Cs5600.Lab3.Wire

/-!
# Receiving a reply

The loop of `do_get` adds the result of `read` to its pointer unless it is negative. At the end of
the stream the result is 0, and the loop goes round without getting on. After an error it stops, and
`do_get` hands out all of its buffer.

`receiveLoop` is the loop with a bound on its turns. `collect` is what it comes to without one
(`collect_eq_some_iff`). `replyEnds_iff` says when the loop ends and what is handed out has been
received.
-/

namespace Cs5600.Lab3

/-- The loop of `do_get`, for so many turns. `left` is what is left to read, and `got` what has been
read. -/
def receiveLoop : ℕ → ℕ → Reads → List UInt8 → Option (List UInt8)
  | 0, _, _, _ => none
  | fuel + 1, left, reads, got =>
    if left = 0 then some got
    else
      match reads with
      -- The end of the stream reads as 0 bytes, from then on.
      | [] => receiveLoop fuel left [] got
      | none :: _ => some got
      | some p :: reads => receiveLoop fuel (left - p.length) reads (got ++ p)

/-- What `do_get` hands out after the loop: `len` bytes of the buffer, `u` where it has not been
set. -/
def handedOut (u : ℕ → UInt8) (len : ℕ) (got : List UInt8) : List UInt8 :=
  (got ++ ((List.range len).map u).drop got.length).take len

/-- The bytes that arrive before a `read` fails. -/
def arrived : Reads → List UInt8
  | [] => []
  | none :: _ => []
  | some p :: reads => p ++ arrived reads

/-- The loop ends, and `do_get`, called with `data` that is not `NULL`, hands out bytes for the
reply only if it has received as many. -/
def ReplyEnds (u : ℕ → UInt8) (reply : Rq) (reads : Reads) : Prop :=
  ∃ fuel got, receiveLoop fuel reply.len.toNat reads [] = some got ∧
    ((handedOut u reply.len.toNat got).length = reply.len.toNat → reply.len.toNat ≤ got.length)

/-! ## The loop -/

/-- The loop ends in some number of turns when `collect` has a result. -/
theorem collect_eq_some_iff {left : ℕ} {reads : Reads} {got g : List UInt8} :
    collect left reads got = some g ↔ ∃ fuel, receiveLoop fuel left reads got = some g := by
  constructor
  · intro h
    induction reads generalizing left got with
    | nil =>
      cases left with
      | zero => exact ⟨1, h⟩
      | succ left => cases h
    | cons r reads ih =>
      cases left with
      | zero => exact ⟨1, h⟩
      | succ left =>
        cases r with
        | none => exact ⟨1, h⟩
        | some p =>
          obtain ⟨fuel, hfuel⟩ := ih h
          exact ⟨fuel + 1, hfuel⟩
  · rintro ⟨fuel, h⟩
    induction fuel generalizing left reads got with
    | zero => cases h
    | succ fuel ih =>
      unfold receiveLoop at h
      split_ifs at h with hleft
      · rw [hleft, collect]
        exact h
      obtain ⟨left, rfl⟩ := Nat.exists_eq_succ_of_ne_zero hleft
      cases reads with
      -- At the end of the stream the loop goes round without getting on.
      | nil => exact ih h
      | cons r reads =>
        cases r with
        | none => exact h
        | some p =>
          have hrest : receiveLoop fuel (left + 1 - p.length) reads (got ++ p) = some g := h
          have hgo := ih hrest
          exact hgo

/-- One turn for each `read` is enough when all bytes arrive. -/
theorem receiveLoop_of_arrived {left : ℕ} {reads : Reads} (h : left ≤ (arrived reads).length)
    (got : List UInt8) :
    ∃ g, receiveLoop (reads.length + 1) left reads got = some g ∧ got.length + left ≤ g.length := by
  -- Induction on the pieces, with what is left of the value.
  induction reads generalizing left got with
  | nil =>
    obtain rfl : left = 0 := by simpa [arrived] using h
    exact ⟨got, rfl, le_rfl⟩
  | cons r reads ih =>
    by_cases hleft : left = 0
    · subst hleft
      exact ⟨got, rfl, le_rfl⟩
    cases r with
    | none => exact absurd (by simpa [arrived] using h) hleft
    | some p =>
      rw [arrived, List.length_append] at h
      obtain ⟨g, hg, hlen⟩ := @ih (left - p.length) (by omega) (got ++ p)
      rw [List.length_append] at hlen
      refine ⟨g, ?_, by omega⟩
      rw [List.length_cons, receiveLoop, if_neg hleft]
      exact hg

/-- Otherwise the loop goes on, or ends with less. -/
theorem receiveLoop_of_not_arrived {fuel left : ℕ} {reads : Reads} {got g : List UInt8}
    (h : (arrived reads).length < left) (hrun : receiveLoop fuel left reads got = some g) :
    g.length < got.length + left := by
  -- Induction on the fuel; a piece moves bytes from `left` to what is there.
  induction fuel generalizing left reads got with
  | zero => cases hrun
  | succ fuel ih =>
    have hleft : left ≠ 0 := by omega
    unfold receiveLoop at hrun
    rw [if_neg hleft] at hrun
    cases reads with
    | nil => exact ih h hrun
    | cons r reads =>
      cases r with
      | none =>
        cases hrun
        omega
      | some p =>
        rw [arrived, List.length_append] at h
        have hrest := ih (by omega) hrun
        rw [List.length_append] at hrest
        omega

/-- Whatever the loop has got, `do_get` hands out as much as the header says. -/
theorem length_handedOut (u : ℕ → UInt8) (len : ℕ) (got : List UInt8) :
    (handedOut u len got).length = len := by
  simp only [handedOut, List.length_take, List.length_append, List.length_drop, List.length_map,
    List.length_range]
  omega

/-- `do_get` returns what `doGet` says, in some number of turns of its loop. -/
theorem doGet_eq_some_iff {u : ℕ → UInt8} {reply : Rq} (hstatus : reply.opStatus = 75)
    (hlen : 0 ≤ reply.len) {reads : Reads} {data : List UInt8} :
    doGet u reply reads = some (some data) ↔ ∃ fuel got,
      receiveLoop fuel reply.len.toNat reads [] = some got ∧
        data = handedOut u reply.len.toNat got := by
  rw [doGet, if_neg (not_not.mpr hstatus), if_neg hlen.not_gt]
  simp only [Option.bind_eq_bind, Option.bind_eq_some_iff, Option.some.injEq, collect_eq_some_iff]
  constructor
  · rintro ⟨got, ⟨fuel, hrun⟩, rfl⟩
    exact ⟨fuel, got, hrun, rfl⟩
  · rintro ⟨fuel, got, hrun, rfl⟩
    exact ⟨got, ⟨fuel, hrun⟩, rfl⟩

/-- **The client's reply loop ends**, and hands out what it has received, exactly when as many bytes
as the header says arrive before an error or the end of the stream. -/
theorem replyEnds_iff (u : ℕ → UInt8) (reply : Rq) (reads : Reads) :
    ReplyEnds u reply reads ↔ reply.len.toNat ≤ (arrived reads).length := by
  simp only [ReplyEnds, length_handedOut, true_imp_iff]
  constructor
  · rintro ⟨fuel, got, hrun, hlen⟩
    by_contra hshort
    have hless := receiveLoop_of_not_arrived (not_le.mp hshort) hrun
    rw [List.length_nil, Nat.zero_add] at hless
    omega
  · intro h
    obtain ⟨g, hg, hlen⟩ := receiveLoop_of_arrived h []
    exact ⟨_, g, hg, by simpa using hlen⟩

/-- The header of a reply of one byte. -/
def replyOne : Rq := (Bytes.zero.blit 0 [75]).blit 32 [49]

/-- The server closes the connection behind the header: the loop does not end. -/
theorem not_replyEnds_closed : replyOne.opStatus = 75 ∧ 0 ≤ replyOne.len ∧
    ¬ ReplyEnds (fun _ => 0) replyOne [] := by
  refine ⟨by decide +kernel, by decide +kernel, ?_⟩
  rintro ⟨fuel, got, hrun, hlen⟩
  have hone : replyOne.len.toNat = 1 := by decide +kernel
  have hless := receiveLoop_of_not_arrived (by rw [hone]; exact Nat.one_pos) hrun
  have hle := hlen (length_handedOut _ _ _)
  rw [hone] at hless hle
  exact absurd hle (by simpa using hless)

end Cs5600.Lab3
