import Cs5600.Lab2.Token

/-!
# Tokens as runs

What a token of a command line is, without the loop that finds it: the run of characters up to the
first space or special character that no quote covers. `parse_gettoken` computes this token
(`parseGettoken_reference_iff`), except in front of a special character when the run is made of
double quotes alone, which leaves nothing to give the special character back to, or fills the
buffer.
-/

namespace Cs5600.Lab2

/-! ## The reference -/

/-- The characters that are tokens of their own. -/
def isSpecial (c : UInt8) : Bool := c == '('.toUInt8 || c == ')'.toUInt8 || c == ';'.toUInt8

/-- The run of characters up to the first space or special character outside quotes, what follows
it, and whether the line ends inside quotes. Each of the two quotes has its own flag. -/
def takeRun (dq bq : Bool) : Text → Text × Text × Bool
  | [] => ([], [], dq || bq)
  | c :: str =>
    if !(dq || bq) && (isSpace c || isSpecial c) then ([], c :: str, false)
    else
      let r := takeRun (dq ^^ c == doubleQuote) (bq ^^ c == backQuote) str
      (c :: r.1, r.2)

/-- The text of a run. -/
def runText (run : Text) : Text := run.filter (· != doubleQuote)

def anyQuote (run : Text) : Bool := run.any fun c => c == doubleQuote || c == backQuote

/-- The token at a position, and the position after it. -/
def reference (p : Text) : Token × Text :=
  let str := p.dropWhile isSpace
  let r := takeRun false false str
  if str = [] then (⟨.tokEnd, []⟩, p)
  else if r.1 = [] then
    -- The character that has ended the run at once.
    (⟨tokenType (r.2.1.take 1), r.2.1.take 1⟩, r.2.1.drop 1)
  else if r.2.2 ∨ tokensize - 1 < (runText r.1).length then (⟨.tokError, []⟩, p)
  else (⟨if anyQuote r.1 then .tokNormal else tokenType (runText r.1), runText r.1⟩, r.2.1)

/-- `parse_gettoken` gives the token of the reference and moves to the position after it. -/
def MatchesReference (st : ParseState) : Prop :=
  (parseGettoken st).1 = (reference st.position).1 ∧
    (parseGettoken st).2.position = (reference st.position).2

/-- A special character that ends the run at a position comes behind some text that does not fill
the buffer, or is the first character. -/
def ClearOfSpecial (p : Text) : Prop :=
  let r := takeRun false false (p.dropWhile isSpace)
  ∀ c rest, r.2.1 = c :: rest → isSpecial c = true →
    (r.1 = [] ∨ runText r.1 ≠ []) ∧ (runText r.1).length ≠ tokensize - 1

/-! ## The loop -/

/-- The two quote flags as `quote_state`. -/
def quoteState (dq bq : Bool) : BitVec 2 :=
  (if dq then 1 else 0) ||| (if bq then 2 else 0)

/-- State 0 is outside of quotes. -/
theorem quoteState_eq_zero (dq bq : Bool) : quoteState dq bq = 0 ↔ (dq || bq) = false := by
  revert dq bq
  decide

/-- Bit 0 of the state is turned at a double quote. -/
theorem quoteState_xor_one (dq bq : Bool) :
    quoteState dq bq ^^^ 1 = quoteState (dq ^^ true) bq := by
  revert dq bq
  decide

/-- Bit 1 of the state is turned at a back quote. -/
theorem quoteState_xor_two (dq bq : Bool) :
    quoteState dq bq ^^^ 2 = quoteState dq (bq ^^ true) := by
  revert dq bq
  decide

/-- How the loop ends with the text of a run in the buffer. -/
def finish (buffer : Text) (anyQuotes : Bool) (rest : Text) (quoted : Bool) :
    Option (Text × Bool × Text) :=
  if quoted ∨ tokensize - 1 < buffer.length then none
  else if rest.head?.any isSpecial then
    if buffer.length = tokensize - 1 then none
    else if buffer = [] then some (rest.take 1, anyQuotes, rest.drop 1)
    else some (buffer, anyQuotes, rest)
  else some (buffer, anyQuotes, rest)

/-- Parentheses and the semicolon are special. -/
theorem isSpecial_iff (c : UInt8) :
    isSpecial c = true ↔ c = '('.toUInt8 ∨ c = ')'.toUInt8 ∨ c = ';'.toUInt8 := by
  simp only [isSpecial, Bool.or_eq_true, beq_iff_eq, or_assoc]

/-- A special character is neither a space nor a quote. -/
theorem isSpecial_plain {c : UInt8} (h : isSpecial c = true) :
    isSpace c = false ∧ c ≠ doubleQuote ∧ c ≠ backQuote := by
  rcases (isSpecial_iff c).mp h with rfl | rfl | rfl <;> decide

/-- A token that is too long is an error. -/
theorem finish_of_long {buffer : Text} (h : tokensize - 1 < buffer.length) (anyQuotes : Bool)
    (rest : Text) (quoted : Bool) : finish buffer anyQuotes rest quoted = none := if_pos (.inr h)

/-- A double quote is not stored. -/
theorem runText_cons_quote (run : Text) : runText (doubleQuote :: run) = runText run := rfl

/-- Another character is stored. -/
theorem runText_cons {c : UInt8} (h : c ≠ doubleQuote) (run : Text) :
    runText (c :: run) = c :: runText run := by
  rw [runText, List.filter_cons_of_pos (by simpa using h), runText]

/-- A run stops outside of quotes at a blank or a special character. -/
theorem takeRun_of_stop {dq bq : Bool} {c : UInt8} (hout : (dq || bq) = false)
    (h : (isSpace c || isSpecial c) = true) (str : Text) :
    takeRun dq bq (c :: str) = ([], c :: str, false) := by
  rw [takeRun, hout, h]
  rfl

/-- A run goes on at another character, or inside of quotes. -/
theorem takeRun_of_go {dq bq : Bool} {c : UInt8}
    (h : ¬ ((dq || bq) = false ∧ (isSpace c || isSpecial c) = true)) (str : Text) :
    takeRun dq bq (c :: str) =
      (c :: (takeRun (dq ^^ c == doubleQuote) (bq ^^ c == backQuote) str).1,
        (takeRun (dq ^^ c == doubleQuote) (bq ^^ c == backQuote) str).2) := by
  rw [takeRun, if_neg]
  simpa using h

/-- The loop from any point of a token, with `buffer` stored so far: it goes through the run, and
`finish` says what it makes of the run's text. -/
theorem scanToken_eq (str : Text) : ∀ (dq bq a : Bool) (buffer : Text),
    buffer.length ≤ tokensize - 1 →
    scanToken (quoteState dq bq) a buffer str =
      finish (buffer ++ runText (takeRun dq bq str).1) (a || anyQuote (takeRun dq bq str).1)
        (takeRun dq bq str).2.1 (takeRun dq bq str).2.2 := by
  -- Induction on the line, for every quote state and what is stored so far.
  induction str with
  | nil =>
    intro dq bq a buffer hlen
    have hshort : ¬ tokensize - 1 < buffer.length := by omega
    have hnil : runText [] = [] := rfl
    rw [scanToken, takeRun, hnil, List.append_nil]
    cases hout : (dq || bq) with
    | false =>
      rw [if_pos ((quoteState_eq_zero dq bq).mpr hout)]
      simp [finish, hshort, anyQuote]
    | true =>
      have hq : ¬ quoteState dq bq = 0 := fun h => by
        rw [(quoteState_eq_zero dq bq).mp h] at hout
        cases hout
      rw [if_neg hq, finish, if_pos (.inl rfl)]
  | cons c str ih =>
    intro dq bq a buffer hlen
    have hshort : ¬ tokensize - 1 < buffer.length := by omega
    -- A character that ends the run: a blank or a special one outside quotes.
    by_cases hstop : (dq || bq) = false ∧ (isSpace c || isSpecial c) = true
    · obtain ⟨hout, hend⟩ := hstop
      have hq := (quoteState_eq_zero dq bq).mpr hout
      have hnil : runText [] = [] := rfl
      rw [scanToken, takeRun_of_stop hout hend, hnil, List.append_nil]
      cases hspace : isSpace c with
      | true =>
        have hplain : ¬ isSpecial c = true := fun h => by
          rw [(isSpecial_plain h).1] at hspace
          cases hspace
        simp [finish, hq, hshort, hplain, anyQuote]
      | false =>
        rw [hspace, Bool.false_or] at hend
        obtain ⟨-, hdq, hbq⟩ := isSpecial_plain hend
        have hspecial := (isSpecial_iff c).mp hend
        have hhead : (c :: str).head?.any isSpecial = true := hend
        have hquote : (a || anyQuote []) = a := Bool.or_false a
        simp only [Bool.false_eq_true, and_false, if_false, hdq, hbq, hspecial, hq, and_self,
          if_true, decide_false, Bool.or_false, finish, hshort, or_self, hhead, hquote,
          List.take_succ_cons, List.take_zero, List.drop_succ_cons, List.drop_zero]
        -- A full buffer is tested before the special character is.
        by_cases hfull : tokensize - 1 ≤ buffer.length
        · have heq : buffer.length = tokensize - 1 := by omega
          rw [if_pos hfull, if_pos heq]
        · have hne : ¬ buffer.length = tokensize - 1 := by omega
          rw [if_neg hfull, if_neg hne]
          cases buffer with
          | nil => rfl
          | cons b buffer => rfl
    · rw [scanToken, takeRun_of_go hstop]
      have hnospace : ¬ (quoteState dq bq = 0 ∧ isSpace c = true) := fun h =>
        hstop ⟨(quoteState_eq_zero dq bq).mp h.1, by rw [h.2, Bool.true_or]⟩
      rw [if_neg hnospace]
      by_cases hdq : c = doubleQuote
      · -- A double quote is not stored.
        subst hdq
        have hbq : (doubleQuote == backQuote) = false := by decide
        have hquote : ∀ run, anyQuote (doubleQuote :: run) = true := fun _ => rfl
        simp only [if_true, quoteState_xor_one, ih _ _ _ _ hlen, beq_self_eq_true, hbq,
          Bool.xor_false, runText_cons_quote, hquote, Bool.true_or, Bool.or_true]
      -- Any other character is stored, and a back quote stays part of the text.
      · have hbeq : (c == doubleQuote) = false := beq_eq_false_iff_ne.mpr hdq
        have hstate : (if c = backQuote then quoteState dq bq ^^^ 2 else quoteState dq bq) =
            quoteState dq (bq ^^ c == backQuote) := by
          by_cases hbq : c = backQuote
          · rw [if_pos hbq, quoteState_xor_two, beq_iff_eq.mpr hbq]
          · rw [if_neg hbq, beq_eq_false_iff_ne.mpr hbq, Bool.xor_false]
        simp only [if_neg hdq, hstate, hbeq, Bool.xor_false, runText_cons hdq]
        by_cases hfull : tokensize - 1 ≤ buffer.length
        · rw [if_pos hfull, finish_of_long (by simp; omega)]
        · have hinside : ¬ ((c = '('.toUInt8 ∨ c = ')'.toUInt8 ∨ c = ';'.toUInt8) ∧
              quoteState dq (bq ^^ c == backQuote) = 0) := by
            rintro ⟨hc, hq⟩
            have hspecial := (isSpecial_iff c).mpr hc
            rw [beq_eq_false_iff_ne.mpr (isSpecial_plain hspecial).2.2, Bool.xor_false] at hq
            exact hstop ⟨(quoteState_eq_zero dq bq).mp hq, by rw [hspecial, Bool.or_true]⟩
          have hlen' : (buffer ++ [c]).length ≤ tokensize - 1 := by
            rw [List.length_append, List.length_singleton]
            omega
          have hany : ∀ run, anyQuote (c :: run) = (decide (c = backQuote) || anyQuote run) := by
            intro run
            rw [anyQuote, List.any_cons, hbeq, Bool.false_or]
            rfl
          rw [if_neg hfull, if_neg hinside, ih _ _ _ _ hlen', List.append_assoc,
            List.singleton_append, hany, Bool.or_assoc]

/-- A run that does not reach the end of the line ends outside quotes. -/
theorem takeRun_rest (str : Text) : ∀ (dq bq : Bool) {c : UInt8} {rest : Text},
    (takeRun dq bq str).2.1 = c :: rest → (takeRun dq bq str).2.2 = false := by
  induction str with
  | nil => intro dq bq c rest h; cases h
  | cons d str ih =>
    intro dq bq c rest h
    by_cases hstop : (dq || bq) = false ∧ (isSpace d || isSpecial d) = true
    · rw [takeRun_of_stop hstop.1 hstop.2]
    · rw [takeRun_of_go hstop] at h ⊢
      exact ih _ _ h

/-- A run is empty only in front of a special character. -/
theorem takeRun_eq_nil {c : UInt8} {str : Text} (hc : isSpace c = false)
    (h : (takeRun false false (c :: str)).1 = []) :
    isSpecial c = true ∧ takeRun false false (c :: str) = ([], c :: str, false) := by
  by_cases hstop : (false || false) = false ∧ (isSpace c || isSpecial c) = true
  · refine ⟨?_, takeRun_of_stop hstop.1 hstop.2 str⟩
    rw [← hstop.2, hc, Bool.false_or]
  · rw [takeRun_of_go hstop] at h
    cases h

/-! ## The theorem -/

/-- The loop of `parse_gettoken` from the start of a token. -/
theorem scanToken_start (str : Text) {run rest : Text} {quoted : Bool}
    (hrun : takeRun false false str = (run, rest, quoted)) :
    scanToken 0 false [] str = finish (runText run) (anyQuote run) rest quoted := by
  have hscan := scanToken_eq str false false false [] (Nat.zero_le _)
  rw [hrun, List.nil_append, Bool.false_or, show quoteState false false = 0 by decide] at hscan
  exact hscan

section

variable {st : ParseState} {c : UInt8} {str : Text}
  (hstr : st.position.dropWhile isSpace = c :: str)
include hstr

/-- A token that cannot be read is an error, and the position stays. -/
theorem parseGettoken_of_none (h : scanToken 0 false [] (c :: str) = none) :
    parseGettoken st = (⟨.tokError, []⟩, st) := by
  simp only [parseGettoken, hstr, reduceCtorEq, if_false, h]

/-- A token that can be read is a word or the one that it spells, and the position moves behind
it. -/
theorem parseGettoken_of_some {buffer rest : Text} {anyQuotes : Bool}
    (h : scanToken 0 false [] (c :: str) = some (buffer, anyQuotes, rest)) :
    parseGettoken st = (⟨if anyQuotes then .tokNormal else tokenType buffer, buffer⟩,
      ⟨rest, some st.position⟩) := by
  simp only [parseGettoken, hstr, reduceCtorEq, if_false, h]

end

/-- **Tokens are runs.** `parse_gettoken` gives the token of the reference and moves behind it
exactly when the special character that ends the run, if one does, comes behind some text that does
not fill the buffer, or is the first character. -/
theorem parseGettoken_reference_iff (st : ParseState) :
    MatchesReference st ↔ ClearOfSpecial st.position := by
  unfold MatchesReference ClearOfSpecial reference
  cases hstr : st.position.dropWhile isSpace with
  | nil =>
    have hget : parseGettoken st = (⟨.tokEnd, []⟩, ⟨st.position, some st.position⟩) := by
      simp only [parseGettoken, hstr, if_true]
    rw [hget]
    simp [takeRun]
  | cons c str =>
    have hspace : isSpace c = false := by
      have hnot := List.dropWhile_get_zero_not isSpace st.position
        (by rw [hstr]; exact Nat.succ_pos _)
      simpa [hstr] using hnot
    rcases hr : takeRun false false (c :: str) with ⟨run, rest, quoted⟩
    have hscan := scanToken_start (c :: str) hr
    simp only [hr, reduceCtorEq, if_false]
    by_cases hempty : run = []
    · -- The first character is special, and is the token.
      have hnil : (takeRun false false (c :: str)).1 = [] := by rw [hr, hempty]
      obtain ⟨hspecial, htake⟩ := takeRun_eq_nil hspace hnil
      rw [hr] at htake
      cases htake
      have hfinish : finish (runText []) (anyQuote []) (c :: str) false =
        some ([c], false, str) := by
        simp [finish, runText, anyQuote, hspecial, tokensize]
      rw [parseGettoken_of_some hstr (hscan.trans hfinish)]
      simp [runText, tokensize]
    have hrest : ∀ {d r}, rest = d :: r → quoted = false := by
      intro d r hrest
      have hout := @takeRun_rest (c :: str) false false d r
      rw [hr] at hout
      exact hout hrest
    by_cases herror : quoted = true ∨ tokensize - 1 < (runText run).length
    · -- Both give `TOK_ERROR`.
      rw [parseGettoken_of_none hstr (hscan.trans (if_pos herror))]
      simp only [if_neg hempty, if_pos herror, and_self, true_iff]
      intro d r hd _
      rw [hrest hd] at herror
      have hlong : tokensize - 1 < (runText run).length := herror.resolve_left Bool.false_ne_true
      refine ⟨.inr fun hnil => ?_, by omega⟩
      rw [hnil] at hlong
      cases hlong
    simp only [if_neg hempty, if_neg herror]
    cases hd : rest.head?.any isSpecial with
    | false =>
      -- The run ends in front of a space or at the end of the line.
      have hfinish : finish (runText run) (anyQuote run) rest quoted =
          some (runText run, anyQuote run, rest) := by
        rw [finish, if_neg herror, hd, if_neg Bool.false_ne_true]
      rw [parseGettoken_of_some hstr (hscan.trans hfinish)]
      simp only [and_self, true_iff]
      rintro d r rfl hspecial
      rw [List.head?_cons, Option.any_some, hspecial] at hd
      cases hd
    | true =>
      obtain ⟨d, r, rfl, hspecial⟩ : ∃ d r, rest = d :: r ∧ isSpecial d = true := by
        cases rest with
        | nil => cases hd
        | cons d r => exact ⟨d, r, rfl, hd⟩
      have hfinish : finish (runText run) (anyQuote run) (d :: r) quoted =
          if (runText run).length = tokensize - 1 then none
          else if runText run = [] then some ([d], anyQuote run, r)
          else some (runText run, anyQuote run, d :: r) := by
        rw [finish, if_neg herror, hd, if_pos rfl]
        rfl
      by_cases hfull : (runText run).length = tokensize - 1
      · -- The buffer is full, and the special character does not fit any more.
        rw [if_pos hfull] at hfinish
        rw [parseGettoken_of_none hstr (hscan.trans hfinish)]
        refine ⟨fun h => ?_, fun h => absurd hfull (h d r rfl hspecial).2⟩
        have hbuffer : ([] : Text) = runText run := congrArg Token.buffer h.1
        rw [← hbuffer] at hfull
        cases hfull
      rw [if_neg hfull] at hfinish
      by_cases htext : runText run = []
      · -- Double quotes alone: the special character becomes the text of the token.
        rw [if_pos htext] at hfinish
        rw [parseGettoken_of_some hstr (hscan.trans hfinish)]
        refine ⟨fun h => ?_, fun h => absurd htext ((h d r rfl hspecial).1.resolve_left hempty)⟩
        have hbuffer : [d] = runText run := congrArg Token.buffer h.1
        rw [htext] at hbuffer
        cases hbuffer
      · rw [if_neg htext] at hfinish
        rw [parseGettoken_of_some hstr (hscan.trans hfinish)]
        exact ⟨fun _ _ _ _ _ => ⟨.inr htext, hfull⟩, fun _ => ⟨rfl, rfl⟩⟩

/-- A pair of double quotes in front of `(`. -/
theorem not_matchesReference_quotes :
    (parseGettoken (parseInit (text "\"\"("))).1 = word (text "(") ∧
    reference (text "\"\"(") = (word [], text "(") ∧
    ¬ MatchesReference (parseInit (text "\"\"(")) := by
  have hget : (parseGettoken (parseInit (text "\"\"("))).1 = word (text "(") := by decide +kernel
  have href : reference (text "\"\"(") = (word [], text "(") := by decide +kernel
  refine ⟨hget, href, fun h => ?_⟩
  have htoken := h.1
  rw [hget, show (parseInit (text "\"\"(")).position = text "\"\"(" by rfl, href] at htoken
  exact absurd (congrArg Token.buffer htoken) (by decide +kernel)

end Cs5600.Lab2
