import Cs5600.Lib.Decimal
import Mathlib.Tactic.Common

/-!
# Tokens

`parse_gettoken` reads one token of a command line, and `parse_ungettoken` gives it back. A position
in the line is the text from there to the terminating null character.

Every token but `TOK_END` and `TOK_ERROR` moves the position forward (`parseGettoken_cases`), so a
line has finitely many tokens. `lineTokens` lists them, up to `TOK_END` or to the first `TOK_ERROR`,
and `Reads` says what the parser needs of a line that has no error: which tokens a state still
gives.
-/

namespace Cs5600.Lab2

/-- A C string, without the null character that ends it. -/
abbrev Text : Type := List UInt8

/-- A string literal. -/
def text (s : String) : Text := s.toList.map Char.toUInt8

def tokensize : ℕ := 1024

/-- The character `"`. -/
def doubleQuote : UInt8 := 34

/-- The character that quotes like `"`, and is kept in the token. -/
def backQuote : UInt8 := 96

inductive TokenType
  | tokError
  | tokEnd
  | tokNormal
  | tokLessThan
  | tokGreaterThan
  | tok2GreaterThan
  | tokSemicolon
  | tokAmpersand
  | tokPipe
  | tokDoubleamp
  | tokDoublepipe
  | tokOpenParen
  | tokCloseParen
deriving DecidableEq, Repr

structure Token where
  type : TokenType
  buffer : Text
deriving DecidableEq, Repr

structure ParseState where
  position : Text
  /-- Where the last token started, `none` for `NULL`. -/
  lastPosition : Option Text
deriving DecidableEq, Repr

def parseInit (inputLine : Text) : ParseState := ⟨inputLine, none⟩

/-- The loop that stores a token: the characters stored, whether there were quotes, and where it
stopped. It has no result when the token is too long or ends inside quotes. -/
def scanToken : BitVec 2 → Bool → Text → Text → Option (Text × Bool × Text)
  | quoteState, anyQuotes, buffer, [] =>
    if quoteState = 0 then some (buffer, anyQuotes, []) else none
  | quoteState, anyQuotes, buffer, c :: str =>
    if quoteState = 0 ∧ isSpace c then
      some (buffer, anyQuotes, c :: str)
    else if c = doubleQuote then
      scanToken (quoteState ^^^ 1) true buffer str
    else
      let quoteState := if c = backQuote then quoteState ^^^ 2 else quoteState
      let anyQuotes := anyQuotes || c = backQuote
      if tokensize - 1 ≤ buffer.length then
        none
      else if (c = '('.toUInt8 ∨ c = ')'.toUInt8 ∨ c = ';'.toUInt8) ∧ quoteState = 0 then
        -- A special character ends the token before it, and is a token of its own at the start.
        if 0 < buffer.length then some (buffer, anyQuotes, c :: str)
        else some ([c], anyQuotes, str)
      else
        scanToken quoteState anyQuotes (buffer ++ [c]) str

/-- The type of a token that has no quotes in it. -/
def tokenType (buffer : Text) : TokenType :=
  if buffer = text "<" then .tokLessThan
  else if buffer = text ">" then .tokGreaterThan
  else if buffer = text "2>" then .tok2GreaterThan
  else if buffer = text "&" then .tokAmpersand
  else if buffer = text ";" then .tokSemicolon
  else if buffer = text "|" then .tokPipe
  else if buffer = text "&&" then .tokDoubleamp
  else if buffer = text "||" then .tokDoublepipe
  else if buffer = text "(" then .tokOpenParen
  else if buffer = text ")" then .tokCloseParen
  else .tokNormal

def parseGettoken (st : ParseState) : Token × ParseState :=
  let str := st.position.dropWhile isSpace
  if str = [] then
    (⟨.tokEnd, []⟩, ⟨st.position, some st.position⟩)
  else
    match scanToken 0 false [] str with
    -- An error moves neither position.
    | none => (⟨.tokError, []⟩, st)
    | some (buffer, anyQuotes, str) =>
      (⟨if anyQuotes then .tokNormal else tokenType buffer, buffer⟩, ⟨str, some st.position⟩)

/-- What stops a call of the parser, or of `cmd_print`, before it returns. -/
inductive Fault
  /-- An `assert` fails. -/
  | assertion
  /-- The model has run out of the steps it was given. -/
  | fuel
deriving DecidableEq, Repr

def parseUngettoken (st : ParseState) : Except Fault ParseState :=
  match st.lastPosition with
  | none => .error .assertion
  | some p => .ok ⟨p, none⟩

/-- The tokens that up to `n` calls of `parse_gettoken` give, up to `TOK_END` or to `TOK_ERROR`. -/
def tokensFrom : ℕ → ParseState → List Token
  | 0, _ => []
  | n + 1, st =>
    let (token, st') := parseGettoken st
    if token.type = .tokEnd then []
    else if token.type = .tokError then [token]
    else token :: tokensFrom n st'

/-- The tokens of a line. There are no more of them than characters (`Reads.length_le`). -/
def lineTokens (line : Text) : List Token := tokensFrom (line.length + 1) (parseInit line)

example : (lineTokens (text "(a\"b c\"d;2>x) >\"|\"")).map Token.buffer =
    [text "(", text "ab cd", text ";", text "2>x", text ")", text ">|"] := by decide +kernel

/-- Reading a token makes the text shorter. -/
theorem length_scanToken_le {q : BitVec 2} {a : Bool} {b str : Text} {r : Text × Bool × Text}
    (h : scanToken q a b str = some r) : r.2.2.length ≤ str.length := by
  -- Induction on the input; the quote state `q` decides what each character does.
  induction str generalizing q a b with
  | nil =>
    unfold scanToken at h
    split_ifs at h
    obtain rfl := Option.some.inj h
    exact le_rfl
  | cons c str ih =>
    unfold scanToken at h
    rw [List.length_cons]
    split_ifs at h
    · obtain rfl := Option.some.inj h
      exact le_rfl
    · exact Nat.le_succ_of_le (ih h)
    all_goals simp only at h
    all_goals split_ifs at h
    all_goals first
      | exact Nat.le_succ_of_le (ih h)
      | obtain rfl := Option.some.inj h
        simp

/-- A token that starts at a character that is no space takes this character. -/
theorem length_scanToken_lt {a : Bool} {c : UInt8} {str : Text} {r : Text × Bool × Text}
    (hc : isSpace c = false) (h : scanToken 0 a [] (c :: str) = some r) :
    r.2.2.length < (c :: str).length := by
  unfold scanToken at h
  rw [List.length_cons, Nat.lt_succ_iff]
  simp only [hc, Bool.false_eq_true, and_false, if_false, List.length_nil, lt_irrefl] at h
  split_ifs at h
  · exact length_scanToken_le h
  all_goals first
    | exact length_scanToken_le h
    | obtain rfl := Option.some.inj h
      exact le_rfl

/-- How a token without quotes is spelled, for the types that have one spelling. -/
def TokenType.spelling : TokenType → Text
  | .tokLessThan => text "<"
  | .tokGreaterThan => text ">"
  | .tok2GreaterThan => text "2>"
  | .tokAmpersand => text "&"
  | .tokSemicolon => text ";"
  | .tokPipe => text "|"
  | .tokDoubleamp => text "&&"
  | .tokDoublepipe => text "||"
  | .tokOpenParen => text "("
  | .tokCloseParen => text ")"
  | .tokError | .tokEnd | .tokNormal => []

/-- The token that stands for itself. -/
def TokenType.token (type : TokenType) : Token := ⟨type, type.spelling⟩

/-- The token that is a word. -/
def word (w : Text) : Token := ⟨.tokNormal, w⟩

/-- What a token is that `parse_gettoken` moves past: a word, or a token that stands for itself. -/
def Token.Proper (t : Token) : Prop :=
  t = word t.buffer ∨ t = t.type.token ∧ t.type ≠ .tokEnd ∧ t.type ≠ .tokError

/-- A token is proper when it is spelled as its type is. -/
theorem Token.Proper.ite {type rest : TokenType} {s buffer : Text} (hs : type.spelling = s)
    (hend : type ≠ .tokEnd) (herror : type ≠ .tokError) (h : Token.Proper ⟨rest, buffer⟩) :
    Token.Proper ⟨if buffer = s then type else rest, buffer⟩ := by
  by_cases heq : buffer = s
  · rw [if_pos heq]
    exact .inr ⟨congrArg (Token.mk type) (heq.trans hs.symm), hend, herror⟩
  · rwa [if_neg heq]

/-- A token that has been read is proper. -/
theorem proper_tokenType (buffer : Text) : Token.Proper ⟨tokenType buffer, buffer⟩ := by
  unfold tokenType
  iterate 10
    refine .ite rfl ?_ ?_ ?_
    · decide
    · decide
  exact .inl rfl

/-- A proper token is not the end of the line. -/
theorem Token.Proper.ne_tokEnd {t : Token} (h : t.Proper) : t.type ≠ .tokEnd := by
  rcases h with h | h
  · rw [h]
    exact TokenType.noConfusion
  · exact h.2.1

/-- A proper token is no error. -/
theorem Token.Proper.ne_tokError {t : Token} (h : t.Proper) : t.type ≠ .tokError := by
  rcases h with h | h
  · rw [h]
    exact TokenType.noConfusion
  · exact h.2.2

/-- A proper token of normal type is a word. -/
theorem Token.Proper.eq_word {t : Token} (h : t.Proper) (htype : t.type = .tokNormal) :
    t = word t.buffer := by
  rcases h with h | h
  · exact h
  · rw [word, ← htype]

/-- What `parse_gettoken` does, by the position alone: a token that it reads takes at least one
character, and the state remembers where the token started. -/
theorem parseGettoken_cases (p : Text) :
    (∀ l, parseGettoken ⟨p, l⟩ = (⟨.tokEnd, []⟩, ⟨p, some p⟩)) ∨
      (∀ l, parseGettoken ⟨p, l⟩ = (⟨.tokError, []⟩, ⟨p, l⟩)) ∨
      ∃ t q, (∀ l, parseGettoken ⟨p, l⟩ = (t, ⟨q, some p⟩)) ∧ t.Proper ∧ q.length < p.length := by
  cases hstr : p.dropWhile isSpace with
  | nil => exact .inl fun _ => by simp only [parseGettoken, hstr, if_true]
  | cons c str =>
    right
    cases hscan : scanToken 0 false [] (c :: str) with
    | none => exact .inl fun _ => by simp only [parseGettoken, hstr, hscan, reduceCtorEq, if_false]
    | some r =>
      -- A scanned token is a word where a quote occurred, else what its spelling says.
      obtain ⟨buffer, anyQuotes, q⟩ := r
      have hspace : isSpace c = false := by
        have hnot := List.dropWhile_get_zero_not isSpace p (by rw [hstr]; exact Nat.succ_pos _)
        simpa [hstr] using hnot
      have hsuffix : (c :: str).length ≤ p.length := by
        rw [← hstr]
        exact List.length_dropWhile_le _ _
      refine .inr ⟨⟨if anyQuotes then .tokNormal else tokenType buffer, buffer⟩, q, fun _ => ?_, ?_,
        (length_scanToken_lt hspace hscan).trans_le hsuffix⟩
      · simp only [parseGettoken, hstr, hscan, reduceCtorEq, if_false]
      cases anyQuotes with
      | false =>
        rw [if_neg Bool.false_ne_true]
        exact proper_tokenType buffer
      | true => exact .inl rfl

/-! ## The tokens a state gives -/

/-- From position `p`, `parse_gettoken` gives the tokens `ts` and then `TOK_END`. -/
inductive Reads : Text → List Token → Prop
  | nil {p : Text} : (∀ l, parseGettoken ⟨p, l⟩ = (⟨.tokEnd, []⟩, ⟨p, some p⟩)) → Reads p []
  | cons {p q : Text} {t : Token} {ts : List Token} :
    (∀ l, parseGettoken ⟨p, l⟩ = (t, ⟨q, some p⟩)) → t.Proper → q.length < p.length → Reads q ts →
      Reads p (t :: ts)

/-- A line has at most as many tokens as characters. -/
theorem Reads.length_le {p : Text} {ts : List Token} (h : Reads p ts) : ts.length ≤ p.length := by
  induction h with
  | nil => exact Nat.zero_le _
  | cons _ _ hlt _ ih =>
    rw [List.length_cons]
    omega

/-- At the end of the line. -/
theorem Reads.get_nil (st : ParseState) (h : Reads st.position []) :
    parseGettoken st = (⟨.tokEnd, []⟩, ⟨st.position, some st.position⟩) := by
  cases h with
  | nil h => exact h st.lastPosition

/-- `parse_gettoken` reads the next token and moves behind it. -/
theorem Reads.get_cons (st : ParseState) {t : Token} {ts : List Token}
    (h : Reads st.position (t :: ts)) :
    ∃ q, parseGettoken st = (t, ⟨q, some st.position⟩) ∧ t.Proper ∧ Reads q ts := by
  cases h with
  | cons h ht _ hts => exact ⟨_, h st.lastPosition, ht, hts⟩

/-- The tokens of a line that has no `TOK_ERROR`. -/
theorem reads_tokensFrom {n : ℕ} {p : Text} {l : Option Text} (hn : p.length < n)
    (h : ∀ t ∈ tokensFrom n ⟨p, l⟩, t.type ≠ .tokError) : Reads p (tokensFrom n ⟨p, l⟩) := by
  induction n generalizing p l with
  | zero => exact absurd hn (Nat.not_lt_zero _)
  | succ n ih =>
    unfold tokensFrom at h ⊢
    rcases parseGettoken_cases p with hend | herr | ⟨t, q, hget, ht, hlt⟩
    · simp only [hend, if_true]
      exact .nil hend
    · simp [herr] at h
    · simp only [hget, if_neg ht.ne_tokEnd, if_neg ht.ne_tokError, List.forall_mem_cons] at h ⊢
      exact .cons hget ht hlt (ih (by omega) h.2)

/-- The tokens of a line are those that are read from it, when none is an error. -/
theorem reads_lineTokens {line : Text} (h : ∀ t ∈ lineTokens line, t.type ≠ .tokError) :
    Reads line (lineTokens line) :=
  reads_tokensFrom (Nat.lt_succ_self _) h

/-! ## Tokens between two positions -/

/-- At `p`, `parse_gettoken` gives `t` and moves to `q`. -/
def Gives (p : Text) (t : Token) (q : Text) : Prop := ∀ l, parseGettoken ⟨p, l⟩ = (t, ⟨q, some p⟩)

/-- At `p`, `parse_gettoken` gives `TOK_ERROR`, and changes nothing. -/
def AtError (p : Text) : Prop := ∀ l, parseGettoken ⟨p, l⟩ = (⟨.tokError, []⟩, ⟨p, l⟩)

/-- The tokens `ts` stand between two positions. -/
inductive Scans : Text → List Token → Text → Prop
  | nil {p : Text} : Scans p [] p
  | cons {p q r : Text} {t : Token} {ts : List Token} :
    Gives p t q → t.Proper → q.length < p.length → Scans q ts r → Scans p (t :: ts) r

/-- Tokens have at least one character each. -/
theorem Scans.length_le {p q : Text} {ts : List Token} (h : Scans p ts q) :
    ts.length + q.length ≤ p.length := by
  induction h with
  | nil => rw [List.length_nil, Nat.zero_add]
  | cons _ _ hlt _ ih =>
    rw [List.length_cons]
    omega

/-- Tokens are scanned one part after the other. -/
theorem scans_append {p r : Text} {ts ts' : List Token} :
    Scans p (ts ++ ts') r ↔ ∃ q, Scans p ts q ∧ Scans q ts' r := by
  induction ts generalizing p with
  | nil =>
    refine ⟨fun h => ⟨p, .nil, h⟩, ?_⟩
    rintro ⟨q, hnil, h⟩
    cases hnil
    exact h
  | cons t ts ih =>
    constructor
    · intro h
      cases h with
      | cons hget ht hlt h =>
        obtain ⟨q, hts, hts'⟩ := ih.mp h
        exact ⟨q, .cons hget ht hlt hts, hts'⟩
    · rintro ⟨q, h, hts'⟩
      cases h with
      | cons hget ht hlt hts => exact .cons hget ht hlt (ih.mpr ⟨q, hts, hts'⟩)

/-- Reading tokens scans those in front. -/
theorem reads_append {p : Text} {ts ts' : List Token} (h : Reads p (ts ++ ts')) :
    ∃ q, Scans p ts q ∧ Reads q ts' := by
  induction ts generalizing p with
  | nil => exact ⟨p, .nil, h⟩
  | cons t ts ih =>
    cases h with
    | cons hget ht hlt h =>
      obtain ⟨q, hts, hts'⟩ := ih h
      exact ⟨q, .cons hget ht hlt hts, hts'⟩

/-- The tokens of a line in front of its first `TOK_ERROR`. -/
theorem scans_tokensFrom {n : ℕ} {p : Text} {l : Option Text} {ts : List Token}
    (h : tokensFrom n ⟨p, l⟩ = ts ++ [⟨.tokError, []⟩]) : ∃ q, Scans p ts q ∧ AtError q := by
  induction n generalizing p l ts with
  | zero => exact absurd h.symm (List.append_ne_nil_of_right_ne_nil _ (List.cons_ne_nil _ _))
  | succ n ih =>
    unfold tokensFrom at h
    -- The list of a line goes on until the end or the error.
    rcases parseGettoken_cases p with hend | herr | ⟨t, q, hget, ht, hlt⟩
    · simp only [hend, if_true] at h
      exact absurd h.symm (List.append_ne_nil_of_right_ne_nil _ (List.cons_ne_nil _ _))
    · cases ts with
      | nil => exact ⟨p, .nil, herr⟩
      | cons t ts => simp [herr] at h
    · simp only [hget, if_neg ht.ne_tokEnd, if_neg ht.ne_tokError] at h
      cases ts with
      | nil =>
        obtain rfl := (List.cons.inj h).1
        exact absurd rfl ht.ne_tokError
      | cons t' ts =>
        obtain ⟨rfl, htail⟩ := List.cons.inj h
        obtain ⟨r, hts, hr⟩ := ih htail
        exact ⟨r, .cons hget ht hlt hts, hr⟩

/-- A `TOK_ERROR` is the last token of its line. -/
theorem tokensFrom_of_error {n : ℕ} {p : Text} {l : Option Text} {t : Token}
    (ht : t ∈ tokensFrom n ⟨p, l⟩) (herror : t.type = .tokError) :
    ∃ ts, tokensFrom n ⟨p, l⟩ = ts ++ [⟨.tokError, []⟩] := by
  induction n generalizing p l with
  | zero => cases ht
  | succ n ih =>
    unfold tokensFrom at ht ⊢
    rcases parseGettoken_cases p with hend | herr | ⟨t', q, hget, hproper, hlt⟩
    · simp [hend] at ht
    · exact ⟨[], by simp [herr]⟩
    · simp only [hget, if_neg hproper.ne_tokEnd, if_neg hproper.ne_tokError, List.mem_cons] at ht ⊢
      rcases ht with rfl | ht
      · exact absurd herror hproper.ne_tokError
      · obtain ⟨ts, hts⟩ := ih ht
        exact ⟨t' :: ts, congrArg (t' :: ·) hts⟩

/-- The tokens in front of an error are scanned up to it. -/
theorem scans_lineTokens {line : Text} {ts : List Token}
    (h : lineTokens line = ts ++ [⟨.tokError, []⟩]) : ∃ q, Scans line ts q ∧ AtError q :=
  scans_tokensFrom h

end Cs5600.Lab2
