import Cs5600.Lab2.Grammar
import Mathlib.Tactic.FinCases

/-!
# The parser accepts its grammar

A line whose tokens have no error is read by `parse_gettoken` as a list of tokens (`Reads`), and the
parser is followed along this list. `lineSound` says that a list of commands that the parser returns
is the tree of a derivation of the tokens it has read, and `Line.complete` that it returns the tree
of every derivation. Both say how many steps are enough: each token takes one in `cmd_parse`, and
one more for the call of `cmd_line_parse` it may start.
-/

namespace Cs5600.Lab2

/-! ## The words and redirections of a command -/

/-- A token that does not end a command. -/
def TokenType.continues (type : TokenType) : Bool :=
  type = .tokNormal || type.isRedirection || type = .tokOpenParen

/-- What follows a command. -/
def Follows (ts : List Token) : Prop := ∀ t ∈ ts.head?, t.type.continues = false

/-- The redirection token of a descriptor names it. -/
@[simp] theorem fd_redirType (fd : Fin 3) : (redirType fd).fd = fd := by
  fin_cases fd <;> rfl

/-- The token for a descriptor is a redirection. -/
@[simp] theorem isRedirection_redirType (fd : Fin 3) : (redirType fd).isRedirection = true := by
  fin_cases fd <;> rfl

/-- A redirection is no word. -/
theorem ne_tokNormal_of_isRedirection {type : TokenType} (h : type.isRedirection = true) :
    type ≠ .tokNormal := by
  cases type <;> first | exact TokenType.noConfusion | cases h

/-- A redirection token is the one of its descriptor. -/
theorem eq_redirType {type : TokenType} (h : type.isRedirection = true) :
    type = redirType type.fd := by
  cases type <;> first | rfl | cases h

variable {fuel : ℕ} {st : ParseState} {t : Token} {ts : List Token} {argv : List Text}
  {f : Fin 3 → Option Text} {sub : Command}

/-- What does not end a command continues it. -/
theorem exists_of_not_follows {ts : List Token} (h : ¬ Follows ts) :
    ∃ t ts', ts = t :: ts' ∧ t.type.continues = true := by
  cases ts with
  | nil => exact absurd (fun t ht => by cases ht) h
  | cons t ts => exact ⟨t, ts, rfl, by simpa [Follows] using h⟩

/-- Words, redirections, and opening parentheses continue a command. -/
theorem continues_eq_false_iff {type : TokenType} : type.continues = false ↔
    type ≠ .tokNormal ∧ type.isRedirection = false ∧ type ≠ .tokOpenParen := by
  simp [TokenType.continues, and_assoc]

/-! ### The turns of `cmd_parse` -/

section Turn

variable {st' : ParseState} (hget : parseGettoken st = (t, st'))
include hget

/-- A turn at a token that ends the command, which is given back. -/
theorem cmdParse_back (ht : t.type.continues = false) {p : Text}
    (hlast : st'.lastPosition = some p) :
    cmdParse (fuel + 1) argv f sub st =
      .ok (if argv = [] ∧ sub = .null then .null else .mk argv f sub .cmdEnd .null, ⟨p, none⟩) := by
  rw [continues_eq_false_iff] at ht
  rw [cmdParse, hget]
  simp only [if_neg ht.1, ht.2.1, Bool.false_eq_true, if_false, if_neg ht.2.2,
    parseUngettoken, hlast]
  split_ifs <;> rfl

/-- `cmd_parse` at a word: it is one more of `argv`, if there is room and no subshell. -/
theorem cmdParse_word (ht : t.type = .tokNormal) : cmdParse (fuel + 1) argv f sub st =
    if maxtokens ≤ argv.length ∨ sub ≠ .null then .ok (.null, st')
    else cmdParse fuel (argv ++ [t.buffer]) f sub st' := by
  rw [cmdParse, hget]
  simp only [ht, if_true]

/-- `cmd_parse` at a redirection with its file: the file is stored, the last one winning. -/
theorem cmdParse_redir (ht : t.type.isRedirection = true) {file : Token} {st'' : ParseState}
    (hget' : parseGettoken st' = (file, st'')) (hfile : file.type = .tokNormal)
    (hstart : ¬ (argv = [] ∧ sub = .null)) : cmdParse (fuel + 1) argv f sub st =
      cmdParse fuel argv (Function.update f t.type.fd (some file.buffer)) sub st'' := by
  have hnormal := ne_tokNormal_of_isRedirection ht
  rw [cmdParse, hget]
  simp only [if_neg hnormal, ht, if_true, if_neg hstart, hget', hfile, ne_eq, not_true_eq_false,
    if_false]

/-- A redirection without a file, or of nothing. -/
theorem cmdParse_redir_null (ht : t.type.isRedirection = true)
    (hbad : argv = [] ∧ sub = .null ∨ (parseGettoken st').1.type ≠ .tokNormal) :
    ∃ st'', cmdParse (fuel + 1) argv f sub st = .ok (.null, st'') := by
  have hnormal := ne_tokNormal_of_isRedirection ht
  rw [cmdParse, hget]
  simp only [if_neg hnormal, ht, if_true]
  by_cases hstart : argv = [] ∧ sub = .null
  · exact ⟨_, if_pos hstart⟩
  · rw [if_neg hstart, if_pos (hbad.resolve_left hstart)]
    exact ⟨_, rfl⟩

/-- `cmd_parse` at an opening parenthesis: the subshell is parsed, if there is nothing in front of
it. -/
theorem cmdParse_open (ht : t.type = .tokOpenParen) : cmdParse (fuel + 1) argv f sub st =
    if sub ≠ .null ∨ argv ≠ [] then .ok (.null, st')
    else (cmdLineParse fuel true st').bind fun r =>
      if r.1 = .null then .ok (.null, r.2) else cmdParse fuel argv f r.1 r.2 := by
  rw [cmdParse, hget]
  simp only [ht, reduceCtorEq, TokenType.isRedirection, Bool.false_eq_true, if_false, if_true]
  rfl

end Turn

/-- A command that ends at the tokens that are left. -/
theorem cmdParse_done (hts : Reads st.position ts) (hf : Follows ts) :
    cmdParse (fuel + 1) argv f sub st =
      .ok (if argv = [] ∧ sub = .null then .null else .mk argv f sub .cmdEnd .null,
        ⟨st.position, none⟩) := by
  cases ts with
  | nil => exact cmdParse_back (hts.get_nil st) rfl rfl
  | cons t ts =>
    obtain ⟨q, hget, -, -⟩ := hts.get_cons st
    exact cmdParse_back hget (hf t rfl) rfl

/-- The token at the head of what is left, after one that has been read. -/
theorem type_ne_tokNormal_of_reads (hts : Reads st.position ts) (h : ∀ w ts', ts ≠ word w :: ts') :
    (parseGettoken st).1.type ≠ .tokNormal := by
  cases ts with
  | nil =>
    rw [hts.get_nil st]
    exact TokenType.noConfusion
  | cons t ts =>
    obtain ⟨q, hget, hproper, -⟩ := hts.get_cons st
    rw [hget]
    exact fun ht => h t.buffer ts (congrArg (· :: ts) (hproper.eq_word ht))

/-- A token that is no word is the one of its type. -/
theorem Token.Proper.eq_token (h : t.Proper) (hne : t.type ≠ .tokNormal) : t = t.type.token := by
  rcases h with h | h
  · rw [h] at hne
    exact absurd rfl hne
  · exact h.1

/-- The rest of a command that has a word or a subshell. -/
theorem cmdParse_parts_sound (hts : Reads st.position ts) (hstart : ¬ (argv = [] ∧ sub = .null))
    (hlen : argv.length ≤ maxtokens) (hfuel : ts.length < fuel) :
    ∃ c st', cmdParse fuel argv f sub st = .ok (c, st') ∧ (c ≠ .null → ∃ parts ts',
      ts = partsTokens parts ++ ts' ∧ Reads st'.position ts' ∧ (sub ≠ .null → words parts = []) ∧
      (argv ++ words parts).length ≤ maxtokens ∧
      c = .mk (argv ++ words parts) (redirected f (redirs parts)) sub .cmdEnd .null) := by
  induction fuel generalizing st ts argv f with
  | zero => exact absurd hfuel (Nat.not_lt_zero _)
  | succ fuel ih =>
    by_cases hf : Follows ts
    · refine ⟨_, _, cmdParse_done hts hf, fun _ => ⟨[], ts, rfl, hts, fun _ => rfl, ?_, ?_⟩⟩
      · rwa [words, List.append_nil]
      · rw [if_neg hstart, words, List.append_nil]
        rfl
    obtain ⟨t, ts, rfl, ht⟩ := exists_of_not_follows hf
    obtain ⟨q, hget, hproper, hst'⟩ := hts.get_cons st
    rw [List.length_cons, Nat.succ_lt_succ_iff] at hfuel
    by_cases hnormal : t.type = .tokNormal
    · rw [cmdParse_word hget hnormal]
      split_ifs with hbad
      · exact ⟨.null, _, rfl, fun h => absurd rfl h⟩
      obtain ⟨hroom, hsub⟩ := not_or.mp hbad
      have hstart' : ¬ (argv ++ [t.buffer] = [] ∧ sub = .null) := by simp
      have hlen' : (argv ++ [t.buffer]).length ≤ maxtokens := by
        rw [List.length_append, List.length_singleton]
        omega
      obtain ⟨c, st'', hrun, hc⟩ := @ih ⟨q, some st.position⟩ _ _ f hst' hstart' hlen' hfuel
      refine ⟨c, st'', hrun, fun hne => ?_⟩
      obtain ⟨parts, ts', rfl, hts', hwords, hfits, rfl⟩ := hc hne
      rw [List.append_assoc, List.singleton_append] at hfits
      refine ⟨.word t.buffer :: parts, ts', ?_, hts', fun h => absurd h hsub, hfits, ?_⟩
      · exact congrArg (· :: (partsTokens parts ++ ts')) (hproper.eq_word hnormal)
      rw [List.append_assoc, List.singleton_append]
      rfl
    by_cases hredir : t.type.isRedirection = true
    · by_cases hfile : ∃ w ts', ts = word w :: ts'
      · obtain ⟨w, ts, rfl⟩ := hfile
        obtain ⟨q', hget', -, hst''⟩ := hst'.get_cons ⟨q, some st.position⟩
        rw [cmdParse_redir hget hredir hget' rfl hstart]
        rw [List.length_cons] at hfuel
        obtain ⟨c, st'', hrun, hc⟩ :=
          @ih ⟨q', some q⟩ _ _ _ hst'' hstart hlen (Nat.lt_of_succ_lt hfuel)
        refine ⟨c, st'', hrun, fun hne => ?_⟩
        obtain ⟨parts, ts', rfl, hts', hwords, hfits, rfl⟩ := hc hne
        have htoken : t = (redirType t.type.fd).token :=
          (hproper.eq_token hnormal).trans (congrArg TokenType.token (eq_redirType hredir))
        exact ⟨.redir ⟨t.type.fd, w⟩ :: parts, ts',
          congrArg (· :: word w :: (partsTokens parts ++ ts')) htoken, hts', hwords, hfits, rfl⟩
      · have hnot : (parseGettoken ⟨q, some st.position⟩).1.type ≠ .tokNormal :=
          @type_ne_tokNormal_of_reads ⟨q, some st.position⟩ ts hst' fun w ts' h => hfile ⟨w, ts', h⟩
        obtain ⟨st', heq⟩ := cmdParse_redir_null hget hredir (.inr hnot)
        exact ⟨.null, st', heq, fun h => absurd rfl h⟩
    -- What is left is a parenthesis, after a word or a subshell.
    · have hopen : t.type = .tokOpenParen := by
        simpa [TokenType.continues, hnormal, hredir] using ht
      refine ⟨.null, ⟨q, some st.position⟩, ?_, fun h => absurd rfl h⟩
      rw [cmdParse_open hget hopen, if_pos (by tauto)]

/-- The rest of a command that has a word or a subshell, for the words and redirections of a
derivation. -/
theorem cmdParse_parts {parts : List Part} {p q r : Text} {l : Option Text}
    (hts : Scans p (partsTokens parts) q) (hnext : Gives q t r) (ht : t.type.continues = false)
    (hstart : ¬ (argv = [] ∧ sub = .null)) (hwords : sub ≠ .null → words parts = [])
    (hlen : (argv ++ words parts).length ≤ maxtokens) (hfuel : (partsTokens parts).length < fuel) :
    cmdParse fuel argv f sub ⟨p, l⟩ =
      .ok (.mk (argv ++ words parts) (redirected f (redirs parts)) sub .cmdEnd .null,
        ⟨q, none⟩) := by
  induction parts generalizing fuel p l argv f with
  | nil =>
    obtain ⟨fuel, rfl⟩ := Nat.exists_eq_add_of_lt hfuel
    cases hts
    rw [cmdParse_back (hnext l) ht rfl, if_neg hstart, words, List.append_nil]
    rfl
  | cons part parts ih =>
    obtain ⟨fuel, rfl⟩ : ∃ n, fuel = n + 1 := ⟨fuel - 1, by omega⟩
    cases part with
    -- A word goes into `argv`, which a subshell does not have.
    | word w =>
      have hsub : sub = .null := by_contra fun h => absurd (hwords h) (List.cons_ne_nil _ _)
      cases hts with
      | cons hget _ _ hts =>
        rw [words, List.append_cons] at hlen ⊢
        have hroom : ¬ (maxtokens ≤ argv.length ∨ sub ≠ .null) := by
          simp only [List.length_append, List.length_singleton] at hlen
          rintro (h | h)
          · omega
          · exact h hsub
        rw [cmdParse_word (hget l) rfl, if_neg hroom]
        exact ih hts (by simp) (fun h => absurd hsub h) hlen (Nat.lt_of_succ_lt_succ hfuel)
    -- A redirection takes a second token, the file name.
    | redir r =>
      cases hts with
      | cons hget _ _ hts =>
        cases hts with
        | cons hget' _ _ hts =>
          rw [cmdParse_redir (hget l) (isRedirection_redirType r.fd) (hget' _) rfl hstart]
          have hfd : (redirType r.fd).token.type.fd = r.fd := fd_redirType r.fd
          rw [hfd]
          exact ih hts hstart hwords hlen (Nat.lt_of_succ_lt (Nat.lt_of_succ_lt_succ hfuel))

/-! ## The turns of `cmd_line_parse` -/

/-- What ends a line: the end of the input, or a closing parenthesis when the line is in
parentheses. The last argument is what is left to read. -/
inductive Stops : Bool → List Token → List Token → Prop
  | atEnd : Stops false [] []
  | atParen (ts : List Token) : Stops true (TokenType.tokCloseParen.token :: ts) ts

/-- The token at which the parser takes a line to be at its end, if it does. -/
def endType : List Token → Option TokenType
  | [] => some .tokEnd
  | t :: _ => if t.type = .tokCloseParen then some .tokCloseParen else none

/-- The token at the end of a list is read, and the list stops there. -/
theorem get_endType (st : ParseState) (hts : Reads st.position ts) {e : TokenType}
    (he : endType ts = some e) :
    ∃ t st', parseGettoken st = (t, st') ∧ t.type = e ∧ (e = .tokEnd ∨ e = .tokCloseParen) ∧
      ∃ ts', Reads st'.position ts' ∧ Stops (e = .tokCloseParen) ts ts' := by
  cases ts with
  | nil =>
    obtain rfl := Option.some.inj he
    exact ⟨_, _, hts.get_nil st, rfl, .inl rfl, [], hts, .atEnd⟩
  | cons t ts =>
    obtain ⟨q, hget, hproper, hq⟩ := hts.get_cons st
    simp only [endType] at he
    split_ifs at he with ht
    obtain rfl := Option.some.inj he
    have hparen : t = TokenType.tokCloseParen.token := by
      rw [hproper.eq_token (by rw [ht]; exact TokenType.noConfusion), ht]
    exact ⟨t, _, hget, ht, .inr rfl, ts, hq, hparen ▸ .atParen ts⟩

/-- Where a list does not end, another token is read. -/
theorem get_of_endType_eq_none (st : ParseState) (hts : Reads st.position ts)
    (he : endType ts = none) :
    ∃ t q, parseGettoken st = (t, ⟨q, some st.position⟩) ∧
      ¬ (t.type = .tokEnd ∨ t.type = .tokCloseParen) := by
  cases ts with
  | nil => cases he
  | cons t ts =>
    obtain ⟨q, hget, hproper, hq⟩ := hts.get_cons st
    simp only [endType] at he
    split_ifs at he with ht
    exact ⟨t, q, hget, not_or.mpr ⟨hproper.ne_tokEnd, ht⟩⟩

/-- A separator does not join two commands. -/
theorem joins_of_separates {type : TokenType} (h : type.separates = true) : type.joins = false := by
  cases type <;> first | rfl | cases h

/-- An operator does not continue a command. -/
theorem continues_of_operator {type : TokenType} (h : type.joins = true ∨ type.separates = true) :
    type.continues = false := by
  cases type <;> first | rfl | (rcases h with h | h <;> cases h)

/-- An operator is no word. -/
theorem ne_tokNormal_of_operator {type : TokenType}
    (h : type.joins = true ∨ type.separates = true) :
    type ≠ .tokNormal :=
  (continues_eq_false_iff.mp (continues_of_operator h)).1

section Turn

variable {st₁ : ParseState} {controlop : ControlOp} {next : Command}
  (hcmd : cmdParse fuel [] (fun _ => none) .null st = .ok (.mk argv f sub controlop next, st₁))
include hcmd

/-- A turn at the last command of a line, with no operator after it. -/
theorem cmdLineParse_end {st' : ParseState} (hget : parseGettoken st₁ = (t, st'))
    (ht : t.type = .tokEnd ∨ t.type = .tokCloseParen) (inParens : Bool) :
    cmdLineParse (fuel + 1) inParens st =
      .ok (ender inParens t.type argv f sub controlop, st') := by
  have hneither : t.type.joins = false ∧ t.type.separates = false := by
    rcases ht with h | h <;> rw [h] <;> exact ⟨rfl, rfl⟩
  rw [cmdLineParse, hcmd]
  simp only [bind, Except.bind, hget, hneither, Bool.false_eq_true, if_false, if_pos ht]

/-- A turn at the last command of a line, with an operator after it. -/
theorem cmdLineParse_separator_end {st₂ st' : ParseState} {after : Token}
    (hget : parseGettoken st₁ = (t, st₂)) (hsep : t.type.separates = true)
    (hget' : parseGettoken st₂ = (after, st'))
    (hafter : after.type = .tokEnd ∨ after.type = .tokCloseParen) (inParens : Bool) :
    cmdLineParse (fuel + 1) inParens st =
      .ok (ender inParens after.type argv f sub t.type.controlop, st') := by
  rw [cmdLineParse, hcmd]
  simp only [bind, Except.bind, hget, joins_of_separates hsep, Bool.false_eq_true, if_false, hsep,
    if_true, hget', if_pos hafter]

/-- A turn at a command in front of `&&`, `||` or `|`. -/
theorem cmdLineParse_joins {st' : ParseState} (hget : parseGettoken st₁ = (t, st'))
    (hjoins : t.type.joins = true) (inParens : Bool) : cmdLineParse (fuel + 1) inParens st =
      cmdLineParse fuel inParens st' >>= fun rest =>
        .ok (linked argv f sub t.type.controlop rest) := by
  rw [cmdLineParse, hcmd]
  simp only [bind, Except.bind, hget, hjoins, if_true]

/-- A turn at a command in front of `;` or `&`: the token after it is looked at and given back. -/
theorem cmdLineParse_separates {st₂ st' : ParseState} {after : Token} {p : Text}
    (hget : parseGettoken st₁ = (t, st₂)) (hsep : t.type.separates = true)
    (hget' : parseGettoken st₂ = (after, st'))
    (hafter : ¬ (after.type = .tokEnd ∨ after.type = .tokCloseParen))
    (hlast : st'.lastPosition = some p) (inParens : Bool) :
    cmdLineParse (fuel + 1) inParens st = cmdLineParse fuel inParens ⟨p, none⟩ >>= fun rest =>
      .ok (linked argv f sub t.type.controlop rest) := by
  rw [cmdLineParse, hcmd]
  simp only [bind, Except.bind, hget, joins_of_separates hsep, Bool.false_eq_true, if_false, hsep,
    if_true, hget', if_neg hafter, parseUngettoken, hlast]

/-- A turn at a token that cannot follow a command. -/
theorem cmdLineParse_bad {st' : ParseState} (hget : parseGettoken st₁ = (t, st'))
    (hjoins : t.type.joins = false) (hsep : t.type.separates = false)
    (hend : ¬ (t.type = .tokEnd ∨ t.type = .tokCloseParen)) (inParens : Bool) :
    cmdLineParse (fuel + 1) inParens st = .ok (.null, st') := by
  rw [cmdLineParse, hcmd]
  simp only [bind, Except.bind, hget, hjoins, hsep, Bool.false_eq_true, if_false, if_neg hend]

end Turn

/-! ## What the parser returns is a derivation -/

/-- The operator and the next command are linked to a command afterwards. -/
theorem Cmd.command_eq (d : Cmd) :
    ∃ argv f sub, ∀ controlop next, d.command controlop next = .mk argv f sub controlop next := by
  cases d with
  | simple first parts => exact ⟨_, _, _, fun _ _ => rfl⟩
  | paren line redirs => exact ⟨_, _, _, fun _ _ => rfl⟩

/-- A command is spelled with some token. -/
theorem Cmd.tokens_ne_nil (d : Cmd) : d.tokens ≠ [] := by
  cases d <;> exact List.cons_ne_nil _ _

/-- A line has a command. -/
theorem Line.command_ne_null (l : Line) : l.command ≠ .null := by
  cases l with
  | last d | ended d op | cons d op l =>
    obtain ⟨argv, f, sub, heq⟩ := d.command_eq
    rw [Line.command, heq]
    exact Command.noConfusion

/-- With `fuel` steps, `cmd_parse` returns; what it returns, if not `NULL`, is the command of a
derivation. -/
def CmdSound (fuel : ℕ) : Prop :=
  ∀ st ts, Reads st.position ts → 2 * ts.length + 1 ≤ fuel →
    ∃ c st', cmdParse fuel [] (fun _ => none) .null st = .ok (c, st') ∧ (c ≠ .null →
      ∃ d ts', ts = Cmd.tokens d ++ ts' ∧ Reads st'.position ts' ∧ d.Fits ∧
        c = d.command .cmdEnd .null)

/-- With `fuel` steps, `cmd_line_parse` returns; what it returns, if not `NULL`, is the list of a
derivation. -/
def LineSound (fuel : ℕ) : Prop :=
  ∀ inParens st ts, Reads st.position ts → 2 * ts.length + 2 ≤ fuel →
    ∃ c st', cmdLineParse fuel inParens st = .ok (c, st') ∧ (c ≠ .null →
      ∃ l tail ts', ts = Line.tokens l ++ tail ∧ Stops inParens tail ts' ∧
        Reads st'.position ts' ∧ l.Fits ∧ c = l.command)

/-- If `cmd_line_parse` is sound, `cmd_parse` is with one step more. -/
theorem LineSound.cmdSound (h : LineSound fuel) : CmdSound (fuel + 1) := by
  intro st ts hts hfuel
  by_cases hf : Follows ts
  · exact ⟨.null, _, cmdParse_done hts hf, fun h => absurd rfl h⟩
  obtain ⟨t, ts, rfl, ht⟩ := exists_of_not_follows hf
  obtain ⟨q, hget, hproper, hst'⟩ := hts.get_cons st
  rw [List.length_cons] at hfuel
  -- The first token decides: a word, a redirection (an error here), or a subshell.
  by_cases hnormal : t.type = .tokNormal
  · have hroom : ¬ (maxtokens ≤ ([] : List Text).length ∨ Command.null ≠ .null) := by decide
    have hstart : ¬ ([] ++ [t.buffer] = [] ∧ Command.null = .null) := by simp
    obtain ⟨c, st'', hrun, hc⟩ := @cmdParse_parts_sound fuel ⟨q, some st.position⟩ ts _
      (fun _ => none) _ hst' hstart (by simp [maxtokens]) (by omega)
    rw [cmdParse_word hget hnormal, if_neg hroom]
    refine ⟨c, st'', hrun, fun hne => ?_⟩
    obtain ⟨parts, ts', rfl, hts', -, hfits, rfl⟩ := hc hne
    refine ⟨.simple t.buffer parts, ts', ?_, hts', hfits, ?_⟩
    · exact congrArg (· :: (partsTokens parts ++ ts')) (hproper.eq_word hnormal)
    · rw [redirected_none]
      rfl
  by_cases hredir : t.type.isRedirection = true
  · obtain ⟨st', heq⟩ := cmdParse_redir_null hget hredir (.inl ⟨rfl, rfl⟩)
    exact ⟨.null, st', heq, fun h => absurd rfl h⟩
  · have hopen : t.type = .tokOpenParen := by
      simpa [TokenType.continues, hnormal, hredir] using ht
    have htoken : t = TokenType.tokOpenParen.token :=
      (hproper.eq_token hnormal).trans (congrArg TokenType.token hopen)
    rw [cmdParse_open hget hopen, if_neg (by simp)]
    obtain ⟨sub, st₁, hsub, hline⟩ := h true ⟨q, some st.position⟩ ts hst' (by omega)
    rw [hsub]
    by_cases hnull : sub = .null
    · exact ⟨.null, st₁, if_pos hnull, fun h => absurd rfl h⟩
    obtain ⟨l, tail, ts', rfl, hstops, hts', hfits, rfl⟩ := hline hnull
    -- The list of a subshell stops at the parenthesis, and redirections may follow it.
    cases hstops with
    | atParen ts' =>
      have hstart : ¬ (([] : List Text) = [] ∧ l.command = .null) := fun h => hnull h.2
      simp only [List.length_append, List.length_cons] at hfuel
      obtain ⟨c, st'', hrun, hc⟩ := @cmdParse_parts_sound fuel st₁ ts' _ (fun _ => none) _ hts'
        hstart (by decide) (by omega)
      refine ⟨c, st'', (if_neg hnull).trans hrun, fun hne => ?_⟩
      obtain ⟨parts, ts'', rfl, hts'', hwords, -, rfl⟩ := hc hne
      have hparts := map_redir_redirs (hwords hnull)
      refine ⟨.paren l (redirs parts), ts'', ?_, hts'', hfits, ?_⟩
      · rw [Cmd.tokens, hparts, htoken]
        simp
      · rw [redirected_none, hwords hnull]
        rfl

/-- What `ender` returns, when it is no error. -/
theorem of_ender_ne_null {inParens : Bool} {e : TokenType} {controlop : ControlOp}
    (he : e = .tokEnd ∨ e = .tokCloseParen) (h : ender inParens e argv f sub controlop ≠ .null) :
    decide (e = .tokCloseParen) = inParens ∧
      ender inParens e argv f sub controlop = .mk argv f sub controlop .null := by
  unfold ender at h ⊢
  split_ifs at h ⊢ with hend hop
  · exact absurd rfl h
  · exact absurd rfl h
  · refine ⟨?_, rfl⟩
    rcases he with rfl | rfl <;> cases inParens <;> simp_all

/-- If both functions are sound, `cmd_line_parse` is with one step more. -/
theorem LineSound.succ (h : LineSound fuel) (hcmd : CmdSound fuel) : LineSound (fuel + 1) := by
  intro inParens st ts hts hfuel
  obtain ⟨c, st₁, hrun, hc⟩ := hcmd st ts hts (by omega)
  by_cases hnull : c = .null
  · refine ⟨.null, st₁, ?_, fun h => absurd rfl h⟩
    rw [cmdLineParse, hrun, hnull]
    rfl
  obtain ⟨d, ts₁, rfl, hts₁, hfits, rfl⟩ := hc hnull
  obtain ⟨argv, f, sub, heq⟩ := d.command_eq
  rw [heq] at hrun
  have hpos := List.length_pos_of_ne_nil d.tokens_ne_nil
  rw [List.length_append] at hfuel
  -- After the command the list ends, or an operator follows.
  cases he : endType ts₁ with
  | some e =>
    obtain ⟨t, st', hget, rfl, hend, ts', hst', hstops⟩ := get_endType st₁ hts₁ he
    refine ⟨_, st', cmdLineParse_end hrun hget hend inParens, fun hne => ?_⟩
    obtain ⟨rfl, hender⟩ := of_ender_ne_null hend hne
    exact ⟨.last d, ts₁, ts', rfl, hstops, hst', hfits, by rw [hender, Line.command, heq]⟩
  | none =>
    obtain ⟨t, ts₂, rfl⟩ : ∃ t ts₂, ts₁ = t :: ts₂ := by
      cases ts₁ with
      | nil => cases he
      | cons t ts₂ => exact ⟨t, ts₂, rfl⟩
    obtain ⟨q, hget, hproper, hq⟩ := hts₁.get_cons st₁
    rw [List.length_cons] at hfuel
    by_cases hop : t.type.joins = true ∨ t.type.separates = true
    · have htoken : t = t.type.token := hproper.eq_token (ne_tokNormal_of_operator hop)
      -- A separator may be the last token of the list; the other operators need a command.
      by_cases hgo : t.type.joins = true ∨ t.type.separates = true ∧ endType ts₂ = none
      · obtain ⟨st', hst', hline⟩ : ∃ st', Reads st'.position ts₂ ∧
            cmdLineParse (fuel + 1) inParens st = cmdLineParse fuel inParens st' >>= fun rest =>
              .ok (linked argv f sub t.type.controlop rest) := by
          rcases hgo with hjoins | ⟨hsep, hend⟩
          · exact ⟨_, hq, cmdLineParse_joins hrun hget hjoins inParens⟩
          · obtain ⟨after, q', hget', hnot⟩ :=
              get_of_endType_eq_none ⟨q, some st₁.position⟩ hq hend
            exact ⟨_, hq, cmdLineParse_separates hrun hget hsep hget' hnot rfl inParens⟩
        obtain ⟨c, st₂, hrest, hc⟩ := h inParens st' ts₂ hst' (by omega)
        rw [hline, hrest]
        by_cases hnull : c = .null
        · exact ⟨.null, st₂, by simp [bind, Except.bind, linked, hnull], fun h => absurd rfl h⟩
        obtain ⟨l, tail, ts', rfl, hstops, hts', hfits', rfl⟩ := hc hnull
        refine ⟨_, st₂, by simp [bind, Except.bind, linked, hnull]; rfl, fun _ => ?_⟩
        refine ⟨.cons d ⟨t.type, hop⟩ l, tail, ts', ?_, hstops, hts', ⟨hfits, hfits'⟩, ?_⟩
        · rw [Line.tokens, ← htoken]
          simp
        · rw [Line.command, heq]
      · obtain ⟨hjoins, hends⟩ := not_or.mp hgo
        have hsep := hop.resolve_left hjoins
        obtain ⟨e, he₂⟩ := Option.ne_none_iff_exists'.mp fun h => hends ⟨hsep, h⟩
        obtain ⟨after, st', hget', rfl, hend, ts', hst', hstops⟩ :=
          get_endType ⟨q, some st₁.position⟩ hq he₂
        refine ⟨_, st', cmdLineParse_separator_end hrun hget hsep hget' hend inParens,
          fun hne => ?_⟩
        obtain ⟨rfl, hender⟩ := of_ender_ne_null hend hne
        refine ⟨.ended d ⟨t.type, hsep⟩, ts₂, ts', ?_, hstops, hst', hfits, ?_⟩
        · rw [Line.tokens, ← htoken]
          simp
        · rw [hender, Line.command, heq]
    · obtain ⟨hjoins, hsep⟩ := not_or.mp hop
      have hparen : t.type ≠ .tokCloseParen := fun h => by simp [endType, h] at he
      exact ⟨.null, _, cmdLineParse_bad hrun hget (Bool.eq_false_iff.mpr hjoins)
        (Bool.eq_false_iff.mpr hsep) (not_or.mpr ⟨hproper.ne_tokEnd, hparen⟩) inParens,
        fun h => absurd rfl h⟩

/-- `cmd_line_parse` is sound with any number of steps. -/
theorem lineSound (fuel : ℕ) : LineSound fuel := by
  have hboth : LineSound fuel ∧ CmdSound fuel := by
    induction fuel with
    | zero => exact ⟨fun _ _ _ _ h => absurd h (by omega), fun _ _ _ h => absurd h (by omega)⟩
    | succ fuel ih => exact ⟨ih.1.succ ih.2, ih.1.cmdSound⟩
  exact hboth.1

/-! ## Every derivation is what the parser returns -/

/-- The operator of a separator is one that a list may end with. -/
theorem controlop_of_separates {type : TokenType} (h : type.separates = true) :
    type.controlop = .cmdEnd ∨ type.controlop = .cmdSemicolon ∨
    type.controlop = .cmdBackground := by
  cases type <;> first | decide | cases h

/-- The token that ends a line, at the top or in parentheses. -/
def endToken (inParens : Bool) : Token :=
  if inParens then TokenType.tokCloseParen.token else ⟨.tokEnd, []⟩

/-- `cmd_parse` returns the command of `d` wherever its tokens stand in front of one that ends the
command, with enough steps. -/
def CmdReturns (d : Cmd) : Prop := ∀ (fuel : ℕ) (p q r : Text) (l : Option Text) (t : Token),
  Scans p d.tokens q → Gives q t r → t.type.continues = false → 2 * d.tokens.length + 1 ≤ fuel →
    cmdParse fuel [] (fun _ => none) .null ⟨p, l⟩ = .ok (d.command .cmdEnd .null, ⟨q, none⟩)

/-- `cmd_line_parse` returns the list of `line` wherever its tokens stand in front of the token that
ends it, with enough steps. -/
def LineReturns (line : Line) : Prop :=
  ∀ (fuel : ℕ) (inParens : Bool) (p q r : Text) (l : Option Text), Scans p line.tokens q →
    Gives q (endToken inParens) r → 2 * line.tokens.length + 2 ≤ fuel →
      cmdLineParse fuel inParens ⟨p, l⟩ = .ok (line.command, ⟨r, some q⟩)

/-- `cmd_line_parse` returns the list of `l` wherever its tokens stand, with enough steps. -/
def LineComplete (l : Line) : Prop := ∀ fuel st inParens tail ts,
  Reads st.position (l.tokens ++ tail) → Stops inParens tail ts →
  2 * (l.tokens ++ tail).length + 2 ≤ fuel → ∃ st', Reads st'.position ts ∧
    cmdLineParse fuel inParens st = .ok (l.command, st')

/-- The token at the end of a list ends it. -/
theorem endToken_ends (inParens : Bool) :
    (endToken inParens).type = .tokEnd ∨ (endToken inParens).type = .tokCloseParen := by
  cases inParens
  · exact .inl rfl
  · exact .inr rfl

/-- The token at the end of a list does not continue a command. -/
theorem continues_endToken (inParens : Bool) : (endToken inParens).type.continues = false := by
  cases inParens <;> rfl

/-- `ender` at the token that ends the line it is in. -/
theorem ender_endToken (inParens : Bool) {controlop : ControlOp}
    (hop : controlop = .cmdEnd ∨ controlop = .cmdSemicolon ∨ controlop = .cmdBackground) :
    ender inParens (endToken inParens).type argv f sub controlop =
      .mk argv f sub controlop .null := by
  unfold ender
  rw [if_neg (by cases inParens <;> decide), if_neg (by tauto)]

/-- A line starts with a word or a parenthesis. -/
theorem Line.exists_gives (line : Line) {p q : Text} (h : Scans p line.tokens q) :
    ∃ t r, Gives p t r ∧ ¬ (t.type = .tokEnd ∨ t.type = .tokCloseParen) := by
  have hhead : ∃ t ts, line.tokens = t :: ts ∧ ¬ (t.type = .tokEnd ∨ t.type = .tokCloseParen) := by
    cases line with
    | last d | ended d op | cons d op l =>
      cases d <;> exact ⟨_, _, rfl, by simp [word, TokenType.token]⟩
  obtain ⟨t, ts, htokens, ht⟩ := hhead
  rw [htokens] at h
  cases h with
  | cons hget _ _ _ => exact ⟨t, _, hget, ht⟩

/-- `cmd_parse` returns the command of a word and what follows it. -/
theorem cmdReturns_simple {first : Text} {parts : List Part}
    (hfits : (Cmd.simple first parts).Fits) :
    CmdReturns (.simple first parts) := by
  intro fuel p q r l t hts hnext ht hfuel
  obtain ⟨fuel, rfl⟩ : ∃ n, fuel = n + 1 := ⟨fuel - 1, by omega⟩
  cases hts with
  | cons hget _ _ hts =>
    have hroom : ¬ (maxtokens ≤ ([] : List Text).length ∨ Command.null ≠ .null) := by decide
    have hstart : ¬ ([] ++ [first] = [] ∧ Command.null = .null) := by simp
    simp only [Cmd.tokens, List.length_cons] at hfuel
    have hparts := @cmdParse_parts fuel t ([] ++ [first])
      (fun _ => none) .null parts _ q r (some p) hts
      hnext ht hstart (fun h => absurd rfl h) hfits (by omega)
    have hfirst : (word first).buffer = first := rfl
    rw [cmdParse_word (hget l) rfl, if_neg hroom, hfirst, hparts, redirected_none]
    rfl

/-- `cmd_parse` returns the command of a subshell, when `cmd_line_parse` returns its list. -/
theorem LineReturns.paren {line : Line} {rs : List Redir} (h : LineReturns line) :
    CmdReturns (.paren line rs) := by
  intro fuel p q r l t hts hnext ht hfuel
  obtain ⟨fuel, rfl⟩ : ∃ n, fuel = n + 1 := ⟨fuel - 1, by omega⟩
  simp only [Cmd.tokens, List.length_cons, List.length_append] at hfuel
  cases hts with
  | cons hget _ _ hts =>
    obtain ⟨q₁, hline, hrest⟩ := scans_append.mp hts
    cases hrest with
    | cons hclose _ _ hts =>
      have hsub := h fuel true _ q₁ _ (some p) hline hclose (by omega)
      have hstart : ¬ (([] : List Text) = [] ∧ line.command = .null) :=
        fun h => line.command_ne_null h.2
      have hparts := @cmdParse_parts fuel t [] (fun _ => none) line.command (rs.map .redir) _ q r
        (some q₁) hts hnext ht hstart (fun _ => words_map_redir rs) (by simp) (by omega)
      rw [cmdParse_open (hget l) rfl, if_neg (by simp), hsub]
      simp only [Except.bind, if_neg line.command_ne_null, hparts, redirected_none,
        redirs_map_redir, words_map_redir]
      rfl

/-- A last command is a list. -/
theorem CmdReturns.last {d : Cmd} (h : CmdReturns d) : LineReturns (.last d) := by
  intro fuel inParens p q r l hts hend hfuel
  obtain ⟨fuel, rfl⟩ : ∃ n, fuel = n + 1 := ⟨fuel - 1, by omega⟩
  obtain ⟨argv, f, sub, heq⟩ := d.command_eq
  have hrun := h fuel p q r l _ hts hend (continues_endToken inParens)
    (Nat.le_of_succ_le_succ hfuel)
  rw [heq] at hrun
  rw [cmdLineParse_end hrun (hend _) (endToken_ends inParens), ender_endToken inParens (.inl rfl),
    Line.command, heq]

/-- A command with a terminator is a list. -/
theorem CmdReturns.ended {d : Cmd} (h : CmdReturns d) (op : Terminator) :
    LineReturns (.ended d op) := by
  intro fuel inParens p q r l hts hend hfuel
  obtain ⟨fuel, rfl⟩ : ∃ n, fuel = n + 1 := ⟨fuel - 1, by omega⟩
  obtain ⟨argv, f, sub, heq⟩ := d.command_eq
  obtain ⟨q₁, hd, hrest⟩ := scans_append.mp hts
  rw [Line.tokens, List.length_append] at hfuel
  cases hrest with
  | cons hop _ _ hnil =>
    cases hnil
    have hrun := h fuel p q₁ q l _ hd hop (continues_of_operator (.inr op.2)) (by omega)
    rw [heq] at hrun
    rw [cmdLineParse_separator_end hrun (hop _) op.2 (hend _) (endToken_ends inParens)]
    have hender := @ender_endToken argv f sub inParens _ (controlop_of_separates op.2)
    rw [show op.1.token.type = op.1 by rfl, hender, Line.command, heq]

/-- A command, an operator, and a list are a list. -/
theorem CmdReturns.cons {d : Cmd} (h : CmdReturns d) {line : Line} (hl : LineReturns line)
    (op : Operator) : LineReturns (.cons d op line) := by
  intro fuel inParens p q r l hts hend hfuel
  obtain ⟨fuel, rfl⟩ : ∃ n, fuel = n + 1 := ⟨fuel - 1, by omega⟩
  obtain ⟨argv, f, sub, heq⟩ := d.command_eq
  obtain ⟨q₁, hd, hrest⟩ := scans_append.mp hts
  rw [Line.tokens, List.length_append, List.length_cons] at hfuel
  cases hrest with
  | @cons _ q₂ _ _ _ hop _ _ hline =>
    have hrun := h fuel p q₁ q₂ l _ hd hop (continues_of_operator op.2) (by omega)
    rw [heq] at hrun
    have hcommand : (Line.cons d op line).command = .mk argv f sub op.1.controlop line.command := by
      rw [Line.command, heq]
    -- The token after the operator is looked at and given back when the operator may end a line.
    rcases op.2 with hjoins | hsep
    · rw [cmdLineParse_joins hrun (hop _) hjoins, hl fuel inParens q₂ q r _ hline hend (by omega),
        hcommand]
      simp only [bind, Except.bind, linked, if_neg line.command_ne_null]
      rfl
    · obtain ⟨after, q₃, hget, hafter⟩ := line.exists_gives hline
      rw [cmdLineParse_separates hrun (hop _) hsep (hget _) hafter rfl,
        hl fuel inParens q₂ q r _ hline hend (by omega), hcommand]
      simp only [bind, Except.bind, linked, if_neg line.command_ne_null]
      rfl

mutual

/-- `cmd_parse` returns the command of every derivation that fits the arrays. -/
theorem Cmd.returns : ∀ d : Cmd, d.Fits → CmdReturns d
  | .simple _ _, hfits => cmdReturns_simple hfits
  | .paren line _, hfits => (line.returns hfits).paren

/-- `cmd_line_parse` returns the list of every derivation that fits the arrays. -/
theorem Line.returns : ∀ l : Line, l.Fits → LineReturns l
  | .last d, hfits => (d.returns hfits).last
  | .ended d op, hfits => (d.returns hfits).ended op
  | .cons d op l, hfits => (d.returns hfits.1).cons (l.returns hfits.2) op

end

/-- A whole line of the grammar that fits the arrays is parsed. -/
theorem Line.complete (line : Line) (hfits : line.Fits) : LineComplete line := by
  intro fuel st inParens tail ts hts hstops hfuel
  obtain ⟨p, l⟩ := st
  obtain ⟨q, hline, htail⟩ := reads_append hts
  obtain ⟨r, hend, hr⟩ : ∃ r, Gives q (endToken inParens) r ∧ Reads r ts := by
    cases hstops with
    | atEnd =>
      cases htail with
      | nil hget => exact ⟨q, hget, .nil hget⟩
    | atParen ts =>
      cases htail with
      | cons hget _ _ hts => exact ⟨_, hget, hts⟩
  rw [List.length_append] at hfuel
  exact ⟨⟨r, some q⟩, hr, line.returns hfits fuel inParens p q r l hline hend (by omega)⟩

/-! ## The trees of the grammar -/

/-- What `cmd_print` and `cmd_exec` rely on, at every level: a command is a list of words or a
subshell, and the last command of a list has no operator after it that needs another command. -/
def Command.WellFormed : Command → Prop
  | .null => True
  | .mk argv _ subshell controlop next =>
    (argv = [] ↔ subshell ≠ .null) ∧ argv.length ≤ maxtokens ∧
      (next = .null →
        controlop = .cmdEnd ∨ controlop = .cmdSemicolon ∨ controlop = .cmdBackground) ∧
      (next ≠ .null → controlop ≠ .cmdEnd) ∧ subshell.WellFormed ∧ next.WellFormed

/-- An operator is not the mark of the last command. -/
theorem controlop_ne_cmdEnd {type : TokenType} (h : type.joins = true ∨ type.separates = true) :
    type.controlop ≠ .cmdEnd := by
  cases type <;> first | decide | (rcases h with h | h <;> cases h)

mutual

/-- The command of a derivation is well-formed when what comes behind it is. -/
theorem Cmd.wellFormed_command : ∀ d : Cmd, d.Fits → ∀ {controlop : ControlOp} {next : Command},
    (next = .null → controlop = .cmdEnd ∨ controlop = .cmdSemicolon ∨ controlop = .cmdBackground) →
    (next ≠ .null → controlop ≠ .cmdEnd) → next.WellFormed → (d.command controlop next).WellFormed
  | .simple _ _, hfits, _, _, hnull, hnext, hwf =>
    ⟨by simp, hfits, hnull, hnext, trivial, hwf⟩
  | .paren line _, hfits, _, _, hnull, hnext, hwf =>
    ⟨by simp [line.command_ne_null], Nat.zero_le _, hnull, hnext, line.wellFormed_command hfits,
      hwf⟩

/-- The tree of a derivation is well-formed. -/
theorem Line.wellFormed_command : ∀ l : Line, l.Fits → l.command.WellFormed
  | .last d, hfits => d.wellFormed_command hfits (fun _ => .inl rfl) (fun h => absurd rfl h) trivial
  | .ended d op, hfits => d.wellFormed_command hfits (fun _ => controlop_of_separates op.2)
      (fun h => absurd rfl h) trivial
  | .cons d op l, hfits => d.wellFormed_command hfits.1 (fun h => absurd h l.command_ne_null)
      (fun _ => controlop_ne_cmdEnd op.2) (l.wellFormed_command hfits.2)

end

/-- A well-formed tree can be printed. -/
theorem cmdPrint_ok {c : Command} (h : c.WellFormed) (indent : ℕ) :
    ∃ out, cmdPrint c indent = .ok out := by
  induction c generalizing indent with
  | null => exact ⟨_, rfl⟩
  | mk argv f subshell controlop next ihsub ihnext =>
    obtain ⟨-, -, hlast, -, hsub, hnext⟩ := h
    obtain ⟨inner, hinner⟩ := ihsub hsub (indent + 2)
    obtain ⟨after, hafter⟩ := ihnext hnext indent
    rw [cmdPrint, hinner, hafter]
    by_cases hnull : next = .null
    · have hop : controlop = .cmdEnd ∨ controlop = .cmdBackground ∨ controlop = .cmdSemicolon :=
        (hlast hnull).imp_right Or.symm
      by_cases hnone : subshell = .null <;>
        exact ⟨_, by simp only [hnull, hnone, if_true, if_false, if_pos hop]; rfl⟩
    · by_cases hnone : subshell = .null <;>
        exact ⟨_, by simp only [hnull, hnone, if_true, if_false]; rfl⟩

/-- **The parser accepts its grammar and builds its tree.** On a line without `TOK_ERROR` it
returns, and no `assert` fails; the list is that of the derivation of the line, if it has one, and
`NULL` if not. -/
theorem cmdLineParse_accepts {line : Text} (hline : ∀ t ∈ lineTokens line, t.type ≠ .tokError)
    {fuel : ℕ} (hfuel : 2 * line.length + 2 ≤ fuel) :
    ∃ c st, cmdLineParse fuel false (parseInit line) = .ok (c, st) ∧
      (c ≠ .null ↔ ∃ l : Line, l.Fits ∧ l.tokens = lineTokens line) ∧
      (∀ l : Line, l.Fits → l.tokens = lineTokens line → c = l.command) ∧
      c.WellFormed ∧ ∀ indent, ∃ out, cmdPrint c indent = .ok out := by
  have hreads := reads_lineTokens hline
  have henough : 2 * (lineTokens line).length + 2 ≤ fuel := by
    have hle := hreads.length_le
    omega
  obtain ⟨c, st, hrun, hc⟩ := lineSound fuel false (parseInit line) _ hreads henough
  -- The tree of any derivation is what the parser returns.
  have htree : ∀ l : Line, l.Fits → l.tokens = lineTokens line → c = l.command := by
    intro l hfits htokens
    have htail : l.tokens ++ [] = lineTokens line := (List.append_nil _).trans htokens
    rw [← htail] at hreads henough
    obtain ⟨st', -, hrun'⟩ :=
      l.complete hfits fuel (parseInit line) false [] [] hreads .atEnd henough
    rw [hrun'] at hrun
    exact (Prod.mk.inj (Except.ok.inj hrun)).1.symm
  have hderivation : c ≠ .null → ∃ l : Line, l.Fits ∧ l.tokens = lineTokens line := by
    intro hne
    obtain ⟨l, tail, ts', htokens, hstops, -, hfits, -⟩ := hc hne
    cases hstops with
    | atEnd => exact ⟨l, hfits, by rw [htokens, List.append_nil]⟩
  have hwf : c.WellFormed := by
    by_cases hnull : c = .null
    · rw [hnull]
      trivial
    · obtain ⟨l, hfits, htokens⟩ := hderivation hnull
      rw [htree l hfits htokens]
      exact l.wellFormed_command hfits
  refine ⟨c, st, hrun, ⟨hderivation, ?_⟩, htree, hwf, cmdPrint_ok hwf⟩
  rintro ⟨l, hfits, htokens⟩
  rw [htree l hfits htokens]
  exact l.command_ne_null

/-- `( a ; b ) > x && c &` -/
def parenLine : Line :=
  .cons (.paren (.cons (.simple (text "a") []) ⟨.tokSemicolon, .inr rfl⟩
    (.last (.simple (text "b") []))) [⟨stdoutFileno, text "x"⟩]) ⟨.tokDoubleamp, .inl rfl⟩
    (.ended (.simple (text "c") []) ⟨.tokAmpersand, rfl⟩)

/-- The list that the parser returns for a line with a subshell. -/
theorem cmdLineParse_parenLine : ∃ st, cmdLineParse 60 false (parseInit (text "(a;b) > x && c &")) =
    .ok (parenLine.command, st) := by
  obtain ⟨c, st, hrun, -, htree, -⟩ :=
    @cmdLineParse_accepts (text "(a;b) > x && c &") (by decide +kernel) 60 (by decide)
  have hfits : parenLine.Fits := by
    simp [parenLine, Line.Fits, Cmd.Fits, words, maxtokens]
  rw [htree parenLine hfits (by decide +kernel)] at hrun
  exact ⟨st, hrun⟩

end Cs5600.Lab2
