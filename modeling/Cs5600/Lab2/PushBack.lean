import Cs5600.Lab2.TokenCalls
import Mathlib.Data.List.Infix

/-!
# Malformed tokens that are given back

The parser gives a `TOK_ERROR` back when it reads it in the place of a word or of an operator, and
not when it reads it in the place of a file name. So it is given back exactly when the tokens in
front of it begin a line of the grammar and do not end in a redirection (`restores_iff`).

`Open` says which tokens these are by what the parser is in the middle of. It is compared with the
grammar first (`open_iff`), and then with the parser.
-/

namespace Cs5600.Lab2

/-- The parser expects no file name after the tokens. -/
def EndsWell (ts : List Token) : Prop := ∀ t ∈ ts.getLast?, t.type.isRedirection = false

/-- The tokens begin a line, and a file name is not what comes next. -/
def Begins (ts : List Token) : Prop := (∃ l : Line, l.Fits ∧ ts <+: l.tokens) ∧ EndsWell ts

/-- The beginnings of a line after which the parser may give a token back: nothing, a command, or a
beginning behind a parenthesis or an operator. -/
inductive Open : List Token → Prop
  | nil : Open []
  | cmd (d : Cmd) : d.Fits → Open d.tokens
  | paren {ts : List Token} : Open ts → Open (TokenType.tokOpenParen.token :: ts)
  | cons (d : Cmd) (op : Operator) {ts : List Token} :
    d.Fits → Open ts → Open (d.tokens ++ op.1.token :: ts)

/-! ## Beginnings of lines -/

/-- The last of the tokens decide whether a file name is expected. -/
theorem EndsWell.of_append (ts : List Token) {ts' : List Token} (h : EndsWell (ts ++ ts')) :
    EndsWell ts' := by
  intro t ht
  refine h t ?_
  rw [List.getLast?_append, Option.mem_def.mp ht]
  rfl

/-- No file name is expected behind tokens whose last part expects none. -/
theorem EndsWell.append {ts' : List Token} (h : EndsWell ts') (hne : ts' ≠ []) (ts : List Token) :
    EndsWell (ts ++ ts') := by
  intro t ht
  rw [List.getLast?_append_of_ne_nil _ hne] at ht
  exact h t ht

/-- No file name is expected behind a word. -/
theorem endsWell_word (w : Text) : EndsWell [word w] := by
  intro t ht
  obtain rfl := Option.some.inj ht
  rfl

/-- No file name is expected behind words and whole redirections. -/
theorem endsWell_partsTokens (parts : List Part) : EndsWell (partsTokens parts) := by
  induction parts with
  | nil => exact fun t ht => by cases ht
  | cons part parts ih =>
    by_cases hnil : partsTokens parts = []
    · have hpart : partsTokens (part :: parts) = part.tokens :=
        (congrArg (part.tokens ++ ·) hnil).trans (List.append_nil _)
      rw [hpart]
      cases part with
      | word w => exact endsWell_word w
      | redir r =>
        exact (endsWell_word r.file).append (List.cons_ne_nil _ _) [(redirType r.fd).token]
    · exact ih.append hnil part.tokens

/-- `(` and operators are no redirections. -/
theorem endsWell_cons {t : Token} (ht : t.type.isRedirection = false) {ts : List Token}
    (h : EndsWell ts) : EndsWell (t :: ts) := by
  cases ts with
  | nil =>
    intro t' ht'
    obtain rfl := Option.some.inj ht'
    exact ht
  | cons t' ts => exact h.append (List.cons_ne_nil t' ts) [t]

/-- No file name is expected behind a command. -/
theorem Cmd.endsWell (d : Cmd) : EndsWell d.tokens := by
  cases d with
  | simple first parts => exact endsWell_cons rfl (endsWell_partsTokens parts)
  | paren line rs =>
    have hclose := endsWell_cons (t := TokenType.tokCloseParen.token) rfl
      (endsWell_partsTokens (rs.map Part.redir))
    exact endsWell_cons rfl (hclose.append (List.cons_ne_nil _ _) line.tokens)

/-- An operator is no redirection. -/
theorem isRedirection_operator (op : Operator) : op.1.token.type.isRedirection = false :=
  (continues_eq_false_iff.mp (continues_of_operator op.2)).2.1

/-- The parser may give a token back behind the beginning of a line only. -/
theorem Open.begins {ts : List Token} (h : Open ts) : Begins ts := by
  induction h with
  | nil =>
    refine ⟨⟨.last (.simple [] []), by simp [Line.Fits, Cmd.Fits, words, maxtokens],
      List.nil_prefix⟩, fun t ht => ?_⟩
    cases ht
  | cmd d hfits => exact ⟨⟨.last d, hfits, List.prefix_refl _⟩, d.endsWell⟩
  | paren _ ih =>
    obtain ⟨⟨l, hfits, hl⟩, hwell⟩ := ih
    refine ⟨⟨.last (.paren l []), hfits, ?_⟩, endsWell_cons rfl hwell⟩
    exact List.cons_prefix_cons.mpr ⟨rfl, hl.trans (List.prefix_append _ _)⟩
  | cons d op hfits _ ih =>
    obtain ⟨⟨l, hfits', hl⟩, hwell⟩ := ih
    refine ⟨⟨.cons d op l, ⟨hfits, hfits'⟩, ?_⟩, ?_⟩
    · exact (List.prefix_append_right_inj _).mpr (List.cons_prefix_cons.mpr ⟨rfl, hl⟩)
    · exact (endsWell_cons (isRedirection_operator op) hwell).append (List.cons_ne_nil _ _) d.tokens

/-- A beginning of two lists in a row. -/
theorem prefix_append_cases {xs ys ts : List Token} (h : ts <+: xs ++ ys) :
    ts <+: xs ∨ ∃ ts', ts = xs ++ ts' ∧ ts' <+: ys := by
  rcases List.prefix_or_prefix_of_prefix h (List.prefix_append xs ys) with h' | ⟨ts', rfl⟩
  · exact .inl h'
  · exact .inr ⟨ts', rfl, (List.prefix_append_right_inj xs).mp h⟩

/-- A beginning of words and redirections that does not end in front of a file name. -/
theorem prefix_partsTokens {parts : List Part} {ts : List Token} (h : ts <+: partsTokens parts)
    (hwell : EndsWell ts) : ∃ k, ts = partsTokens (parts.take k) := by
  -- Induction on the parts: the beginning ends inside the first one or behind it.
  induction parts generalizing ts with
  | nil => exact ⟨0, List.prefix_nil.mp h⟩
  | cons part parts ih =>
    have happ : ts <+: part.tokens ++ partsTokens parts := h
    rcases prefix_append_cases happ with hpart | hrest
    · -- The beginning ends within the first part, so before it or behind it.
      have hcases : ts = [] ∨ ts = part.tokens := by
        cases part with
        | word w =>
          rcases List.prefix_cons_iff.mp hpart with rfl | ⟨t, rfl, ht⟩
          · exact .inl rfl
          · exact .inr (congrArg (word w :: ·) (List.prefix_nil.mp ht))
        | redir r =>
          rcases List.prefix_cons_iff.mp hpart with rfl | ⟨t, rfl, ht⟩
          · exact .inl rfl
          rcases List.prefix_cons_iff.mp ht with rfl | ⟨t', rfl, ht'⟩
          -- It cannot end on the operator, which wants its file name.
          · have hno : (redirType r.fd).isRedirection = false := hwell _ rfl
            rw [isRedirection_redirType] at hno
            cases hno
          · exact .inr
              (congrArg ((redirType r.fd).token :: word r.file :: ·) (List.prefix_nil.mp ht'))
      rcases hcases with rfl | rfl
      · exact ⟨0, rfl⟩
      · exact ⟨1, (List.append_nil _).symm⟩
    · obtain ⟨ts', rfl, hts'⟩ := hrest
      obtain ⟨k, rfl⟩ := ih hts' (hwell.of_append part.tokens)
      exact ⟨k + 1, rfl⟩

/-- Some of the parts have at most as many words as all. -/
theorem length_words_take_le (parts : List Part) (k : ℕ) :
    (words (parts.take k)).length ≤ (words parts).length := by
  induction parts generalizing k with
  | nil => simp
  | cons part parts ih =>
    cases k with
    | zero => exact Nat.zero_le _
    | succ k =>
      cases part with
      | word w => exact Nat.succ_le_succ (ih k)
      | redir r => exact ih k

mutual

/-- The parser may give a token back behind the beginning of a command, if it expects no file
name. -/
theorem Cmd.open_of_prefix : ∀ d : Cmd, d.Fits → ∀ ts, ts <+: d.tokens → EndsWell ts → Open ts
  | .simple first parts, hfits, ts, hts, hwell => by
    rcases List.prefix_cons_iff.mp hts with rfl | ⟨ts', rfl, hts'⟩
    · exact .nil
    · obtain ⟨k, rfl⟩ := prefix_partsTokens hts' (hwell.of_append [word first])
      exact .cmd (.simple first (parts.take k))
        ((Nat.succ_le_succ (length_words_take_le parts k)).trans hfits)
  | .paren line rs, hfits, ts, hts, hwell => by
    rcases List.prefix_cons_iff.mp hts with rfl | ⟨ts', rfl, hts'⟩
    · exact .nil
    have hwell' := hwell.of_append [TokenType.tokOpenParen.token]
    -- The beginning ends inside the inner line, before the parenthesis, or among the
    -- redirections.
    rcases prefix_append_cases hts' with hline | ⟨ts₁, rfl, hts₁⟩
    · exact .paren (line.open_of_prefix hfits ts' hline hwell')
    rcases List.prefix_cons_iff.mp hts₁ with rfl | ⟨ts₂, rfl, hts₂⟩
    · rw [List.append_nil] at hwell' ⊢
      exact .paren (line.open_of_prefix hfits _ (List.prefix_refl _) hwell')
    · have hwell₂ : EndsWell ts₂ :=
        (hwell'.of_append line.tokens).of_append [TokenType.tokCloseParen.token]
      obtain ⟨k, rfl⟩ := prefix_partsTokens hts₂ hwell₂
      rw [← List.map_take]
      exact .cmd (.paren line (rs.take k)) hfits

/-- The parser may give a token back behind the beginning of a line, if it expects no file name. -/
theorem Line.open_of_prefix : ∀ l : Line, l.Fits → ∀ ts, ts <+: l.tokens → EndsWell ts → Open ts
  | .last d, hfits, ts, hts, hwell => d.open_of_prefix hfits ts hts hwell
  | .ended d op, hfits, ts, hts, hwell => by
    rcases prefix_append_cases hts with hd | ⟨ts', rfl, hts'⟩
    · exact d.open_of_prefix hfits ts hd hwell
    rcases List.prefix_cons_iff.mp hts' with rfl | ⟨ts₁, rfl, hts₁⟩
    · rw [List.append_nil]
      exact .cmd d hfits
    · rw [List.prefix_nil.mp hts₁]
      exact .cons d ⟨op.1, .inr op.2⟩ hfits .nil
  | .cons d op l, hfits, ts, hts, hwell => by
    rcases prefix_append_cases hts with hd | ⟨ts', rfl, hts'⟩
    · exact d.open_of_prefix hfits.1 ts hd hwell
    rcases List.prefix_cons_iff.mp hts' with rfl | ⟨ts₁, rfl, hts₁⟩
    · rw [List.append_nil]
      exact .cmd d hfits.1
    · have hwell₁ : EndsWell ts₁ := (hwell.of_append d.tokens).of_append [op.1.token]
      exact .cons d op hfits.1 (l.open_of_prefix hfits.2 ts₁ hts₁ hwell₁)

end

/-- The parser may give a token back behind exactly the beginnings of lines after which it expects
no file name. -/
theorem open_iff (ts : List Token) : Open ts ↔ Begins ts := by
  refine ⟨Open.begins, ?_⟩
  rintro ⟨⟨l, hfits, hl⟩, hwell⟩
  exact l.open_of_prefix hfits ts hl hwell

/-! ## What the parser has read when it gives a malformed token back -/

/-- Without calls no error token is given back. -/
theorem not_givesBackError_nil : ¬ GivesBackError [] := fun h => by cases h

/-- A token that is only read is not given back. -/
theorem not_givesBackError_get (start : Text) (t : Token) : ¬ GivesBackError [.get start t] := by
  intro h
  cases h with
  | there h => exact not_givesBackError_nil h

/-- A token that is no error is not the one that is given back. -/
theorem givesBackError_cons_ne {start : Text} {t : Token} {calls : List TokenCall}
    (ht : t.type ≠ .tokError) (h : GivesBackError (.get start t :: calls)) :
    GivesBackError calls := by
  cases h with
  | here => exact absurd rfl ht
  | there h => exact h

/-- A token that is no error is given back. -/
theorem not_givesBackError_back {start : Text} {t : Token} {last : Option Text}
    (ht : t.type ≠ .tokError) : ¬ GivesBackError [.get start t, .unget last] := by
  intro h
  cases givesBackError_cons_ne ht h with
  | there h => exact not_givesBackError_nil h

/-- A part of the run that starts with `parse_gettoken` gives back its own tokens only. -/
theorem givesBackError_append {calls calls' : List TokenCall}
    (hcalls' : ∀ last after, calls' ≠ .unget last :: after)
    (h : GivesBackError (calls ++ calls')) : GivesBackError calls ∨ GivesBackError calls' := by
  induction calls with
  | nil => exact .inr h
  | cons call calls ih =>
    rw [List.cons_append] at h
    generalize hrest : calls ++ calls' = rest at h
    cases h with
    | here =>
      cases calls with
      | nil => exact absurd hrest (hcalls' _ _)
      | cons c calls =>
        rw [List.cons_append] at hrest
        obtain rfl := (List.cons.inj hrest).1
        exact .inl .here
    | there h =>
      rw [← hrest] at h
      exact (ih h).imp_left .there

/-- `cmd_parse` reads a token before it gives one back. -/
theorem cmdParseCalls_ne_unget (fuel : ℕ) (argv : List Text) (sub : Command) (st : ParseState)
    (last : Option Text) (after : List TokenCall) :
    cmdParseCalls fuel argv sub st ≠ .unget last :: after := by
  obtain ⟨_, hcalls, -⟩ := cmdParse_calls fuel argv (fun _ => none) sub st
  exact hcalls.head_ne_unget last after

/-! ### The rest of a command -/

variable {fuel : ℕ} {argv : List Text} {f : Fin 3 → Option Text} {sub : Command} {p q : Text}
  {l : Option Text} {ts : List Token}

/-- Words and redirections that may follow in a command with these words and this subshell. -/
def MayFollow (argv : List Text) (sub : Command) (parts : List Part) : Prop :=
  (sub ≠ .null → words parts = []) ∧ (argv ++ words parts).length ≤ maxtokens

/-- Nothing may follow. -/
theorem MayFollow.nil (h : argv.length ≤ maxtokens) : MayFollow argv sub [] :=
  ⟨fun _ => rfl, by rwa [words, List.append_nil]⟩

/-- A word may follow where there is no subshell. -/
theorem MayFollow.word {t : Token} {parts : List Part} (hsub : sub = .null)
    (h : MayFollow (argv ++ [t.buffer]) sub parts) :
    MayFollow argv sub (.word t.buffer :: parts) := by
  obtain ⟨-, hlen⟩ := h
  rw [List.append_assoc, List.singleton_append] at hlen
  exact ⟨fun h => absurd hsub h, hlen⟩

/-- A run gives a `TOK_ERROR` back, or returns a command or a list. -/
def Fruitful (calls : List TokenCall) (result : Except Fault (Command × ParseState)) : Prop :=
  GivesBackError calls ∨ ∃ c st, result = .ok (c, st) ∧ c ≠ .null

/-- A run gives no `TOK_ERROR` back and leaves the tokens `ts` in front of the one at `q`. -/
def Leaves (calls : List TokenCall) (result : Except Fault (Command × ParseState)) (ts : List Token)
    (q : Text) : Prop :=
  ¬ GivesBackError calls ∧ ∀ c st, result = .ok (c, st) → Scans st.position ts q

/-- Parsing to NULL without giving back an error is not fruitful. -/
theorem not_fruitful {calls : List TokenCall} {st : ParseState} (h : ¬ GivesBackError calls) :
    ¬ Fruitful calls (.ok (.null, st)) := by
  rintro (hback | ⟨c, st', hok, hne⟩)
  · exact h hback
  · exact hne (Prod.mk.inj (Except.ok.inj hok)).1.symm

section

variable {start : Text} {t : Token} {calls : List TokenCall}
  {result : Except Fault (Command × ParseState)}

/-- Parsing is as fruitful behind a good token. -/
theorem Fruitful.of_get (ht : t.type ≠ .tokError) (h : Fruitful (.get start t :: calls) result) :
    Fruitful calls result := h.imp_left (givesBackError_cons_ne ht)

/-- Parsing leaves off at the same place behind a good token. -/
theorem Leaves.get (ht : t.type ≠ .tokError) (h : Leaves calls result ts q) :
    Leaves (.get start t :: calls) result ts q :=
  ⟨fun hback => h.1 (givesBackError_cons_ne ht hback), h.2⟩

end

section

variable {calls : List TokenCall} {result : Except Fault (Command × ParseState)}
  {after : Command → ParseState → List TokenCall}
  {run : Command × ParseState → Except Fault (Command × ParseState)}
  (hafter : ∀ c st last rest, after c st ≠ .unget last :: rest)
include hafter

/-- A run in two parts, of which the second is made when the first returns something. -/
theorem Fruitful.cases (hnull : ∀ st, run (.null, st) = .ok (.null, st))
    (h : Fruitful (calls ++ callsAfter result fun c st => if c = .null then [] else after c st)
      (result >>= run)) :
    GivesBackError calls ∨ ∃ c st, result = .ok (c, st) ∧ c ≠ .null ∧
      Fruitful (after c st) (run (c, st)) := by
  -- Either the token is given back in `calls` already, or the parser goes on.
  cases result with
  | error e =>
    rw [callsAfter, List.append_nil] at h
    rcases h with h | ⟨c, st, hok, -⟩
    · exact .inl h
    · cases hok
  | ok r =>
    obtain ⟨c, st⟩ := r
    simp only [callsAfter] at h
    by_cases hc : c = .null
    · rw [if_pos hc, List.append_nil] at h
      rcases h with h | ⟨c', st', hok, hne⟩
      · exact .inl h
      · have hrun : run (c, st) = .ok (c', st') := hok
        rw [hc, hnull] at hrun
        exact absurd (Prod.mk.inj (Except.ok.inj hrun)).1.symm hne
    · rw [if_neg hc] at h
      rcases h with h | h
      · exact (givesBackError_append (hafter c st) h).imp_right fun h => ⟨c, st, rfl, hc, .inl h⟩
      · exact .inr ⟨c, st, rfl, hc, .inr h⟩

/-- Parsing leaves off where its second part does. -/
theorem Leaves.append {c : Command} {st : ParseState} (hcalls : ¬ GivesBackError calls)
    (hresult : result = .ok (c, st)) (hc : c ≠ .null) (h : Leaves (after c st) (run (c, st)) ts q) :
    Leaves (calls ++ callsAfter result fun c st => if c = .null then [] else after c st)
      (result >>= run) ts q := by
  rw [hresult, callsAfter, if_neg hc]
  exact ⟨fun hback => (givesBackError_append (hafter c st) hback).elim hcalls h.1, h.2⟩

end

/-- The rest of a command: when its run is fruitful, it has read words and redirections, up to the
`TOK_ERROR` or up to what it leaves. -/
theorem cmdParse_parts_read (hts : Scans p ts q) (hstart : ¬ (argv = [] ∧ sub = .null))
    (hq : AtError q) (hlen : argv.length ≤ maxtokens)
    (h : Fruitful (cmdParseCalls fuel argv sub ⟨p, l⟩) (cmdParse fuel argv f sub ⟨p, l⟩)) :
    ∃ parts ts', ts = partsTokens parts ++ ts' ∧ MayFollow argv sub parts ∧
      (ts' = [] ∨
        Leaves (cmdParseCalls fuel argv sub ⟨p, l⟩) (cmdParse fuel argv f sub ⟨p, l⟩) ts' q) := by
  induction fuel generalizing p l ts argv f with
  | zero =>
    rcases h with h | ⟨c, st, h, -⟩
    · exact absurd h not_givesBackError_nil
    · rw [cmdParse] at h
      cases h
  | succ fuel ih =>
    cases hts with
    | nil => exact ⟨[], [], rfl, .nil hlen, .inl rfl⟩
    | @cons _ q₁ _ t ts hget hproper hlt hts =>
      by_cases ht : t.type.continues = false
      · -- The token ends the command and is given back.
        rw [cmdParseCalls_back (hget l) ht, cmdParse_back (hget l) ht rfl]
        refine ⟨[], t :: ts, rfl, .nil hlen, .inr ⟨not_givesBackError_back hproper.ne_tokError, ?_⟩⟩
        intro c st hok
        rw [← (Prod.mk.inj (Except.ok.inj hok)).2]
        exact .cons hget hproper hlt hts
      by_cases hnormal : t.type = .tokNormal
      · rw [cmdParseCalls_word (hget l) hnormal, cmdParse_word (hget l) hnormal] at h ⊢
        by_cases hbad : maxtokens ≤ argv.length ∨ sub ≠ .null
        · rw [if_pos hbad, if_pos hbad] at h
          exact absurd h (not_fruitful (not_givesBackError_get _ _))
        rw [if_neg hbad, if_neg hbad] at h ⊢
        obtain ⟨hroom, hsub⟩ := not_or.mp hbad
        have hlen' : (argv ++ [t.buffer]).length ≤ maxtokens := by
          rw [List.length_append, List.length_singleton]
          omega
        obtain ⟨parts, ts', rfl, hfollow, hleft⟩ :=
          ih hts (by simp) hlen' (h.of_get hproper.ne_tokError)
        refine ⟨.word t.buffer :: parts, ts', ?_, hfollow.word (not_not.mp hsub),
          hleft.imp_right (.get hproper.ne_tokError)⟩
        exact congrArg (· :: (partsTokens parts ++ ts')) (hproper.eq_word hnormal)
      by_cases hredir : t.type.isRedirection = true
      · cases hts with
        | nil =>
          -- The `TOK_ERROR` stands in the place of the file name.
          have hnot : (parseGettoken ⟨q, some p⟩).1.type ≠ .tokNormal := by
            rw [hq]
            exact TokenType.noConfusion
          obtain ⟨st, hrun⟩ := cmdParse_redir_null (hget l) hredir (.inr hnot)
          have herr : (⟨.tokError, []⟩ : Token).type ≠ .tokNormal := TokenType.noConfusion
          rw [cmdParseCalls_redir (hget l) hredir (hq (some p)), hrun, if_neg hstart,
            if_pos herr] at h
          exact absurd (h.of_get hproper.ne_tokError) (not_fruitful (not_givesBackError_get _ _))
        | @cons _ q₂ _ file ts hget' hproper' hlt' hts =>
          rw [cmdParseCalls_redir (hget l) hredir (hget' (some p)), if_neg hstart] at h ⊢
          by_cases hfile : file.type = .tokNormal
          · rw [if_neg (not_not.mpr hfile),
              cmdParse_redir (hget l) hredir (hget' (some p)) hfile hstart] at h ⊢
            obtain ⟨parts, ts', rfl, hfollow, hleft⟩ := ih hts hstart hlen
              ((h.of_get hproper.ne_tokError).of_get hproper'.ne_tokError)
            refine ⟨.redir ⟨t.type.fd, file.buffer⟩ :: parts, ts', ?_, hfollow,
              hleft.imp_right fun h =>
              (h.get hproper'.ne_tokError).get hproper.ne_tokError⟩
            have htoken : t = (redirType t.type.fd).token :=
              (hproper.eq_token hnormal).trans (congrArg TokenType.token (eq_redirType hredir))
            exact congrArg₂ (fun t file => t :: file :: (partsTokens parts ++ ts')) htoken
              (hproper'.eq_word hfile)
          · have hnot : (parseGettoken ⟨q₁, some p⟩).1.type ≠ .tokNormal := by rwa [hget']
            obtain ⟨st, hrun⟩ := cmdParse_redir_null (hget l) hredir (.inr hnot)
            rw [if_pos hfile, hrun] at h
            exact absurd (h.of_get hproper.ne_tokError) (not_fruitful (not_givesBackError_get _ _))
      · -- A parenthesis, after a word or a subshell.
        have hopen : t.type = .tokOpenParen := by
          simpa [TokenType.continues, hnormal, hredir] using ht
        rw [cmdParseCalls_open (hget l) hopen, cmdParse_open (hget l) hopen, if_pos (by tauto),
          if_pos (by tauto)] at h
        exact absurd h (not_fruitful (not_givesBackError_get _ _))

/-! ### Commands and lines -/

/-- What a fruitful run of `cmd_parse` has read. -/
def CmdRead (fuel : ℕ) : Prop := ∀ (p q : Text) (l : Option Text) (ts : List Token),
  Scans p ts q → AtError q →
    Fruitful (cmdParseCalls fuel [] .null ⟨p, l⟩) (cmdParse fuel [] (fun _ => none) .null ⟨p, l⟩) →
      Open ts ∨ ∃ (d : Cmd) (ts' : List Token), d.Fits ∧ ts = d.tokens ++ ts' ∧
        Leaves (cmdParseCalls fuel [] .null ⟨p, l⟩)
          (cmdParse fuel [] (fun _ => none) .null ⟨p, l⟩) ts' q

/-- What a fruitful run of `cmd_line_parse` has read: a line in parentheses, if not up to the
`TOK_ERROR`. -/
def LineRead (fuel : ℕ) : Prop :=
  ∀ (inParens : Bool) (p q : Text) (l : Option Text) (ts : List Token), Scans p ts q → AtError q →
    Fruitful (cmdLineParseCalls fuel inParens ⟨p, l⟩) (cmdLineParse fuel inParens ⟨p, l⟩) →
      Open ts ∨ ∃ (line : Line) (ts' : List Token), line.Fits ∧
        ts = line.tokens ++ TokenType.tokCloseParen.token :: ts' ∧ inParens = true ∧
          Leaves (cmdLineParseCalls fuel inParens ⟨p, l⟩) (cmdLineParse fuel inParens ⟨p, l⟩) ts' q

/-- A command that leaves nothing ends in front of the `TOK_ERROR`. -/
theorem open_or_exists {d : Cmd} {ts' : List Token} {P : Prop} (hfits : d.Fits)
    (h : ts' = [] ∨ P) : Open (d.tokens ++ ts') ∨ P := by
  rcases h with rfl | h
  · rw [List.append_nil]
    exact .inl (.cmd d hfits)
  · exact .inr h

/-- If fruitful runs of `cmd_line_parse` have read what they say, so have those of `cmd_parse` with
one step more. -/
theorem LineRead.cmdRead (ih : LineRead fuel) : CmdRead (fuel + 1) := by
  intro p q l ts hts hq h
  cases hts with
  | nil => exact .inl .nil
  | @cons _ q₁ _ t ts hget hproper hlt hts =>
    -- A token that begins no command is given back, and it is not the error.
    by_cases ht : t.type.continues = false
    · rw [cmdParseCalls_back (hget l) ht, cmdParse_back (hget l) ht rfl, if_pos ⟨rfl, rfl⟩] at h
      exact absurd h (not_fruitful (not_givesBackError_back hproper.ne_tokError))
    -- A word: the rest of a simple command.
    by_cases hnormal : t.type = .tokNormal
    · have hroom : ¬ (maxtokens ≤ ([] : List Text).length ∨ Command.null ≠ .null) := by decide
      rw [cmdParseCalls_word (hget l) hnormal, cmdParse_word (hget l) hnormal, if_neg hroom,
        if_neg hroom] at h ⊢
      obtain ⟨parts, ts', rfl, hfollow, hleft⟩ := cmdParse_parts_read hts (by simp) hq
        (by simp [maxtokens]) (h.of_get hproper.ne_tokError)
      have hfits : (Cmd.simple t.buffer parts).Fits := hfollow.2
      have htoken : t :: (partsTokens parts ++ ts') = (Cmd.simple t.buffer parts).tokens ++ ts' :=
        congrArg (· :: (partsTokens parts ++ ts')) (hproper.eq_word hnormal)
      rw [htoken]
      exact (open_or_exists hfits hleft).imp_right fun hleft =>
        ⟨_, ts', hfits, rfl, hleft.get hproper.ne_tokError⟩
    by_cases hredir : t.type.isRedirection = true
    · -- There is nothing to redirect.
      obtain ⟨file, st, hget'⟩ : ∃ file st, parseGettoken ⟨q₁, some p⟩ = (file, st) := ⟨_, _, rfl⟩
      obtain ⟨st', hrun⟩ := cmdParse_redir_null (hget l) hredir (.inl ⟨rfl, rfl⟩)
      rw [cmdParseCalls_redir (hget l) hredir hget', hrun, if_pos ⟨rfl, rfl⟩] at h
      exact absurd h (not_fruitful (not_givesBackError_get _ _))
    -- A parenthesis: an inner line, then redirections.
    · have hopen : t.type = .tokOpenParen := by
        simpa [TokenType.continues, hnormal, hredir] using ht
      have htoken : t = TokenType.tokOpenParen.token :=
        (hproper.eq_token hnormal).trans (congrArg TokenType.token hopen)
      have hfresh : ¬ (Command.null ≠ .null ∨ ([] : List Text) ≠ []) := by simp
      have hunget := fun inner st => cmdParseCalls_ne_unget fuel [] inner st
      rw [cmdParseCalls_open (hget l) hopen, cmdParse_open (hget l) hopen, if_neg hfresh,
        if_neg hfresh] at h ⊢
      have hcases := (h.of_get hproper.ne_tokError).cases hunget fun st => if_pos rfl
      have hline : Fruitful (cmdLineParseCalls fuel true ⟨q₁, some p⟩)
          (cmdLineParse fuel true ⟨q₁, some p⟩) := by
        refine hcases.imp_right fun hread => ?_
        obtain ⟨inner, st, hok, hne, -⟩ := hread
        exact ⟨inner, st, hok, hne⟩
      rcases ih true q₁ q (some p) ts hts hq hline with hts | ⟨line, ts', hfits, rfl, -, hleaves⟩
      · rw [htoken]
        exact .inl (.paren hts)
      obtain ⟨inner, st, hok, hne, hrest⟩ := hcases.resolve_left hleaves.1
      rw [if_neg hne] at hrest
      have hst := hleaves.2 inner st hok
      obtain ⟨p', l'⟩ := st
      obtain ⟨parts, ts', rfl, hfollow, hleft⟩ :=
        cmdParse_parts_read hst (fun h => hne h.2) hq (Nat.zero_le _) hrest
      -- The tokens of the inner line and what follows it are those of the command in parentheses.
      have htokens :
        t :: (line.tokens ++ TokenType.tokCloseParen.token :: (partsTokens parts ++ ts')) =
          (Cmd.paren line (redirs parts)).tokens ++ ts' := by
        rw [Cmd.tokens, map_redir_redirs (hfollow.1 hne), htoken]
        simp
      rw [htokens]
      refine (open_or_exists (d := .paren line (redirs parts)) hfits hleft).imp_right fun hleft =>
        ⟨.paren line (redirs parts), ts', hfits, rfl,
          .get hproper.ne_tokError (.append hunget hleaves.1 hok hne ?_)⟩
      rwa [if_neg hne]

/-- The calls of `cmd_line_parse` after a command, at the state it leaves. -/
def afterCmd (fuel : ℕ) (inParens : Bool) (st₁ : ParseState) : List TokenCall :=
  let (token, st₂) := parseGettoken st₁
  .get st₁.position token ::
    if token.type.joins then cmdLineParseCalls fuel inParens st₂
    else if token.type.separates then
      let (after, st₃) := parseGettoken st₂
      .get st₂.position after ::
        if after.type = .tokEnd ∨ after.type = .tokCloseParen then []
        else
          .unget st₃.lastPosition :: st₃.lastPosition.elim [] fun p =>
            cmdLineParseCalls fuel inParens ⟨p, none⟩
    else []

/-- Linking a command in front does not make parsing fruitful. -/
theorem Fruitful.of_linked {calls : List TokenCall} {result : Except Fault (Command × ParseState)}
    {op : ControlOp}
    (h : Fruitful calls (result >>= fun rest => .ok (linked argv f sub op rest))) :
    Fruitful calls result := by
  rcases h with h | ⟨c, st, hok, hne⟩
  · exact .inl h
  cases result with
  | error e => cases hok
  | ok rest =>
    obtain ⟨c', st'⟩ := rest
    refine .inr ⟨c', st', rfl, fun hnull => hne ?_⟩
    have heq : linked argv f sub op (c', st') = (c, st) := Except.ok.inj hok
    rw [linked, if_pos hnull] at heq
    exact (Prod.mk.inj heq).1.symm

/-- Linking a command in front does not move the place where parsing leaves off. -/
theorem Leaves.linked {calls : List TokenCall} {result : Except Fault (Command × ParseState)}
    {op : ControlOp} (h : Leaves calls result ts q) :
    Leaves calls (result >>= fun rest => .ok (linked argv f sub op rest)) ts q := by
  refine ⟨h.1, fun c st hok => ?_⟩
  cases result with
  | error e => cases hok
  | ok rest =>
    obtain ⟨c', st'⟩ := rest
    have heq : Lab2.linked argv f sub op (c', st') = (c, st) := Except.ok.inj hok
    have hstate := linked_snd argv f sub op (c', st')
    rw [heq] at hstate
    rw [show st = st' by exact hstate]
    exact h.2 c' st' rfl

/-- A run that ends a line. -/
theorem ender_read {calls : List TokenCall} {inParens : Bool} {e : TokenType} {op : ControlOp}
    {st : ParseState} (he : e = .tokCloseParen) (hcalls : ¬ GivesBackError calls)
    (hst : Scans st.position ts q) (h : Fruitful calls (.ok (ender inParens e argv f sub op, st))) :
    inParens = true ∧ Leaves calls (.ok (ender inParens e argv f sub op, st)) ts q := by
  refine ⟨?_, hcalls, fun c st' hok => ?_⟩
  · obtain ⟨c, st', hok, hne⟩ := h.resolve_left hcalls
    rw [← (Prod.mk.inj (Except.ok.inj hok)).1] at hne
    rw [← (of_ender_ne_null (.inr he) hne).1, he]
    rfl
  · rw [← (Prod.mk.inj (Except.ok.inj hok)).2]
    exact hst

/-- What a turn of `cmd_line_parse` reads after a command. -/
theorem LineRead.after (ih : LineRead fuel) {inParens : Bool} {st₁ : ParseState} {d : Cmd}
    {op : ControlOp} {next : Command} (hfits : d.Fits) (hq : AtError q)
    (hts : Scans st₁.position ts q)
    (hcmd : cmdParse fuel [] (fun _ => none) .null ⟨p, l⟩ = .ok (.mk argv f sub op next, st₁))
    (h : Fruitful (afterCmd fuel inParens st₁) (cmdLineParse (fuel + 1) inParens ⟨p, l⟩)) :
    Open (d.tokens ++ ts) ∨ ∃ (line : Line) (ts' : List Token), line.Fits ∧
      d.tokens ++ ts = line.tokens ++ TokenType.tokCloseParen.token :: ts' ∧ inParens = true ∧
        Leaves (afterCmd fuel inParens st₁) (cmdLineParse (fuel + 1) inParens ⟨p, l⟩) ts' q := by
  obtain ⟨p₁, l₁⟩ := st₁
  cases hts with
  | nil =>
    rw [List.append_nil]
    exact .inl (.cmd d hfits)
  | @cons _ q₁ _ t ts hget hproper hlt hts =>
    have hend : ¬ t.type = .tokEnd := hproper.ne_tokEnd
    by_cases hop : t.type.joins = true ∨ t.type.separates = true
    · have htoken : t = t.type.token := hproper.eq_token (ne_tokNormal_of_operator hop)
      -- The rest of the list, wherever the last position is.
      have hnext : ∀ l₂, Fruitful (cmdLineParseCalls fuel inParens ⟨q₁, l₂⟩)
          (cmdLineParse fuel inParens ⟨q₁, l₂⟩) → Open (d.tokens ++ t :: ts) ∨
            ∃ (line : Line) (ts' : List Token), line.Fits ∧
              d.tokens ++ t :: ts = line.tokens ++ TokenType.tokCloseParen.token :: ts' ∧
                inParens = true ∧ Leaves (cmdLineParseCalls fuel inParens ⟨q₁, l₂⟩)
                  (cmdLineParse fuel inParens ⟨q₁, l₂⟩) ts' q := by
        intro l₂ h₂
        refine (ih inParens q₁ q l₂ ts hts hq h₂).imp (fun hopen => ?_) ?_
        · rw [htoken]
          exact .cons d ⟨t.type, hop⟩ hfits hopen
        · rintro ⟨line, ts', hfits', rfl, hinside, hleaves⟩
          refine ⟨.cons d ⟨t.type, hop⟩ line, ts', ⟨hfits, hfits'⟩, ?_, hinside, hleaves⟩
          rw [Line.tokens, ← htoken, List.append_assoc, List.cons_append]
      by_cases hjoins : t.type.joins = true
      · have hcalls : afterCmd fuel inParens ⟨p₁, l₁⟩ =
            .get p₁ t :: cmdLineParseCalls fuel inParens ⟨q₁, some p₁⟩ := by
          simp only [afterCmd, hget l₁, if_pos hjoins]
        rw [hcalls, cmdLineParse_joins hcmd (hget l₁) hjoins] at h ⊢
        refine (hnext (some p₁) (h.of_get hproper.ne_tokError).of_linked).imp_right ?_
        rintro ⟨line, ts', hfits', heq, hinside, hleaves⟩
        exact ⟨line, ts', hfits', heq, hinside, hleaves.linked.get hproper.ne_tokError⟩
      have hsep := hop.resolve_left hjoins
      cases hts with
      | nil =>
        rw [htoken]
        exact .inl (.cons d ⟨t.type, hop⟩ hfits .nil)
      | @cons _ q₂ _ after ts hget' hproper' hlt' hts =>
        by_cases hparen : after.type = .tokCloseParen
        · have hcalls : afterCmd fuel inParens ⟨p₁, l₁⟩ = [.get p₁ t, .get q₁ after] := by
            simp only [afterCmd, hget l₁, if_neg hjoins, if_pos hsep, hget' (some p₁),
              if_pos (Or.inr hparen)]
          have hafter : after = TokenType.tokCloseParen.token :=
            (hproper'.eq_token (by rw [hparen]; exact TokenType.noConfusion)).trans
              (congrArg TokenType.token hparen)
          rw [hcalls, cmdLineParse_separator_end hcmd (hget l₁) hsep (hget' _) (.inr hparen)] at h ⊢
          have hnone : ¬ GivesBackError [.get p₁ t, .get q₁ after] := fun h =>
            not_givesBackError_get _ _ (givesBackError_cons_ne hproper.ne_tokError h)
          obtain ⟨hinside, hleaves⟩ := ender_read hparen hnone hts h
          refine .inr ⟨.ended d ⟨t.type, hsep⟩, ts, hfits, ?_, hinside, hleaves⟩
          rw [Line.tokens, ← htoken, hafter, List.append_assoc]
          rfl
        · -- The token after the operator is given back and read again.
          have hno : ¬ (after.type = .tokEnd ∨ after.type = .tokCloseParen) :=
            not_or.mpr ⟨hproper'.ne_tokEnd, hparen⟩
          have hcalls : afterCmd fuel inParens ⟨p₁, l₁⟩ = .get p₁ t :: .get q₁ after ::
              .unget (some q₁) :: cmdLineParseCalls fuel inParens ⟨q₁, none⟩ := by
            simp only [afterCmd, hget l₁, if_neg hjoins, if_pos hsep, hget' (some p₁), if_neg hno]
            rfl
          have hback : ∀ {calls}, GivesBackError
              (.get p₁ t :: .get q₁ after :: .unget (some q₁) :: calls) → GivesBackError calls := by
            intro calls h
            cases givesBackError_cons_ne hproper'.ne_tokError
              (givesBackError_cons_ne hproper.ne_tokError h) with
            | there h => exact h
          rw [hcalls, cmdLineParse_separates hcmd (hget l₁) hsep (hget' _) hno rfl] at h ⊢
          refine (hnext none (Fruitful.of_linked (h.imp_left hback))).imp_right ?_
          rintro ⟨line, ts', hfits', heq, hinside, hleaves⟩
          exact ⟨line, ts', hfits', heq, hinside, fun h => hleaves.1 (hback h), hleaves.linked.2⟩
    · obtain ⟨hjoins, hsep⟩ := not_or.mp hop
      have hcalls : afterCmd fuel inParens ⟨p₁, l₁⟩ = [.get p₁ t] := by
        simp only [afterCmd, hget l₁, if_neg hjoins, if_neg hsep]
      rw [hcalls] at h ⊢
      by_cases hparen : t.type = .tokCloseParen
      · have htoken : t = TokenType.tokCloseParen.token :=
          (hproper.eq_token (by rw [hparen]; exact TokenType.noConfusion)).trans
            (congrArg TokenType.token hparen)
        rw [cmdLineParse_end hcmd (hget l₁) (.inr hparen)] at h ⊢
        obtain ⟨hinside, hleaves⟩ := ender_read hparen (not_givesBackError_get _ _) hts h
        exact .inr ⟨.last d, ts, hfits, by rw [htoken]; rfl, hinside, hleaves⟩
      · rw [cmdLineParse_bad hcmd (hget l₁) (Bool.eq_false_iff.mpr hjoins)
          (Bool.eq_false_iff.mpr hsep) (not_or.mpr ⟨hend, hparen⟩)] at h
        exact absurd h (not_fruitful (not_givesBackError_get _ _))

/-- If fruitful runs of both functions have read what they say, so have those of `cmd_line_parse`
with one step more. -/
theorem LineRead.succ (ih : LineRead fuel) (ihcmd : CmdRead fuel) : LineRead (fuel + 1) := by
  intro inParens p q l ts hts hq h
  have hcalls : cmdLineParseCalls (fuel + 1) inParens ⟨p, l⟩ =
      cmdParseCalls fuel [] .null ⟨p, l⟩ ++
        callsAfter (cmdParse fuel [] (fun _ => none) .null ⟨p, l⟩) fun cmd st =>
          if cmd = .null then [] else afterCmd fuel inParens st := by
    rw [cmdLineParseCalls]
    rfl
  have hunget : ∀ (c : Command) st last rest, afterCmd fuel inParens st ≠ .unget last :: rest :=
    fun _ _ _ _ h => TokenCall.noConfusion (List.cons.inj h).1
  have hcases := h
  rw [hcalls, cmdLineParse] at hcases
  have hcases := hcases.cases hunget (by intro st; rfl)
  -- What is read of the line is read of its first command.
  have hcmd : Fruitful (cmdParseCalls fuel [] .null ⟨p, l⟩)
      (cmdParse fuel [] (fun _ => none) .null ⟨p, l⟩) := by
    refine hcases.imp_right fun hread => ?_
    obtain ⟨c, st, hok, hne, -⟩ := hread
    exact ⟨c, st, hok, hne⟩
  rcases ihcmd p q l ts hts hq hcmd with hts | ⟨d, ts, hfits, rfl, hleaves⟩
  · exact .inl hts
  obtain ⟨c, st₁, hok, hne, -⟩ := hcases.resolve_left hleaves.1
  have hst₁ := hleaves.2 c st₁ hok
  cases c with
  | null => exact absurd rfl hne
  | mk argv f sub op next =>
    -- The first command is there; what its operator asks for follows.
    rw [hcalls, hok] at h ⊢
    simp only [callsAfter, if_neg hne] at h ⊢
    have hafter : Fruitful (afterCmd fuel inParens st₁) (cmdLineParse (fuel + 1) inParens ⟨p, l⟩) :=
      h.imp_left fun h => (givesBackError_append (hunget .null st₁) h).resolve_left hleaves.1
    refine (ih.after hfits hq hst₁ hok hafter).imp_right ?_
    rintro ⟨line, ts', hfits', heq, hinside, hleaves'⟩
    refine ⟨line, ts', hfits', heq, hinside, fun hback => ?_, hleaves'.2⟩
    exact (givesBackError_append (hunget .null st₁) hback).elim hleaves.1 hleaves'.1

/-- Fruitful runs of `cmd_line_parse` have read what they say, with any number of steps. -/
theorem lineRead (fuel : ℕ) : LineRead fuel := by
  have hboth : LineRead fuel ∧ CmdRead fuel := by
    induction fuel with
    | zero =>
      refine ⟨fun inParens p q l ts _ _ h => ?_, fun p q l ts _ _ h => ?_⟩
      all_goals
        rcases h with h | ⟨c, st, h, -⟩
        · exact absurd h not_givesBackError_nil
        · simp [cmdLineParse, cmdParse] at h
    | succ fuel ih => exact ⟨ih.1.succ ih.2, ih.1.cmdRead⟩
  exact hboth.1

/-! ## The parser gives the malformed token back after every such beginning -/

/-- An error that is given back in the first calls is given back in all. -/
theorem GivesBackError.append_left {calls : List TokenCall} (h : GivesBackError calls)
    (calls' : List TokenCall) : GivesBackError (calls ++ calls') := by
  induction h with
  | here => exact .here
  | there _ ih => exact .there ih

/-- An error that is given back in the last calls is given back in all. -/
theorem GivesBackError.append_right {calls' : List TokenCall} (h : GivesBackError calls')
    (calls : List TokenCall) : GivesBackError (calls ++ calls') := by
  induction calls with
  | nil => exact h
  | cons call calls ih => exact .there ih

/-- An error that the first command gives back is given back by the list. -/
theorem cmdLineParseCalls_of_cmd {inParens : Bool} {st : ParseState}
    (h : GivesBackError (cmdParseCalls fuel [] .null st)) :
    GivesBackError (cmdLineParseCalls (fuel + 1) inParens st) := by
  rw [cmdLineParseCalls]
  exact h.append_left _

/-- A `TOK_ERROR` in the place of a token of a command, outside its redirections. -/
theorem cmdParseCalls_atError (hq : AtError q) :
    GivesBackError (cmdParseCalls (fuel + 1) argv sub ⟨q, l⟩) := by
  rw [cmdParseCalls_back (hq l) rfl]
  exact .here

/-- Behind words and redirections the rest of a command gives the error back. -/
theorem cmdParseCalls_parts {parts : List Part} (hts : Scans p (partsTokens parts) q)
    (hq : AtError q) (hstart : ¬ (argv = [] ∧ sub = .null)) (h : MayFollow argv sub parts)
    (hfuel : (partsTokens parts).length < fuel) :
    GivesBackError (cmdParseCalls fuel argv sub ⟨p, l⟩) := by
  induction parts generalizing fuel p l argv with
  -- The error token itself: it is pushed back.
  | nil =>
    obtain ⟨fuel, rfl⟩ := Nat.exists_eq_add_of_lt hfuel
    cases hts
    exact cmdParseCalls_atError hq
  | cons part parts ih =>
    obtain ⟨fuel, rfl⟩ : ∃ n, fuel = n + 1 := ⟨fuel - 1, by omega⟩
    obtain ⟨hwords, hlen⟩ := h
    cases part with
    | word w =>
      cases hts with
      | cons hget _ _ hts =>
        have hsub : sub = .null := by_contra fun h => absurd (hwords h) (List.cons_ne_nil _ _)
        rw [words, List.append_cons] at hlen
        have hroom : ¬ (maxtokens ≤ argv.length ∨ sub ≠ .null) := by
          simp only [List.length_append, List.length_singleton] at hlen
          rintro (h | h)
          · omega
          · exact h hsub
        rw [cmdParseCalls_word (hget l) rfl, if_neg hroom]
        exact .there
          (ih hts (by simp) ⟨fun h => absurd hsub h, hlen⟩ (Nat.lt_of_succ_lt_succ hfuel))
    | redir r =>
      cases hts with
      | cons hget _ _ hts =>
        cases hts with
        | cons hget' _ _ hts =>
          have hfile : ¬ (word r.file).type ≠ .tokNormal := not_not.mpr rfl
          rw [cmdParseCalls_redir (hget l) (isRedirection_redirType r.fd) (hget' _), if_neg hstart,
            if_neg hfile]
          exact .there (.there (ih hts hstart ⟨hwords, hlen⟩
            (Nat.lt_of_succ_lt (Nat.lt_of_succ_lt_succ hfuel))))

/-- The token behind a command that is whole. -/
theorem Cmd.givesBackError (d : Cmd) (hfits : d.Fits) (hts : Scans p d.tokens q) (hq : AtError q)
    (hfuel : 2 * d.tokens.length + 1 ≤ fuel) :
    GivesBackError (cmdParseCalls fuel [] .null ⟨p, l⟩) := by
  obtain ⟨fuel, rfl⟩ : ∃ n, fuel = n + 1 := ⟨fuel - 1, by omega⟩
  cases d with
  | simple first parts =>
    rw [Cmd.tokens, List.length_cons] at hfuel
    cases hts with
    | cons hget _ _ hts =>
      have hroom : ¬ (maxtokens ≤ ([] : List Text).length ∨ Command.null ≠ .null) := by decide
      rw [cmdParseCalls_word (hget l) rfl, if_neg hroom]
      exact .there (cmdParseCalls_parts hts hq (by simp) ⟨fun h => absurd rfl h, hfits⟩ (by omega))
  | paren line rs =>
    simp only [Cmd.tokens, List.length_cons, List.length_append] at hfuel
    cases hts with
    | cons hget _ _ hts =>
      -- The inner line is read as a line, so its parenthesis closes where the tree says.
      obtain ⟨q₁, hline, hrest⟩ := scans_append.mp hts
      cases hrest with
      | @cons _ q₂ _ _ _ hclose _ _ hts =>
        have hsub := line.returns hfits fuel true _ q₁ _ (some p) hline hclose (by omega)
        rw [cmdParseCalls_open (hget l) rfl, if_neg (by simp), hsub, callsAfter,
          if_neg line.command_ne_null]
        have hfollow : MayFollow [] line.command (rs.map Part.redir) :=
          ⟨fun _ => words_map_redir rs, by simp⟩
        have hparts : GivesBackError (cmdParseCalls fuel [] line.command ⟨q₂, some q₁⟩) :=
          cmdParseCalls_parts hts hq (fun h => line.command_ne_null h.2) hfollow (by omega)
        exact .there (hparts.append_right _)

/-- The token behind a beginning is no closing parenthesis. -/
theorem Open.head {t : Token} {ts : List Token} (h : Open (t :: ts)) : t.type ≠ .tokCloseParen := by
  have hcmd : ∀ (d : Cmd) (ts' : List Token), t :: ts = d.tokens ++ ts' →
    t.type ≠ .tokCloseParen := by
    intro d ts' heq
    cases d <;> rw [(List.cons.inj heq).1] <;> exact TokenType.noConfusion
  generalize hts : t :: ts = tokens at h
  cases h with
  | nil => cases hts
  | cmd d _ => exact hcmd d [] (hts.trans (List.append_nil _).symm)
  | paren _ =>
    rw [(List.cons.inj hts).1]
    exact TokenType.noConfusion
  | cons d op _ _ => exact hcmd d _ hts

/-- Where the parser may give a token back, it gives an error back. -/
theorem Open.givesBackError {ts : List Token} (h : Open ts) : ∀ {fuel : ℕ} {inParens : Bool}
    {p q : Text} {l : Option Text}, Scans p ts q → AtError q → 2 * ts.length + 2 ≤ fuel →
      GivesBackError (cmdLineParseCalls fuel inParens ⟨p, l⟩) := by
  induction h with
  -- Nothing has been read: the error token is the first one of a command.
  | nil =>
    intro fuel inParens p q l hts hq hfuel
    obtain ⟨fuel, rfl⟩ : ∃ n, fuel = n + 2 := ⟨fuel - 2, by omega⟩
    cases hts
    exact cmdLineParseCalls_of_cmd (cmdParseCalls_atError hq)
  -- It stands behind a whole command.
  | cmd d hfits =>
    intro fuel inParens p q l hts hq hfuel
    obtain ⟨fuel, rfl⟩ : ∃ n, fuel = n + 1 := ⟨fuel - 1, by omega⟩
    exact cmdLineParseCalls_of_cmd (d.givesBackError hfits hts hq (by omega))
  -- Or in a subshell that is still open.
  | paren _ ih =>
    intro fuel inParens p q l hts hq hfuel
    obtain ⟨fuel, rfl⟩ : ∃ n, fuel = n + 2 := ⟨fuel - 2, by omega⟩
    rw [List.length_cons] at hfuel
    cases hts with
    | cons hget _ _ hts =>
      refine cmdLineParseCalls_of_cmd ?_
      rw [cmdParseCalls_open (hget l) rfl, if_neg (by simp)]
      exact .there ((ih hts hq (by omega)).append_left _)
  -- Or behind an operator, where a separator reads one token more and pushes it back.
  | @cons d op ts hfits hopen ih =>
    intro fuel inParens p q l hts hq hfuel
    obtain ⟨fuel, rfl⟩ : ∃ n, fuel = n + 1 := ⟨fuel - 1, by omega⟩
    rw [List.length_append, List.length_cons] at hfuel
    obtain ⟨argv, f, sub, heq⟩ := d.command_eq
    obtain ⟨q₁, hd, hrest⟩ := scans_append.mp hts
    cases hrest with
    | @cons _ q₂ _ _ _ hget _ _ hts =>
      have hrun := d.returns hfits fuel p q₁ q₂ l _ hd hget (continues_of_operator op.2) (by omega)
      rw [heq] at hrun
      rw [cmdLineParseCalls, hrun, callsAfter, if_neg Command.noConfusion, hget]
      refine GivesBackError.append_right (.there ?_) _
      have htype : op.1.token.type = op.1 := rfl
      rw [htype]
      by_cases hjoins : op.1.joins = true
      · rw [if_pos hjoins]
        exact ih hts hq (by omega)
      rw [if_neg hjoins, if_pos (op.2.resolve_left hjoins)]
      cases hts with
      | nil =>
        rw [hq]
        exact .here
      | cons hget' hproper' hlt' hts =>
        rw [hget']
        have hno := not_or.mpr ⟨hproper'.ne_tokEnd, hopen.head⟩
        simp only [if_neg hno]
        exact .there (.there (ih (.cons hget' hproper' hlt' hts) hq (by omega)))

/-! ## The theorem -/

/-- On a line, every push-back of the parser restores the position where the call before it started,
so that the same token is read again. -/
def Restores (line : Text) : Prop :=
  ∀ fuel, PushesBack (cmdLineParseCalls fuel false (parseInit line))

/-- Where every position that the parser may go to is in front of good tokens, none is given back
that is malformed. -/
theorem TokenCalls.not_givesBackError {st : ParseState} {calls : List TokenCall}
    {result : Option ParseState} (h : TokenCalls st calls result) (hst : ∃ ts, Reads st.position ts)
    (hlast : ∀ p, st.lastPosition = some p → ∃ ts, Reads p ts) : ¬ GivesBackError calls := by
  -- One call of `parse_gettoken`: no error, and the position before is the last one.
  have hstep : ∀ {st st' : ParseState} {token : Token}, parseGettoken st = (token, st') →
      (∃ ts, Reads st.position ts) → (∃ ts, Reads st'.position ts) ∧ token.type ≠ .tokError ∧
        st'.lastPosition = some st.position := by
    rintro st st' token hget ⟨ts, hts⟩
    cases ts with
    | nil =>
      obtain ⟨rfl, rfl⟩ := Prod.mk.inj (hget.symm.trans (hts.get_nil st))
      exact ⟨⟨[], hts⟩, TokenType.noConfusion, rfl⟩
    | cons t ts =>
      obtain ⟨q, hget', hproper, hq⟩ := hts.get_cons st
      obtain ⟨rfl, rfl⟩ := Prod.mk.inj (hget.symm.trans hget')
      exact ⟨⟨ts, hq⟩, hproper.ne_tokError, rfl⟩
  induction h with
  | nil => exact not_givesBackError_nil
  | get hget _ ih =>
    obtain ⟨hst', htoken, hlast'⟩ := hstep hget hst
    refine fun h => ih hst' (fun p hp => ?_) (givesBackError_cons_ne htoken h)
    obtain rfl := Option.some.inj (hlast'.symm.trans hp)
    exact hst
  | unget hget hlast'' _ ih =>
    obtain ⟨hst', htoken, hlast'⟩ := hstep hget hst
    obtain rfl := Option.some.inj (hlast'.symm.trans hlast'')
    intro h
    cases givesBackError_cons_ne htoken h with
    | there h => exact ih hst (fun p hp => by cases hp) h
  | fails hget _ =>
    exact not_givesBackError_back (hstep hget hst).2.1

/-- **When push-backs restore.** Every push-back on a line gives back the token before it, unless
the tokens in front of a `TOK_ERROR` begin a line of the grammar and do not end in a redirection. -/
theorem restores_iff (line : Text) : Restores line ↔
    ∀ ts, lineTokens line = ts ++ [⟨.tokError, []⟩] → ¬ Begins ts := by
  have hiff : Restores line ↔
      ∀ fuel, ¬ GivesBackError (cmdLineParseCalls fuel false (parseInit line)) := by
    -- The calls of the parser restore what they give back unless that is the error.
    refine forall_congr' fun fuel => ?_
    obtain ⟨_, hcalls, -⟩ := cmdLineParse_calls fuel false (parseInit line)
    exact hcalls.pushesBack_iff fun h => by cases h
  rw [hiff]
  constructor
  · intro h ts hline hbegins
    obtain ⟨q, hts, hq⟩ := scans_lineTokens hline
    exact h _ (((open_iff ts).mpr hbegins).givesBackError hts hq le_rfl)
  · intro h fuel hback
    -- A line with an error ends in it; any other line gives none back.
    by_cases herror : ∃ ts, lineTokens line = ts ++ [⟨.tokError, []⟩]
    · obtain ⟨ts, hline⟩ := herror
      obtain ⟨q, hts, hq⟩ := scans_lineTokens hline
      rcases lineRead fuel false line q none ts hts hq
        (.inl hback) with hopen | ⟨_, _, _, _, hno, _⟩
      · exact h ts hline ((open_iff ts).mp hopen)
      · cases hno
    · obtain ⟨_, hcalls, -⟩ := cmdLineParse_calls fuel false (parseInit line)
      refine hcalls.not_givesBackError ⟨lineTokens line, reads_lineTokens ?_⟩
        (fun p hp => by cases hp) hback
      exact fun t ht herr => herror (tokensFrom_of_error ht herr)

/-- A line that starts with an unbalanced quote: the first push-back finds no last position. -/
theorem not_restores_quote : cmdLineParseCalls 2 false (parseInit (text "\"")) =
      [.get (text "\"") ⟨.tokError, []⟩, .unget none] ∧
    cmdLineParse 2 false (parseInit (text "\"")) = .error .assertion ∧ ¬ Restores (text "\"") := by
  have hget : parseGettoken (parseInit (text "\"")) = (⟨.tokError, []⟩, parseInit (text "\"")) := by
    decide +kernel
  have hcalls : cmdLineParseCalls 2 false (parseInit (text "\"")) =
      [.get (text "\"") ⟨.tokError, []⟩, .unget none] := by
    rw [cmdLineParseCalls, cmdParseCalls, cmdParse, hget]
    rfl
  refine ⟨hcalls, ?_, fun h => ?_⟩
  · rw [cmdLineParse, cmdParse, hget]
    rfl
  · obtain ⟨start, token, -, hlast, -⟩ := h 2 [.get (text "\"") ⟨.tokError, []⟩] none [] hcalls
    cases hlast

end Cs5600.Lab2
