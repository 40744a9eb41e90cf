import Cs5600.Lab2.Accept

/-!
# Lines with a malformed token

When the parser gives a `TOK_ERROR` back it goes back to the token before it, since `parse_gettoken`
has left `last_position` there, and reads on from this token. `Within` says where it can be then:
somewhere in front of the `TOK_ERROR`, and when it is right there the last position is that of the
last good token. Every turn keeps this, and no turn reads `TOK_END`, so that the parser ends with
`NULL` (`cmdLineParse_malformed`).
-/

namespace Cs5600.Lab2

/-- The parser is somewhere in a line whose last good token is `last`, between `q₀` and the
`TOK_ERROR` at `q`. The tokens up to the `TOK_ERROR` are `ts`. -/
def Within (last : Token) (q₀ q : Text) (st : ParseState) (ts : List Token) : Prop :=
  ts = [] ∧ st = ⟨q, some q₀⟩ ∨ ∃ ts', ts = ts' ++ [last] ∧ Scans st.position ts' q₀

section

variable {last : Token} {q₀ q : Text} (hlast : Gives q₀ last q) (hproper : last.Proper)
  (hq : AtError q)

/-- At its place the last token is all that is left. -/
theorem within_last (l : Option Text) : Within last q₀ q ⟨q₀, l⟩ [last] := .inr ⟨[], rfl, .nil⟩

include hlast hproper hq

/-- A call of `parse_gettoken`: the token, and where the parser is after it and after giving it
back. -/
theorem Within.get {st : ParseState} {ts : List Token} (h : Within last q₀ q st ts) :
    ∃ t st' p ts₁, parseGettoken st = (t, st') ∧ st'.lastPosition = some p ∧
      Within last q₀ q ⟨p, none⟩ ts₁ ∧
        (ts = [] ∧ t.type = .tokError ∧ p = q₀ ∧ ts₁ = [last] ∨
          t.Proper ∧ ts₁ = ts ∧ ∃ ts', ts = t :: ts' ∧ Within last q₀ q st' ts') := by
  rcases h with ⟨hts, hst⟩ | ⟨ts', rfl, hscan⟩
  · rw [hst]
    exact ⟨_, _, q₀, [last], hq (some q₀), rfl, within_last none, .inl ⟨hts, rfl, rfl, rfl⟩⟩
  obtain ⟨p, l⟩ := st
  have hback : Within last q₀ q ⟨p, none⟩ (ts' ++ [last]) := .inr ⟨ts', rfl, hscan⟩
  cases hscan with
  | nil =>
    exact ⟨last, _, p, [last], hlast l, rfl, hback,
      .inr ⟨hproper, rfl, [], rfl, .inl ⟨rfl, rfl⟩⟩⟩
  | @cons _ q₁ _ t ts' hget ht hlt hscan =>
    exact ⟨t, _, p, _, hget l, rfl, hback,
      .inr ⟨ht, rfl, ts' ++ [last], rfl, .inr ⟨ts', rfl, hscan⟩⟩⟩

/-! ## `cmd_parse` -/

variable {argv : List Text} {f : Fin 3 → Option Text} {sub : Command}

/-- The rest of a command: `cmd_parse` returns, in front of a good token when it is a command. -/
theorem cmdParse_within {fuel : ℕ} {st : ParseState} {ts : List Token} (h : Within last q₀ q st ts)
    (hstart : ¬ (argv = [] ∧ sub = .null)) (hfuel : ts.length < fuel) :
    ∃ c st', cmdParse fuel argv f sub st = .ok (c, st') ∧ (c ≠ .null →
      ∃ t ts', Within last q₀ q st' (t :: ts') ∧ ts'.length ≤ ts.length - 1) := by
  induction fuel generalizing st ts argv f with
  | zero => exact absurd hfuel (Nat.not_lt_zero _)
  | succ fuel ih =>
    obtain ⟨t, st₁, p, ts₁, hget, hp, hback, hcases⟩ := h.get hlast hproper hq
    by_cases ht : t.type.continues = false
    · refine ⟨_, _, cmdParse_back hget ht hp, fun _ => ?_⟩
      rcases hcases with ⟨-, -, -, rfl⟩ | ⟨-, rfl, ts', rfl, -⟩
      · exact ⟨last, [], hback, Nat.zero_le _⟩
      · exact ⟨t, ts', hback, le_rfl⟩
    -- The token goes into the command, so it is a good one.
    obtain ⟨-, -, ts', rfl, hst₁⟩ : t.Proper ∧ ts₁ = ts ∧ ∃ ts', ts = t :: ts' ∧
        Within last q₀ q st₁ ts' := by
      refine hcases.resolve_left fun herr => ht ?_
      rw [herr.2.1]
      rfl
    rw [List.length_cons, Nat.succ_lt_succ_iff] at hfuel
    have hless : ∀ {n : ℕ}, n ≤ ts'.length - 1 → n ≤ (t :: ts').length - 1 := by
      intro n hn
      rw [List.length_cons]
      omega
    by_cases hnormal : t.type = .tokNormal
    · rw [cmdParse_word hget hnormal]
      split_ifs
      · exact ⟨.null, st₁, rfl, fun h => absurd rfl h⟩
      · obtain ⟨c, st', hrun, hc⟩ := @ih (argv ++ [t.buffer]) f st₁ ts' hst₁ (by simp) hfuel
        refine ⟨c, st', hrun, fun hne => ?_⟩
        obtain ⟨t', ts'', hst', hlen⟩ := hc hne
        exact ⟨t', ts'', hst', hless hlen⟩
    by_cases hredir : t.type.isRedirection = true
    · obtain ⟨file, st₂, _, _, hget', -, -, hcases'⟩ := hst₁.get hlast hproper hq
      by_cases hfile : file.type = .tokNormal
      · obtain ⟨-, -, ts'', rfl, hst₂⟩ := hcases'.resolve_left fun herr => by
          rw [hfile] at herr
          exact TokenType.noConfusion herr.2.1
        rw [List.length_cons] at hfuel
        rw [cmdParse_redir hget hredir hget' hfile hstart]
        obtain ⟨c, st', hrun, hc⟩ := @ih argv
          (Function.update f t.type.fd (some file.buffer)) st₂ ts''
          hst₂ hstart (Nat.lt_of_succ_lt hfuel)
        refine ⟨c, st', hrun, fun hne => ?_⟩
        obtain ⟨t', ts₃, hst', hlen⟩ := hc hne
        refine ⟨t', ts₃, hst', hless ?_⟩
        rw [List.length_cons]
        omega
      · have hnot : (parseGettoken st₁).1.type ≠ .tokNormal := by rwa [hget']
        obtain ⟨st', hrun⟩ :=
          @cmdParse_redir_null fuel st t argv f sub st₁ hget hredir (.inr hnot)
        exact ⟨.null, st', hrun, fun h => absurd rfl h⟩
    · have hopen : t.type = .tokOpenParen := by
        simpa [TokenType.continues, hnormal, hredir] using ht
      refine ⟨.null, st₁, ?_, fun h => absurd rfl h⟩
      rw [cmdParse_open hget hopen, if_pos (by tauto)]

/-! ## The calls of `cmd_parse` and `cmd_line_parse` between each other -/

/-- With `fuel` steps, `cmd_parse` returns, in front of a good token when it is a command. -/
def CmdWithin (last : Token) (q₀ q : Text) (fuel : ℕ) : Prop :=
  ∀ st ts, Within last q₀ q st ts → 2 * ts.length + 2 ≤ fuel →
    ∃ c st', cmdParse fuel [] (fun _ => none) .null st = .ok (c, st') ∧ (c ≠ .null →
      ∃ t ts', Within last q₀ q st' (t :: ts') ∧ ts'.length < ts.length)

/-- With `fuel` steps, `cmd_line_parse` returns, and it is `NULL` outside parentheses. -/
def LineWithin (last : Token) (q₀ q : Text) (fuel : ℕ) : Prop :=
  ∀ inParens st ts, Within last q₀ q st ts → 2 * ts.length + 3 ≤ fuel →
    ∃ c st', cmdLineParse fuel inParens st = .ok (c, st') ∧ (c ≠ .null → inParens = true ∧
      ∃ ts', Within last q₀ q st' ts' ∧ ts'.length ≤ ts.length)

/-- If `cmd_line_parse` stays within the line, `cmd_parse` does with one step more. -/
theorem LineWithin.cmdWithin {fuel : ℕ} (ih : LineWithin last q₀ q fuel) :
    CmdWithin last q₀ q (fuel + 1) := by
  intro st ts h hfuel
  obtain ⟨t, st₁, p, ts₁, hget, hp, hback, hcases⟩ := h.get hlast hproper hq
  by_cases ht : t.type.continues = false
  · exact ⟨_, _, cmdParse_back hget ht hp, fun hne => absurd (if_pos ⟨rfl, rfl⟩) hne⟩
  obtain ⟨-, -, ts', rfl, hst₁⟩ : t.Proper ∧ ts₁ = ts ∧ ∃ ts', ts = t :: ts' ∧
      Within last q₀ q st₁ ts' := by
    refine hcases.resolve_left fun herr => ht ?_
    rw [herr.2.1]
    rfl
  rw [List.length_cons] at hfuel
  by_cases hnormal : t.type = .tokNormal
  · have hroom : ¬ (maxtokens ≤ ([] : List Text).length ∨ Command.null ≠ .null) := by decide
    rw [cmdParse_word hget hnormal, if_neg hroom]
    obtain ⟨c, st', hrun, hc⟩ := @cmdParse_within _ _ _ hlast hproper hq ([] ++ [t.buffer])
      (fun _ => none) .null fuel st₁ ts' hst₁ (by simp) (by omega)
    refine ⟨c, st', hrun, fun hne => ?_⟩
    obtain ⟨t', ts'', hst', hlen⟩ := hc hne
    refine ⟨t', ts'', hst', ?_⟩
    rw [List.length_cons]
    omega
  by_cases hredir : t.type.isRedirection = true
  · obtain ⟨st', hrun⟩ := cmdParse_redir_null hget hredir (.inl ⟨rfl, rfl⟩)
    exact ⟨.null, st', hrun, fun h => absurd rfl h⟩
  · have hopen : t.type = .tokOpenParen := by
      simpa [TokenType.continues, hnormal, hredir] using ht
    rw [cmdParse_open hget hopen, if_neg (by simp)]
    obtain ⟨sub, st₂, hsub, hline⟩ := ih true st₁ ts' hst₁ (by omega)
    rw [hsub]
    by_cases hnull : sub = .null
    · exact ⟨.null, st₂, if_pos hnull, fun h => absurd rfl h⟩
    -- The subshell may have been completed by the last closing parenthesis read again.
    obtain ⟨-, ts₂, hst₂, hlen₂⟩ := hline hnull
    obtain ⟨c, st', hrun, hc⟩ := @cmdParse_within _ _ _ hlast hproper hq [] (fun _ => none) sub fuel
      st₂ ts₂ hst₂ (fun h => hnull h.2) (by omega)
    refine ⟨c, st', (if_neg hnull).trans hrun, fun hne => ?_⟩
    obtain ⟨t', ts'', hst', hlen⟩ := hc hne
    refine ⟨t', ts'', hst', ?_⟩
    rw [List.length_cons]
    omega

omit hlast hproper hq in
/-- A command in front of the rest of its list is left where the rest is left. -/
theorem exists_linked {result : Except Fault (Command × ParseState)} {P : ParseState → Prop}
    (op : ControlOp) (h : ∃ c st, result = .ok (c, st) ∧ (c ≠ .null → P st)) :
    ∃ c st, (result >>= fun rest => .ok (linked argv f sub op rest)) = .ok (c, st) ∧
      (c ≠ .null → P st) := by
  obtain ⟨c, st, rfl, hc⟩ := h
  by_cases hnull : c = .null
  · refine ⟨.null, st, ?_, fun h => absurd rfl h⟩
    simp [bind, Except.bind, linked, hnull]
  · refine ⟨.mk argv f sub op c, st, ?_, fun _ => hc hnull⟩
    simp [bind, Except.bind, linked, hnull]

omit hlast hproper hq in
/-- A line that starts with a token that ends a command. -/
theorem cmdLineParse_empty {fuel : ℕ} {inParens : Bool} {st st' : ParseState} {t : Token} {p : Text}
    (hget : parseGettoken st = (t, st')) (ht : t.type.continues = false)
    (hp : st'.lastPosition = some p) :
    cmdLineParse (fuel + 2) inParens st = .ok (.null, ⟨p, none⟩) := by
  rw [cmdLineParse, cmdParse_back hget ht hp, if_pos ⟨rfl, rfl⟩]
  rfl

/-- If both functions stay within the line, `cmd_line_parse` does with one step more. -/
theorem LineWithin.succ {fuel : ℕ} (ih : LineWithin last q₀ q fuel)
    (ihcmd : CmdWithin last q₀ q fuel) : LineWithin last q₀ q (fuel + 1) := by
  intro inParens st ts h hfuel
  obtain ⟨c, st₁, hrun, hc⟩ := ihcmd st ts h (by omega)
  cases c with
  | null =>
    refine ⟨.null, st₁, ?_, fun h => absurd rfl h⟩
    rw [cmdLineParse, hrun]
    rfl
  | mk argv f sub op next =>
    obtain ⟨t, ts₁, hst₁, hlen⟩ := hc Command.noConfusion
    obtain ⟨t', st₂, _, _, hget, -, -, hcases⟩ := hst₁.get hlast hproper hq
    obtain ⟨ht, -, ts₂, heq, hst₂⟩ := hcases.resolve_left fun herr => List.cons_ne_nil _ _ herr.1
    obtain ⟨rfl, rfl⟩ := List.cons.inj heq
    have hend : ¬ t.type = .tokEnd := ht.ne_tokEnd
    -- A closing parenthesis ends a line in parentheses.
    have hender : ∀ (e : TokenType) (op : ControlOp) (st' : ParseState) (ts' : List Token),
        e = .tokCloseParen → Within last q₀ q st' ts' → ts'.length ≤ ts.length →
          ∃ c st'', (.ok (ender inParens e argv f sub op, st') :
              Except Fault (Command × ParseState)) = .ok (c, st'') ∧
            (c ≠ .null → inParens = true ∧ ∃ ts', Within last q₀ q st'' ts' ∧
              ts'.length ≤ ts.length) := by
      intro e op st' ts' he hst' hle
      refine ⟨_, st', rfl, fun hne => ⟨?_, ts', hst', hle⟩⟩
      rw [← (of_ender_ne_null (.inr he) hne).1, he]
      rfl
    -- The rest of the list, from a state in front of fewer tokens.
    have hrest : ∀ st' ts', Within last q₀ q st' ts' → ts'.length < ts.length →
        ∃ c st'', cmdLineParse fuel inParens st' = .ok (c, st'') ∧
          (c ≠ .null → inParens = true ∧ ∃ ts', Within last q₀ q st'' ts' ∧
            ts'.length ≤ ts.length) := by
      intro st' ts' hst' hlt
      obtain ⟨c, st'', hrun, hc⟩ := ih inParens st' ts' hst' (by omega)
      refine ⟨c, st'', hrun, fun hne => ?_⟩
      obtain ⟨hinside, ts'', hst'', hle⟩ := hc hne
      exact ⟨hinside, ts'', hst'', hle.trans hlt.le⟩
    by_cases hjoins : t.type.joins = true
    · rw [cmdLineParse_joins hrun hget hjoins]
      exact exists_linked _ (hrest st₂ ts₁ hst₂ hlen)
    by_cases hsep : t.type.separates = true
    · obtain ⟨after, st₃, p, ts₃, hget', hp, hback, hcases'⟩ := hst₂.get hlast hproper hq
      rcases hcases' with ⟨rfl, herror, rfl, rfl⟩ | ⟨hafter, rfl, ts₄, rfl, hst₃⟩
      · -- The parser goes back to the operator itself, in front of which there is no command.
        have hno : ¬ (after.type = .tokEnd ∨ after.type = .tokCloseParen) := by
          rw [herror]
          decide
        have htype : t = last := by
          rcases hst₁ with ⟨hnil, -⟩ | ⟨ts', heq', -⟩
          · cases hnil
          · have hlast' := congrArg List.getLast? heq'
            rw [List.getLast?_append] at hlast'
            exact Option.some.inj hlast'
        obtain ⟨fuel, rfl⟩ : ∃ n, fuel = n + 2 := ⟨fuel - 2, by omega⟩
        rw [cmdLineParse_separates hrun hget hsep hget' hno hp]
        refine exists_linked _ ⟨.null, _, cmdLineParse_empty (hlast none) ?_ rfl,
          fun h => absurd rfl h⟩
        rw [← htype]
        exact continues_of_operator (.inr hsep)
      · rw [List.length_cons] at hlen
        by_cases hparen : after.type = .tokCloseParen
        · rw [cmdLineParse_separator_end hrun hget hsep hget' (.inr hparen)]
          exact hender _ _ st₃ ts₄ hparen hst₃ (by omega)
        · rw [cmdLineParse_separates hrun hget hsep hget'
            (not_or.mpr ⟨hafter.ne_tokEnd, hparen⟩) hp]
          exact exists_linked _ (hrest _ _ hback hlen)
    by_cases hparen : t.type = .tokCloseParen
    · rw [cmdLineParse_end hrun hget (.inr hparen)]
      exact hender _ _ st₂ ts₁ hparen hst₂ hlen.le
    · rw [cmdLineParse_bad hrun hget (Bool.eq_false_iff.mpr hjoins) (Bool.eq_false_iff.mpr hsep)
        (not_or.mpr ⟨hend, hparen⟩)]
      exact ⟨.null, st₂, rfl, fun h => absurd rfl h⟩

/-- `cmd_line_parse` stays within the line with any number of steps. -/
theorem lineWithin (fuel : ℕ) : LineWithin last q₀ q fuel := by
  have hboth : LineWithin last q₀ q fuel ∧ CmdWithin last q₀ q fuel := by
    induction fuel with
    | zero => exact ⟨fun _ _ _ _ h => absurd h (by omega), fun _ _ _ h => absurd h (by omega)⟩
    | succ fuel ih =>
      exact ⟨ih.1.succ hlast hproper hq ih.2, ih.1.cmdWithin hlast hproper hq⟩
  exact hboth.1

end

/-- **A malformed token makes the line a syntax error.** On a line with a `TOK_ERROR` after at least
one good token, `cmd_line_parse` returns `NULL`, and no `assert` fails. -/
theorem cmdLineParse_malformed {line : Text} {ts : List Token} (hts : ts ≠ [])
    (hline : lineTokens line = ts ++ [⟨.tokError, []⟩]) {fuel : ℕ}
    (hfuel : 2 * line.length + 3 ≤ fuel) :
    ∃ st, cmdLineParse fuel false (parseInit line) = .ok (.null, st) := by
  obtain ⟨q, hscan, hq⟩ := scans_lineTokens hline
  obtain ⟨ts', last, rfl⟩ := (List.eq_nil_or_concat ts).resolve_left hts
  rw [List.concat_eq_append] at hscan
  obtain ⟨q₀, hscan', hlast⟩ := scans_append.mp hscan
  have hle := hscan.length_le
  cases hlast with
  | cons hget hproper _ hnil =>
    cases hnil
    obtain ⟨c, st, hrun, hc⟩ := lineWithin hget hproper hq fuel false (parseInit line)
      (ts' ++ [last]) (.inr ⟨ts', rfl, hscan'⟩) (by omega)
    by_cases hnull : c = .null
    · rw [hnull] at hrun
      exact ⟨st, hrun⟩
    · cases (hc hnull).1

/-- `((a)"`: the subshell is completed a second time, by its own parenthesis. -/
theorem cmdLineParse_malformed_subshell :
    ∃ st, cmdLineParse 13 false (parseInit (text "((a)\"")) = .ok (.null, st) :=
  @cmdLineParse_malformed (text "((a)\"")
    [TokenType.tokOpenParen.token, TokenType.tokOpenParen.token,
    word (text "a"), TokenType.tokCloseParen.token] (by decide) (by decide +kernel) 13 (by decide)

end Cs5600.Lab2
