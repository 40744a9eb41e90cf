import Cs5600.Lab2.Accept

/-!
# The calls of the parser

`cmd_parse` and `cmd_line_parse` read their line by `parse_gettoken` and `parse_ungettoken` alone.
`cmdParseCalls` and `cmdLineParseCalls` list these calls in their order, and `cmdLineParse_calls`
says that they are the calls that lead from the state before the parser's run to the state after it.

A run pushes back well (`PushesBack`) unless it pushes back a `TOK_ERROR`, for which
`parse_gettoken` does not set `last_position` (`pushesBack_iff`).
-/

namespace Cs5600.Lab2

/-- A call of `parse_gettoken`, with the position it starts at and the token it reads, or of
`parse_ungettoken`, with the `last_position` it finds. -/
inductive TokenCall
  | get (start : Text) (token : Token)
  | unget (last : Option Text)
deriving DecidableEq

/-- The calls after a part of the run that returns. -/
def callsAfter (result : Except Fault (Command × ParseState))
    (calls : Command → ParseState → List TokenCall) : List TokenCall :=
  match result with
  | .ok (c, st) => calls c st
  | .error _ => []

mutual

/-- The calls of `cmd_parse`, from a turn of its loop. -/
def cmdParseCalls : ℕ → List Text → Command → ParseState → List TokenCall
  | 0, _, _, _ => []
  | fuel + 1, argv, subshell, st =>
    let (token, st') := parseGettoken st
    .get st.position token ::
      if token.type = .tokNormal then
        if maxtokens ≤ argv.length ∨ subshell ≠ .null then []
        else cmdParseCalls fuel (argv ++ [token.buffer]) subshell st'
      else if token.type.isRedirection then
        if argv = [] ∧ subshell = .null then []
        else
          let (file, st'') := parseGettoken st'
          .get st'.position file ::
            if file.type ≠ .tokNormal then [] else cmdParseCalls fuel argv subshell st''
      else if token.type = .tokOpenParen then
        if subshell ≠ .null ∨ argv ≠ [] then []
        else
          cmdLineParseCalls fuel true st' ++
            callsAfter (cmdLineParse fuel true st') fun sub st'' =>
              if sub = .null then [] else cmdParseCalls fuel argv sub st''
      else
        [.unget st'.lastPosition]

/-- The calls of `cmd_line_parse`, from a turn of its loop. -/
def cmdLineParseCalls : ℕ → Bool → ParseState → List TokenCall
  | 0, _, _ => []
  | fuel + 1, inParens, st =>
    cmdParseCalls fuel [] .null st ++
      callsAfter (cmdParse fuel [] (fun _ => none) .null st) fun cmd st₁ =>
        if cmd = .null then []
        else
          let (token, st₂) := parseGettoken st₁
          .get st₁.position token ::
            if token.type.joins then cmdLineParseCalls fuel inParens st₂
            else if token.type.separates then
              let (after, st₃) := parseGettoken st₂
              .get st₂.position after ::
                if after.type = .tokEnd ∨ after.type = .tokCloseParen then []
                else
                  .unget st₃.lastPosition :: st₃.lastPosition.elim [] fun p =>
                    cmdLineParseCalls fuel inParens ⟨p, none⟩
            else []

end

section Turn

variable {fuel : ℕ} {st st' : ParseState} {t : Token} {argv : List Text} {sub : Command}
  (hget : parseGettoken st = (t, st'))
include hget

/-- The calls of `cmd_parse` at a token that does not continue the command: it is given back. -/
theorem cmdParseCalls_back (ht : t.type.continues = false) : cmdParseCalls (fuel + 1) argv sub st =
    [.get st.position t, .unget st'.lastPosition] := by
  rw [continues_eq_false_iff] at ht
  rw [cmdParseCalls, hget]
  simp only [if_neg ht.1, ht.2.1, Bool.false_eq_true, if_false, if_neg ht.2.2]

/-- The calls of `cmd_parse` at a word. -/
theorem cmdParseCalls_word (ht : t.type = .tokNormal) : cmdParseCalls (fuel + 1) argv sub st =
    .get st.position t :: if maxtokens ≤ argv.length ∨ sub ≠ .null then []
      else cmdParseCalls fuel (argv ++ [t.buffer]) sub st' := by
  rw [cmdParseCalls, hget]
  simp only [ht, if_true]

/-- The calls of `cmd_parse` at a redirection. -/
theorem cmdParseCalls_redir (ht : t.type.isRedirection = true) {file : Token} {st'' : ParseState}
    (hget' : parseGettoken st' = (file, st'')) : cmdParseCalls (fuel + 1) argv sub st =
      .get st.position t :: if argv = [] ∧ sub = .null then [] else .get st'.position file ::
        if file.type ≠ .tokNormal then [] else cmdParseCalls fuel argv sub st'' := by
  rw [cmdParseCalls, hget]
  simp only [if_neg (ne_tokNormal_of_isRedirection ht), ht, if_true, hget']

/-- The calls of `cmd_parse` at an opening parenthesis. -/
theorem cmdParseCalls_open (ht : t.type = .tokOpenParen) : cmdParseCalls (fuel + 1) argv sub st =
    .get st.position t :: if sub ≠ .null ∨ argv ≠ [] then []
      else cmdLineParseCalls fuel true st' ++ callsAfter (cmdLineParse fuel true st')
      fun inner st'' =>
        if inner = .null then [] else cmdParseCalls fuel argv inner st'' := by
  rw [cmdParseCalls, hget]
  simp only [ht, reduceCtorEq, TokenType.isRedirection, Bool.false_eq_true, if_false, if_true]

end Turn

/-! ## The calls lead from state to state -/

/-- The calls are made one after the other from a state, and lead to another one, or to a failed
`assert`, which is `none`. A token that is given back is the one that has just been read. -/
inductive TokenCalls : ParseState → List TokenCall → Option ParseState → Prop
  | nil {st : ParseState} : TokenCalls st [] (some st)
  | get {st st' : ParseState} {token : Token} {calls : List TokenCall}
    {result : Option ParseState} :
    parseGettoken st = (token, st') → TokenCalls st' calls result →
      TokenCalls st (.get st.position token :: calls) result
  | unget {st st' : ParseState} {token : Token} {p : Text} {calls : List TokenCall}
    {result : Option ParseState} : parseGettoken st = (token, st') → st'.lastPosition = some p →
      TokenCalls ⟨p, none⟩ calls result →
        TokenCalls st (.get st.position token :: .unget (some p) :: calls) result
  | fails {st st' : ParseState} {token : Token} : parseGettoken st = (token, st') →
    st'.lastPosition = none → TokenCalls st [.get st.position token, .unget none] none

/-- Calls from where other calls have led make up one list with them. -/
theorem TokenCalls.append {st st' : ParseState} {calls calls' : List TokenCall}
    {result : Option ParseState} (h : TokenCalls st calls (some st'))
    (h' : TokenCalls st' calls' result) :
    TokenCalls st (calls ++ calls') result := by
  generalize hr : some st' = r at h
  induction h with
  | nil =>
    obtain rfl := Option.some.inj hr
    exact h'
  | get hget _ ih => exact .get hget (ih hr)
  | unget hget hlast _ ih => exact .unget hget hlast (ih hr)
  | fails _ _ => cases hr

/-- The calls of a run: they lead to the state that the run returns, and to a failed `assert` when
the run ends with one. -/
def Made (st : ParseState) (calls : List TokenCall)
    (result : Except Fault (Command × ParseState)) : Prop :=
  ∃ last, TokenCalls st calls last ∧ (last = none ↔ result = .error .assertion) ∧
    ∀ c st', result = .ok (c, st') → last = some st'

section

variable {st st' : ParseState} {token : Token} {calls : List TokenCall}
  {result : Except Fault (Command × ParseState)}

/-- A run that returns at once makes no calls. -/
theorem Made.ok (c : Command) (st : ParseState) : Made st [] (.ok (c, st)) := by
  refine ⟨some st, .nil, by simp, fun c' st' h => ?_⟩
  rw [(Prod.mk.inj (Except.ok.inj h)).2]

/-- A run without fuel makes no calls. -/
theorem Made.fuel (st : ParseState) : Made st [] (.error .fuel) :=
  ⟨some st, .nil, by simp, fun c st' h => by cases h⟩

/-- Reading a token is one more call in front. -/
theorem Made.get (hget : parseGettoken st = (token, st')) (h : Made st' calls result) :
    Made st (.get st.position token :: calls) result := by
  obtain ⟨last, hcalls, hresult⟩ := h
  exact ⟨last, .get hget hcalls, hresult⟩

/-- A token is read and given back. -/
theorem Made.unget (hget : parseGettoken st = (token, st'))
    {run : ParseState → Except Fault (Command × ParseState)} {after : Text → List TokenCall}
    (h : ∀ p, Made ⟨p, none⟩ (after p) (run ⟨p, none⟩)) :
    Made st (.get st.position token :: .unget st'.lastPosition :: st'.lastPosition.elim [] after)
      (parseUngettoken st' >>= run) := by
  unfold parseUngettoken
  cases hlast : st'.lastPosition with
  | none =>
    refine ⟨none, .fails hget hlast, ⟨fun _ => rfl, fun _ => rfl⟩, fun c st'' h => ?_⟩
    cases h
  | some p =>
    obtain ⟨last, hcalls, hresult⟩ := h p
    exact ⟨last, .unget hget hlast hcalls, hresult⟩

/-- A sequence makes the calls of its parts. -/
theorem Made.bind (h : Made st calls result) {after : Command → ParseState → List TokenCall}
    {run : Command × ParseState → Except Fault (Command × ParseState)}
    (hrun : ∀ c st₁, result = .ok (c, st₁) → Made st₁ (after c st₁) (run (c, st₁))) :
    Made st (calls ++ callsAfter result after) (result >>= run) := by
  obtain ⟨last, hcalls, hfails, hok⟩ := h
  cases result with
  | error e =>
    rw [callsAfter, List.append_nil]
    refine ⟨last, hcalls, hfails.trans ?_, fun c st' h => by cases h⟩
    simp [bind, Except.bind]
  | ok r =>
    obtain ⟨c, st₁⟩ := r
    obtain ⟨last', hcalls', hresult⟩ := hrun c st₁ rfl
    rw [hok c st₁ rfl] at hcalls
    exact ⟨last', hcalls.append hcalls', hresult⟩

end

/-- Linking a command in front of the rest of its list does not change the state. -/
theorem linked_snd (argv : List Text) (f : Fin 3 → Option Text) (sub : Command) (op : ControlOp)
    (rest : Command × ParseState) : (linked argv f sub op rest).2 = rest.2 := by
  unfold linked
  split_ifs <;> rfl

/-- Linking a command in front of the rest of its list makes no call. -/
theorem Made.linked {st : ParseState} {calls : List TokenCall}
    {result : Except Fault (Command × ParseState)} (h : Made st calls result) (argv : List Text)
    (f : Fin 3 → Option Text) (sub : Command) (op : ControlOp) :
    Made st calls (result >>= fun rest => .ok (linked argv f sub op rest)) := by
  obtain ⟨last, hcalls, hfails, hok⟩ := h
  refine ⟨last, hcalls, hfails.trans ?_, fun c st' hlinked => ?_⟩
  · cases result with
    | error e => exact Iff.rfl
    | ok r => exact ⟨fun h => (by cases h), fun h => (by cases h)⟩
  · cases result with
    | error e => cases hlinked
    | ok r =>
      obtain ⟨c₁, st₁⟩ := r
      have hstate := linked_snd argv f sub op (c₁, st₁)
      have heq : Lab2.linked argv f sub op (c₁, st₁) = (c, st') := Except.ok.inj hlinked
      rw [heq] at hstate
      exact (hok c₁ st₁ rfl).trans (congrArg some hstate.symm)

/-! ## The calls are those of the run -/

/-- One turn of `cmd_parse` makes its calls, when the functions that it calls do. -/
theorem cmdParse_made {fuel : ℕ} (ih : ∀ inParens st,
    Made st (cmdLineParseCalls fuel inParens st) (cmdLineParse fuel inParens st))
    (ihcmd : ∀ argv f sub st, Made st (cmdParseCalls fuel argv sub st)
      (cmdParse fuel argv f sub st))
    (argv : List Text) (f : Fin 3 → Option Text) (sub : Command) (st : ParseState) :
    Made st (cmdParseCalls (fuel + 1) argv sub st) (cmdParse (fuel + 1) argv f sub st) := by
  obtain ⟨t, st₁, hget⟩ : ∃ t st₁, parseGettoken st = (t, st₁) := ⟨_, _, rfl⟩
  rw [cmdParseCalls, cmdParse, hget]
  simp only
  -- The cases follow the order of the tests in the source, on both sides at once.
  by_cases hnormal : t.type = .tokNormal
  · rw [if_pos hnormal, if_pos hnormal]
    refine .get hget ?_
    split_ifs
    · exact .ok .null st₁
    · exact ihcmd _ f sub st₁
  rw [if_neg hnormal, if_neg hnormal]
  by_cases hredir : t.type.isRedirection = true
  · rw [if_pos hredir, if_pos hredir]
    refine .get hget ?_
    by_cases hstart : argv = [] ∧ sub = .null
    · rw [if_pos hstart, if_pos hstart]
      exact .ok .null st₁
    rw [if_neg hstart, if_neg hstart]
    obtain ⟨file, st₂, hget'⟩ : ∃ file st₂, parseGettoken st₁ = (file, st₂) := ⟨_, _, rfl⟩
    rw [hget']
    refine .get hget' ?_
    simp only
    split_ifs
    · exact .ok .null st₂
    · exact ihcmd argv _ sub st₂
  rw [if_neg hredir, if_neg hredir]
  by_cases hopen : t.type = .tokOpenParen
  · rw [if_pos hopen, if_pos hopen]
    refine .get hget ?_
    split_ifs
    · exact .ok .null st₁
    refine (ih true st₁).bind fun inner st₂ _ => ?_
    simp only
    split_ifs
    · exact .ok .null st₂
    · exact ihcmd argv f inner st₂
  · rw [if_neg hopen, if_neg hopen]
    -- The only call that is not of `parse_gettoken`.
    have hback := @Made.unget st st₁ t hget
      (fun st => if argv = [] ∧ sub = .null then .ok (.null, st)
      else .ok (.mk argv f sub .cmdEnd .null, st))
        (fun _ => []) fun p => by split_ifs <;> exact .ok _ _
    cases hlast : st₁.lastPosition <;> rw [hlast] at hback <;> exact hback

/-- One turn of `cmd_line_parse` makes its calls, when the functions that it calls do. -/
theorem cmdLineParse_made {fuel : ℕ} (ih : ∀ inParens st,
    Made st (cmdLineParseCalls fuel inParens st) (cmdLineParse fuel inParens st))
    (ihcmd : ∀ argv f sub st, Made st (cmdParseCalls fuel argv sub st)
      (cmdParse fuel argv f sub st))
    (inParens : Bool) (st : ParseState) :
    Made st (cmdLineParseCalls (fuel + 1) inParens st) (cmdLineParse (fuel + 1) inParens st) := by
  rw [cmdLineParseCalls, cmdLineParse]
  -- First the command, and then one or two tokens that decide how the list goes on.
  refine (ihcmd [] (fun _ => none) .null st).bind fun cmd st₁ _ => ?_
  cases cmd with
  | null =>
    rw [if_pos rfl]
    exact .ok .null st₁
  | mk argv f sub op next =>
    obtain ⟨t, st₂, hget⟩ : ∃ t st₂, parseGettoken st₁ = (t, st₂) := ⟨_, _, rfl⟩
    rw [if_neg Command.noConfusion]
    simp only [hget]
    by_cases hjoins : t.type.joins = true
    · rw [if_pos hjoins, if_pos hjoins]
      exact .get hget ((ih inParens st₂).linked argv f sub _)
    rw [if_neg hjoins, if_neg hjoins]
    by_cases hsep : t.type.separates = true
    · rw [if_pos hsep, if_pos hsep]
      refine .get hget ?_
      obtain ⟨after, st₃, hget'⟩ : ∃ after st₃, parseGettoken st₂ = (after, st₃) := ⟨_, _, rfl⟩
      rw [hget']
      simp only
      by_cases hend : after.type = .tokEnd ∨ after.type = .tokCloseParen
      · rw [if_pos hend, if_pos hend]
        exact .get hget' (.ok _ st₃)
      · rw [if_neg hend, if_neg hend]
        exact .unget hget' fun p => (ih inParens ⟨p, none⟩).linked argv f sub _
    · rw [if_neg hsep, if_neg hsep]
      split_ifs
      · exact .get hget (.ok _ st₂)
      · exact .get hget (.ok _ st₂)

/-- Both functions make the calls that are written down for them. -/
theorem made (fuel : ℕ) :
    (∀ inParens st, Made st (cmdLineParseCalls fuel inParens st) (cmdLineParse fuel inParens st)) ∧
      ∀ argv f sub st, Made st (cmdParseCalls fuel argv sub st) (cmdParse fuel argv f sub st) := by
  induction fuel with
  | zero => exact ⟨fun _ st => .fuel st, fun _ _ _ st => .fuel st⟩
  | succ fuel ih => exact ⟨cmdLineParse_made ih.1 ih.2, cmdParse_made ih.1 ih.2⟩

/-- The calls of `cmd_line_parse` lead to the state that it returns. -/
theorem cmdLineParse_calls (fuel : ℕ) (inParens : Bool) (st : ParseState) :
    Made st (cmdLineParseCalls fuel inParens st) (cmdLineParse fuel inParens st) :=
  (made fuel).1 inParens st

/-- `cmd_parse` makes the calls that are written down for it. -/
theorem cmdParse_calls (fuel : ℕ) (argv : List Text) (f : Fin 3 → Option Text) (sub : Command)
    (st : ParseState) : Made st (cmdParseCalls fuel argv sub st) (cmdParse fuel argv f sub st) :=
  (made fuel).2 argv f sub st

/-! ## Push-backs -/

/-- Every push-back gives back the token that the call before it has read, to the position where
that call started, so that the next call reads the same token again. -/
def PushesBack (calls : List TokenCall) : Prop := ∀ before last after,
  calls = before ++ .unget last :: after → ∃ start token,
    before.getLast? = some (.get start token) ∧ last = some start ∧
      ∀ call ∈ after.head?, call = .get start token

/-- Some `TOK_ERROR` is given back. -/
inductive GivesBackError : List TokenCall → Prop
  | here {start : Text} {last : Option Text} {calls : List TokenCall} :
    GivesBackError (.get start ⟨.tokError, []⟩ :: .unget last :: calls)
  | there {call : TokenCall} {calls : List TokenCall} :
    GivesBackError calls → GivesBackError (call :: calls)

/-- The first call reads the token at the position. -/
theorem TokenCalls.head {st : ParseState} {calls : List TokenCall} {result : Option ParseState}
    (h : TokenCalls st calls result) :
    ∀ call ∈ calls.head?, call = .get st.position (parseGettoken st).1 := by
  intro call hcall
  cases h with
  | nil => cases hcall
  | get hget _ | unget hget _ _ | fails hget _ =>
    rw [hget]
    exact (Option.some.inj hcall).symm

/-- The first call does not give a token back. -/
theorem TokenCalls.head_ne_unget {st : ParseState} {calls : List TokenCall}
    {result : Option ParseState} (h : TokenCalls st calls result) (last : Option Text)
    (after : List TokenCall) :
    calls ≠ .unget last :: after := by
  rintro rfl
  exact TokenCall.noConfusion (h.head _ rfl)

section

variable {start : Text} {token : Token} {last : Option Text} {calls : List TokenCall}
  (hcalls : ∀ last after, calls ≠ .unget last :: after)
include hcalls

/-- The push-backs of a list that does not start with one are those in front of which the list has a
call. -/
theorem pushesBack_append (first : List TokenCall) (h : PushesBack (first ++ calls)) :
    PushesBack calls := by
  intro before last after heq
  obtain ⟨start, token, hlast, hrest⟩ :=
    h (first ++ before) last after (by rw [heq, List.append_assoc])
  refine ⟨start, token, ?_, hrest⟩
  cases before with
  | nil => exact absurd heq (hcalls last after)
  | cons b before =>
    rwa [List.getLast?_append_of_ne_nil _ (List.cons_ne_nil b before)] at hlast

/-- A token that is read does not matter to what is given back. -/
theorem pushesBack_get_cons : PushesBack (.get start token :: calls) ↔ PushesBack calls := by
  refine ⟨pushesBack_append hcalls [.get start token], fun h before last after heq => ?_⟩
  cases before with
  | nil => cases heq
  | cons b before =>
    have heq' : calls = before ++ .unget last :: after := (List.cons.inj heq).2
    cases before with
    | nil => exact absurd heq' (hcalls last after)
    | cons b' before =>
      rw [List.getLast?_cons_cons]
      exact h (b' :: before) last after heq'

/-- A token that is given back is read again by the next call, if the position was stored. -/
theorem pushesBack_unget_cons : PushesBack (.get start token :: .unget last :: calls) ↔
    (last = some start ∧ ∀ call ∈ calls.head?, call = .get start token) ∧ PushesBack calls := by
  constructor
  · intro h
    refine ⟨?_, pushesBack_append hcalls [.get start token, .unget last] h⟩
    -- Read at the pair itself, the property is the condition on it.
    obtain ⟨start', token', hget, hrest⟩ := h [.get start token] last calls rfl
    obtain ⟨rfl, rfl⟩ := TokenCall.get.inj (Option.some.inj hget)
    exact hrest
  · rintro ⟨hfirst, h⟩ before last' after heq
    -- A later pair lies wholly in `calls`.
    cases before with
    | nil => cases heq
    | cons b before =>
      obtain ⟨rfl, heq'⟩ := List.cons.inj heq
      cases before with
      | nil =>
        obtain ⟨hlast, rfl⟩ := List.cons.inj heq'
        obtain rfl := TokenCall.unget.inj hlast
        exact ⟨start, token, rfl, hfirst⟩
      | cons b' before =>
        have heq' : calls = before ++ .unget last' :: after := (List.cons.inj heq').2
        cases before with
        | nil => exact absurd heq' (hcalls last' after)
        | cons b'' before =>
          rw [List.getLast?_cons_cons, List.getLast?_cons_cons]
          exact h (b'' :: before) last' after heq'

/-- A token that is read does not matter to whether an error is given back. -/
theorem givesBackError_get_cons :
    GivesBackError (.get start token :: calls) ↔ GivesBackError calls := by
  refine ⟨fun h => ?_, .there⟩
  cases h with
  | here => exact absurd rfl (hcalls _ _)
  | there h => exact h

end

/-- An error is given back with this call or later. -/
theorem givesBackError_unget_cons {start : Text} {token : Token} {last : Option Text}
    {calls : List TokenCall} : GivesBackError (.get start token :: .unget last :: calls) ↔
      token = ⟨.tokError, []⟩ ∨ GivesBackError calls := by
  constructor
  · intro h
    cases h with
    | here => exact .inl rfl
    | there h =>
      cases h with
      | there h => exact .inr h
  · rintro (rfl | h)
    · exact .here
    · exact .there (.there h)

/-- The token at a position does not depend on the last position. -/
theorem parseGettoken_fst (p : Text) (l l' : Option Text) :
    (parseGettoken ⟨p, l⟩).1 = (parseGettoken ⟨p, l'⟩).1 := by
  rcases parseGettoken_cases p with h | h | ⟨t, q, h, -, -⟩ <;> rw [h l, h l']

/-- At a `TOK_ERROR`, the last position is not the one the state is at. -/
def Behind (st : ParseState) : Prop := st.lastPosition = some st.position → ¬ AtError st.position

/-- Behind a good token the position in front of it is stored, and at an error nothing changes. -/
theorem Behind.get {st st' : ParseState} {token : Token} (hst : Behind st)
    (hget : parseGettoken st = (token, st')) :
    Behind st' ∧ (token = ⟨.tokError, []⟩ ∧ AtError st.position ∧ st' = st ∨
      token ≠ ⟨.tokError, []⟩ ∧ st'.lastPosition = some st.position) := by
  obtain ⟨p, l⟩ := st
  rcases parseGettoken_cases p with hend | herr | ⟨t, q, ht, hproper, hlt⟩
  · obtain ⟨rfl, rfl⟩ := Prod.mk.inj (hget.symm.trans (hend l))
    refine ⟨fun _ herr => ?_, .inr ⟨by decide, rfl⟩⟩
    cases (hend none).symm.trans (herr none)
  · obtain ⟨rfl, rfl⟩ := Prod.mk.inj (hget.symm.trans (herr l))
    exact ⟨hst, .inl ⟨rfl, herr, rfl⟩⟩
  · obtain ⟨rfl, rfl⟩ := Prod.mk.inj (hget.symm.trans (ht l))
    refine ⟨fun hlast => ?_, .inr ⟨fun h => ?_, rfl⟩⟩
    · have hpq : p = q := Option.some.inj hlast
      rw [hpq] at hlt
      exact absurd hlt (lt_irrefl _)
    · rw [h] at hproper
      exact hproper.ne_tokError rfl

/-- **Only a `TOK_ERROR` is pushed back wrongly.** -/
theorem TokenCalls.pushesBack_iff {st : ParseState} {calls : List TokenCall}
    {result : Option ParseState} (h : TokenCalls st calls result) (hst : Behind st) :
    PushesBack calls ↔ ¬ GivesBackError calls := by
  -- Induction on the calls; only a token given back at the end of the text can go wrong.
  induction h with
  | nil =>
    refine ⟨fun _ h => (by cases h), fun _ before last after heq => ?_⟩
    exact absurd heq.symm (List.append_ne_nil_of_right_ne_nil _ (List.cons_ne_nil _ _))
  | get hget hcalls ih =>
    rw [pushesBack_get_cons hcalls.head_ne_unget, givesBackError_get_cons hcalls.head_ne_unget]
    exact ih (hst.get hget).1
  | @unget st st' token p calls result hget hlast hcalls ih =>
    rw [pushesBack_unget_cons hcalls.head_ne_unget, givesBackError_unget_cons,
      ih (fun h => by cases h), not_or, and_congr_left_iff]
    intro _
    rcases (hst.get hget).2 with ⟨htoken, herr, rfl⟩ | ⟨htoken, hlast'⟩
    · exact ⟨fun h => absurd herr (hst (hlast.trans h.1)), fun h => absurd htoken h⟩
    · -- The same token stands at the position that is restored.
      obtain rfl := Option.some.inj (hlast.symm.trans hlast')
      refine ⟨fun _ => htoken, fun _ => ⟨rfl, fun call hcall => ?_⟩⟩
      rw [hcalls.head call hcall, ← parseGettoken_fst st.position st.lastPosition, hget]
  | @fails st st' token hget hlast =>
    have hnil : ∀ last after, ([] : List TokenCall) ≠ .unget last :: after :=
      fun _ _ h => by cases h
    rw [pushesBack_unget_cons hnil, givesBackError_unget_cons]
    rcases (hst.get hget).2 with ⟨htoken, -, -⟩ | ⟨-, hlast'⟩
    · simp [htoken]
    · rw [hlast] at hlast'
      cases hlast'

end Cs5600.Lab2
