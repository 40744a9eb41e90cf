import Cs5600.Lab2.Token
import Mathlib.Data.Fintype.Pi

/-!
# The parser

`cmd_parse` reads one command and `cmd_line_parse` a list of them, down to the parentheses, where
they call each other. Both loops and the calls between them are bounded by a number of steps, which
is a model's device: `Grammar` shows how many are enough.

A `NULL` result is a syntax error, whatever has been built by then is freed. An allocation succeeds.
-/

namespace Cs5600.Lab2

def maxtokens : ℕ := 512

inductive ControlOp
  | cmdEnd
  | cmdSemicolon
  | cmdBackground
  | cmdPipe
  | cmdAnd
  | cmdOr
deriving DecidableEq, Repr

/-- A list of commands, linked by `next`: `command_t *`. -/
inductive Command
  | null
  | mk (argv : List Text) (redirectFilename : Fin 3 → Option Text) (subshell : Command)
    (controlop : ControlOp) (next : Command)
deriving DecidableEq

/-- The tokens `<`, `>` and `2>`. -/
def TokenType.isRedirection : TokenType → Bool
  | .tokLessThan | .tokGreaterThan | .tok2GreaterThan => true
  | _ => false

/-- `STDIN_FILENO` -/
abbrev stdinFileno : Fin 3 := 0

/-- `STDOUT_FILENO` -/
abbrev stdoutFileno : Fin 3 := 1

/-- `STDERR_FILENO` -/
abbrev stderrFileno : Fin 3 := 2

/-- The descriptor of a redirection, `token.type - TOK_LESS_THAN`. -/
def TokenType.fd : TokenType → Fin 3
  | .tokGreaterThan => stdoutFileno
  | .tok2GreaterThan => stderrFileno
  | _ => stdinFileno

/-- The tokens `&&`, `||` and `|`, which a command must follow. -/
def TokenType.joins : TokenType → Bool
  | .tokDoubleamp | .tokDoublepipe | .tokPipe => true
  | _ => false

/-- The tokens `;` and `&`, which may end a command line. -/
def TokenType.separates : TokenType → Bool
  | .tokSemicolon | .tokAmpersand => true
  | _ => false

/-- The control operator with the value of the token type. -/
def TokenType.controlop : TokenType → ControlOp
  | .tokSemicolon => .cmdSemicolon
  | .tokAmpersand => .cmdBackground
  | .tokPipe => .cmdPipe
  | .tokDoubleamp => .cmdAnd
  | .tokDoublepipe => .cmdOr
  | _ => .cmdEnd

/-- The label `ender` of `cmd_line_parse` and what follows at `done`, for the last command of a
list, which `token` ends. -/
def ender (inParens : Bool) (token : TokenType) (argv : List Text)
    (redirectFilename : Fin 3 → Option Text) (subshell : Command) (controlop : ControlOp) :
    Command :=
  if decide (token = .tokEnd) = inParens then
    .null
  else if controlop ≠ .cmdEnd ∧ controlop ≠ .cmdSemicolon ∧ controlop ≠ .cmdBackground then
    .null
  else
    .mk argv redirectFilename subshell controlop .null

/-- A command in front of the rest of its list, or nothing when the rest is an error. -/
def linked (argv : List Text) (redirectFilename : Fin 3 → Option Text) (subshell : Command)
    (controlop : ControlOp) (rest : Command × ParseState) : Command × ParseState :=
  if rest.1 = .null then (.null, rest.2)
  else (.mk argv redirectFilename subshell controlop rest.1, rest.2)

mutual

/-- `cmd_parse`, from a turn of its loop at which the command has these arguments, redirections and
subshell. -/
def cmdParse : ℕ → List Text → (Fin 3 → Option Text) → Command → ParseState →
    Except Fault (Command × ParseState)
  | 0, _, _, _, _ => .error .fuel
  | fuel + 1, argv, redirectFilename, subshell, st =>
    let (token, st) := parseGettoken st
    if token.type = .tokNormal then
      if maxtokens ≤ argv.length ∨ subshell ≠ .null then
        .ok (.null, st)
      else
        cmdParse fuel (argv ++ [token.buffer]) redirectFilename subshell st
    else if token.type.isRedirection then
      -- Can't redirect nothing.
      if argv = [] ∧ subshell = .null then
        .ok (.null, st)
      else
        let (file, st) := parseGettoken st
        if file.type ≠ .tokNormal then
          .ok (.null, st)
        else
          cmdParse fuel argv (Function.update redirectFilename token.type.fd (some file.buffer))
            subshell st
    else if token.type = .tokOpenParen then
      if subshell ≠ .null ∨ argv ≠ [] then
        .ok (.null, st)
      else do
        let (subshell, st) ← cmdLineParse fuel true st
        if subshell = .null then
          .ok (.null, st)
        else
          cmdParse fuel argv redirectFilename subshell st
    else do
      let st ← parseUngettoken st
      if argv = [] ∧ subshell = .null then
        .ok (.null, st)
      else
        .ok (.mk argv redirectFilename subshell .cmdEnd .null, st)

/-- `cmd_line_parse`, from a turn of its loop: the commands from there on. -/
def cmdLineParse : ℕ → Bool → ParseState → Except Fault (Command × ParseState)
  | 0, _, _ => .error .fuel
  | fuel + 1, inParens, st => do
    let (cmd, st) ← cmdParse fuel [] (fun _ => none) .null st
    match cmd with
    | .null => .ok (.null, st)
    | .mk argv redirectFilename subshell controlop _ =>
      let (token, st) := parseGettoken st
      -- Behind a pipe, `&&` or `||` a command has to follow.
      if token.type.joins then
        let rest ← cmdLineParse fuel inParens st
        .ok (linked argv redirectFilename subshell token.type.controlop rest)
      -- Behind `;` or `&` the line may end.
      else if token.type.separates then
        let (after, st) := parseGettoken st
        if after.type = .tokEnd ∨ after.type = .tokCloseParen then
          .ok (ender inParens after.type argv redirectFilename subshell token.type.controlop, st)
        else
          let st ← parseUngettoken st
          let rest ← cmdLineParse fuel inParens st
          .ok (linked argv redirectFilename subshell token.type.controlop rest)
      else if token.type = .tokEnd ∨ token.type = .tokCloseParen then
        .ok (ender inParens token.type argv redirectFilename subshell controlop, st)
      else
        .ok (.null, st)

end

/-! ## Printing a tree -/

/-- The text `cmd_print` writes for the control operator. -/
def ControlOp.mark : ControlOp → Text
  | .cmdSemicolon => text ";"
  | .cmdBackground => text "&"
  | .cmdPipe => text "|"
  | .cmdAnd => text "&&"
  | .cmdOr => text "||"
  | .cmdEnd => text "."

/-- `cmd_print`: what it prints. `[NULL]` is printed for an empty list only, not at the end of
one. -/
def cmdPrint : Command → ℕ → Except Fault Text
  | .null, indent => .ok (List.replicate indent 32 ++ text "[NULL]\n")
  | .mk argv redirectFilename subshell controlop next, indent => do
    let argc := min argv.length maxtokens
    let args := List.replicate indent 32 ++ text "[" ++ decimal argc ++ text " args" ++
      ((argv.take argc).map fun arg => text " \"" ++ arg ++ text "\"").flatten
    let redirections := ([(0, text " <"), (1, text " >"), (2, text " 2>")].map fun (fd, op) =>
      match redirectFilename fd with
      | none => []
      | some file => op ++ file).flatten
    let inner ← if subshell = .null then .ok []
      else (cmdPrint subshell (indent + 2)).map fun lines => text "\n" ++ lines
    let line := args ++ redirections ++ inner ++ text "] " ++ controlop.mark ++ text "\n"
    if next = .null then
      if controlop = .cmdEnd ∨ controlop = .cmdBackground ∨ controlop = .cmdSemicolon then .ok line
      else .error .assertion
    else
      return line ++ (← cmdPrint next indent)

end Cs5600.Lab2
