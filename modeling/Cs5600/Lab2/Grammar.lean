import Cs5600.Lab2.Parse
import Mathlib.Data.Fin.VecNotation

/-!
# The grammar of a command line

`Cmd` and `Line` are the derivations of the shell's grammar, with the tokens each derives and the
tree each stands for:

    LINE  ::= CMD | CMD (';' | '&') | CMD (';' | '&' | '|' | '&&' | '||') LINE
    CMD   ::= WORD (WORD | REDIR)* | '(' LINE ')' REDIR*
    REDIR ::= ('<' | '>' | '2>') WORD

with at most `MAXTOKENS` words in a command, outside its redirections (`Fits`).
-/

namespace Cs5600.Lab2

structure Redir where
  fd : Fin 3
  file : Text

/-- What may follow the first word of a command. -/
inductive Part
  | word (w : Text)
  | redir (r : Redir)

/-- The operators that stand between two commands. -/
abbrev Operator : Type := {type : TokenType // type.joins ∨ type.separates}

/-- The operators that may end a line. -/
abbrev Terminator : Type := {type : TokenType // type.separates}

mutual

inductive Cmd
  | simple (first : Text) (parts : List Part)
  | paren (line : Line) (redirs : List Redir)

inductive Line
  | last (cmd : Cmd)
  | ended (cmd : Cmd) (op : Terminator)
  | cons (cmd : Cmd) (op : Operator) (rest : Line)

end

/-! ## The tokens of a derivation -/

/-- The token type of a redirection of a descriptor. -/
def redirType : Fin 3 → TokenType := ![.tokLessThan, .tokGreaterThan, .tok2GreaterThan]

def Redir.tokens (r : Redir) : List Token := [(redirType r.fd).token, word r.file]

def Part.tokens : Part → List Token
  | .word w => [Lab2.word w]
  | .redir r => r.tokens

def partsTokens (parts : List Part) : List Token := (parts.map Part.tokens).flatten

mutual

def Cmd.tokens : Cmd → List Token
  | .simple first parts => word first :: partsTokens parts
  | .paren line redirs => TokenType.tokOpenParen.token ::
      (line.tokens ++ TokenType.tokCloseParen.token :: partsTokens (redirs.map Part.redir))

def Line.tokens : Line → List Token
  | .last cmd => cmd.tokens
  | .ended cmd op => cmd.tokens ++ [op.1.token]
  | .cons cmd op rest => cmd.tokens ++ op.1.token :: rest.tokens

end

/-! ## The tree of a derivation -/

def words : List Part → List Text
  | [] => []
  | .word w :: parts => w :: words parts
  | .redir _ :: parts => words parts

def redirs : List Part → List Redir
  | [] => []
  | .word _ :: parts => redirs parts
  | .redir r :: parts => r :: redirs parts

/-- The last file that is given for each descriptor. -/
def lastFile (rs : List Redir) (fd : Fin 3) : Option Text :=
  ((rs.filter (·.fd = fd)).getLast?).map Redir.file

mutual

/-- The command of a derivation, with the operator and the list that follow it. -/
def Cmd.command : Cmd → ControlOp → Command → Command
  | .simple first parts, controlop, next =>
    .mk (first :: words parts) (lastFile (redirs parts)) .null controlop next
  | .paren line redirs, controlop, next => .mk [] (lastFile redirs) line.command controlop next

def Line.command : Line → Command
  | .last cmd => cmd.command .cmdEnd .null
  | .ended cmd op => cmd.command op.1.controlop .null
  | .cons cmd op rest => cmd.command op.1.controlop rest.command

end

mutual

/-- No command has more than `MAXTOKENS` words outside its redirections. -/
def Cmd.Fits : Cmd → Prop
  | .simple first parts => (first :: words parts).length ≤ maxtokens
  | .paren line _ => line.Fits

def Line.Fits : Line → Prop
  | .last cmd => cmd.Fits
  | .ended cmd _ => cmd.Fits
  | .cons cmd _ rest => cmd.Fits ∧ rest.Fits

end

/-! ## Redirections in order -/

/-- The redirections that are made one after the other. -/
def redirected (f : Fin 3 → Option Text) (rs : List Redir) : Fin 3 → Option Text :=
  rs.foldl (fun f r => Function.update f r.fd (some r.file)) f

/-- A descriptor gets the last file that is given for it. -/
theorem redirected_apply (f : Fin 3 → Option Text) (rs : List Redir) (fd : Fin 3) :
    redirected f rs fd = (lastFile rs fd).or (f fd) := by
  induction rs generalizing f with
  | nil => rfl
  | cons r rs ih =>
    rw [redirected, List.foldl_cons, ← redirected, ih]
    unfold lastFile
    by_cases h : r.fd = fd
    · subst h
      cases hrs : (rs.filter (·.fd = r.fd)).getLast? <;> simp [hrs, List.getLast?_cons]
    · simp [Ne.symm h, h]

/-- Without files in front, a descriptor has the last file that is given for it. -/
theorem redirected_none (rs : List Redir) : redirected (fun _ => none) rs = lastFile rs :=
  funext fun fd => (redirected_apply _ rs fd).trans (Option.or_none)

/-- Redirections have no words. -/
@[simp] theorem words_map_redir (rs : List Redir) : words (rs.map .redir) = [] := by
  induction rs with
  | nil => rfl
  | cons r rs ih => exact ih

/-- The redirections among redirections are all of them. -/
@[simp] theorem redirs_map_redir (rs : List Redir) : redirs (rs.map .redir) = rs := by
  induction rs with
  | nil => rfl
  | cons r rs ih => exact congrArg (r :: ·) ih

/-- Parts without words are their redirections. -/
theorem map_redir_redirs {parts : List Part} (h : words parts = []) :
    (redirs parts).map .redir = parts := by
  induction parts with
  | nil => rfl
  | cons part parts ih =>
    cases part with
    | word w => cases h
    | redir r => exact congrArg (Part.redir r :: ·) (ih h)

end Cs5600.Lab2
