import SqlStore.Token.Basic
import SqlStore.Token.Match

/-!
# Scanning

The tokens of a source text. A scan always ends: where no lexeme fits, it keeps what is left and says where that
is. `Token.ofSource` accepts the scans that leave nothing.
-/

namespace SqlStore

/-- The tokens found in a text, what could not be read after them, and the place where reading ended. -/
structure Scan where
  tokens : List Token
  rest : List Char
  stop : Position

namespace Scan

/-- The characters that stand between tokens. -/
def isSeparator (c : Char) : Bool :=
  c == ' ' || c == '\t' || c == '\r' || c == '\n'

/-- The place after a separator. -/
def afterSeparator (p : Position) (c : Char) : Position :=
  if c = '\n' then p.nextLine else p.forward 1

/-- Scans a text that starts at a place. -/
def run (p : Position) (cs : List Char) : Scan :=
  match cs with
  | [] => ⟨[], [], p⟩
  | c :: cs =>
      if isSeparator c then run (afterSeparator p c) cs
      else
        match _h : Match.firstAt? p (c :: cs) with
        | none => ⟨[], c :: cs, p⟩
        | some (m, stop) =>
            let scan := run stop m.rest
            { scan with tokens := ⟨m.lexeme, p, stop⟩ :: scan.tokens }
termination_by cs.length
decreasing_by
  · simp
  · refine Match.rest_length_lt_of_first? (List.cons_ne_nil _ _) ?_
    rw [← Match.map_fst_firstAt? p, ‹Match.firstAt? p _ = _›, Option.map_some]

def ofSource (source : String) : Scan :=
  run .origin source.toList

end Scan

/-- Why no lexeme fits: a quote that is never closed, an identifier in quotes with nothing between them, or
characters that begin no lexeme. -/
inductive LexProblem
  | unterminatedQuote
  | emptyIdentifier
  | unknownText
deriving DecidableEq

/-- A place at which no lexeme fits, and the text of the token before it. -/
structure LexError where
  problem : LexProblem
  previous : Option String
  position : Position
deriving DecidableEq

namespace LexProblem

/-- What is wrong at the head of a text at which no lexeme fits. -/
def ofRest : List Char → LexProblem
  | [] => .unknownText
  | c :: cs =>
      if c = '\'' ∨ c = '"' then
        if (Text.Quoted.read c (c :: cs)).isSome then .emptyIdentifier else .unterminatedQuote
      else .unknownText

def hint : LexProblem → String
  | .unterminatedQuote => ": unterminated quoted literal"
  | .emptyIdentifier => ": empty quoted identifier"
  | .unknownText => ""

end LexProblem

namespace LexError

def message (e : LexError) : String :=
  "Unable to lex token" ++ (e.previous.map (" after " ++ ·)).getD "" ++ e.problem.hint ++ ", at " ++
    e.position.render

end LexError

/-- The tokens of a source text. -/
def Token.ofSource (source : String) : Except LexError (List Token) :=
  let scan := Scan.ofSource source
  if scan.rest.isEmpty then .ok scan.tokens
  else .error ⟨.ofRest scan.rest, scan.tokens.getLast?.map Token.text, scan.stop⟩

end SqlStore
