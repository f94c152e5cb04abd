import SqlStore.Statement.Parse
import SqlStore.Token.Scan

/-!
# Scripts

A source text as a list of statements with semicolons between them. A semicolon after the last statement may be
left out, and any number of them counts as one.
-/

namespace SqlStore

namespace Script

/-- The statements of a token list. -/
def read (ts : List Token) : Except Failure Script :=
  match ts with
  | [] => .ok []
  | t :: ts =>
      match _h : Statement.parse (t :: ts) with
      | .error f => .error f
      | .ok (statement, []) => .ok [statement]
      | .ok (statement, next :: rest) =>
          if next.lexeme = .symbol .semicolon then do
            let others ← read (rest.dropWhile fun t => t.lexeme == .symbol .semicolon)
            return statement :: others
          else .error ⟨.semicolon, next :: rest⟩
termination_by ts.length
decreasing_by
  have := Statement.consumes_parse.lt ‹Statement.parse (t :: ts) = _›
  have := (List.dropWhile_sublist (l := rest) fun t => t.lexeme == .symbol .semicolon).length_le
  simp only [List.length_cons] at *
  omega

@[simp] theorem read_nil : read [] = .ok [] := by
  rw [read]

theorem read_cons (t : Token) (ts : List Token) :
    read (t :: ts) = (do
      let (statement, rest) ← Statement.parse (t :: ts)
      match rest with
      | [] => return [statement]
      | next :: rest =>
          if next.lexeme = .symbol .semicolon then
            let others ← read (rest.dropWhile fun t => t.lexeme == .symbol .semicolon)
            return statement :: others
          else .error ⟨.semicolon, next :: rest⟩) := by
  rw [read]
  split <;> rename_i h <;> simp only [h] <;> rfl

/-- The statements of a token list, or the place where they cannot go on. -/
def ofTokens (tokens : List Token) : Except ParseError Script :=
  (read tokens).mapError (ParseError.ofFailure tokens)

end Script

/-- Why a source text is no script. -/
inductive SourceError
  | lex (error : LexError)
  | parse (error : ParseError)
deriving DecidableEq

namespace SourceError

def message : SourceError → String
  | .lex e => e.message
  | .parse e => e.message

end SourceError

namespace Script

/-- The statements of a source text. -/
def ofSource (source : String) : Except SourceError Script := do
  let tokens ← (Token.ofSource source).mapError .lex
  (ofTokens tokens).mapError .parse

end Script

end SqlStore
