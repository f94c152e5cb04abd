import SqlStore.Token.Basic

/-!
# Failures of reading

What the tokens could not go on with, and where that is. `ParseError` is a failure with its place in the text.
-/

namespace SqlStore

/-- What the tokens could not go on with. -/
inductive Expectation
  | statement
  | semicolon
  | comma
  | sourceTable
  | aliasName
  | into
  | tableWord
  | tableName
  | values
  | leftParen
  | rightParen
  | columnDefinition
  | columnName
  | columnType
  | expression
  | closingParen
  | operator
deriving DecidableEq

namespace Expectation

def phrase : Expectation → String
  | .statement => "Expected statement"
  | .semicolon => "Expected semicolon between statements"
  | .comma => "Expected comma"
  | .sourceTable => "Expected table name after FROM"
  | .aliasName => "Expected identifier after AS"
  | .into => "Expected INTO"
  | .tableWord => "Expected TABLE"
  | .tableName => "Expected table name"
  | .values => "Expected VALUES"
  | .leftParen => "Expected left parenthesis"
  | .rightParen => "Expected right parenthesis"
  | .columnDefinition => "Expected column definition"
  | .columnName => "Expected column name"
  | .columnType => "Expected column type"
  | .expression => "Expected expression"
  | .closingParen => "Expected closing parenthesis"
  | .operator => "Expected binary operator"

end Expectation

/-- What was expected, and the tokens from the place where it was expected. -/
structure Failure where
  expected : Expectation
  rest : List Token

/-- A place at which the tokens could not go on, and the text found there unless they had ended. -/
structure ParseError where
  expected : Expectation
  found : Option String
  position : Position
deriving DecidableEq

namespace ParseError

/-- The place of a failure among all the tokens: where the next token starts, or else where the last one
ends. -/
def ofFailure (tokens : List Token) (f : Failure) : ParseError :=
  match f.rest with
  | t :: _ => ⟨f.expected, some t.text, t.start⟩
  | [] => ⟨f.expected, none, (tokens.getLast?.map Token.stop).getD .origin⟩

def message (e : ParseError) : String :=
  e.expected.phrase ++ ", got " ++ e.found.getD "end of input" ++ ", near " ++ e.position.render

end ParseError

end SqlStore
