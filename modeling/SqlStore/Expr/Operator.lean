import SqlStore.Token.Lexeme

/-!
# Operators

The binary operators of expressions, each written by one lexeme.
-/

namespace SqlStore

inductive Operator
  | and
  | or
  | equal
  | notEqual
  | concat
  | plus
deriving DecidableEq

namespace Operator

def all : List Operator := [.and, .or, .equal, .notEqual, .concat, .plus]

def lexeme : Operator → Lexeme
  | .and => .keyword .and
  | .or => .keyword .or
  | .equal => .symbol .equal
  | .notEqual => .symbol .notEqual
  | .concat => .symbol .concat
  | .plus => .symbol .plus

/-- The operator that a lexeme writes. -/
def ofLexeme? (l : Lexeme) : Option Operator :=
  all.find? fun op => op.lexeme == l

theorem ofLexeme?_eq_some_iff {l : Lexeme} {op : Operator} : ofLexeme? l = some op ↔ op.lexeme = l := by
  constructor
  · intro h
    simpa using List.find?_some h
  · rintro rfl
    cases op <;> decide

end Operator

end SqlStore
