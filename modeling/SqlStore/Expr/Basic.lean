import SqlStore.Token.Basic
import SqlStore.Expr.Operator

/-!
# Expressions

Trees of binary operators over literals and column names, made of the tokens that write them.
-/

namespace SqlStore

/-- A single token, or two operands with the token between them. -/
inductive Expr
  | literal (token : Token)
  | binary (left : Expr) (operator : Token) (right : Expr)
deriving DecidableEq

namespace TokenKind

/-- The kinds of tokens that are expressions by themselves. -/
def isOperand : TokenKind → Bool
  | .identifier | .string | .numeric | .bool | .null => true
  | .keyword | .symbol => false

end TokenKind

namespace Expr

/-- The expression with parentheses around every operation. -/
def render : Expr → String
  | .literal t => t.lexeme.render
  | .binary l op r => "(" ++ l.render ++ " " ++ op.text ++ " " ++ r.render ++ ")"

end Expr

end SqlStore
