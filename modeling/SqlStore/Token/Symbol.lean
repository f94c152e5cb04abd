/-!
# Symbols

Punctuation and the signs of operators.
-/

namespace SqlStore

inductive Symbol
  | equal
  | notEqual
  | bangEqual
  | less
  | lessEqual
  | greater
  | greaterEqual
  | concat
  | plus
  | comma
  | leftParen
  | rightParen
  | semicolon
  | asterisk
deriving DecidableEq

namespace Symbol

/-- Every symbol. -/
def all : List Symbol :=
  [.equal, .notEqual, .bangEqual, .less, .lessEqual, .greater, .greaterEqual, .concat, .plus, .comma, .leftParen,
   .rightParen, .semicolon, .asterisk]

def spelling : Symbol → String
  | .equal => "="
  | .notEqual => "<>"
  | .bangEqual => "!="
  | .less => "<"
  | .lessEqual => "<="
  | .greater => ">"
  | .greaterEqual => ">="
  | .concat => "||"
  | .plus => "+"
  | .comma => ","
  | .leftParen => "("
  | .rightParen => ")"
  | .semicolon => ";"
  | .asterisk => "*"

/-- The symbol that a spelling stands for: `!=` and `<>` are one. -/
def canonical : Symbol → Symbol
  | .bangEqual => .notEqual
  | s => s

end Symbol

end SqlStore
