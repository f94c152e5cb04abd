import SqlStore.Position
import SqlStore.Token.Lexeme

/-!
# Tokens

A lexeme with the place where it stands in a source text.
-/

namespace SqlStore

/-- A lexeme from `start` up to `stop`, which is just past its last character. -/
structure Token where
  lexeme : Lexeme
  start : Position
  stop : Position
deriving DecidableEq

namespace Token

abbrev kind (t : Token) : TokenKind := t.lexeme.kind

abbrev text (t : Token) : String := t.lexeme.text

/-- A lexeme that stands nowhere in particular. -/
def ofLexeme (l : Lexeme) : Token := ⟨l, .origin, .origin⟩

end Token

end SqlStore
