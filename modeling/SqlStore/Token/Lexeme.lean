import SqlStore.Text.Quoted
import SqlStore.Token.Keyword
import SqlStore.Token.Symbol

/-!
# Lexemes

What a token says, apart from where it stands: its kind and its text, and how both are written.
-/

namespace SqlStore

/-- A kind with a text. The text of an identifier or a string is what stands between its quotes. -/
structure Lexeme where
  kind : TokenKind
  text : String
deriving DecidableEq

/-- A character that can stand inside a bare identifier. -/
def isIdentifierChar (c : Char) : Bool :=
  c.isAlphanum || c == '$' || c == '_'

/-- A text that reads back as the same identifier when written without quotes, if it is no reserved word. -/
def isPlainIdentifier (cs : List Char) : Bool :=
  cs.head?.any Char.isLower && cs.all fun c => isIdentifierChar c && !c.isUpper

namespace Lexeme

def keyword (k : Keyword) : Lexeme := ⟨.keyword, k.spelling⟩

def symbol (s : Symbol) : Lexeme := ⟨.symbol, s.spelling⟩

def identifier (name : String) : Lexeme := ⟨.identifier, name⟩

/-- How tightly an operator binds; whatever is no operator has the power 0. -/
def bindingPower (l : Lexeme) : Nat :=
  if l = keyword .and ∨ l = keyword .or then 1
  else if l = symbol .equal ∨ l = symbol .notEqual then 2
  else if l = symbol .less ∨ l = symbol .greater then 3
  else if l = symbol .lessEqual ∨ l = symbol .greaterEqual then 4
  else if l = symbol .concat ∨ l = symbol .plus then 5
  else 0

/-- The lexeme as it can be written in a source text. -/
def render (l : Lexeme) : String :=
  match l.kind with
  | .string => String.ofList (Text.Quoted.write '\'' l.text.toList)
  | .identifier =>
      if isPlainIdentifier l.text.toList then l.text
      else String.ofList (Text.Quoted.write '"' l.text.toList)
  | _ => l.text

end Lexeme

end SqlStore
