/-!
# Positions

A place in a source text, as its line and column. `advance_append` lets a position be moved over a text
piece by piece.
-/

namespace SqlStore

/-- Line and column of a place in a text, both counted from zero; a column counts the UTF-8 bytes since the
last line feed. -/
structure Position where
  line : Nat
  column : Nat
deriving DecidableEq

namespace Position

/-- The beginning of a text. -/
def origin : Position := ⟨0, 0⟩

/-- The place some bytes further on the same line. -/
def forward (p : Position) (bytes : Nat) : Position := ⟨p.line, p.column + bytes⟩

/-- The beginning of the next line. -/
def nextLine (p : Position) : Position := ⟨p.line + 1, 0⟩

/-- The place after one more character. -/
def next (p : Position) (c : Char) : Position :=
  if c = '\n' then ⟨p.line + 1, 0⟩ else ⟨p.line, p.column + c.utf8Size⟩

/-- The place after some more characters. -/
def advance (p : Position) (cs : List Char) : Position :=
  cs.foldl next p

@[simp] theorem advance_nil (p : Position) : p.advance [] = p := rfl

@[simp] theorem advance_cons (p : Position) (c : Char) (cs : List Char) :
    p.advance (c :: cs) = (p.next c).advance cs := rfl

@[simp] theorem advance_append (p : Position) (cs ds : List Char) :
    p.advance (cs ++ ds) = (p.advance cs).advance ds := by
  simp [advance]

/-- Written as line, colon, column. -/
def render (p : Position) : String :=
  toString p.line ++ ":" ++ toString p.column

end Position

end SqlStore
