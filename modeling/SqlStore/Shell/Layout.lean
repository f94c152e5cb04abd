import SqlStore.Selection
import SqlStore.Text.Blank

/-!
# Printed tables

Results as lines of text: the names, a line of dashes, one line for each row and the number of rows. Every cell
is filled up with spaces to its column's width, and what is blank at the end of a line is left out.
-/

namespace SqlStore.Shell

/-- A value as it is printed; a boolean is a single letter. -/
def showValue : Value → List Char
  | .bool true => ['t']
  | .bool false => ['f']
  | v => v.render.toList

/-- The texts of a row. -/
def showRow (columns : List Column) (row : List Cell) : List (List Char) :=
  (Value.decodeRow columns row).map showValue

/-- Widths that also have room for some texts, counted in characters. -/
def widen : List Nat → List (List Char) → List Nat
  | width :: widths, text :: texts => max width text.length :: widen widths texts
  | widths, _ => widths

/-- The width of each column: the bytes of its name or the characters of its longest text, whichever is
more. -/
def widths (columns : List Column) (rows : List (List (List Char))) : List Nat :=
  rows.foldl widen (columns.map fun c => c.name.utf8ByteSize)

/-- The text with spaces after it, up to a width. -/
def pad (width : Nat) (text : List Char) : List Char :=
  text ++ List.replicate (width - text.length) ' '

/-- The texts of a line side by side, before blanks are left out at its end. -/
def fullLine (widths : List Nat) (texts : List (List Char)) : List Char :=
  [' ', '|', ' '].intercalate (List.zipWith pad widths texts)

def line (widths : List Nat) (texts : List (List Char)) : List Char :=
  Text.trimEnd (fullLine widths texts)

/-- The dashes between names and rows. -/
def separator (widths : List Nat) : List Char :=
  ['-', '+', '-'].intercalate (widths.map fun width => List.replicate width '-')

/-- The number of rows. -/
def countLine (n : Nat) : List Char :=
  if n = 1 then "(1 result)".toList else ("(" ++ toString n ++ " results)").toList

/-- The lines of a printed table. -/
def tableLines (r : Results) : List (List Char) :=
  if r.rows.isEmpty then ["(no results)".toList]
  else
    let rows := r.rows.map (showRow r.columns)
    let ws := widths r.columns rows
    line ws (r.columns.map fun c => c.name.toList) :: separator ws :: rows.map (line ws) ++
      [countLine r.rows.length]

/-- The lines one after another, each with a line feed. -/
def showResults (r : Results) : String :=
  String.ofList ((tableLines r).flatMap fun cs => cs ++ ['\n'])

/-- What is reported when results are printed. -/
def showLog (r : Results) : List Event :=
  r.rows.flatMap (Cell.readRowLog r.columns)

end SqlStore.Shell
