import SqlStore.Cell
import SqlStore.Log

/-!
# Values

A cell read with a type.
-/

namespace SqlStore

inductive Value
  | int (n : Int32)
  | text (s : String)
  | bool (b : Bool)
deriving DecidableEq

namespace Value

/-- Reads a cell as a type. -/
def decode (type : SqlType) (c : Cell) : Value :=
  match type with
  | .int => .int c.toInt
  | .text => .text c.toText
  | .bool => .bool c.toBool

/-- The type that a value is read with. -/
def type : Value → SqlType
  | .int _ => .int
  | .text _ => .text
  | .bool _ => .bool

def int? : Value → Option Int32
  | .int n => some n
  | _ => none

def text? : Value → Option String
  | .text s => some s
  | _ => none

def bool? : Value → Option Bool
  | .bool b => some b
  | _ => none

def render : Value → String
  | .int n => toString n.toInt
  | .text s => s
  | .bool b => if b then "true" else "false"

/-- Reads the cells of a row, each as its column's type. -/
def decodeRow (columns : List Column) (row : List Cell) : List Value :=
  List.zipWith (fun column cell => decode column.type cell) columns row

@[simp] theorem type_decode (type : SqlType) (c : Cell) : (decode type c).type = type := by
  cases type <;> rfl

end Value

namespace Cell

/-- Reading a cell with fewer than four bytes as an integer is reported. -/
def intLog (c : Cell) : List Event :=
  if (word? c.bytes).isSome then [] else [.corruptedInt c.bytes]

/-- What is reported when a cell is read as a type. -/
def readLog (type : SqlType) (c : Cell) : List Event :=
  match type with
  | .int => c.intLog
  | _ => []

/-- What is reported when the cells of a row are read, each as its column's type. -/
def readRowLog (columns : List Column) (row : List Cell) : List Event :=
  (List.zipWith (fun (column : Column) cell => readLog column.type cell) columns row).flatten

end Cell

end SqlStore
