/-!
# Columns

The types that cells are read with, and columns: one by itself as a name with a type, and those of a table as two
lists that are kept side by side.
-/

namespace SqlStore

inductive SqlType
  | int
  | text
  | bool
deriving DecidableEq

namespace SqlType

def name : SqlType → String
  | .int => "int"
  | .text => "text"
  | .bool => "bool"

end SqlType

structure Column where
  name : String
  type : SqlType
deriving DecidableEq

/-- The columns of a table: a list of names, and a list of types with one for each name (`Parallel`). -/
structure Columns where
  names : List String
  types : List SqlType
deriving DecidableEq

namespace Columns

def empty : Columns := ⟨[], []⟩

/-- The columns with one more at the end of both lists. -/
def push (columns : Columns) (c : Column) : Columns :=
  ⟨columns.names ++ [c.name], columns.types ++ [c.type]⟩

/-- The place of the first column of a name. -/
def place? (columns : Columns) (name : String) : Option Nat :=
  columns.names.findIdx? (· = name)

/-- There are as many types as names. -/
def Parallel (columns : Columns) : Prop :=
  columns.types.length = columns.names.length

theorem parallel_empty : empty.Parallel := rfl

theorem Parallel.push {columns : Columns} (h : columns.Parallel) (c : Column) : (columns.push c).Parallel := by
  rw [Parallel, Columns.push, List.length_append, List.length_append, h]
  rfl

theorem place?_lt {columns : Columns} {name : String} {i : Nat} (h : columns.place? name = some i) :
    i < columns.names.length := by
  obtain ⟨hlt, -⟩ := List.findIdx?_eq_some_iff_getElem.1 h
  exact hlt

end Columns

end SqlStore
