import SqlStore.Expr.Basic

/-!
# Statements

What a script asks for: to create a table, to insert a row, to select rows or to drop a table. Names are kept as
the tokens that write them.
-/

namespace SqlStore

/-- One item of a selection: every column of the table, or an expression with the name it is shown under. -/
inductive SelectItem
  | allColumns
  | expression (expr : Expr) (shownAs : Option Token)
deriving DecidableEq

/-- A selection; without a source it reads one row that has no columns. -/
structure Select where
  items : List SelectItem
  source : Option Token
  condition : Option Expr
  limit : Option Expr
  offset : Option Expr
deriving DecidableEq

structure ColumnDefinition where
  name : Token
  type : Token
  primaryKey : Bool
deriving DecidableEq

inductive Statement
  | select (query : Select)
  | insert (table : Token) (values : List Expr)
  | create (table : Token) (columns : List ColumnDefinition)
  | drop (table : Token)
deriving DecidableEq

/-- Statements in the order in which they run. -/
abbrev Script := List Statement

end SqlStore
