import SqlStore.Effect
import SqlStore.Expr.Eval

/-!
# Tables

Named, typed columns and rows of cells. A row can be shorter than the columns, because values that are no
literals are left out when it is inserted.
-/

namespace SqlStore

/-- Columns, rows in the order of insertion, and the place of the column declared as primary key. -/
structure Table where
  columns : Columns
  rows : List (List Cell)
  primaryKey : Option Nat
deriving DecidableEq

namespace Table

def empty : Table := ⟨.empty, [], none⟩

/-- The table with no columns and one row, on which expressions without a source are evaluated. -/
def constant : Table := { empty with rows := [[]] }

/-! ## Definition -/

/-- The type that a column is declared with. -/
def declaredType (t : Token) : Except StoreError SqlType :=
  if t.lexeme = .keyword .int then .ok .int
  else if t.lexeme = .keyword .text then .ok .text
  else .error (.invalidDatatype t.text)

/-- The table with a column for each definition behind the columns it has. The definitions are counted from `i`;
the last of them that declares a primary key is the one that counts. -/
def define (table : Table) (i : Nat) : List ColumnDefinition → Except StoreError Table
  | [] => .ok table
  | d :: ds => do
      let type ← declaredType d.type
      let columns := table.columns.push ⟨d.name.text, type⟩
      let primaryKey := if d.primaryKey then some i else table.primaryKey
      define { table with columns, primaryKey } (i + 1) ds

/-- A table without rows, or the first column type that no column can have. -/
def ofDefinitions (ds : List ColumnDefinition) : Except StoreError Table :=
  define empty 0 ds

/-! ## Rows -/

/-- The cell stored for a literal; names of columns mean nothing here. -/
def storedCell (t : Token) : Except StoreError Cell :=
  (Expr.evalToken .empty [] t).map Evaluated.cell

/-- The row stored for some values; operations are left out. -/
def storedRow : List Expr → Logged StoreError (List Cell)
  | [] => pure []
  | .literal t :: values => do
      let cell ← .ofExcept (storedCell t)
      let cells ← storedRow values
      return cell :: cells
  | value@(.binary ..) :: values => do
      .report [.skippedValue value]
      storedRow values

/-- Adds a row to the table, given one value for each column. -/
def insert (values : List Expr) : Change Table StoreError Unit := do
  let table ← .get
  if values.length ≠ table.columns.names.length then
    .fail (.missingValues table.columns.names.length values.length)
  else do
    let row ← .ofLogged (storedRow values)
    .set { table with rows := table.rows ++ [row] }

theorem insert_of_length {values : List Expr} {table : Table} (h : values.length = table.columns.names.length) :
    insert values table =
      match (storedRow values).result with
      | .ok row => ⟨.ok (), { table with rows := table.rows ++ [row] }, (storedRow values).log⟩
      | .error e => ⟨.error e, table, (storedRow values).log⟩ := by
  simp only [insert, bind, Change.get, h, ne_eq, not_true_eq_false, ↓reduceIte, Change.ofLogged, Effect.ofLogged,
    Change.set]
  cases (storedRow values).result with
  | error e => rfl
  | ok row => simp

theorem insert_of_length_ne {values : List Expr} {table : Table} (h : values.length ≠ table.columns.names.length) :
    insert values table = ⟨.error (.missingValues table.columns.names.length values.length), table, []⟩ := by
  simp only [insert, bind, Change.get, h, ne_eq, not_false_eq_true, ↓reduceIte]
  rfl

theorem result_insert (values : List Expr) (table : Table) :
    (insert values table).result =
      if values.length = table.columns.names.length then (storedRow values).result.map fun _ => ()
      else .error (.missingValues table.columns.names.length values.length) := by
  split
  · rw [insert_of_length ‹_›]
    cases (storedRow values).result <;> rfl
  · rw [insert_of_length_ne ‹_›]

/-! ## Reading -/

/-- Place of the first column of a name. -/
def columnIndex? (table : Table) (name : String) : Option Nat :=
  table.columns.place? name

/-- An expression on one of the rows. -/
def evaluate (table : Table) (row : Nat) (e : Expr) : Logged StoreError Evaluated :=
  e.eval table.columns (table.rows[row]?.getD [])

/-- Name and type of an expression on any of the rows. -/
def describe (table : Table) (e : Expr) : Except StoreError Column :=
  e.describe table.columns

end Table

end SqlStore
