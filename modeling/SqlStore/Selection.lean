import SqlStore.Table
import SqlStore.Value

/-!
# Selections

What a selection yields on a table: the rows that the condition keeps, without the first OFFSET of them and up to
LIMIT, each with its items evaluated. Names and types of the columns are taken from the first row shown, or from
the items alone if no row is shown.
-/

namespace SqlStore

/-- Columns, and rows with one cell for each of them. -/
structure Results where
  columns : List Column
  rows : List (List Cell)
deriving DecidableEq

namespace Results

def empty : Results := ⟨[], []⟩

end Results

/-! ## Items -/

/-- An expression that makes one result column, and the name given to the column. -/
structure Projection where
  expr : Expr
  shownAs : Option String
deriving DecidableEq

namespace Projection

/-- The column under the name given to it. -/
def rename (p : Projection) (c : Column) : Column :=
  ⟨p.shownAs.getD c.name, c.type⟩

def eval (p : Projection) (columns : Columns) (row : List Cell) : Logged StoreError Evaluated := do
  let v ← p.expr.eval columns row
  return ⟨p.rename v.column, v.cell⟩

def describe (p : Projection) (columns : Columns) : Except StoreError Column :=
  (p.expr.describe columns).map p.rename

end Projection

namespace SelectItem

/-- The result columns of an item: an asterisk makes one for each column of the table. -/
def expand (columns : Columns) : SelectItem → List Projection
  | .allColumns => columns.names.map fun name => ⟨.literal (.ofLexeme (.identifier name)), none⟩
  | .expression e shownAs => [⟨e, shownAs.map Token.text⟩]

end SelectItem

namespace CountClause

/-- The row count that a clause asks for: an integer with a value, at least 0. -/
def count (clause : CountClause) (e : Expr) : Logged StoreError Nat := do
  let v ← e.eval .empty []
  if v.column.type ≠ .int ∨ v.cell.isEmpty then .fail (.invalidOperands (.notInt clause v.column.type))
  else if v.cell.toInt < 0 then .fail (.invalidOperands (.negative clause))
  else return v.cell.toInt.toInt.toNat

/-- The row count of a clause that may be missing. -/
def count? (clause : CountClause) (e : Option Expr) : Logged StoreError (Option Nat) :=
  match e with
  | none => pure none
  | some e => some <$> clause.count e

end CountClause

namespace Select

/-- The result columns' expressions on a table. -/
def projections (query : Select) (columns : Columns) : List Projection :=
  query.items.flatMap (SelectItem.expand columns)

/-- The condition holds on a row; without a condition it does. -/
def keeps (query : Select) (columns : Columns) (row : List Cell) : Logged StoreError Bool :=
  match query.condition with
  | none => pure true
  | some e => do
      let v ← e.eval columns row
      return v.cell.toBool

/-- The items of a row. -/
def project (query : Select) (columns : Columns) (row : List Cell) : Logged StoreError (List Evaluated) :=
  (query.projections columns).mapM fun p => p.eval columns row

/-- Goes through the rows: leaves out those that the condition drops, then `skip` more, and shows the others
until `limit` are shown. -/
def scan (query : Select) (columns : Columns) (limit : Option Nat) (skip : Nat) :
    List (List Cell) → Logged StoreError (List (List Evaluated))
  | [] => pure []
  | row :: rows =>
      if limit = some 0 then pure []
      else do
        if ← query.keeps columns row then
          match skip with
          | skip + 1 => scan query columns limit skip rows
          | 0 => do
              let shown ← query.project columns row
              let others ← scan query columns (limit.map (· - 1)) 0 rows
              return shown :: others
        else scan query columns limit skip rows

/-- The result columns, given the rows shown. -/
def resultColumns (query : Select) (columns : Columns) :
    List (List Evaluated) → Except StoreError (List Column)
  | shown :: _ => .ok (shown.map Evaluated.column)
  | [] => (query.projections columns).mapM fun p => p.describe columns

/-- The selection on its table; nothing is looked at if no items are asked for. -/
def run (query : Select) (table : Table) : Logged StoreError Results :=
  if query.items.isEmpty then pure .empty
  else do
    let limit ← CountClause.limit.count? query.limit
    let offset ← CountClause.offset.count? query.offset
    let shown ← query.scan table.columns limit (offset.getD 0) table.rows
    let columns ← .ofExcept (query.resultColumns table.columns shown)
    .report [.selected shown.length table.rows.length (query.source.map Token.text)]
    return ⟨columns, shown.map fun row => row.map Evaluated.cell⟩

/-! ## Results alone -/

variable (query : Select) (columns : Columns) (limit : Option Nat) (skip : Nat)

@[simp] theorem result_scan_nil : (query.scan columns limit skip []).result = .ok [] := rfl

theorem result_scan_cons (row : List Cell) (rows : List (List Cell)) :
    (query.scan columns limit skip (row :: rows)).result =
      if limit = some 0 then .ok []
      else (do
        if ← (query.keeps columns row).result then
          match skip with
          | skip + 1 => (query.scan columns limit skip rows).result
          | 0 => do
              let shown ← (query.project columns row).result
              let others ← (query.scan columns (limit.map (· - 1)) 0 rows).result
              return shown :: others
        else (query.scan columns limit skip rows).result) := by
  rw [scan.eq_def]
  dsimp only
  split
  · rfl
  · rw [Logged.result_bind]
    congr 1
    funext kept
    cases kept with
    | false => rfl
    | true =>
        cases skip with
        | succ skip => rfl
        | zero => simp only [↓reduceIte, Logged.result_bind, Logged.result_pure]; rfl

theorem result_run (table : Table) :
    (query.run table).result =
      if query.items.isEmpty then .ok .empty
      else (do
        let limit ← (CountClause.limit.count? query.limit).result
        let offset ← (CountClause.offset.count? query.offset).result
        let shown ← (query.scan table.columns limit (offset.getD 0) table.rows).result
        let columns ← query.resultColumns table.columns shown
        return ⟨columns, shown.map fun row => row.map Evaluated.cell⟩) := by
  rw [run]
  split
  · rfl
  · simp only [Logged.result_bind, Logged.result_ofExcept, Logged.result_report, Logged.result_pure]
    rfl

end Select

end SqlStore
