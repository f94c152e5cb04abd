import SqlStore.Shared

/-!
# Connections

Querying a shared database for decoded rows, one at a time.
-/

namespace SqlStore

/-- The rows of an answer that have not been taken yet. -/
structure Rows where
  columns : List Column
  rest : List (List Cell)

namespace Rows

def ofResults (r : Results) : Rows := ⟨r.columns, r.rows⟩

/-- How many rows are still to come. -/
def remaining (rows : Rows) : Nat := rows.rest.length

/-- The next row and the rows after it, with what reading it reports. -/
def next? (rows : Rows) : Option (List Value × List Event × Rows) :=
  match rows.rest with
  | [] => none
  | row :: rest =>
      some (Value.decodeRow rows.columns row, Cell.readRowLog rows.columns row, ⟨rows.columns, rest⟩)

end Rows

/-- A client's access to a shared database. -/
structure Connection where
  shared : Shared

namespace Connection

/-- The results of the last selection among some outcomes, or no columns and no rows. -/
def lastResults (outcomes : List Outcome) : Results :=
  (outcomes.filterMap Outcome.results?).getLast?.getD .empty

/-- Runs a source text and gives the rows of its last selection; parameters are refused. -/
def query (c : Connection) (source : String) (parameters : List Value) : Effect Connection Error Rows :=
  if parameters.isEmpty then
    ((c.shared.run source).map fun outcomes => Rows.ofResults (lastResults outcomes)).mapState Connection.mk
  else ⟨.error (.store .parametersNotSupported), c, []⟩

/-- Runs a source text. -/
def execute (c : Connection) (source : String) (parameters : List Value) : Effect Connection Error Unit :=
  (c.query source parameters).map fun _ => ()

end Connection

end SqlStore
