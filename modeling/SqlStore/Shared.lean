import SqlStore.Database

/-!
# Shared databases

A database that several clients hold. Each statement has it for itself while it runs: a selection only reads it,
any other statement replaces it.
-/

namespace SqlStore

/-- A database behind a handle. -/
structure Shared where
  database : Database

namespace Shared

/-- Runs one statement. -/
def execute (s : Shared) : Statement → Effect Shared StoreError Outcome
  | .select query => .ofLogged s (Outcome.selected <$> s.database.select query)
  | statement => (s.database.execute statement).mapState Shared.mk

/-- Runs every statement of a source text until one fails, and gives the outcome of each. -/
def run (s : Shared) (source : String) : Effect Shared Error (List Outcome) :=
  Script.runSource execute s source

/-- Answers a source text made of selections with the results of the last one. -/
def query (s : Shared) (source : String) : Logged Error Results :=
  Script.querySource s.database.select source

end Shared

end SqlStore
