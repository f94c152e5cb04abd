import Std.Data.ExtTreeMap
import SqlStore.Effect
import SqlStore.Selection

/-!
# Databases

Tables by name, and what each statement does to them.
-/

namespace SqlStore

/-- Tables by name; their order is that of the names. -/
structure Database where
  tables : Std.ExtTreeMap String Table

/-- What a statement answers. -/
inductive Outcome
  | created
  | dropped
  | inserted
  | selected (results : Results)
deriving DecidableEq

namespace Outcome

def results? : Outcome → Option Results
  | .selected r => some r
  | _ => none

theorem results?_eq_some_iff {outcome : Outcome} {results : Results} :
    outcome.results? = some results ↔ outcome = .selected results := by
  cases outcome <;> simp [results?]

end Outcome

namespace Database

def empty : Database := ⟨∅⟩

/-- The table of a name. -/
def table? (db : Database) (name : String) : Option Table :=
  db.tables[name]?

/-- The table of a name that has to exist. -/
def table (db : Database) (name : String) : Except StoreError Table :=
  match db.table? name with
  | some table => .ok table
  | none => .error (.noSuchTable name)

/-- The database with a table under a name, in place of any other. -/
def put (db : Database) (name : String) (table : Table) : Database :=
  ⟨db.tables.insert name table⟩

/-- The database without the table of a name. -/
def remove (db : Database) (name : String) : Database :=
  ⟨db.tables.erase name⟩

/-! ## Statements -/

/-- Adds an empty table. -/
def create (name : String) (columns : List ColumnDefinition) : Change Database StoreError Unit := do
  let db ← .get
  if (db.table? name).isSome then .fail (.tableExists name)
  else do
    let table ← .ofLogged (.ofExcept (Table.ofDefinitions columns))
    .report [.created name table.columns.names.length]
    .set (db.put name table)

/-- Changes the table of a name, which has to exist, in its place. -/
def within {α : Type} (name : String) (change : Change Table StoreError α) : Change Database StoreError α := fun db =>
  match db.table? name with
  | some table => (change table).mapState (db.put name)
  | none => ⟨.error (.noSuchTable name), db, []⟩

/-- Adds a row to a table. -/
def insert (name : String) (values : List Expr) : Change Database StoreError Unit :=
  within name do
    Table.insert values
    let table ← .get
    .report [.inserted table.rows.length name]

/-- Removes a table. -/
def drop (name : String) : Change Database StoreError Unit := do
  let db ← .get
  .set (db.remove name)
  if (db.table? name).isSome then .report [.dropped name] else .fail (.noSuchTable name)

/-- The table that a selection reads. -/
def source (db : Database) : Option Token → Except StoreError Table
  | some name => db.table name.text
  | none => .ok .constant

/-- Answers a selection. -/
def select (db : Database) (query : Select) : Logged StoreError Results := do
  let table ← .ofExcept (db.source query.source)
  query.run table

/-- Runs one statement. -/
def execute (db : Database) : Statement → Effect Database StoreError Outcome
  | .create name columns => (create name.text columns db).map fun _ => .created
  | .insert name values => (insert name.text values db).map fun _ => .inserted
  | .select query => .ofLogged db (Outcome.selected <$> db.select query)
  | .drop name => (drop name.text db).map fun _ => .dropped

/-! ## What each change does -/

section

variable {db : Database} {name : String}

theorem create_of_taken {columns : List ColumnDefinition} (h : (db.table? name).isSome) :
    create name columns db = ⟨.error (.tableExists name), db, []⟩ := by
  simp only [create, bind, Change.get, h, ↓reduceIte]
  rfl

theorem create_of_error {columns : List ColumnDefinition} {e : StoreError} (h : db.table? name = none)
    (hcolumns : Table.ofDefinitions columns = .error e) : create name columns db = ⟨.error e, db, []⟩ := by
  simp only [create, bind, Change.get, h, hcolumns, Option.isSome_none, Bool.false_eq_true, ↓reduceIte]
  rfl

theorem create_of_ok {columns : List ColumnDefinition} {table : Table} (h : db.table? name = none)
    (hcolumns : Table.ofDefinitions columns = .ok table) :
    create name columns db = ⟨.ok (), db.put name table, [.created name table.columns.names.length]⟩ := by
  simp only [create, bind, Change.get, h, hcolumns, Option.isSome_none, Bool.false_eq_true, ↓reduceIte]
  rfl

theorem insert_of_none {values : List Expr} (h : db.table? name = none) :
    insert name values db = ⟨.error (.noSuchTable name), db, []⟩ := by
  rw [insert, within, h]

theorem insert_of_some {table : Table} (h : db.table? name = some table) (values : List Expr) :
    (insert name values db).result = (Table.insert values table).result ∧
      (insert name values db).state = db.put name (Table.insert values table).state := by
  rw [insert, within, h]
  simp only [bind, Effect.mapState]
  cases (Table.insert values table).result <;> exact ⟨rfl, rfl⟩

theorem drop_of_none (h : db.table? name = none) :
    drop name db = ⟨.error (.noSuchTable name), db.remove name, []⟩ := by
  simp only [drop, bind, Change.get, Change.set, h]
  rfl

theorem drop_of_some {table : Table} (h : db.table? name = some table) :
    drop name db = ⟨.ok (), db.remove name, [.dropped name]⟩ := by
  simp only [drop, bind, Change.get, Change.set, h]
  rfl

end

theorem result_select (db : Database) (query : Select) :
    (db.select query).result = (do
      let table ← db.source query.source
      (query.run table).result) := by
  simp only [select, Logged.result_bind, Logged.result_ofExcept]

/-! ## Scripts -/

/-- Runs every statement of a source text until one fails, and gives the outcome of each. -/
def run (db : Database) (source : String) : Effect Database Error (List Outcome) :=
  Script.runSource execute db source

/-- Runs a source text for its effect alone. -/
def perform (db : Database) (source : String) : Effect Database Error Unit :=
  (db.run source).map fun _ => ()

/-- Answers a source text made of selections with the results of the last one. -/
def query (db : Database) (source : String) : Logged Error Results :=
  Script.querySource db.select source

/-! ## Tables by name -/

@[ext] theorem ext {db db' : Database} (h : ∀ name, db.table? name = db'.table? name) : db = db' := by
  obtain ⟨tables⟩ := db
  obtain ⟨tables'⟩ := db'
  exact congrArg _ (Std.ExtTreeMap.ext_getElem? h)

@[simp] theorem table?_empty (name : String) : empty.table? name = none := by
  simp [empty, table?]

theorem table_eq_ok_iff {db : Database} {name : String} {table : Table} :
    db.table name = .ok table ↔ db.table? name = some table := by
  unfold Database.table
  cases db.table? name <;> simp

theorem table?_put (db : Database) (name name' : String) (table : Table) :
    (db.put name table).table? name' = if name = name' then some table else db.table? name' := by
  simp [put, table?, Std.ExtTreeMap.getElem?_insert]

theorem put_of_table? {db : Database} {name : String} {table : Table} (h : db.table? name = some table) :
    db.put name table = db := by
  ext1 name'
  rw [table?_put]
  split
  · rw [← h, ‹name = name'›]
  · rfl

theorem table?_remove (db : Database) (name name' : String) :
    (db.remove name).table? name' = if name = name' then none else db.table? name' := by
  simp [remove, table?, Std.ExtTreeMap.getElem?_erase]

theorem remove_of_none {db : Database} {name : String} (h : db.table? name = none) : db.remove name = db := by
  ext1 name'
  rw [table?_remove]
  split
  · rw [← h, ‹name = name'›]
  · rfl

end Database

end SqlStore
