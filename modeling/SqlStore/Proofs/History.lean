import SqlStore.Proofs.Definition
import SqlStore.Proofs.Execution
import SqlStore.Proofs.Literal

/-!
# History of a table

What stands under a name after any number of source texts is decided by the statements that succeeded: the last
creation of the table that no removal follows, and the insertions after it (`table?_runAll`).
-/

namespace SqlStore

open Reading

/-! ## Rows -/

/-- The row has the cell of each literal among the values, in their order. -/
def Table.Stores (values : List Expr) (row : List Cell) : Prop :=
  List.Forall₂ (fun t cell => Cell.ofLexeme t.lexeme = .ok cell) (values.filterMap Expr.literal?) row

theorem Table.RowOf.stores {columns : Columns} {values : List Expr} {row : List Cell}
    (h : RowOf columns values row) : Stores values row := by
  refine h.holds.imp fun t cell hcell => ?_
  obtain ⟨d, hd, rfl⟩ := hcell
  exact Cell.ofLexeme_of_denotes hd

/-! ## One statement and one table -/

namespace Statement

/-- The table that a statement changes. -/
def target? : Statement → Option String
  | .select _ => none
  | .insert table _ | .create table _ | .drop table => some table.text

def Drops (name : String) (statement : Statement) : Prop := ∃ table, statement = .drop table ∧ table.text = name

/-- The values that a statement inserts into the table of a name. -/
def insertion? (name : String) : Statement → Option (List Expr)
  | .insert table values => if table.text = name then some values else none
  | _ => none

theorem insertion?_of_target?_ne {name : String} {statement : Statement} (h : statement.target? ≠ some name) :
    statement.insertion? name = none := by
  cases statement with
  | insert table values =>
      rw [insertion?, if_neg]
      rintro rfl
      exact h rfl
  | _ => rfl

theorem not_drops_of_target?_ne {name : String} {statement : Statement} (h : statement.target? ≠ some name) :
    ¬ statement.Drops name := by
  rintro ⟨table, rfl, rfl⟩
  exact h rfl

end Statement

/-- What a statement that succeeds makes of the table of a name. -/
inductive TableStep (name : String) : Statement → Option Table → Option Table → Prop
  | create {token : Token} {definitions : List ColumnDefinition} {table : Table} (hname : token.text = name)
      (h : Table.ofDefinitions definitions = .ok table) :
      TableStep name (.create token definitions) none (some table)
  | insert {token : Token} {values : List Expr} {table : Table} {row : List Cell} (hname : token.text = name)
      (h : Table.RowOf table.columns values row) :
      TableStep name (.insert token values) (some table) (some { table with rows := table.rows ++ [row] })
  | drop {token : Token} {table : Table} (hname : token.text = name) : TableStep name (.drop token) (some table) none
  | other {statement : Statement} (h : statement.target? ≠ some name) (table : Option Table) :
      TableStep name statement table table

namespace Database

variable {db db' : Database} {name : String}

theorem tableStep_of_create {token : Token} {definitions : List ColumnDefinition} {a : Unit}
    (h : (create token.text definitions db).result = .ok a) :
    TableStep name (.create token definitions) (db.table? name)
      ((create token.text definitions db).state.table? name) := by
  cases hnone : db.table? token.text with
  | some table =>
      rw [create_of_taken (by simp [hnone])] at h
      cases h
  | none =>
      cases htable : Table.ofDefinitions definitions with
      | error e =>
          rw [create_of_error hnone htable] at h
          cases h
      | ok table =>
          rw [create_of_ok hnone htable, table?_put]
          split
          · rename_i hname
            rw [← hname, hnone]
            exact .create rfl htable
          · exact .other (by simpa [Statement.target?]) _

theorem tableStep_of_insert {token : Token} {values : List Expr} {a : Unit}
    (h : (insert token.text values db).result = .ok a) :
    TableStep name (.insert token values) (db.table? name) ((insert token.text values db).state.table? name) := by
  cases htable : db.table? token.text with
  | none =>
      rw [insert_of_none htable] at h
      cases h
  | some table =>
      obtain ⟨hresult, hstate⟩ := insert_of_some htable values
      obtain ⟨row, hrow, hinserted⟩ := Table.exists_rowOf_of_insert (hresult.symm.trans h)
      rw [hstate, hinserted, table?_put]
      split
      · rename_i hname
        rw [← hname, htable]
        exact .insert rfl hrow
      · exact .other (by simpa [Statement.target?]) _

theorem tableStep_of_drop {token : Token} {a : Unit} (h : (drop token.text db).result = .ok a) :
    TableStep name (.drop token) (db.table? name) ((drop token.text db).state.table? name) := by
  cases htable : db.table? token.text with
  | none =>
      rw [drop_of_none htable] at h
      cases h
  | some table =>
      rw [drop_of_some htable, table?_remove]
      split
      · rename_i hname
        rw [← hname, htable]
        exact .drop rfl
      · exact .other (by simpa [Statement.target?]) _

theorem tableStep_of_execute {statement : Statement} {outcome : Outcome}
    (h : (db.execute statement).result = .ok outcome) (name : String) :
    TableStep name statement (db.table? name) ((db.execute statement).state.table? name) := by
  cases statement with
  | select query => exact .other (by simp [Statement.target?]) _
  | create token definitions =>
      obtain ⟨a, h, -⟩ := Effect.result_map_eq_ok_iff.1 h
      exact tableStep_of_create h
  | insert token values =>
      obtain ⟨a, h, -⟩ := Effect.result_map_eq_ok_iff.1 h
      exact tableStep_of_insert h
  | drop token =>
      obtain ⟨a, h, -⟩ := Effect.result_map_eq_ok_iff.1 h
      exact tableStep_of_drop h

/-! ## Executed scripts -/

/-- The values of the insertions into the table of a name. -/
def insertions (name : String) (script : Script) : List (List Expr) := script.filterMap (Statement.insertion? name)

/-- A table that is not dropped keeps what it has, and gets the rows inserted. -/
theorem Executes.table?_of_not_drops {script : Script} {outcomes : List Outcome}
    (h : Executes db script outcomes db') {table : Table} (hdb : db.table? name = some table)
    (hdrops : ∀ statement ∈ script, ¬ statement.Drops name) :
    ∃ rows, db'.table? name = some { table with rows := table.rows ++ rows } ∧
      List.Forall₂ (Table.RowOf table.columns) (insertions name script) rows := by
  induction h generalizing table with
  | nil => exact ⟨[], by simpa using hdb, .nil⟩
  | @cons db db' statement others outcome outcomes hstatement _ ih =>
      have hstep := tableStep_of_execute hstatement name
      have hothers := fun s hs => hdrops s (List.mem_cons_of_mem _ hs)
      rw [hdb] at hstep
      generalize hmid : (db.execute statement).state.table? name = mid at hstep
      cases hstep with
      | @insert token values _ row hname hrow =>
          obtain ⟨rows, hrows, hstores⟩ := ih hmid hothers
          refine ⟨row :: rows, by simpa using hrows, ?_⟩
          have hinsertion : Statement.insertion? name (.insert token values) = some values := if_pos hname
          rw [insertions, List.filterMap_cons, hinsertion]
          exact .cons hrow hstores
      | drop hname => exact absurd ⟨_, rfl, hname⟩ (hdrops _ List.mem_cons_self)
      | other hne =>
          rw [insertions, List.filterMap_cons, Statement.insertion?_of_target?_ne hne]
          exact ih hmid hothers

/-- The table of the name is created by these definitions and not dropped any more in what comes after. -/
def LastCreation (name : String) (script : Script) (definitions : List ColumnDefinition) (after : Script) : Prop :=
  ∃ before token, script = before ++ .create token definitions :: after ∧ token.text = name ∧
    ∀ statement ∈ after, ¬ statement.Drops name

theorem Executes.exists_creation {script : Script} {outcomes : List Outcome} (h : Executes db script outcomes db')
    (hdb' : db'.table? name ≠ none) :
    (db.table? name ≠ none ∧ ∀ statement ∈ script, ¬ statement.Drops name) ∨
      ∃ definitions after, LastCreation name script definitions after := by
  induction h with
  | nil => exact .inl ⟨hdb', by simp⟩
  | @cons db db' statement others outcome outcomes hstatement _ ih =>
      -- if the statements after the first create no table that stays, it was there when they began
      rcases ih hdb' with ⟨hmid, hothers⟩ | ⟨definitions, after, before, token, rfl, hname, hafter⟩
      swap
      · exact .inr ⟨definitions, after, statement :: before, token, rfl, hname, hafter⟩
      have hstep := tableStep_of_execute hstatement name
      generalize (db.execute statement).state.table? name = mid at hstep hmid
      generalize db.table? name = start at hstep
      cases hstep with
      | create hname _ => exact .inr ⟨_, others, [], _, rfl, hname, hothers⟩
      | insert _ _ =>
          refine .inl ⟨by simp, fun s hs => ?_⟩
          rcases List.mem_cons.1 hs with rfl | hs
          · rintro ⟨_, h, -⟩
            cases h
          · exact hothers s hs
      | drop _ => exact absurd rfl hmid
      | other hne =>
          refine .inl ⟨hmid, fun s hs => ?_⟩
          rcases List.mem_cons.1 hs with rfl | hs
          · exact Statement.not_drops_of_target?_ne hne
          · exact hothers s hs

theorem Executes.rows_of_lastCreation {script after : Script} {outcomes : List Outcome}
    {definitions : List ColumnDefinition} (h : Executes db script outcomes db')
    (hlast : LastCreation name script definitions after) :
    ∃ table, db'.table? name = some table ∧ Table.ofDefinitions definitions = .ok { table with rows := [] } ∧
      List.Forall₂ (Table.RowOf table.columns) (insertions name after) table.rows := by
  obtain ⟨before, token, rfl, hname, hafter⟩ := hlast
  obtain ⟨mid, past, outcome, rest, -, -, -, hcreate, hrest⟩ := h.exists_at
  have hstep := tableStep_of_execute hcreate name
  generalize hstart : mid.table? name = start at hstep
  generalize hcreated : (mid.execute (.create token definitions)).state.table? name = created at hstep
  cases hstep with
  | @create _ _ table _ htable =>
      obtain ⟨rows, hrows, hstores⟩ := hrest.table?_of_not_drops hcreated hafter
      have hempty : table.rows = [] := by
        obtain ⟨types, -, rfl⟩ := Table.define_eq_ok_iff.1 htable
        rfl
      rw [hempty, List.nil_append] at hrows
      refine ⟨_, hrows, ?_, hstores⟩
      rw [htable]
      simp [← hempty]
  | other hne => exact absurd (congrArg some hname) hne

theorem Executes.table?_of_lastCreation {script after : Script} {outcomes : List Outcome}
    {definitions : List ColumnDefinition} (h : Executes db script outcomes db')
    (hlast : LastCreation name script definitions after) :
    ∃ table, db'.table? name = some table ∧ Table.ofDefinitions definitions = .ok { table with rows := [] } ∧
      List.Forall₂ Table.Stores (insertions name after) table.rows := by
  obtain ⟨table, htable, hdefinitions, hrows⟩ := h.rows_of_lastCreation hlast
  exact ⟨table, htable, hdefinitions, hrows.imp fun _ _ hrow => hrow.stores⟩

/-! ## Source texts -/

/-- The database after some source texts, run one after another. -/
def runAll (db : Database) (sources : List String) : Database :=
  sources.foldl (fun db source => (db.run source).state) db

/-- The statements that succeed when source texts are run one after another: of each script those before the first that
fails, and none of a text that is no script. -/
def history (db : Database) : List String → Script
  | [] => []
  | source :: sources =>
      (match Script.ofSource source with
        | .ok script => db.executed script
        | .error _ => []) ++ history (db.run source).state sources

theorem runAll_cons (db : Database) (source : String) (sources : List String) :
    db.runAll (source :: sources) = (db.run source).state.runAll sources := rfl

theorem executes_history (db : Database) (sources : List String) :
    ∃ outcomes, Executes db (db.history sources) outcomes (db.runAll sources) := by
  induction sources generalizing db with
  | nil => exact ⟨[], .nil db⟩
  | cons source sources ih =>
      obtain ⟨later, hlater⟩ := ih (db.run source).state
      rw [history, runAll_cons]
      cases hsource : Script.ofSource source with
      | error e =>
          rw [(run_of_ofSource_error hsource).2] at hlater ⊢
          exact ⟨later, hlater⟩
      | ok script =>
          rw [(run_of_ofSource db hsource).2] at hlater ⊢
          obtain ⟨rest, outcomes, -, hdone, -⟩ := run_executes db script
          exact ⟨outcomes ++ later, hdone.append hlater⟩

theorem exists_source_of_mem_history {db : Database} {sources : List String} {statement : Statement}
    (h : statement ∈ db.history sources) :
    ∃ source script, Script.ofSource source = .ok script ∧ statement ∈ script := by
  induction sources generalizing db with
  | nil => cases h
  | cons source sources ih =>
      rw [history, List.mem_append] at h
      rcases h with h | h
      · cases hsource : Script.ofSource source with
        | error e => simp [hsource] at h
        | ok script =>
            rw [hsource] at h
            obtain ⟨rest, outcomes, hscript, -, -⟩ := run_executes db script
            refine ⟨source, script, hsource, ?_⟩
            rw [hscript]
            exact List.mem_append_left _ h
      · exact ih h

/-- A table that source texts have made has a last creation: it is made of its definitions, and of what was inserted
since. -/
theorem exists_lastCreation {sources : List String} {name : String} {table : Table}
    (h : (empty.runAll sources).table? name = some table) :
    ∃ definitions after, LastCreation name (empty.history sources) definitions after ∧
      Table.ofDefinitions definitions = .ok { table with rows := [] } ∧
      List.Forall₂ (Table.RowOf table.columns) (insertions name after) table.rows := by
  obtain ⟨outcomes, hhistory⟩ := executes_history empty sources
  have hsome : (empty.runAll sources).table? name ≠ none := by simp [h]
  rcases hhistory.exists_creation hsome with ⟨hempty, -⟩ | ⟨definitions, after, hlast⟩
  · exact absurd (table?_empty name) hempty
  · obtain ⟨table', htable', hdefinitions, hrows⟩ := hhistory.rows_of_lastCreation hlast
    obtain rfl : table = table' := Option.some.inj (h.symm.trans htable')
    exact ⟨definitions, after, hlast, hdefinitions, hrows⟩

theorem parallel_of_runAll {sources : List String} {name : String} {table : Table}
    (h : (empty.runAll sources).table? name = some table) : table.columns.Parallel := by
  obtain ⟨definitions, after, -, hdefinitions, -⟩ := exists_lastCreation h
  have hparallel : { table with rows := [] }.columns.Parallel := Table.parallel_ofDefinitions hdefinitions
  exact hparallel

/-- A table stands under a name after any source texts exactly if one of the statements that succeeded created it and
none dropped it afterwards. It is what the definitions of that creation make of it, with one row for each insertion
since then, in their order. -/
theorem table?_runAll (sources : List String) (name : String) :
    let db := empty.runAll sources
    let history := empty.history sources
    ((db.table? name).isSome ↔ ∃ definitions after, LastCreation name history definitions after) ∧
      ∀ definitions after, LastCreation name history definitions after →
        ∃ table, db.table? name = some table ∧ Table.ofDefinitions definitions = .ok { table with rows := [] } ∧
          List.Forall₂ Table.Stores (insertions name after) table.rows := by
  intro db history
  obtain ⟨outcomes, hhistory⟩ := executes_history empty sources
  have hlast := fun definitions after (h : LastCreation name history definitions after) =>
    hhistory.table?_of_lastCreation h
  refine ⟨⟨fun hsome => ?_, fun ⟨definitions, after, h⟩ => ?_⟩, hlast⟩
  · rcases hhistory.exists_creation (Option.isSome_iff_ne_none.1 hsome) with ⟨hempty, -⟩ | h
    · exact absurd (table?_empty name) hempty
    · exact h
  · obtain ⟨table, htable, -⟩ := hlast definitions after h
    rw [htable]
    rfl

end Database

end SqlStore
