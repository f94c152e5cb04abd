import SqlStore.Connection
import SqlStore.Proofs.History
import SqlStore.Proofs.Query

/-!
# Entry points

A shared database runs a script as a database does, with its own way to run one statement, and a connection runs it
on the shared database behind it. `Connection.Agrees` says that they do what the database does, call by call; it
holds after any calls (`agrees_after`).
-/

namespace SqlStore

/-! ## Shared databases -/

theorem Script.run_mapState {σ τ α : Type} {step : σ → Statement → Effect σ StoreError α}
    {step' : τ → Statement → Effect τ StoreError α} {f : σ → τ}
    (hstep : ∀ s statement, step' (f s) statement = (step s statement).mapState f) (s : σ) (script : Script) :
    run step' (f s) script = (run step s script).mapState f := by
  induction script generalizing s with
  | nil => rfl
  | cons statement script ih =>
      rw [run, run, hstep]
      cases h : (step s statement).result with
      | error e => simp [Effect.mapState, h]
      | ok a => simp [Effect.mapState, h, ih]

namespace Shared

theorem execute_mk (db : Database) (statement : Statement) :
    (Shared.mk db).execute statement = (db.execute statement).mapState Shared.mk := by
  cases statement <;> rfl

theorem run_mk (db : Database) (source : String) : (Shared.mk db).run source = (db.run source).mapState Shared.mk := by
  rw [Shared.run, Database.run, Script.runSource, Script.runSource]
  cases Script.ofSource source with
  | error e => rfl
  | ok script =>
      simp only [Script.run_mapState execute_mk]
      rfl

end Shared

/-! ## Rows -/

namespace Rows

/-- The values of the rows that are still to come. -/
inductive Yields : Rows → List (List Value) → Prop
  | done {rows : Rows} (h : rows.next? = none) : Yields rows []
  | next {rows rest : Rows} {row : List Value} {log : List Event} {values : List (List Value)}
      (h : rows.next? = some (row, log, rest)) (hrest : Yields rest values) : Yields rows (row :: values)

theorem yields_decodeRow (columns : List Column) (cells : List (List Cell)) :
    Yields ⟨columns, cells⟩ (cells.map (Value.decodeRow columns)) := by
  induction cells with
  | nil => exact .done rfl
  | cons row cells ih => exact .next rfl ih

theorem Yields.remaining_eq {rows : Rows} {values : List (List Value)} (h : rows.Yields values) :
    rows.remaining = values.length := by
  induction h with
  | @done rows h =>
      obtain ⟨columns, _ | ⟨row, rest⟩⟩ := rows
      · rfl
      · cases h
  | @next rows rest row log values h _ ih =>
      obtain ⟨columns, _ | ⟨row, rest⟩⟩ := rows
      · cases h
      · cases h
        exact congrArg (· + 1) ih

end Rows

namespace Connection

/-- The results are those of the last selection among the outcomes, if there is one. -/
inductive LastSelected : List Outcome → Results → Prop
  | none {outcomes : List Outcome} (h : ∀ outcome ∈ outcomes, ∀ results, outcome ≠ .selected results) :
      LastSelected outcomes .empty
  | some {before after : List Outcome} {results : Results}
      (h : ∀ outcome ∈ after, ∀ results, outcome ≠ .selected results) :
      LastSelected (before ++ .selected results :: after) results

theorem lastSelected_lastResults (outcomes : List Outcome) : LastSelected outcomes (lastResults outcomes) := by
  have hother : ∀ {later : List Outcome}, later.filterMap Outcome.results? = [] →
      ∀ outcome ∈ later, ∀ results, outcome ≠ .selected results := by
    intro later h outcome hmem results hresults
    have hnone := List.filterMap_eq_nil_iff.1 h outcome hmem
    rw [Outcome.results?_eq_some_iff.2 hresults] at hnone
    cases hnone
  rw [lastResults]
  cases h : (outcomes.filterMap Outcome.results?).getLast? with
  | none => exact .none (hother (List.getLast?_eq_none_iff.1 h))
  | some results =>
      obtain ⟨_, h⟩ := List.getLast?_eq_some_iff.1 h
      obtain ⟨before, later, rfl, -, hlater⟩ := List.filterMap_eq_append_iff.1 h
      obtain ⟨between, outcome, after, rfl, -, houtcome, hafter⟩ := List.filterMap_eq_cons_iff.1 hlater
      rw [Outcome.results?_eq_some_iff.1 houtcome, ← List.append_assoc]
      exact .some (hother hafter)

/-- What a connection makes of the outcomes of a run. -/
inductive Delivers : Except Error (List Outcome) → Except Error Rows → Prop
  | error (e : Error) : Delivers (.error e) (.error e)
  | rows {outcomes : List Outcome} {results : Results} {rows : Rows} (hlast : LastSelected outcomes results)
      (hcolumns : rows.columns = results.columns)
      (hrows : rows.Yields (results.rows.map (Value.decodeRow results.columns))) : Delivers (.ok outcomes) (.ok rows)

/-- A connection does what the database behind it does. -/
structure Agrees (c : Connection) (db : Database) : Prop where
  run : ∀ source, c.shared.run source = (db.run source).mapState Shared.mk
  answer : ∀ source, c.shared.query source = db.query source
  query : ∀ source, Delivers (db.run source).result (c.query source []).result ∧
    (c.query source []).state = ⟨⟨(db.run source).state⟩⟩
  execute : ∀ source, c.execute source [] = (db.perform source).mapState fun db => ⟨⟨db⟩⟩
  refused : ∀ source parameters, parameters ≠ [] →
    c.query source parameters = ⟨.error (.store .parametersNotSupported), c, []⟩ ∧
      c.execute source parameters = ⟨.error (.store .parametersNotSupported), c, []⟩

theorem query_nil (c : Connection) (source : String) :
    c.query source [] = ((c.shared.database.run source).map fun outcomes =>
      Rows.ofResults (lastResults outcomes)).mapState fun db => ⟨⟨db⟩⟩ := by
  have hrun : c.shared.run source = (c.shared.database.run source).mapState Shared.mk := Shared.run_mk _ source
  rw [query, hrun]
  rfl

theorem delivers_query (c : Connection) (source : String) :
    Delivers (c.shared.database.run source).result (c.query source []).result := by
  rw [query_nil]
  generalize c.shared.database.run source = x
  obtain ⟨_ | outcomes, _, _⟩ := x
  · exact .error _
  · exact .rows (lastSelected_lastResults outcomes) rfl (Rows.yields_decodeRow _ _)

theorem execute_nil (c : Connection) (source : String) :
    c.execute source [] = (c.shared.database.perform source).mapState fun db => ⟨⟨db⟩⟩ := by
  rw [execute, query_nil, Database.perform]
  generalize c.shared.database.run source = x
  obtain ⟨_ | _, _, _⟩ := x <;> rfl

theorem query_of_ne_nil (c : Connection) (source : String) {parameters : List Value} (h : parameters ≠ []) :
    c.query source parameters = ⟨.error (.store .parametersNotSupported), c, []⟩ := by
  rw [query, if_neg (by simpa using h)]

theorem agrees_database (c : Connection) : c.Agrees c.shared.database where
  run := Shared.run_mk _
  answer _ := rfl
  query source := ⟨c.delivers_query source, by rw [query_nil]; rfl⟩
  execute := c.execute_nil
  refused source parameters h := by
    rw [execute, c.query_of_ne_nil source h]
    exact ⟨rfl, rfl⟩

/-! ## Calls -/

/-- A call of a shared database or of a connection to it. -/
inductive Call
  | run (source : String)
  | answer (source : String)
  | query (source : String) (parameters : List Value)
  | execute (source : String) (parameters : List Value)

/-- The connection after a call; a query only reads. -/
def after (c : Connection) : Call → Connection
  | .run source => ⟨(c.shared.run source).state⟩
  | .answer _ => c
  | .query source parameters => (c.query source parameters).state
  | .execute source parameters => (c.execute source parameters).state

/-- The source text that a call runs. -/
def Call.text? : Call → Option String
  | .run source => some source
  | .answer _ => none
  | .query source parameters | .execute source parameters => if parameters.isEmpty then some source else none

theorem database_after (c : Connection) (call : Call) :
    (c.after call).shared.database = c.shared.database.runAll call.text?.toList := by
  have hquery : ∀ source parameters, (c.query source parameters).state.shared.database =
      c.shared.database.runAll (if parameters.isEmpty then some source else none).toList := by
    intro source parameters
    cases parameters with
    | nil =>
        rw [query_nil]
        rfl
    | cons _ _ => rfl
  cases call with
  | run source =>
      have hrun : c.shared.run source = (c.shared.database.run source).mapState Shared.mk := Shared.run_mk _ source
      rw [after, hrun]
      rfl
  | answer source => rfl
  | query source parameters => exact hquery source parameters
  | execute source parameters => exact hquery source parameters

theorem database_calls (c : Connection) (calls : List Call) :
    (calls.foldl after c).shared.database = c.shared.database.runAll (calls.filterMap Call.text?) := by
  induction calls generalizing c with
  | nil => rfl
  | cons call calls ih =>
      rw [List.foldl_cons, ih, database_after, List.filterMap_cons]
      cases call.text? <;> rfl

/-- After any calls, shared database and connection do what a database does on which the texts of the calls have been
run: runs, their effects, their errors and their reports are the same, and a connection delivers the rows of the last
selection, with their number known at every row. A query changes nothing. Its answer is that of the run if there are
only selections, and otherwise the error of the first selection that fails before the first other statement, or that
the text is no query. -/
theorem agrees_after (db : Database) (calls : List Call) :
    let c := calls.foldl after ⟨⟨db⟩⟩
    let db' := db.runAll (calls.filterMap Call.text?)
    c.shared.database = db' ∧ c.Agrees db' ∧
      (∀ source x, (db'.query source).result = x ↔ db'.QueryAnswers source x) ∧
      ∀ rows values, Rows.Yields rows values → rows.remaining = values.length := by
  intro c db'
  have hdatabase : c.shared.database = db' := database_calls _ calls
  refine ⟨hdatabase, ?_, fun source x => Database.result_query_eq_iff, fun rows values h => h.remaining_eq⟩
  rw [← hdatabase]
  exact c.agrees_database

end Connection

end SqlStore
