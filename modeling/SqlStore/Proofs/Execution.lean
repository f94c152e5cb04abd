import SqlStore.Proofs.Atomicity
import SqlStore.Proofs.Sequence

/-!
# Execution

`Executes` relates a database to what a script makes of it when every statement succeeds. A run of a source text
executes the statements before the first one that fails, and leaves the database as they made it (`run_prefix`).
-/

namespace SqlStore

open Reading

theorem Script.run_cons_of_ok {σ α : Type} {step : σ → Statement → Effect σ StoreError α} {s : σ} {a : α}
    {statement : Statement} {others : Script} (h : (step s statement).result = .ok a) :
    (run step s (statement :: others)).result = (run step (step s statement).state others).result.map (a :: ·) ∧
      (run step s (statement :: others)).state = (run step (step s statement).state others).state := by
  rw [run, h]
  exact ⟨rfl, rfl⟩

namespace Database

variable {db mid db' : Database} {statement : Statement} {script script' : Script} {outcomes outcomes' : List Outcome}

/-- Every statement succeeds, with these outcomes, on the database that the ones before it leave. -/
inductive Executes : Database → Script → List Outcome → Database → Prop
  | nil (db : Database) : Executes db [] [] db
  | cons {db db' : Database} {statement : Statement} {others : Script} {outcome : Outcome} {outcomes : List Outcome}
      (h : (db.execute statement).result = .ok outcome)
      (hs : Executes (db.execute statement).state others outcomes db') :
      Executes db (statement :: others) (outcome :: outcomes) db'

theorem Executes.append (h : Executes db script outcomes mid) (h' : Executes mid script' outcomes' db') :
    Executes db (script ++ script') (outcomes ++ outcomes') db' := by
  induction h with
  | nil => exact h'
  | cons h _ ih => exact .cons h (ih h')

theorem Executes.exists_append (h : Executes db (script ++ script') outcomes db') :
    ∃ mid before after, outcomes = before ++ after ∧ before.length = script.length ∧
      Executes db script before mid ∧ Executes mid script' after db' := by
  induction script generalizing db outcomes with
  | nil => exact ⟨db, [], outcomes, rfl, rfl, .nil db, h⟩
  | cons statement script ih =>
      cases h with
      | cons h hs =>
          obtain ⟨mid, before, after, rfl, hlength, hbefore, hafter⟩ := ih hs
          exact ⟨mid, _ :: before, after, rfl, congrArg (· + 1) hlength, .cons h hbefore, hafter⟩

theorem Executes.length_eq (h : Executes db script outcomes db') : outcomes.length = script.length := by
  induction h with
  | nil => rfl
  | cons _ _ ih => exact congrArg (· + 1) ih

/-- A statement of an executed script succeeds on the database that the ones before it leave. -/
theorem Executes.exists_at {before after : Script} (h : Executes db (before ++ statement :: after) outcomes db') :
    ∃ mid past outcome rest, outcomes = past ++ outcome :: rest ∧ past.length = before.length ∧
      Executes db before past mid ∧ (mid.execute statement).result = .ok outcome ∧
      Executes (mid.execute statement).state after rest db' := by
  obtain ⟨mid, past, rest, rfl, hlength, hbefore, hafter⟩ := h.exists_append
  cases hafter with
  | cons hstatement hrest => exact ⟨mid, past, _, _, rfl, hlength, hbefore, hstatement, hrest⟩

/-! ## Runs -/

theorem run_of_ofSource (db : Database) {source : String} {script : Script} (h : Script.ofSource source = .ok script) :
    (db.run source).result = (Script.run execute db script).result.mapError .store ∧
      (db.run source).state = (Script.run execute db script).state := by
  rw [run, Script.runSource, h]
  exact ⟨rfl, rfl⟩

theorem run_of_ofSource_error {db : Database} {source : String} {e : SourceError}
    (h : Script.ofSource source = .error e) :
    (db.run source).result = .error (.source e) ∧ (db.run source).state = db := by
  rw [run, Script.runSource, h]
  exact ⟨rfl, rfl⟩

/-- How a run ends on the database that the executed statements leave: no statement is left, or the next one
fails. -/
inductive StopsAt (db : Database) (outcomes : List Outcome) : Script → Except StoreError (List Outcome) → Prop
  | finished : StopsAt db outcomes [] (.ok outcomes)
  | failed {statement : Statement} {others : Script} {e : StoreError} (h : (db.execute statement).result = .error e) :
      StopsAt db outcomes (statement :: others) (.error e)

theorem StopsAt.cons {rest : Script} {answer : Except StoreError (List Outcome)} (h : StopsAt db outcomes rest answer)
    (outcome : Outcome) : StopsAt db (outcome :: outcomes) rest (answer.map (outcome :: ·)) := by
  cases h with
  | finished => exact .finished
  | failed h => exact .failed h

/-- The statements before the first that fails. -/
def executed (db : Database) : Script → Script
  | [] => []
  | statement :: others =>
      match (db.execute statement).result with
      | .ok _ => statement :: executed (db.execute statement).state others
      | .error _ => []

theorem run_executes (db : Database) (script : Script) :
    ∃ rest outcomes, script = db.executed script ++ rest ∧
      Executes db (db.executed script) outcomes (Script.run execute db script).state ∧
      StopsAt (Script.run execute db script).state outcomes rest (Script.run execute db script).result := by
  induction script generalizing db with
  | nil => exact ⟨[], [], rfl, .nil db, .finished⟩
  | cons statement others ih =>
      cases hresult : (db.execute statement).result with
      | error e =>
          have hstate := state_execute_of_error hresult
          simp only [Script.run, executed, hresult, hstate]
          exact ⟨statement :: others, [], rfl, .nil db, .failed hresult⟩
      | ok outcome =>
          obtain ⟨rest, outcomes, hothers, hdone, hstops⟩ := ih (db.execute statement).state
          simp only [Script.run, executed, hresult]
          exact ⟨rest, outcome :: outcomes, congrArg (List.cons statement) hothers, .cons hresult hdone,
            hstops.cons outcome⟩

theorem source_of_table {name : Token} {table : Table} (h : db.table? name.text = some table) :
    db.source (some name) = .ok table := table_eq_ok_iff.2 h

theorem result_execute_select (db : Database) (query : Select) :
    (db.execute (.select query)).result = (db.select query).result.map .selected := by
  change (Outcome.selected <$> db.select query).result = _
  rw [Logged.result_map]
  rfl

theorem exists_results_of_execute {query : Select} {outcome : Outcome}
    (h : (db.execute (.select query)).result = .ok outcome) :
    ∃ results, outcome = .selected results ∧ (db.select query).result = .ok results := by
  rw [result_execute_select] at h
  cases hselect : (db.select query).result with
  | error e =>
      rw [hselect] at h
      cases h
  | ok results =>
      rw [hselect] at h
      cases h
      exact ⟨results, rfl, rfl⟩

/-- A source text of one selection gives its results, run or as a query. -/
theorem answers_of_ofSource {source : String} {query : Select} {results : Results}
    (hsource : Script.ofSource source = .ok [.select query]) (h : (db.select query).result = .ok results) :
    (db.run source).result = .ok [.selected results] ∧ (db.query source).result = .ok results := by
  have hanswer : (db.execute (.select query)).result = .ok (.selected results) := by
    rw [result_execute_select, h]
    rfl
  constructor
  · rw [(run_of_ofSource db hsource).1, (Script.run_cons_of_ok hanswer).1]
    rfl
  · rw [Database.query, Script.querySource, hsource]
    simp only [Script.lastAnswer, Logged.result_bind, h]
    rfl

/-- A statement that fails changes nothing, and neither does a source text that is no script. A script executes the
statements before the first that fails, with one outcome for each of them, and ends with the error of that
one; the results of a selection are those on the database that the statements before it leave. -/
theorem run_prefix (db : Database) :
    (∀ statement e, (db.execute statement).result = .error e → (db.execute statement).state = db) ∧
    ∀ source,
      (∀ e, Script.ofSource source = .error e →
        (db.run source).result = .error (.source e) ∧ (db.run source).state = db) ∧
      ∀ script, Script.ofSource source = .ok script →
        ∃ done rest outcomes answer, script = done ++ rest ∧ outcomes.length = done.length ∧
          Executes db done outcomes (db.run source).state ∧ StopsAt (db.run source).state outcomes rest answer ∧
          (db.run source).result = answer.mapError .store ∧
          ∀ before query after, done = before ++ .select query :: after →
            ∃ mid past results later, outcomes = past ++ .selected results :: later ∧ past.length = before.length ∧
              Executes db before past mid ∧ (mid.select query).result = .ok results := by
  refine ⟨fun statement e h => state_execute_of_error h,
    fun source => ⟨fun e h => run_of_ofSource_error h, fun script h => ?_⟩⟩
  obtain ⟨hresult, hstate⟩ := run_of_ofSource db h
  obtain ⟨rest, outcomes, hscript, hdone, hstops⟩ := run_executes db script
  rw [hstate]
  refine ⟨_, rest, outcomes, _, hscript, hdone.length_eq, hdone, hstops, hresult, ?_⟩
  intro before query after hquery
  rw [hquery] at hdone
  obtain ⟨mid, past, outcome, later, rfl, hlength, hbefore, hselect, -⟩ := hdone.exists_at
  obtain ⟨results, rfl, hresults⟩ := exists_results_of_execute hselect
  exact ⟨mid, past, results, later, rfl, hlength, hbefore, hresults⟩

end Database

end SqlStore
