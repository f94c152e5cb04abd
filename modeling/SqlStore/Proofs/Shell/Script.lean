import SqlStore.Proofs.Execution
import SqlStore.Shell.Session

/-!
# Printing a run

The shell has a loop of its own over the statements of a script, because it prints as it goes. It does what a run of the
source text does: the same database comes out, it succeeds when the run does, and what it prints is told by the outcomes
and the error of the run (`refines_executeSource`).
-/

namespace SqlStore.Shell

variable {db mid : Database} {source : String}

/-- What the shell prints for outcomes: the results of the selections among them, in their order. -/
def showOutcomes (outcomes : List Outcome) : String :=
  String.join ((outcomes.filterMap Outcome.results?).map showResults)

/-- What the shell prints for a source text, by how the run of it ends: without an error, with a text that is no
script, or at a statement that fails after the ones before it have given their outcomes. -/
inductive Prints (db : Database) (source : String) : String → Prop
  | ok {outcomes : List Outcome} (h : (db.run source).result = .ok outcomes) :
      Prints db source (showOutcomes outcomes ++ "ok\n")
  | unreadable {e : SourceError} (hsource : Script.ofSource source = .error e)
      (h : (db.run source).result = .error (.source e)) :
      Prints db source ("Error while parsing: " ++ (Error.source e).message ++ "\n")
  | failed {done others : Script} {statement : Statement} {outcomes : List Outcome} {e : StoreError}
      (hsource : Script.ofSource source = .ok (done ++ statement :: others))
      (hdone : db.Executes done outcomes (db.run source).state)
      (hfails : ((db.run source).state.execute statement).result = .error e)
      (h : (db.run source).result = .error (.store e)) :
      Prints db source
        (showOutcomes outcomes ++ ("Error " ++ activity statement ++ ": " ++ (Error.store e).message ++ "\n"))

/-- The answer of the shell to a source text is that of the run, with what is printed for it. -/
structure Refines (db : Database) (source : String) (answer : Answer) : Prop where
  database : answer.database = (db.run source).state
  succeeded : answer.succeeded = true ↔ ∃ outcomes, (db.run source).result = .ok outcomes
  output : Prints db source answer.output

theorem showOutcomes_cons (outcome : Outcome) (outcomes : List Outcome) :
    showOutcomes (outcome :: outcomes) = showOutcome outcome ++ showOutcomes outcomes := by
  cases outcome <;> simp [showOutcomes, showOutcome, List.filterMap_cons, Outcome.results?]

theorem executeScript_cons_of_ok {statement : Statement} {outcome : Outcome}
    (h : (db.execute statement).result = .ok outcome) (others : Script) :
    let rest := executeScript (db.execute statement).state others
    (executeScript db (statement :: others)).output = showOutcome outcome ++ rest.output ∧
      (executeScript db (statement :: others)).succeeded = rest.succeeded ∧
      (executeScript db (statement :: others)).database = rest.database := by
  rw [executeScript, h]
  exact ⟨rfl, rfl, rfl⟩

/-- The statements that succeed print their results; the others start from the database that these leave. -/
theorem executeScript_append {done : Script} {outcomes : List Outcome} (h : db.Executes done outcomes mid)
    (rest : Script) :
    (executeScript db (done ++ rest)).output = showOutcomes outcomes ++ (executeScript mid rest).output ∧
      (executeScript db (done ++ rest)).succeeded = (executeScript mid rest).succeeded ∧
      (executeScript db (done ++ rest)).database = (executeScript mid rest).database := by
  induction h with
  | nil db => simp [showOutcomes]
  | cons h _ ih =>
      obtain ⟨houtput, hsucceeded, hdatabase⟩ := executeScript_cons_of_ok h (_ ++ rest)
      rw [List.cons_append, houtput, hsucceeded, hdatabase, ih.1, ih.2.1, ih.2.2, showOutcomes_cons,
        String.append_assoc]
      exact ⟨rfl, rfl, rfl⟩

/-- The shell does with a source text what a run of it does. -/
theorem refines_executeSource (db : Database) (source : String) : Refines db source (executeSource db source) := by
  cases hsource : Script.ofSource source with
  | error e =>
      have ⟨hresult, hstate⟩ : _ ∧ (db.run source).state = db := Database.run_of_ofSource_error hsource
      simp only [executeSource, hsource]
      exact ⟨hstate.symm, by simp [hresult], .unreadable hsource hresult⟩
  | ok script =>
      obtain ⟨hresult, hstate⟩ := Database.run_of_ofSource db hsource
      obtain ⟨rest, outcomes, hscript, hdone, hstops⟩ := Database.run_executes db script
      obtain ⟨houtput, hsucceeded, hdatabase⟩ := executeScript_append hdone rest
      rw [← hstate] at hdone hstops houtput hsucceeded hdatabase
      rw [← hscript] at houtput hsucceeded hdatabase
      simp only [executeSource, hsource]
      generalize (Script.run Database.execute db script).result = answer at hstops hresult
      cases hstops with
      | finished =>
          refine ⟨hdatabase, by simp [hsucceeded, hresult, executeScript, Except.mapError], ?_⟩
          rw [houtput]
          exact .ok hresult
      | @failed statement others e hfails =>
          simp only [executeScript, hfails, Database.state_execute_of_error hfails] at houtput hsucceeded hdatabase
          refine ⟨hdatabase, by simp [hsucceeded, hresult, Except.mapError], ?_⟩
          rw [houtput]
          exact .failed (hscript ▸ hsource) hdone hfails hresult

end SqlStore.Shell
