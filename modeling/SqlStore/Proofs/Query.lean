import SqlStore.Proofs.Execution

/-!
# Queries

A query is answered without changing anything, so it takes selections only. On a text of selections it gives the last
answer that a run of the text gives, or the error of the run; any other text fails at the first selection that does or
at the first statement that is no selection, whichever stands earlier (`result_query_eq_iff`).
-/

namespace SqlStore

open Reading

/-! ## Scripts that begin with selections -/

namespace Script

theorem exists_selections (script : Script) :
    ∃ (queries : List Select) (rest : Script), script = queries.map Statement.select ++ rest ∧
      ∀ statement ∈ rest.head?, ∀ query, statement ≠ .select query := by
  induction script with
  | nil => exact ⟨[], [], rfl, nofun⟩
  | cons statement script ih =>
      cases statement with
      | select query =>
          obtain ⟨queries, rest, rfl, hrest⟩ := ih
          exact ⟨query :: queries, rest, rfl, hrest⟩
      | _ => exact ⟨[], _, rfl, by rintro _ ⟨⟩ _ ⟨⟩⟩

variable {α : Type} {answer : Select → Logged StoreError α} {last : Option α}

/-- Selections are answered one after another; what comes after them starts from the last of their answers. -/
theorem result_lastAnswer_append (queries : List Select) (rest : Script) :
    (lastAnswer answer last (queries.map Statement.select ++ rest)).result = (do
      let answers ← queries.mapM fun query => (answer query).result
      (lastAnswer answer (answers.getLast?.or last) rest).result) := by
  induction queries generalizing last with
  | nil => rfl
  | cons query queries ih =>
      rw [List.map_cons, List.cons_append, lastAnswer, Logged.result_bind, List.mapM_cons]
      cases (answer query).result with
      | error e => rfl
      | ok a =>
          simp only [bind, Except.bind, ih]
          cases queries.mapM fun query => (answer query).result with
          | error e => rfl
          | ok answers => simp [pure, Except.pure, List.getLast?_cons]

theorem result_lastAnswer_of_ne_select {statement : Statement} (h : ∀ query, statement ≠ .select query)
    (others : Script) : (lastAnswer answer last (statement :: others)).result = .error .notAQuery := by
  cases statement with
  | select query => exact absurd rfl (h query)
  | _ => rfl

end Script

namespace Database

variable {db : Database} {source : String} {x : Except Error Results}

theorem run_selections (db : Database) (queries : List Select) :
    (Script.run execute db (queries.map Statement.select)).result =
        (queries.mapM fun query => (db.select query).result).map (List.map Outcome.selected) ∧
      (Script.run execute db (queries.map Statement.select)).state = db := by
  induction queries with
  | nil => exact ⟨rfl, rfl⟩
  | cons query queries ih =>
      rw [List.map_cons, List.mapM_cons, Script.run]
      -- the other selections answer on the same database
      have hstate : (db.execute (.select query)).state = db := rfl
      rw [result_execute_select, hstate]
      cases (db.select query).result with
      | error e => exact ⟨rfl, rfl⟩
      | ok results =>
          refine ⟨?_, ih.2⟩
          simp only [Except.map, ih.1, bind, Except.bind]
          cases queries.mapM fun query => (db.select query).result <;> rfl

/-! ## Answers -/

/-- What a query answers. A text of selections alone, and of at least one, answers as its run does. -/
inductive QueryAnswers (db : Database) (source : String) : Except Error Results → Prop
  | unreadable {e : SourceError} (h : Script.ofSource source = .error e) : QueryAnswers db source (.error (.source e))
  | last {queries : List Select} {outcomes : List Outcome} {results : Results}
      (h : Script.ofSource source = .ok (queries.map .select)) (hne : queries ≠ [])
      (hrun : (db.run source).result = .ok (outcomes ++ [.selected results])) : QueryAnswers db source (.ok results)
  | runFails {queries : List Select} {e : Error} (h : Script.ofSource source = .ok (queries.map .select))
      (hne : queries ≠ []) (hrun : (db.run source).result = .error e) : QueryAnswers db source (.error e)
  | noStatement (h : Script.ofSource source = .ok []) : QueryAnswers db source (.error (.store .notAQuery))
  | selectionFails {queries : List Select} {statement : Statement} {others : Script} {e : StoreError}
      (h : Script.ofSource source = .ok (queries.map .select ++ statement :: others))
      (hstatement : ∀ query, statement ≠ .select query)
      (hfails : FirstFails (fun query => (db.select query).result) queries e) :
      QueryAnswers db source (.error (.store e))
  | noSelection {queries : List Select} {statement : Statement} {others : Script}
      (h : Script.ofSource source = .ok (queries.map .select ++ statement :: others))
      (hstatement : ∀ query, statement ≠ .select query)
      (hall : ∀ query ∈ queries, ∃ results, (db.select query).result = .ok results) :
      QueryAnswers db source (.error (.store .notAQuery))

theorem result_query_of_ofSource {script : Script} (h : Script.ofSource source = .ok script) :
    (db.query source).result = (Script.lastAnswer db.select none script).result.mapError .store := by
  rw [Database.query, Script.querySource, h]

/-- On selections alone, a query ends as a run does: with the last answer, or with the error. -/
theorem query_selections (db : Database) {queries : List Select} (h : Script.ofSource source = .ok (queries.map .select))
    (hne : queries ≠ []) :
    (∃ outcomes results, (db.run source).result = .ok (outcomes ++ [.selected results]) ∧
      (db.query source).result = .ok results) ∨
    ∃ e, (db.run source).result = .error e ∧ (db.query source).result = .error e := by
  have hquery := @Script.result_lastAnswer_append _ db.select none queries []
  rw [List.append_nil] at hquery
  rw [(run_of_ofSource db h).1, (run_selections db queries).1, result_query_of_ofSource h, hquery]
  cases hanswers : queries.mapM fun query => (db.select query).result with
  | error e => exact .inr ⟨.store e, rfl, rfl⟩
  | ok answers =>
      have hlength : queries.length = answers.length := (mapM_eq_ok_iff.1 hanswers).length_eq
      rcases answers.eq_nil_or_concat with rfl | ⟨before, results, rfl⟩
      · exact absurd (List.length_eq_zero_iff.1 hlength) hne
      · refine .inl ⟨before.map .selected, results, by simp [Except.map, Except.mapError], ?_⟩
        simp [bind, Except.bind, Script.lastAnswer, Except.mapError]

theorem result_of_queryAnswers (h : db.QueryAnswers source x) : (db.query source).result = x := by
  cases h with
  | unreadable h =>
      rw [Database.query, Script.querySource, h]
      rfl
  | last h hne hrun =>
      rcases query_selections db h hne with ⟨_, results, hrun', hquery⟩ | ⟨e, hrun', -⟩
      · rw [hrun, Except.ok.injEq] at hrun'
        have hlast := congrArg List.getLast? hrun'
        simp only [List.getLast?_append, List.getLast?_singleton, Option.some_or, Option.some.injEq,
          Outcome.selected.injEq] at hlast
        rw [hquery, hlast]
      · rw [hrun] at hrun'
        cases hrun'
  | runFails h hne hrun =>
      rcases query_selections db h hne with ⟨_, _, hrun', -⟩ | ⟨e, hrun', hquery⟩
      · rw [hrun] at hrun'
        cases hrun'
      · rw [hrun] at hrun'
        cases hrun'
        exact hquery
  | noStatement h =>
      rw [result_query_of_ofSource h]
      rfl
  | selectionFails h _ hfails =>
      rw [result_query_of_ofSource h, Script.result_lastAnswer_append, mapM_eq_error_iff.2 hfails]
      rfl
  | noSelection h hstatement hall =>
      obtain ⟨answers, hanswers⟩ := exists_forall₂_iff.2 hall
      rw [result_query_of_ofSource h, Script.result_lastAnswer_append, mapM_eq_ok_iff.2 hanswers]
      simp only [bind, Except.bind, Script.result_lastAnswer_of_ne_select hstatement]
      rfl

theorem exists_queryAnswers (db : Database) (source : String) : ∃ x, db.QueryAnswers source x := by
  cases h : Script.ofSource source with
  | error e => exact ⟨_, .unreadable h⟩
  | ok script =>
      obtain ⟨queries, rest, rfl, hrest⟩ := script.exists_selections
      cases rest with
      | cons statement others =>
          have hstatement := hrest statement rfl
          cases hanswers : queries.mapM fun query => (db.select query).result with
          | error e => exact ⟨_, .selectionFails h hstatement (mapM_eq_error_iff.1 hanswers)⟩
          | ok answers =>
              exact ⟨_, .noSelection h hstatement (exists_forall₂_iff.1 ⟨answers, mapM_eq_ok_iff.1 hanswers⟩)⟩
      | nil =>
          rw [List.append_nil] at h
          by_cases hne : queries = []
          · rw [hne] at h
            exact ⟨_, .noStatement h⟩
          rcases query_selections db h hne with ⟨_, results, hrun, -⟩ | ⟨e, hrun, -⟩
          · exact ⟨_, .last h hne hrun⟩
          · exact ⟨_, .runFails h hne hrun⟩

theorem result_query_eq_iff : (db.query source).result = x ↔ db.QueryAnswers source x := by
  refine ⟨fun h => ?_, result_of_queryAnswers⟩
  obtain ⟨y, hy⟩ := exists_queryAnswers db source
  rw [← h, result_of_queryAnswers hy]
  exact hy

end Database

end SqlStore
