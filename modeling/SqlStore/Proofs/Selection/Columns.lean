import SqlStore.Database
import SqlStore.Proofs.Expr.Evaluation

/-!
# Columns of results

The result columns of a selection follow from its items and from the columns of its table; the rows that are shown
have no say in them (`columns_of_select`).
-/

namespace SqlStore

open Reading

theorem Projection.describe_of_eval {p : Projection} {columns : Columns} {row : List Cell} {v : Evaluated}
    (h : (p.eval columns row).result = .ok v) : p.describe columns = .ok v.column := by
  rw [eval, Logged.result_bind] at h
  obtain ⟨w, hw, h⟩ := exists_of_bind_eq_ok h
  cases h
  rw [describe, Expr.describe_of_eval hw]
  rfl

namespace Select

variable {query : Select} {columns : Columns}

theorem describe_of_project {row : List Cell} {shown : List Evaluated}
    (h : (query.project columns row).result = .ok shown) :
    ((query.projections columns).mapM fun p => p.describe columns) = .ok (shown.map Evaluated.column) := by
  rw [project, Logged.result_mapM, mapM_eq_ok_iff] at h
  rw [mapM_eq_ok_iff, List.forall₂_map_right_iff]
  exact h.imp fun p v hv => Projection.describe_of_eval hv

/-- Whatever is shown is the projection of one of the rows. -/
theorem exists_row_of_scan {limit : Option Nat} {skip : Nat} {rows : List (List Cell)} {shown : List (List Evaluated)}
    (h : (query.scan columns limit skip rows).result = .ok shown) :
    ∀ values ∈ shown, ∃ row ∈ rows, (query.project columns row).result = .ok values := by
  induction rows generalizing limit skip shown with
  | nil =>
      cases h
      simp
  | cons row rows ih =>
      have hlater : ∀ {limit skip shown}, (query.scan columns limit skip rows).result = .ok shown →
          ∀ values ∈ shown, ∃ row' ∈ row :: rows, (query.project columns row').result = .ok values := by
        intro limit skip shown h values hvalues
        obtain ⟨row', hrow', hproject⟩ := ih h values hvalues
        exact ⟨row', List.mem_cons_of_mem _ hrow', hproject⟩
      rw [result_scan_cons] at h
      split at h
      · cases h
        simp
      obtain ⟨kept, -, h⟩ := exists_of_bind_eq_ok h
      cases kept with
      | false => exact hlater h
      | true =>
          cases skip with
          | succ skip => exact hlater h
          | zero =>
              obtain ⟨first, hfirst, h⟩ := exists_of_bind_eq_ok h
              obtain ⟨others, hothers, h⟩ := exists_of_bind_eq_ok h
              cases h
              intro values hvalues
              rcases List.mem_cons.1 hvalues with rfl | hvalues
              · exact ⟨row, List.mem_cons_self, hfirst⟩
              · exact hlater hothers values hvalues

theorem describe_of_resultColumns {rows : List (List Cell)} {shown : List (List Evaluated)} {result : List Column}
    (hshown : ∀ values ∈ shown, ∃ row ∈ rows, (query.project columns row).result = .ok values)
    (h : query.resultColumns columns shown = .ok result) :
    ((query.projections columns).mapM fun p => p.describe columns) = .ok result := by
  cases shown with
  | nil => exact h
  | cons first others =>
      obtain ⟨row, -, hproject⟩ := hshown first List.mem_cons_self
      cases h
      exact describe_of_project hproject

/-- The columns of a result describe the items, and every row has one cell for each of them. -/
theorem columns_of_run {table : Table} {results : Results} (hitems : query.items ≠ [])
    (h : (query.run table).result = .ok results) :
    ((query.projections table.columns).mapM fun p => p.describe table.columns) = .ok results.columns ∧
      ∀ row ∈ results.rows, row.length = results.columns.length := by
  rw [result_run, if_neg (by simpa using hitems)] at h
  obtain ⟨limit, -, h⟩ := exists_of_bind_eq_ok h
  obtain ⟨offset, -, h⟩ := exists_of_bind_eq_ok h
  obtain ⟨shown, hscan, h⟩ := exists_of_bind_eq_ok h
  obtain ⟨result, hresult, h⟩ := exists_of_bind_eq_ok h
  cases h
  have hshown := exists_row_of_scan hscan
  have hdescribe := describe_of_resultColumns hshown hresult
  refine ⟨hdescribe, fun cells hcells => ?_⟩
  obtain ⟨values, hvalues, rfl⟩ := List.mem_map.1 hcells
  obtain ⟨row, -, hproject⟩ := hshown values hvalues
  have hvalues := describe_of_project hproject
  rw [hdescribe] at hvalues
  cases hvalues
  simp

end Select

namespace Database

theorem result_select_of_source {db : Database} {query : Select} {table : Table}
    (h : db.source query.source = .ok table) : (db.select query).result = (query.run table).result := by
  rw [result_select, h]
  rfl

/-- The columns of a result are the description of the items, an asterisk taken for all columns, under the names given
to them; every row has one cell for each column. So another database in which the table has the same columns
gives the same columns, whatever its rows are. -/
theorem columns_of_select {db : Database} {query : Select} {results : Results} (hitems : query.items ≠ [])
    (h : (db.select query).result = .ok results) :
    ∃ table, db.source query.source = .ok table ∧
      ((query.projections table.columns).mapM fun p => (table.describe p.expr).map p.rename) = .ok results.columns ∧
      (∀ row ∈ results.rows, row.length = results.columns.length) ∧
      ∀ (db' : Database) (table' : Table) (results' : Results), db'.source query.source = .ok table' →
        table'.columns = table.columns → (db'.select query).result = .ok results' →
        results'.columns = results.columns := by
  rw [result_select] at h
  obtain ⟨table, htable, h⟩ := exists_of_bind_eq_ok h
  obtain ⟨hcolumns, hlength⟩ := Select.columns_of_run hitems h
  refine ⟨table, htable, hcolumns, hlength, ?_⟩
  intro db' table' results' htable' hsame h'
  rw [result_select, htable'] at h'
  have hcolumns' := (Select.columns_of_run hitems h').1
  rw [hsame, hcolumns] at hcolumns'
  exact (Except.ok.inj hcolumns').symm

/-- All columns and a string, of a table with a short row; any other rows give the same columns. -/
theorem columns_of_select_short_row :
    let columns : Columns := ⟨["a", "b"], [.int, .text]⟩
    let shown : List Column := [⟨"a", .int⟩, ⟨"b", .text⟩, ⟨"c", .text⟩]
    let db rows := empty.put "t" ⟨columns, rows, none⟩
    let string : SelectItem := .expression (.literal (.ofLexeme ⟨.string, "x"⟩)) (some (.ofLexeme (.identifier "c")))
    let one : Expr := .literal (.ofLexeme ⟨.numeric, "1"⟩)
    let query : Select := ⟨[.allColumns, string], some (.ofLexeme (.identifier "t")), none, some one, none⟩
    ((db [[.ofInt 7, .empty], [.ofInt 8]]).select query).result =
        .ok ⟨shown, [[.ofInt 7, .empty, .ofText "x"]]⟩ ∧
      ∀ rows results, ((db rows).select query).result = .ok results → results.columns = shown := by
  intro columns shown db string one query
  have hfound : ∀ rows, (db rows).source query.source = .ok ⟨columns, rows, none⟩ := by
    intro rows
    change (db rows).table "t" = _
    rw [Database.table, table?_put, if_pos rfl]
  have hshort : ((db [[.ofInt 7, .empty], [.ofInt 8]]).select query).result =
      .ok ⟨shown, [[.ofInt 7, .empty, .ofText "x"]]⟩ := by
    rw [result_select, hfound]
    rfl
  refine ⟨hshort, fun rows results hresults => ?_⟩
  obtain ⟨table, htable, -, -, hsame⟩ := columns_of_select (by decide) hshort
  rw [hfound] at htable
  cases htable
  exact hsame _ _ _ (hfound rows) rfl hresults

end Database

end SqlStore
