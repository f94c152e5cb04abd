import SqlStore.Proofs.Expr.Description
import SqlStore.Proofs.Execution

/-!
# What a selection depends on

A selection looks at no cell but those under the columns that its items and its condition name. So it cannot tell
tables with the same columns apart that have the same cells there (`Select.run_congr`): not by its rows, nor by its
error, nor by what it reports.
-/

namespace SqlStore

/-! ## Expressions -/

namespace Expr

variable {columns : Columns} {row row' : List Cell}

theorem evalToken_congr {t : Token}
    (h : ∀ name ∈ (literal t).names, columns.cell? name row = columns.cell? name row') :
    evalToken columns row t = evalToken columns row' t := by
  by_cases hkind : t.kind = .identifier
  · rw [evalToken_identifier hkind, evalToken_identifier hkind, h t.text (by simp [names, hkind])]
  · rw [evalToken, evalToken, if_neg hkind, if_neg hkind]

theorem eval_congr {e : Expr}
    (h : ∀ name ∈ e.names, columns.cell? name row = columns.cell? name row') :
    e.eval columns row = e.eval columns row' := by
  induction e with
  | literal t => exact congrArg Logged.ofExcept (evalToken_congr h)
  | binary l t r ihl ihr =>
      rw [eval, eval, ihl fun name hname => h name (List.mem_append_left _ hname),
        ihr fun name hname => h name (List.mem_append_right _ hname)]

end Expr

/-! ## Selections -/

namespace Select

section

variable (query : Select) (columns : Columns)

/-- The names of columns in the items, where an asterisk stands for all columns, and in the condition. -/
def names : List String :=
  (query.projections columns).flatMap (·.expr.names) ++ query.condition.toList.flatMap Expr.names

/-- The rows have the same cells under the columns that the selection names. -/
def SeesAlike (row row' : List Cell) : Prop :=
  ∀ name ∈ query.names columns, columns.cell? name row = columns.cell? name row'

end

variable {query : Select} {columns : Columns} {row row' : List Cell}

theorem SeesAlike.keeps_eq (h : query.SeesAlike columns row row') :
    query.keeps columns row = query.keeps columns row' := by
  rw [keeps, keeps]
  cases hcondition : query.condition with
  | none => rfl
  | some condition =>
      have hnames : ∀ name ∈ condition.names, name ∈ query.names columns := by
        intro name hname
        simp [names, hcondition, hname]
      simp only [Expr.eval_congr fun name hname => h name (hnames name hname)]

theorem SeesAlike.project_eq (h : query.SeesAlike columns row row') :
    query.project columns row = query.project columns row' := by
  rw [project, project]
  refine mapM_congr_left fun p hp => ?_
  have hnames : ∀ name ∈ p.expr.names, name ∈ query.names columns := fun name hname =>
    List.mem_append_left _ (List.mem_flatMap.2 ⟨p, hp, hname⟩)
  rw [Projection.eval, Projection.eval, Expr.eval_congr fun name hname => h name (hnames name hname)]

theorem scan_congr {rows rows' : List (List Cell)} (h : List.Forall₂ (query.SeesAlike columns) rows rows')
    (limit : Option Nat) (skip : Nat) : query.scan columns limit skip rows = query.scan columns limit skip rows' := by
  induction h generalizing limit skip with
  | nil => rfl
  | cons hrow _ ih =>
      unfold scan
      simp only [hrow.keeps_eq, hrow.project_eq, ih]

theorem run_congr {table table' : Table} (hcolumns : table.columns = table'.columns)
    (hrows : List.Forall₂ (query.SeesAlike table.columns) table.rows table'.rows) :
    query.run table = query.run table' := by
  simp only [run, ← hcolumns, scan_congr hrows, hrows.length_eq]

theorem forall₂_seesAlike {table table' : Table} (hcolumns : table.columns = table'.columns)
    (hlength : table.rows.length = table'.rows.length)
    (h : ∀ i, ∀ name ∈ query.names table.columns, table.cell? i name = table'.cell? i name) :
    List.Forall₂ (query.SeesAlike table.columns) table.rows table'.rows := by
  refine List.forall₂_iff_get.2 ⟨hlength, fun i hi hi' name hname => ?_⟩
  have hcell := h i name hname
  rwa [Table.cell?, Table.cell?, List.getElem?_eq_getElem hi, List.getElem?_eq_getElem hi', ← hcolumns] at hcell

end Select

namespace Database

theorem select_of_source {db : Database} {query : Select} {table : Table} (h : db.source query.source = .ok table) :
    db.select query = query.run table := by
  rw [select, h]
  exact pure_bind table query.run

/-- On tables with the same columns and equally many rows, a selection that names only columns under which they have the
same cells, or lack the same cells, answers the same and reports the same, whatever else the tables hold and whichever
databases they are in. -/
theorem select_sees_names {db db' : Database} {query : Select} {table table' : Table}
    (htable : db.source query.source = .ok table) (htable' : db'.source query.source = .ok table')
    (hcolumns : table.columns = table'.columns) (hlength : table.rows.length = table'.rows.length)
    (hcells : ∀ i, ∀ name ∈ query.names table.columns, table.cell? i name = table'.cell? i name) :
    query.run table = query.run table' ∧ db.select query = db'.select query ∧
      (db.execute (.select query)).result = (db'.execute (.select query)).result := by
  have hrun := Select.run_congr hcolumns (Select.forall₂_seesAlike hcolumns hlength hcells)
  have hselect : db.select query = db'.select query := by
    rw [select_of_source htable, select_of_source htable', hrun]
  refine ⟨hrun, hselect, ?_⟩
  rw [result_execute_select, result_execute_select, hselect]

/-- Rows that differ under a column without a name in the selection: one of them has a cell there and the other none. -/
theorem select_sees_names_short_row :
    let columns : Columns := ⟨["a", "b", "c"], [.int, .text, .int]⟩
    let table : Table := ⟨columns, [[.ofInt 1, .ofText "x", .ofInt 5], [.ofInt 2, .empty]], none⟩
    let table' : Table := ⟨columns, [[.ofInt 1, .ofText "x"], [.ofInt 2, .empty, .ofText "z"]], some 2⟩
    let query : Select :=
      ⟨[.expression (.literal (.ofLexeme (.identifier "a"))) none], some (.ofLexeme (.identifier "t")),
        some (.binary (.literal (.ofLexeme (.identifier "b"))) (.ofLexeme (.symbol .notEqual))
          (.literal (.ofLexeme ⟨.string, "x"⟩))), none, none⟩
    (∀ i, ∀ name ∈ query.names columns, table.cell? i name = table'.cell? i name) ∧
      ((empty.put "t" table).select query).result = .ok ⟨[⟨"a", .int⟩], [[.ofInt 2]]⟩ ∧
      ((empty.put "t" table').select query).result = .ok ⟨[⟨"a", .int⟩], [[.ofInt 2]]⟩ := by
  intro columns table table' query
  have hcells : ∀ i, ∀ name ∈ query.names columns, table.cell? i name = table'.cell? i name := by
    intro i name hname
    have hname : name ∈ ["a", "b"] := hname
    simp only [List.mem_cons, List.not_mem_nil, or_false] at hname
    match i with
    | 0 | 1 => rcases hname with rfl | rfl <;> rfl
    | i + 2 => rfl
  have hsource : ∀ found, (empty.put "t" found).source query.source = .ok found := by
    intro found
    change (empty.put "t" found).table "t" = _
    rw [Database.table, table?_put, if_pos rfl]
  have hresult : ((empty.put "t" table).select query).result = .ok ⟨[⟨"a", .int⟩], [[.ofInt 2]]⟩ := by
    rw [select_of_source (hsource table)]
    rfl
  obtain ⟨-, hsame, -⟩ := select_sees_names (hsource table) (hsource table') rfl rfl hcells
  exact ⟨hcells, hresult, hsame ▸ hresult⟩

end Database

end SqlStore
