import Mathlib.Data.List.Nodup
import SqlStore.Proofs.Columns
import SqlStore.Proofs.Selection.Columns

/-!
# Columns by their names

A name in an item means the first column of that name. So a selection of all columns, each by its name, shows the
table as it is if no name occurs twice (`byName_eq`).
-/

namespace SqlStore

open Reading

namespace Column

/-- The place of the first column that has the name of the column. -/
def place (columns : List Column) (c : Column) : Nat := columns.findIdx (·.name = c.name)

/-- The first column that has the name of the column. -/
def first (columns : List Column) (c : Column) : Column := columns[c.place columns]?.getD c

variable {columns : List Column} {c : Column}

section

variable (hc : c ∈ columns)

include hc

theorem place_lt : c.place columns < columns.length :=
  List.findIdx_lt_length_of_exists ⟨c, hc, by simp⟩

theorem getElem?_place : columns[c.place columns]? = some (c.first columns) := by
  simp [first, place_lt hc]

theorem name_first : (c.first columns).name = c.name := by
  obtain ⟨hlt, hfirst⟩ := List.getElem?_eq_some_iff.1 (getElem?_place hc)
  rw [← hfirst]
  exact of_decide_eq_true (List.findIdx_getElem (w := hlt))

theorem mk_first : (⟨c.name, (c.first columns).type⟩ : Column) = c.first columns := by
  rw [← name_first hc]

theorem place?_of_mem : (Columns.ofList columns).place? c.name = some (c.place columns) := by
  rw [Columns.place?_ofList]
  exact List.findIdx?_eq_some_of_exists ⟨c, hc, by simp⟩

theorem typeAt_place : (Columns.ofList columns).typeAt (c.place columns) = .ok (c.first columns).type :=
  Columns.typeAt_ofList (getElem?_place hc)

theorem first_of_nodup (hnodup : (columns.map name).Nodup) : c.first columns = c :=
  List.inj_on_of_nodup_map hnodup (List.mem_of_getElem? (getElem?_place hc)) hc (name_first hc)

end

theorem place_getElem_of_nodup (hnodup : (columns.map name).Nodup) {i : Nat} (hi : i < columns.length) :
    columns[i].place columns = i := by
  have hfound := getElem?_place (List.getElem_mem hi)
  rw [first_of_nodup (List.getElem_mem hi) hnodup, ← List.getElem?_eq_getElem hi] at hfound
  exact (List.getElem?_inj (place_lt (List.getElem_mem hi)) (hnodup.of_map _)).1 hfound

end Column

/-! ## Rows -/

variable {columns : List Column} {row : List Cell}

/-- What the name of a column stands for in a row. -/
def named (columns : List Column) (row : List Cell) (c : Column) : Evaluated :=
  ⟨c.first columns, row[c.place columns]?.getD .empty⟩

theorem map_cell_named_of_nodup (hnodup : (columns.map Column.name).Nodup) (hrow : row.length = columns.length) :
    (columns.map (named columns row)).map Evaluated.cell = row := by
  refine List.ext_getElem (by simpa using hrow.symm) fun i hi hi' => ?_
  have hplace := Column.place_getElem_of_nodup hnodup (hrow ▸ hi')
  simp [named, hplace, hi']

theorem map_column_named (row : List Cell) :
    (columns.map (named columns row)).map Evaluated.column = columns.map (Column.first columns) := by
  rw [List.map_map]
  rfl

/-! ## Items -/

/-- The projection is the name of the column by itself. -/
def Projection.Names (p : Projection) (c : Column) : Prop :=
  ∃ t, p = ⟨.literal t, none⟩ ∧ t.lexeme = .identifier c.name

namespace Projection

variable {p : Projection} {c : Column}

theorem Names.result_eval (hp : p.Names c) (hc : c ∈ columns) (hrow : row.length = columns.length) :
    (p.eval (.ofList columns) row).result = .ok (named columns row c) := by
  obtain ⟨t, rfl, ht⟩ := hp
  have hlt : c.place columns < row.length := hrow ▸ Column.place_lt hc
  have htoken : Expr.evalToken (.ofList columns) row t = .ok (named columns row c) := by
    rw [Expr.evalToken, Token.kind, Token.text, ht]
    simp [Lexeme.identifier, Column.place?_of_mem hc, Column.typeAt_place hc, Except.map, hlt, named,
      Column.mk_first hc]
  simp only [Projection.eval, Logged.result_bind, Expr.result_eval_literal, htoken]
  rfl

theorem Names.describe (hp : p.Names c) (hc : c ∈ columns) :
    p.describe (.ofList columns) = .ok (c.first columns) := by
  obtain ⟨t, rfl, ht⟩ := hp
  have htoken : Expr.describeToken (.ofList columns) t = .ok (c.first columns) := by
    rw [Expr.describeToken, Token.kind, Token.text, ht]
    simp [Lexeme.identifier, Column.place?_of_mem hc, Column.typeAt_place hc, Except.map, Column.mk_first hc]
  rw [Projection.describe, Expr.describe, htoken]
  rfl

/-- What holds of every name of a column holds of the projections that are those names, one after another. -/
theorem mapM_of_names {ps : List Projection} {cs : List Column} {β : Type} {f : Projection → Except StoreError β}
    {g : Column → β} (h : List.Forall₂ Names ps cs) (hf : ∀ c ∈ cs, ∀ p, Names p c → f p = .ok (g c)) :
    ps.mapM f = .ok (cs.map g) := by
  rw [mapM_eq_ok_iff, List.forall₂_map_right_iff]
  induction h with
  | nil => exact .nil
  | cons hp _ ih =>
      obtain ⟨hfirst, hrest⟩ := List.forall_mem_cons.1 hf
      exact .cons (hfirst _ hp) (ih hrest)

end Projection

/-! ## Selections -/

/-- The rows of a table of these columns, with each column by its name. -/
def Results.byName (columns : List Column) (rows : List (List Cell)) : Results where
  columns := columns.map (Column.first columns)
  rows := rows.map fun row => (columns.map (named columns row)).map Evaluated.cell

/-- Every column of the table by its name. -/
def Table.byName (table : Table) : Results := .byName table.columns.toList table.rows

theorem Results.byName_eq {rows : List (List Cell)} (hnodup : (columns.map Column.name).Nodup)
    (hrows : ∀ row ∈ rows, row.length = columns.length) : byName columns rows = ⟨columns, rows⟩ := by
  have hcolumns : columns.map (Column.first columns) = columns :=
    (List.map_congr_left fun c hc => Column.first_of_nodup hc hnodup).trans (List.map_id _)
  have hcells : (rows.map fun row => (columns.map (named columns row)).map Evaluated.cell) = rows :=
    (List.map_congr_left fun row hrow => map_cell_named_of_nodup hnodup (hrows row hrow)).trans (List.map_id _)
  rw [byName, hcolumns, hcells]

namespace Select

variable {query : Select} {table : Table}

theorem result_scan_of_project {columns : Columns} {shown : List Cell → List Evaluated} {rows : List (List Cell)}
    (hcondition : query.condition = none)
    (hrows : ∀ row ∈ rows, (query.project columns row).result = .ok (shown row)) :
    (query.scan columns none 0 rows).result = .ok (rows.map shown) := by
  induction rows with
  | nil => rfl
  | cons row rows ih =>
      obtain ⟨hrow, hrest⟩ := List.forall_mem_cons.1 hrows
      rw [result_scan_cons, if_neg (by decide), keeps, hcondition]
      simp only [hrow, Option.map_none, ih hrest]
      rfl

/-- A selection of all columns, each by its name, shows the table by the names of its columns. -/
theorem result_run_of_names (hcolumns : table.columns = .ofList columns) (hitems : query.items ≠ [])
    (hcondition : query.condition = none) (hlimit : query.limit = none) (hoffset : query.offset = none)
    (hnames : List.Forall₂ Projection.Names (query.projections table.columns) columns)
    (hrows : ∀ row ∈ table.rows, row.length = columns.length) :
    (query.run table).result = .ok (.byName columns table.rows) := by
  have hproject : ∀ row ∈ table.rows,
      (query.project table.columns row).result = .ok (columns.map (named columns row)) := by
    intro row hrow
    rw [project, Logged.result_mapM, hcolumns]
    exact Projection.mapM_of_names (hcolumns ▸ hnames) fun c hc p hp => hp.result_eval hc (hrows row hrow)
  have hdescribe : ((query.projections table.columns).mapM fun p => p.describe table.columns) =
      .ok (columns.map (Column.first columns)) := by
    rw [hcolumns]
    exact Projection.mapM_of_names (hcolumns ▸ hnames) fun c hc p hp => hp.describe hc
  have hscan := result_scan_of_project hcondition hproject
  have hshown : query.resultColumns table.columns (table.rows.map fun row => columns.map (named columns row)) =
      .ok (columns.map (Column.first columns)) := by
    cases table.rows with
    | nil => exact hdescribe
    | cons row rows => rw [List.map_cons, resultColumns, map_column_named]
  rw [result_run, if_neg (by simpa using hitems), hlimit, hoffset]
  simp only [CountClause.count?, Logged.result_pure, bind, Except.bind, Option.getD_none, hscan, hshown]
  simp only [List.map_map]
  rfl

end Select

end SqlStore
