import SqlStore.Proofs.Columns
import SqlStore.Proofs.History
import SqlStore.Proofs.Expr.Typed

/-!
# Stored cells

An insertion stores each literal as what it is, whatever the type of the column in its place (`stored_cells`). So
cells fit their columns where the literals do, and not everywhere (`not_forall_cellsFit`).
-/

namespace SqlStore

open Reading

namespace Table

theorem type_ne_bool_of_declared {t : Token} {type : SqlType} (h : declaredType t = .ok type) : type ≠ .bool := by
  rw [declaredType] at h
  split at h
  · cases h
    simp
  · split at h <;> cases h
    simp

theorem type_ne_bool_of_ofDefinitions {definitions : List ColumnDefinition} {table : Table}
    (h : ofDefinitions definitions = .ok table) : ∀ type ∈ table.columns.types, type ≠ .bool := by
  obtain ⟨types, htypes, rfl⟩ := define_eq_ok_iff.1 h
  rw [empty, Columns.empty, List.nil_append]
  clear h
  induction htypes with
  | nil => simp
  | cons htype _ ih => exact List.forall_mem_cons.2 ⟨type_ne_bool_of_declared htype, ih⟩

/-- What a row keeps of the values of an insertion: the data of the literals among them, and, if they are all literals
of the types of the columns, one cell for each column that fits it and reads back as what was inserted. -/
structure Keeps (columns : Columns) (values : List Expr) (row : List Cell) : Prop where
  cells : List.Forall₂ Holds (values.filterMap Expr.literal?) row
  typed : ∀ data, List.Forall₂ Expr.Denotes values data → data.map Datum.type = columns.types →
    row = data.map Datum.toCell ∧ List.Forall₂ (fun type cell => cell.Fits type) columns.types row ∧
      Value.decodeRow columns.toList row = data.map Datum.value

theorem fits_of_types (data : List Datum) :
    List.Forall₂ (fun type cell => cell.Fits type) (data.map Datum.type) (data.map Datum.toCell) := by
  rw [List.forall₂_map_left_iff, List.forall₂_map_right_iff, List.forall₂_same]
  exact fun d _ => d.fits_toCell

theorem RowOf.keeps {columns : Columns} {values : List Expr} {row : List Cell} (hparallel : columns.Parallel)
    (h : RowOf columns values row) : Keeps columns values row where
  cells := h.holds
  typed data hdata htypes := by
    obtain rfl := h.eq_map_toCell hdata
    refine ⟨rfl, htypes ▸ fits_of_types data, Value.decodeRow_toCell ?_⟩
    rw [htypes, Columns.map_type_toList hparallel]

end Table

namespace Database

/-- No column of a table that source texts have made has booleans, nor does the table without a source have any. -/
theorem type_ne_bool_of_source {sources : List String} {source : Option Token} {table : Table}
    (h : (empty.runAll sources).source source = .ok table) : ∀ type ∈ table.columns.types, type ≠ .bool := by
  cases source with
  | none =>
      cases h
      nofun
  | some name =>
      obtain ⟨definitions, -, -, hdefinitions, -⟩ := exists_lastCreation (table_eq_ok_iff.1 h)
      exact fun type htype => Table.type_ne_bool_of_ofDefinitions hdefinitions type htype

theorem execute_insert_eq_ok_iff {db : Database} {token : Token} {values : List Expr} :
    (db.execute (.insert token values)).result = .ok .inserted ↔
      ∃ table, db.table? token.text = some table ∧ values.length = table.columns.names.length ∧
        ∀ t, .literal t ∈ values → ∃ d, t.lexeme.Denotes d := by
  constructor
  · intro h
    obtain ⟨a, hinsert, -⟩ := Effect.result_map_eq_ok_iff.1 h
    cases htable : db.table? token.text with
    | none =>
        rw [insert_of_none htable] at hinsert
        cases hinsert
    | some table =>
        obtain ⟨hresult, -⟩ := insert_of_some htable values
        obtain ⟨row, hrow, -⟩ := Table.exists_rowOf_of_insert (hresult.symm.trans hinsert)
        refine ⟨table, rfl, hrow.length_eq, Table.exists_storedRow_iff.1 ⟨row, ?_⟩⟩
        exact Table.result_storedRow_eq_ok_iff.2 hrow.holds
  · rintro ⟨table, htable, hlength, hliterals⟩
    obtain ⟨row, hrow⟩ := Table.exists_storedRow_iff.2 hliterals
    obtain ⟨hinsert, -⟩ := Table.insert_of_rowOf ⟨hlength, Table.result_storedRow_eq_ok_iff.1 hrow⟩
    obtain ⟨hresult, -⟩ := insert_of_some htable values
    exact Effect.result_map_eq_ok_iff.2 ⟨(), hresult.trans hinsert, rfl⟩

/-- After any source texts, the rows of a table are those of the insertions since it was created, and each keeps what
was inserted. An insertion succeeds exactly if the table exists, there is a value for each column, and each literal
stands for a datum; the types of the columns play no part. If it fails, nothing changes. -/
theorem stored_cells :
    (∀ sources name table, (empty.runAll sources).table? name = some table →
      (∀ type ∈ table.columns.types, type ≠ .bool) ∧
        ∃ definitions after, LastCreation name (empty.history sources) definitions after ∧
          List.Forall₂ (Table.Keeps table.columns) (insertions name after) table.rows) ∧
    ∀ (db : Database) token values,
      ((db.execute (.insert token values)).result = .ok .inserted ↔
        ∃ table, db.table? token.text = some table ∧ values.length = table.columns.names.length ∧
          ∀ t, .literal t ∈ values → ∃ d, t.lexeme.Denotes d) ∧
      ∀ e, (db.execute (.insert token values)).result = .error e → (db.execute (.insert token values)).state = db := by
  refine ⟨fun sources name table htable => ?_, fun db token values => ⟨execute_insert_eq_ok_iff, ?_⟩⟩
  · obtain ⟨definitions, after, hlast, hdefinitions, hrows⟩ := exists_lastCreation htable
    have htypes : ∀ type ∈ table.columns.types, type ≠ .bool := fun type htype =>
      Table.type_ne_bool_of_ofDefinitions hdefinitions type htype
    refine ⟨htypes, definitions, after, hlast, ?_⟩
    exact hrows.imp fun values row hrow => hrow.keeps (parallel_of_runAll htable)
  · exact fun e h => state_execute_of_error h

theorem stored_cells_null :
    let sources := ["create table t (a int, b text)", "insert into t values (7, null)"]
    let columns : Columns := ⟨["a", "b"], [.int, .text]⟩
    (empty.runAll sources).table? "t" = some ⟨columns, [[.ofInt 7, .empty]], none⟩ ∧
      ∃ values, Table.Keeps columns values [.ofInt 7, .empty] := by
  intro sources columns
  have htable : (empty.runAll sources).table? "t" = some ⟨columns, [[.ofInt 7, .empty]], none⟩ := by decide +kernel
  obtain ⟨-, definitions, after, -, hrows⟩ := stored_cells.1 sources "t" _ htable
  generalize insertions "t" after = inserted at hrows
  cases hrows with
  | cons hrow _ => exact ⟨htable, _, hrow⟩

/-- A text can stand in a column of integers. -/
theorem not_forall_cellsFit :
    ¬ ∀ sources name table, (empty.runAll sources).table? name = some table → table.CellsFit := by
  intro h
  have htable : (empty.runAll ["CREATE TABLE t (a INT)", "INSERT INTO t VALUES ('x')"]).table? "t" =
      some ⟨⟨["a"], [.int]⟩, [[.ofText "x"]], none⟩ := by
    decide +kernel
  have hfits := h _ _ _ htable _ List.mem_cons_self (.int, .ofText "x") List.mem_cons_self
  exact absurd (hfits _ rfl) (by decide)

end Database

end SqlStore
