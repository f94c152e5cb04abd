import SqlStore.Database
import SqlStore.Proofs.Command.Parse
import SqlStore.Proofs.Definition
import SqlStore.Proofs.Execution
import SqlStore.Proofs.Literal
import SqlStore.Proofs.Selection.Names

/-!
# Running commands

What tables and databases do with the statements of commands: the rows inserted stand in the table in their order
(`run_inserts`), and a selection of all columns gives the rows of the table (`exists_query`).
-/

namespace SqlStore

theorem Datum.denotes_lexeme {d : Datum} (hd : d.IsLiteral) : d.lexeme.Denotes d := by
  rcases d with (_ | n) | (_ | s) | (_ | _)
  · exact .nullInt "null"
  · exact .numeral (Text.Numeral.int32?_toString hd)
  · exact .nullText "null"
  · exact .string s
  · exact .bool "false"
  · exact .bool "true"

/-! ## Creating -/

namespace Table

theorem declaredType_of_lexeme {t : Token} {type : SqlType} (ht : t.lexeme = .keyword type.keyword)
    (htype : type ≠ .bool) : declaredType t = .ok type := by
  rw [declaredType, ht]
  cases type with
  | int => rfl
  | text => rfl
  | bool => exact absurd rfl htype

theorem lastPrimaryKey_of_declares {ds : List ColumnDefinition} {columns : List Column}
    (h : List.Forall₂ ColumnDefinition.Declares ds columns) : lastPrimaryKey ds = none := by
  induction h with
  | nil => rfl
  | cons hd _ ih => simp [lastPrimaryKey, ih, hd.2.2]

theorem declared_of_declares {ds : List ColumnDefinition} {columns : List Column}
    (h : List.Forall₂ ColumnDefinition.Declares ds columns) (hcolumns : ∀ c ∈ columns, c.type ≠ .bool) :
    ds.map (·.name.text) = columns.map Column.name ∧
      List.Forall₂ (fun d type => declaredType d.type = .ok type) ds (columns.map Column.type) := by
  induction h with
  | nil => exact ⟨rfl, .nil⟩
  | cons hd _ ih =>
      obtain ⟨htype, hrest⟩ := List.forall_mem_cons.1 hcolumns
      obtain ⟨hnames, htypes⟩ := ih hrest
      exact ⟨congrArg₂ List.cons hd.1 hnames, .cons (declaredType_of_lexeme hd.2.1 htype) htypes⟩

theorem ofDefinitions_of_declares {ds : List ColumnDefinition} {columns : List Column}
    (h : List.Forall₂ ColumnDefinition.Declares ds columns) (hcolumns : ∀ c ∈ columns, c.type ≠ .bool) :
    ofDefinitions ds = .ok ⟨.ofList columns, [], none⟩ := by
  obtain ⟨hnames, htypes⟩ := declared_of_declares h hcolumns
  refine define_eq_ok_iff.2 ⟨_, htypes, ?_⟩
  rw [hnames, lastPrimaryKey_of_declares h]
  rfl

/-! ## Inserting -/

theorem result_storedRow {values : List Expr} {row : List Datum} (h : List.Forall₂ Expr.Writes values row)
    (hrow : ∀ d ∈ row, d.IsLiteral) : (storedRow values).result = .ok (row.map Datum.toCell) := by
  refine result_storedRow_of_denotes ?_
  induction h with
  | nil => exact .nil
  | cons he _ ih =>
      obtain ⟨t, rfl, ht⟩ := he
      refine .cons ⟨t, rfl, ht ▸ Datum.denotes_lexeme (hrow _ List.mem_cons_self)⟩ (ih fun d hd => ?_)
      exact hrow d (List.mem_cons_of_mem _ hd)

theorem rowOf_of_writes {columns : Columns} {values : List Expr} {row : List Datum}
    (h : List.Forall₂ Expr.Writes values row) (hrow : ∀ d ∈ row, d.IsLiteral)
    (hlength : row.length = columns.names.length) : RowOf columns values (row.map Datum.toCell) where
  length_eq := h.length_eq.trans hlength
  holds := result_storedRow_eq_ok_iff.1 (result_storedRow h hrow)

end Table

/-! ## Selecting -/

theorem Select.projections_of_names {items : List SelectItem} {table : Token} {columns : List Column}
    (h : List.Forall₂ SelectItem.Names items columns) (all : Columns) :
    List.Forall₂ Projection.Names ((ofItems items table).projections all) columns := by
  rw [projections, ofItems]
  induction h with
  | nil => exact .nil
  | cons hitem _ ih =>
      obtain ⟨t, rfl, ht⟩ := hitem
      exact .cons ⟨t, rfl, ht⟩ ih

/-! ## Running -/

namespace Database

variable {db : Database} {name : String}

theorem execute_create {statement : Statement} {columns : List Column}
    (h : Command.Means statement (.create name columns)) (hcolumns : ∀ c ∈ columns, c.type ≠ .bool)
    (hdb : db.table? name = none) :
    (db.execute statement).result = .ok .created ∧
      (db.execute statement).state = db.put name ⟨.ofList columns, [], none⟩ := by
  cases h with
  | @create table definitions _ h =>
      rw [execute, create_of_ok hdb (Table.ofDefinitions_of_declares h hcolumns)]
      exact ⟨rfl, rfl⟩

theorem execute_insert {statement : Statement} {row : List Datum} {table : Table}
    (h : Command.Means statement (.insert name row)) (hrow : ∀ d ∈ row, d.IsLiteral)
    (hlength : row.length = table.columns.names.length) (hdb : db.table? name = some table) :
    (db.execute statement).result = .ok .inserted ∧
      (db.execute statement).state = db.put name { table with rows := table.rows ++ [row.map Datum.toCell] } := by
  cases h with
  | @insert token values _ h =>
      obtain ⟨hinserted, htable⟩ := Table.insert_of_rowOf (Table.rowOf_of_writes h hrow hlength)
      obtain ⟨hresult, hstate⟩ := insert_of_some hdb values
      rw [execute, Effect.map, hresult, hinserted, hstate, htable]
      exact ⟨rfl, rfl⟩

theorem exists_query {statement : Statement} {columns : List Column} {rows : List (List Cell)}
    {primaryKey : Option Nat} (h : Command.Means statement (.select name columns))
    (hnodup : (columns.map Column.name).Nodup) (hne : columns ≠ [])
    (hrows : ∀ row ∈ rows, row.length = columns.length)
    (hdb : db.table? name = some ⟨.ofList columns, rows, primaryKey⟩) :
    ∃ query, statement = .select query ∧ (db.select query).result = .ok ⟨columns, rows⟩ := by
  cases h with
  | @select table items _ h =>
      refine ⟨Select.ofItems items table, rfl, ?_⟩
      rw [result_select_of_source (source_of_table hdb), ← Results.byName_eq hnodup hrows]
      have hitems : items ≠ [] := by
        rintro rfl
        cases h
        exact hne rfl
      exact Select.result_run_of_names rfl hitems rfl rfl rfl (Select.projections_of_names h _) hrows

theorem run_inserts {script : Script} {rows : List (List Datum)} {table : Table}
    (hscript : List.Forall₂ Command.Means script (rows.map (Command.insert name)))
    (hrows : ∀ row ∈ rows, (∀ d ∈ row, d.IsLiteral) ∧ row.length = table.columns.names.length)
    (hdb : db.table? name = some table) :
    (Script.run execute db script).result = .ok (rows.map fun _ => .inserted) ∧
      (Script.run execute db script).state.table? name =
        some { table with rows := table.rows ++ rows.map fun row => row.map Datum.toCell } := by
  -- the table keeps its columns, so every row still has the right length when its turn comes
  induction rows generalizing db table script with
  | nil =>
      cases hscript
      refine ⟨rfl, ?_⟩
      rw [List.map_nil, List.append_nil]
      exact hdb
  | cons row rows ih =>
      rw [List.map_cons] at hscript
      cases hscript with
      | @cons statement _ script _ hmeans hscript =>
          obtain ⟨hliteral, hlength⟩ := hrows row List.mem_cons_self
          obtain ⟨hresult, hstate⟩ := execute_insert hmeans hliteral hlength hdb
          obtain ⟨hrun, hafter⟩ := @Script.run_cons_of_ok _ _ execute db _ statement script hresult
          rw [hrun, hafter, hstate]
          generalize hstored : { table with rows := table.rows ++ [row.map Datum.toCell] } = stored
          have hput : (db.put name stored).table? name = some stored := by rw [table?_put, if_pos rfl]
          have hcolumns : stored.columns = table.columns := by rw [← hstored]
          have hrest : ∀ row ∈ rows, (∀ d ∈ row, d.IsLiteral) ∧ row.length = stored.columns.names.length := by
            rw [hcolumns]
            exact fun row hrow => hrows row (List.mem_cons_of_mem _ hrow)
          obtain ⟨hothers, hfinal⟩ := ih hscript hrest hput
          rw [hothers, hfinal, ← hstored]
          exact ⟨rfl, by simp⟩

end Database

end SqlStore
