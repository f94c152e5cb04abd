import SqlStore.Proofs.Expr.WellFormed
import SqlStore.Proofs.History
import SqlStore.Proofs.Selection.Meaning

/-!
# Types in bounds

A name is found in one list of the columns, and its type is then looked up at that place in the other. Where the lists
are side by side the second lookup finds a type, for every expression on every row. So no statement looks behind the end
of the types, on any database that source texts lead to (`Database.avoids_execute`).
-/

namespace SqlStore

open Reading

variable {place length : Nat}

/-! ## Expressions -/

namespace Expr

variable {columns : Columns} (h : columns.Parallel)

include h

theorem avoids_evalToken (row : List Cell) (t : Token) :
    Avoids (.outOfBounds place length) (evalToken columns row t) := by
  intro hfails
  cases evalToken_eq_error_iff.1 hfails with
  | noType _ hi _ htype =>
      obtain ⟨type, hfound⟩ := h.exists_typeAt hi
      rw [hfound] at htype
      cases htype

theorem avoids_describeToken (t : Token) : Avoids (.outOfBounds place length) (describeToken columns t) := by
  intro hfails
  cases describeToken_eq_error_iff.1 hfails with
  | noType _ hi htype =>
      obtain ⟨type, hfound⟩ := h.exists_typeAt hi
      rw [hfound] at htype
      cases htype

omit h in
theorem avoids_operator (t : Token) : Avoids (.outOfBounds place length) (operator t) := fun hfails => by
  cases operator_eq_error hfails

theorem avoids_eval (row : List Cell) (e : Expr) : Avoids (.outOfBounds place length) (e.eval columns row).result := by
  induction e with
  | literal t => exact avoids_evalToken h row t
  | binary l t r ihl ihr =>
      rw [result_eval_binary]
      refine ihl.bind fun left => ihr.bind fun right => (avoids_operator t).bind fun op => ?_
      exact (op.avoids_check (by simp) _ _).bind fun _ => avoids_ok _

theorem avoids_describe (e : Expr) : Avoids (.outOfBounds place length) (e.describe columns) := by
  induction e with
  | literal t => exact avoids_describeToken h t
  | binary l t r ihl ihr =>
      rw [describe]
      exact ihl.bind fun _ => ihr.bind fun _ => (avoids_operator t).bind fun _ => avoids_ok _

end Expr

/-! ## Selections -/

theorem CountClause.Counts.avoids_outOfBounds {clause : CountClause} {e : Option Expr}
    (h : clause.Counts e (.error (.outOfBounds place length))) : False := by
  cases h with
  | fails h => exact Expr.avoids_eval Columns.parallel_empty _ _ h

theorem Select.FailsAt.avoids_outOfBounds {query : Select} {table : Table} {limit : Option Nat} {offset i : Nat}
    (hparallel : table.columns.Parallel) (h : query.FailsAt table limit offset i (.outOfBounds place length)) :
    False := by
  cases h with
  | condition _ _ h => exact Expr.avoids_eval hparallel _ _ h
  | item _ _ h =>
      obtain ⟨before, p, after, -, -, h⟩ := h
      exact Expr.avoids_eval hparallel _ _ h

/-! ## Insertions and definitions -/

namespace Table

theorem avoids_storedRow (values : List Expr) : Avoids (.outOfBounds place length) (storedRow values).result := by
  rw [result_storedRow_eq_mapM]
  intro h
  obtain ⟨before, t, after, -, -, h⟩ := mapM_eq_error_iff.1 h
  -- a literal is evaluated without columns, and there is nothing behind the end of none
  exact ((Expr.avoids_evalToken Columns.parallel_empty [] t).map _) h

theorem avoids_insert (values : List Expr) (table : Table) :
    Avoids (.outOfBounds place length) (insert values table).result := by
  rw [result_insert]
  split
  · exact (avoids_storedRow values).map _
  · nofun

theorem avoids_declaredType (t : Token) : Avoids (.outOfBounds place length) (declaredType t) := by
  unfold declaredType
  split
  · exact avoids_ok _
  · split <;> nofun

theorem avoids_define (table : Table) (i : Nat) (ds : List ColumnDefinition) :
    Avoids (.outOfBounds place length) (define table i ds) := by
  induction ds generalizing table i with
  | nil => exact avoids_ok _
  | cons d ds ih => exact (avoids_declaredType d.type).bind fun _ => ih _ _

end Table

/-! ## Statements -/

namespace Database

variable {db : Database} {name : String}

theorem avoids_create (definitions : List ColumnDefinition) :
    Avoids (.outOfBounds place length) (create name definitions db).result := by
  cases htable : db.table? name with
  | some table =>
      rw [create_of_taken (by simp [htable])]
      nofun
  | none =>
      cases hdefinitions : Table.ofDefinitions definitions with
      | ok table =>
          rw [create_of_ok htable hdefinitions]
          exact avoids_ok _
      | error e =>
          rw [create_of_error htable hdefinitions]
          have havoids := @Table.avoids_define place length .empty 0 definitions
          exact fun h => havoids (hdefinitions.trans (congrArg Except.error (Except.error.inj h)))

theorem avoids_insert (values : List Expr) : Avoids (.outOfBounds place length) (insert name values db).result := by
  cases htable : db.table? name with
  | none =>
      rw [insert_of_none htable]
      nofun
  | some table =>
      obtain ⟨hresult, -⟩ := insert_of_some htable values
      rw [hresult]
      exact Table.avoids_insert values table

theorem avoids_drop : Avoids (.outOfBounds place length) (drop name db).result := by
  cases htable : db.table? name with
  | none =>
      rw [drop_of_none htable]
      nofun
  | some table =>
      rw [drop_of_some htable]
      exact avoids_ok _

variable (hdb : ∀ name table, db.table? name = some table → table.columns.Parallel)

include hdb

theorem parallel_of_source {source : Option Token} {table : Table} (h : db.source source = .ok table) :
    table.columns.Parallel := by
  cases source with
  | none =>
      cases h
      exact Columns.parallel_empty
  | some name => exact hdb name.text table (table_eq_ok_iff.1 h)

theorem avoids_select (query : Select) : Avoids (.outOfBounds place length) (db.select query).result := by
  intro h
  have hanswers := answers_result db query
  rw [h] at hanswers
  cases hanswers with
  | badLimit _ _ h => exact h.avoids_outOfBounds
  | badOffset _ _ _ h => exact h.avoids_outOfBounds
  | rows hsource _ _ _ h =>
      have hparallel := parallel_of_source hdb hsource
      cases h with
      | rowFails h _ => exact h.avoids_outOfBounds hparallel
      | itemFails _ _ h =>
          obtain ⟨before, p, after, -, -, h⟩ := h
          exact Expr.avoids_describe hparallel _ h

/-- Where all tables have a type for each name, no statement looks for one that is not there. -/
theorem avoids_execute (statement : Statement) :
    Avoids (.outOfBounds place length) (db.execute statement).result := by
  cases statement with
  | select query =>
      rw [result_execute_select]
      exact (avoids_select hdb query).map _
  | create name definitions => exact (avoids_create definitions).map _
  | insert name values => exact (avoids_insert values).map _
  | drop name => exact avoids_drop.map _

end Database

end SqlStore
