import SqlStore.Database

/-!
# Statements that fail

A change of the database writes as it goes along, and an error leaves the state as it stands at that step. So each of
the ways in which a statement can fail is followed to its end: none of them leaves a trace
(`Database.state_execute_of_error`).
-/

namespace SqlStore

variable {name : String} {e : StoreError}

/-- Neither a wrong number of values nor a value that cannot be stored adds a row. -/
theorem Table.state_insert_of_error {values : List Expr} {table : Table}
    (h : (insert values table).result = .error e) : (insert values table).state = table := by
  by_cases hlength : values.length = table.columns.names.length
  · rw [insert_of_length hlength] at h ⊢
    cases hrow : (storedRow values).result with
    | error e => rfl
    | ok row =>
        rw [hrow] at h
        cases h
  · rw [insert_of_length_ne hlength]

namespace Database

variable {db : Database}

/-- A name that is taken and a column of an unknown type are found before the table is added. -/
theorem state_create_of_error {columns : List ColumnDefinition}
    (h : (create name columns db).result = .error e) : (create name columns db).state = db := by
  cases htable : db.table? name with
  | some table => rw [create_of_taken (by simp [htable])]
  | none =>
      cases hcolumns : Table.ofDefinitions columns with
      | error e => rw [create_of_error htable hcolumns]
      | ok table =>
          rw [create_of_ok htable hcolumns] at h
          cases h

/-- Where an insertion fails within a table, the table that stays in its place is the one that was there. -/
theorem state_insert_of_error {values : List Expr} (h : (insert name values db).result = .error e) :
    (insert name values db).state = db := by
  cases htable : db.table? name with
  | none => rw [insert_of_none htable]
  | some table =>
      obtain ⟨hresult, hstate⟩ := insert_of_some htable values
      rw [hresult] at h
      rw [hstate, Table.state_insert_of_error h, put_of_table? htable]

/-- The table is taken out before it is known whether there was one. -/
theorem state_drop_of_error (h : (drop name db).result = .error e) : (drop name db).state = db := by
  cases htable : db.table? name with
  | none => rw [drop_of_none htable, remove_of_none htable]
  | some table =>
      rw [drop_of_some htable] at h
      cases h

theorem state_execute_of_error {statement : Statement} (h : (db.execute statement).result = .error e) :
    (db.execute statement).state = db := by
  cases statement with
  | select query => rfl
  | create name columns => exact state_create_of_error (Effect.result_map_eq_error_iff.1 h)
  | insert name values => exact state_insert_of_error (Effect.result_map_eq_error_iff.1 h)
  | drop name => exact state_drop_of_error (Effect.result_map_eq_error_iff.1 h)

end Database

end SqlStore
