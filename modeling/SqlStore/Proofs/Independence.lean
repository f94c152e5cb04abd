import SqlStore.Proofs.History

/-!
# Statements on different tables

A statement sees and changes no table but the one it names (`Database.table?_execute_of_ne`, `Database.execute_congr`).
So statements that name different tables can change places (`Database.execute_independent`).
-/

namespace SqlStore

open Reading

/-- The table that a statement names, if it names one: a selection may have no source. -/
def Statement.tableName? : Statement → Option String
  | .select query => query.source.map Token.text
  | .insert table _ | .create table _ | .drop table => some table.text

theorem Statement.tableName?_of_target? {statement : Statement} {name : String} (h : statement.target? = some name) :
    statement.tableName? = some name := by
  cases statement with
  | select query => cases h
  | _ => exact h

namespace Database

variable {db db' : Database} {name : String} {statement statement' : Statement}

/-! ## Other tables -/

theorem table?_execute_of_ne (h : statement.tableName? ≠ some name) :
    (db.execute statement).state.table? name = db.table? name := by
  have htarget : statement.target? ≠ some name := fun htarget => h (Statement.tableName?_of_target? htarget)
  cases hresult : (db.execute statement).result with
  | error e => rw [state_execute_of_error hresult]
  | ok outcome =>
      have hstep := tableStep_of_execute hresult name
      generalize (db.execute statement).state.table? name = after at hstep ⊢
      generalize db.table? name = before at hstep ⊢
      cases hstep with
      | create hname _ | insert hname _ | drop hname => exact absurd (congrArg some hname) htarget
      | other _ => rfl

/-! ## The table that is named -/

theorem table_congr (h : db.table? name = db'.table? name) : db.table name = db'.table name := by
  rw [table, table, h]

theorem source_congr {source : Option Token} (h : ∀ t ∈ source, db.table? t.text = db'.table? t.text) :
    db.source source = db'.source source := by
  cases source with
  | none => rfl
  | some t => exact table_congr (h t rfl)

section

variable (h : db.table? name = db'.table? name)

include h

theorem create_agrees (definitions : List ColumnDefinition) :
    (create name definitions db).result = (create name definitions db').result ∧
      (create name definitions db).state.table? name = (create name definitions db').state.table? name := by
  cases htable : db'.table? name with
  | some table =>
      rw [create_of_taken (by simp [h, htable]), create_of_taken (by simp [htable])]
      exact ⟨rfl, h⟩
  | none =>
      rw [htable] at h
      cases hdefinitions : Table.ofDefinitions definitions with
      | error e => simp only [create_of_error h hdefinitions, create_of_error htable hdefinitions, h, htable, and_self]
      | ok table =>
          simp only [create_of_ok h hdefinitions, create_of_ok htable hdefinitions, table?_put, ↓reduceIte, and_self]

theorem insert_agrees (values : List Expr) :
    (insert name values db).result = (insert name values db').result ∧
      (insert name values db).state.table? name = (insert name values db').state.table? name := by
  cases htable : db'.table? name with
  | none =>
      rw [htable] at h
      simp only [insert_of_none h, insert_of_none htable, h, htable, and_self]
  | some table =>
      rw [htable] at h
      obtain ⟨hresult, hstate⟩ := insert_of_some h values
      obtain ⟨hresult', hstate'⟩ := insert_of_some htable values
      simp only [hresult, hresult', hstate, hstate', table?_put, ↓reduceIte, and_self]

theorem drop_agrees :
    (drop name db).result = (drop name db').result ∧
      (drop name db).state.table? name = (drop name db').state.table? name := by
  cases htable : db'.table? name with
  | none =>
      rw [htable] at h
      simp only [drop_of_none h, drop_of_none htable, table?_remove, ↓reduceIte, and_self]
  | some table =>
      rw [htable] at h
      simp only [drop_of_some h, drop_of_some htable, table?_remove, ↓reduceIte, and_self]

end

/-- What a statement answers, and what it makes of the table it names, follows from that table alone. -/
theorem execute_congr (h : ∀ name ∈ statement.tableName?, db.table? name = db'.table? name) :
    (db.execute statement).result = (db'.execute statement).result ∧
      ∀ name ∈ statement.tableName?,
        (db.execute statement).state.table? name = (db'.execute statement).state.table? name := by
  cases statement with
  | select query =>
      refine ⟨?_, h⟩
      have hsource : db.source query.source = db'.source query.source :=
        source_congr fun t ht => h _ (Option.mem_map_of_mem _ ht)
      rw [result_execute_select, result_execute_select, result_select, result_select, hsource]
  | create table definitions =>
      obtain ⟨hresult, hstate⟩ := create_agrees (h table.text rfl) definitions
      exact ⟨congrArg (Except.map _) hresult, by rintro _ ⟨⟩; exact hstate⟩
  | insert table values =>
      obtain ⟨hresult, hstate⟩ := insert_agrees (h table.text rfl) values
      exact ⟨congrArg (Except.map _) hresult, by rintro _ ⟨⟩; exact hstate⟩
  | drop table =>
      obtain ⟨hresult, hstate⟩ := drop_agrees (h table.text rfl)
      exact ⟨congrArg (Except.map _) hresult, by rintro _ ⟨⟩; exact hstate⟩

/-! ## Two statements -/

/-- A statement does the same after another one that names another table, or none. -/
theorem execute_after (h : ∀ name ∈ statement.tableName?, statement'.tableName? ≠ some name) :
    ((db.execute statement').state.execute statement).result = (db.execute statement).result ∧
      ∀ name ∈ statement.tableName?,
        ((db.execute statement').state.execute statement).state.table? name = (db.execute statement).state.table? name :=
  execute_congr fun name hname => table?_execute_of_ne (h name hname)

theorem state_execute_comm (h : ∀ name ∈ statement.tableName?, statement'.tableName? ≠ some name) :
    ((db.execute statement).state.execute statement').state =
      ((db.execute statement').state.execute statement).state := by
  have h' : ∀ name ∈ statement'.tableName?, statement.tableName? ≠ some name := fun name hname' hname =>
    h name hname hname'
  ext1 name
  by_cases hname : statement.tableName? = some name
  · rw [table?_execute_of_ne (h name hname), (execute_after h).2 name hname]
  · by_cases hname' : statement'.tableName? = some name
    · rw [table?_execute_of_ne hname, (execute_after h').2 name hname']
    · rw [table?_execute_of_ne hname', table?_execute_of_ne hname, table?_execute_of_ne hname,
        table?_execute_of_ne hname']

/-- A statement leaves every table alone but the one it names. What it answers, and what it makes of that table, follows
from the table alone, and from nothing if it names none. So of two statements that name different tables each answers
the same before and after the other, and both orders end in the same database. -/
theorem execute_independent :
    (∀ (db : Database) (statement : Statement) name, statement.tableName? ≠ some name →
      (db.execute statement).state.table? name = db.table? name) ∧
    (∀ (db db' : Database) (statement : Statement),
      (∀ name ∈ statement.tableName?, db.table? name = db'.table? name) →
        (db.execute statement).result = (db'.execute statement).result ∧
          ∀ name ∈ statement.tableName?,
            (db.execute statement).state.table? name = (db'.execute statement).state.table? name) ∧
    ∀ (db : Database) (s s' : Statement), (∀ name ∈ s.tableName?, s'.tableName? ≠ some name) →
      ((db.execute s').state.execute s).result = (db.execute s).result ∧
        ((db.execute s).state.execute s').result = (db.execute s').result ∧
        ((db.execute s).state.execute s').state = ((db.execute s').state.execute s).state := by
  refine ⟨fun db statement name => table?_execute_of_ne, fun db db' statement => execute_congr, fun db s s' h => ?_⟩
  exact ⟨(execute_after h).1, (execute_after fun name hname' hname => h name hname hname').1, state_execute_comm h⟩

/-- An insertion, and a removal of another table. -/
theorem execute_independent_insert_drop :
    let db := (empty.run "create table a (x int); create table b (x int)").state
    let s : Statement := .insert (.ofLexeme (.identifier "a")) [.literal (.ofLexeme ⟨.numeric, "1"⟩)]
    let s' : Statement := .drop (.ofLexeme (.identifier "b"))
    (∀ name ∈ s.tableName?, s'.tableName? ≠ some name) ∧ (db.execute s).result = .ok .inserted ∧
      (db.execute s').state.table? "a" = db.table? "a" ∧
      ((db.execute s').state.execute s).result = .ok .inserted ∧
      ((db.execute s).state.execute s').state = ((db.execute s').state.execute s).state := by
  intro db s s'
  obtain ⟨hother, hcongr, hswap⟩ := execute_independent
  have hdisjoint : ∀ name ∈ s.tableName?, s'.tableName? ≠ some name := by
    rintro _ ⟨⟩
    decide
  have hresult : (db.execute s).result = .ok .inserted := by decide +kernel
  have hsame : (db.execute s').state.table? "a" = db.table? "a" := hother db s' "a" (by decide)
  have hafter := (hcongr (db.execute s').state db s (by rintro _ ⟨⟩; exact hsame)).1
  exact ⟨hdisjoint, hresult, hsame, hafter.trans hresult, (hswap db s s' hdisjoint).2.2⟩

end Database

end SqlStore
