import SqlStore.Expr.Parse
import SqlStore.Reading.Separated
import SqlStore.Statement.Basic

/-!
# Reading changes

The statements that change tables: INSERT, CREATE and DROP.
-/

namespace SqlStore.Statement

open Reading

/-- The values of a row, up to a closing parenthesis. -/
def readValues : Reader (List Expr) :=
  separated (Expr.parse [.symbol .comma, .symbol .rightParen] 0) Expr.consumes_parse
    (· = .symbol .rightParen)

theorem keeps_readValues : Keeps readValues :=
  keeps_separated Expr.consumes_parse

/-- An insertion, after its first word. -/
def readInsert : Reader (Token × List Expr) := fun ts => do
  let rest ← expect (.keyword .into) .into ts
  let (table, rest) ← expectKind .identifier .tableName rest
  let rest ← expect (.keyword .values) .values rest
  let rest ← expect (.symbol .leftParen) .leftParen rest
  let (values, rest) ← readValues rest
  let rest ← expect (.symbol .rightParen) .rightParen rest
  return ((table, values), rest)

/-- A column's name and type, and whether it is the primary key. -/
def readColumn : Reader ColumnDefinition := fun ts => do
  let (name, rest) ← expectKind .identifier .columnName ts
  let (type, rest) ← expectKind .keyword .columnType rest
  match rest with
  | [] => return (⟨name, type, false⟩, [])
  | t :: ts =>
      if t.lexeme = .keyword .primaryKey then return (⟨name, type, true⟩, ts)
      else return (⟨name, type, false⟩, t :: ts)

theorem consumes_readColumn : Consumes readColumn := by
  constructor
  intro ts column rest h
  obtain ⟨⟨name, rest₁⟩, hname, h⟩ := exists_of_bind_eq_ok h
  obtain ⟨⟨type, rest₂⟩, htype, h⟩ := exists_of_bind_eq_ok h
  have := consumes_expectKind.lt hname
  have := consumes_expectKind.lt htype
  cases rest₂ with
  | nil => cases h; omega
  | cons t ts =>
      simp only [List.length_cons] at *
      split at h
      · cases h; omega
      · cases h; simp only [List.length_cons]; omega

/-- The columns of a table, up to a closing parenthesis. -/
def readColumns : Reader (List ColumnDefinition) :=
  separated readColumn consumes_readColumn (· = .symbol .rightParen)

theorem keeps_readColumns : Keeps readColumns :=
  keeps_separated consumes_readColumn

/-- A table's definition, after its first word; the columns may be left out with their parentheses. -/
def readCreate : Reader (Token × List ColumnDefinition) := fun ts => do
  let rest ← expect (.keyword .table) .tableWord ts
  let (table, rest) ← expectKind .identifier .tableName rest
  match rest with
  | [] => return ((table, []), [])
  | t :: ts =>
      if t.lexeme = .symbol .leftParen then
        let (columns, rest) ← readColumns ts
        let rest ← expect (.symbol .rightParen) .columnDefinition rest
        return ((table, columns), rest)
      else return ((table, []), t :: ts)

/-- The removal of a table, after its first word. -/
def readDrop : Reader Token := fun ts => do
  let rest ← expect (.keyword .table) .tableWord ts
  expectKind .identifier .tableName rest

/-! ## What a success takes -/

theorem keeps_readInsert : Keeps readInsert := by
  constructor
  intro ts row rest h
  obtain ⟨rest₁, hinto, h⟩ := exists_of_bind_eq_ok h
  obtain ⟨⟨table, rest₂⟩, htable, h⟩ := exists_of_bind_eq_ok h
  obtain ⟨rest₃, hvalues, h⟩ := exists_of_bind_eq_ok h
  obtain ⟨rest₄, hopen, h⟩ := exists_of_bind_eq_ok h
  obtain ⟨⟨values, rest₅⟩, hlist, h⟩ := exists_of_bind_eq_ok h
  obtain ⟨rest₆, hclose, h⟩ := exists_of_bind_eq_ok h
  cases h
  exact Nat.le_trans (length_le_of_expect hclose) <| Nat.le_trans (keeps_readValues.le hlist) <|
    Nat.le_trans (length_le_of_expect hopen) <| Nat.le_trans (length_le_of_expect hvalues) <|
    Nat.le_trans (consumes_expectKind.keeps.le htable) (length_le_of_expect hinto)

theorem keeps_readCreate : Keeps readCreate := by
  constructor
  intro ts definition rest h
  obtain ⟨rest₁, hword, h⟩ := exists_of_bind_eq_ok h
  obtain ⟨⟨table, rest₂⟩, htable, h⟩ := exists_of_bind_eq_ok h
  have h₂ := Nat.le_trans (consumes_expectKind.keeps.le htable) (length_le_of_expect hword)
  cases rest₂ with
  | nil => cases h; exact Nat.zero_le _
  | cons t rest₂ =>
      dsimp only at h
      split at h
      · obtain ⟨⟨columns, rest₃⟩, hcolumns, h⟩ := exists_of_bind_eq_ok h
        obtain ⟨rest₄, hclose, h⟩ := exists_of_bind_eq_ok h
        cases h
        exact Nat.le_trans (length_le_of_expect hclose) <| Nat.le_trans (keeps_readColumns.le hcolumns) <|
          Nat.le_trans (Nat.le_succ _) h₂
      · cases h; exact h₂

theorem keeps_readDrop : Keeps readDrop := by
  constructor
  intro ts table rest h
  obtain ⟨rest₁, hword, h⟩ := exists_of_bind_eq_ok h
  exact Nat.le_trans (consumes_expectKind.keeps.le h) (length_le_of_expect hword)

end SqlStore.Statement
