import SqlStore.Statement.Parse.Change
import SqlStore.Statement.Parse.Select

/-!
# Reading statements

The word at the head decides which form a statement has. Every success takes at least one token
(`consumes_parse`).
-/

namespace SqlStore.Statement

open Reading

/-- The statement at the head of the tokens. -/
def parse : Reader Statement
  | [] => .error ⟨.statement, []⟩
  | t :: ts =>
      if t.lexeme = .keyword .select then do
        let (query, rest) ← readSelect ts
        return (.select query, rest)
      else if t.lexeme = .keyword .insert then do
        let ((table, values), rest) ← readInsert ts
        return (.insert table values, rest)
      else if t.lexeme = .keyword .create then do
        let ((table, columns), rest) ← readCreate ts
        return (.create table columns, rest)
      else if t.lexeme = .keyword .drop then do
        let (table, rest) ← readDrop ts
        return (.drop table, rest)
      else .error ⟨.statement, t :: ts⟩

theorem consumes_parse : Consumes parse := by
  constructor
  intro ts statement rest h
  cases ts with
  | nil => cases h
  | cons t ts =>
      rw [parse] at h
      split at h
      · obtain ⟨⟨query, rest₁⟩, hquery, h⟩ := exists_of_bind_eq_ok h
        cases h; exact Nat.lt_succ_of_le (keeps_readSelect.le hquery)
      split at h
      · obtain ⟨⟨⟨table, values⟩, rest₁⟩, hrow, h⟩ := exists_of_bind_eq_ok h
        cases h; exact Nat.lt_succ_of_le (keeps_readInsert.le hrow)
      split at h
      · obtain ⟨⟨⟨table, columns⟩, rest₁⟩, hdefinition, h⟩ := exists_of_bind_eq_ok h
        cases h; exact Nat.lt_succ_of_le (keeps_readCreate.le hdefinition)
      split at h
      · obtain ⟨⟨table, rest₁⟩, htable, h⟩ := exists_of_bind_eq_ok h
        cases h; exact Nat.lt_succ_of_le (keeps_readDrop.le htable)
      · cases h

end SqlStore.Statement
