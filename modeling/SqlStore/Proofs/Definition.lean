import SqlStore.Table
import SqlStore.Proofs.Sequence

/-!
# Tables from definitions

A table is made by adding to its two lists of columns, one definition after another. Each step adds to both lists, so
they stay side by side (`Table.parallel_ofDefinitions`), and at the end they hold the names and the declared types of
all definitions (`Table.define_eq_ok_iff`).
-/

namespace SqlStore.Table

open Reading

variable {table table' : Table} {ds : List ColumnDefinition} {i : Nat}

/-- The place of the last definition with a primary key. -/
def lastPrimaryKey : List ColumnDefinition → Option Nat
  | [] => none
  | d :: ds =>
      match lastPrimaryKey ds with
      | some i => some (i + 1)
      | none => if d.primaryKey then some 0 else none

theorem parallel_define (hparallel : table.columns.Parallel) (h : define table i ds = .ok table') :
    table'.columns.Parallel := by
  induction ds generalizing table i with
  | nil =>
      cases h
      exact hparallel
  | cons d ds ih =>
      obtain ⟨type, -, h⟩ := exists_of_bind_eq_ok h
      exact ih (hparallel.push ⟨d.name.text, type⟩) h

theorem parallel_ofDefinitions (h : ofDefinitions ds = .ok table) : table.columns.Parallel :=
  parallel_define Columns.parallel_empty h

/-- A later primary key is counted on from the first definition, which has one only if no later one has. -/
theorem map_lastPrimaryKey_cons (d : ColumnDefinition) (key : Option Nat) :
    ((lastPrimaryKey (d :: ds)).map (i + ·)).or key =
      ((lastPrimaryKey ds).map (i + 1 + ·)).or (if d.primaryKey then some i else key) := by
  rw [lastPrimaryKey]
  cases lastPrimaryKey ds with
  | none => cases d.primaryKey <;> rfl
  | some j =>
      have hplace : i + (j + 1) = i + 1 + j := by omega
      exact congrArg some hplace

/-- Definitions of known types add their names to one list and their types to the other; nothing else succeeds. -/
theorem define_eq_ok_iff :
    define table i ds = .ok table' ↔
      ∃ types, List.Forall₂ (fun d type => declaredType d.type = .ok type) ds types ∧
        table' = ⟨⟨table.columns.names ++ ds.map (·.name.text), table.columns.types ++ types⟩, table.rows,
          ((lastPrimaryKey ds).map (i + ·)).or table.primaryKey⟩ := by
  induction ds generalizing table i with
  | nil =>
      constructor
      · intro h
        cases h
        exact ⟨[], .nil, by simp [lastPrimaryKey]⟩
      · rintro ⟨types, htypes, rfl⟩
        cases htypes
        simp [define, lastPrimaryKey]
  | cons d ds ih =>
      rw [map_lastPrimaryKey_cons]
      constructor
      · intro h
        obtain ⟨type, htype, h⟩ := exists_of_bind_eq_ok h
        obtain ⟨types, htypes, rfl⟩ := ih.1 h
        exact ⟨type :: types, .cons htype htypes, by simp [Columns.push]⟩
      · rintro ⟨types, htypes, rfl⟩
        cases htypes with
        | @cons _ type _ types htype htypes =>
            rw [define, htype]
            exact ih.2 ⟨types, htypes, by simp [Columns.push]⟩

end SqlStore.Table
