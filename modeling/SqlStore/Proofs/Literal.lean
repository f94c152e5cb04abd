import SqlStore.Table
import SqlStore.Proofs.Datum
import SqlStore.Proofs.Sequence

/-!
# Literals as data

The datum that a literal stands for, and the row stored for some values: the data of the literals among them, in
their order (`result_storedRow_eq_ok_iff`).
-/

namespace SqlStore

open Reading

/-- The literal stands for the datum. `null` is no value of either type. -/
inductive Lexeme.Denotes : Lexeme → Datum → Prop
  | numeral {text : String} {n : Int32} (h : Text.Numeral.int32? text.toList = some n) :
      Denotes ⟨.numeric, text⟩ (.int (some n))
  | string (text : String) : Denotes ⟨.string, text⟩ (.text (some text))
  | bool (text : String) : Denotes ⟨.bool, text⟩ (.bool (text == "true"))
  | nullInt (text : String) : Denotes ⟨.null, text⟩ (.int none)
  | nullText (text : String) : Denotes ⟨.null, text⟩ (.text none)

namespace Expr

def literal? : Expr → Option Token
  | .literal t => some t
  | .binary .. => none

theorem mem_filterMap_literal? {values : List Expr} {t : Token} :
    t ∈ values.filterMap literal? ↔ .literal t ∈ values := by
  simp only [List.mem_filterMap]
  refine ⟨?_, fun h => ⟨_, h, rfl⟩⟩
  rintro ⟨_ | _, h, ht⟩
  · cases ht
    exact h
  · cases ht

/-- The value is a literal that stands for the datum. -/
def Denotes (value : Expr) (d : Datum) : Prop := ∃ t, value = .literal t ∧ t.lexeme.Denotes d

end Expr

theorem Cell.ofLexeme_of_denotes {l : Lexeme} {d : Datum} (h : l.Denotes d) : ofLexeme l = .ok d.toCell := by
  cases h with
  | numeral h => simp [ofLexeme, h, Datum.toCell]
  | _ => rfl

/-! ## Stored rows -/

namespace Table

variable {t : Token} {cell : Cell} {values : List Expr} {row : List Cell}

/-- The cell holds a datum for which the literal stands. -/
def Holds (t : Token) (cell : Cell) : Prop := ∃ d, t.lexeme.Denotes d ∧ cell = d.toCell

theorem storedCell_of_denotes {d : Datum} (h : t.lexeme.Denotes d) : storedCell t = .ok d.toCell := by
  have hcell := Cell.ofLexeme_of_denotes h
  rw [storedCell, Expr.evalToken, Token.kind]
  generalize t.lexeme = l at h hcell
  cases h <;> simp [TokenKind.literalType?, hcell, Except.map]

theorem storedCell_eq_ok_iff : storedCell t = .ok cell ↔ Holds t cell := by
  constructor
  · intro h
    -- some datum has to be found first: the cell is then the only one that can be stored
    have hdenotes : ∃ d, t.lexeme.Denotes d := by
      rw [storedCell, Expr.evalToken, Token.kind, Token.text] at h
      generalize t.lexeme = l at h
      obtain ⟨kind, text⟩ := l
      cases kind with
      | numeric =>
          cases hn : Text.Numeral.int32? text.toList with
          | none => simp [TokenKind.literalType?, Cell.ofLexeme, hn, Except.map] at h
          | some n => exact ⟨_, .numeral hn⟩
      | string => exact ⟨_, .string text⟩
      | bool => exact ⟨_, .bool text⟩
      | null => exact ⟨_, .nullInt text⟩
      | keyword | symbol | identifier => cases h
    obtain ⟨d, hd⟩ := hdenotes
    rw [storedCell_of_denotes hd] at h
    cases h
    exact ⟨d, hd, rfl⟩
  · rintro ⟨d, hd, rfl⟩
    exact storedCell_of_denotes hd

theorem result_storedRow_eq_mapM (values : List Expr) :
    (storedRow values).result = (values.filterMap Expr.literal?).mapM storedCell := by
  induction values with
  | nil => rfl
  | cons value values ih =>
      cases value with
      | literal t =>
          simp only [storedRow, Logged.result_bind, Logged.result_ofExcept, Logged.result_pure, ih]
          exact List.mapM_cons.symm
      | binary l op r =>
          simp only [storedRow, Logged.result_bind, Logged.result_report, ih]
          rfl

/-- The row stored for the values holds what the literals among them stand for. -/
theorem result_storedRow_eq_ok_iff :
    (storedRow values).result = .ok row ↔ List.Forall₂ Holds (values.filterMap Expr.literal?) row := by
  simp only [result_storedRow_eq_mapM, mapM_eq_ok_iff, storedCell_eq_ok_iff]

/-- A row is stored exactly if each literal stands for a datum. -/
theorem exists_storedRow_iff :
    (∃ row, (storedRow values).result = .ok row) ↔ ∀ t, .literal t ∈ values → ∃ d, t.lexeme.Denotes d := by
  simp only [result_storedRow_eq_ok_iff, ← Expr.mem_filterMap_literal?, exists_forall₂_iff, Holds]
  exact forall₂_congr fun t _ => ⟨fun ⟨_, d, hd, _⟩ => ⟨d, hd⟩, fun ⟨d, hd⟩ => ⟨_, d, hd, rfl⟩⟩

/-- Values that are all literals store what they stand for. -/
theorem result_storedRow_of_denotes {data : List Datum} (h : List.Forall₂ Expr.Denotes values data) :
    (storedRow values).result = .ok (data.map Datum.toCell) := by
  rw [result_storedRow_eq_ok_iff]
  induction h with
  | nil => exact .nil
  | cons hvalue _ ih =>
      obtain ⟨t, rfl, ht⟩ := hvalue
      exact .cons ⟨_, ht, rfl⟩ ih

/-! ## Inserted rows -/

/-- The row is what an insertion of the values adds to a table of these columns. -/
structure RowOf (columns : Columns) (values : List Expr) (row : List Cell) : Prop where
  length_eq : values.length = columns.names.length
  holds : List.Forall₂ Holds (values.filterMap Expr.literal?) row

variable {table : Table}

theorem insert_of_rowOf (h : RowOf table.columns values row) :
    (insert values table).result = .ok () ∧
      (insert values table).state = { table with rows := table.rows ++ [row] } := by
  rw [insert_of_length h.length_eq, result_storedRow_eq_ok_iff.2 h.holds]
  exact ⟨rfl, rfl⟩

theorem exists_rowOf_of_insert {a : Unit} (h : (insert values table).result = .ok a) :
    ∃ row, RowOf table.columns values row ∧
      (insert values table).state = { table with rows := table.rows ++ [row] } := by
  by_cases hlength : values.length = table.columns.names.length
  · cases hrow : (storedRow values).result with
    | error e =>
        rw [insert_of_length hlength, hrow] at h
        cases h
    | ok row =>
        have hrowOf : RowOf table.columns values row := ⟨hlength, result_storedRow_eq_ok_iff.1 hrow⟩
        exact ⟨row, hrowOf, (insert_of_rowOf hrowOf).2⟩
  · rw [insert_of_length_ne hlength] at h
    cases h

variable {columns : Columns}

theorem RowOf.eq_map_toCell (h : RowOf columns values row) {data : List Datum}
    (hdata : List.Forall₂ Expr.Denotes values data) : row = data.map Datum.toCell := by
  have hrow := result_storedRow_eq_ok_iff.2 h.holds
  rw [result_storedRow_of_denotes hdata] at hrow
  cases hrow
  rfl

/-- A row has a cell for each column unless an operation stands among its values. -/
theorem RowOf.short_iff (h : RowOf columns values row) :
    row.length < columns.names.length ↔ ∃ l t r, .binary l t r ∈ values := by
  have hoperation : ∀ value : Expr, value.literal? = none ↔ ∃ l t r, value = .binary l t r := by
    rintro (t | ⟨l, t, r⟩) <;> simp [Expr.literal?]
  rw [← h.length_eq, ← h.holds.length_eq, List.length_filterMap_lt_length_iff_exists]
  simp only [hoperation]
  constructor
  · rintro ⟨_, hmem, l, t, r, rfl⟩
    exact ⟨l, t, r, hmem⟩
  · rintro ⟨l, t, r, hmem⟩
    exact ⟨_, hmem, l, t, r, rfl⟩

end Table

end SqlStore
