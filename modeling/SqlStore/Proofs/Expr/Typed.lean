import SqlStore.Table
import SqlStore.Proofs.Datum

/-!
# Typed evaluation

An interpreter of expressions over typed data, and the proof that evaluation over cells agrees with it wherever
the cells fit the types of their columns (`agrees_eval`).
-/

namespace SqlStore

/-! ## The interpreter -/

/-- What an operator makes of two data: `=` and `<>` compare any two, the others take data of one type and read a
missing value as 0 or the empty text. Sums are taken modulo `2 ^ 32` into the signed range. -/
def Operator.apply : Operator → Datum → Datum → Except StoreError Datum
  | .equal, a, b => .ok (.bool (a = b))
  | .notEqual, a, b => .ok (.bool (a ≠ b))
  | .concat, .text s, .text t => .ok (.text (some (s.getD "" ++ t.getD "")))
  | .plus, .int m, .int n => .ok (.int (some (.ofInt ((m.getD 0).toInt + (n.getD 0).toInt))))
  | .and, .bool a, .bool b => .ok (.bool (a && b))
  | .or, .bool a, .bool b => .ok (.bool (a || b))
  | op, a, b => .error (.invalidOperands (.types op a.type b.type))

namespace Datum

/-- A token by itself: the datum of the first column of its name, or a literal. -/
def ofToken (names : List String) (row : List Datum) (t : Token) : Except StoreError Datum :=
  match t.kind with
  | .identifier =>
      match names.findIdx? (· = t.text) with
      | none => .error (.noSuchColumn t.text)
      | some i =>
          match row[i]? with
          | none => .error .invalidCell
          | some d => .ok d
  | .numeric =>
      match Text.Numeral.int32? t.text.toList with
      | none => .error (.invalidNumeral t.text)
      | some n => .ok (.int (some n))
  | .null => .ok (.int none)
  | .string => .ok (.text (some t.text))
  | .bool => .ok (.bool (t.text = "true"))
  | .keyword | .symbol => .error .invalidCell

/-- The expression on a row of data: the left operand, the right operand, then the operator. -/
def eval (names : List String) (row : List Datum) : Expr → Except StoreError Datum
  | .literal t => ofToken names row t
  | .binary l t r => do
      let left ← eval names row l
      let right ← eval names row r
      match Operator.ofLexeme? t.lexeme with
      | none => .error .invalidCell
      | some op => op.apply left right

/-- A row of cells, each read as its column's type. -/
def ofRow (types : List SqlType) (row : List Cell) : List Datum := List.zipWith ofCell types row

end Datum

/-! ## Agreement -/

/-- Every cell of the row fits the type of its column; the row may be shorter or longer than the columns. -/
def RowFits (columns : Columns) (row : List Cell) : Prop :=
  ∀ p ∈ columns.types.zip row, p.2.Fits p.1

def Table.CellsFit (table : Table) : Prop := ∀ row ∈ table.rows, RowFits table.columns row

/-- The cell holds the datum, under the type of the datum. -/
def Evaluated.Holds (v : Evaluated) (d : Datum) : Prop := v.column.type = d.type ∧ v.cell = d.toCell

/-- Both fail with one error, or the cell that one gives holds the datum that the other gives. -/
inductive Agrees : Except StoreError Evaluated → Except StoreError Datum → Prop
  | ok {v : Evaluated} {d : Datum} (h : v.Holds d) : Agrees (.ok v) (.ok d)
  | error (e : StoreError) : Agrees (.error e) (.error e)

theorem Agrees.bind {x : Except StoreError Evaluated} {y : Except StoreError Datum}
    {f : Evaluated → Except StoreError Evaluated} {g : Datum → Except StoreError Datum} (h : Agrees x y)
    (hf : ∀ v d, v.Holds d → Agrees (f v) (g d)) : Agrees (x >>= f) (y >>= g) := by
  cases h with
  | ok h => exact hf _ _ h
  | error e => exact .error e

theorem getElem?_ofRow {types : List SqlType} {row : List Cell} {i : Nat} {type : SqlType}
    (htype : types[i]? = some type) : (Datum.ofRow types row)[i]? = (row[i]?).map (Datum.ofCell type) := by
  rw [Datum.ofRow, List.getElem?_zipWith, htype]
  cases row[i]? <;> rfl

theorem RowFits.getElem? {columns : Columns} {row : List Cell} (h : RowFits columns row) {i : Nat} {type : SqlType}
    {cell : Cell} (htype : columns.types[i]? = some type) (hcell : row[i]? = some cell) : cell.Fits type := by
  refine h (type, cell) (List.mem_iff_getElem?.2 ⟨i, ?_⟩)
  rw [List.getElem?_zip_eq_some]
  exact ⟨htype, hcell⟩

/-! ## Tokens -/

theorem agrees_evalToken {columns : Columns} {row : List Cell} (hparallel : columns.Parallel)
    (h : RowFits columns row) (t : Token) :
    Agrees (Expr.evalToken columns row t) (Datum.ofToken columns.names (Datum.ofRow columns.types row) t) := by
  unfold Expr.evalToken Datum.ofToken
  cases hkind : t.kind with
  | identifier =>
      cases hfound : columns.place? t.text with
      | none =>
          rw [show columns.names.findIdx? (· = t.text) = none from hfound]
          exact .error _
      | some i =>
          rw [show columns.names.findIdx? (· = t.text) = some i from hfound]
          -- the column has a type, since a type stands beside each name
          obtain ⟨type, htypeAt⟩ := hparallel.exists_typeAt hfound
          have htype := Columns.typeAt_eq_ok_iff.1 htypeAt
          simp only [↓reduceIte, htypeAt, getElem?_ofRow htype]
          cases hcell : row[i]? with
          | none => exact .error _
          | some cell =>
              exact .ok ⟨(Datum.type_ofCell _ _).symm, (Datum.toCell_ofCell (h.getElem? htype hcell)).symm⟩
  | numeric =>
      simp only [reduceCtorEq, ↓reduceIte, TokenKind.literalType?, Cell.ofLexeme, hkind]
      cases Text.Numeral.int32? t.text.toList with
      | none => exact .error _
      | some n => exact .ok ⟨rfl, rfl⟩
  | string =>
      simp only [reduceCtorEq, ↓reduceIte, TokenKind.literalType?, Cell.ofLexeme, hkind]
      exact .ok ⟨rfl, rfl⟩
  | bool =>
      simp only [reduceCtorEq, ↓reduceIte, TokenKind.literalType?, Cell.ofLexeme, hkind]
      exact .ok ⟨rfl, rfl⟩
  | null =>
      simp only [reduceCtorEq, ↓reduceIte, TokenKind.literalType?, Cell.ofLexeme, hkind]
      exact .ok ⟨rfl, rfl⟩
  | keyword => exact .error _
  | symbol => exact .error _

/-! ## Operations -/

theorem same_iff {v w : Evaluated} {a b : Datum} (hv : v.Holds a) (hw : w.Holds b) :
    Operator.same v w = decide (a = b) := by
  rw [Operator.same, hv.1, hw.1, hv.2, hw.2, decide_eq_decide, Datum.eq_iff]

theorem concat_toCell (s t : Option String) :
    (Datum.text s).toCell.concat (Datum.text t).toCell = (Datum.text (some (s.getD "" ++ t.getD ""))).toCell := by
  rw [Cell.concat, Datum.bytes_toCell_text, Datum.bytes_toCell_text]
  simp [Datum.toCell, Cell.ofText, Text.Utf8.encode]

theorem plus_toCell (m n : Option Int32) :
    Cell.ofInt ((Datum.int m).toCell.toInt + (Datum.int n).toCell.toInt) =
      (Datum.int (some (.ofInt ((m.getD 0).toInt + (n.getD 0).toInt)))).toCell := by
  rw [Datum.toInt_toCell, Datum.toInt_toCell, Int32.ofInt_add, Int32.ofInt_toInt, Int32.ofInt_toInt]
  rfl

/-- An operation whose operands have been evaluated: the check of their types, and then its cell. -/
theorem agrees_apply (op : Operator) {v w : Evaluated} {a b : Datum} (hv : v.Holds a) (hw : w.Holds b) :
    Agrees (op.check v.column.type w.column.type >>= fun _ => return ⟨⟨anonymousColumn, op.resultType⟩, op.cell v w⟩)
      (op.apply a b) := by
  have hsame := same_iff hv hw
  obtain ⟨hv, hv'⟩ := hv
  obtain ⟨hw, hw'⟩ := hw
  rw [hv, hw]
  cases op with
  | equal => exact .ok ⟨rfl, congrArg Cell.ofBool hsame⟩
  | notEqual =>
      refine .ok ⟨rfl, ?_⟩
      simp [Operator.cell, hsame, Datum.toCell]
  | concat =>
      cases a with
      | text s =>
          cases b with
          | text t => exact .ok ⟨rfl, by rw [Operator.cell, hv', hw', concat_toCell]⟩
          | _ => exact .error _
      | _ => exact .error _
  | plus =>
      cases a with
      | int m =>
          cases b with
          | int n => exact .ok ⟨rfl, by rw [Operator.cell, hv', hw', plus_toCell]⟩
          | _ => exact .error _
      | _ => exact .error _
  | and =>
      cases a with
      | bool a =>
          cases b with
          | bool b => exact .ok ⟨rfl, by simp [Operator.cell, hv', hw', Datum.toCell]⟩
          | _ => exact .error _
      | _ => exact .error _
  | or =>
      cases a with
      | bool a =>
          cases b with
          | bool b => exact .ok ⟨rfl, by simp [Operator.cell, hv', hw', Datum.toCell]⟩
          | _ => exact .error _
      | _ => exact .error _

/-! ## Expressions -/

theorem agrees_eval {columns : Columns} {row : List Cell} (hparallel : columns.Parallel) (h : RowFits columns row)
    (e : Expr) :
    Agrees (e.eval columns row).result (Datum.eval columns.names (Datum.ofRow columns.types row) e) := by
  induction e with
  | literal t => exact agrees_evalToken hparallel h t
  | binary l t r ihl ihr =>
      rw [Expr.result_eval_binary, Datum.eval]
      -- both sides take the operands in one order, so the first error of one is that of the other
      refine ihl.bind fun v a hv => ihr.bind fun w b hw => ?_
      rw [Expr.operator]
      cases Operator.ofLexeme? t.lexeme with
      | none => exact .error _
      | some op => exact agrees_apply op hv hw

theorem Agrees.map_eq {x : Except StoreError Evaluated} {y : Except StoreError Datum} (h : Agrees x y) :
    x.map (fun v => (v.column.type, v.cell)) = y.map fun d => (d.type, d.toCell) := by
  cases h with
  | ok h => exact congrArg Except.ok (Prod.ext h.1 h.2)
  | error e => rfl

theorem Agrees.exists_datum {v : Evaluated} {y : Except StoreError Datum} (h : Agrees (.ok v) y) :
    ∃ d, y = .ok d ∧ v.Holds d := by
  cases h with
  | ok h => exact ⟨_, rfl, h⟩

theorem Table.rowFits {table : Table} (h : table.CellsFit) (row : Nat) :
    RowFits table.columns (table.rows[row]?.getD []) := by
  cases hrow : table.rows[row]? with
  | none => intro p hp; simp at hp
  | some cells => exact h cells (List.mem_of_getElem? hrow)

/-- Evaluation on any row gives the type and the cell of what the interpreter gives, or its error; the cell fits
the type again and decodes to the interpreter's value. -/
theorem Table.evaluate_eq_interpreted {table : Table} (hparallel : table.columns.Parallel) (h : table.CellsFit)
    (row : Nat) (e : Expr) :
    let interpreted := Datum.eval table.columns.names (Datum.ofRow table.columns.types (table.rows[row]?.getD [])) e
    (table.evaluate row e).result.map (fun v => (v.column.type, v.cell)) =
        interpreted.map (fun d => (d.type, d.toCell)) ∧
      ∀ v, (table.evaluate row e).result = .ok v →
        v.cell.Fits v.column.type ∧ interpreted.map Datum.value = .ok (Value.decode v.column.type v.cell) := by
  intro interpreted
  have hagrees : Agrees (table.evaluate row e).result interpreted :=
    agrees_eval hparallel (Table.rowFits h row) e
  refine ⟨hagrees.map_eq, fun v hv => ?_⟩
  rw [hv] at hagrees
  obtain ⟨d, hd, htype, hcell⟩ := hagrees.exists_datum
  rw [hd, htype, hcell]
  exact ⟨d.fits_toCell, congrArg Except.ok d.decode_toCell.symm⟩

/-- A row whose first cell is the largest integer: adding 1 to it gives the smallest one. -/
theorem Table.evaluate_eq_interpreted_wrapping :
    let table : Table := ⟨⟨["a", "b"], [.int, .text]⟩, [[.ofInt 2147483647, .empty]], none⟩
    let sum : Expr := .binary (.literal (.ofLexeme (.identifier "a"))) (.ofLexeme (.symbol .plus))
      (.literal (.ofLexeme ⟨.numeric, "1"⟩))
    table.columns.Parallel ∧ table.CellsFit ∧ (table.evaluate 0 sum).result.map (fun v => (v.column.type, v.cell)) =
      .ok (.int, .ofInt (-2147483648)) := by
  intro table sum
  have hfit : table.CellsFit := by
    intro row hrow p hp bytes hbytes
    simp only [table, List.mem_singleton] at hrow
    subst hrow
    simp only [table, List.zip_cons_cons, List.zip_nil_right, List.mem_cons, List.not_mem_nil, or_false] at hp
    rcases hp with rfl | rfl
    · cases hbytes
      rfl
    · cases hbytes
  have hparallel : table.columns.Parallel := rfl
  refine ⟨hparallel, hfit, ?_⟩
  rw [(Table.evaluate_eq_interpreted hparallel hfit 0 sum).1]
  rfl

end SqlStore
