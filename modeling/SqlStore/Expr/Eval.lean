import SqlStore.Value

/-!
# Evaluation

What an expression is on a row: a cell, with the type it is read with and the name it is shown under. Name and
type follow from the columns alone (`describe`); the cell needs the row (`eval`).
-/

namespace SqlStore

/-- The name of a result that is no column of a table. -/
def anonymousColumn : String := "?column?"

/-- A cell, with the name and type of the column it stands in. -/
structure Evaluated where
  column : Column
  cell : Cell
deriving DecidableEq

namespace Operator

/-- The type of a result. -/
def resultType : Operator → SqlType
  | .and | .or | .equal | .notEqual => .bool
  | .concat => .text
  | .plus => .int

/-- The type both operands must have; `none` where any two types will do. -/
def operandType? : Operator → Option SqlType
  | .and | .or => some .bool
  | .equal | .notEqual => none
  | .concat => some .text
  | .plus => some .int

/-- Refuses operands of other types than the operator takes. -/
def check (op : Operator) (left right : SqlType) : Except StoreError Unit :=
  match op.operandType? with
  | none => .ok ()
  | some type =>
      if left = type ∧ right = type then .ok () else .error (.invalidOperands (.types op left right))

/-- The two operands have one type and one content. -/
def same (left right : Evaluated) : Bool :=
  left.column.type = right.column.type ∧ left.cell = right.cell

/-- The cell of an operation whose operands have been checked; sums wrap around at 32 bits. -/
def cell (op : Operator) (left right : Evaluated) : Cell :=
  match op with
  | .and => .ofBool (left.cell.toBool && right.cell.toBool)
  | .or => .ofBool (left.cell.toBool || right.cell.toBool)
  | .equal => .ofBool (same left right)
  | .notEqual => .ofBool (!same left right)
  | .concat => left.cell.concat right.cell
  | .plus => .ofInt (left.cell.toInt + right.cell.toInt)

/-- What is reported when the operation reads its operands. -/
def log (op : Operator) (left right : Evaluated) : List Event :=
  match op with
  | .plus => left.cell.intLog ++ right.cell.intLog
  | _ => []

end Operator

namespace TokenKind

/-- The type that a literal is read with; `null` is read as an integer. -/
def literalType? : TokenKind → Option SqlType
  | .numeric | .null => some .int
  | .string => some .text
  | .bool => some .bool
  | .keyword | .symbol | .identifier => none

end TokenKind

/-- The type at a place, looked up in the list of types. -/
def Columns.typeAt (columns : Columns) (i : Nat) : Except StoreError SqlType :=
  match columns.types[i]? with
  | some type => .ok type
  | none => .error (.outOfBounds i columns.types.length)

theorem Columns.typeAt_eq_ok_iff {columns : Columns} {i : Nat} {type : SqlType} :
    columns.typeAt i = .ok type ↔ columns.types[i]? = some type := by
  unfold typeAt
  cases columns.types[i]? <;> simp

/-- A column that is found by its name has a type. -/
theorem Columns.Parallel.exists_typeAt {columns : Columns} (h : columns.Parallel) {name : String} {i : Nat}
    (hi : columns.place? name = some i) : ∃ type, columns.typeAt i = .ok type := by
  have hlt : i < columns.types.length := h.symm ▸ place?_lt hi
  exact ⟨_, typeAt_eq_ok_iff.2 (List.getElem?_eq_getElem hlt)⟩

namespace Expr

/-- The operator that a token writes. -/
def operator (t : Token) : Except StoreError Operator :=
  match Operator.ofLexeme? t.lexeme with
  | some op => .ok op
  | none => .error .invalidCell

/-- A token by itself: a column of the row, or a literal. -/
def evalToken (columns : Columns) (row : List Cell) (t : Token) : Except StoreError Evaluated :=
  if t.kind = .identifier then
    match columns.place? t.text with
    | none => .error (.noSuchColumn t.text)
    | some i =>
        match row[i]? with
        | none => .error .invalidCell
        | some cell => (columns.typeAt i).map fun type => ⟨⟨t.text, type⟩, cell⟩
  else
    match t.kind.literalType? with
    | none => .error .invalidCell
    | some type => (Cell.ofLexeme t.lexeme).map fun cell => ⟨⟨anonymousColumn, type⟩, cell⟩

/-- The expression on a row: both operands of an operation, left first, and then the operation. -/
def eval (columns : Columns) (row : List Cell) : Expr → Logged StoreError Evaluated
  | .literal t => .ofExcept (evalToken columns row t)
  | .binary l t r => do
      let left ← eval columns row l
      let right ← eval columns row r
      let op ← .ofExcept (operator t)
      .ofExcept (op.check left.column.type right.column.type)
      .report (op.log left right)
      return ⟨⟨anonymousColumn, op.resultType⟩, op.cell left right⟩

@[simp] theorem result_eval_literal (columns : Columns) (row : List Cell) (t : Token) :
    (eval columns row (.literal t)).result = evalToken columns row t := rfl

@[simp] theorem result_eval_binary (columns : Columns) (row : List Cell) (l : Expr) (t : Token) (r : Expr) :
    (eval columns row (.binary l t r)).result = (do
      let left ← (eval columns row l).result
      let right ← (eval columns row r).result
      let op ← operator t
      op.check left.column.type right.column.type
      return ⟨⟨anonymousColumn, op.resultType⟩, op.cell left right⟩) := by
  simp only [eval, Logged.result_bind, Logged.result_ofExcept, Logged.result_report, Logged.result_pure]
  rfl

/-- Name and type of a token by itself. -/
def describeToken (columns : Columns) (t : Token) : Except StoreError Column :=
  if t.kind = .identifier then
    match columns.place? t.text with
    | none => .error (.noSuchColumn t.text)
    | some i => (columns.typeAt i).map fun type => ⟨t.text, type⟩
  else
    match t.kind.literalType? with
    | none => .error .invalidCell
    | some type => .ok ⟨anonymousColumn, type⟩

/-- Name and type of the expression on any row; the types of operands are not looked at. -/
def describe (columns : Columns) : Expr → Except StoreError Column
  | .literal t => describeToken columns t
  | .binary l t r => do
      let _ ← describe columns l
      let _ ← describe columns r
      let op ← operator t
      return ⟨anonymousColumn, op.resultType⟩

end Expr

end SqlStore
