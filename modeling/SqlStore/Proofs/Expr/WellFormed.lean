import SqlStore.Proofs.Expr.Evaluation
import SqlStore.Proofs.Expr.Rendering

/-!
# Well-formed expressions

Reader and evaluator keep separate lists of operators and literals. `WellFormed` says what the evaluator knows: every
expression that tokens write is well formed, and a well-formed expression names no cell that is not there, on any row
that has a cell for each column (`WellFormed.avoids_eval`).
-/

namespace SqlStore

open Reading

/-! ## What the evaluator knows -/

namespace Expr

/-- The token names a column, or it is a literal that has a type. -/
def Readable (t : Token) : Prop := t.kind = .identifier ∨ ∃ type, t.kind.literalType? = some type

/-- Every operand is readable, and every operator is one that is evaluated. -/
inductive WellFormed : Expr → Prop
  | literal {t : Token} (h : Readable t) : WellFormed (.literal t)
  | binary {l r : Expr} {t : Token} {op : Operator} (hop : operator t = .ok op) (hl : WellFormed l)
      (hr : WellFormed r) : WellFormed (.binary l t r)

theorem readable_of_isOperand {t : Token} (h : t.kind.isOperand = true) : Readable t := by
  rw [Readable]
  generalize t.kind = kind at h
  cases kind with
  | identifier => exact .inl rfl
  | string | numeric | bool | null => exact .inr ⟨_, rfl⟩
  | keyword | symbol => cases h

theorem Rendering.wellFormed {floor : Nat} {e : Expr} {ts : List Token} (h : Rendering floor e ts) : e.WellFormed := by
  induction h with
  | literal ht => exact .literal (readable_of_isOperand ht)
  | paren _ _ _ ih => exact ih
  | binary ht _ _ _ ihl ihr => exact .binary (operator_of_lexeme ht) ihl ihr

end Expr

/-! ## Evaluation -/

theorem Operator.avoids_check {e : StoreError} (he : ∀ problem, e ≠ .invalidOperands problem) (op : Operator)
    (left right : SqlType) : Avoids e (op.check left right) := by
  intro h
  obtain ⟨type, -, -, h⟩ := check_eq_error_iff.1 h
  exact he _ h

namespace Expr

variable {columns : Columns} {row : List Cell} {t : Token} {e : Expr}

theorem Readable.literalType? (h : Readable t) (hkind : t.kind ≠ .identifier) : t.kind.literalType? ≠ none := by
  obtain ⟨type, htype⟩ := h.resolve_left hkind
  simp [htype]

theorem Readable.avoids_evalToken (h : Readable t) (hrow : columns.names.length ≤ row.length) :
    Avoids .invalidCell (evalToken columns row t) := by
  intro hfails
  cases evalToken_eq_error_iff.1 hfails with
  | noCell _ hi hcell =>
      have hlt := Nat.lt_of_lt_of_le (Columns.place?_lt hi) hrow
      exact Nat.not_le_of_lt hlt (List.getElem?_eq_none_iff.1 hcell)
  | noType _ _ _ htype => cases Columns.typeAt_eq_error htype
  | noLiteral hkind htype => exact h.literalType? hkind htype

theorem Readable.avoids_describeToken (h : Readable t) (columns : Columns) :
    Avoids .invalidCell (describeToken columns t) := by
  intro hfails
  cases describeToken_eq_error_iff.1 hfails with
  | noType _ _ htype => cases Columns.typeAt_eq_error htype
  | noLiteral hkind htype => exact h.literalType? hkind htype

theorem WellFormed.avoids_eval (h : e.WellFormed) (hrow : columns.names.length ≤ row.length) :
    Avoids .invalidCell (e.eval columns row).result := by
  induction h with
  | literal h => exact h.avoids_evalToken hrow
  | binary hop _ _ ihl ihr =>
      rw [result_eval_binary, hop]
      refine ihl.bind fun left => ihr.bind fun right => (avoids_ok _).bind fun op => ?_
      exact (op.avoids_check (by simp) _ _).bind fun _ => avoids_ok _

theorem WellFormed.avoids_describe (h : e.WellFormed) (columns : Columns) :
    Avoids .invalidCell (e.describe columns) := by
  induction h with
  | literal h => exact h.avoids_describeToken columns
  | binary hop _ _ ihl ihr =>
      rw [describe, hop]
      exact ihl.bind fun _ => ihr.bind fun _ => (avoids_ok _).bind fun _ => avoids_ok _

end Expr

end SqlStore
