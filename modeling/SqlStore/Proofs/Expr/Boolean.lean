import SqlStore.Proofs.Expr.Evaluation
import SqlStore.Proofs.Expr.WellFormed

/-!
# Boolean expressions

Where no column has booleans, an expression is a boolean exactly if it is the literal of one or its last operation gives
one (`type_eq_bool_iff`). A boolean has one of two cells, that of `true` or that of `false`, so its bytes say no more
than its truth (`cell_eq_ofBool`).
-/

namespace SqlStore

open Reading

/-! ## Operations -/

namespace Operator

variable {v w : Evaluated}

theorem cell_eq_ofBool {op : Operator} (h : op.resultType = .bool) (v w : Evaluated) :
    op.cell v w = .ofBool (op.cell v w).toBool := by
  cases op with
  | and | or | equal | notEqual => simp only [cell, Cell.toBool_ofBool]
  | concat | plus => cases h

/-- What an operator makes of two truth values; those that make no boolean have no say. -/
def truth : Operator → Bool → Bool → Bool
  | .and, a, b => a && b
  | .or, a, b => a || b
  | .equal, a, b => a == b
  | .notEqual, a, b => a != b
  | .concat, _, _ | .plus, _, _ => false

theorem check_bool {op : Operator} (h : op.resultType = .bool) : op.check .bool .bool = .ok () := by
  cases op with
  | and | or | equal | notEqual => rfl
  | concat | plus => cases h

/-- Each truth has one cell, so that equal bytes are equal truth. -/
theorem same_eq_beq (htype : v.column.type = w.column.type) (hv : v.cell = .ofBool v.cell.toBool)
    (hw : w.cell = .ofBool w.cell.toBool) : same v w = (v.cell.toBool == w.cell.toBool) := by
  rw [same, Bool.beq_eq_decide_eq, decide_eq_decide]
  refine ⟨fun h => congrArg Cell.toBool h.2, fun h => ⟨htype, ?_⟩⟩
  rw [hv, hw, h]

theorem toBool_cell {op : Operator} (h : op.resultType = .bool) (htype : v.column.type = w.column.type)
    (hv : v.cell = .ofBool v.cell.toBool) (hw : w.cell = .ofBool w.cell.toBool) :
    (op.cell v w).toBool = op.truth v.cell.toBool w.cell.toBool := by
  cases op with
  | and | or => exact Cell.toBool_ofBool _
  | equal => rw [cell, Cell.toBool_ofBool, same_eq_beq htype hv hw, truth]
  | notEqual => rw [cell, Cell.toBool_ofBool, same_eq_beq htype hv hw, truth, bne]
  | concat | plus => cases h

end Operator

/-! ## Expressions -/

namespace Expr

variable {columns : Columns} {row : List Cell} {e l r p : Expr} {t : Token} {v w : Evaluated}

/-- The expression is the literal of a boolean, or an operation that gives booleans. -/
def isBoolean : Expr → Bool
  | .literal t => t.kind = .bool
  | .binary _ t _ => (Operator.ofLexeme? t.lexeme).any (·.resultType = .bool)

/-- The operands of the conjunctions and disjunctions that an expression is put together from. -/
def terms : Expr → List Expr
  | .literal _ => []
  | .binary l t r =>
      if (Operator.ofLexeme? t.lexeme).any (·.operandType? = some .bool) then l :: r :: (l.terms ++ r.terms) else []

theorem result_eval_bool {b : Bool} (hbool : t.lexeme = ⟨.bool, if b then "true" else "false"⟩) :
    ((literal t).eval columns row).result = .ok ⟨⟨anonymousColumn, .bool⟩, .ofBool b⟩ := by
  rw [result_eval_literal, evalToken, Token.kind, Token.text, hbool]
  cases b <;> rfl

theorem type_eq_bool_iff_of_describeToken {c : Column} (hcolumns : ∀ type ∈ columns.types, type ≠ .bool)
    (h : describeToken columns t = .ok c) : c.type = .bool ↔ t.kind = .bool := by
  rw [describeToken] at h
  cases hkind : t.kind with
  | identifier =>
      rw [if_pos hkind] at h
      cases hfound : columns.place? t.text with
      | none => simp [hfound] at h
      | some i =>
          simp only [hfound] at h
          obtain ⟨type, htype, rfl⟩ := exists_of_map_eq_ok h
          have hne := hcolumns type (List.mem_of_getElem? (Columns.typeAt_eq_ok_iff.1 htype))
          simpa using hne
  | keyword | symbol => simp [hkind, TokenKind.literalType?] at h
  | string | numeric | bool | null =>
      simp only [hkind, TokenKind.literalType?, reduceCtorEq, ↓reduceIte, Except.ok.injEq] at h
      simp [← h]

theorem type_eq_bool_iff {c : Column} (hcolumns : ∀ type ∈ columns.types, type ≠ .bool)
    (h : e.describe columns = .ok c) : c.type = .bool ↔ e.isBoolean = true := by
  cases e with
  | literal t => rw [type_eq_bool_iff_of_describeToken hcolumns h, isBoolean, decide_eq_true_iff]
  | binary l t r =>
      obtain ⟨-, -, h⟩ := exists_of_bind_eq_ok h
      obtain ⟨-, -, h⟩ := exists_of_bind_eq_ok h
      obtain ⟨op, hop, h⟩ := exists_of_bind_eq_ok h
      cases h
      have hop := Operator.ofLexeme?_eq_some_iff.2 (operator_eq_ok_iff.1 hop).symm
      simp [isBoolean, hop]

/-- A boolean has the cell of its truth. -/
theorem cell_eq_ofBool (hbool : e.isBoolean = true) (h : (e.eval columns row).result = .ok v) :
    v.cell = .ofBool v.cell.toBool := by
  cases e with
  | literal t =>
      have hkind : t.kind = .bool := of_decide_eq_true hbool
      rw [result_eval_literal, evalToken, hkind, Cell.ofLexeme, show t.lexeme.kind = .bool from hkind] at h
      cases h
      exact congrArg Cell.ofBool (Cell.toBool_ofBool _).symm
  | binary l t r =>
      obtain ⟨left, right, op, -, -, hop, -, rfl⟩ := result_eval_binary_eq_ok_iff.1 h
      refine Operator.cell_eq_ofBool ?_ left right
      simpa [isBoolean, Operator.ofLexeme?_eq_some_iff.2 hop.symm] using hbool

/-- Where no column has booleans, that goes for whatever is evaluated to a boolean. -/
theorem cell_eq_ofBool_of_type (hcolumns : ∀ type ∈ columns.types, type ≠ .bool)
    (h : (e.eval columns row).result = .ok v) (htype : v.column.type = .bool) : v.cell = .ofBool v.cell.toBool :=
  cell_eq_ofBool ((type_eq_bool_iff hcolumns (describe_of_eval h)).1 htype) h

/-- What is evaluated is put together from booleans. -/
theorem evaluates_of_mem_terms (h : (e.eval columns row).result = .ok v) (hp : p ∈ e.terms) :
    ∃ w, (p.eval columns row).result = .ok w ∧ w.column.type = .bool := by
  induction e generalizing v with
  | literal t => cases hp
  | binary l t r ihl ihr =>
      obtain ⟨left, right, op, hl, hr, hop, hcheck, -⟩ := result_eval_binary_eq_ok_iff.1 h
      rw [terms, Operator.ofLexeme?_eq_some_iff.2 hop.symm] at hp
      by_cases hbool : op.operandType? = some .bool
      · obtain ⟨hleft, hright⟩ := Operator.check_eq_ok_iff.1 hcheck .bool hbool
        simp only [Option.any_some, hbool, decide_true, ↓reduceIte, List.mem_cons, List.mem_append] at hp
        obtain rfl | rfl | hp | hp := hp
        · exact ⟨left, hl, hleft⟩
        · exact ⟨right, hr, hright⟩
        · exact ihl hl hp
        · exact ihr hr hp
      · simp [hbool] at hp

end Expr

end SqlStore
