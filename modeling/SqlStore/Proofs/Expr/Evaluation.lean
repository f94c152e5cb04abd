import SqlStore.Expr.Eval
import SqlStore.Proofs.Sequence

/-!
# Steps of evaluation

What can come of one step. A token by itself is without a cell for one of five reasons, and without a description for
one of three (`evalToken_eq_error_iff`, `describeToken_eq_error_iff`). An operation is evaluated if both operands are
and its operator takes them (`result_eval_binary_eq_ok_iff`). Name and type are then those of the description
(`describe_of_eval`).
-/

namespace SqlStore

open Reading

/-! ## Literals, types and operators -/

/-- Of the literals only numerals can fail to become a cell. -/
theorem Cell.ofLexeme_eq_error_iff {l : Lexeme} {e : StoreError} :
    ofLexeme l = .error e ↔
      l.kind = .numeric ∧ Text.Numeral.int32? l.text.toList = none ∧ e = .invalidNumeral l.text := by
  rw [ofLexeme]
  cases l.kind with
  | numeric => cases Text.Numeral.int32? l.text.toList <;> simp [eq_comm]
  | _ => simp

theorem Columns.typeAt_eq_error {columns : Columns} {i : Nat} {e : StoreError} (h : columns.typeAt i = .error e) :
    e = .outOfBounds i columns.types.length := by
  rw [typeAt] at h
  split at h
  · cases h
  · exact (Except.error.inj h).symm

namespace Operator

variable {op : Operator} {left right : SqlType}

theorem check_eq_ok_iff :
    op.check left right = .ok () ↔ ∀ type, op.operandType? = some type → left = type ∧ right = type := by
  rw [check]
  cases op.operandType? with
  | none => simp
  | some type => simp

theorem check_eq_error_iff {e : StoreError} :
    op.check left right = .error e ↔
      ∃ type, op.operandType? = some type ∧ ¬ (left = type ∧ right = type) ∧
        e = .invalidOperands (.types op left right) := by
  rw [check]
  cases op.operandType? with
  | none => simp
  | some type =>
      simp only [Option.some.injEq, exists_eq_left']
      by_cases h : left = type ∧ right = type
      · simp [h]
      · rw [if_neg h, Except.error.injEq]
        exact ⟨fun he => ⟨h, he.symm⟩, fun he => he.2.symm⟩

end Operator

namespace Expr

variable {columns : Columns} {row : List Cell} {t : Token} {e : StoreError}

theorem operator_of_lexeme {op : Operator} (h : t.lexeme = op.lexeme) : operator t = .ok op := by
  rw [operator, Operator.ofLexeme?_eq_some_iff.2 h.symm]

theorem operator_eq_ok_iff {op : Operator} : operator t = .ok op ↔ t.lexeme = op.lexeme := by
  refine ⟨fun h => ?_, operator_of_lexeme⟩
  rw [operator] at h
  cases hop : Operator.ofLexeme? t.lexeme with
  | none => simp [hop] at h
  | some op' =>
      simp only [hop, Except.ok.injEq] at h
      exact h ▸ (Operator.ofLexeme?_eq_some_iff.1 hop).symm

theorem operator_eq_error (h : operator t = .error e) : e = .invalidCell := by
  rw [operator] at h
  split at h
  · cases h
  · exact (Except.error.inj h).symm

/-! ## Tokens -/

/-- Why a token by itself has no name and type. -/
inductive Undescribed (columns : Columns) (t : Token) : StoreError → Prop
  | noColumn (hkind : t.kind = .identifier) (h : columns.place? t.text = none) :
      Undescribed columns t (.noSuchColumn t.text)
  | noType {i : Nat} {e : StoreError} (hkind : t.kind = .identifier) (hi : columns.place? t.text = some i)
      (h : columns.typeAt i = .error e) : Undescribed columns t e
  | noLiteral (hkind : t.kind ≠ .identifier) (h : t.kind.literalType? = none) : Undescribed columns t .invalidCell

/-- Why a token by itself has no cell on a row. -/
inductive Unevaluated (columns : Columns) (row : List Cell) (t : Token) : StoreError → Prop
  | noColumn (hkind : t.kind = .identifier) (h : columns.place? t.text = none) :
      Unevaluated columns row t (.noSuchColumn t.text)
  | noCell {i : Nat} (hkind : t.kind = .identifier) (hi : columns.place? t.text = some i) (h : row[i]? = none) :
      Unevaluated columns row t .invalidCell
  | noType {i : Nat} {cell : Cell} {e : StoreError} (hkind : t.kind = .identifier)
      (hi : columns.place? t.text = some i) (hcell : row[i]? = some cell) (h : columns.typeAt i = .error e) :
      Unevaluated columns row t e
  | noLiteral (hkind : t.kind ≠ .identifier) (h : t.kind.literalType? = none) : Unevaluated columns row t .invalidCell
  | noNumeral (hkind : t.kind = .numeric) (h : Text.Numeral.int32? t.text.toList = none) :
      Unevaluated columns row t (.invalidNumeral t.text)

theorem describeToken_eq_error_iff : describeToken columns t = .error e ↔ Undescribed columns t e := by
  constructor
  · intro h
    unfold describeToken at h
    by_cases hkind : t.kind = .identifier
    · rw [if_pos hkind] at h
      cases hfound : columns.place? t.text with
      | none =>
          simp only [hfound, Except.error.injEq] at h
          exact h ▸ .noColumn hkind hfound
      | some i =>
          simp only [hfound] at h
          exact .noType hkind hfound (map_eq_error_iff.1 h)
    · rw [if_neg hkind] at h
      cases htype : t.kind.literalType? with
      | none =>
          simp only [htype, Except.error.injEq] at h
          exact h ▸ .noLiteral hkind htype
      | some type => simp [htype] at h
  · intro h
    unfold describeToken
    cases h with
    | noColumn hkind h => simp [hkind, h]
    | noType hkind hi h => simp [hkind, hi, h, Except.map]
    | noLiteral hkind h => simp [hkind, h]

theorem evalToken_eq_error_iff : evalToken columns row t = .error e ↔ Unevaluated columns row t e := by
  constructor
  · intro h
    unfold evalToken at h
    by_cases hkind : t.kind = .identifier
    · rw [if_pos hkind] at h
      cases hfound : columns.place? t.text with
      | none =>
          simp only [hfound, Except.error.injEq] at h
          exact h ▸ .noColumn hkind hfound
      | some i =>
          simp only [hfound] at h
          cases hcell : row[i]? with
          | none =>
              simp only [hcell, Except.error.injEq] at h
              exact h ▸ .noCell hkind hfound hcell
          | some cell =>
              simp only [hcell] at h
              exact .noType hkind hfound hcell (map_eq_error_iff.1 h)
    · rw [if_neg hkind] at h
      cases htype : t.kind.literalType? with
      | none =>
          simp only [htype, Except.error.injEq] at h
          exact h ▸ .noLiteral hkind htype
      | some type =>
          simp only [htype] at h
          obtain ⟨hnumeric, hnone, rfl⟩ := Cell.ofLexeme_eq_error_iff.1 (map_eq_error_iff.1 h)
          exact .noNumeral hnumeric hnone
  · intro h
    unfold evalToken
    cases h with
    | noColumn hkind h => simp [hkind, h]
    | noCell hkind hi h => simp [hkind, hi, h]
    | noType hkind hi hcell h => simp [hkind, hi, hcell, h, Except.map]
    | noLiteral hkind h => simp [hkind, h]
    | noNumeral hkind h =>
        have hcell : Cell.ofLexeme t.lexeme = .error (.invalidNumeral t.text) :=
          Cell.ofLexeme_eq_error_iff.2 ⟨hkind, h, rfl⟩
        simp [hkind, TokenKind.literalType?, hcell, Except.map]

theorem describeToken_of_evalToken {v : Evaluated} (h : evalToken columns row t = .ok v) :
    describeToken columns t = .ok v.column := by
  unfold evalToken at h
  unfold describeToken
  by_cases hkind : t.kind = .identifier
  · simp only [hkind, ↓reduceIte] at h ⊢
    cases hfound : columns.place? t.text with
    | none => simp [hfound] at h
    | some i =>
        simp only [hfound] at h ⊢
        cases hcell : row[i]? with
        | none => simp [hcell] at h
        | some cell =>
            simp only [hcell] at h
            obtain ⟨type, htype, rfl⟩ := exists_of_map_eq_ok h
            rw [htype]
            rfl
  · simp only [hkind, ↓reduceIte] at h ⊢
    cases htype : t.kind.literalType? with
    | none => simp [htype] at h
    | some type =>
        simp only [htype] at h
        obtain ⟨cell, -, rfl⟩ := exists_of_map_eq_ok h
        rfl

/-! ## Operations -/

/-- An operation is evaluated if both operands are and its operator takes them. -/
theorem result_eval_binary_eq_ok_iff {l r : Expr} {u : Evaluated} :
    ((binary l t r).eval columns row).result = .ok u ↔
      ∃ (v w : Evaluated) (op : Operator), (l.eval columns row).result = .ok v ∧
        (r.eval columns row).result = .ok w ∧ t.lexeme = op.lexeme ∧
        op.check v.column.type w.column.type = .ok () ∧ u = ⟨⟨anonymousColumn, op.resultType⟩, op.cell v w⟩ := by
  constructor
  · intro h
    rw [result_eval_binary] at h
    obtain ⟨v, hv, h⟩ := exists_of_bind_eq_ok h
    obtain ⟨w, hw, h⟩ := exists_of_bind_eq_ok h
    obtain ⟨op, hop, h⟩ := exists_of_bind_eq_ok h
    obtain ⟨⟨⟩, hcheck, h⟩ := exists_of_bind_eq_ok h
    cases h
    exact ⟨v, w, op, hv, hw, operator_eq_ok_iff.1 hop, hcheck, rfl⟩
  · rintro ⟨v, w, op, hv, hw, hop, hcheck, rfl⟩
    rw [result_eval_binary, hv, hw, operator_eq_ok_iff.2 hop]
    change (op.check _ _ >>= _) = _
    rw [hcheck]
    rfl

theorem describe_of_eval {e : Expr} {v : Evaluated} (h : (e.eval columns row).result = .ok v) :
    e.describe columns = .ok v.column := by
  induction e generalizing v with
  | literal t => exact describeToken_of_evalToken h
  | binary l t r ihl ihr =>
      obtain ⟨left, right, op, hleft, hright, hop, -, rfl⟩ := result_eval_binary_eq_ok_iff.1 h
      rw [describe, ihl hleft, ihr hright, operator_of_lexeme hop]
      rfl

end Expr

end SqlStore
