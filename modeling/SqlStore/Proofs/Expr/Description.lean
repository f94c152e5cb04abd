import SqlStore.Proofs.Expr.Evaluation
import SqlStore.Table

/-!
# Descriptions

A description is what evaluation says of every row: the name and the type, without the cell (`describe_of_eval`).
Where an expression has one, evaluation can still fail, but only as `Lapse` says (`result_eval_eq_error_iff`).
-/

namespace SqlStore

open Reading

/-! ## Columns that are named -/

/-- The cell of a row under the first column of a name. -/
def Columns.cell? (columns : Columns) (name : String) (row : List Cell) : Option Cell :=
  (columns.place? name).bind (row[·]?)

/-- The cell under the first column of a name, on the row of an index. -/
def Table.cell? (table : Table) (i : Nat) (name : String) : Option Cell :=
  (table.rows[i]?).bind (table.columns.cell? name)

namespace Expr

/-- The names of columns in an expression. -/
def names : Expr → List String
  | .literal t => if t.kind = .identifier then [t.text] else []
  | .binary l _ r => l.names ++ r.names

/-! ## Failures -/

/-- What fails first when an expression is evaluated on a row, although it has a description: a numeral that does not
fit into 32 bits, a cell that the row does not have, or operands of types that the operator does not take. -/
inductive Lapse (columns : Columns) (row : List Cell) : Expr → StoreError → Prop
  | numeral {t : Token} (hkind : t.kind = .numeric) (h : Text.Numeral.int32? t.text.toList = none) :
      Lapse columns row (.literal t) (.invalidNumeral t.text)
  | noCell {t : Token} (hkind : t.kind = .identifier) (hnamed : (columns.place? t.text).isSome)
      (h : columns.cell? t.text row = none) : Lapse columns row (.literal t) .invalidCell
  | left {l r : Expr} {t : Token} {err : StoreError} (h : Lapse columns row l err) :
      Lapse columns row (.binary l t r) err
  | right {l r : Expr} {t : Token} {v : Evaluated} {err : StoreError} (hl : (eval columns row l).result = .ok v)
      (h : Lapse columns row r err) : Lapse columns row (.binary l t r) err
  | operands {l r : Expr} {t : Token} {v w : Evaluated} {op : Operator} {type : SqlType} (hop : operator t = .ok op)
      (hl : (eval columns row l).result = .ok v) (hr : (eval columns row r).result = .ok w)
      (htype : op.operandType? = some type) (h : ¬ (v.column.type = type ∧ w.column.type = type)) :
      Lapse columns row (.binary l t r) (.invalidOperands (.types op v.column.type w.column.type))

variable {columns : Columns} {row : List Cell} {e : Expr} {err : StoreError}

/-! ### Tokens -/

theorem evalToken_identifier {t : Token} (hkind : t.kind = .identifier) :
    evalToken columns row t =
      match columns.place? t.text with
      | none => .error (.noSuchColumn t.text)
      | some i =>
          match columns.cell? t.text row with
          | none => .error .invalidCell
          | some cell => (columns.typeAt i).map fun type => ⟨⟨t.text, type⟩, cell⟩ := by
  rw [evalToken, if_pos hkind, Columns.cell?]
  cases columns.place? t.text <;> rfl

theorem lapse_of_evalToken {t : Token} {c : Column} (hdescribe : describeToken columns t = .ok c)
    (hfails : evalToken columns row t = .error err) : Lapse columns row (.literal t) err := by
  have hdescribed : ∀ err', ¬ Undescribed columns t err' := by
    intro err' hundescribed
    rw [describeToken_eq_error_iff.2 hundescribed] at hdescribe
    cases hdescribe
  cases evalToken_eq_error_iff.1 hfails with
  | noColumn hkind h => exact absurd (.noColumn hkind h) (hdescribed _)
  | noCell hkind hi h => exact .noCell hkind (by simp [hi]) (by simp [Columns.cell?, hi, h])
  | noType hkind hi _ h => exact absurd (.noType hkind hi h) (hdescribed _)
  | noLiteral hkind h => exact absurd (.noLiteral hkind h) (hdescribed _)
  | noNumeral hkind h => exact .numeral hkind h

theorem evalToken_of_lapse {t : Token} (h : Lapse columns row (.literal t) err) :
    evalToken columns row t = .error err := by
  refine evalToken_eq_error_iff.2 ?_
  cases h with
  | numeral hkind hn => exact .noNumeral hkind hn
  | noCell hkind hnamed hcell =>
      obtain ⟨i, hi⟩ := Option.isSome_iff_exists.1 hnamed
      exact .noCell hkind hi (by simpa [Columns.cell?, hi] using hcell)

/-! ### Operations -/

theorem result_eval_of_operands {l r : Expr} {t : Token} {v w : Evaluated} {op : Operator} {type : SqlType}
    (hop : operator t = .ok op) (hl : (l.eval columns row).result = .ok v) (hr : (r.eval columns row).result = .ok w)
    (htype : op.operandType? = some type) (h : ¬ (v.column.type = type ∧ w.column.type = type)) :
    ((binary l t r).eval columns row).result = .error (.invalidOperands (.types op v.column.type w.column.type)) := by
  rw [result_eval_binary, hl, hr, hop]
  change (Operator.check _ _ _ >>= _) = _
  rw [Operator.check_eq_error_iff.2 ⟨type, htype, h, rfl⟩]
  rfl

/-- Where an expression has a description, what evaluation fails with is what fails first. -/
theorem result_eval_eq_error_iff {c : Column} (hdescribe : e.describe columns = .ok c) :
    (e.eval columns row).result = .error err ↔ Lapse columns row e err := by
  constructor
  · intro h
    induction e generalizing c err with
    | literal t => exact lapse_of_evalToken hdescribe h
    | binary l t r ihl ihr =>
        obtain ⟨cl, hl, hdescribe⟩ := exists_of_bind_eq_ok hdescribe
        obtain ⟨cr, hr, hdescribe⟩ := exists_of_bind_eq_ok hdescribe
        obtain ⟨op, hop, -⟩ := exists_of_bind_eq_ok hdescribe
        rw [result_eval_binary] at h
        obtain h | ⟨v, hv, h⟩ := exists_of_bind_eq_error h
        · exact .left (ihl hl h)
        obtain h | ⟨w, hw, h⟩ := exists_of_bind_eq_error h
        · exact .right hv (ihr hr h)
        -- the operator is one that both know, so only the types of its operands are left
        obtain h | ⟨op', hop', h⟩ := exists_of_bind_eq_error h
        · rw [hop] at h
          cases h
        obtain h | ⟨-, -, h⟩ := exists_of_bind_eq_error h
        · obtain ⟨type, htype, hne, rfl⟩ := Operator.check_eq_error_iff.1 h
          exact .operands hop' hv hw htype hne
        · cases h
  · intro h
    clear hdescribe
    induction h with
    | numeral hkind hn => exact evalToken_of_lapse (.numeral hkind hn)
    | noCell hkind hnamed hcell => exact evalToken_of_lapse (.noCell hkind hnamed hcell)
    | left _ ih =>
        rw [result_eval_binary, ih]
        rfl
    | right hl _ ih =>
        rw [result_eval_binary, hl, ih]
        rfl
    | operands hop hl hr htype hne => exact result_eval_of_operands hop hl hr htype hne

theorem Lapse.cause (h : Lapse columns row e err) :
    (∃ numeral, err = .invalidNumeral numeral) ∨ (∃ problem, err = .invalidOperands problem) ∨
      err = .invalidCell ∧ ∃ name ∈ e.names, (columns.place? name).isSome ∧
        columns.cell? name row = none := by
  induction h with
  | numeral _ _ => exact .inl ⟨_, rfl⟩
  | @noCell t hkind hnamed hcell => exact .inr (.inr ⟨rfl, t.text, by simp [names, hkind], hnamed, hcell⟩)
  | left _ ih =>
      refine ih.imp_right (Or.imp_right (And.imp_right ?_))
      exact fun ⟨name, hname, hmissing⟩ => ⟨name, List.mem_append_left _ hname, hmissing⟩
  | right _ _ ih =>
      refine ih.imp_right (Or.imp_right (And.imp_right ?_))
      exact fun ⟨name, hname, hmissing⟩ => ⟨name, List.mem_append_right _ hname, hmissing⟩
  | operands _ _ _ _ _ => exact .inr (.inl ⟨_, rfl⟩)

end Expr

namespace Table

theorem cell?_eq (table : Table) (i : Nat) (name : String) :
    table.cell? i name = table.columns.cell? name (table.rows[i]?.getD []) := by
  rw [cell?]
  cases table.rows[i]? with
  | some row => rfl
  | none => cases hfound : table.columns.place? name <;> simp [Columns.cell?, hfound]

/-- Evaluation on any row has the name and the type of the description, and an expression without a description is
evaluated on no row. Where there is a description, evaluation fails with what fails first on the row: a numeral, the
types of operands, or a cell that is not there, since the row or its cell under a column that is named is missing. -/
theorem describe_abstracts_evaluate (table : Table) (e : Expr) :
    (∀ i v, (table.evaluate i e).result = .ok v → table.describe e = .ok v.column) ∧
    (∀ err, table.describe e = .error err → ∀ i, ∃ err', (table.evaluate i e).result = .error err') ∧
    ∀ c, table.describe e = .ok c → ∀ i err,
      ((table.evaluate i e).result = .error err ↔ e.Lapse table.columns (table.rows[i]?.getD []) err) ∧
      ((table.evaluate i e).result = .error err →
        (∃ numeral, err = .invalidNumeral numeral) ∨ (∃ problem, err = .invalidOperands problem) ∨
          err = .invalidCell ∧ ∃ name ∈ e.names, (table.columnIndex? name).isSome ∧ table.cell? i name = none) := by
  refine ⟨fun i v h => Expr.describe_of_eval h, fun err h i => ?_, fun c h i err => ?_⟩
  · cases heval : (table.evaluate i e).result with
    | error err' => exact ⟨err', rfl⟩
    | ok v =>
        rw [describe, Expr.describe_of_eval heval] at h
        cases h
  · have hlapse : (table.evaluate i e).result = .error err ↔ _ := Expr.result_eval_eq_error_iff h
    refine ⟨hlapse, fun hfails => ?_⟩
    simpa only [cell?_eq, columnIndex?] using (hlapse.1 hfails).cause

/-- A row that ends before the column of the left operand: the text can be described, and not evaluated. -/
theorem describe_abstracts_evaluate_short_row :
    let table : Table := ⟨⟨["a", "b"], [.int, .text]⟩, [[.ofInt 7]], none⟩
    let text : Expr := .binary (.literal (.ofLexeme (.identifier "b"))) (.ofLexeme (.symbol .concat))
      (.literal (.ofLexeme ⟨.string, "x"⟩))
    table.describe text = .ok ⟨anonymousColumn, .text⟩ ∧ text.Lapse table.columns [.ofInt 7] .invalidCell ∧
      ∃ name ∈ text.names, (table.columnIndex? name).isSome ∧ table.cell? 0 name = none := by
  intro table text
  have hdescribe : table.describe text = .ok ⟨anonymousColumn, .text⟩ := rfl
  have hfails : (table.evaluate 0 text).result = .error .invalidCell := rfl
  obtain ⟨hlapse, hcause⟩ := (describe_abstracts_evaluate table text).2.2 _ hdescribe 0 .invalidCell
  refine ⟨hdescribe, hlapse.1 hfails, ?_⟩
  rcases hcause hfails with ⟨_, h⟩ | ⟨_, h⟩ | ⟨-, hmissing⟩
  · cases h
  · cases h
  · exact hmissing

end Table

end SqlStore
