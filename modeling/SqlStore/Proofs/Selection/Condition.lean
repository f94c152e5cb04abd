import SqlStore.Proofs.Expr.Boolean
import SqlStore.Proofs.Expr.Description
import SqlStore.Proofs.Selection.Meaning
import SqlStore.Proofs.Storage

/-!
# Conditions

Where no column has booleans, the rows that selections keep follow the operations in their conditions: they are
intersections, unions and complements (`Table.conditionLaws`). Under a condition that is evaluated everywhere a
selection shows those of the rows that it shows without one (`Database.result_select_given`). No condition has to be a
boolean, though: an integer or a text keeps a row by its bytes (`Select.exists_readsCondition`).
-/

namespace SqlStore

open Reading

/-- The selection with a condition in place of its own. -/
def Select.given (query : Select) (condition : Expr) : Select := { query with condition := some condition }

namespace Table

section

variable (table : Table)

/-- The expression is evaluated on every row. -/
def Evaluates (e : Expr) : Prop := ∀ i < table.rows.length, ∃ v, (table.evaluate i e).result = .ok v

/-- The expression is evaluated on every row, to a boolean. -/
def EvaluatesToBool (e : Expr) : Prop :=
  ∀ i < table.rows.length, ∃ v, (table.evaluate i e).result = .ok v ∧ v.column.type = .bool

/-- A condition, and one that says that it does not hold. -/
inductive Contrary : Expr → Expr → Prop
  | equalFalse {p : Expr} {op literal : Token} (hp : table.EvaluatesToBool p) (hop : op.lexeme = .symbol .equal)
      (hliteral : literal.lexeme = ⟨.bool, "false"⟩) : Contrary p (.binary p op (.literal literal))
  | notEqualTrue {p : Expr} {op literal : Token} (hp : table.EvaluatesToBool p) (hop : op.lexeme = .symbol .notEqual)
      (hliteral : literal.lexeme = ⟨.bool, "true"⟩) : Contrary p (.binary p op (.literal literal))
  | notEqual {x y : Expr} {op op' : Token} (hx : table.Evaluates x) (hy : table.Evaluates y)
      (hop : op.lexeme = .symbol .equal) (hop' : op'.lexeme = .symbol .notEqual) :
      Contrary (.binary x op y) (.binary x op' y)

/-- What is kept under a condition put together from others follows from what is kept under those: the indexes kept
stand in the order of the rows, and are an intersection, a union, a complement, or where two conditions agree. -/
structure ConditionLaws (kept : Expr → List Nat) : Prop where
  ordered : ∀ c, (kept c).Sublist (List.range table.rows.length)
  and : ∀ p q t, table.EvaluatesToBool p → table.EvaluatesToBool q → t.lexeme = .keyword .and →
    table.EvaluatesToBool (.binary p t q) ∧ ∀ i, i ∈ kept (.binary p t q) ↔ i ∈ kept p ∧ i ∈ kept q
  or : ∀ p q t, table.EvaluatesToBool p → table.EvaluatesToBool q → t.lexeme = .keyword .or →
    table.EvaluatesToBool (.binary p t q) ∧ ∀ i, i ∈ kept (.binary p t q) ↔ i ∈ kept p ∨ i ∈ kept q
  equal : ∀ p q t, table.EvaluatesToBool p → table.EvaluatesToBool q → t.lexeme = .symbol .equal →
    table.EvaluatesToBool (.binary p t q) ∧
      ∀ i, i ∈ kept (.binary p t q) ↔ i < table.rows.length ∧ (i ∈ kept p ↔ i ∈ kept q)
  contrary : ∀ c c', table.Contrary c c' → table.EvaluatesToBool c ∧ table.EvaluatesToBool c' ∧
    ∀ i, i ∈ kept c' ↔ i < table.rows.length ∧ i ∉ kept c

/-- The expression has a true cell on the row of the index. -/
def isTrue (i : Nat) (e : Expr) : Bool :=
  match (table.evaluate i e).result with
  | .ok v => v.cell.toBool
  | .error _ => false

end

variable {table : Table} {p q : Expr} {t : Token} {i : Nat}

/-! ## Operations on a row -/

theorem isTrue_of_evaluate {v : Evaluated} (h : (table.evaluate i p).result = .ok v) :
    table.isTrue i p = v.cell.toBool := by
  rw [isTrue, h]

theorem mem_kept_iff {query : Select} (hcondition : query.condition = some p) :
    i ∈ query.kept table ↔ i < table.rows.length ∧ table.isTrue i p = true := by
  rw [Select.kept, List.mem_filter, List.mem_range, Select.keepsRow, hcondition]
  rfl

theorem mem_kept_given_iff {query : Select} :
    i ∈ (query.given p).kept table ↔ i < table.rows.length ∧ table.isTrue i p = true :=
  mem_kept_iff rfl

theorem evaluate_operation {op : Operator} {v w : Evaluated} (hop : t.lexeme = op.lexeme)
    (hp : (table.evaluate i p).result = .ok v) (hq : (table.evaluate i q).result = .ok w)
    (hcheck : op.check v.column.type w.column.type = .ok ()) :
    (table.evaluate i (.binary p t q)).result = .ok ⟨⟨anonymousColumn, op.resultType⟩, op.cell v w⟩ :=
  Expr.result_eval_binary_eq_ok_iff.2 ⟨v, w, op, hp, hq, hop, hcheck, rfl⟩

theorem evaluatesToBool_literal {b : Bool} (ht : t.lexeme = ⟨.bool, if b then "true" else "false"⟩) :
    table.EvaluatesToBool (.literal t) :=
  fun _ _ => ⟨_, Expr.result_eval_bool ht, rfl⟩

theorem isTrue_literal {b : Bool} (ht : t.lexeme = ⟨.bool, if b then "true" else "false"⟩) :
    table.isTrue i (.literal t) = b :=
  (isTrue_of_evaluate (Expr.result_eval_bool ht)).trans (Cell.toBool_ofBool b)

section

variable (op : Operator) (ht : t.lexeme = op.lexeme)

include ht

theorem evaluatesToBool_operation (hop : op.resultType = .bool) (hp : table.EvaluatesToBool p)
    (hq : table.EvaluatesToBool q) : table.EvaluatesToBool (.binary p t q) := by
  intro i hi
  obtain ⟨v, hv, hvtype⟩ := hp i hi
  obtain ⟨w, hw, hwtype⟩ := hq i hi
  have hcheck : op.check v.column.type w.column.type = .ok () := by rw [hvtype, hwtype, Operator.check_bool hop]
  exact ⟨_, evaluate_operation ht hv hw hcheck, hop⟩

/-- On booleans an operation is true as its operator says of the truth of its operands. -/
theorem isTrue_operation (hcolumns : ∀ type ∈ table.columns.types, type ≠ .bool) (hop : op.resultType = .bool)
    (hp : table.EvaluatesToBool p) (hq : table.EvaluatesToBool q) (hi : i < table.rows.length) :
    table.isTrue i (.binary p t q) = op.truth (table.isTrue i p) (table.isTrue i q) := by
  obtain ⟨v, hv, hvtype⟩ := hp i hi
  obtain ⟨w, hw, hwtype⟩ := hq i hi
  have hcheck : op.check v.column.type w.column.type = .ok () := by rw [hvtype, hwtype, Operator.check_bool hop]
  rw [isTrue_of_evaluate (evaluate_operation ht hv hw hcheck), isTrue_of_evaluate hv, isTrue_of_evaluate hw]
  exact Operator.toBool_cell hop (hvtype.trans hwtype.symm) (Expr.cell_eq_ofBool_of_type hcolumns hv hvtype)
    (Expr.cell_eq_ofBool_of_type hcolumns hw hwtype)

theorem evaluate_comparison (hany : op.operandType? = none) {v w : Evaluated}
    (hp : (table.evaluate i p).result = .ok v) (hq : (table.evaluate i q).result = .ok w) :
    (table.evaluate i (.binary p t q)).result = .ok ⟨⟨anonymousColumn, op.resultType⟩, op.cell v w⟩ :=
  evaluate_operation ht hp hq (by rw [Operator.check, hany])

theorem evaluatesToBool_comparison (hop : op.resultType = .bool) (hany : op.operandType? = none)
    (hp : table.Evaluates p) (hq : table.Evaluates q) : table.EvaluatesToBool (.binary p t q) := by
  intro i hi
  obtain ⟨v, hv⟩ := hp i hi
  obtain ⟨w, hw⟩ := hq i hi
  exact ⟨_, evaluate_comparison op ht hany hv hw, hop⟩

end

theorem EvaluatesToBool.evaluates (h : table.EvaluatesToBool p) : table.Evaluates p := fun i hi =>
  let ⟨v, hv, _⟩ := h i hi
  ⟨v, hv⟩

theorem isTrue_notEqual {t' : Token} (ht : t.lexeme = .symbol .equal) (ht' : t'.lexeme = .symbol .notEqual)
    (hp : table.Evaluates p) (hq : table.Evaluates q) (hi : i < table.rows.length) :
    table.isTrue i (.binary p t' q) = !table.isTrue i (.binary p t q) := by
  obtain ⟨v, hv⟩ := hp i hi
  obtain ⟨w, hw⟩ := hq i hi
  rw [isTrue_of_evaluate (evaluate_comparison .equal ht rfl hv hw),
    isTrue_of_evaluate (evaluate_comparison .notEqual ht' rfl hv hw)]
  simp only [Operator.cell, Cell.toBool_ofBool]

theorem Contrary.evaluatesToBool {c c' : Expr} (h : table.Contrary c c') :
    table.EvaluatesToBool c ∧ table.EvaluatesToBool c' := by
  cases h with
  | equalFalse hp hop hliteral =>
      exact ⟨hp, evaluatesToBool_operation .equal hop rfl hp (evaluatesToBool_literal (b := false) hliteral)⟩
  | notEqualTrue hp hop hliteral =>
      exact ⟨hp, evaluatesToBool_operation .notEqual hop rfl hp (evaluatesToBool_literal (b := true) hliteral)⟩
  | notEqual hx hy hop hop' =>
      exact ⟨evaluatesToBool_comparison .equal hop rfl rfl hx hy,
        evaluatesToBool_comparison .notEqual hop' rfl rfl hx hy⟩

theorem Contrary.isTrue_eq (hcolumns : ∀ type ∈ table.columns.types, type ≠ .bool) {c c' : Expr}
    (h : table.Contrary c c') (hi : i < table.rows.length) : table.isTrue i c' = !table.isTrue i c := by
  cases h with
  | equalFalse hp hop hliteral =>
      rw [isTrue_operation .equal hop hcolumns rfl hp (evaluatesToBool_literal (b := false) hliteral) hi,
        isTrue_literal (b := false) hliteral, Operator.truth, beq_false]
  | notEqualTrue hp hop hliteral =>
      rw [isTrue_operation .notEqual hop hcolumns rfl hp (evaluatesToBool_literal (b := true) hliteral) hi,
        isTrue_literal (b := true) hliteral, Operator.truth, Bool.bne_true]
  | notEqual hx hy hop hop' => exact isTrue_notEqual hop hop' hx hy hi

theorem mem_kept_operation {query : Select} (op : Operator) (ht : t.lexeme = op.lexeme)
    (hcolumns : ∀ type ∈ table.columns.types, type ≠ .bool) (hop : op.resultType = .bool) (hp : table.EvaluatesToBool p)
    (hq : table.EvaluatesToBool q) :
    i ∈ (query.given (.binary p t q)).kept table ↔
      i < table.rows.length ∧ op.truth (table.isTrue i p) (table.isTrue i q) = true := by
  rw [mem_kept_given_iff]
  exact and_congr_right fun hi => by rw [isTrue_operation op ht hcolumns hop hp hq hi]

theorem conditionLaws (hcolumns : ∀ type ∈ table.columns.types, type ≠ .bool) (query : Select) :
    table.ConditionLaws fun c => (query.given c).kept table where
  ordered c := List.filter_sublist
  and p q t hp hq ht := by
    refine ⟨evaluatesToBool_operation .and ht rfl hp hq, fun i => ?_⟩
    rw [mem_kept_operation .and ht hcolumns rfl hp hq, mem_kept_given_iff, mem_kept_given_iff,
      Operator.truth, Bool.and_eq_true, and_and_left]
  or p q t hp hq ht := by
    refine ⟨evaluatesToBool_operation .or ht rfl hp hq, fun i => ?_⟩
    rw [mem_kept_operation .or ht hcolumns rfl hp hq, mem_kept_given_iff, mem_kept_given_iff,
      Operator.truth, Bool.or_eq_true, and_or_left]
  equal p q t hp hq ht := by
    refine ⟨evaluatesToBool_operation .equal ht rfl hp hq, fun i => ?_⟩
    rw [mem_kept_operation .equal ht hcolumns rfl hp hq, mem_kept_given_iff, mem_kept_given_iff,
      Operator.truth, beq_iff_eq, Bool.eq_iff_iff]
    exact and_congr_right fun hi => by simp only [hi, true_and]
  contrary c c' h := by
    refine ⟨h.evaluatesToBool.1, h.evaluatesToBool.2, fun i => ?_⟩
    rw [mem_kept_given_iff, mem_kept_given_iff]
    exact and_congr_right fun hi => by rw [h.isTrue_eq hcolumns hi]; simp [hi]

theorem kept_append_perm (hcolumns : ∀ type ∈ table.columns.types, type ≠ .bool) {c c' : Expr} (h : table.Contrary c c')
    (query : Select) :
    ((query.given c).kept table ++ (query.given c').kept table).Perm (List.range table.rows.length) := by
  have hcontrary : (query.given c').kept table =
      (List.range table.rows.length).filter fun i => !(query.given c).keepsRow table i :=
    List.filter_congr fun i hi => h.isTrue_eq hcolumns (List.mem_range.1 hi)
  rw [hcontrary]
  exact List.filter_append_perm _ _

end Table

/-! ## Selections under a condition -/

theorem filterMap_getElem?_range {α : Type} {as : List α} {n : Nat} (h : as.length ≤ n) :
    (List.range n).filterMap (as[·]?) = as := by
  induction n generalizing as with
  | zero => exact (List.length_eq_zero_iff.1 (Nat.le_zero.1 h)).symm
  | succ n ih =>
      rw [List.range_succ_eq_map]
      cases as with
      | nil => simp
      | cons a as =>
          rw [List.filterMap_cons_some List.getElem?_cons_zero, List.filterMap_map]
          exact congrArg (a :: ·) (ih (Nat.le_of_succ_le_succ h))

namespace Select

variable {query : Select} {table : Table} {c : Expr} {results : Results}

theorem kept_of_condition_eq_none (h : query.condition = none) :
    query.kept table = List.range table.rows.length := by
  refine List.filter_eq_self.2 fun i _ => ?_
  rw [keepsRow, h]

/-- The whole selection shows every row. -/
theorem RowsAnswer.length_rows (h : query.RowsAnswer table none 0 (.ok results)) (hcondition : query.condition = none) :
    results.rows.length = table.rows.length := by
  cases h with
  | shown _ _ hrows => simpa [upTo, kept_of_condition_eq_none hcondition] using hrows.length_eq.symm

/-- With a condition that is evaluated everywhere, a selection shows the rows of the whole one that are kept. -/
theorem RowsAnswer.given (h : query.RowsAnswer table none 0 (.ok results)) (hcondition : query.condition = none)
    (hc : table.Evaluates c) :
    (query.given c).RowsAnswer table none 0
      (.ok ⟨results.columns, ((query.given c).kept table).filterMap (results.rows[·]?)⟩) := by
  have hkept : query.kept table = List.range table.rows.length := kept_of_condition_eq_none hcondition
  have hlength := h.length_rows hcondition
  cases h with
  | shown hnone hcolumns hrows =>
      refine .shown (fun i e hfails => ?_) hcolumns (forall₂_filterMap fun i hi => ?_)
      · cases hfails with
        | condition hi hcondition' h =>
            cases hcondition'
            obtain ⟨v, hv⟩ := hc i hi.1
            rw [hv] at h
            cases h
        | item hi _ h =>
            -- the whole selection would come to the row as well, and fail there
            refine hnone i e (.item ⟨hi.1, by simp⟩ ?_ h)
            rw [hkept]
            exact List.mem_range.2 hi.1
      · have hlt : i < table.rows.length := (Table.mem_kept_given_iff.1 hi).1
        rw [hkept, upTo, List.drop_zero] at hrows
        have hshow := (List.forall₂_iff_get.1 hrows).2 i (by simpa using hlt) (hlength ▸ hlt)
        rw [List.get_eq_getElem, List.getElem_range] at hshow
        exact ⟨_, List.getElem?_eq_getElem (hlength ▸ hlt), hshow⟩

end Select

/-- A selection that comes to the rows of its table, with its counts. -/
structure Database.Scans (db : Database) (query : Select) (table : Table) (limit : Option Nat) (offset : Nat) :
    Prop where
  source : db.source query.source = .ok table
  items : query.items ≠ []
  limit : CountClause.limit.Counts query.limit (.ok limit)
  offset : ∃ count, CountClause.offset.Counts query.offset (.ok count) ∧ offset = count.getD 0

namespace Database

variable {query : Select} {table : Table} {results : Results}

theorem exists_scans {db : Database} (h : (db.select query).result = .ok results) :
    query.items = [] ∧ results = .empty ∨
      ∃ table limit offset, db.Scans query table limit offset ∧ query.RowsAnswer table limit offset (.ok results) := by
  have hanswers := answers_result db query
  rw [h] at hanswers
  cases hanswers with
  | noItems _ hitems => exact .inl ⟨hitems, rfl⟩
  | rows hsource hitems hlimit hoffset h => exact .inr ⟨_, _, _, ⟨hsource, hitems, hlimit, _, hoffset, rfl⟩, h⟩

section

variable {db : Database} (h : (db.select query).result = .ok results)
  (hsource : db.source query.source = .ok table) (hcondition : query.condition = none) (hlimit : query.limit = none)
  (hoffset : query.offset = none)

include h hsource hlimit hoffset

theorem rowsAnswer_of_select :
    query.items = [] ∧ results = .empty ∨ query.items ≠ [] ∧ query.RowsAnswer table none 0 (.ok results) := by
  refine (exists_scans h).imp_right ?_
  rintro ⟨table', limit, offset, ⟨hsource', hitems, hl, count, ho, rfl⟩, h⟩
  rw [hsource] at hsource'
  cases hsource'
  rw [hlimit] at hl
  rw [hoffset] at ho
  cases hl
  cases ho
  exact ⟨hitems, h⟩

include hcondition

theorem result_select_given {c : Expr} (hc : table.Evaluates c) :
    (db.select (query.given c)).result =
      .ok ⟨results.columns, ((query.given c).kept table).filterMap (results.rows[·]?)⟩ := by
  refine result_of_answers ?_
  rcases rowsAnswer_of_select h hsource hlimit hoffset with ⟨hitems, rfl⟩ | ⟨hitems, h⟩
  -- without items there are no rows at all, whatever is kept
  · simp only [Results.empty, List.getElem?_nil, List.filterMap_none]
    exact .noItems hsource hitems
  · have hl : CountClause.limit.Counts (query.given c).limit (.ok none) := by
      rw [Select.given, hlimit]
      exact .absent
    have ho : CountClause.offset.Counts (query.given c).offset (.ok none) := by
      rw [Select.given, hoffset]
      exact .absent
    exact .rows hsource hitems hl ho (h.given hcondition hc)

theorem length_rows_le : results.rows.length ≤ table.rows.length := by
  rcases rowsAnswer_of_select h hsource hlimit hoffset with ⟨-, rfl⟩ | ⟨-, h⟩
  · exact Nat.zero_le _
  · exact Nat.le_of_eq (h.length_rows hcondition)

end

/-- On a table that source texts have made, what a selection keeps under a conjunction, a disjunction, a comparison or a
contrary of conditions is the intersection, the union, the agreement or the complement of what it keeps under those. A
selection without a condition and counts that succeeds does so under every condition that is evaluated on each row, and
shows those of its rows that are kept, in their order: under a condition and its contrary, each row once. -/
theorem select_under_conditions {sources : List String} {name : Token} {table : Table}
    (htable : (empty.runAll sources).table? name.text = some table) (query : Select) :
    table.ConditionLaws (fun c => (query.given c).kept table) ∧
    ∀ results, query.source = some name → query.condition = none → query.limit = none → query.offset = none →
      ((empty.runAll sources).select query).result = .ok results →
        let shown c := ((query.given c).kept table).filterMap (results.rows[·]?)
        (∀ c, table.Evaluates c → (shown c).Sublist results.rows ∧
          ((empty.runAll sources).select (query.given c)).result = .ok ⟨results.columns, shown c⟩) ∧
        ∀ c c', table.Contrary c c' → (shown c ++ shown c').Perm results.rows := by
  have hsource := source_of_table htable
  have hcolumns := type_ne_bool_of_source hsource
  have hlaws := Table.conditionLaws hcolumns query
  refine ⟨hlaws, fun results hname hcondition hlimit hoffset h => ?_⟩
  rw [← hname] at hsource
  have hrows := filterMap_getElem?_range (length_rows_le h hsource hcondition hlimit hoffset)
  refine ⟨fun c hc => ⟨?_, result_select_given h hsource hcondition hlimit hoffset hc⟩, fun c c' hcc' => ?_⟩
  · have hsub := (hlaws.ordered c).filterMap (results.rows[·]?)
    rwa [hrows] at hsub
  · have hperm := (Table.kept_append_perm hcolumns hcc' query).filterMap (results.rows[·]?)
    rwa [hrows, List.filterMap_append] at hperm

/-- An integer compared with 0, where one row holds 0 and another one no value. -/
theorem select_under_conditions_null :
    let sources := ["create table t (a int)", "insert into t values (0); insert into t values (null)"]
    let db := empty.runAll sources
    let table : Table := ⟨⟨["a"], [.int]⟩, [[.ofInt 0], [.empty]], none⟩
    let name : Token := .ofLexeme (.identifier "t")
    let a : Expr := .literal (.ofLexeme (.identifier "a"))
    let compared (s : Symbol) : Expr := .binary a (.ofLexeme (.symbol s)) (.literal (.ofLexeme ⟨.numeric, "0"⟩))
    let query : Select := ⟨[.expression a none], some name, none, none, none⟩
    db.table? name.text = some table ∧ table.Contrary (compared .equal) (compared .notEqual) ∧
      (∀ i, i ∈ (query.given (compared .notEqual)).kept table ↔
        i < table.rows.length ∧ i ∉ (query.given (compared .equal)).kept table) ∧
      (db.select (query.given (compared .equal))).result = .ok ⟨[⟨"a", .int⟩], [[.ofInt 0]]⟩ ∧
      (db.select (query.given (compared .notEqual))).result = .ok ⟨[⟨"a", .int⟩], [[.empty]]⟩ := by
  intro sources db table name a compared query
  have htable : db.table? name.text = some table := by decide +kernel
  have hwhole : (db.select query).result = .ok ⟨[⟨"a", .int⟩], [[.ofInt 0], [.empty]]⟩ := by
    rw [result_select_of_source (source_of_table htable)]
    rfl
  have hevaluates : table.Evaluates a ∧ table.Evaluates (.literal (.ofLexeme ⟨.numeric, "0"⟩)) := by
    constructor
    all_goals
      intro i hi
      match i, hi with
      | 0, _ | 1, _ => exact ⟨_, rfl⟩
  have hcontrary : table.Contrary (compared .equal) (compared .notEqual) :=
    .notEqual hevaluates.1 hevaluates.2 rfl rfl
  obtain ⟨hlaws, hshown⟩ := select_under_conditions htable query
  obtain ⟨hequal, hnotEqual, hcomplement⟩ := hlaws.contrary _ _ hcontrary
  obtain ⟨hgiven, -⟩ := hshown _ rfl rfl rfl rfl hwhole
  exact ⟨htable, hcontrary, hcomplement, (hgiven _ hequal.evaluates).2, (hgiven _ hnotEqual.evaluates).2⟩

end Database

/-! ## Types of conditions -/

/-- What a selection has read of its condition on a row: an evaluation that is a boolean or not by the form of the
condition. The row is kept if the cell has bytes, of whatever type; only what a boolean is put together from must be
booleans as well. -/
structure Select.ReadsCondition (query : Select) (table : Table) (condition : Expr) (i : Nat) (v : Evaluated) :
    Prop where
  evaluated : (table.evaluate i condition).result = .ok v
  described : table.describe condition = .ok v.column
  boolean : v.column.type = .bool ↔ condition.isBoolean = true
  kept : i ∈ query.kept table ↔ v.cell.bytes ≠ []
  truth : condition.isBoolean = true → v.cell = .ofBool (decide (i ∈ query.kept table))
  terms : ∀ p ∈ condition.terms, ∃ w, (table.evaluate i p).result = .ok w ∧ w.column.type = .bool

theorem Cell.toBool_eq_true_iff {c : Cell} : c.toBool = true ↔ c.bytes ≠ [] := by
  rw [toBool, Bool.not_eq_true', List.isEmpty_eq_false_iff]

namespace Select

variable {query : Select} {table : Table} {condition : Expr} {limit : Option Nat} {offset i : Nat}

theorem exists_readsCondition (hcolumns : ∀ type ∈ table.columns.types, type ≠ .bool)
    (hcondition : query.condition = some condition) (hi : query.Looks table limit offset i)
    (hnone : ∀ e, ¬ query.FailsAt table limit offset i e) : ∃ v, query.ReadsCondition table condition i v := by
  cases heval : (table.evaluate i condition).result with
  | error e => exact absurd (.condition hi hcondition heval) (hnone e)
  | ok v =>
      have hdescribe := Expr.describe_of_eval heval
      have hkept : i ∈ query.kept table ↔ v.cell.toBool = true := by
        rw [Table.mem_kept_iff hcondition, Table.isTrue_of_evaluate heval, and_iff_right hi.1]
      have htruth : condition.isBoolean = true → v.cell = .ofBool (decide (i ∈ query.kept table)) := by
        intro hboolean
        simp only [hkept, Bool.decide_eq_true]
        exact Expr.cell_eq_ofBool hboolean heval
      exact ⟨v, {
        evaluated := heval
        described := hdescribe
        boolean := Expr.type_eq_bool_iff hcolumns hdescribe
        kept := hkept.trans Cell.toBool_eq_true_iff
        truth := htruth
        terms := fun p hp => Expr.evaluates_of_mem_terms heval hp }⟩

end Select

namespace Database

variable {db : Database} {query : Select} {table : Table} {limit : Option Nat} {offset i : Nat}

/-- A selection that comes to a row which fails, and to none that does before it, fails as that row does. -/
theorem result_select_of_failsAt {e : StoreError} (hscans : db.Scans query table limit offset)
    (hfirst : ∀ j < i, ∀ e', ¬ query.FailsAt table limit offset j e') (h : query.FailsAt table limit offset i e) :
    (db.select query).result = .error e := by
  obtain ⟨hsource, hitems, hlimit, count, hoffset, rfl⟩ := hscans
  exact result_of_answers (.rows hsource hitems hlimit hoffset (.rowFails h hfirst))

/-- On a database that source texts have made, a selection that succeeds has evaluated its condition on every row it has
looked at, but it has not asked for a boolean: that is up to the form of the condition, and what keeps a row are the
bytes of the cell. Types are asked for by the operations in the condition: on the first row that fails, a conjunction
or a disjunction of anything but booleans is the error of the selection. -/
theorem select_reads_condition {sources : List String} {query : Select} {condition : Expr}
    (hcondition : query.condition = some condition) :
    let db := empty.runAll sources
    (∀ results, (db.select query).result = .ok results → query.items = [] ∧ results = .empty ∨
      ∃ table limit offset, db.Scans query table limit offset ∧
        (∀ i, query.Looks table limit offset i → ∃ v, query.ReadsCondition table condition i v) ∧
        List.Forall₂ (query.ShowsRow table) (Select.upTo limit ((query.kept table).drop offset)) results.rows) ∧
    ∀ table limit offset i, db.Scans query table limit offset → query.Looks table limit offset i →
      (∀ j < i, ∀ e, ¬ query.FailsAt table limit offset j e) →
      ∀ (p q : Expr) (t : Token) (op : Operator) (v w : Evaluated), condition = .binary p t q → t.lexeme = op.lexeme →
        op.operandType? = some .bool → (table.evaluate i p).result = .ok v → (table.evaluate i q).result = .ok w →
        ¬ (v.column.type = .bool ∧ w.column.type = .bool) →
        (db.select query).result = .error (.invalidOperands (.types op v.column.type w.column.type)) := by
  intro db
  refine ⟨fun results h => ?_, ?_⟩
  · refine (exists_scans h).imp_right ?_
    rintro ⟨table, limit, offset, hscans, h⟩
    cases h with
    | shown hnone _ hrows =>
        have hcolumns := type_ne_bool_of_source hscans.source
        exact ⟨table, limit, offset, hscans,
          fun i hi => Select.exists_readsCondition hcolumns hcondition hi (hnone i), hrows⟩
  · rintro table limit offset i hscans hi hfirst p q t op v w rfl hop htype hp hq hne
    have hfails := Expr.result_eval_of_operands (Expr.operator_of_lexeme hop) hp hq htype hne
    exact result_select_of_failsAt hscans hfirst (.condition hi hcondition hfails)

/-- An integer as a condition keeps the row of 0 and drops the row without value; a conjunction with it is refused. -/
theorem select_reads_condition_integer :
    let db := empty.runAll ["create table t (a int)", "insert into t values (0); insert into t values (null)"]
    let table : Table := ⟨⟨["a"], [.int]⟩, [[.ofInt 0], [.empty]], none⟩
    let name : Token := .ofLexeme (.identifier "t")
    let a : Expr := .literal (.ofLexeme (.identifier "a"))
    let integer : Select := ⟨[.expression a none], some name, some a, none, none⟩
    let conjunction : Select :=
      integer.given (.binary a (.ofLexeme (.keyword .and)) (.literal (.ofLexeme ⟨.bool, "true"⟩)))
    (db.select integer).result = .ok ⟨[⟨"a", .int⟩], [[.ofInt 0]]⟩ ∧
      (∃ v, integer.ReadsCondition table a 0 v) ∧ (∃ v, integer.ReadsCondition table a 1 v) ∧
      (db.select conjunction).result = .error (.invalidOperands (.types .and .int .bool)) := by
  intro db table name a integer conjunction
  have htable : db.table? name.text = some table := by decide +kernel
  have hsource : db.source integer.source = .ok table := source_of_table htable
  have hresult : (db.select integer).result = .ok ⟨[⟨"a", .int⟩], [[.ofInt 0]]⟩ := by
    rw [result_select_of_source hsource]
    rfl
  have hcondition : integer.condition = some a := rfl
  rcases (select_reads_condition hcondition).1 _ hresult with ⟨h, -⟩ | ⟨table', limit, offset, hscans, hreads, -⟩
  · cases h
  obtain ⟨hsource', -, hlimit, count, hoffset, rfl⟩ := hscans
  obtain rfl : table = table' := Except.ok.inj (hsource.symm.trans hsource')
  cases hlimit
  cases hoffset
  refine ⟨hresult, hreads 0 ⟨by decide, by simp⟩, hreads 1 ⟨by decide, by simp⟩, ?_⟩
  have hscans : db.Scans conjunction table none 0 := ⟨hsource, List.cons_ne_nil _ _, .absent, none, .absent, rfl⟩
  exact (select_reads_condition rfl).2 table none 0 0 hscans ⟨by decide, by simp⟩
    (fun j hj => absurd hj (Nat.not_lt_zero j)) a _ _ .and _ _ rfl rfl rfl rfl rfl (by decide)

/-- The integer 0 is a condition, and true. -/
theorem not_forall_condition_bool :
    ¬ ∀ sources source query condition results, Script.ofSource source = .ok [.select query] →
      query.condition = some condition → ((empty.runAll sources).select query).result = .ok results →
      ∀ table limit offset, (empty.runAll sources).Scans query table limit offset →
        ∀ i, query.Looks table limit offset i →
          ∃ v, (table.evaluate i condition).result = .ok v ∧ v.column.type = .bool := by
  intro h
  let token (l : Lexeme) (start stop : Nat) : Token := ⟨l, ⟨0, start⟩, ⟨0, stop⟩⟩
  let table : Table := ⟨⟨["a"], [.int]⟩, [[.ofInt 0]], none⟩
  let query : Select :=
    ⟨[.expression (.literal (token (.identifier "a") 7 8)) none], some (token (.identifier "t") 14 15),
      some (.literal (token (.identifier "a") 22 23)), none, none⟩
  let db := empty.runAll ["CREATE TABLE t (a INT)", "INSERT INTO t VALUES (0)"]
  have hquery : Script.ofSource "SELECT a FROM t WHERE a" = .ok [.select query] := by decide +kernel
  have htable : db.table? (token (.identifier "t") 14 15).text = some table := by decide +kernel
  have hscans : db.Scans query table none 0 :=
    ⟨source_of_table htable, List.cons_ne_nil _ _, .absent, none, .absent, rfl⟩
  have hresult : (db.select query).result = .ok ⟨[⟨"a", .int⟩], [[.ofInt 0]]⟩ := by
    rw [result_select_of_source hscans.source]
    rfl
  obtain ⟨v, hv, htype⟩ := h _ _ query _ _ hquery rfl hresult table none 0 hscans 0 ⟨Nat.one_pos, by simp⟩
  cases hv
  cases htype

end Database

end SqlStore
