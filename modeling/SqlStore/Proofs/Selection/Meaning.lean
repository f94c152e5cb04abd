import SqlStore.Proofs.Selection.Columns
import SqlStore.Proofs.Selection.Scan

/-!
# What a selection means

A selection said without its loop: which rows are kept, which of them are shown, and which failure comes first
(`result_select_eq_iff`).
-/

namespace SqlStore

open Reading

/-! ## Places in a range -/

section

variable {p : Nat → Bool} {n i : Nat}

theorem filter_range_succ (p : Nat → Bool) (n : Nat) :
    (List.range (n + 1)).filter p = (List.range n).filter p ++ if p n then [n] else [] := by
  rw [List.range_succ, List.filter_append, List.filter_singleton]
  cases p n <;> rfl

theorem mem_drop_last (p : Nat → Bool) (m : Nat) :
    i ∈ (if p n then [n] else []).drop m ↔ i = n ∧ p n = true ∧ m = 0 := by
  cases p n <;> cases m <;> simp

/-- A place is left when the first `k` are dropped if at least `k` stand before it. -/
theorem mem_drop_filter_range (k : Nat) :
    i ∈ ((List.range n).filter p).drop k ↔ i < n ∧ p i = true ∧ k ≤ ((List.range i).filter p).length := by
  induction n with
  | zero => simp
  | succ n ih =>
      rw [filter_range_succ, List.drop_append, List.mem_append, ih, mem_drop_last, Nat.lt_succ_iff_lt_or_eq,
        Nat.sub_eq_zero_iff_le]
      constructor
      · rintro (⟨hi, hrest⟩ | ⟨rfl, hrest⟩)
        · exact ⟨.inl hi, hrest⟩
        · exact ⟨.inr rfl, hrest⟩
      · rintro ⟨hi | rfl, hrest⟩
        · exact .inl ⟨hi, hrest⟩
        · exact .inr ⟨rfl, hrest⟩

theorem length_filter_drop_filter_range (k : Nat) (h : i ≤ n) :
    (((List.range n).filter p).drop k |>.filter (· < i)).length = ((List.range i).filter p).length - k := by
  induction h with
  | refl =>
      rw [List.filter_eq_self.2 fun j hj => by simpa using ((mem_drop_filter_range k).1 hj).1, List.length_drop]
  | @step n h ih =>
      -- the last place is not among those before `i`
      have hnone : ((if p n then [n] else []).drop (k - ((List.range n).filter p).length)).filter (· < i) = [] := by
        refine List.filter_eq_nil_iff.2 fun j hj => ?_
        rw [((mem_drop_last p _).1 hj).1, decide_eq_true_eq]
        exact Nat.not_lt.2 h
      rw [filter_range_succ, List.drop_append, List.filter_append, hnone, List.append_nil, ih]

end

/-! ## Counts -/

/-- What a clause for a row count asks for, or why it cannot be used. -/
inductive CountClause.Counts (clause : CountClause) : Option Expr → Except StoreError (Option Nat) → Prop
  | absent : Counts clause none (.ok none)
  | fails {e : Expr} {err : StoreError} (h : (Table.constant.evaluate 0 e).result = .error err) :
      Counts clause (some e) (.error err)
  | noCount {e : Expr} {v : Evaluated} (h : (Table.constant.evaluate 0 e).result = .ok v)
      (hv : v.column.type ≠ .int ∨ v.cell = .empty) :
      Counts clause (some e) (.error (.invalidOperands (.notInt clause v.column.type)))
  | negative {e : Expr} {v : Evaluated} (h : (Table.constant.evaluate 0 e).result = .ok v)
      (htype : v.column.type = .int) (hv : v.cell ≠ .empty) (hn : v.cell.toInt < 0) :
      Counts clause (some e) (.error (.invalidOperands (.negative clause)))
  | count {e : Expr} {v : Evaluated} {n : Nat} (h : (Table.constant.evaluate 0 e).result = .ok v)
      (htype : v.column.type = .int) (hv : v.cell ≠ .empty) (hn : v.cell.toInt.toInt = n) :
      Counts clause (some e) (.ok (some n))

namespace CountClause

variable {clause : CountClause} {e : Option Expr}

theorem result_count (clause : CountClause) (e : Expr) :
    (clause.count? (some e)).result = (do
      let v ← (Table.constant.evaluate 0 e).result
      if v.column.type ≠ .int ∨ v.cell = .empty then .error (.invalidOperands (.notInt clause v.column.type))
      else if v.cell.toInt < 0 then .error (.invalidOperands (.negative clause))
      else .ok (some v.cell.toInt.toInt.toNat)) := by
  have hempty : ∀ c : Cell, c.isEmpty = true ↔ c = .empty := by
    rintro ⟨_ | _⟩ <;> simp [Cell.isEmpty, Cell.empty]
  have hconstant : Table.constant.evaluate 0 e = e.eval .empty [] := rfl
  rw [hconstant, count?, Logged.result_map, count, Logged.result_bind]
  cases (e.eval .empty []).result with
  | error err => rfl
  | ok v =>
      simp only [bind, Except.bind, hempty]
      split
      · rfl
      · split <;> rfl

theorem counts_result (clause : CountClause) (e : Option Expr) : clause.Counts e (clause.count? e).result := by
  cases e with
  | none => exact .absent
  | some e =>
      rw [result_count]
      cases h : (Table.constant.evaluate 0 e).result with
      | error err => exact .fails h
      | ok v =>
          simp only [bind, Except.bind]
          split
          · exact .noCount h ‹_›
          rename_i hv
          rw [not_or, not_not] at hv
          split
          · exact .negative h hv.1 hv.2 ‹_›
          · rename_i hn
            refine .count h hv.1 hv.2 (Int.toNat_of_nonneg ?_).symm
            simpa [Int32.lt_iff_toInt_lt] using hn

theorem result_of_counts {x : Except StoreError (Option Nat)} (h : clause.Counts e x) :
    (clause.count? e).result = x := by
  cases h with
  | absent => rfl
  | fails h =>
      rw [result_count, h]
      rfl
  | noCount h hv =>
      rw [result_count, h]
      exact if_pos hv
  | negative h htype hv hn =>
      rw [result_count, h]
      simp [bind, Except.bind, htype, hv, hn]
  | count h htype hv hn =>
      rw [result_count, h]
      simp [bind, Except.bind, htype, hv, hn, Int32.lt_iff_toInt_lt]

end CountClause

/-! ## Rows -/

namespace Select

section

variable (query : Select) (table : Table)

/-- The condition has a true cell on the row of the index; without a condition every row is kept. -/
def keepsRow (i : Nat) : Bool :=
  match query.condition with
  | none => true
  | some e =>
      match (table.evaluate i e).result with
      | .ok v => v.cell.toBool
      | .error _ => false

/-- The indexes of the rows kept, in their order. -/
def kept : List Nat := (List.range table.rows.length).filter (query.keepsRow table)

/-- The row of the index is looked at: the rows shown before it do not complete the limit. -/
def Looks (limit : Option Nat) (offset i : Nat) : Prop :=
  i < table.rows.length ∧ ∀ n ∈ limit, (((query.kept table).drop offset).filter (· < i)).length < n

/-- Something fails on the row of the index: the condition, if the row is looked at, or one of the items, if it is also
kept and not skipped. -/
inductive FailsAt (limit : Option Nat) (offset i : Nat) : StoreError → Prop
  | condition {condition : Expr} {e : StoreError} (hi : query.Looks table limit offset i)
      (hcondition : query.condition = some condition) (h : (table.evaluate i condition).result = .error e) :
      FailsAt limit offset i e
  | item {e : StoreError} (hi : query.Looks table limit offset i) (hkept : i ∈ (query.kept table).drop offset)
      (h : FirstFails (fun p => (table.evaluate i p.expr).result) (query.projections table.columns) e) :
      FailsAt limit offset i e

/-- The cells of the items on the row of the index. -/
def ShowsRow (i : Nat) (cells : List Cell) : Prop :=
  List.Forall₂ (fun p cell => ∃ v, (table.evaluate i p.expr).result = .ok v ∧ v.cell = cell)
    (query.projections table.columns) cells

/-- What the rows answer: the cells of the rows kept, after those skipped and up to the limit, unless a row fails; or
the error of the first row that does. If no row is shown, an item can still fail to be described. -/
inductive RowsAnswer (limit : Option Nat) (offset : Nat) : Except StoreError Results → Prop
  | shown {results : Results} (hnone : ∀ i e, ¬ query.FailsAt table limit offset i e)
      (hcolumns : List.Forall₂ (fun p c => (table.describe p.expr).map p.rename = .ok c)
        (query.projections table.columns) results.columns)
      (hrows : List.Forall₂ (query.ShowsRow table) (upTo limit ((query.kept table).drop offset)) results.rows) :
      RowsAnswer limit offset (.ok results)
  | rowFails {i : Nat} {e : StoreError} (h : query.FailsAt table limit offset i e)
      (hfirst : ∀ j < i, ∀ e', ¬ query.FailsAt table limit offset j e') : RowsAnswer limit offset (.error e)
  | itemFails {e : StoreError} (hnone : ∀ i e, ¬ query.FailsAt table limit offset i e)
      (hempty : upTo limit ((query.kept table).drop offset) = [])
      (h : FirstFails (fun p => table.describe p.expr) (query.projections table.columns) e) :
      RowsAnswer limit offset (.error e)

end

/-! ## Places and rows -/

variable {query : Select} {table : Table} {row : List Cell} {limit : Option Nat} {offset i : Nat} {e : StoreError}

theorem evaluate_of_getElem? (hrow : table.rows[i]? = some row) (expr : Expr) :
    table.evaluate i expr = expr.eval table.columns row := by
  rw [Table.evaluate, hrow]
  rfl

theorem keepsRow_eq_holdsOn (hrow : table.rows[i]? = some row) :
    query.keepsRow table i = query.holdsOn table.columns row := by
  rw [keepsRow, holdsOn, keeps]
  cases query.condition with
  | none => rfl
  | some condition =>
      simp only [evaluate_of_getElem? hrow, Logged.result_bind]
      cases (condition.eval table.columns row).result <;> rfl

theorem result_keeps_eq_error_iff {columns : Columns} :
    (query.keeps columns row).result = .error e ↔
      ∃ condition, query.condition = some condition ∧ (condition.eval columns row).result = .error e := by
  rw [keeps]
  cases query.condition with
  | none => simp
  | some condition =>
      simp only [Logged.result_bind, Option.some.injEq, exists_eq_left']
      cases (condition.eval columns row).result <;> simp [bind, Except.bind]

/-- The rows kept among the first ones are those at the places kept. -/
theorem filter_take_eq_map (h : i ≤ table.rows.length) :
    (table.rows.take i).filter (query.holdsOn table.columns) =
      ((List.range i).filter (query.keepsRow table)).map fun j => table.rows[j]?.getD [] := by
  have htake : table.rows.take i = (List.range i).map fun j => table.rows[j]?.getD [] := by
    refine List.ext_getElem (by simp [h]) fun j hj _ => ?_
    have hlt : j < table.rows.length := by
      rw [List.length_take] at hj
      omega
    simp [hlt]
  rw [htake, List.filter_map]
  refine congrArg _ (List.filter_congr fun j hj => ?_)
  have hlt : j < table.rows.length := Nat.lt_of_lt_of_le (List.mem_range.1 hj) h
  rw [keepsRow_eq_holdsOn (List.getElem?_eq_getElem hlt)]
  simp [hlt]

theorem keptBefore_eq_length (h : i ≤ table.rows.length) :
    query.keptBefore table.columns table.rows i = ((List.range i).filter (query.keepsRow table)).length := by
  rw [keptBefore, List.countP_eq_length_filter, filter_take_eq_map h, List.length_map]

theorem filter_eq_map_kept :
    table.rows.filter (query.holdsOn table.columns) = (query.kept table).map fun j => table.rows[j]?.getD [] := by
  have hall := @filter_take_eq_map query table _ (Nat.le_refl table.rows.length)
  rwa [List.take_length] at hall

theorem looks_iff :
    query.Looks table limit offset i ↔
      i < table.rows.length ∧ query.Reaches table.columns limit offset table.rows i := by
  refine and_congr_right fun hi => ?_
  rw [Reaches, keptBefore_eq_length (Nat.le_of_lt hi), kept, length_filter_drop_filter_range offset (Nat.le_of_lt hi)]

theorem mem_drop_kept_iff (hrow : table.rows[i]? = some row) :
    i ∈ (query.kept table).drop offset ↔
      query.holdsOn table.columns row = true ∧ offset ≤ query.keptBefore table.columns table.rows i := by
  obtain ⟨hi, -⟩ := List.getElem?_eq_some_iff.1 hrow
  rw [kept, mem_drop_filter_range, keepsRow_eq_holdsOn hrow, keptBefore_eq_length (Nat.le_of_lt hi)]
  simp [hi]

/-! ## Failures and answers -/

theorem result_eval_projection (table : Table) (i : Nat) (p : Projection) :
    (p.eval table.columns (table.rows[i]?.getD [])).result =
      (table.evaluate i p.expr).result.map fun v => ⟨p.rename v.column, v.cell⟩ := by
  rw [Projection.eval, Logged.result_bind, Table.evaluate]
  cases (p.expr.eval table.columns (table.rows[i]?.getD [])).result <;> rfl

theorem result_project_eq_error_iff :
    (query.project table.columns (table.rows[i]?.getD [])).result = .error e ↔
      FirstFails (fun p => (table.evaluate i p.expr).result) (query.projections table.columns) e := by
  rw [project, Logged.result_mapM, mapM_eq_error_iff]
  simp only [result_eval_projection]
  exact firstFails_map

theorem showsRow_of_project {values : List Evaluated}
    (h : (query.project table.columns (table.rows[i]?.getD [])).result = .ok values) :
    query.ShowsRow table i (values.map Evaluated.cell) := by
  rw [project, Logged.result_mapM, mapM_eq_ok_iff] at h
  rw [ShowsRow, List.forall₂_map_right_iff]
  refine h.imp fun p v hv => ?_
  rw [result_eval_projection] at hv
  cases hw : (table.evaluate i p.expr).result with
  | error e =>
      rw [hw] at hv
      cases hv
  | ok w =>
      rw [hw] at hv
      cases hv
      exact ⟨w, rfl, rfl⟩

theorem failsAt_iff :
    query.FailsAt table limit offset i e ↔ query.RowFails table.columns limit offset table.rows i e := by
  constructor
  · rintro (⟨hi, hcondition, h⟩ | ⟨hi, hkept, h⟩)
    all_goals
      obtain ⟨hlt, hreached⟩ := looks_iff.1 hi
      have hrow := List.getElem?_eq_getElem hlt
    · rw [evaluate_of_getElem? hrow] at h
      exact .condition hrow hreached (result_keeps_eq_error_iff.2 ⟨_, hcondition, h⟩)
    · obtain ⟨hholds, hskip⟩ := (mem_drop_kept_iff hrow).1 hkept
      rw [← result_project_eq_error_iff, hrow] at h
      exact .items hrow hreached hholds hskip h
  · rintro (⟨hrow, hreached, h⟩ | ⟨hrow, hreached, hholds, hskip, h⟩)
    all_goals
      have hi : query.Looks table limit offset i := looks_iff.2 ⟨(List.getElem?_eq_some_iff.1 hrow).1, hreached⟩
    · obtain ⟨condition, hcondition, h⟩ := result_keeps_eq_error_iff.1 h
      rw [← evaluate_of_getElem? hrow] at h
      exact .condition hi hcondition h
    · refine .item hi ((mem_drop_kept_iff hrow).2 ⟨hholds, hskip⟩) (result_project_eq_error_iff.1 ?_)
      rwa [hrow]

theorem mapM_describe_eq_ok_iff {columns : List Column} :
    ((query.projections table.columns).mapM fun p => p.describe table.columns) = .ok columns ↔
      List.Forall₂ (fun p c => (table.describe p.expr).map p.rename = .ok c) (query.projections table.columns) columns :=
  mapM_eq_ok_iff

theorem mapM_describe_eq_error_iff :
    ((query.projections table.columns).mapM fun p => p.describe table.columns) = .error e ↔
      FirstFails (fun p => table.describe p.expr) (query.projections table.columns) e :=
  mapM_eq_error_iff.trans firstFails_map

theorem upTo_map {α β : Type} (limit : Option Nat) (f : α → β) (as : List α) :
    upTo limit (as.map f) = (upTo limit as).map f := by
  cases limit with
  | none => rfl
  | some n => exact List.map_take.symm

variable (query table limit offset) in
/-- What a selection makes of the rows of its table, once it has its counts. -/
def rowsResult : Except StoreError Results := do
  let shown ← (query.scan table.columns limit offset table.rows).result
  let columns ← query.resultColumns table.columns shown
  return ⟨columns, shown.map fun row => row.map Evaluated.cell⟩

theorem rowsAnswer_rowsResult :
    query.RowsAnswer table limit offset (query.rowsResult table limit offset) := by
  have hscanned := scanned_scan query table.columns limit offset table.rows
  rw [rowsResult]
  cases hscan : (query.scan table.columns limit offset table.rows).result with
  | error e =>
      rw [hscan] at hscanned
      cases hscanned with
      | failed h hfirst =>
          exact .rowFails (failsAt_iff.2 h) fun j hj e' hfail => hfirst j hj e' (failsAt_iff.1 hfail)
  | ok shown =>
      rw [hscan] at hscanned
      cases hscanned with
      | shown hnone hshown =>
          have hnone' := fun i e (hfail : query.FailsAt table limit offset i e) => hnone i e (failsAt_iff.1 hfail)
          rw [filter_eq_map_kept, ← List.map_drop, upTo_map, List.forall₂_map_left_iff] at hshown
          simp only [bind, Except.bind]
          -- the first row shown names the columns, so they can only fail if there is none
          cases hcolumns : query.resultColumns table.columns shown with
          | ok columns =>
              have hdescribe := describe_of_resultColumns (exists_row_of_scan hscan) hcolumns
              refine .shown hnone' (mapM_describe_eq_ok_iff.1 hdescribe) ?_
              exact List.forall₂_map_right_iff.2 (hshown.imp fun i values h => showsRow_of_project h)
          | error e =>
              cases shown with
              | cons values others => cases hcolumns
              | nil =>
                  exact .itemFails hnone' (List.forall₂_nil_right_iff.1 hshown) (mapM_describe_eq_error_iff.1 hcolumns)

theorem FailsAt.unique {e' : StoreError} (h : query.FailsAt table limit offset i e)
    (h' : query.FailsAt table limit offset i e') : e = e' :=
  (failsAt_iff.1 h).unique (failsAt_iff.1 h')

theorem ShowsRow.unique {cells cells' : List Cell} (h : query.ShowsRow table i cells)
    (h' : query.ShowsRow table i cells') : cells = cells' := by
  have hcell : Relator.RightUnique fun (p : Projection) cell =>
      ∃ v, (table.evaluate i p.expr).result = .ok v ∧ v.cell = cell := by
    rintro p _ _ ⟨v, hv, rfl⟩ ⟨v', hv', rfl⟩
    rw [hv] at hv'
    cases hv'
    rfl
  exact hcell.forall₂ h h'

/-- The rows have one answer. -/
theorem RowsAnswer.unique {x y : Except StoreError Results} (h : query.RowsAnswer table limit offset x)
    (h' : query.RowsAnswer table limit offset y) : x = y := by
  cases h with
  | @shown results hnone hcolumns hrows =>
      rw [← mapM_describe_eq_ok_iff] at hcolumns
      cases h' with
      | @shown results' hnone' hcolumns' hrows' =>
          rw [← mapM_describe_eq_ok_iff, hcolumns] at hcolumns'
          have hrow : Relator.RightUnique (query.ShowsRow table) := fun i _ _ => ShowsRow.unique
          obtain ⟨columns, rows⟩ := results
          obtain ⟨columns', rows'⟩ := results'
          rw [show columns = columns' from Except.ok.inj hcolumns', show rows = rows' from hrow.forall₂ hrows hrows']
      | rowFails h' _ => exact absurd h' (hnone _ _)
      | itemFails _ _ h' =>
          rw [← mapM_describe_eq_error_iff, hcolumns] at h'
          cases h'
  | @rowFails i e h hfirst =>
      cases h' with
      | shown hnone' _ _ => exact absurd h (hnone' _ _)
      | @rowFails j e' h' hfirst' =>
          rcases Nat.lt_trichotomy i j with hij | rfl | hji
          · exact absurd h (hfirst' i hij e)
          · rw [h.unique h']
          · exact absurd h' (hfirst j hji e')
      | itemFails hnone' _ _ => exact absurd h (hnone' _ _)
  | itemFails hnone _ h =>
      rw [← mapM_describe_eq_error_iff] at h
      cases h' with
      | shown _ hcolumns' _ =>
          rw [← mapM_describe_eq_ok_iff, h] at hcolumns'
          cases hcolumns'
      | rowFails h' _ => exact absurd h' (hnone _ _)
      | itemFails _ _ h' =>
          rw [← mapM_describe_eq_error_iff, h] at h'
          rw [Except.error.inj h']

theorem rowsResult_eq_iff {x : Except StoreError Results} :
    query.rowsResult table limit offset = x ↔ query.RowsAnswer table limit offset x :=
  ⟨fun h => h ▸ rowsAnswer_rowsResult, rowsAnswer_rowsResult.unique⟩

theorem result_run_of_items (hitems : query.items ≠ []) :
    (query.run table).result = (do
      let limit ← (CountClause.limit.count? query.limit).result
      let offset ← (CountClause.offset.count? query.offset).result
      query.rowsResult table limit (offset.getD 0)) := by
  rw [result_run, if_neg (by simpa using hitems)]
  rfl

end Select

/-- What a selection answers: a table that does not exist, no items, a count that cannot be used, or what the rows
answer, whichever comes first. -/
inductive Database.Answers (db : Database) (query : Select) : Except StoreError Results → Prop
  | noTable {name : Token} (hsource : query.source = some name) (h : db.table? name.text = none) :
      Answers db query (.error (.noSuchTable name.text))
  | noItems {table : Table} (hsource : db.source query.source = .ok table) (hitems : query.items = []) :
      Answers db query (.ok ⟨[], []⟩)
  | badLimit {table : Table} {e : StoreError} (hsource : db.source query.source = .ok table)
      (hitems : query.items ≠ []) (h : CountClause.limit.Counts query.limit (.error e)) : Answers db query (.error e)
  | badOffset {table : Table} {limit : Option Nat} {e : StoreError} (hsource : db.source query.source = .ok table)
      (hitems : query.items ≠ []) (hlimit : CountClause.limit.Counts query.limit (.ok limit))
      (h : CountClause.offset.Counts query.offset (.error e)) : Answers db query (.error e)
  | rows {table : Table} {limit offset : Option Nat} {x : Except StoreError Results}
      (hsource : db.source query.source = .ok table) (hitems : query.items ≠ [])
      (hlimit : CountClause.limit.Counts query.limit (.ok limit))
      (hoffset : CountClause.offset.Counts query.offset (.ok offset))
      (h : query.RowsAnswer table limit (offset.getD 0) x) : Answers db query x

namespace Database

variable {db : Database} {query : Select} {x : Except StoreError Results}

theorem source_eq_error_iff {source : Option Token} {e : StoreError} :
    db.source source = .error e ↔
      ∃ name, source = some name ∧ db.table? name.text = none ∧ e = .noSuchTable name.text := by
  cases source with
  | none => simp [Database.source]
  | some name =>
      rw [Database.source, table]
      cases hfound : db.table? name.text with
      | none =>
          simp only [Except.error.injEq, Option.some.injEq, exists_eq_left', hfound, true_and]
          exact eq_comm
      | some table => simp [hfound]

theorem answers_result (db : Database) (query : Select) : db.Answers query (db.select query).result := by
  cases hsource : db.source query.source with
  | error e =>
      obtain ⟨name, hname, hnone, rfl⟩ := source_eq_error_iff.1 hsource
      rw [result_select, hsource]
      exact .noTable hname hnone
  | ok table =>
      rw [result_select_of_source hsource]
      by_cases hitems : query.items = []
      · rw [Select.result_run, hitems]
        exact .noItems hsource hitems
      rw [Select.result_run_of_items hitems]
      have hlimit := CountClause.limit.counts_result query.limit
      cases hl : (CountClause.limit.count? query.limit).result with
      | error e => exact .badLimit hsource hitems (hl ▸ hlimit)
      | ok limit =>
          have hoffset := CountClause.offset.counts_result query.offset
          cases ho : (CountClause.offset.count? query.offset).result with
          | error e => exact .badOffset hsource hitems (hl ▸ hlimit) (ho ▸ hoffset)
          | ok offset => exact .rows hsource hitems (hl ▸ hlimit) (ho ▸ hoffset) Select.rowsAnswer_rowsResult

theorem result_of_answers (h : db.Answers query x) : (db.select query).result = x := by
  cases h with
  | noTable hsource h =>
      rw [result_select, source_eq_error_iff.2 ⟨_, hsource, h, rfl⟩]
      rfl
  | noItems hsource hitems =>
      rw [result_select_of_source hsource, Select.result_run, hitems]
      rfl
  | badLimit hsource hitems h =>
      rw [result_select_of_source hsource, Select.result_run_of_items hitems, CountClause.result_of_counts h]
      rfl
  | badOffset hsource hitems hlimit h =>
      rw [result_select_of_source hsource, Select.result_run_of_items hitems, CountClause.result_of_counts hlimit]
      simp only [bind, Except.bind, CountClause.result_of_counts h]
  | rows hsource hitems hlimit hoffset h =>
      rw [result_select_of_source hsource, Select.result_run_of_items hitems, CountClause.result_of_counts hlimit]
      simp only [bind, Except.bind, CountClause.result_of_counts hoffset]
      exact Select.rowsResult_eq_iff.2 h

/-- A selection answers what it means, and nothing else: its tables, counts, rows and errors are those of `Answers`. -/
theorem result_select_eq_iff : (db.select query).result = x ↔ db.Answers query x :=
  ⟨fun h => h ▸ answers_result db query, result_of_answers⟩

end Database

end SqlStore
