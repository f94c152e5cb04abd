import SqlStore.Proofs.Expr.WellFormed
import SqlStore.Proofs.History
import SqlStore.Proofs.Script
import SqlStore.Proofs.Selection.Meaning

/-!
# Well-formed selections

Every expression of a selection that comes out of a source text is well formed. So no selection fails with an invalid
cell unless it looks at a row without a cell for each column, and only an insertion with an operation among its values
makes such a row (`select_ne_invalidCell`).
-/

namespace SqlStore

open Reading

/-! ## Expressions of a selection -/

def SelectItem.expr? : SelectItem → Option Expr
  | .allColumns => none
  | .expression e _ => some e

namespace Select

def exprs (query : Select) : List Expr :=
  query.items.filterMap SelectItem.expr? ++ query.condition.toList ++ query.limit.toList ++ query.offset.toList

def WellFormed (query : Select) : Prop := ∀ e ∈ query.exprs, e.WellFormed

end Select

/-! ## Selections of a source text -/

namespace Statement

theorem RendersItem.wellFormed {item : SelectItem} {ts : List Token} (h : RendersItem item ts) :
    ∀ e ∈ item.expr?, e.WellFormed := by
  cases h with
  | allColumns _ => nofun
  | expression he _ =>
      rintro _ ⟨⟩
      exact he.wellFormed

theorem RendersWindow.wellFormed {limit offset : Option Expr} {ts : List Token}
    (h : RendersWindow (limit, offset) ts) : ∀ e ∈ limit.toList ++ offset.toList, e.WellFormed := by
  have hclause : ∀ {k : Keyword} {a : Option Expr} {ts : List Token}, Clause k (Expr.Rendering 0) a ts →
      ∀ e ∈ a.toList, e.WellFormed := fun h => h.forall_mem fun _ _ he => he.wellFormed
  cases h with
  | none => simp
  | limit _ he hoffset => exact List.forall_mem_append.2 ⟨by simpa using he.wellFormed, hclause hoffset⟩
  | offset _ he hlimit => exact List.forall_mem_append.2 ⟨hclause hlimit, by simpa using he.wellFormed⟩

theorem RendersSelect.wellFormed {query : Select} {ts : List Token} (h : RendersSelect query ts) :
    query.WellFormed := by
  cases h with
  | mk hitems _ hcondition hwindow =>
      have hcondition := hcondition.forall_mem fun _ _ he => he.wellFormed
      have hitems := hitems.forall_mem fun _ _ hitem => hitem.wellFormed
      rw [Select.WellFormed, Select.exprs, List.append_assoc]
      refine List.forall_mem_append.2 ⟨List.forall_mem_append.2 ⟨fun e he => ?_, hcondition⟩, hwindow.wellFormed⟩
      obtain ⟨item, hitem, he⟩ := List.mem_filterMap.1 he
      exact hitems item hitem e he

end Statement

theorem Script.wellFormed_of_ofSource {source : String} {script : Script} {query : Select}
    (h : ofSource source = .ok script) (hquery : .select query ∈ script) : query.WellFormed := by
  obtain ⟨tokens, -, hscript⟩ := ofSource_eq_ok_iff.1 h
  obtain ⟨us, hstatement, -⟩ := hscript.exists_statement _ hquery
  cases hstatement with
  | select _ h => exact h.wellFormed

/-! ## Failures -/

namespace Select

variable {query : Select} {table : Table} {limit : Option Nat} {offset i : Nat}

theorem WellFormed.projections (h : query.WellFormed) (columns : Columns) :
    ∀ p ∈ query.projections columns, p.expr.WellFormed := by
  intro p hp
  obtain ⟨item, hitem, hp⟩ := List.mem_flatMap.1 hp
  cases item with
  | allColumns =>
      -- an asterisk stands for names, which are readable
      obtain ⟨c, -, rfl⟩ := List.mem_map.1 hp
      exact .literal (.inl rfl)
  | expression e shownAs =>
      obtain rfl := List.mem_singleton.1 hp
      refine h e ?_
      simp only [exprs, List.append_assoc]
      exact List.mem_append_left _ (List.mem_filterMap.2 ⟨_, hitem, rfl⟩)

theorem WellFormed.condition (h : query.WellFormed) {e : Expr} (he : query.condition = some e) : e.WellFormed :=
  h e (by simp [exprs, he])

/-- A row on which a well-formed selection meets an invalid cell has too few cells. -/
theorem WellFormed.short_of_failsAt (h : query.WellFormed) (hfails : query.FailsAt table limit offset i .invalidCell) :
    ∃ row, table.rows[i]? = some row ∧ row.length < table.columns.names.length := by
  have hshort : ∀ e : Expr, e.WellFormed → i < table.rows.length → (table.evaluate i e).result = .error .invalidCell →
      ∃ row, table.rows[i]? = some row ∧ row.length < table.columns.names.length := by
    intro e he hi hfails
    have hrow := List.getElem?_eq_getElem hi
    rw [evaluate_of_getElem? hrow] at hfails
    exact ⟨_, hrow, Nat.lt_of_not_le fun hfull => he.avoids_eval hfull hfails⟩
  cases hfails with
  | condition hi hcondition hfails => exact hshort _ (h.condition hcondition) hi.1 hfails
  | item hi _ hfails =>
      obtain ⟨before, p, after, hsplit, -, hfails⟩ := hfails
      exact hshort _ (h.projections table.columns p (by simp [hsplit])) hi.1 hfails

end Select

theorem CountClause.Counts.ne_invalidCell {clause : CountClause} {e : Option Expr} {err : StoreError}
    (h : clause.Counts e (.error err)) (hwell : ∀ e' ∈ e, e'.WellFormed) : err ≠ .invalidCell := by
  cases h with
  | fails h =>
      rintro rfl
      have hrow : Table.constant.columns.names.length ≤ (Table.constant.rows[0]?.getD []).length := Nat.le_refl _
      exact (hwell _ rfl).avoids_eval hrow h
  | noCount _ _ | negative _ _ _ _ => nofun

namespace Database

variable {db : Database} {query : Select}

theorem exists_failsAt_of_invalidCell (hwell : query.WellFormed)
    (h : (db.select query).result = .error .invalidCell) :
    ∃ table limit offset i, db.source query.source = .ok table ∧
      query.FailsAt table limit offset i .invalidCell := by
  have hcounts : ∀ {clause : CountClause} {e : Option Expr}, (∀ e' ∈ e.toList, e' ∈ query.exprs) →
      ¬ clause.Counts e (.error .invalidCell) := fun hsub hcounts =>
    hcounts.ne_invalidCell (fun e' he' => hwell e' (hsub e' (Option.mem_toList.2 he'))) rfl
  -- counts are evaluated without columns and a description without rows, so only the rows are left
  have hanswers := answers_result db query
  rw [h] at hanswers
  cases hanswers with
  | badLimit _ _ h => exact absurd h (hcounts (by simp +contextual [Select.exprs]))
  | badOffset _ _ _ h => exact absurd h (hcounts (by simp +contextual [Select.exprs]))
  | @rows table limit offset _ hsource _ _ _ h =>
      cases h with
      | @rowFails i _ h _ => exact ⟨table, limit, _, i, hsource, h⟩
      | itemFails _ _ h =>
          obtain ⟨before, p, after, hsplit, -, h⟩ := h
          have hp := hwell.projections table.columns p (by simp [hsplit])
          exact absurd h (hp.avoids_describe _)

theorem result_execute_select_eq_error_iff {e : StoreError} :
    (db.execute (.select query)).result = .error e ↔ (db.select query).result = .error e := by
  rw [result_execute_select, map_eq_error_iff]

theorem exists_short_of_invalidCell (hwell : query.WellFormed)
    (h : (db.execute (.select query)).result = .error .invalidCell) :
    ∃ name table limit offset i row, query.source = some name ∧ db.table? name.text = some table ∧
      query.FailsAt table limit offset i .invalidCell ∧ table.rows[i]? = some row ∧
      row.length < table.columns.names.length := by
  obtain ⟨table, limit, offset, i, hsource, hfails⟩ :=
    exists_failsAt_of_invalidCell hwell (result_execute_select_eq_error_iff.1 h)
  obtain ⟨row, hrow, hshort⟩ := hwell.short_of_failsAt hfails
  cases hname : query.source with
  | none =>
      rw [hname] at hsource
      cases hsource
      -- there is no column for which the row could lack a cell
      exact absurd hshort (Nat.not_lt_zero _)
  | some name =>
      rw [hname] at hsource
      exact ⟨name, table, limit, offset, i, row, rfl, table_eq_ok_iff.1 hsource, hfails, hrow, hshort⟩

/-- The selection meets an invalid cell on a row without a cell for each column, and the row comes from an insertion with
an operation among its values. -/
inductive FailsOnShortened (sources : List String) (query : Select) : Prop
  | mk {name : Token} {table : Table} {limit : Option Nat} {offset i : Nat} {row : List Cell}
      {definitions : List ColumnDefinition} {after : Script} {values : List Expr} {l r : Expr} {t : Token}
      (hsource : query.source = some name) (htable : (empty.runAll sources).table? name.text = some table)
      (hfails : query.FailsAt table limit offset i .invalidCell) (hrow : table.rows[i]? = some row)
      (hshort : row.length < table.columns.names.length)
      (hlast : LastCreation name.text (empty.history sources) definitions after)
      (hvalues : (insertions name.text after)[i]? = some values) (hinserted : Table.RowOf table.columns values row)
      (hoperation : .binary l t r ∈ values) : FailsOnShortened sources query

theorem failsOnShortened_of_invalidCell {sources : List String} (hwell : query.WellFormed)
    (h : ((empty.runAll sources).execute (.select query)).result = .error .invalidCell) :
    FailsOnShortened sources query := by
  obtain ⟨name, table, limit, offset, i, row, hsource, htable, hfails, hrow, hshort⟩ :=
    exists_short_of_invalidCell hwell h
  obtain ⟨definitions, after, hlast, -, hrows⟩ := exists_lastCreation htable
  obtain ⟨hi, rfl⟩ := List.getElem?_eq_some_iff.1 hrow
  have hi' : i < (insertions name.text after).length := hrows.length_eq ▸ hi
  have hinserted := hrows.get hi' hi
  obtain ⟨l, t, r, hoperation⟩ := hinserted.short_iff.1 hshort
  exact .mk hsource htable hfails hrow hshort hlast (List.getElem?_eq_getElem hi') hinserted hoperation

/-- Every operator of a selection that comes out of a source text is one that evaluation and description know, and every
literal has a type. So neither meets an invalid cell on a row with a cell for each column, and a selection on a table of
such rows, or without a table, never answers with one. After any source texts, a selection that does has come to a row
that an insertion left short, because an operation stood among its values. -/
theorem select_ne_invalidCell {source : String} {script : Script} (hsource : Script.ofSource source = .ok script)
    (hquery : .select query ∈ script) :
    (∀ e ∈ query.exprs, e.WellFormed ∧ ∀ columns, e.describe columns ≠ .error .invalidCell ∧
      ∀ row : List Cell, columns.names.length ≤ row.length → (e.eval columns row).result ≠ .error .invalidCell) ∧
    (∀ db : Database,
      (∀ name table, query.source = some name → db.table? name.text = some table →
        ∀ row ∈ table.rows, row.length = table.columns.names.length) →
      (db.execute (.select query)).result ≠ .error .invalidCell) ∧
    ∀ sources, ((empty.runAll sources).execute (.select query)).result = .error .invalidCell →
      FailsOnShortened sources query := by
  have hwell := Script.wellFormed_of_ofSource hsource hquery
  refine ⟨fun e he => ?_, fun db hfull hfails => ?_, fun sources hfails => failsOnShortened_of_invalidCell hwell hfails⟩
  · have he := hwell e he
    exact ⟨he, fun columns => ⟨he.avoids_describe columns, fun row hrow => he.avoids_eval hrow⟩⟩
  · obtain ⟨name, table, _, _, _, row, hname, htable, -, hrow, hshort⟩ := exists_short_of_invalidCell hwell hfails
    exact Nat.ne_of_lt hshort (hfull name table hname htable row (List.mem_of_getElem? hrow))

/-- A sum is left out when it is inserted: its column has no cell on the row, though it has one on full rows. -/
theorem select_ne_invalidCell_sum :
    let table : Token := ⟨.identifier "t", ⟨0, 14⟩, ⟨0, 15⟩⟩
    let query : Select := ⟨[.expression (.literal ⟨.identifier "b", ⟨0, 7⟩, ⟨0, 8⟩⟩) none], some table, none, none, none⟩
    (∀ row : List Cell, row.length = 2 →
      ((empty.put "t" ⟨⟨["a", "b"], [.int, .int]⟩, [row], none⟩).execute (.select query)).result ≠
        .error .invalidCell) ∧
      FailsOnShortened ["create table t (a int, b int)", "insert into t values (1, 1 + 1)"] query := by
  intro table query
  have hsource : Script.ofSource "select b from t" = .ok [.select query] := by decide +kernel
  obtain ⟨-, hfull, hfails⟩ := select_ne_invalidCell hsource List.mem_cons_self
  refine ⟨fun row hrow => hfull _ ?_, hfails _ (by decide +kernel)⟩
  rintro name found ⟨⟩ hfound
  rw [show table.text = "t" from rfl, table?_put, if_pos rfl] at hfound
  cases hfound
  simpa using hrow

end Database

end SqlStore
