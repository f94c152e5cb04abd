import Mathlib.Algebra.Group.Nat.Defs
import SqlStore.Proofs.Execution
import SqlStore.Proofs.Script
import SqlStore.Proofs.Selection.Meaning
import SqlStore.Proofs.Text.Numeral

/-!
# Windows

LIMIT and OFFSET cut a window out of the rows that a selection has without them, and change nothing else
(`select_within`). A window looks at no row that the whole selection does not look at, so it cannot fail where the
whole selection succeeds.
-/

namespace SqlStore

open Reading

/-- The selection with the counts of a window. -/
def Select.within (query : Select) (window : Option Expr × Option Expr) : Select :=
  { query with limit := window.1, offset := window.2 }

/-- The rows after the first `offset`, and up to `limit` of them. -/
def Results.window (limit offset : Option Nat) (results : Results) : Results :=
  ⟨results.columns, Select.upTo limit (results.rows.drop (offset.getD 0))⟩

/-- The count is written as decimal digits and fits into 32 bits, or there is none. -/
inductive CountClause.Written : Option Nat → Option Expr → Prop
  | absent : Written none none
  | digits {t : Token} {n : Nat} (hkind : t.kind = .numeric) (h : Text.Numeral.natural? t.text.toList = some n)
      (hn : n < 2 ^ 31) : Written (some n) (some (.literal t))

theorem CountClause.Written.counts {n : Option Nat} {e : Option Expr} (h : Written n e) (clause : CountClause) :
    clause.Counts e (.ok n) := by
  cases h with
  | absent => exact .absent
  | @digits t n hkind h hn =>
      have hvalue : (Int32.ofNat n).toInt = n := Int32.toInt_ofNat_of_lt (by omega)
      have hcell : Cell.ofLexeme t.lexeme = .ok (.ofInt (.ofNat n)) := by
        rw [Cell.ofLexeme, show t.lexeme.kind = .numeric from hkind,
          show Text.Numeral.int32? t.lexeme.text.toList = some (.ofNat n) from
            Text.Numeral.int32?_of_natural? h hvalue]
      have heval : (Table.constant.evaluate 0 (.literal t)).result =
          .ok ⟨⟨anonymousColumn, .int⟩, .ofInt (.ofNat n)⟩ := by
        change Expr.evalToken .empty [] t = _
        rw [Expr.evalToken, hkind, hcell]
        rfl
      refine .count heval rfl ?_ (by rw [Cell.toInt_ofInt, hvalue])
      simp [Cell.ofInt, Cell.empty]

/-! ## Failures within a window -/

namespace Select

variable {query : Select} {table : Table} {limit offset : Option Nat} {i : Nat} {e : StoreError}

theorem FailsAt.of_within {window : Option Expr × Option Expr} {skip : Nat}
    (h : (query.within window).FailsAt table limit skip i e) : query.FailsAt table none 0 i e := by
  -- without a limit every row is looked at, and without an offset none that is kept is skipped
  have hall : query.Looks table none 0 i ↔ i < table.rows.length := by simp [Looks]
  cases h with
  | condition hi hcondition h => exact .condition (hall.2 hi.1) hcondition h
  | item hi hkept h => exact .item (hall.2 hi.1) (List.mem_of_mem_drop hkept) h

theorem upTo_forall₂ {α β : Type} {R : α → β → Prop} {as : List α} {bs : List β} (h : List.Forall₂ R as bs)
    (limit : Option Nat) : List.Forall₂ R (upTo limit as) (upTo limit bs) := by
  cases limit with
  | none => exact h
  | some n => exact List.forall₂_take n h

theorem RowsAnswer.within {window : Option Expr × Option Expr} {results : Results}
    (h : query.RowsAnswer table none 0 (.ok results)) (limit offset : Option Nat) :
    (query.within window).RowsAnswer table limit (offset.getD 0) (.ok (results.window limit offset)) := by
  cases h with
  | shown hnone hcolumns hrows =>
      exact .shown (fun i e hfails => hnone i e hfails.of_within) hcolumns
        (upTo_forall₂ (List.forall₂_drop _ hrows) limit)

end Select

theorem Database.Answers.within {db : Database} {query : Select} {results : Results} {limit offset : Option Nat}
    {window : Option Expr × Option Expr} (h : db.Answers query (.ok results)) (hnolimit : query.limit = none)
    (hnooffset : query.offset = none) (hlimit : CountClause.limit.Counts window.1 (.ok limit))
    (hoffset : CountClause.offset.Counts window.2 (.ok offset)) :
    db.Answers (query.within window) (.ok (results.window limit offset)) := by
  cases h with
  | noItems hsource hitems =>
      -- without items there are no rows to cut the window from
      have hempty : Results.window limit offset ⟨[], []⟩ = ⟨[], []⟩ := by
        cases limit <;> simp [Results.window, Select.upTo]
      rw [hempty]
      exact .noItems hsource hitems
  | rows hsource hitems hl ho h =>
      rw [hnolimit] at hl
      rw [hnooffset] at ho
      cases hl
      cases ho
      exact .rows hsource hitems hlimit hoffset (h.within limit offset)

/-! ## Windows in a text -/

/-- A window can follow any selection that has none. -/
theorem Statement.Rendering.within {query : Select} {window : Option Expr × Option Expr} {ts ws : List Token}
    (h : Statement.Rendering (.select query) ts) (hlimit : query.limit = none) (hoffset : query.offset = none)
    (hwindow : Statement.RendersWindow window ws) : Statement.Rendering (.select (query.within window)) (ts ++ ws) := by
  cases h with
  | select hword h =>
      cases h with
      | mk hitems hsource hcondition hnone =>
          cases hlimit
          cases hoffset
          cases hnone
          refine .select hword ?_
          simpa [Select.within] using Statement.RendersSelect.mk hitems hsource hcondition hwindow

/-! ## Pages -/

/-- Windows of one length, each after the ones before it, are the first entries of a list. -/
theorem flatMap_pages {α : Type} (as : List α) (n k : Nat) :
    ((List.range k).flatMap fun i => (as.drop (i * n)).take n) = as.take (k * n) := by
  induction k with
  | zero => simp
  | succ k ih => rw [List.range_succ, List.flatMap_append, ih, List.flatMap_singleton, Nat.succ_mul, List.take_add]

namespace Database

variable {db : Database} {query : Select} {results : Results}

theorem result_select_within {limit offset : Option Nat} {window : Option Expr × Option Expr}
    (h : (db.select query).result = .ok results) (hnolimit : query.limit = none) (hnooffset : query.offset = none)
    (hlimit : CountClause.Written limit window.1) (hoffset : CountClause.Written offset window.2) :
    (db.select (query.within window)).result = .ok (results.window limit offset) := by
  have hanswers : db.Answers query (.ok results) := h ▸ answers_result db query
  exact result_of_answers (hanswers.within hnolimit hnooffset (hlimit.counts _) (hoffset.counts _))

/-- If a selection without LIMIT and OFFSET succeeds, then it succeeds with them, in either order, and they change
nothing but the rows, of which they leave the window they ask for; so does every text of the selection with LIMIT and
OFFSET after it. Pages of one length, each after the ones before it, have together the rows of the whole. -/
theorem select_within (hnolimit : query.limit = none) (hnooffset : query.offset = none)
    (h : (db.select query).result = .ok results) :
    (∀ limit offset window, CountClause.Written limit window.1 → CountClause.Written offset window.2 →
      (db.select (query.within window)).result = .ok (results.window limit offset) ∧
      ∀ source ts ws ss, Statement.Rendering (.select query) ts → Statement.RendersWindow window ws →
        Script.Semicolons ss → Token.ofSource source = .ok (ts ++ ws ++ ss) →
        (db.run source).result = .ok [.selected (results.window limit offset)] ∧
          (db.query source).result = .ok (results.window limit offset)) ∧
    ∀ n k limit (offset : Nat → Option Expr), CountClause.Written (some n) limit →
      (∀ i < k, CountClause.Written (some (i * n)) (offset i)) → results.rows.length ≤ k * n →
      ∃ pages, ((List.range k).mapM fun i => (db.select (query.within (limit, offset i))).result) = .ok pages ∧
        (∀ page ∈ pages, page.columns = results.columns) ∧ pages.flatMap Results.rows = results.rows := by
  constructor
  · intro limit offset window hlimit hoffset
    have hwindow := result_select_within h hnolimit hnooffset hlimit hoffset
    refine ⟨hwindow, fun source ts ws ss hts hws hss hsource => ?_⟩
    have hscript := Script.Rendering.last (hts.within hnolimit hnooffset hws) hss
    exact answers_of_ofSource (Script.ofSource_eq_ok_iff.2 ⟨_, hsource, hscript⟩) hwindow
  · intro n k limit offset hlimit hoffset hk
    refine ⟨(List.range k).map fun i => results.window (some n) (some (i * n)), ?_, ?_, ?_⟩
    · rw [mapM_eq_ok_iff, List.forall₂_map_right_iff, List.forall₂_same]
      intro i hi
      exact result_select_within h hnolimit hnooffset hlimit (hoffset i (List.mem_range.1 hi))
    · simp [Results.window]
    · rw [List.flatMap_map]
      exact (flatMap_pages results.rows n k).trans (List.take_of_length_le hk)

/-- The second and third of the rows that the condition keeps, with the offset written first. -/
theorem select_within_offset_limit :
    let row (n : Int32) (s : String) : List Cell := [.ofInt n, .ofText s]
    let rows := [row 1 "x", row 2 "y", row 3 "x", row 4 "x", row 5 "x"]
    let db := empty.put "t" ⟨⟨["a", "b"], [.int, .text]⟩, rows, none⟩
    (db.run "select a from t where b = 'x' offset 1 limit 2;").result =
      .ok [.selected ⟨[⟨"a", .int⟩], [[.ofInt 3], [.ofInt 4]]⟩] := by
  intro row rows db
  let t (l : Lexeme) (start stop : Nat) : Token := ⟨l, ⟨0, start⟩, ⟨0, stop⟩⟩
  let a := t (.identifier "a") 7 8
  let source := t (.identifier "t") 14 15
  let b := t (.identifier "b") 22 23
  let equal := t (.symbol .equal) 24 25
  let x := t ⟨.string, "x"⟩ 26 29
  let one := t ⟨.numeric, "1"⟩ 37 38
  let two := t ⟨.numeric, "2"⟩ 45 46
  let query : Select :=
    ⟨[.expression (.literal a) none], some source, some (.binary (.literal b) equal (.literal x)), none, none⟩
  have hwhole : (db.select query).result = .ok ⟨[⟨"a", .int⟩], [[.ofInt 1], [.ofInt 3], [.ofInt 4], [.ofInt 5]]⟩ := by
    have htable : db.table? source.text = some ⟨⟨["a", "b"], [.int, .text]⟩, rows, none⟩ := by
      rw [table?_put]
      exact if_pos rfl
    rw [result_select_of_source (source_of_table htable)]
    decide +kernel
  have hitems : Entries Statement.RendersItem query.items (([a] ++ []) ++ []) :=
    .cons (.expression (.literal rfl) .none) .nil
  have hfrom : Clause .fromWord (OfKind .identifier) query.source (t (.keyword .fromWord) 9 13 :: [source]) :=
    .some rfl ⟨rfl, rfl⟩
  have hequal : equal.lexeme = Operator.equal.lexeme := rfl
  have hcondition : Clause .whereWord (Expr.Rendering 0) query.condition
      (t (.keyword .whereWord) 16 21 :: ([b] ++ equal :: [x])) :=
    .some rfl (.binary hequal (by decide) (.literal rfl) (.literal rfl))
  have hword : (t (.keyword .select) 0 6).lexeme = .keyword .select := rfl
  have hlimit : Clause .limit (Expr.Rendering 0) (some (.literal two)) (t (.keyword .limit) 39 44 :: [two]) :=
    .some rfl (.literal rfl)
  have hoffset : (t (.keyword .offset) 30 36).lexeme = .keyword .offset := rfl
  have hwindow := Statement.RendersWindow.offset hoffset (.literal (t := one) rfl) hlimit
  have hsemicolon : Script.Semicolons [t (.symbol .semicolon) 46 47] := List.forall_mem_singleton.2 rfl
  have htwo : CountClause.Written (some 2) (some (.literal two)) := .digits rfl (by decide) (by decide)
  have hone : CountClause.Written (some 1) (some (.literal one)) := .digits rfl (by decide) (by decide)
  obtain ⟨-, hwritten⟩ := (select_within rfl rfl hwhole).1 _ _ (some (.literal two), some (.literal one)) htwo hone
  have hquery := Statement.Rendering.select hword (.mk hitems hfrom hcondition .none)
  exact (hwritten _ _ _ _ hquery hwindow hsemicolon (by decide +kernel)).1

end Database

end SqlStore
