import SqlStore.Proofs.Reading.Viable
import SqlStore.Proofs.Statement.Parse

/-!
# Beginnings of statements

One `FailsLate` fact for each reader of the grammar: wherever it fails, an end can be found for what it has taken.
-/

namespace SqlStore

open Reading

/-! ## Expressions -/

namespace Expr

/-- A failure among fewer than `n` tokens comes after the beginning of a chain, be it the whole expression or what
follows a left operand. -/
def FailsLateBelow (n : Nat) : Prop :=
  ∀ {ts : List Token} {stops : List Lexeme} {floor : Nat} {f : Failure}, ts.length < n → NoOperator stops →
    (parse stops floor ts = .error f → ∃ taken more, ts = taken ++ f.rest ∧ Chain (taken ++ more)) ∧
    ∀ {left : Expr} {ls : List Token}, Chain ls → extend stops floor left ts = .error f →
      ∃ taken more, ts = taken ++ f.rest ∧ Chain (ls ++ (taken ++ more))

/-- A name, with which any expression can be ended. -/
def anyOperand : Token := .ofLexeme (.identifier "a")

theorem chain_anyOperand : Chain [anyOperand] := .operand (.token rfl)

theorem parse_failsLate_succ {n : Nat} (ih : FailsLateBelow n) {ts : List Token} {stops : List Lexeme} {floor : Nat}
    {f : Failure} (hlen : ts.length < n + 1) (hstops : NoOperator stops) (h : parse stops floor ts = .error f) :
    ∃ taken more, ts = taken ++ f.rest ∧ Chain (taken ++ more) := by
  cases ts with
  | nil =>
      rw [parse_nil] at h
      cases h
      exact ⟨[], [anyOperand], rfl, chain_anyOperand⟩
  | cons t ts =>
      rw [List.length_cons] at hlen
      by_cases hparen : t.lexeme = .symbol .leftParen
      · have hchain : ∀ {us}, Chain us → Chain (t :: (us ++ [.ofLexeme (.symbol .rightParen)])) :=
          fun hus => .operand (.paren hparen hus rfl)
        rw [parse_paren hparen] at h
        obtain hinner | ⟨⟨inner, rest₁⟩, hinner, h₁⟩ := exists_of_bind_eq_error h
        · obtain ⟨taken, more, rfl, hmore⟩ := (ih (by omega) hstops.cons_rightParen).1 hinner
          refine ⟨t :: taken, more ++ [.ofLexeme (.symbol .rightParen)], rfl, ?_⟩
          simpa using hchain hmore
        obtain ⟨us, rfl, hus, -⟩ := parse_sound hstops.cons_rightParen hinner
        obtain rfl | ⟨close, rest₂, rfl, hclose, h₂⟩ := exists_of_expect_failure h₁
        · exact ⟨t :: us, [.ofLexeme (.symbol .rightParen)], rfl, hchain hus.chain⟩
        · rw [List.length_append, List.length_cons] at hlen
          obtain ⟨taken, more, rfl, hmore⟩ := (ih (by omega) hstops).2 (.operand (.paren hparen hus.chain hclose)) h₂
          exact ⟨t :: (us ++ close :: taken), more, by simp, by simpa using hmore⟩
      · cases hkind : t.kind.isOperand with
        | false =>
            rw [parse_other hparen hkind] at h
            cases h
            exact ⟨[], [anyOperand], rfl, chain_anyOperand⟩
        | true =>
            rw [parse_operand hkind] at h
            obtain ⟨taken, more, rfl, hmore⟩ := (ih (by omega) hstops).2 (.operand (.token hkind)) h
            exact ⟨t :: taken, more, rfl, hmore⟩

theorem extend_failsLate_succ {n : Nat} (ih : FailsLateBelow n) {ts : List Token} {stops : List Lexeme} {floor : Nat}
    {f : Failure} {left : Expr} {ls : List Token} (hlen : ts.length < n + 1) (hstops : NoOperator stops)
    (hls : Chain ls) (h : extend stops floor left ts = .error f) :
    ∃ taken more, ts = taken ++ f.rest ∧ Chain (ls ++ (taken ++ more)) := by
  cases ts with
  | nil => simp at h
  | cons t ts =>
      by_cases hstop : t.lexeme ∈ stops
      · rw [extend_stop hstop] at h
        cases h
      cases hop : Operator.ofLexeme? t.lexeme with
      | none =>
          rw [extend_other hstop hop] at h
          cases h
          exact ⟨[], [], rfl, by simpa using hls⟩
      | some op =>
          have ht := (Operator.ofLexeme?_eq_some_iff.1 hop).symm
          by_cases hle : t.lexeme.bindingPower ≤ floor
          · rw [extend_loose hop hle] at h
            cases h
          rw [List.length_cons] at hlen
          rw [extend_tight hstop hop (by omega)] at h
          obtain hright | ⟨⟨right, rest⟩, hright, h₁⟩ := exists_of_bind_eq_error h
          · obtain ⟨taken, more, rfl, hmore⟩ := (ih (by omega) hstops).1 hright
            exact ⟨t :: taken, more, rfl, hls.append ht hmore⟩
          · obtain ⟨us, rfl, hus, -⟩ := parse_sound hstops hright
            rw [List.length_append] at hlen
            obtain ⟨taken, more, rfl, hmore⟩ := (ih (by omega) hstops).2 (hls.append ht hus.chain) h₁
            exact ⟨t :: (us ++ taken), more, by simp, by simpa using hmore⟩

theorem failsLateBelow (n : Nat) : FailsLateBelow n := by
  induction n with
  | zero => exact fun h => absurd h (Nat.not_lt_zero _)
  | succ n ih =>
      exact fun hlen hstops =>
        ⟨parse_failsLate_succ ih hlen hstops, fun hls => extend_failsLate_succ ih hlen hstops hls⟩

theorem failsLate_parse {stops : List Lexeme} (hstops : NoOperator stops) :
    FailsLate (parse stops 0) (Rendering 0) where
  begins h := by
    obtain ⟨taken, more, hts, hmore⟩ := (failsLateBelow _ (Nat.lt_succ_self _) hstops).1 h
    obtain ⟨e, he⟩ := hmore.exists_rendering
    exact ⟨taken, hts, e, more, he⟩

end Expr

namespace Statement

/-! ## Selections -/

theorem failsLate_readItem : FailsLate readItem RendersItem where
  begins := by
    intro ts f h
    cases ts with
    | nil =>
        cases h
        exact ⟨[], rfl, .allColumns, [.ofLexeme (.symbol .asterisk)], .allColumns rfl⟩
    | cons t ts =>
        rw [readItem] at h
        split at h
        · cases h
        obtain ⟨taken, e, more, hts, he⟩ | ⟨us, rest₁, e, hts, he, h₁⟩ :=
          exists_of_bind_failure h (Expr.failsLate_parse (by decide)) (reads_expr (by decide))
        · refine ⟨taken, hts, .expression e none, more, ?_⟩
          simpa using RendersItem.expression he .none
        obtain ⟨taken, shownAs, more, rfl, hname⟩ | ⟨vs, rest₂, shownAs, -, -, h₂⟩ :=
          exists_of_bind_failure h₁ (failsLate_after failsLate_expectKind) reads_itemName
        · refine ⟨us ++ taken, by rw [hts, List.append_assoc], .expression e shownAs, more, ?_⟩
          simpa using RendersItem.expression he hname
        · cases h₂

theorem failsLate_readLimit : FailsLate readLimit (Clause .limit (Expr.Rendering 0)) :=
  failsLate_after (Expr.failsLate_parse (by decide))

theorem failsLate_readOffset : FailsLate readOffset (Clause .offset (Expr.Rendering 0)) :=
  failsLate_after (Expr.failsLate_parse (by decide))

theorem rendersWindow_of_limit {limit offset : Option Expr} {ts us : List Token}
    (h : Clause .limit (Expr.Rendering 0) limit ts) (h' : Clause .offset (Expr.Rendering 0) offset us) :
    RendersWindow (limit, offset) (ts ++ us) := by
  cases h with
  | some hword he => exact .limit hword he h'
  | none =>
      cases h' with
      | none => exact .none
      | some hword he => simpa using RendersWindow.offset hword he .none

theorem rendersWindow_of_offset {limit offset : Option Expr} {ts us : List Token}
    (h : Clause .offset (Expr.Rendering 0) offset ts) (h' : Clause .limit (Expr.Rendering 0) limit us) :
    RendersWindow (limit, offset) (ts ++ us) := by
  cases h with
  | some hword he => exact .offset hword he h'
  | none => simpa using rendersWindow_of_limit h' .none

theorem failsLate_readWindow : FailsLate readWindow RendersWindow where
  begins := by
    intro ts f h
    obtain ⟨taken, limit, more, rfl, hlimit⟩ | ⟨ls, rest₁, limit, rfl, hlimit, h₁⟩ :=
      exists_of_bind_failure h failsLate_readLimit reads_readLimit
    · exact ⟨taken, rfl, (limit, none), more, by simpa using rendersWindow_of_limit hlimit .none⟩
    cases limit with
    | some limit =>
        obtain ⟨taken, offset, more, rfl, hoffset⟩ | ⟨os, rest₂, offset, -, -, h₂⟩ :=
          exists_of_bind_failure h₁ failsLate_readOffset reads_readOffset
        · refine ⟨ls ++ taken, by simp, (some limit, offset), more, ?_⟩
          simpa using rendersWindow_of_limit hlimit hoffset
        · cases h₂
    | none =>
        cases hlimit
        obtain ⟨taken, offset, more, rfl, hoffset⟩ | ⟨os, rest₂, offset, rfl, hoffset, h₂⟩ :=
          exists_of_bind_failure h₁ failsLate_readOffset reads_readOffset
        · exact ⟨taken, rfl, (none, offset), more, by simpa using rendersWindow_of_offset hoffset .none⟩
        obtain ⟨taken, limit, more, rfl, hlimit⟩ | ⟨ls, rest₃, limit, -, -, h₃⟩ :=
          exists_of_bind_failure h₂ failsLate_readLimit reads_readLimit
        · refine ⟨os ++ taken, by simp, (limit, offset), more, ?_⟩
          simpa using rendersWindow_of_offset hoffset hlimit
        · cases h₃

theorem failsLate_readSelect : FailsLate readSelect RendersSelect where
  begins := by
    intro ts f h
    obtain ⟨taken, items, more, rfl, hitems⟩ | ⟨is, rest₁, items, rfl, hitems, h₁⟩ :=
      exists_of_bind_failure h (failsLate_separated consumes_readItem failsLate_readItem reads_readItem) reads_items
    · refine ⟨taken, rfl, ⟨items, none, none, none, none⟩, more, ?_⟩
      simpa using RendersSelect.mk hitems .none .none .none
    obtain ⟨taken, source, more, rfl, hsource⟩ | ⟨fs, rest₂, source, rfl, hsource, h₂⟩ :=
      exists_of_bind_failure h₁ (failsLate_after failsLate_expectKind) reads_source
    · refine ⟨is ++ taken, by simp, ⟨items, source, none, none, none⟩, more, ?_⟩
      simpa using RendersSelect.mk hitems hsource .none .none
    obtain ⟨taken, condition, more, rfl, hcondition⟩ | ⟨cs, rest₃, condition, rfl, hcondition, h₃⟩ :=
      exists_of_bind_failure h₂ (failsLate_after (Expr.failsLate_parse (by decide))) reads_condition
    · refine ⟨is ++ (fs ++ taken), by simp, ⟨items, source, condition, none, none⟩, more, ?_⟩
      simpa using RendersSelect.mk hitems hsource hcondition .none
    obtain ⟨taken, ⟨limit, offset⟩, more, rfl, hwindow⟩ | ⟨ws, rest₄, window, -, -, h₄⟩ :=
      exists_of_bind_failure h₃ failsLate_readWindow reads_readWindow
    · refine ⟨is ++ (fs ++ (cs ++ taken)), by simp, ⟨items, source, condition, limit, offset⟩, more, ?_⟩
      simpa using RendersSelect.mk hitems hsource hcondition hwindow
    · cases h₄

/-! ## Changes -/

theorem failsLate_readInsert : FailsLate readInsert RendersInsert where
  begins := by
    intro ts f h
    -- what may still have to come: a name, VALUES and a pair of parentheses
    let name : Token := .ofLexeme (.identifier "t")
    let values : Token := .ofLexeme (.keyword .values)
    let opening : Token := .ofLexeme (.symbol .leftParen)
    let closing : Token := .ofLexeme (.symbol .rightParen)
    obtain rfl | ⟨into, rest₁, rfl, hinto, h₁⟩ := exists_of_expect_failure h
    · exact ⟨[], rfl, _, [.ofLexeme (.keyword .into), name, values, opening, closing], .mk rfl rfl rfl rfl .nil rfl⟩
    obtain ⟨taken, table, more, rfl, hmore, htable⟩ | ⟨taken, rest₂, table, rfl, ⟨rfl, htable⟩, h₂⟩ :=
      exists_of_bind_failure h₁ failsLate_expectKind (@reads_expectKind _ _ [])
    · refine ⟨into :: taken, rfl, (table, []), more ++ [values, opening, closing], ?_⟩
      rw [List.cons_append, ← List.append_assoc, hmore]
      exact .mk hinto htable rfl rfl .nil rfl
    obtain rfl | ⟨word, rest₃, rfl, hword, h₃⟩ := exists_of_expect_failure h₂
    · exact ⟨[into, table], rfl, _, [values, opening, closing], .mk hinto htable rfl rfl .nil rfl⟩
    obtain rfl | ⟨opening', rest₄, rfl, hopening, h₄⟩ := exists_of_expect_failure h₃
    · exact ⟨[into, table, word], rfl, _, [opening, closing], .mk hinto htable hword rfl .nil rfl⟩
    obtain ⟨taken, row, more, rfl, hrow⟩ | ⟨vs, rest₅, row, rfl, hrow, h₅⟩ :=
      exists_of_bind_failure h₄ (failsLate_separated Expr.consumes_parse (Expr.failsLate_parse (by decide))
        (reads_expr (by decide))) reads_readValues
    · refine ⟨into :: table :: word :: opening' :: taken, rfl, (table, row), more ++ [closing], ?_⟩
      simpa using RendersInsert.mk hinto htable hword hopening hrow rfl
    obtain rfl | ⟨closing', rest₆, -, -, h₆⟩ := exists_of_expect_failure h₅
    · refine ⟨into :: table :: word :: opening' :: vs, rfl, (table, row), [closing], ?_⟩
      exact .mk hinto htable hword hopening hrow rfl
    · cases h₆

theorem failsLate_readColumn : FailsLate readColumn RendersColumn where
  begins := by
    intro ts f h
    let word : Token := .ofLexeme (.keyword .int)
    obtain ⟨taken, name, more, rfl, hmore, hname⟩ | ⟨taken, rest₁, name, rfl, ⟨rfl, hname⟩, h₁⟩ :=
      exists_of_bind_failure h failsLate_expectKind (@reads_expectKind _ _ [])
    · refine ⟨taken, rfl, ⟨name, word, false⟩, more ++ [word], ?_⟩
      rw [← List.append_assoc, hmore]
      exact .plain hname rfl
    obtain ⟨taken, type, more, rfl, hmore, htype⟩ | ⟨taken, rest₂, type, rfl, ⟨rfl, htype⟩, h₂⟩ :=
      exists_of_bind_failure h₁ failsLate_expectKind (@reads_expectKind _ _ [])
    · refine ⟨name :: taken, rfl, ⟨name, type, false⟩, more, ?_⟩
      rw [List.cons_append, hmore]
      exact .plain hname htype
    cases rest₂ with
    | nil => cases h₂
    | cons t rest₂ =>
        dsimp only at h₂
        split at h₂ <;> cases h₂

theorem failsLate_readCreate : FailsLate readCreate RendersCreate where
  begins := by
    intro ts f h
    let name : Token := .ofLexeme (.identifier "t")
    let closing : Token := .ofLexeme (.symbol .rightParen)
    obtain rfl | ⟨word, rest₁, rfl, hword, h₁⟩ := exists_of_expect_failure h
    · exact ⟨[], rfl, _, [.ofLexeme (.keyword .table), name], .bare rfl rfl⟩
    obtain ⟨taken, table, more, rfl, hmore, htable⟩ | ⟨taken, rest₂, table, rfl, ⟨rfl, htable⟩, h₂⟩ :=
      exists_of_bind_failure h₁ failsLate_expectKind (@reads_expectKind _ _ [])
    · refine ⟨word :: taken, rfl, (table, []), more, ?_⟩
      rw [List.cons_append, hmore]
      exact .bare hword htable
    cases rest₂ with
    | nil => cases h₂
    | cons t rest₂ =>
        dsimp only at h₂
        by_cases hopening : t.lexeme = .symbol .leftParen
        case neg =>
          rw [if_neg hopening] at h₂
          cases h₂
        rw [if_pos hopening] at h₂
        obtain ⟨taken, columns, more, rfl, hcolumns⟩ | ⟨cs, rest₃, columns, rfl, hcolumns, h₃⟩ :=
          exists_of_bind_failure h₂ (failsLate_separated consumes_readColumn failsLate_readColumn reads_readColumn)
            reads_readColumns
        · refine ⟨word :: table :: t :: taken, rfl, (table, columns), more ++ [closing], ?_⟩
          simpa using RendersCreate.columns hword htable hopening hcolumns rfl
        obtain rfl | ⟨closing', rest₄, -, -, h₄⟩ := exists_of_expect_failure h₃
        · exact ⟨word :: table :: t :: cs, rfl, (table, columns), [closing], .columns hword htable hopening hcolumns rfl⟩
        · cases h₄

theorem failsLate_readDrop : FailsLate readDrop RendersDrop where
  begins := by
    intro ts f h
    obtain rfl | ⟨word, rest, rfl, hword, h₁⟩ := exists_of_expect_failure h
    · exact ⟨[], rfl, _, [.ofLexeme (.keyword .table), .ofLexeme (.identifier "t")], .mk rfl rfl⟩
    · obtain ⟨taken, rfl, table, more, hmore, htable⟩ := failsLate_expectKind.begins h₁
      refine ⟨word :: taken, rfl, table, more, ?_⟩
      rw [List.cons_append, hmore]
      exact .mk hword htable

/-! ## Statements -/

theorem failsLate_parse : FailsLate parse Rendering where
  begins := by
    intro ts f h
    have hselect : RendersSelect ⟨[], none, none, none, none⟩ [] := .mk .nil .none .none .none
    cases ts with
    | nil =>
        cases h
        exact ⟨[], rfl, _, [.ofLexeme (.keyword .select)], .select rfl hselect⟩
    | cons t ts =>
        rw [parse] at h
        split at h
        · obtain ⟨taken, query, more, rfl, hquery⟩ | ⟨us, rest, query, -, -, h₁⟩ :=
            exists_of_bind_failure h failsLate_readSelect reads_readSelect
          · exact ⟨t :: taken, rfl, .select query, more, .select ‹_› hquery⟩
          · cases h₁
        split at h
        · obtain ⟨taken, ⟨table, values⟩, more, rfl, hrow⟩ | ⟨us, rest, row, -, -, h₁⟩ :=
            exists_of_bind_failure h failsLate_readInsert reads_readInsert
          · exact ⟨t :: taken, rfl, .insert table values, more, .insert ‹_› hrow⟩
          · cases h₁
        split at h
        · obtain ⟨taken, ⟨table, columns⟩, more, rfl, hdefinition⟩ | ⟨us, rest, definition, -, -, h₁⟩ :=
            exists_of_bind_failure h failsLate_readCreate reads_readCreate
          · exact ⟨t :: taken, rfl, .create table columns, more, .create ‹_› hdefinition⟩
          · cases h₁
        split at h
        · obtain ⟨taken, table, more, rfl, htable⟩ | ⟨us, rest, table, -, -, h₁⟩ :=
            exists_of_bind_failure h failsLate_readDrop reads_readDrop
          · exact ⟨t :: taken, rfl, .drop table, more, .drop ‹_› htable⟩
          · cases h₁
        · cases h
          exact ⟨[], rfl, _, [.ofLexeme (.keyword .select)], .select rfl hselect⟩

end Statement

end SqlStore
