import SqlStore.Statement.Parse
import SqlStore.Proofs.Expr.Parse
import SqlStore.Proofs.Statement.Rendering

/-!
# Reading statements

One `Reads` fact for each reader: it takes exactly the tokens that its production writes, up to the tokens that
can follow there. The last of them is `reads_parse`, for whole statements.
-/

namespace SqlStore.Statement

open Reading

/-! ## Expressions -/

theorem endsAt_of_ends {stops : List Lexeme} {power : Nat} {rest : List Token} (h : Ends stops rest) :
    Expr.EndsAt stops power rest :=
  fun t ht => Or.inl (h t ht)

theorem reads_expr {stops : List Lexeme} (hstops : Expr.NoOperator stops) :
    Reads (Expr.parse stops 0) (Expr.Rendering 0) stops where
  sound := by
    intro ts e rest h
    obtain ⟨taken, hts, he, -⟩ := Expr.parse_sound hstops h
    exact ⟨taken, hts, he.of_le (Nat.zero_le _)⟩
  complete := by
    intro e taken rest he hrest
    exact he.parse hstops (endsAt_of_ends hrest)

/-- No expression starts with a lexeme that is neither an operand nor an opening parenthesis. -/
theorem exprHead_not_mem {floor : Nat} {e : Expr} {ts : List Token} (h : Expr.Rendering floor e ts)
    (closing : List Lexeme) (hclosing : ∀ l ∈ closing, l.kind.isOperand = false ∧ l ≠ .symbol .leftParen) :
    ∃ t us, ts = t :: us ∧ t.lexeme ∉ closing := by
  obtain ⟨t, us, rfl, ht⟩ := h.head
  refine ⟨t, us, rfl, fun hmem => ?_⟩
  obtain ⟨hkind, hparen⟩ := hclosing _ hmem
  rcases ht with ht | ht
  · rw [Token.kind, hkind] at ht
    cases ht
  · exact hparen ht

/-! ## Selections -/

theorem reads_itemName : Reads (after .asWord (expectKind .identifier .aliasName))
    (Clause .asWord (OfKind .identifier)) (.symbol .comma :: itemStops) :=
  reads_after reads_expectKind (by decide)

theorem reads_readItem : Reads readItem RendersItem (.symbol .comma :: itemStops) where
  sound := by
    intro ts item rest h
    cases ts with
    | nil => cases h
    | cons t ts =>
        rw [readItem] at h
        split at h
        · cases h
          exact ⟨[t], rfl, .allColumns ‹_›⟩
        · obtain ⟨⟨e, rest₁⟩, he, h⟩ := exists_of_bind_eq_ok h
          obtain ⟨⟨shownAs, rest₂⟩, hname, h⟩ := exists_of_bind_eq_ok h
          cases h
          obtain ⟨us, hus, hus'⟩ := (reads_expr (by decide)).sound he
          obtain ⟨vs, rfl, hvs⟩ := reads_itemName.sound hname
          exact ⟨us ++ vs, by rw [hus, List.append_assoc], .expression hus' hvs⟩
  complete := by
    intro item taken rest hitem hrest
    cases hitem with
    | allColumns ht => simp [readItem, ht]
    | @expression e shownAs ts us he hname =>
        obtain ⟨t, ts', rfl, ht⟩ := exprHead_not_mem he [.symbol .asterisk] (by decide)
        have hends : Ends (.symbol .comma :: .keyword .asWord :: itemStops) (us ++ rest) :=
          (hname.ends (by decide)).append (hrest.mono (by decide))
        have hexpr := (reads_expr (by decide)).complete he hends
        have hread := reads_itemName.complete hname hrest
        rw [List.append_assoc, List.cons_append, readItem, if_neg (by simpa using ht), ← List.cons_append, hexpr]
        simp [bind, Except.bind, hread, pure, Except.pure]

theorem reads_items : Reads (separated readItem consumes_readItem (· ∈ itemStops)) (Entries RendersItem) itemStops := by
  refine reads_separated consumes_readItem reads_readItem (by simp) (by decide) (by decide) (by decide) ?_
  intro item ts h
  cases h with
  | @allColumns t ht => exact ⟨t, [], rfl, by rw [ht]; decide⟩
  | expression he _ =>
      obtain ⟨t, us, rfl, ht⟩ := exprHead_not_mem he itemStops (by decide)
      exact ⟨t, _, rfl, ht⟩

theorem reads_source :
    Reads (after .fromWord (expectKind .identifier .sourceTable)) (Clause .fromWord (OfKind .identifier))
      [.keyword .whereWord, .keyword .limit, .keyword .offset, .symbol .semicolon] :=
  reads_after reads_expectKind (by decide)

theorem reads_condition :
    Reads (after .whereWord (Expr.parse [.keyword .limit, .keyword .offset, .symbol .semicolon] 0))
      (Clause .whereWord (Expr.Rendering 0)) [.keyword .limit, .keyword .offset, .symbol .semicolon] :=
  reads_after (reads_expr (by decide)) (by decide)

theorem reads_readLimit :
    Reads readLimit (Clause .limit (Expr.Rendering 0)) [.keyword .offset, .symbol .semicolon] :=
  reads_after (reads_expr (by decide)) (by decide)

theorem reads_readOffset :
    Reads readOffset (Clause .offset (Expr.Rendering 0)) [.keyword .limit, .symbol .semicolon] :=
  reads_after (reads_expr (by decide)) (by decide)

theorem RendersWindow.ends {window : Option Expr × Option Expr} {ts : List Token} (h : RendersWindow window ts)
    {stops : List Lexeme} (hlimit : .keyword .limit ∈ stops) (hoffset : .keyword .offset ∈ stops) :
    Ends stops ts := by
  cases h with
  | none => exact ends_nil
  | limit hword _ _ => exact ends_cons.2 (hword ▸ hlimit)
  | offset hword _ _ => exact ends_cons.2 (hword ▸ hoffset)

theorem reads_readWindow : Reads readWindow RendersWindow [.symbol .semicolon] where
  sound := by
    intro ts window rest h
    obtain ⟨⟨limit, rest₁⟩, hlimit, h⟩ := exists_of_bind_eq_ok h
    obtain ⟨ls, hls, hwritten⟩ := reads_readLimit.sound hlimit
    cases limit with
    | none =>
        obtain ⟨⟨offset, rest₂⟩, hoffset, h⟩ := exists_of_bind_eq_ok h
        obtain ⟨⟨limit, rest₃⟩, hlimit', h⟩ := exists_of_bind_eq_ok h
        cases h
        cases hwritten
        obtain ⟨os, rfl, hos⟩ := reads_readOffset.sound hoffset
        obtain ⟨ms, rfl, hms⟩ := reads_readLimit.sound hlimit'
        cases hos with
        | none =>
            cases hms with
            | none => exact ⟨[], hls, .none⟩
            | some hword he => exact ⟨_, hls, by simpa using RendersWindow.limit hword he .none⟩
        | some hword he => exact ⟨_, by simpa using hls, .offset hword he hms⟩
    | some limit =>
        obtain ⟨⟨offset, rest₂⟩, hoffset, h⟩ := exists_of_bind_eq_ok h
        cases h
        obtain ⟨os, rfl, hos⟩ := reads_readOffset.sound hoffset
        cases hwritten with
        | some hword he => exact ⟨_, by simpa using hls, .limit hword he hos⟩
  complete := by
    intro window taken rest hwindow hrest
    cases hwindow with
    | none =>
        have hlimit := reads_readLimit.complete .none (hrest.mono (by decide))
        have hoffset := reads_readOffset.complete .none (hrest.mono (by decide))
        simp only [List.nil_append] at hlimit hoffset ⊢
        simp only [readWindow, hlimit, hoffset, bind, Except.bind, pure, Except.pure]
    | @limit word e offset ts us hword he hoffset =>
        have hus := reads_readOffset.complete hoffset (hrest.mono (by decide))
        have hts := reads_readLimit.complete (.some hword he)
          ((hoffset.ends (by decide)).append (hrest.mono (by decide)))
        simp only [List.cons_append, List.append_assoc] at hts ⊢
        simp only [readWindow, hts, hus, bind, Except.bind, pure, Except.pure]
    | @offset word e limit ts us hword he hlimit =>
        have hus := reads_readLimit.complete hlimit (hrest.mono (by decide))
        have hts := reads_readOffset.complete (.some hword he)
          ((hlimit.ends (by decide)).append (hrest.mono (by decide)))
        have hoffset : Ends [.keyword .offset, .symbol .semicolon] (word :: (ts ++ (us ++ rest))) :=
          ends_cons.2 (by rw [hword]; decide)
        have hnone := reads_readLimit.complete .none hoffset
        simp only [List.cons_append, List.append_assoc, List.nil_append] at hts hnone ⊢
        simp only [readWindow, hnone, hts, hus, bind, Except.bind, pure, Except.pure]

theorem reads_readSelect : Reads readSelect RendersSelect [.symbol .semicolon] where
  sound := by
    intro ts query rest h
    obtain ⟨⟨items, rest₁⟩, hitems, h⟩ := exists_of_bind_eq_ok h
    obtain ⟨⟨source, rest₂⟩, hsource, h⟩ := exists_of_bind_eq_ok h
    obtain ⟨⟨condition, rest₃⟩, hcondition, h⟩ := exists_of_bind_eq_ok h
    obtain ⟨⟨⟨limit, offset⟩, rest₄⟩, hwindow, h⟩ := exists_of_bind_eq_ok h
    cases h
    obtain ⟨is, rfl, his⟩ := reads_items.sound hitems
    obtain ⟨fs, rfl, hfs⟩ := reads_source.sound hsource
    obtain ⟨cs, rfl, hcs⟩ := reads_condition.sound hcondition
    obtain ⟨ws, rfl, hws⟩ := reads_readWindow.sound hwindow
    exact ⟨is ++ (fs ++ (cs ++ ws)), by simp, .mk his hfs hcs hws⟩
  complete := by
    intro query taken rest hquery hrest
    cases hquery with
    | @mk items source condition limit offset is fs cs ws his hfs hcs hws =>
        have hwindow := reads_readWindow.complete hws hrest
        have hends : ∀ {stops : List Lexeme}, .keyword .limit ∈ stops → .keyword .offset ∈ stops →
            .symbol .semicolon ∈ stops → Ends stops (ws ++ rest) := by
          intro stops hl ho hs
          exact (hws.ends hl ho).append (hrest.mono (by simpa using hs))
        have hcondition := reads_condition.complete hcs (hends (by decide) (by decide) (by decide))
        have hsource := reads_source.complete hfs
          ((hcs.ends (by decide)).append (hends (by decide) (by decide) (by decide)))
        have hitems := reads_items.complete his ((hfs.ends (by decide)).append
          ((hcs.ends (by decide)).append (hends (by decide) (by decide) (by decide))))
        simp only [List.append_assoc]
        simp only [readSelect, hitems, hsource, hcondition, hwindow, bind, Except.bind, pure, Except.pure]

/-! ## Changes -/

theorem reads_readValues : Reads readValues (Entries (Expr.Rendering 0)) [.symbol .rightParen] := by
  refine reads_separated Expr.consumes_parse (reads_expr (by decide)) (by simp) (by decide) (by decide)
    (by decide) ?_
  intro e ts h
  exact exprHead_not_mem h _ (by decide)

theorem reads_readInsert : Reads readInsert RendersInsert [.symbol .semicolon] where
  sound := by
    intro ts row rest h
    obtain ⟨rest₁, hinto, h⟩ := exists_of_bind_eq_ok h
    obtain ⟨⟨table, rest₂⟩, htable, h⟩ := exists_of_bind_eq_ok h
    obtain ⟨rest₃, hvalues, h⟩ := exists_of_bind_eq_ok h
    obtain ⟨rest₄, hopen, h⟩ := exists_of_bind_eq_ok h
    obtain ⟨⟨values, rest₅⟩, hlist, h⟩ := exists_of_bind_eq_ok h
    obtain ⟨rest₆, hclose, h⟩ := exists_of_bind_eq_ok h
    cases h
    obtain ⟨into, rfl, hinto'⟩ := expect_eq_ok.1 hinto
    obtain ⟨rfl, htable'⟩ := expectKind_eq_ok.1 htable
    obtain ⟨word, rfl, hword⟩ := expect_eq_ok.1 hvalues
    obtain ⟨opening, rfl, hopening⟩ := expect_eq_ok.1 hopen
    obtain ⟨vs, rfl, hvs⟩ := reads_readValues.sound hlist
    obtain ⟨closing, rfl, hclosing⟩ := expect_eq_ok.1 hclose
    exact ⟨into :: table :: word :: opening :: (vs ++ [closing]), by simp,
      .mk hinto' htable' hword hopening hvs hclosing⟩
  complete := by
    intro row taken rest hrow _
    cases hrow with
    | @mk into table word opening closing values vs hinto htable hword ho hvs hc =>
        have hclosing : Ends [.symbol .rightParen] (closing :: rest) := ends_cons.2 (by rw [hc]; decide)
        have hvalues := reads_readValues.complete hvs hclosing
        simp only [List.cons_append, List.append_assoc, List.nil_append]
        simp only [readInsert, expect_cons hinto, expectKind_cons htable, expect_cons hword, expect_cons ho,
          hvalues, expect_cons hc, bind, Except.bind, pure, Except.pure]

theorem reads_readColumn : Reads readColumn RendersColumn [.symbol .comma, .symbol .rightParen] where
  sound := by
    intro ts column rest h
    obtain ⟨⟨name, rest₁⟩, hfirst, h₁⟩ := exists_of_bind_eq_ok h
    obtain ⟨⟨type, rest₂⟩, hsecond, h₂⟩ := exists_of_bind_eq_ok h₁
    obtain ⟨rfl, hname⟩ := expectKind_eq_ok.1 hfirst
    obtain ⟨rfl, htype⟩ := expectKind_eq_ok.1 hsecond
    cases rest₂ with
    | nil =>
        cases h₂
        exact ⟨[name, type], rfl, .plain hname htype⟩
    | cons key rest₂ =>
        dsimp only at h₂
        split at h₂
        · cases h₂
          exact ⟨[name, type, key], rfl, .primaryKey hname htype ‹_›⟩
        · cases h₂
          exact ⟨[name, type], rfl, .plain hname htype⟩
  complete := by
    intro column taken rest hcolumn hrest
    cases hcolumn with
    | plain hname htype =>
        simp only [List.cons_append, List.nil_append]
        simp only [readColumn, expectKind_cons hname, expectKind_cons htype, bind, Except.bind]
        cases rest with
        | nil => rfl
        | cons t rest =>
            have ht : t.lexeme ≠ .keyword .primaryKey := by
              intro ht
              have hmem := ends_cons.1 hrest
              rw [ht] at hmem
              exact absurd hmem (by decide)
            simp only [if_neg ht]
            rfl
    | primaryKey hname htype hkey =>
        simp only [List.cons_append, List.nil_append]
        simp only [readColumn, expectKind_cons hname, expectKind_cons htype, bind, Except.bind, if_pos hkey]
        rfl

theorem reads_readColumns : Reads readColumns (Entries RendersColumn) [.symbol .rightParen] := by
  refine reads_separated consumes_readColumn reads_readColumn (by simp) (by decide) (by decide) (by decide) ?_
  intro column ts h
  have hne : ∀ {t : Token}, t.kind = .identifier → t.lexeme ∉ [Lexeme.symbol .rightParen] := by
    intro t ht hmem
    rw [List.mem_singleton] at hmem
    rw [Token.kind, hmem] at ht
    exact absurd ht (by decide)
  cases h with
  | plain hname _ | primaryKey hname _ _ => exact ⟨_, _, rfl, hne hname⟩

theorem reads_readCreate : Reads readCreate RendersCreate [.symbol .semicolon] where
  sound := by
    intro ts definition rest h
    obtain ⟨rest₁, hfirst, h₁⟩ := exists_of_bind_eq_ok h
    obtain ⟨⟨table, rest₂⟩, hsecond, h₂⟩ := exists_of_bind_eq_ok h₁
    obtain ⟨word, rfl, hword⟩ := expect_eq_ok.1 hfirst
    obtain ⟨rfl, htable⟩ := expectKind_eq_ok.1 hsecond
    cases rest₂ with
    | nil =>
        cases h₂
        exact ⟨[word, table], rfl, .bare hword htable⟩
    | cons t rest₂ =>
        dsimp only at h₂
        split at h₂
        · obtain ⟨⟨columns, rest₃⟩, hcolumns, h₃⟩ := exists_of_bind_eq_ok h₂
          obtain ⟨rest₄, hclose, h₄⟩ := exists_of_bind_eq_ok h₃
          cases h₄
          obtain ⟨cs, rfl, hcs⟩ := reads_readColumns.sound hcolumns
          obtain ⟨closing, rfl, hclosing⟩ := expect_eq_ok.1 hclose
          exact ⟨word :: table :: t :: (cs ++ [closing]), by simp,
            .columns hword htable ‹_› hcs hclosing⟩
        · cases h₂
          exact ⟨[word, table], rfl, .bare hword htable⟩
  complete := by
    intro definition taken rest hdefinition hrest
    cases hdefinition with
    | bare hword htable =>
        simp only [List.cons_append, List.nil_append]
        simp only [readCreate, expect_cons hword, expectKind_cons htable, bind, Except.bind]
        cases rest with
        | nil => rfl
        | cons t rest =>
            have ht : t.lexeme ≠ .symbol .leftParen := by
              intro ht
              have hmem := ends_cons.1 hrest
              rw [ht] at hmem
              exact absurd hmem (by decide)
            simp only [if_neg ht]
            rfl
    | @columns word table opening closing columns cs hword htable ho hcs hc =>
        have hclosing : Ends [.symbol .rightParen] (closing :: rest) := ends_cons.2 (by rw [hc]; decide)
        have hcolumns := reads_readColumns.complete hcs hclosing
        simp only [List.cons_append, List.append_assoc, List.nil_append]
        simp only [readCreate, expect_cons hword, expectKind_cons htable, if_pos ho, hcolumns, expect_cons hc,
          bind, Except.bind, pure, Except.pure]

theorem reads_readDrop : Reads readDrop RendersDrop [.symbol .semicolon] where
  sound := by
    intro ts table rest h
    obtain ⟨rest₁, hfirst, hsecond⟩ := exists_of_bind_eq_ok h
    obtain ⟨word, rfl, hword⟩ := expect_eq_ok.1 hfirst
    obtain ⟨rfl, htable⟩ := expectKind_eq_ok.1 hsecond
    exact ⟨[word, table], rfl, .mk hword htable⟩
  complete := by
    intro table taken rest h _
    cases h with
    | mk hword htable =>
        simp only [List.cons_append, List.nil_append]
        simp only [readDrop, expect_cons hword, expectKind_cons htable, bind, Except.bind]

/-! ## Statements -/

theorem reads_parse : Reads parse Rendering [.symbol .semicolon] where
  sound := by
    intro ts statement rest h
    cases ts with
    | nil => cases h
    | cons t ts =>
        rw [parse] at h
        split at h
        · obtain ⟨⟨query, rest₁⟩, hquery, h⟩ := exists_of_bind_eq_ok h
          cases h
          obtain ⟨us, rfl, hus⟩ := reads_readSelect.sound hquery
          exact ⟨t :: us, rfl, .select ‹_› hus⟩
        split at h
        · obtain ⟨⟨⟨table, values⟩, rest₁⟩, hrow, h⟩ := exists_of_bind_eq_ok h
          cases h
          obtain ⟨us, rfl, hus⟩ := reads_readInsert.sound hrow
          exact ⟨t :: us, rfl, .insert ‹_› hus⟩
        split at h
        · obtain ⟨⟨⟨table, columns⟩, rest₁⟩, hdefinition, h⟩ := exists_of_bind_eq_ok h
          cases h
          obtain ⟨us, rfl, hus⟩ := reads_readCreate.sound hdefinition
          exact ⟨t :: us, rfl, .create ‹_› hus⟩
        split at h
        · obtain ⟨⟨table, rest₁⟩, htable, h⟩ := exists_of_bind_eq_ok h
          cases h
          obtain ⟨us, rfl, hus⟩ := reads_readDrop.sound htable
          exact ⟨t :: us, rfl, .drop ‹_› hus⟩
        · cases h
  complete := by
    intro statement taken rest h hrest
    cases h with
    | select hword h =>
        rw [List.cons_append, parse, if_pos hword, reads_readSelect.complete h hrest]
        rfl
    | insert hword h =>
        rw [List.cons_append, parse, if_neg (by rw [hword]; decide), if_pos hword,
          reads_readInsert.complete h hrest]
        rfl
    | create hword h =>
        rw [List.cons_append, parse, if_neg (by rw [hword]; decide), if_neg (by rw [hword]; decide),
          if_pos hword, reads_readCreate.complete h hrest]
        rfl
    | drop hword h =>
        rw [List.cons_append, parse, if_neg (by rw [hword]; decide), if_neg (by rw [hword]; decide),
          if_neg (by rw [hword]; decide), if_pos hword, reads_readDrop.complete h hrest]
        rfl

end SqlStore.Statement
