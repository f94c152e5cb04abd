import SqlStore.Proofs.Command.Parse
import SqlStore.Proofs.History
import SqlStore.Proofs.Selection.Names
import SqlStore.Proofs.Token.Relex

/-!
# Selections of everything

`SELECT *` asks for each column by its name. Where the names differ, the answer is the table (`selectAll_of_runAll`).
-/

namespace SqlStore

open Reading

/-- `SELECT * FROM` a table. -/
def Select.all (table : Token) : Select := ⟨[.allColumns], some table, none, none, none⟩

/-- The text that selects everything from the table of a name. -/
def selectAllText (name : String) : String := String.join ["SELECT * FROM ", Command.nameText name]

example : selectAllText "a\"b" = "SELECT * FROM \"a\"\"b\"" := by decide

/-! ## Reading the text -/

theorem yields_selectAllText {name : String} (hname : name ≠ "") :
    Scan.Yields (selectAllText name).toList
      [.keyword .select, .symbol .asterisk, .keyword .fromWord, .identifier name] := by
  have htable : Spells [.identifier name] ((Command.nameText name).toList ++ []) :=
    Command.spells_name hname ⟨delimited_nil, .nil⟩
  have hfrom := Command.spells_keyword .fromWord "FROM".toList rfl rfl (Command.follows_blank htable)
  have hblank := Scan.Yields.separator (c := ' ') rfl hfrom.yields
  have hends := fun cs => Symbol.asterisk.ends_of_delimited (delimited_cons (c := ' ') (by decide) cs)
  have hasterisk := Scan.Yields.lexeme (List.cons_ne_nil _ _) (Match.first?_symbol (w := ['*']) rfl (hends _)) hblank
  have hselect : Lexeme.Word (.keyword .select) "SELECT".toList := .keyword (k := .select) rfl
  have hall := Scan.Yields.word hselect (delimited_cons (by decide) _) (.separator (c := ' ') rfl hasterisk)
  simpa [selectAllText, String.join, String.toList_append, Symbol.canonical] using hall

/-- The text reads as the selection of everything from the table. -/
theorem exists_ofSource_selectAllText {name : String} (hname : name ≠ "") :
    ∃ table, table.text = name ∧ Script.ofSource (selectAllText name) = .ok [.select (.all table)] := by
  obtain ⟨ts, hts, hlexemes⟩ := (yields_selectAllText hname).ofSource
  obtain ⟨select, us, rfl, hselect, hus⟩ := List.map_eq_cons_iff.1 hlexemes
  obtain ⟨asterisk, vs, rfl, hasterisk, hvs⟩ := List.map_eq_cons_iff.1 hus
  obtain ⟨word, ws, rfl, hword, hws⟩ := List.map_eq_cons_iff.1 hvs
  obtain ⟨table, rfl, htable⟩ := Command.exists_token hws
  obtain ⟨hkind, hname⟩ := Command.identifier_of_lexeme htable
  refine ⟨table, hname, Script.ofSource_eq_ok_iff.2 ⟨_, hts, ?_⟩⟩
  have hitems : Entries Statement.RendersItem [.allColumns] ([asterisk] ++ []) := .cons (.allColumns hasterisk) .nil
  have hquery := Statement.RendersSelect.mk hitems (.some hword ⟨rfl, hkind⟩) .none .none
  exact .single (.select hselect hquery)

/-! ## Names of tables -/

/-- No identifier of a source text is empty. -/
theorem Token.text_ne_empty_of_mem {source : String} {tokens : List Token} {t : Token}
    (h : ofSource source = .ok tokens) (ht : t ∈ tokens) (hkind : t.kind = .identifier) : t.text ≠ "" := by
  obtain ⟨-, w, -, -, hw⟩ := exists_writtenAs_of_mem h ht
  rw [Token.kind] at hkind
  rw [Token.text]
  generalize t.lexeme = l at hw hkind
  cases hw with
  | @reserved k _ _ => exact absurd hkind k.kind_ne.2.1
  | symbol _ => cases hkind
  | string s => cases hkind
  | numeral _ => cases hkind
  | quotedName h => exact h
  | bareName _ _ _ => simp [Lexeme.identifier]

theorem Script.text_ne_empty_of_create {source : String} {script : Script} {table : Token}
    {definitions : List ColumnDefinition} (h : ofSource source = .ok script)
    (hmem : .create table definitions ∈ script) : table.text ≠ "" := by
  obtain ⟨tokens, htokens, hscript⟩ := ofSource_eq_ok_iff.1 h
  obtain ⟨us, hstatement, hsub⟩ := hscript.exists_statement _ hmem
  cases hstatement with
  | create _ hcreate =>
      cases hcreate with
      | bare _ hkind => exact Token.text_ne_empty_of_mem htokens (hsub (by simp)) hkind
      | columns _ hkind _ _ _ => exact Token.text_ne_empty_of_mem htokens (hsub (by simp)) hkind

namespace Database

theorem name_ne_empty_of_table? {sources : List String} {name : String}
    (h : (empty.runAll sources).table? name ≠ none) : name ≠ "" := by
  obtain ⟨outcomes, hhistory⟩ := executes_history empty sources
  rcases hhistory.exists_creation h with ⟨hempty, -⟩ | ⟨definitions, after, before, token, hsplit, rfl, -⟩
  · exact absurd (table?_empty name) hempty
  · have hcreate : .create token definitions ∈ empty.history sources := by simp [hsplit]
    obtain ⟨source, script, hsource, hmem⟩ := exists_source_of_mem_history hcreate
    exact Script.text_ne_empty_of_create hsource hmem

end Database

/-! ## Answers -/

theorem Select.projections_all (table : Token) (columns : List Column) :
    List.Forall₂ Projection.Names ((all table).projections (.ofList columns)) columns := by
  rw [projections, all, List.flatMap_singleton, SelectItem.expand, Columns.ofList, List.map_map,
    List.forall₂_map_left_iff, List.forall₂_same]
  exact fun c _ => ⟨_, rfl, rfl⟩

namespace Database

theorem result_select_all {db : Database} {token : Token} {table : Table} (htable : db.table? token.text = some table)
    (hparallel : table.columns.Parallel) (hrows : ∀ row ∈ table.rows, row.length = table.columns.names.length) :
    (db.select (.all token)).result = .ok table.byName := by
  rw [result_select_of_source (source_of_table htable)]
  have hcolumns : table.columns = .ofList table.columns.toList := (Columns.ofList_toList hparallel).symm
  have hnames : List.Forall₂ Projection.Names ((Select.all token).projections table.columns) table.columns.toList :=
    hcolumns ▸ Columns.toList_ofList _ ▸ Select.projections_all token table.columns.toList
  refine Select.result_run_of_names hcolumns (List.cons_ne_nil _ _) rfl rfl rfl hnames fun row hrow => ?_
  rw [hrows row hrow, Columns.length_toList hparallel]

/-- For any table of a database that source texts lead to, if its rows are full, selecting everything from it succeeds
and shows, for each column, the first column of its name, and every row in its order: the table itself, if no two
columns have one name. A text that selects everything is found for every table. -/
theorem selectAll_of_runAll {sources : List String} {name : String} {table : Table}
    (htable : (empty.runAll sources).table? name = some table)
    (hrows : ∀ row ∈ table.rows, row.length = table.columns.names.length) :
    let db := empty.runAll sources
    (∃ token, token.text = name ∧ Script.ofSource (selectAllText name) = .ok [.select (.all token)]) ∧
      (∀ source token, Script.ofSource source = .ok [.select (.all token)] → token.text = name →
        (db.run source).result = .ok [.selected table.byName] ∧ (db.query source).result = .ok table.byName) ∧
      (table.columns.names.Nodup → table.byName = ⟨table.columns.toList, table.rows⟩) := by
  intro db
  have hstored : db.table? name ≠ none := by simp [db, htable]
  have hparallel := parallel_of_runAll htable
  refine ⟨exists_ofSource_selectAllText (name_ne_empty_of_table? hstored), ?_, ?_⟩
  · rintro source token hsource rfl
    exact answers_of_ofSource hsource (result_select_all htable hparallel hrows)
  · intro hnodup
    refine Results.byName_eq (Columns.map_name_toList hparallel ▸ hnodup) fun row hrow => ?_
    rw [hrows row hrow, Columns.length_toList hparallel]

/-- A column named like a reserved word. -/
theorem selectAll_of_runAll_reserved :
    let db := empty.runAll ["create table t (\"select\" text, b int)", "insert into t values ('x', null)"]
    (db.run (selectAllText "t")).result =
      .ok [.selected ⟨[⟨"select", .text⟩, ⟨"b", .int⟩], [[.ofText "x", .empty]]⟩] := by
  intro db
  have htable : db.table? "t" = some ⟨⟨["select", "b"], [.text, .int]⟩, [[.ofText "x", .empty]], none⟩ := by
    decide +kernel
  obtain ⟨⟨token, hname, hsource⟩, hanswer, hsame⟩ := selectAll_of_runAll htable (by decide)
  rw [(hanswer _ token hsource hname).1, hsame (by decide)]
  rfl

/-- Of two columns of one name, everything shows the first one twice. -/
theorem not_forall_selectAll :
    ¬ ∀ sources name table, (empty.runAll sources).table? name = some table →
      (∀ row ∈ table.rows, row.length = table.columns.names.length) →
      ((empty.runAll sources).query (selectAllText name)).result = .ok ⟨table.columns.toList, table.rows⟩ := by
  intro h
  have htable : (empty.runAll ["CREATE TABLE t (a INT, a TEXT)", "INSERT INTO t VALUES (1, 'x')"]).table? "t" =
      some ⟨⟨["a", "a"], [.int, .text]⟩, [[.ofInt 1, .ofText "x"]], none⟩ := by
    decide +kernel
  obtain ⟨token, hname, hsource⟩ := @exists_ofSource_selectAllText "t" (by decide)
  have hselect := result_select_all (hname ▸ htable) (parallel_of_runAll htable) (by decide)
  have hanswer := (answers_of_ofSource hsource hselect).2
  rw [h _ _ _ htable (by decide)] at hanswer
  exact absurd hanswer (by decide)

end Database

end SqlStore
