import SqlStore.Proofs.Command.Run

/-!
# Round trip

Rows written as a script of insertions into a new table come back from a selection of its columns as they were.
-/

namespace SqlStore

namespace Database

variable {name : String} {columns : List Column} {rows : List (List Datum)}

theorem run_load (hwell : ∀ command ∈ Command.create name columns :: rows.map (.insert name), command.WellFormed)
    (htypes : ∀ c ∈ columns, c.type ≠ .bool)
    (hrows : ∀ row ∈ rows, (∀ d ∈ row, d.IsLiteral) ∧ row.length = columns.length) :
    let loaded := empty.run (Command.scriptText (.create name columns :: rows.map (.insert name)))
    loaded.result = .ok (.created :: rows.map fun _ => .inserted) ∧
      loaded.state.table? name = some ⟨.ofList columns, rows.map fun row => row.map Datum.toCell, none⟩ := by
  intro loaded
  obtain ⟨script, hsource, hmeans⟩ := Command.ofSource_scriptText hwell
  obtain ⟨hresult, hstate⟩ := run_of_ofSource empty hsource
  cases hmeans with
  | @cons create _ script _ hcreate hinserts =>
      obtain ⟨hcreated, hput⟩ := execute_create hcreate htypes (table?_empty name)
      obtain ⟨hrun, hafter⟩ := @Script.run_cons_of_ok _ _ execute empty _ create script hcreated
      have hdb : (empty.put name ⟨.ofList columns, [], none⟩).table? name = some ⟨.ofList columns, [], none⟩ := by
        rw [table?_put, if_pos rfl]
      have hlength : ∀ row ∈ rows, (∀ d ∈ row, d.IsLiteral) ∧ row.length = (Columns.ofList columns).names.length := by
        simpa [Columns.ofList] using hrows
      obtain ⟨hothers, hfinal⟩ := run_inserts hinserts hlength hdb
      rw [hresult, hstate, hrun, hafter, hput, hothers, hfinal]
      exact ⟨rfl, rfl⟩

/-- A selection of all columns gives the rows of the table, run by itself or as a query. -/
theorem result_run_select {db : Database} {cells : List (List Cell)} (hwell : (Command.select name columns).WellFormed)
    (hnodup : (columns.map Column.name).Nodup) (hne : columns ≠ [])
    (hcells : ∀ row ∈ cells, row.length = columns.length) (hdb : db.table? name = some ⟨.ofList columns, cells, none⟩) :
    (db.run (Command.scriptText [.select name columns])).result = .ok [.selected ⟨columns, cells⟩] ∧
      (db.query (Command.scriptText [.select name columns])).result = .ok ⟨columns, cells⟩ := by
  obtain ⟨script, hsource, hmeans⟩ := @Command.ofSource_scriptText [.select name columns] (by simpa using hwell)
  cases hmeans with
  | @cons select _ script _ hselect hnil =>
      cases hnil
      obtain ⟨query, rfl, hresult⟩ := exists_query hselect hnodup hne hcells hdb
      exact answers_of_ofSource hsource hresult

/-- On a new database, creating a table and inserting rows succeeds, and selecting all columns then gives those rows
in their order under the declared columns; its cells decode to the integers and texts that were written, and to 0
and the empty text for null. -/
theorem select_after_inserts (hname : name ≠ "") (hne : columns ≠ []) (hnames : ∀ c ∈ columns, c.name ≠ "")
    (hnodup : (columns.map Column.name).Nodup) (htypes : ∀ c ∈ columns, c.type ≠ .bool)
    (hrows : ∀ row ∈ rows, row.map Datum.type = columns.map Column.type)
    (hliteral : ∀ row ∈ rows, ∀ d ∈ row, d.IsLiteral) :
    let loaded := empty.run (Command.scriptText (.create name columns :: rows.map (.insert name)))
    let results : Results := ⟨columns, rows.map fun row => row.map Datum.toCell⟩
    loaded.result = .ok (.created :: rows.map fun _ => .inserted) ∧
      (loaded.state.run (Command.scriptText [.select name columns])).result = .ok [.selected results] ∧
      (loaded.state.query (Command.scriptText [.select name columns])).result = .ok results ∧
      results.rows.map (Value.decodeRow results.columns) = rows.map fun row => row.map Datum.value := by
  intro loaded results
  have hwell : ∀ command ∈ Command.create name columns :: rows.map (.insert name), command.WellFormed := by
    intro command hcommand
    rcases List.mem_cons.1 hcommand with rfl | hcommand
    · exact ⟨hname, hnames⟩
    · obtain ⟨row, hrow, rfl⟩ := List.mem_map.1 hcommand
      exact ⟨hname, hliteral row hrow⟩
  have hlength : ∀ row ∈ rows, row.length = columns.length := by
    intro row hrow
    simpa using congrArg List.length (hrows row hrow)
  obtain ⟨hloaded, htable⟩ := run_load hwell htypes fun row hrow => ⟨hliteral row hrow, hlength row hrow⟩
  have hcells : ∀ cells ∈ results.rows, cells.length = columns.length := by
    intro cells hcells
    obtain ⟨row, hrow, rfl⟩ := List.mem_map.1 hcells
    rw [List.length_map, hlength row hrow]
  obtain ⟨hrun, hquery⟩ := result_run_select ⟨hname, hnames⟩ hnodup hne hcells htable
  refine ⟨hloaded, hrun, hquery, ?_⟩
  rw [List.map_map]
  exact List.map_congr_left fun row hrow => Value.decodeRow_toCell (hrows row hrow)

/-- A table named by a quote, with a column named like a reserved word. -/
theorem select_after_inserts_quotes :
    let columns : List Column := [⟨"select", .int⟩, ⟨"a;b", .text⟩]
    let rows : List (List Datum) := [[.int (some 2147483647), .text (some "it's")], [.int none, .text none]]
    let loaded := empty.run (Command.scriptText (.create "\"" columns :: rows.map (.insert "\"")))
    (loaded.state.run (Command.scriptText [.select "\"" columns])).result =
      .ok [.selected ⟨columns, [[.ofInt 2147483647, .ofText "it's"], [.empty, .empty]]⟩] := by
  intro columns rows loaded
  have hliteral : ∀ row ∈ rows, ∀ d ∈ row, d.IsLiteral := by simp [rows, Datum.IsLiteral]
  exact (select_after_inserts (by decide) (by decide) (by decide) (by decide) (by decide) (by decide) hliteral).2.1

end Database

end SqlStore
