import SqlStore.Proofs.Connection
import SqlStore.Proofs.Independence

/-!
# Clients of a shared database

Clients of one shared database run their statements one at a time, in any order that keeps the order of each client.
If they only insert and select, the order decides nothing but the order of the rows (`Clients.interleave`).
-/

namespace SqlStore

open Reading

/-! ## Merges -/

section

variable {ι α β : Type} [DecidableEq ι]

/-- The entries with a tag. -/
def tagged (i : ι) (entries : List (ι × α)) : List α := (entries.filter (·.1 = i)).map Prod.snd

/-- The list has the entries of all the lists, those of each of them in its order. -/
def Merges (lists : ι → List α) (merged : List α) : Prop :=
  ∃ entries : List (ι × α), entries.map Prod.snd = merged ∧ ∀ i, tagged i entries = lists i

variable {lists : ι → List α} {merged merged' : List α}

theorem count_tagged [DecidableEq α] (i : ι) (a : α) (entries : List (ι × α)) :
    (tagged i entries).count a = entries.count (i, a) := by
  induction entries with
  | nil => rfl
  | cons e entries ih =>
      obtain ⟨j, b⟩ := e
      by_cases hj : j = i <;> simp_all [tagged, List.count_cons]

theorem Merges.perm (h : Merges lists merged) (h' : Merges lists merged') : merged.Perm merged' := by
  classical
  obtain ⟨entries, rfl, hentries⟩ := h
  obtain ⟨entries', rfl, hentries'⟩ := h'
  -- the tagged entries are already the same, each as often in both lists
  refine List.Perm.map _ (List.perm_iff_count.2 fun (i, a) => ?_)
  rw [← count_tagged, ← count_tagged, hentries, hentries']

theorem tagged_filterMap (f : α → Option β) (i : ι) (entries : List (ι × α)) :
    tagged i (entries.filterMap fun e => (f e.2).map (e.1, ·)) = (tagged i entries).filterMap f := by
  induction entries with
  | nil => rfl
  | cons e entries ih =>
      obtain ⟨j, a⟩ := e
      cases hf : f a with
      | none => by_cases hj : j = i <;> simp_all [tagged]
      | some b => by_cases hj : j = i <;> simp_all [tagged]

theorem Merges.filterMap (h : Merges lists merged) (f : α → Option β) :
    Merges (fun i => (lists i).filterMap f) (merged.filterMap f) := by
  obtain ⟨entries, rfl, hentries⟩ := h
  refine ⟨entries.filterMap fun e => (f e.2).map (e.1, ·), ?_, fun i => ?_⟩
  · rw [List.map_filterMap, List.filterMap_map]
    congr 1
    funext e
    cases hf : f e.2 <;> simp [hf]
  · rw [tagged_filterMap, hentries]

end

/-! ## Insertions and selections -/

namespace Statement

def isInsertion : Statement → Bool
  | .insert .. => true
  | _ => false

def isSelection : Statement → Bool
  | .select _ => true
  | _ => false

/-- The row that a statement adds to a table of this name and these columns. -/
def row? (name : String) (columns : Columns) : Statement → Option (List Cell)
  | .insert table values =>
      if table.text = name ∧ values.length = columns.names.length then (Table.storedRow values).result.toOption
      else none
  | _ => none

theorem row?_eq_some_iff {name : String} {columns : Columns} {statement : Statement} {row : List Cell} :
    statement.row? name columns = some row ↔
      ∃ values, statement.insertion? name = some values ∧ Table.RowOf columns values row := by
  cases statement with
  | insert table values =>
      by_cases hname : table.text = name
      · have hrow : (Table.storedRow values).result.toOption = some row ↔
            (Table.storedRow values).result = .ok row := by
          cases (Table.storedRow values).result <;> simp [Except.toOption]
        simp only [row?, insertion?, hname, true_and, ↓reduceIte, Option.some.injEq, exists_eq_left']
        constructor
        · intro h
          split at h
          · exact ⟨‹_›, Table.result_storedRow_eq_ok_iff.1 (hrow.1 h)⟩
          · cases h
        · intro h
          rw [if_pos h.length_eq, hrow, Table.result_storedRow_eq_ok_iff]
          exact h.holds
      · simp [row?, insertion?, hname]
  | _ => simp [row?, insertion?]

end Statement

/-- The table with the rows that some statements add to it. -/
def Table.extend (name : String) (script : Script) (table : Table) : Table :=
  { table with rows := table.rows ++ script.filterMap (Statement.row? name table.columns) }

theorem Table.extend_of_row?_eq_none {name : String} {statement : Statement} {table : Table}
    (h : statement.row? name table.columns = none) : table.extend name [statement] = table := by
  rw [extend, List.filterMap_cons_none h, List.filterMap_nil, List.append_nil]

theorem Table.extend_cons (name : String) (statement : Statement) (script : Script) (table : Table) :
    (table.extend name [statement]).extend name script = table.extend name (statement :: script) := by
  simp only [extend, List.filterMap_cons, List.append_assoc]
  cases statement.row? name table.columns <;> rfl

theorem Statement.exists_of_insertion? {name : String} {statement : Statement} {values : List Expr}
    (h : statement.insertion? name = some values) : ∃ table, statement = .insert table values ∧ table.text = name := by
  cases statement with
  | insert table _ =>
      rw [insertion?] at h
      split at h <;> cases h
      exact ⟨table, rfl, ‹_›⟩
  | _ => cases h

theorem Statement.row?_eq_none {name : String} {columns : Columns} {statement : Statement}
    (h : statement.insertion? name = none) : statement.row? name columns = none := by
  cases hrow : statement.row? name columns with
  | none => rfl
  | some row =>
      obtain ⟨values, hvalues, -⟩ := row?_eq_some_iff.1 hrow
      rw [h] at hvalues
      cases hvalues

namespace Database

variable {db db' : Database} {name : String} {statement : Statement} {table : Table}

/-- An insertion into a table succeeds exactly if it adds a row. -/
theorem isOk_execute_insertion {values : List Expr} (htable : db.table? name = some table)
    (h : statement.insertion? name = some values) :
    (db.execute statement).result.isOk = (statement.row? name table.columns).isSome := by
  obtain ⟨token, rfl, rfl⟩ := Statement.exists_of_insertion? h
  cases hrow : Statement.row? token.text table.columns (.insert token values) with
  | some row =>
      obtain ⟨_, hvalues, hrow⟩ := Statement.row?_eq_some_iff.1 hrow
      cases h.symm.trans hvalues
      obtain ⟨hresult, -⟩ := insert_of_some htable values
      rw [execute, Effect.map, hresult, (Table.insert_of_rowOf hrow).1]
      rfl
  | none =>
      cases hresult : (db.execute (.insert token values)).result with
      | error e => rfl
      | ok outcome =>
          have hstep := tableStep_of_execute hresult token.text
          rw [htable] at hstep
          generalize (db.execute (.insert token values)).state.table? token.text = after at hstep
          cases hstep with
          | insert hname hnew =>
              rw [Statement.row?_eq_some_iff.2 ⟨values, h, hnew⟩] at hrow
              cases hrow
          | other hne => exact absurd rfl hne

/-- An insertion or a selection adds to a table what it adds to it, and creates none. -/
theorem table?_execute (h : statement.isInsertion ∨ statement.isSelection) (name : String) :
    (db.execute statement).state.table? name = (db.table? name).map (Table.extend name [statement]) := by
  cases hresult : (db.execute statement).result with
  | error e =>
      rw [state_execute_of_error hresult]
      cases htable : db.table? name with
      | none => rfl
      | some table =>
          refine congrArg some (Table.extend_of_row?_eq_none ?_).symm
          cases hinsertion : statement.insertion? name with
          | none => exact Statement.row?_eq_none hinsertion
          | some values =>
              -- the insertion has failed, so there is no row that it could add
              have hok := isOk_execute_insertion htable hinsertion
              rw [hresult] at hok
              exact Option.isNone_iff_eq_none.1 (Option.isSome_eq_false_iff.1 hok.symm)
  | ok outcome =>
      have hstep := tableStep_of_execute hresult name
      generalize (db.execute statement).state.table? name = after at hstep ⊢
      generalize db.table? name = before at hstep ⊢
      cases hstep with
      | create | drop => simp [Statement.isInsertion, Statement.isSelection] at h
      | @insert token values table row hname hrow =>
          have hinsertion : Statement.insertion? name (.insert token values) = some values := if_pos hname
          have hsome := Statement.row?_eq_some_iff.2 ⟨values, hinsertion, hrow⟩
          simp [Table.extend, hsome]
      | other hne =>
          cases after with
          | none => rfl
          | some table =>
              refine congrArg some (Table.extend_of_row?_eq_none ?_).symm
              exact Statement.row?_eq_none (Statement.insertion?_of_target?_ne hne)

/-- What an insertion answers follows from the columns of its table. -/
theorem result_execute_insertion_congr (hstatement : statement.isInsertion)
    (h : ∀ name, (db.table? name).map Table.columns = (db'.table? name).map Table.columns) :
    (db.execute statement).result = (db'.execute statement).result := by
  cases statement with
  | insert token values =>
      have hname := h token.text
      rw [execute, execute, Effect.map, Effect.map]
      cases htable : db.table? token.text with
      | none =>
          rw [htable] at hname
          rw [insert_of_none htable, insert_of_none (Option.map_eq_none_iff.1 hname.symm)]
      | some table =>
          rw [htable] at hname
          obtain ⟨table', htable', hcolumns⟩ := Option.map_eq_some_iff.1 hname.symm
          obtain ⟨hresult, -⟩ := insert_of_some htable values
          obtain ⟨hresult', -⟩ := insert_of_some htable' values
          rw [hresult, hresult', Table.result_insert, Table.result_insert, hcolumns]
  | _ => cases hstatement

end Database

/-! ## Runs -/

/-- A shared database, and what each of its clients has still to run. -/
structure Clients (ι : Type) where
  shared : Shared
  pending : ι → List Statement

/-- A statement that a client has run, and the answer to it. -/
structure Answered (ι : Type) where
  client : ι
  statement : Statement
  result : Except StoreError Outcome

namespace Clients

variable {ι : Type} [DecidableEq ι] {c mid c' : Clients ι} {a : Answered ι} {trace : List (Answered ι)}

/-- Some client that is not done runs its next statement. -/
inductive Step : Clients ι → Answered ι → Clients ι → Prop
  | mk {c : Clients ι} {i : ι} {statement : Statement} {later : List Statement}
      (h : c.pending i = statement :: later) :
      Step c ⟨i, statement, (c.shared.execute statement).result⟩
        ⟨(c.shared.execute statement).state, Function.update c.pending i later⟩

/-- The clients run their statements, one at a time, until all are done. -/
inductive Run : Clients ι → List (Answered ι) → Clients ι → Prop
  | done {c : Clients ι} (h : ∀ i, c.pending i = []) : Run c [] c
  | step {c mid c' : Clients ι} {a : Answered ι} {trace : List (Answered ι)} (h : Step c a mid)
      (hrest : Run mid trace c') : Run c (a :: trace) c'

/-- The clients have nothing to run but insertions and selections. -/
def Appends (c : Clients ι) : Prop := ∀ i, ∀ statement ∈ c.pending i, statement.isInsertion ∨ statement.isSelection

theorem Step.execute (h : Step c a mid) : a.result = (c.shared.database.execute a.statement).result ∧
    mid.shared.database = (c.shared.database.execute a.statement).state := by
  cases h with
  | mk h =>
      have hexecute := Shared.execute_mk c.shared.database
      constructor <;> simp only [hexecute] <;> rfl

theorem Step.pending (h : Step c a mid) (i : ι) :
    c.pending i = if a.client = i then a.statement :: mid.pending i else mid.pending i := by
  cases h with
  | mk h =>
      split
      · rename_i hi
        obtain rfl := hi
        simpa using h
      · rename_i hi
        simp [Function.update_of_ne (Ne.symm hi)]

theorem Step.appends (h : Step c a mid) (hc : c.Appends) :
    (a.statement.isInsertion ∨ a.statement.isSelection) ∧ mid.Appends := by
  refine ⟨hc a.client _ ?_, fun i statement hstatement => hc i _ ?_⟩
  · rw [h.pending, if_pos rfl]
    exact List.mem_cons_self
  · rw [h.pending]
    split
    · exact List.mem_cons_of_mem _ hstatement
    · exact hstatement

theorem Step.table?_eq (h : Step c a mid) (hc : c.Appends) (name : String) :
    mid.shared.database.table? name = (c.shared.database.table? name).map (Table.extend name [a.statement]) := by
  rw [h.execute.2, Database.table?_execute (h.appends hc).1]

theorem Run.statements_eq (h : Run c trace c') (i : ι) :
    (trace.filter (·.client = i)).map Answered.statement = c.pending i := by
  induction h with
  | done h => exact (h i).symm
  | step h _ ih =>
      rw [h.pending i, ← ih, List.filter_cons]
      split <;> simp_all

theorem Run.merges (h : Run c trace c') : Merges c.pending (trace.map Answered.statement) := by
  refine ⟨trace.map fun a => (a.client, a.statement), by rw [List.map_map]; rfl, fun i => ?_⟩
  rw [tagged, List.filter_map, List.map_map, ← h.statements_eq i]
  rfl

theorem Run.table?_eq (h : Run c trace c') (hc : c.Appends) (name : String) :
    c'.shared.database.table? name =
      (c.shared.database.table? name).map (Table.extend name (trace.map Answered.statement)) := by
  induction h with
  | done h => cases h : Database.table? _ name <;> simp [Table.extend]
  | step h _ ih =>
      rw [ih (h.appends hc).2, h.table?_eq hc, Option.map_map]
      congr 1
      funext table
      exact Table.extend_cons ..

theorem Run.result_eq (h : Run c trace c') (hc : c.Appends) :
    ∀ a ∈ trace, a.statement.isInsertion → a.result = (c.shared.database.execute a.statement).result := by
  induction h with
  | done _ => exact fun a ha => absurd ha List.not_mem_nil
  | step h _ ih =>
      refine List.forall_mem_cons.2 ⟨fun _ => h.execute.1, fun a ha hinsertion => ?_⟩
      rw [ih (h.appends hc).2 a ha hinsertion]
      -- the first statement has left the columns of every table as they were
      refine Database.result_execute_insertion_congr hinsertion fun name => ?_
      rw [h.table?_eq hc, Option.map_map]
      rfl

theorem Run.insertions_eq (h : Run c trace c') (hc : c.Appends) (i : ι) :
    trace.filter (fun a => a.client = i ∧ a.statement.isInsertion) =
      ((c.pending i).filter Statement.isInsertion).map fun s => ⟨i, s, (c.shared.database.execute s).result⟩ := by
  have hsame : ∀ a ∈ trace.filter fun a => a.client = i ∧ a.statement.isInsertion,
      a = ⟨i, a.statement, (c.shared.database.execute a.statement).result⟩ := by
    intro a ha
    simp only [List.mem_filter, decide_eq_true_eq] at ha
    obtain ⟨ha, rfl, hinsertion⟩ := ha
    rw [← h.result_eq hc a ha hinsertion]
  rw [← h.statements_eq i, List.filter_map, List.map_map, List.filter_filter]
  have hfilter : (trace.filter fun a => (Statement.isInsertion ∘ Answered.statement) a && decide (a.client = i)) =
      trace.filter fun a => a.client = i ∧ a.statement.isInsertion :=
    List.filter_congr fun a _ => by simp [Bool.and_comm]
  rw [hfilter]
  exact (List.map_id _).symm.trans (List.map_congr_left hsame)

/-! ## What the order decides -/

/-- A statement succeeds on the database. -/
def Succeeds (db : Database) (statement : Statement) : Bool := (db.execute statement).result.isOk

theorem forall₂_rowOf_insertions {db : Database} {name : String} {table : Table} (htable : db.table? name = some table)
    (script : Script) :
    List.Forall₂ (Table.RowOf table.columns) (Database.insertions name (script.filter (Succeeds db)))
      (script.filterMap (Statement.row? name table.columns)) := by
  induction script with
  | nil => exact .nil
  | cons statement script ih =>
      cases hinsertion : statement.insertion? name with
      | none =>
          rw [List.filterMap_cons_none (Statement.row?_eq_none hinsertion), List.filter_cons]
          split
          · rwa [Database.insertions, List.filterMap_cons_none hinsertion]
          · exact ih
      | some values =>
          have hok : Succeeds db statement = _ := Database.isOk_execute_insertion htable hinsertion
          cases hrow : statement.row? name table.columns with
          | none =>
              rw [List.filterMap_cons_none hrow, List.filter_cons_of_neg (by simp [hok, hrow])]
              exact ih
          | some row =>
              rw [List.filterMap_cons_some hrow, List.filter_cons_of_pos (by simp [hok, hrow]), Database.insertions,
                List.filterMap_cons_some hinsertion]
              obtain ⟨values', hvalues, hrow⟩ := Statement.row?_eq_some_iff.1 hrow
              cases hinsertion.symm.trans hvalues
              exact .cons hrow ih

theorem Run.length_rows (h : Run c trace c') (hc : c.Appends) {name : String} {table : Table}
    (htable : c.shared.database.table? name = some table) :
    ((trace.map Answered.statement).filterMap (Statement.row? name table.columns)).length =
      trace.countP fun a => (a.statement.insertion? name).isSome && a.result.isOk := by
  rw [List.length_filterMap_eq_countP, List.countP_map]
  refine List.countP_congr fun a ha => ?_
  cases hinsertion : a.statement.insertion? name with
  | none => simp [Statement.row?_eq_none hinsertion]
  | some values =>
      have hstatement : a.statement.isInsertion := by
        obtain ⟨token, htoken, -⟩ := Statement.exists_of_insertion? hinsertion
        rw [htoken, Statement.isInsertion]
      have hok := Database.isOk_execute_insertion htable hinsertion
      rw [← h.result_eq hc a ha hstatement] at hok
      simp [hok]

/-- Clients that insert and select run in any order. Each insertion answers what it answers on the database as it is at
first. A table gets the rows of the insertions that succeed, those of each client in their order, and as many as
succeed. After two orders the tables differ in the order of their rows alone. -/
theorem interleave {db : Database} {statements : ι → List Statement} (h : Appends ⟨⟨db⟩, statements⟩) :
    (∀ trace c, Run ⟨⟨db⟩, statements⟩ trace c →
      (∀ i, (trace.filter (·.client = i)).map Answered.statement = statements i) ∧
        (∀ i, trace.filter (fun a => a.client = i ∧ a.statement.isInsertion) =
          ((statements i).filter Statement.isInsertion).map fun s => ⟨i, s, (db.execute s).result⟩) ∧
        ∀ name, (db.table? name = none → c.shared.database.table? name = none) ∧
          ∀ table, db.table? name = some table → ∃ rows inserted,
            (∀ i, List.Forall₂ (Table.RowOf table.columns)
              (Database.insertions name ((statements i).filter (Succeeds db))) (rows i)) ∧
            Merges rows inserted ∧
            c.shared.database.table? name = some { table with rows := table.rows ++ inserted } ∧
            inserted.length = trace.countP fun a => (a.statement.insertion? name).isSome && a.result.isOk) ∧
    ∀ trace trace' c c', Run ⟨⟨db⟩, statements⟩ trace c → Run ⟨⟨db⟩, statements⟩ trace' c' →
      (∀ i, trace.filter (fun a => a.client = i ∧ a.statement.isInsertion) =
        trace'.filter fun a => a.client = i ∧ a.statement.isInsertion) ∧
      ∀ name, Option.Rel (fun t t' => t.columns = t'.columns ∧ t.primaryKey = t'.primaryKey ∧ t.rows.Perm t'.rows)
        (c.shared.database.table? name) (c'.shared.database.table? name) := by
  constructor
  · intro trace c hrun
    refine ⟨hrun.statements_eq, hrun.insertions_eq h, fun name => ⟨fun hnone => ?_, fun table htable => ?_⟩⟩
    · rw [hrun.table?_eq h]
      exact congrArg _ hnone
    · refine ⟨_, _, fun i => forall₂_rowOf_insertions htable (statements i),
        hrun.merges.filterMap (Statement.row? name table.columns), ?_, hrun.length_rows h htable⟩
      rw [hrun.table?_eq h]
      exact congrArg (Option.map _) htable
  · intro trace trace' c c' hrun hrun'
    refine ⟨fun i => ?_, fun name => ?_⟩
    · rw [hrun.insertions_eq h, hrun'.insertions_eq h]
    · rw [hrun.table?_eq h, hrun'.table?_eq h]
      cases db.table? name with
      | none => exact .none
      | some table =>
          refine .some ⟨rfl, rfl, ?_⟩
          exact ((hrun.merges.perm hrun'.merges).filterMap _).append_left table.rows

/-- Two clients in two orders; one of them has a selection that fails between its insertions. -/
theorem interleave_two_clients :
    let db := (Database.empty.run "create table t (a int)").state
    let t : Token := .ofLexeme (.identifier "t")
    let insert (numeral : String) : Statement := .insert t [.literal (.ofLexeme ⟨.numeric, numeral⟩)]
    let wrong : Statement :=
      .select ⟨[.expression (.literal (.ofLexeme (.identifier "b"))) none], some t, none, none, none⟩
    let statements : Bool → List Statement := fun other =>
      if other then [insert "2"] else [insert "1", wrong, insert "3"]
    Appends ⟨⟨db⟩, statements⟩ ∧ ∃ trace trace' c c', Run ⟨⟨db⟩, statements⟩ trace c ∧
      Run ⟨⟨db⟩, statements⟩ trace' c' ∧ trace.map Answered.client = [false, true, false, false] ∧
      trace'.map Answered.client = [true, false, false, false] ∧
      Option.Rel (fun t t' => t.columns = t'.columns ∧ t.primaryKey = t'.primaryKey ∧ t.rows.Perm t'.rows)
        (c.shared.database.table? "t") (c'.shared.database.table? "t") := by
  intro db t insert wrong statements
  have happends : Appends ⟨⟨db⟩, statements⟩ := by
    rintro (_ | _) <;> decide
  have hdone : ∀ pending : Bool → List Statement, pending false = [] → pending true = [] → ∀ i, pending i = [] := by
    rintro pending hfalse htrue (_ | _)
    · exact hfalse
    · exact htrue
  have hrun : Run ⟨⟨db⟩, statements⟩ _ _ :=
    .step (.mk (i := false) rfl) (.step (.mk (i := true) rfl) (.step (.mk (i := false) rfl)
      (.step (.mk (i := false) rfl) (.done (hdone _ rfl rfl)))))
  have hrun' : Run ⟨⟨db⟩, statements⟩ _ _ :=
    .step (.mk (i := true) rfl) (.step (.mk (i := false) rfl) (.step (.mk (i := false) rfl)
      (.step (.mk (i := false) rfl) (.done (hdone _ rfl rfl)))))
  exact ⟨happends, _, _, _, _, hrun, hrun', rfl, rfl, ((interleave happends).2 _ _ _ _ hrun hrun').2 "t"⟩

end Clients

end SqlStore
