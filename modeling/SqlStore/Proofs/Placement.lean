import SqlStore.Proofs.Execution
import SqlStore.Proofs.Script

/-!
# Statements in another place

Where its tokens stand means nothing to a statement. With other tokens of the same lexemes it is written by
those tokens (`Statement.Rendering.mapTokens`), and it answers and changes the same (`Database.execute_mapTokens`).
-/

namespace SqlStore

/-- The function moves tokens, but leaves what they say. -/
def KeepsLexemes (f : Token → Token) : Prop := ∀ t, (f t).lexeme = t.lexeme

/-! ## Other tokens -/

section

variable (f : Token → Token)

/-- The expression written by other tokens. -/
def Expr.mapTokens : Expr → Expr
  | .literal t => .literal (f t)
  | .binary l t r => .binary (mapTokens l) (f t) (mapTokens r)

def SelectItem.mapTokens : SelectItem → SelectItem
  | .allColumns => .allColumns
  | .expression e shownAs => .expression (e.mapTokens f) (shownAs.map f)

def Select.mapTokens (query : Select) : Select where
  items := query.items.map (·.mapTokens f)
  source := query.source.map f
  condition := query.condition.map (·.mapTokens f)
  limit := query.limit.map (·.mapTokens f)
  offset := query.offset.map (·.mapTokens f)

def ColumnDefinition.mapTokens (d : ColumnDefinition) : ColumnDefinition := ⟨f d.name, f d.type, d.primaryKey⟩

def Statement.mapTokens : Statement → Statement
  | .select query => .select (query.mapTokens f)
  | .insert table values => .insert (f table) (values.map (·.mapTokens f))
  | .create table columns => .create (f table) (columns.map (·.mapTokens f))
  | .drop table => .drop (f table)

end

variable {f : Token → Token} (hf : KeepsLexemes f)

include hf

theorem KeepsLexemes.kind (t : Token) : (f t).kind = t.kind := congrArg Lexeme.kind (hf t)

theorem KeepsLexemes.text (t : Token) : (f t).text = t.text := congrArg Lexeme.text (hf t)

/-! ## What they write -/

namespace Reading

variable {α : Type} {R : α → List Token → Prop} {g : α → α}

theorem OfKind.mapTokens {kind : TokenKind} {t : Token} {ts : List Token} (h : OfKind kind t ts) :
    OfKind kind (f t) (ts.map f) := by
  obtain ⟨rfl, ht⟩ := h
  exact ⟨rfl, (hf.kind t).trans ht⟩

section

variable (hR : ∀ {a : α} {ts : List Token}, R a ts → R (g a) (ts.map f))

include hR

theorem Clause.mapTokens {k : Keyword} {a : Option α} {ts : List Token} (h : Clause k R a ts) :
    Clause k R (a.map g) (ts.map f) := by
  cases h with
  | none => exact .none
  | some hword h => exact .some ((hf _).trans hword) (hR h)

theorem More.mapTokens {as : List α} {ts : List Token} (h : More R as ts) : More R (as.map g) (ts.map f) := by
  induction h with
  | nil => exact .nil
  | cons hcomma h _ ih =>
      rw [List.map_cons, List.map_cons, List.map_append]
      exact .cons ((hf _).trans hcomma) (hR h) ih

theorem Entries.mapTokens {as : List α} {ts : List Token} (h : Entries R as ts) :
    Entries R (as.map g) (ts.map f) := by
  cases h with
  | nil => exact .nil
  | cons h hs =>
      rw [List.map_cons, List.map_append]
      exact .cons (hR h) (hs.mapTokens hf hR)

end

end Reading

open Reading

theorem Expr.Rendering.mapTokens {floor : Nat} {e : Expr} {ts : List Token} (h : Rendering floor e ts) :
    Rendering floor (e.mapTokens f) (ts.map f) := by
  induction h with
  | literal ht => exact .literal ((hf.kind _).symm ▸ ht)
  | paren ho _ hc ih =>
      rw [List.map_cons, List.map_append]
      exact .paren ((hf _).trans ho) ih ((hf _).trans hc)
  | binary ht hfloor _ _ ihl ihr =>
      rw [List.map_append, List.map_cons]
      exact .binary ((hf _).trans ht) hfloor ihl ihr

namespace Statement

theorem RendersItem.mapTokens {item : SelectItem} {ts : List Token} (h : RendersItem item ts) :
    RendersItem (item.mapTokens f) (ts.map f) := by
  cases h with
  | allColumns ht => exact .allColumns ((hf _).trans ht)
  | expression he hname =>
      rw [List.map_append]
      exact .expression (he.mapTokens hf) (hname.mapTokens hf (·.mapTokens hf))

theorem RendersWindow.mapTokens {window : Option Expr × Option Expr} {ts : List Token}
    (h : RendersWindow window ts) :
    RendersWindow (window.1.map (·.mapTokens f), window.2.map (·.mapTokens f)) (ts.map f) := by
  cases h with
  | none => exact .none
  | limit hword he hoffset =>
      rw [List.map_cons, List.map_append]
      exact .limit ((hf _).trans hword) (he.mapTokens hf) (hoffset.mapTokens hf (·.mapTokens hf))
  | offset hword he hlimit =>
      rw [List.map_cons, List.map_append]
      exact .offset ((hf _).trans hword) (he.mapTokens hf) (hlimit.mapTokens hf (·.mapTokens hf))

theorem RendersSelect.mapTokens {query : Select} {ts : List Token} (h : RendersSelect query ts) :
    RendersSelect (query.mapTokens f) (ts.map f) := by
  cases h with
  | mk hitems hsource hcondition hwindow =>
      simp only [List.map_append]
      exact .mk (hitems.mapTokens hf (·.mapTokens hf)) (hsource.mapTokens hf (·.mapTokens hf))
        (hcondition.mapTokens hf (·.mapTokens hf)) (hwindow.mapTokens hf)

theorem RendersColumn.mapTokens {column : ColumnDefinition} {ts : List Token} (h : RendersColumn column ts) :
    RendersColumn (column.mapTokens f) (ts.map f) := by
  cases h with
  | plain hname htype => exact .plain ((hf.kind _).trans hname) ((hf.kind _).trans htype)
  | primaryKey hname htype hkey =>
      exact .primaryKey ((hf.kind _).trans hname) ((hf.kind _).trans htype) ((hf _).trans hkey)

theorem Rendering.mapTokens {statement : Statement} {ts : List Token} (h : Rendering statement ts) :
    Rendering (statement.mapTokens f) (ts.map f) := by
  cases h with
  | select hword h => exact .select ((hf _).trans hword) (h.mapTokens hf)
  | insert hword h =>
      refine .insert ((hf _).trans hword) ?_
      cases h with
      | mk hinto htable hvalues ho hs hc =>
          simp only [List.map_cons, List.map_append]
          exact .mk ((hf _).trans hinto) ((hf.kind _).trans htable) ((hf _).trans hvalues) ((hf _).trans ho)
            (hs.mapTokens hf (·.mapTokens hf)) ((hf _).trans hc)
  | create hword h =>
      refine .create ((hf _).trans hword) ?_
      cases h with
      | bare htable hname => exact .bare ((hf _).trans htable) ((hf.kind _).trans hname)
      | columns htable hname ho hs hc =>
          simp only [List.map_cons, List.map_append]
          exact .columns ((hf _).trans htable) ((hf.kind _).trans hname) ((hf _).trans ho)
            (hs.mapTokens hf (·.mapTokens hf)) ((hf _).trans hc)
  | drop hword h =>
      refine .drop ((hf _).trans hword) ?_
      cases h with
      | mk htable hname => exact .mk ((hf _).trans htable) ((hf.kind _).trans hname)

end Statement

namespace Script

theorem Semicolons.mapTokens {ts : List Token} (h : Semicolons ts) : Semicolons (ts.map f) := by
  intro t ht
  obtain ⟨u, hu, rfl⟩ := List.mem_map.1 ht
  exact (hf u).trans (h u hu)

theorem Rendering.mapTokens {script : Script} {ts : List Token} (h : Rendering script ts) :
    Rendering (script.map (·.mapTokens f)) (ts.map f) := by
  induction h with
  | nil => exact .nil
  | last h hs =>
      rw [List.map_append]
      exact .last (h.mapTokens hf) (hs.mapTokens hf)
  | cons h hs hne _ ih =>
      rw [List.map_append, List.map_append]
      exact .cons (h.mapTokens hf) (hs.mapTokens hf) (by simpa using hne) ih

end Script

/-! ## What they do -/

namespace Expr

variable (columns : Columns) (row : List Cell)

theorem evalToken_map (t : Token) : evalToken columns row (f t) = evalToken columns row t := by
  simp only [evalToken, hf.kind, hf.text, hf t]

theorem operator_map (t : Token) : operator (f t) = operator t := by
  simp only [operator, hf t]

theorem eval_mapTokens (e : Expr) : (e.mapTokens f).eval columns row = e.eval columns row := by
  induction e with
  | literal t => exact congrArg Logged.ofExcept (evalToken_map hf columns row t)
  | binary l t r ihl ihr => simp only [mapTokens, eval, ihl, ihr, operator_map hf]

theorem describe_mapTokens (e : Expr) : (e.mapTokens f).describe columns = e.describe columns := by
  induction e with
  | literal t => simp only [mapTokens, describe, describeToken, hf.kind, hf.text]
  | binary l t r ihl ihr => simp only [mapTokens, describe, ihl, ihr, operator_map hf]

end Expr

namespace Select

variable (query : Select) (columns : Columns)

/-- Whatever takes no notice of the places of tokens finds the same result columns. -/
theorem map_projections {β : Type} {g : Projection → β}
    (hg : ∀ (e : Expr) (shownAs : Option String), g ⟨e.mapTokens f, shownAs⟩ = g ⟨e, shownAs⟩) :
    ((query.mapTokens f).projections columns).map g = (query.projections columns).map g := by
  rw [projections, projections, mapTokens, List.flatMap_map, List.map_flatMap, List.map_flatMap]
  congr 1
  funext item
  cases item with
  | allColumns => rfl
  | expression e shownAs =>
      have hname : (shownAs.map f).map Token.text = shownAs.map Token.text := by
        cases shownAs with
        | none => rfl
        | some t => exact congrArg some (hf.text t)
      simp [SelectItem.mapTokens, SelectItem.expand, hname, hg]

theorem mapM_projections {m : Type → Type} [Monad m] [LawfulMonad m] {β : Type} {g : Projection → m β}
    (hg : ∀ (e : Expr) (shownAs : Option String), g ⟨e.mapTokens f, shownAs⟩ = g ⟨e, shownAs⟩) :
    ((query.mapTokens f).projections columns).mapM g = (query.projections columns).mapM g := by
  have hmap := map_projections hf query columns hg
  have hid : ∀ ps : List Projection, ps.mapM g = (ps.map g).mapM id := fun ps => by simp [List.mapM_map]
  rw [hid, hid, hmap]

theorem keeps_mapTokens (row : List Cell) : (query.mapTokens f).keeps columns row = query.keeps columns row := by
  unfold keeps mapTokens
  cases query.condition with
  | none => rfl
  | some e => simp only [Option.map_some, Expr.eval_mapTokens hf]

theorem scan_mapTokens (limit : Option Nat) (skip : Nat) (rows : List (List Cell)) :
    (query.mapTokens f).scan columns limit skip rows = query.scan columns limit skip rows := by
  have hproject : ∀ row, (query.mapTokens f).project columns row = query.project columns row := fun row =>
    mapM_projections hf query columns fun e shownAs => by simp only [Projection.eval, Expr.eval_mapTokens hf]; rfl
  induction rows generalizing limit skip with
  | nil => rfl
  | cons row rows ih =>
      unfold scan
      simp only [keeps_mapTokens hf, hproject, ih]

theorem count?_mapTokens (clause : CountClause) (e : Option Expr) :
    clause.count? (e.map (·.mapTokens f)) = clause.count? e := by
  cases e with
  | none => rfl
  | some e => simp only [Option.map_some, CountClause.count?, CountClause.count, Expr.eval_mapTokens hf]

theorem resultColumns_mapTokens (shown : List (List Evaluated)) :
    (query.mapTokens f).resultColumns columns shown = query.resultColumns columns shown := by
  cases shown with
  | nil =>
      exact mapM_projections hf query columns fun e shownAs => by
        simp only [Projection.describe, Expr.describe_mapTokens hf]; rfl
  | cons row shown => rfl

theorem run_mapTokens (table : Table) : (query.mapTokens f).run table = query.run table := by
  have hsource : (query.mapTokens f).source.map Token.text = query.source.map Token.text := by
    simp only [mapTokens, Option.map_map]
    exact congrArg (query.source.map ·) (funext hf.text)
  have hempty : (query.mapTokens f).items.isEmpty = query.items.isEmpty := by simp [mapTokens]
  have hlimit : CountClause.limit.count? (query.mapTokens f).limit = _ := count?_mapTokens hf .limit query.limit
  have hoffset : CountClause.offset.count? (query.mapTokens f).offset = _ := count?_mapTokens hf .offset query.offset
  simp only [run, hempty, hlimit, hoffset, scan_mapTokens hf, resultColumns_mapTokens hf, hsource]

end Select

namespace Table

theorem declaredType_map (t : Token) : declaredType (f t) = declaredType t := by
  simp only [declaredType, hf t, hf.text]

theorem define_mapTokens (table : Table) (i : Nat) (ds : List ColumnDefinition) :
    define table i (ds.map (·.mapTokens f)) = define table i ds := by
  induction ds generalizing table i with
  | nil => rfl
  | cons d ds ih =>
      simp only [List.map_cons, define, ih]
      simp only [ColumnDefinition.mapTokens, declaredType_map hf, hf.text]
      rfl

theorem result_storedRow_mapTokens (values : List Expr) :
    (storedRow (values.map (·.mapTokens f))).result = (storedRow values).result := by
  induction values with
  | nil => rfl
  | cons value values ih =>
      cases value with
      | literal t =>
          have hcell : storedCell (f t) = storedCell t := by simp only [storedCell, Expr.evalToken_map hf]
          simp only [List.map_cons, Expr.mapTokens, storedRow, Logged.result_bind, hcell, ih]
      | binary l t r =>
          simp only [List.map_cons, Expr.mapTokens, storedRow, Logged.result_bind, Logged.result_report, ih]

theorem insert_mapTokens (values : List Expr) (table : Table) :
    (insert (values.map (·.mapTokens f)) table).result = (insert values table).result ∧
      (insert (values.map (·.mapTokens f)) table).state = (insert values table).state := by
  by_cases hlength : values.length = table.columns.names.length
  · rw [insert_of_length hlength, insert_of_length (by rwa [List.length_map]), result_storedRow_mapTokens hf]
    cases (storedRow values).result <;> exact ⟨rfl, rfl⟩
  · rw [insert_of_length_ne hlength, insert_of_length_ne (by rwa [List.length_map]), List.length_map]
    exact ⟨rfl, rfl⟩

end Table

namespace Database

variable (db : Database)

theorem insert_mapTokens (name : String) (values : List Expr) :
    (insert name (values.map (·.mapTokens f)) db).result = (insert name values db).result ∧
      (insert name (values.map (·.mapTokens f)) db).state = (insert name values db).state := by
  cases htable : db.table? name with
  | none =>
      rw [insert_of_none htable, insert_of_none htable]
      exact ⟨rfl, rfl⟩
  | some table =>
      obtain ⟨hresult, hstate⟩ := insert_of_some htable values
      obtain ⟨hresult', hstate'⟩ := insert_of_some htable (values.map (·.mapTokens f))
      obtain ⟨hsame, hsame'⟩ := Table.insert_mapTokens hf values table
      exact ⟨hresult'.trans (hsame.trans hresult.symm), by rw [hstate', hsame', hstate]⟩

theorem execute_mapTokens (statement : Statement) :
    (db.execute (statement.mapTokens f)).result = (db.execute statement).result ∧
      (db.execute (statement.mapTokens f)).state = (db.execute statement).state := by
  cases statement with
  | select query =>
      have hsource : db.source (query.mapTokens f).source = db.source query.source := by
        simp only [Select.mapTokens]
        cases query.source with
        | none => rfl
        | some name => exact congrArg db.table (hf.text name)
      simp only [Statement.mapTokens, execute, select, hsource, Select.run_mapTokens hf, and_self]
  | insert table values =>
      obtain ⟨hresult, hstate⟩ := insert_mapTokens hf db table.text values
      simp only [Statement.mapTokens, execute, hf.text, Effect.map, hresult, hstate, and_self]
  | create table columns =>
      simp only [Statement.mapTokens, execute, hf.text, create, Table.ofDefinitions, Table.define_mapTokens hf,
        and_self]
  | drop table => simp only [Statement.mapTokens, execute, hf.text, and_self]

end Database

end SqlStore
