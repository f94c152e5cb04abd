import SqlStore.Statement.Basic
import SqlStore.Proofs.Expr.Rendering
import SqlStore.Proofs.Reading

/-!
# Statements and scripts as token lists

The grammar: which tokens write which statement, production by production. The names, kinds, flags, items and
expressions of the statement are the ones its tokens write, in their order.
-/

namespace SqlStore

namespace Statement

open Reading

/-- `* | expr [AS ident]`. -/
inductive RendersItem : SelectItem → List Token → Prop
  | allColumns {t : Token} (ht : t.lexeme = .symbol .asterisk) : RendersItem .allColumns [t]
  | expression {e : Expr} {shownAs : Option Token} {ts us : List Token} (he : Expr.Rendering 0 e ts)
      (hname : Clause .asWord (OfKind .identifier) shownAs us) :
      RendersItem (.expression e shownAs) (ts ++ us)

/-- `[LIMIT expr [OFFSET expr] | OFFSET expr [LIMIT expr]]`. -/
inductive RendersWindow : Option Expr × Option Expr → List Token → Prop
  | none : RendersWindow (none, none) []
  | limit {word : Token} {e : Expr} {offset : Option Expr} {ts us : List Token}
      (hword : word.lexeme = .keyword .limit) (he : Expr.Rendering 0 e ts)
      (hoffset : Clause .offset (Expr.Rendering 0) offset us) :
      RendersWindow (some e, offset) (word :: (ts ++ us))
  | offset {word : Token} {e : Expr} {limit : Option Expr} {ts us : List Token}
      (hword : word.lexeme = .keyword .offset) (he : Expr.Rendering 0 e ts)
      (hlimit : Clause .limit (Expr.Rendering 0) limit us) :
      RendersWindow (limit, some e) (word :: (ts ++ us))

/-- `[item (, item)*] [FROM ident] [WHERE expr]`, then LIMIT and OFFSET. -/
inductive RendersSelect : Select → List Token → Prop
  | mk {items : List SelectItem} {source : Option Token} {condition limit offset : Option Expr}
      {is fs cs ws : List Token} (hitems : Entries RendersItem items is)
      (hsource : Clause .fromWord (OfKind .identifier) source fs)
      (hcondition : Clause .whereWord (Expr.Rendering 0) condition cs)
      (hwindow : RendersWindow (limit, offset) ws) :
      RendersSelect ⟨items, source, condition, limit, offset⟩ (is ++ (fs ++ (cs ++ ws)))

/-- `INTO ident VALUES ( [expr (, expr)*] )`. -/
inductive RendersInsert : Token × List Expr → List Token → Prop
  | mk {into table word opening closing : Token} {values : List Expr} {vs : List Token}
      (hinto : into.lexeme = .keyword .into) (htable : table.kind = .identifier)
      (hword : word.lexeme = .keyword .values) (ho : opening.lexeme = .symbol .leftParen)
      (hvalues : Entries (Expr.Rendering 0) values vs) (hc : closing.lexeme = .symbol .rightParen) :
      RendersInsert (table, values) (into :: table :: word :: opening :: (vs ++ [closing]))

/-- `ident keyword [PRIMARY KEY]`. -/
inductive RendersColumn : ColumnDefinition → List Token → Prop
  | plain {name type : Token} (hname : name.kind = .identifier) (htype : type.kind = .keyword) :
      RendersColumn ⟨name, type, false⟩ [name, type]
  | primaryKey {name type key : Token} (hname : name.kind = .identifier) (htype : type.kind = .keyword)
      (hkey : key.lexeme = .keyword .primaryKey) : RendersColumn ⟨name, type, true⟩ [name, type, key]

/-- `TABLE ident [ ( [column (, column)*] ) ]`. -/
inductive RendersCreate : Token × List ColumnDefinition → List Token → Prop
  | bare {word table : Token} (hword : word.lexeme = .keyword .table) (htable : table.kind = .identifier) :
      RendersCreate (table, []) [word, table]
  | columns {word table opening closing : Token} {columns : List ColumnDefinition} {cs : List Token}
      (hword : word.lexeme = .keyword .table) (htable : table.kind = .identifier)
      (ho : opening.lexeme = .symbol .leftParen) (hcolumns : Entries RendersColumn columns cs)
      (hc : closing.lexeme = .symbol .rightParen) :
      RendersCreate (table, columns) (word :: table :: opening :: (cs ++ [closing]))

/-- `TABLE ident`. -/
inductive RendersDrop : Token → List Token → Prop
  | mk {word table : Token} (hword : word.lexeme = .keyword .table) (htable : table.kind = .identifier) :
      RendersDrop table [word, table]

/-- The tokens write the statement. -/
inductive Rendering : Statement → List Token → Prop
  | select {word : Token} {query : Select} {ts : List Token} (hword : word.lexeme = .keyword .select)
      (h : RendersSelect query ts) : Rendering (.select query) (word :: ts)
  | insert {word table : Token} {values : List Expr} {ts : List Token} (hword : word.lexeme = .keyword .insert)
      (h : RendersInsert (table, values) ts) : Rendering (.insert table values) (word :: ts)
  | create {word table : Token} {columns : List ColumnDefinition} {ts : List Token}
      (hword : word.lexeme = .keyword .create) (h : RendersCreate (table, columns) ts) :
      Rendering (.create table columns) (word :: ts)
  | drop {word table : Token} {ts : List Token} (hword : word.lexeme = .keyword .drop)
      (h : RendersDrop table ts) : Rendering (.drop table) (word :: ts)

theorem Rendering.head {statement : Statement} {ts : List Token} (h : Rendering statement ts) :
    ∃ t us, ts = t :: us ∧ t.kind = .keyword := by
  cases h with
  | select hword _ | insert hword _ | create hword _ | drop hword _ =>
      exact ⟨_, _, rfl, by rw [Token.kind, hword]; rfl⟩

end Statement

namespace Script

def Semicolons (ts : List Token) : Prop := ∀ t ∈ ts, t.lexeme = .symbol .semicolon

/-- `empty | stmt (;+ stmt)* ;*`: the tokens write the statements in their order. -/
inductive Rendering : Script → List Token → Prop
  | nil : Rendering [] []
  | last {statement : Statement} {ts ss : List Token} (h : Statement.Rendering statement ts)
      (hs : Semicolons ss) : Rendering [statement] (ts ++ ss)
  | cons {statement next : Statement} {script : Script} {ts ss us : List Token}
      (h : Statement.Rendering statement ts) (hs : Semicolons ss) (hne : ss ≠ [])
      (hrest : Rendering (next :: script) us) : Rendering (statement :: next :: script) (ts ++ (ss ++ us))

end Script

end SqlStore
