import SqlStore.Proofs.Command.Basic
import SqlStore.Proofs.Script

/-!
# Reading commands

The text of some commands is read as one statement for each of them, which says the same in tokens
(`ofSource_scriptText`).
-/

namespace SqlStore

open Reading

/-! ## What a statement says -/

/-- The definition has the name and the type of the column, and is no primary key. -/
def ColumnDefinition.Declares (d : ColumnDefinition) (c : Column) : Prop :=
  d.name.text = c.name ∧ d.type.lexeme = .keyword c.type.keyword ∧ d.primaryKey = false

/-- The expression is the literal of the datum. -/
def Expr.Writes (e : Expr) (d : Datum) : Prop := ∃ t, e = .literal t ∧ t.lexeme = d.lexeme

/-- The item is the name of the column by itself. -/
def SelectItem.Names (item : SelectItem) (c : Column) : Prop :=
  ∃ t, item = .expression (.literal t) none ∧ t.lexeme = .identifier c.name

/-- The items of a table, without a condition. -/
def Select.ofItems (items : List SelectItem) (table : Token) : Select := ⟨items, some table, none, none, none⟩

namespace Command

/-- The statement says what the command says. -/
inductive Means : Statement → Command → Prop
  | create {table : Token} {definitions : List ColumnDefinition} {columns : List Column}
      (h : List.Forall₂ ColumnDefinition.Declares definitions columns) :
      Means (.create table definitions) (.create table.text columns)
  | insert {table : Token} {values : List Expr} {row : List Datum} (h : List.Forall₂ Expr.Writes values row) :
      Means (.insert table values) (.insert table.text row)
  | select {table : Token} {items : List SelectItem} {columns : List Column}
      (h : List.Forall₂ SelectItem.Names items columns) :
      Means (.select (.ofItems items table)) (.select table.text columns)

/-! ## Lists between commas -/

theorem commaSeparated_cons (x : List Lexeme) (xs : List (List Lexeme)) :
    commaSeparated (x :: xs) = x ++ xs.flatMap (.symbol .comma :: ·) := by
  induction xs generalizing x with
  | nil => simp [commaSeparated]
  | cons y ys ih =>
      have ih := ih y
      rw [commaSeparated] at ih ⊢
      rw [List.intercalate_cons_cons, ih, List.flatMap_cons, List.cons_append]
      simp

section

variable {α β : Type} {R : β → List Token → Prop} {P : β → α → Prop} {lexemes : α → List Lexeme} {as : List α}
  {ts : List Token}

theorem exists_more (hitem : ∀ a ∈ as, ∀ ts, ts.map Token.lexeme = lexemes a → ∃ b, R b ts ∧ P b a)
    (hts : ts.map Token.lexeme = (as.map lexemes).flatMap (.symbol .comma :: ·)) :
    ∃ bs, More R bs ts ∧ List.Forall₂ P bs as := by
  induction as generalizing ts with
  | nil =>
      obtain rfl := List.map_eq_nil_iff.1 hts
      exact ⟨[], .nil, .nil⟩
  | cons a as ih =>
      rw [List.map_cons, List.flatMap_cons] at hts
      obtain ⟨us, vs, rfl, hus, hvs⟩ := List.map_eq_append_iff.1 hts
      obtain ⟨comma, us, rfl, hcomma, hus⟩ := List.map_eq_cons_iff.1 hus
      obtain ⟨b, hb, hba⟩ := hitem a List.mem_cons_self us hus
      obtain ⟨bs, hbs, hbas⟩ := ih (fun a ha => hitem a (List.mem_cons_of_mem _ ha)) hvs
      exact ⟨b :: bs, .cons hcomma hb hbs, .cons hba hbas⟩

theorem exists_entries (hitem : ∀ a ∈ as, ∀ ts, ts.map Token.lexeme = lexemes a → ∃ b, R b ts ∧ P b a)
    (hts : ts.map Token.lexeme = commaSeparated (as.map lexemes)) :
    ∃ bs, Entries R bs ts ∧ List.Forall₂ P bs as := by
  cases as with
  | nil =>
      obtain rfl := List.map_eq_nil_iff.1 hts
      exact ⟨[], .nil, .nil⟩
  | cons a as =>
      rw [List.map_cons, commaSeparated_cons] at hts
      obtain ⟨us, vs, rfl, hus, hvs⟩ := List.map_eq_append_iff.1 hts
      obtain ⟨b, hb, hba⟩ := hitem a List.mem_cons_self us hus
      obtain ⟨bs, hbs, hbas⟩ := exists_more (fun a ha => hitem a (List.mem_cons_of_mem _ ha)) hvs
      exact ⟨b :: bs, .cons hb hbs, .cons hba hbas⟩

end

/-! ## Statements -/

theorem exists_token {l : Lexeme} {ts : List Token} (hts : ts.map Token.lexeme = [l]) :
    ∃ t, ts = [t] ∧ t.lexeme = l := by
  obtain ⟨t, us, rfl, ht, hus⟩ := List.map_eq_cons_iff.1 hts
  obtain rfl := List.map_eq_nil_iff.1 hus
  exact ⟨t, rfl, ht⟩

theorem identifier_of_lexeme {t : Token} {name : String} (ht : t.lexeme = .identifier name) :
    t.kind = .identifier ∧ t.text = name := by
  rw [Token.kind, Token.text, ht]
  exact ⟨rfl, rfl⟩

theorem exists_literal {l : Lexeme} (hl : l.kind.isOperand = true) {ts : List Token}
    (hts : ts.map Token.lexeme = [l]) : ∃ t, Expr.Rendering 0 (.literal t) ts ∧ t.lexeme = l := by
  obtain ⟨t, rfl, ht⟩ := exists_token hts
  exact ⟨t, .literal (by rw [Token.kind, ht, hl]), ht⟩

theorem exists_definition (c : Column) {ts : List Token}
    (hts : ts.map Token.lexeme = [.identifier c.name, .keyword c.type.keyword]) :
    ∃ d, Statement.RendersColumn d ts ∧ d.Declares c := by
  obtain ⟨name, us, rfl, hname, hus⟩ := List.map_eq_cons_iff.1 hts
  obtain ⟨type, rfl, htype⟩ := exists_token hus
  obtain ⟨hkind, hname⟩ := identifier_of_lexeme hname
  have hkeyword : type.kind = .keyword := by
    rw [Token.kind, htype]
    rfl
  exact ⟨⟨name, type, false⟩, .plain hkind hkeyword, hname, htype, rfl⟩

theorem exists_value (d : Datum) {ts : List Token} (hts : ts.map Token.lexeme = [d.lexeme]) :
    ∃ e, Expr.Rendering 0 e ts ∧ e.Writes d := by
  have hoperand : d.lexeme.kind.isOperand = true := by
    rcases d with (_ | n) | (_ | s) | (_ | _) <;> rfl
  obtain ⟨t, ht, hlexeme⟩ := exists_literal hoperand hts
  exact ⟨_, ht, t, rfl, hlexeme⟩

theorem exists_item (c : Column) {ts : List Token} (hts : ts.map Token.lexeme = [.identifier c.name]) :
    ∃ item, Statement.RendersItem item ts ∧ item.Names c := by
  obtain ⟨t, ht, hlexeme⟩ := exists_literal rfl hts
  have hitem := Statement.RendersItem.expression ht .none
  rw [List.append_nil] at hitem
  exact ⟨_, hitem, t, rfl, hlexeme⟩

theorem exists_statement (command : Command) {ts : List Token} (hts : ts.map Token.lexeme = command.lexemes) :
    ∃ statement, Statement.Rendering statement ts ∧ Means statement command := by
  cases command with
  | create name columns =>
      simp only [lexemes, List.cons_append, List.nil_append] at hts
      obtain ⟨create, us, rfl, hcreate, hus⟩ := List.map_eq_cons_iff.1 hts
      obtain ⟨word, vs, rfl, hword, hvs⟩ := List.map_eq_cons_iff.1 hus
      obtain ⟨table, ws, rfl, htable, hws⟩ := List.map_eq_cons_iff.1 hvs
      obtain ⟨opening, xs, rfl, hopening, hxs⟩ := List.map_eq_cons_iff.1 hws
      obtain ⟨ys, zs, rfl, hys, hzs⟩ := List.map_eq_append_iff.1 hxs
      obtain ⟨closing, rfl, hclosing⟩ := exists_token hzs
      obtain ⟨definitions, hentries, hdeclares⟩ := exists_entries (fun c _ ts hts => exists_definition c hts) hys
      obtain ⟨hkind, rfl⟩ := identifier_of_lexeme htable
      exact ⟨_, .create hcreate (.columns hword hkind hopening hentries hclosing), .create hdeclares⟩
  | insert name row =>
      simp only [lexemes, List.cons_append, List.nil_append] at hts
      obtain ⟨insert, us, rfl, hinsert, hus⟩ := List.map_eq_cons_iff.1 hts
      obtain ⟨into, vs, rfl, hinto, hvs⟩ := List.map_eq_cons_iff.1 hus
      obtain ⟨table, ws, rfl, htable, hws⟩ := List.map_eq_cons_iff.1 hvs
      obtain ⟨word, xs, rfl, hword, hxs⟩ := List.map_eq_cons_iff.1 hws
      obtain ⟨opening, ys, rfl, hopening, hys⟩ := List.map_eq_cons_iff.1 hxs
      obtain ⟨zs, rs, rfl, hzs, hrs⟩ := List.map_eq_append_iff.1 hys
      obtain ⟨closing, rfl, hclosing⟩ := exists_token hrs
      obtain ⟨values, hentries, hwrites⟩ := exists_entries (fun d _ ts hts => exists_value d hts) hzs
      obtain ⟨hkind, rfl⟩ := identifier_of_lexeme htable
      exact ⟨_, .insert hinsert (.mk hinto hkind hword hopening hentries hclosing), .insert hwrites⟩
  | select name columns =>
      obtain ⟨select, us, rfl, hselect, hus⟩ := List.map_eq_cons_iff.1 hts
      obtain ⟨vs, ws, rfl, hvs, hws⟩ := List.map_eq_append_iff.1 hus
      obtain ⟨word, xs, rfl, hword, hxs⟩ := List.map_eq_cons_iff.1 hws
      obtain ⟨table, rfl, htable⟩ := exists_token hxs
      obtain ⟨items, hentries, hnames⟩ := exists_entries (fun c _ ts hts => exists_item c hts) hvs
      obtain ⟨hkind, rfl⟩ := identifier_of_lexeme htable
      have hquery := Statement.RendersSelect.mk hentries (.some hword ⟨rfl, hkind⟩) .none .none
      exact ⟨_, .select hselect hquery, .select hnames⟩

theorem exists_script (commands : List Command) {ts : List Token}
    (hts : ts.map Token.lexeme = scriptLexemes commands) :
    ∃ script, Script.Rendering script ts ∧ List.Forall₂ Means script commands := by
  induction commands generalizing ts with
  | nil =>
      obtain rfl := List.map_eq_nil_iff.1 hts
      exact ⟨[], .nil, .nil⟩
  | cons command commands ih =>
      rw [scriptLexemes, List.flatMap_cons, List.append_assoc] at hts
      obtain ⟨us, vs, rfl, hus, hvs⟩ := List.map_eq_append_iff.1 hts
      obtain ⟨semicolon, ws, rfl, hsemicolon, hws⟩ := List.map_eq_cons_iff.1 hvs
      obtain ⟨statement, hstatement, hmeans⟩ := exists_statement command hus
      obtain ⟨script, hscript, hall⟩ := ih hws
      have hsemicolons : Script.Semicolons [semicolon] := by
        intro t ht
        rw [List.mem_singleton.1 ht, hsemicolon]
      exact ⟨statement :: script, hscript.prepend hstatement hsemicolons (List.cons_ne_nil _ _), .cons hmeans hall⟩

/-- The text of well-formed commands is a script of statements that say the same. -/
theorem ofSource_scriptText {commands : List Command} (hwell : ∀ command ∈ commands, command.WellFormed) :
    ∃ script, Script.ofSource (scriptText commands) = .ok script ∧ List.Forall₂ Means script commands := by
  obtain ⟨ts, hsource, hts⟩ := (spells_scriptText hwell).ofSource
  obtain ⟨script, hscript, hmeans⟩ := exists_script commands hts
  exact ⟨script, Script.ofSource_eq_ok_iff.2 ⟨ts, hsource, hscript⟩, hmeans⟩

end Command

end SqlStore
