import SqlStore.Script
import SqlStore.Proofs.Datum
import SqlStore.Proofs.Token.Spelling

/-!
# Commands

Requests to create a table, to insert a row and to select columns, and the texts that write them: names in double
quotes, strings in single quotes, integers in decimal. A command's text spells its lexemes (`spells_scriptText`).
-/

namespace SqlStore

/-- A request in terms of names and data. -/
inductive Command
  | create (table : String) (columns : List Column)
  | insert (table : String) (row : List Datum)
  | select (table : String) (columns : List Column)

/-! ## Lexemes -/

def SqlType.keyword : SqlType → Keyword
  | .int => .int
  | .text => .text
  | .bool => .boolean

namespace Datum

/-- Integers are written without a sign. -/
def IsLiteral : Datum → Prop
  | .int (some n) => 0 ≤ n
  | _ => True

def lexeme : Datum → Lexeme
  | .int none | .text none => ⟨.null, "null"⟩
  | .int (some n) => ⟨.numeric, toString n.toInt⟩
  | .text (some s) => ⟨.string, s⟩
  | .bool true => ⟨.bool, "true"⟩
  | .bool false => ⟨.bool, "false"⟩

end Datum

/-- The lists with commas between them. -/
def commaSeparated (items : List (List Lexeme)) : List Lexeme := [.symbol .comma].intercalate items

namespace Command

def lexemes : Command → List Lexeme
  | .create table columns =>
      [.keyword .create, .keyword .table, .identifier table, .symbol .leftParen] ++
        (commaSeparated (columns.map fun c => [.identifier c.name, .keyword c.type.keyword]) ++ [.symbol .rightParen])
  | .insert table row =>
      [.keyword .insert, .keyword .into, .identifier table, .keyword .values, .symbol .leftParen] ++
        (commaSeparated (row.map fun d => [d.lexeme]) ++ [.symbol .rightParen])
  | .select table columns =>
      .keyword .select :: (commaSeparated (columns.map fun c => [.identifier c.name]) ++
        [.keyword .fromWord, .identifier table])

/-- The lexemes of some commands, with a semicolon after each. -/
def scriptLexemes (commands : List Command) : List Lexeme :=
  commands.flatMap fun command => command.lexemes ++ [.symbol .semicolon]

/-! ## Texts -/

/-- The name in double quotes, its own double quotes doubled. -/
def nameText (name : String) : String := String.ofList (Text.Quoted.write '"' name.toList)

/-- The datum as a literal: `null`, decimal digits, or a text in single quotes, its own single quotes doubled. -/
def datumText : Datum → String
  | .int none | .text none => "null"
  | .int (some n) => toString n.toInt
  | .text (some s) => String.ofList (Text.Quoted.write '\'' s.toList)
  | .bool true => "true"
  | .bool false => "false"

def typeText : SqlType → String
  | .int => "INT"
  | .text => "TEXT"
  | .bool => "BOOLEAN"

def createText (table : String) (columns : List Column) : String :=
  let columnText (c : Column) := nameText c.name ++ " " ++ typeText c.type
  String.join ["CREATE TABLE ", nameText table, " (", ", ".intercalate (columns.map columnText), ")"]

def insertText (table : String) (row : List Datum) : String :=
  String.join ["INSERT INTO ", nameText table, " VALUES (", ", ".intercalate (row.map datumText), ")"]

def selectText (table : String) (columns : List Column) : String :=
  String.join ["SELECT ", ", ".intercalate (columns.map fun c => nameText c.name), " FROM ", nameText table]

def text : Command → String
  | .create table columns => createText table columns
  | .insert table row => insertText table row
  | .select table columns => selectText table columns

/-- The commands as a source text, one a line. -/
def scriptText (commands : List Command) : String :=
  String.join (commands.map fun command => command.text ++ ";\n")

example : scriptText [.create "t" [⟨"a", .int⟩, ⟨"\"", .text⟩], .insert "t" [.int (some 7), .text (some "it's")]] =
    "CREATE TABLE \"t\" (\"a\" INT, \"\"\"\" TEXT);\nINSERT INTO \"t\" VALUES (7, 'it''s');\n" := by
  decide

/-- The names are not empty, and the data are literals. -/
def WellFormed : Command → Prop
  | .create table columns | .select table columns => table ≠ "" ∧ ∀ c ∈ columns, c.name ≠ ""
  | .insert table row => table ≠ "" ∧ ∀ d ∈ row, d.IsLiteral

/-! ## Spelling -/

variable {ls : List Lexeme} {cs : List Char}

/-- The text spells the lexemes, and a word can stand before it. -/
structure Follows (ls : List Lexeme) (cs : List Char) : Prop where
  delimited : Delimited cs
  spells : Spells ls cs

theorem follows_separator {c : Char} (hc : c ∈ delimiters) (hc' : Scan.isSeparator c = true) (h : Spells ls cs) :
    Follows ls (c :: cs) where
  delimited := delimited_cons hc cs
  spells := .separator hc' h

theorem follows_blank (h : Spells ls cs) : Follows ls (' ' :: cs) := follows_separator (by decide) rfl h

theorem follows_punctuation {s : Symbol} (hs : s ∈ Symbol.punctuation) (h : Spells ls cs) :
    Follows (.symbol s :: ls) (s.spelling.toList ++ cs) where
  delimited := by
    obtain ⟨c, hc, hdelimiter, -⟩ := Symbol.exists_of_mem_punctuation hs
    rw [hc]
    exact delimited_cons hdelimiter cs
  spells := .punctuation hs h

theorem spells_keyword (k : Keyword) (w : List Char) (hw : w.map Char.toLower = k.spelling.toList)
    (hk : k.kind = .keyword) (h : Follows ls cs) : Spells (.keyword k :: ls) (w ++ cs) := by
  have hword := Spells.word (.keyword hw) h.delimited h.spells
  rwa [hk] at hword

theorem spells_name {name : String} (hname : name ≠ "") (h : Follows ls cs) :
    Spells (.identifier name :: ls) ((nameText name).toList ++ cs) := by
  rw [nameText, String.toList_ofList]
  exact .word (.identifier hname) h.delimited h.spells

theorem word_datum {d : Datum} (hd : d.IsLiteral) : d.lexeme.Word (datumText d).toList := by
  cases d with
  | int n =>
      cases n with
      | none => exact .keyword (k := .null) rfl
      | some n =>
          have hdigits := Text.Numeral.toList_toString_of_nonneg hd
          have hword : Lexeme.Word ⟨.numeric, String.ofList (toString n.toInt).toList⟩ (toString n.toInt).toList := by
            rw [hdigits]
            exact .numeral Nat.toDigits_ne_nil (Text.Numeral.digits_toDigits _)
          rwa [String.ofList_toList] at hword
  | text s =>
      cases s with
      | none => exact .keyword (k := .null) rfl
      | some s =>
          rw [datumText, String.toList_ofList]
          exact .string s
  | bool b =>
      cases b with
      | true => exact .keyword (k := .true) rfl
      | false => exact .keyword (k := .false) rfl

theorem spells_datum {d : Datum} (hd : d.IsLiteral) (h : Follows ls cs) :
    Spells (d.lexeme :: ls) ((datumText d).toList ++ cs) :=
  .word (word_datum hd) h.delimited h.spells

theorem spells_commaSeparated {α : Type} {lexemes : α → List Lexeme} {text : α → String} {as : List α}
    (hitem : ∀ a ∈ as, ∀ ls cs, Follows ls cs → Spells (lexemes a ++ ls) ((text a).toList ++ cs))
    (h : Follows ls cs) :
    Spells (commaSeparated (as.map lexemes) ++ ls) ((", ".intercalate (as.map text)).toList ++ cs) := by
  rw [commaSeparated, String.toList_intercalate, List.map_map]
  induction as with
  | nil => exact h.spells
  | cons a as ih =>
      have ih := ih fun b hb => hitem b (List.mem_cons_of_mem _ hb)
      have ha := hitem a List.mem_cons_self
      cases as with
      | nil =>
          simp only [List.map_cons, List.map_nil, List.intercalate_singleton]
          exact ha _ _ h
      | cons b as =>
          have hcomma := follows_punctuation (s := .comma) (by decide) (follows_blank ih).spells
          simp only [List.map_cons, List.intercalate_cons_cons, List.append_assoc] at hcomma ⊢
          exact ha _ _ hcomma

theorem spells_columnText {c : Column} (hname : c.name ≠ "") (h : Follows ls cs) :
    Spells ([.identifier c.name, .keyword c.type.keyword] ++ ls)
      ((nameText c.name ++ " " ++ typeText c.type).toList ++ cs) := by
  have htype : Spells (.keyword c.type.keyword :: ls) ((typeText c.type).toList ++ cs) := by
    cases c.type <;> exact spells_keyword _ _ rfl rfl h
  rw [String.toList_append, String.toList_append, List.append_assoc, List.append_assoc]
  exact spells_name hname (follows_blank htype)

theorem spells_createText {name : String} {columns : List Column} (hname : name ≠ "")
    (hcolumns : ∀ c ∈ columns, c.name ≠ "") (h : Spells ls cs) :
    Spells ((create name columns).lexemes ++ ls) ((createText name columns).toList ++ cs) := by
  have hclose := follows_punctuation (s := .rightParen) (by decide) h
  have hitems := spells_commaSeparated (fun c hc ls cs => spells_columnText (hcolumns c hc)) hclose
  have hopen := follows_punctuation (s := .leftParen) (by decide) hitems
  have htable := spells_name hname (follows_blank hopen.spells)
  have hword := spells_keyword .table "TABLE".toList rfl rfl (follows_blank htable)
  have hcreate := spells_keyword .create "CREATE".toList rfl rfl (follows_blank hword)
  simp only [String.reduceToList, List.cons_append, List.nil_append] at hcreate
  simp only [createText, lexemes, String.toList_join, List.flatMap_cons, List.flatMap_nil, String.reduceToList,
    List.append_assoc, List.cons_append, List.nil_append]
  exact hcreate

theorem spells_insertText {name : String} {row : List Datum} (hname : name ≠ "") (hrow : ∀ d ∈ row, d.IsLiteral)
    (h : Spells ls cs) : Spells ((insert name row).lexemes ++ ls) ((insertText name row).toList ++ cs) := by
  have hclose := follows_punctuation (s := .rightParen) (by decide) h
  have hvalue : ∀ d ∈ row, ∀ ls cs, Follows ls cs → Spells ([d.lexeme] ++ ls) ((datumText d).toList ++ cs) :=
    fun d hd ls cs h => spells_datum (hrow d hd) h
  have hitems := spells_commaSeparated hvalue hclose
  have hopen := follows_punctuation (s := .leftParen) (by decide) hitems
  have hvalues := spells_keyword .values "VALUES".toList rfl rfl (follows_blank hopen.spells)
  have htable := spells_name hname (follows_blank hvalues)
  have hword := spells_keyword .into "INTO".toList rfl rfl (follows_blank htable)
  have hinsert := spells_keyword .insert "INSERT".toList rfl rfl (follows_blank hword)
  simp only [String.reduceToList, List.cons_append, List.nil_append] at hinsert
  simp only [insertText, lexemes, String.toList_join, List.flatMap_cons, List.flatMap_nil, String.reduceToList,
    List.append_assoc, List.cons_append, List.nil_append]
  exact hinsert

theorem spells_selectText {name : String} {columns : List Column} (hname : name ≠ "")
    (hcolumns : ∀ c ∈ columns, c.name ≠ "") (h : Follows ls cs) :
    Spells ((select name columns).lexemes ++ ls) ((selectText name columns).toList ++ cs) := by
  have htable := spells_name hname h
  have hword := spells_keyword .fromWord "FROM".toList rfl rfl (follows_blank htable)
  have hitem : ∀ c ∈ columns, ∀ ls cs, Follows ls cs →
      Spells ([.identifier c.name] ++ ls) ((nameText c.name).toList ++ cs) :=
    fun c hc ls cs h => spells_name (hcolumns c hc) h
  have hitems := spells_commaSeparated hitem (follows_blank hword)
  have hselect := spells_keyword .select "SELECT".toList rfl rfl (follows_blank hitems)
  simp only [String.reduceToList, List.cons_append, List.nil_append] at hselect
  simp only [selectText, lexemes, String.toList_join, List.flatMap_cons, List.flatMap_nil, String.reduceToList,
    List.append_assoc, List.cons_append, List.nil_append]
  exact hselect

theorem spells_text {command : Command} (hwell : command.WellFormed) (h : Follows ls cs) :
    Spells (command.lexemes ++ ls) (command.text.toList ++ cs) := by
  cases command with
  | create name columns => exact spells_createText hwell.1 hwell.2 h.spells
  | insert name row => exact spells_insertText hwell.1 hwell.2 h.spells
  | select name columns => exact spells_selectText hwell.1 hwell.2 h

theorem spells_scriptText {commands : List Command} (hwell : ∀ command ∈ commands, command.WellFormed) :
    Spells (scriptLexemes commands) (scriptText commands).toList := by
  rw [scriptText, String.toList_join]
  induction commands with
  | nil => exact .nil
  | cons command commands ih =>
      have hrest := ih fun c hc => hwell c (List.mem_cons_of_mem _ hc)
      have hline := follows_separator (c := '\n') (by decide) rfl hrest
      have hend := follows_punctuation (s := .semicolon) (by decide) hline.spells
      have htext := spells_text (hwell command List.mem_cons_self) hend
      simp only [scriptLexemes, List.map_cons, List.flatMap_cons, String.toList_append, String.reduceToList,
        List.append_assoc, List.cons_append, List.nil_append]
      exact htext

end Command

end SqlStore
