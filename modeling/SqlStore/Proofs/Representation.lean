import SqlStore.Proofs.InBounds
import SqlStore.Proofs.Script
import SqlStore.Proofs.Storage
import SqlStore.Proofs.Token.Relex

/-!
# What tables are made of

A table that source texts have made has the columns and the primary key of its definitions, with a type for each name,
and a row for each insertion since (`Database.madeOf_runAll`). Cells take one of four forms. An integer in a cell is not
negative, since a numeral has no sign.
-/

namespace SqlStore

open Reading

/-! ## Cells -/

/-- No value, a number below 2³¹ in four bytes with the highest first, a text in UTF-8, or the byte 1. -/
inductive Cell.Storable : Cell → Prop
  | noValue : Storable ⟨none⟩
  | natural {bytes : List UInt8} {n : Nat} (hlength : bytes.length = 4)
      (hvalue : bytes.foldl (fun k b => 256 * k + b.toNat) 0 = n) (hn : n ≤ 2147483647) : Storable ⟨some bytes⟩
  | text (s : String) : Storable ⟨some (s.toList.flatMap String.utf8EncodeChar)⟩
  | one : Storable ⟨some [1]⟩

theorem Cell.foldl_bigEndian (n : UInt32) :
    (bigEndian n).foldl (fun k b => 256 * k + b.toNat) 0 = n.toNat := by
  have := n.toNat_lt
  simp only [bigEndian, List.foldl_cons, List.foldl_nil, UInt8.toNat_ofNat']
  omega

theorem Cell.storable_ofInt {n : Int32} (h : 0 ≤ n) : Storable (ofInt n) := by
  have hn : n.toUInt32.toNat ≤ 2147483647 := by
    rw [Int32.toNat_toUInt32_of_le h]
    have := Int32.toInt_lt n
    rw [Int32.toNatClampNeg]
    omega
  exact .natural rfl (foldl_bigEndian _) hn

/-- A lexeme that a source text can have stands for nothing else. -/
theorem Lexeme.WrittenAs.storable {l : Lexeme} {w : List Char} {d : Datum} (h : l.WrittenAs w) (hd : l.Denotes d) :
    d.toCell.Storable := by
  cases hd with
  | numeral hn =>
      generalize hl : (⟨.numeric, _⟩ : Lexeme) = l at h
      cases h with
      | numeral hform =>
          cases hl
          rw [String.toList_ofList] at hn
          exact Cell.storable_ofInt (hform.nonneg_of_int32? hn)
      | @reserved k => cases k <;> cases hl
      | symbol | string | quotedName | bareName => cases hl
  | string text => exact .text text
  | bool text =>
      cases text == "true" with
      | true => exact .one
      | false => exact .noValue
  | nullInt | nullText => exact .noValue

/-! ## Tables -/

namespace Table

/-- The type that a definition asks for. -/
def Declared (d : ColumnDefinition) (type : SqlType) : Prop :=
  d.type.lexeme = .keyword .int ∧ type = .int ∨ d.type.lexeme = .keyword .text ∧ type = .text

/-- The place of the last definition with a primary key. -/
def LastKey (definitions : List ColumnDefinition) (i : Nat) : Prop :=
  ∃ before d after, definitions = before ++ d :: after ∧ before.length = i ∧ d.primaryKey = true ∧
    ∀ later ∈ after, later.primaryKey = false

/-- What a row lacks is as many cells as there are operations among the values. -/
def Lacks (columns : Columns) (values : List Expr) (row : List Cell) : Prop :=
  row.length ≤ columns.names.length ∧
    columns.names.length - row.length = values.countP fun value => value.literal?.isNone

/-- The table has the columns and the key of the definitions, and a row of storable cells for each insertion. -/
structure MadeOf (definitions : List ColumnDefinition) (inserted : List (List Expr)) (table : Table) : Prop where
  names : table.columns.names = definitions.map (·.name.text)
  types : List.Forall₂ Declared definitions table.columns.types
  primaryKey : ∀ i, table.primaryKey = some i ↔ LastKey definitions i
  rows : List.Forall₂ (Lacks table.columns) inserted table.rows
  cells : ∀ row ∈ table.rows, ∀ cell ∈ row, cell.Storable

/-! ### Primary keys -/

theorem lastKey_cons {d : ColumnDefinition} {ds : List ColumnDefinition} {i : Nat} :
    LastKey (d :: ds) i ↔
      (∃ j, i = j + 1 ∧ LastKey ds j) ∨ (i = 0 ∧ d.primaryKey = true ∧ ∀ later ∈ ds, later.primaryKey = false) := by
  constructor
  · rintro ⟨before, key, after, hsplit, rfl, hkey, hafter⟩
    cases before with
    | nil =>
        cases hsplit
        exact .inr ⟨rfl, hkey, hafter⟩
    | cons _ before =>
        cases hsplit
        exact .inl ⟨before.length, rfl, before, key, after, rfl, rfl, hkey, hafter⟩
  · rintro (⟨j, rfl, before, key, after, rfl, rfl, hkey, hafter⟩ | ⟨rfl, hkey, hafter⟩)
    · exact ⟨d :: before, key, after, rfl, rfl, hkey, hafter⟩
    · exact ⟨[], d, ds, rfl, rfl, hkey, hafter⟩

theorem lastPrimaryKey_eq_none_iff {ds : List ColumnDefinition} :
    lastPrimaryKey ds = none ↔ ∀ d ∈ ds, d.primaryKey = false := by
  induction ds with
  | nil => simp [lastPrimaryKey]
  | cons d ds ih =>
      rw [lastPrimaryKey, List.forall_mem_cons, ← ih]
      cases lastPrimaryKey ds <;> simp

theorem lastPrimaryKey_eq_some_iff {ds : List ColumnDefinition} {i : Nat} :
    lastPrimaryKey ds = some i ↔ LastKey ds i := by
  induction ds generalizing i with
  | nil => simp [lastPrimaryKey, LastKey]
  | cons d ds ih =>
      rw [lastPrimaryKey, lastKey_cons, ← lastPrimaryKey_eq_none_iff]
      simp only [← ih]
      cases lastPrimaryKey ds with
      | none => cases d.primaryKey <;> simp [@eq_comm Nat 0 i]
      | some j =>
          simp only [Option.some.injEq, reduceCtorEq, and_false, or_false, exists_eq_right']
          exact eq_comm

theorem LastKey.lt {definitions : List ColumnDefinition} {i : Nat} (h : LastKey definitions i) :
    i < definitions.length := by
  obtain ⟨before, d, after, rfl, rfl, -⟩ := h
  simp

/-! ### Columns -/

theorem declared_of_declaredType {d : ColumnDefinition} {type : SqlType} (h : declaredType d.type = .ok type) :
    Declared d type := by
  rw [declaredType] at h
  split at h
  · cases h
    exact .inl ⟨‹_›, rfl⟩
  · split at h <;> cases h
    exact .inr ⟨‹_›, rfl⟩

/-- A table has the names, the types and the primary key of its definitions. -/
theorem of_ofDefinitions {definitions : List ColumnDefinition} {table : Table}
    (h : ofDefinitions definitions = .ok table) :
    table.columns.names = definitions.map (·.name.text) ∧ List.Forall₂ Declared definitions table.columns.types ∧
      ∀ i, table.primaryKey = some i ↔ LastKey definitions i := by
  obtain ⟨types, htypes, rfl⟩ := define_eq_ok_iff.1 h
  refine ⟨rfl, htypes.imp fun d type => declared_of_declaredType, fun i => ?_⟩
  simpa [empty] using lastPrimaryKey_eq_some_iff

/-! ### Rows -/

variable {columns : Columns} {values : List Expr} {row : List Cell}

theorem RowOf.lacks (h : RowOf columns values row) : Lacks columns values row := by
  have hrow : row.length = values.countP fun value => value.literal?.isSome := by
    rw [← h.holds.length_eq, List.length_filterMap_eq_countP]
  have hvalues := values.length_eq_countP_add_countP fun value => value.literal?.isSome
  simp only [Bool.not_eq_true, Option.isSome_eq_false_iff, Bool.decide_eq_true] at hvalues
  rw [Lacks, ← h.length_eq]
  omega

theorem storable_of_holds {tokens : List Token} (hrow : List.Forall₂ Holds tokens row)
    (htokens : ∀ t ∈ tokens, ∃ w, t.lexeme.WrittenAs w) : ∀ cell ∈ row, cell.Storable := by
  induction hrow with
  | nil => simp
  | cons hcell _ ih =>
      obtain ⟨⟨w, hw⟩, htokens⟩ := List.forall_mem_cons.1 htokens
      obtain ⟨d, hd, rfl⟩ := hcell
      exact List.forall_mem_cons.2 ⟨hw.storable hd, ih htokens⟩

end Table

/-! ## Source texts -/

theorem Expr.Rendering.literal_mem {floor : Nat} {t : Token} {ts : List Token} (h : Rendering floor (.literal t) ts) :
    t ∈ ts := by
  have hmem : t ∈ (Expr.literal t).tokens := List.mem_singleton_self t
  rw [h.tokens_eq] at hmem
  exact (List.mem_filter.1 hmem).1

theorem Statement.Rendering.literal_mem {table t : Token} {values : List Expr} {ts : List Token}
    (h : Rendering (.insert table values) ts) (ht : .literal t ∈ values) : t ∈ ts := by
  cases h with
  | insert _ h =>
      cases h with
      | mk _ _ _ _ hvalues _ =>
          obtain ⟨us, hus, hsub⟩ := hvalues.exists_entry _ ht
          simp [hsub hus.literal_mem]

namespace Database

/-- A literal that an executed insertion has among its values stands in a source text. -/
theorem exists_writtenAs_of_mem_history {db : Database} {sources : List String} {table t : Token} {values : List Expr}
    (h : .insert table values ∈ db.history sources) (ht : .literal t ∈ values) : ∃ w, t.lexeme.WrittenAs w := by
  obtain ⟨source, script, hsource, hmem⟩ := exists_source_of_mem_history h
  obtain ⟨tokens, htokens, hscript⟩ := Script.ofSource_eq_ok_iff.1 hsource
  obtain ⟨us, hus, hsub⟩ := hscript.exists_statement _ hmem
  obtain ⟨-, w, -, -, hw⟩ := Token.exists_writtenAs_of_mem htokens (hsub (hus.literal_mem ht))
  exact ⟨w, hw⟩

theorem exists_insert_of_mem_insertions {name : String} {script : Script} {values : List Expr}
    (h : values ∈ insertions name script) : ∃ table, .insert table values ∈ script := by
  obtain ⟨statement, hmem, hinsertion⟩ := List.mem_filterMap.1 h
  cases statement with
  | insert table values' =>
      rw [Statement.insertion?] at hinsertion
      split at hinsertion <;> cases hinsertion
      exact ⟨table, hmem⟩
  | _ => cases hinsertion

theorem LastCreation.mem_of_mem {name : String} {script after : Script} {definitions : List ColumnDefinition}
    {statement : Statement} (h : LastCreation name script definitions after) (hmem : statement ∈ after) :
    statement ∈ script := by
  obtain ⟨before, token, rfl, -⟩ := h
  simp [hmem]

/-- After any source texts, a table is made of the definitions that created it last and of what was inserted since. It
has a type for each name, so the type at the place of a name is there, whatever is evaluated or described on the table;
and the place of its key is that of a column. No statement looks for a type that is not there. -/
theorem madeOf_runAll (sources : List String) :
    (∀ name table, (empty.runAll sources).table? name = some table →
      table.columns.types.length = table.columns.names.length ∧
        (∀ column i, table.columnIndex? column = some i → ∃ type, table.columns.typeAt i = .ok type) ∧
        (∀ e i place length, (table.evaluate i e).result ≠ .error (.outOfBounds place length) ∧
          table.describe e ≠ .error (.outOfBounds place length)) ∧
        (∀ type ∈ table.columns.types, type = .int ∨ type = .text) ∧
        (∀ i ∈ table.primaryKey, i < table.columns.names.length) ∧
        ∃ definitions after, LastCreation name (empty.history sources) definitions after ∧
          table.MadeOf definitions (insertions name after)) ∧
    ∀ statement place length,
      ((empty.runAll sources).execute statement).result ≠ .error (.outOfBounds place length) := by
  refine ⟨fun name table h => ?_, fun statement _ _ => avoids_execute (fun _ _ => parallel_of_runAll) statement⟩
  have hparallel := parallel_of_runAll h
  obtain ⟨definitions, after, hlast, hdefinitions, hrows⟩ := exists_lastCreation h
  obtain ⟨hnames, htypes, hkey⟩ := Table.of_ofDefinitions hdefinitions
  have hmade : table.MadeOf definitions (insertions name after) :=
    { names := hnames
      types := htypes
      primaryKey := hkey
      rows := hrows.imp fun _ _ hrow => hrow.lacks
      cells := by
        refine forall_mem_of_forall₂ hrows fun values hvalues row hrow => ?_
        obtain ⟨token, hinsert⟩ := exists_insert_of_mem_insertions hvalues
        refine Table.storable_of_holds hrow.holds fun t ht => ?_
        exact exists_writtenAs_of_mem_history (hlast.mem_of_mem hinsert) (Expr.mem_filterMap_literal?.1 ht) }
  refine ⟨hparallel, fun _ _ => hparallel.exists_typeAt, fun e i place length => ?_, ?_, fun i hi => ?_, definitions,
    after, hlast, hmade⟩
  · exact ⟨Expr.avoids_eval hparallel _ e, Expr.avoids_describe hparallel e⟩
  · exact forall_mem_of_forall₂ htypes fun d _ type hdeclared => hdeclared.imp And.right And.right
  · rw [hmade.names, List.length_map]
    exact ((hkey i).1 hi).lt

/-- Of two keys the second counts, an insertion that fails leaves no row, and a sum leaves a row short. -/
theorem madeOf_runAll_short_row :
    let sources := ["create table t (a int primary key, b text primary key)", "insert into t values (1)",
      "insert into t values (7, null); insert into t values (1 + 2, true)"]
    let table : Table := ⟨⟨["a", "b"], [.int, .text]⟩, [[.ofInt 7, .empty], [.ofBool true]], some 1⟩
    (empty.runAll sources).table? "t" = some table ∧
      ∃ definitions after, LastCreation "t" (empty.history sources) definitions after ∧
        table.MadeOf definitions (insertions "t" after) := by
  intro sources table
  have htable : (empty.runAll sources).table? "t" = some table := by decide +kernel
  obtain ⟨-, -, -, -, -, hmade⟩ := (madeOf_runAll sources).1 "t" table htable
  exact ⟨htable, hmade⟩

end Database

end SqlStore
