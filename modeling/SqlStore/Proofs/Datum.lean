import SqlStore.Value

/-!
# Typed data

A `Datum` is a value of a known type, or no value of that type. Cells that fit a type and data of that type are
the same thing in two forms (`toCell_ofCell`, `ofCell_toCell`).
-/

namespace SqlStore

/-- A value of a type, or none; a boolean without value is `false`. -/
inductive Datum
  | int (n : Option Int32)
  | text (s : Option String)
  | bool (b : Bool)
deriving DecidableEq

/-- The cell has no value, or one that a cell of the type can have: four bytes, UTF-8, or the byte 1. -/
def Cell.Fits (type : SqlType) (c : Cell) : Prop :=
  ∀ bytes ∈ c.content,
    match type with
    | .int => bytes.length = 4
    | .text => ∃ cs, bytes = Text.Utf8.encode cs
    | .bool => bytes = [1]

namespace Datum

def type : Datum → SqlType
  | .int _ => .int
  | .text _ => .text
  | .bool _ => .bool

/-- The cell that holds the datum. -/
def toCell : Datum → Cell
  | .int none | .text none => .empty
  | .int (some n) => .ofInt n
  | .text (some s) => .ofText s
  | .bool b => .ofBool b

/-- What a cell holds, read as a type. -/
def ofCell (type : SqlType) (c : Cell) : Datum :=
  match type with
  | .int => .int (c.content.map fun _ => c.toInt)
  | .text => .text (c.content.map fun _ => c.toText)
  | .bool => .bool c.toBool

/-- The value, with 0, the empty text or `false` for none. -/
def value : Datum → Value
  | .int n => .int (n.getD 0)
  | .text s => .text (s.getD "")
  | .bool b => .bool b

theorem bigEndian_word? {bytes : List UInt8} (h : bytes.length = 4) :
    ∃ n, Cell.word? bytes = some n ∧ Cell.bigEndian n = bytes := by
  match bytes, h with
  | [a, b, c, d], _ =>
      refine ⟨_, rfl, ?_⟩
      have ha := a.toNat_lt
      have hb := b.toNat_lt
      have hc := c.toNat_lt
      have hd := d.toNat_lt
      simp only [Cell.bigEndian, List.cons.injEq, and_true, ← UInt8.toNat_inj, UInt8.toNat_ofNat',
        UInt32.toNat_ofNat']
      omega

theorem fits_toCell (d : Datum) : d.toCell.Fits d.type := by
  intro bytes hbytes
  cases d with
  | int n =>
      cases n with
      | none => cases hbytes
      | some n => cases hbytes; rfl
  | text s =>
      cases s with
      | none => cases hbytes
      | some s => cases hbytes; exact ⟨_, rfl⟩
  | bool b =>
      cases b with
      | false => cases hbytes
      | true => cases hbytes; rfl

@[simp] theorem type_ofCell (type : SqlType) (c : Cell) : (ofCell type c).type = type := by
  cases type <;> rfl

theorem toCell_ofCell {type : SqlType} {c : Cell} (h : c.Fits type) : (ofCell type c).toCell = c := by
  obtain ⟨content⟩ := c
  cases content with
  | none => cases type <;> rfl
  | some bytes =>
      have hbytes := h bytes rfl
      cases type with
      | int =>
          obtain ⟨n, hn, hn'⟩ := bigEndian_word? hbytes
          simp [ofCell, toCell, Cell.toInt, Cell.ofInt, Cell.bytes, hn, hn']
      | text =>
          obtain ⟨cs, rfl⟩ := hbytes
          simp [ofCell, toCell, Cell.toText, Cell.ofText, Cell.bytes]
      | bool =>
          cases hbytes
          rfl

@[simp] theorem ofCell_toCell (d : Datum) : ofCell d.type d.toCell = d := by
  cases d with
  | int n =>
      cases n with
      | none => rfl
      | some n => exact congrArg (fun n => Datum.int (some n)) (Cell.toInt_ofInt n)
  | text s =>
      cases s with
      | none => rfl
      | some s => exact congrArg (fun s => Datum.text (some s)) (Cell.toText_ofText s)
  | bool b => exact congrArg Datum.bool (Cell.toBool_ofBool b)

theorem eq_iff {d d' : Datum} : d = d' ↔ d.type = d'.type ∧ d.toCell = d'.toCell := by
  refine ⟨fun h => h ▸ ⟨rfl, rfl⟩, fun ⟨htype, hcell⟩ => ?_⟩
  rw [← ofCell_toCell d, ← ofCell_toCell d', htype, hcell]

@[simp] theorem decode_toCell (d : Datum) : Value.decode d.type d.toCell = d.value := by
  cases d with
  | int n =>
      cases n with
      | none => rfl
      | some n => exact congrArg Value.int (Cell.toInt_ofInt n)
  | text s =>
      cases s with
      | none => exact congrArg Value.text Cell.toText_empty
      | some s => exact congrArg Value.text (Cell.toText_ofText s)
  | bool b => exact congrArg Value.bool (Cell.toBool_ofBool b)

@[simp] theorem toInt_toCell (n : Option Int32) : (Datum.int n).toCell.toInt = n.getD 0 := by
  cases n with
  | none => exact Cell.toInt_empty
  | some n => exact Cell.toInt_ofInt n

theorem bytes_toCell_text (s : Option String) :
    (Datum.text s).toCell.bytes = Text.Utf8.encode (s.getD "").toList := by
  cases s <;> rfl

end Datum

theorem Value.decodeRow_toCell {columns : List Column} {row : List Datum}
    (h : row.map Datum.type = columns.map Column.type) :
    decodeRow columns (row.map Datum.toCell) = row.map Datum.value := by
  induction columns generalizing row with
  | nil =>
      obtain rfl := List.map_eq_nil_iff.1 h
      rfl
  | cons c columns ih =>
      obtain ⟨d, row, rfl, hd, hrow⟩ := List.map_eq_cons_iff.1 h
      have hrest := ih hrow
      rw [decodeRow] at hrest ⊢
      rw [List.map_cons, List.zipWith_cons_cons, hrest, ← hd, Datum.decode_toCell]
      rfl

end SqlStore
