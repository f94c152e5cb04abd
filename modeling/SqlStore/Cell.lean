import SqlStore.Text.Numeral
import SqlStore.Text.Utf8
import SqlStore.Error

/-!
# Cells

What a table holds in one place: some bytes, or no value. The bytes do not say what they are; whoever reads them
names the type. What was written as a type reads back as that type (`toInt_ofInt`, `toText_ofText`,
`toBool_ofBool`).
-/

namespace SqlStore

/-- Some bytes, or no value at all. -/
structure Cell where
  content : Option (List UInt8)
deriving DecidableEq

namespace Cell

/-- No value: what `false` and `null` are stored as. -/
def empty : Cell := ⟨none⟩

/-- The bytes, of which a cell without value has none. -/
def bytes (c : Cell) : List UInt8 :=
  c.content.getD []

def isEmpty (c : Cell) : Bool :=
  c.content.isNone

/-- Four bytes of a word, the highest first. -/
def bigEndian (n : UInt32) : List UInt8 :=
  [.ofNat (n.toNat / 0x1000000), .ofNat (n.toNat / 0x10000), .ofNat (n.toNat / 0x100), .ofNat n.toNat]

/-- The word in the first four bytes, if there are as many. -/
def word? : List UInt8 → Option UInt32
  | a :: b :: c :: d :: _ =>
      some (.ofNat (a.toNat * 0x1000000 + b.toNat * 0x10000 + c.toNat * 0x100 + d.toNat))
  | _ => none

def ofInt (n : Int32) : Cell :=
  ⟨some (bigEndian n.toUInt32)⟩

def ofText (s : String) : Cell :=
  ⟨some (Text.Utf8.encode s.toList)⟩

def ofBool (b : Bool) : Cell :=
  if b then ⟨some [1]⟩ else empty

/-- The bytes of both, as a cell that has a value even if neither had. -/
def concat (c d : Cell) : Cell :=
  ⟨some (c.bytes ++ d.bytes)⟩

/-- Read as an integer: the first four bytes, or 0 if there are fewer. -/
def toInt (c : Cell) : Int32 :=
  ((word? c.bytes).getD 0).toInt32

/-- Read as text, with U+FFFD for whatever is not UTF-8. -/
def toText (c : Cell) : String :=
  String.ofList (Text.Utf8.decodeLossy c.bytes)

/-- Read as a boolean: true if there is any byte. -/
def toBool (c : Cell) : Bool :=
  !c.bytes.isEmpty

/-- What a literal is stored as; whatever is no numeral, string or boolean has no value. -/
def ofLexeme (l : Lexeme) : Except StoreError Cell :=
  match l.kind with
  | .numeric =>
      match Text.Numeral.int32? l.text.toList with
      | some n => .ok (ofInt n)
      | none => .error (.invalidNumeral l.text)
  | .string => .ok (ofText l.text)
  | .bool => .ok (ofBool (l.text == "true"))
  | _ => .ok empty

/-! ## Reading what was written -/

theorem word?_bigEndian (n : UInt32) : word? (bigEndian n) = some n := by
  have := n.toNat_lt
  simp only [bigEndian, word?, Option.some.injEq, ← UInt32.toNat_inj, UInt32.toNat_ofNat', UInt8.toNat_ofNat']
  omega

@[simp] theorem toInt_ofInt (n : Int32) : (ofInt n).toInt = n := by
  simp [toInt, ofInt, bytes, word?_bigEndian]

@[simp] theorem toText_ofText (s : String) : (ofText s).toText = s := by
  simp [toText, ofText, bytes]

@[simp] theorem toBool_ofBool (b : Bool) : (ofBool b).toBool = b := by
  cases b <;> rfl

@[simp] theorem toInt_empty : empty.toInt = 0 := rfl

@[simp] theorem toText_empty : empty.toText = "" := by
  simp [toText, empty, bytes, Text.Utf8.decodeLossy]

@[simp] theorem bytes_concat (c d : Cell) : (c.concat d).bytes = c.bytes ++ d.bytes := rfl

end Cell

end SqlStore
