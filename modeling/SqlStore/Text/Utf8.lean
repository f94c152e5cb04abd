/-!
# UTF-8

Bytes of a text and back. Well-formed bytes read back as what was written (`decode?_encode`,
`decodeLossy_encode`); the lossy reading puts U+FFFD in place of each maximal part that is not well formed.
-/

namespace SqlStore.Text.Utf8

/-- The UTF-8 form of a text. -/
def encode (cs : List Char) : List UInt8 :=
  cs.flatMap String.utf8EncodeChar

/-- The character whose UTF-8 form stands at the head of the bytes. -/
def head? (bytes : List UInt8) : Option Char :=
  (bytes.take 4).toByteArray.utf8DecodeChar? 0

/-- The two bytes open the UTF-8 form of a character of three or four bytes. -/
def opensLong (a b : UInt8) : Bool :=
  if a = 0xE0 then 0xA0 ≤ b && b ≤ 0xBF
  else if a = 0xED then 0x80 ≤ b && b ≤ 0x9F
  else if 0xE1 ≤ a && a ≤ 0xEF then 0x80 ≤ b && b ≤ 0xBF
  else if a = 0xF0 then 0x90 ≤ b && b ≤ 0xBF
  else if 0xF1 ≤ a && a ≤ 0xF3 then 0x80 ≤ b && b ≤ 0xBF
  else if a = 0xF4 then 0x80 ≤ b && b ≤ 0x8F
  else false

/-- How many bytes one replacement character stands for, when no character's form is at the head: the longest
beginning of such a form, and at least one byte. -/
def illFormedSize : List UInt8 → Nat
  | a :: b :: c :: _ =>
      if !opensLong a b then 1
      else if 0xF0 ≤ a && 0x80 ≤ c && c ≤ 0xBF then 3
      else 2
  | [a, b] => if opensLong a b then 2 else 1
  | _ => 1

/-- Reads bytes as text, with U+FFFD for what is not well formed. -/
def decodeLossy : List UInt8 → List Char
  | [] => []
  | b :: bytes =>
      match head? (b :: bytes) with
      | some c => c :: decodeLossy (bytes.drop (c.utf8Size - 1))
      | none => '\uFFFD' :: decodeLossy (bytes.drop (illFormedSize (b :: bytes) - 1))
termination_by bytes => bytes.length
decreasing_by all_goals simp only [List.length_drop, List.length_cons]; omega

/-- Reads bytes as text; `none` if any part is not well formed. -/
def decode? : List UInt8 → Option (List Char)
  | [] => some []
  | b :: bytes =>
      match head? (b :: bytes) with
      | some c => (decode? (bytes.drop (c.utf8Size - 1))).map (c :: ·)
      | none => none
termination_by bytes => bytes.length
decreasing_by simp only [List.length_drop, List.length_cons]; omega

theorem head?_encodeChar_append (c : Char) (bytes : List UInt8) :
    head? (String.utf8EncodeChar c ++ bytes) = some c := by
  have hc : (String.utf8EncodeChar c).length ≤ 4 := by
    rw [String.length_utf8EncodeChar]; exact c.utf8Size_le_four
  rw [head?, List.take_append, List.take_of_length_le hc, List.toByteArray_append]
  exact ByteArray.utf8DecodeChar?_utf8EncodeChar_append

theorem decodeLossy_encodeChar_append (c : Char) (bytes : List UInt8) :
    decodeLossy (String.utf8EncodeChar c ++ bytes) = c :: decodeLossy bytes := by
  have hlen := String.length_utf8EncodeChar c
  have hpos := c.utf8Size_pos
  have hhead := head?_encodeChar_append c bytes
  generalize String.utf8EncodeChar c = form at *
  cases form with
  | nil => simp at hlen; omega
  | cons b form =>
      simp only [List.length_cons] at hlen
      rw [List.cons_append] at hhead ⊢
      rw [decodeLossy, hhead]
      simp [← hlen]

theorem decode?_encodeChar_append (c : Char) (bytes : List UInt8) :
    decode? (String.utf8EncodeChar c ++ bytes) = (decode? bytes).map (c :: ·) := by
  have hlen := String.length_utf8EncodeChar c
  have hpos := c.utf8Size_pos
  have hhead := head?_encodeChar_append c bytes
  generalize String.utf8EncodeChar c = form at *
  cases form with
  | nil => simp at hlen; omega
  | cons b form =>
      simp only [List.length_cons] at hlen
      rw [List.cons_append] at hhead ⊢
      rw [decode?, hhead]
      simp [← hlen]

@[simp] theorem decodeLossy_encode (cs : List Char) : decodeLossy (encode cs) = cs := by
  induction cs with
  | nil => simp [encode, decodeLossy]
  | cons c cs ih =>
      rw [encode, List.flatMap_cons, decodeLossy_encodeChar_append]
      exact congrArg _ ih

@[simp] theorem decode?_encode (cs : List Char) : decode? (encode cs) = some cs := by
  induction cs with
  | nil => simp [encode, decode?]
  | cons c cs ih =>
      rw [encode, List.flatMap_cons, decode?_encodeChar_append]
      exact congrArg (Option.map _) ih

end SqlStore.Text.Utf8
