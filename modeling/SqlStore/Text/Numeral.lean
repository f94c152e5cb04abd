/-!
# Numerals

The written form of a number, `digits.digits` and an exponent after a lower-case `e`, and the reading of plain
decimal numbers into 32 bits. Each run of digits may be empty as long as the numeral starts with a digit or
a period.
-/

namespace SqlStore.Text.Numeral

/-- The digits at the head of a text, and what follows them. -/
def digits (cs : List Char) : List Char × List Char :=
  (cs.takeWhile Char.isDigit, cs.dropWhile Char.isDigit)

/-- The sign at the head of a text, if there is one, and what follows it. -/
def sign : List Char → List Char × List Char
  | '-' :: cs => (['-'], cs)
  | '+' :: cs => (['+'], cs)
  | cs => ([], cs)

/-- A period at the head of a text with the digits after it, if there is one, and what follows. -/
def fraction : List Char → List Char × List Char
  | '.' :: cs => ('.' :: (digits cs).1, (digits cs).2)
  | cs => ([], cs)

/-- The part before an exponent; it starts with a digit or a period. -/
def mantissa (cs : List Char) : Option (List Char × List Char) :=
  let whole := digits cs
  let part := fraction whole.2
  if whole.1.isEmpty && part.1.isEmpty then none else some (whole.1 ++ part.1, part.2)

/-- The exponent at the head of a text, empty if there is none; its marker may not end the text. -/
def exponent : List Char → Option (List Char × List Char)
  | 'e' :: cs =>
      if cs.isEmpty then none
      else
        let mark := sign cs
        let power := digits mark.2
        some ('e' :: mark.1 ++ power.1, power.2)
  | cs => some ([], cs)

/-- A period or an exponent marker stands at the head, which would go on with a numeral. -/
def continues (cs : List Char) : Bool :=
  cs.head?.any fun c => c == '.' || c == 'e'

/-- The numeral at the head of a text, and what follows it; `none` if there is none, or a second period or
marker stands after it. -/
def read (cs : List Char) : Option (List Char × List Char) := do
  let (whole, rest) ← mantissa cs
  let (power, rest) ← exponent rest
  if continues rest then none else some (whole ++ power, rest)

/-- The number written by decimal digits alone; `none` if there are none or something else stands there. -/
def natural? (cs : List Char) : Option Nat :=
  if !cs.isEmpty && cs.all Char.isDigit then
    some (cs.foldl (fun n c => 10 * n + (c.toNat - '0'.toNat)) 0)
  else none

/-- The number as a 32-bit integer, if it fits. -/
def fit (n : Int) : Option Int32 :=
  if Int32.minValue.toInt ≤ n ∧ n ≤ Int32.maxValue.toInt then some (Int32.ofInt n) else none

/-- The 32-bit integer written by decimal digits after an optional sign. -/
def int32? (cs : List Char) : Option Int32 := do
  let (mark, rest) := sign cs
  let n ← natural? rest
  fit (if mark = ['-'] then -n else n)

/-! ## What reading takes -/

@[simp] theorem digits_append (cs : List Char) : (digits cs).1 ++ (digits cs).2 = cs :=
  List.takeWhile_append_dropWhile

@[simp] theorem sign_append (cs : List Char) : (sign cs).1 ++ (sign cs).2 = cs := by
  fun_cases sign cs <;> simp

@[simp] theorem fraction_append (cs : List Char) : (fraction cs).1 ++ (fraction cs).2 = cs := by
  fun_cases fraction cs <;> simp

theorem append_of_mantissa {cs whole rest : List Char} (h : mantissa cs = some (whole, rest)) :
    whole ++ rest = cs ∧ whole ≠ [] := by
  simp only [mantissa] at h
  split at h <;> simp only [Option.some.injEq, Prod.mk.injEq, reduceCtorEq] at h
  obtain ⟨rfl, rfl⟩ := h
  simp_all

theorem append_of_exponent {cs power rest : List Char} (h : exponent cs = some (power, rest)) :
    power ++ rest = cs := by
  fun_cases exponent cs with
  | case1 => simp_all [exponent]
  | case2 cs hcs mark power' =>
      simp only [exponent, hcs, ↓reduceIte, Option.some.injEq, Prod.mk.injEq, Bool.false_eq_true] at h
      simp [← h.1, ← h.2]
  | case3 => simp_all [exponent]

theorem append_of_read {cs numeral rest : List Char} (h : read cs = some (numeral, rest)) :
    numeral ++ rest = cs ∧ numeral ≠ [] := by
  simp only [read, Option.bind_eq_bind, Option.bind_eq_some_iff] at h
  obtain ⟨⟨whole, rest₁⟩, hwhole, ⟨power, rest₂⟩, hpower, h⟩ := h
  obtain ⟨rfl, hne⟩ := append_of_mantissa hwhole
  obtain rfl := append_of_exponent hpower
  split at h <;> simp only [Option.some.injEq, Prod.mk.injEq, reduceCtorEq] at h
  obtain ⟨rfl, rfl⟩ := h
  simp [hne]

end SqlStore.Text.Numeral
