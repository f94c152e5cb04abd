import Mathlib.Data.Nat.Digits.Defs
import SqlStore.Proofs.Representation
import SqlStore.Proofs.Text.LongestNumeral

/-!
# Numerals as integers

A numeral of a source text is stored as an integer exactly if it consists of digits and its decimal value fits into 31
bits. The four bytes that are stored read back as this value, and every other numeral is refused with its own text
(`Cell.ofLexeme_numeral`).
-/

namespace SqlStore

namespace Text.Numeral

variable {cs ds part : List Char} {n : Nat}

/-! ## Decimal values -/

/-- What a digit counts. -/
def digitValue (c : Char) : Nat := c.toNat - '0'.toNat

/-- The number that digits write in base ten, the last of them counting ones. -/
def decimal (ds : List Char) : Nat := Nat.ofDigits 10 (ds.map digitValue).reverse

theorem decimal_concat (ds : List Char) (c : Char) : decimal (ds ++ [c]) = 10 * decimal ds + digitValue c := by
  rw [decimal, List.map_append, List.map_singleton, List.reverse_concat, Nat.ofDigits_cons]
  exact Nat.add_comm _ _

/-- From the left, each digit makes what there is count ten times as much. -/
theorem foldl_eq_decimal (ds : List Char) :
    ds.foldl (fun n c => 10 * n + (c.toNat - '0'.toNat)) 0 = decimal ds := by
  induction ds using List.reverseRecOn with
  | nil => rfl
  | append_singleton ds c ih =>
      rw [List.foldl_concat, ih, decimal_concat]
      rfl

theorem natural?_of_digits (hne : ds ≠ []) (h : Digits ds) : natural? ds = some (decimal ds) := by
  have hall : ds.all Char.isDigit = true := List.all_eq_true.2 h
  rw [natural?, if_pos (by simp [hne, hall]), foldl_eq_decimal]

theorem natural?_of_not_digits (h : ¬ Digits cs) : natural? cs = none := by
  have hall : cs.all Char.isDigit = false := by
    rw [Bool.eq_false_iff]
    intro hall
    exact h (List.all_eq_true.1 hall)
  simp [natural?, hall]

theorem toInt_ofInt_of_le (h : n ≤ 2147483647) : (Int32.ofInt n).toInt = n := by
  apply Int32.toInt_ofInt_of_le <;> omega

theorem fit_natCast (n : Nat) : fit n = if n ≤ 2147483647 then some (.ofInt n) else none := by
  have hmax : Int32.maxValue.toInt = 2147483647 := rfl
  have hmin : Int32.minValue.toInt = -2147483648 := rfl
  rw [fit, hmax, hmin]
  split <;> split <;> first | rfl | omega

/-! ## Numerals -/

theorem Fraction.eq_nil (h : Fraction part) (hpart : '.' ∉ part) : part = [] := by
  cases h with
  | none => rfl
  | some => exact absurd List.mem_cons_self hpart

/-- A numeral is nothing but digits unless it has a period or an exponent. -/
theorem IsNumeral.digits_iff (h : IsNumeral cs) : Digits cs ↔ '.' ∉ cs ∧ 'e' ∉ cs := by
  constructor
  · intro hdigits
    exact ⟨hdigits.not_mem rfl, hdigits.not_mem rfl⟩
  · obtain ⟨whole, part, power, hform, rfl⟩ := h
    simp only [List.mem_append, not_or]
    rintro ⟨⟨-, hperiod, -⟩, -, -, hmarker⟩
    rw [hform.fraction.eq_nil hperiod, hform.exponent.eq_nil hmarker]
    simpa using hform.digits

/-- A numeral has no sign, so only its digits are read. -/
theorem IsNumeral.int32?_eq (h : IsNumeral cs) : int32? cs = (natural? cs).bind fun n => fit n := by
  have hsign : sign cs = ([], cs) := by
    obtain ⟨whole, part, power, hform, rfl⟩ := h
    exact hform.sign_eq
  simp [int32?, hsign]

theorem IsNumeral.int32?_of_le (h : IsNumeral cs) (hdigits : Digits cs) (hle : decimal cs ≤ 2147483647) :
    int32? cs = some (.ofInt (decimal cs)) := by
  rw [h.int32?_eq, natural?_of_digits h.ne_nil hdigits, Option.bind_some, fit_natCast, if_pos hle]

theorem IsNumeral.int32?_eq_none (h : IsNumeral cs) (hnot : ¬ (Digits cs ∧ decimal cs ≤ 2147483647)) :
    int32? cs = none := by
  rw [h.int32?_eq]
  by_cases hdigits : Digits cs
  · have hlarge : ¬ decimal cs ≤ 2147483647 := fun hle => hnot ⟨hdigits, hle⟩
    rw [natural?_of_digits h.ne_nil hdigits, Option.bind_some, fit_natCast, if_neg hlarge]
  · rw [natural?_of_not_digits hdigits, Option.bind_none]

end Text.Numeral

open Text.Numeral (Digits IsNumeral decimal)

/-! ## Tokens -/

/-- A token that is found in a text, whether or not the text is read in full, covers a written form of its lexeme. -/
theorem Scan.exists_writtenAs_of_mem {p : Position} {cs : List Char} {t : Token} (h : t ∈ (run p cs).tokens) :
    ∃ w, t.lexeme.WrittenAs w := by
  obtain ⟨_, taken, _, -, hm, -⟩ := exists_match_of_mem h
  exact ⟨taken, Match.writtenAs_of_first? hm⟩

theorem Lexeme.WrittenAs.isNumeral {l : Lexeme} {w : List Char} (h : l.WrittenAs w) (hkind : l.kind = .numeric) :
    IsNumeral l.text.toList := by
  cases h with
  | numeral h =>
      rw [String.toList_ofList]
      exact ⟨_, _, _, h, rfl⟩
  | @reserved k => cases k <;> cases hkind
  | symbol | string | quotedName | bareName => cases hkind

/-! ## Cells -/

namespace Cell

/-- Four bytes are the number, the highest of them first, and whoever reads them as an integer gets the number. -/
structure HoldsNatural (cell : Cell) (n : Nat) : Prop where
  bytes : ∃ bytes, cell.content = some bytes ∧ bytes.length = 4 ∧ bytes.foldl (fun k b => 256 * k + b.toNat) 0 = n
  toInt : cell.toInt.toInt = n
  decode : ∃ k, Value.decode .int cell = .int k ∧ k.toInt = n

theorem holdsNatural_ofInt {k : Int32} {n : Nat} (h : k.toInt = n) : HoldsNatural (ofInt k) n := by
  have hnonneg : 0 ≤ k := by
    rw [Int32.le_iff_toInt_le, h]
    exact Int.natCast_nonneg n
  refine ⟨⟨_, rfl, rfl, ?_⟩, by rwa [toInt_ofInt], k, by rw [Value.decode, toInt_ofInt], h⟩
  rw [foldl_bigEndian, Int32.toNat_toUInt32_of_le hnonneg, Int32.toNatClampNeg, h, Int.toNat_natCast]

theorem ofLexeme_of_int32? {l : Lexeme} {k : Int32} (hkind : l.kind = .numeric)
    (h : Text.Numeral.int32? l.text.toList = some k) : ofLexeme l = .ok (ofInt k) := by
  simp [ofLexeme, hkind, h]

theorem ofLexeme_of_int32?_eq_none {l : Lexeme} (hkind : l.kind = .numeric)
    (h : Text.Numeral.int32? l.text.toList = none) : ofLexeme l = .error (.invalidNumeral l.text) := by
  simp [ofLexeme, hkind, h]

/-- A numeral that is found in a source text is stored exactly if it is digits, whichever zeros are in front, and their
value is below 2³¹. Then the cell holds this value. In every other case it is refused with its own text, which are the
cases of a period, of an exponent and of a value that is too large. -/
theorem ofLexeme_numeral {source : String} {t : Token} (ht : t ∈ (Scan.ofSource source).tokens)
    (hkind : t.kind = .numeric) :
    let ds := t.text.toList
    ((∃ cell, ofLexeme t.lexeme = .ok cell) ↔ Digits ds ∧ decimal ds ≤ 2147483647) ∧
      (∀ cell, ofLexeme t.lexeme = .ok cell → cell.HoldsNatural (decimal ds)) ∧
      ((¬ ∃ cell, ofLexeme t.lexeme = .ok cell) → ofLexeme t.lexeme = .error (.invalidNumeral t.text)) ∧
      (ofLexeme t.lexeme = .error (.invalidNumeral t.text) ↔ '.' ∈ ds ∨ 'e' ∈ ds ∨ 2147483647 < decimal ds) := by
  intro ds
  obtain ⟨w, hwritten⟩ := Scan.exists_writtenAs_of_mem ht
  have hnumeral : IsNumeral ds := hwritten.isNumeral hkind
  by_cases hfits : Digits ds ∧ decimal ds ≤ 2147483647
  · have hcell := ofLexeme_of_int32? hkind (hnumeral.int32?_of_le hfits.1 hfits.2)
    obtain ⟨hperiod, hmarker⟩ := hnumeral.digits_iff.1 hfits.1
    rw [hcell]
    refine ⟨⟨fun _ => hfits, fun _ => ⟨_, rfl⟩⟩, fun cell h => ?_, fun h => absurd ⟨_, rfl⟩ h, nofun, ?_⟩
    · cases h
      exact holdsNatural_ofInt (Text.Numeral.toInt_ofInt_of_le hfits.2)
    · rintro (h | h | h)
      · exact absurd h hperiod
      · exact absurd h hmarker
      · exact absurd h (Nat.not_lt.2 hfits.2)
  · have herror := ofLexeme_of_int32?_eq_none hkind (hnumeral.int32?_eq_none hfits)
    rw [herror]
    -- only what is not written in digits can have a period or an exponent, so digits are refused for their value
    refine ⟨⟨nofun, fun h => absurd h hfits⟩, nofun, fun _ => rfl, fun _ => ?_, fun _ => rfl⟩
    rwa [hnumeral.digits_iff, not_and_or, not_and_or, not_not, not_not, not_le, or_assoc] at hfits

/-- The largest integer with zeros in front, and one more than it. -/
theorem ofLexeme_numeral_limit :
    let largest : Token := ⟨⟨.numeric, "002147483647"⟩, ⟨0, 0⟩, ⟨0, 12⟩⟩
    let next : Token := ⟨⟨.numeric, "2147483648"⟩, ⟨0, 13⟩, ⟨0, 23⟩⟩
    (Scan.ofSource "002147483647 2147483648").tokens = [largest, next] ∧
      (∃ cell, ofLexeme largest.lexeme = .ok cell ∧ cell.HoldsNatural 2147483647) ∧
      ofLexeme next.lexeme = .error (.invalidNumeral "2147483648") := by
  intro largest next
  have htokens : (Scan.ofSource "002147483647 2147483648").tokens = [largest, next] := by decide +kernel
  have hlargest : decimal largest.text.toList = 2147483647 := by decide +kernel
  have hnext : 2147483647 < decimal next.text.toList := by decide +kernel
  obtain ⟨hstored, hholds, -⟩ := ofLexeme_numeral (t := largest) (by rw [htokens]; simp) rfl
  obtain ⟨-, -, -, herror⟩ := ofLexeme_numeral (t := next) (by rw [htokens]; simp) rfl
  have hdigits : largest.text.toList.all Char.isDigit = true := by decide +kernel
  obtain ⟨cell, hcell⟩ := hstored.2 ⟨List.all_eq_true.1 hdigits, Nat.le_of_eq hlargest⟩
  have hcell' := hholds cell hcell
  rw [hlargest] at hcell'
  exact ⟨htokens, ⟨cell, hcell, hcell'⟩, herror.2 (.inr (.inr hnext))⟩

end Cell

end SqlStore
