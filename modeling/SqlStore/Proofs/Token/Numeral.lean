import SqlStore.Proofs.Text.LongestNumeral
import SqlStore.Token.Match

/-!
# Numeric lexemes

A numeric lexeme is the longest numeral at a place of a source text, and there is none where that numeral is followed
by what it cannot be followed by (`Match.numeral?_exact`). The same is read over the bytes, where a numeral starts and
ends between characters.
-/

namespace SqlStore.Match

open String (utf8Len)
open Text.Numeral (Barred Longest NoneStarts Stops)
open Text.Utf8 (byteChars encode)

variable {source : String} {before cs : List Char}

theorem numeral?_eq_some_iff {m : Match} : numeral? cs = some m ↔
    m.lexeme = ⟨.numeric, String.ofList m.taken⟩ ∧ Text.Numeral.read cs = some (m.taken, m.rest) := by
  simp only [numeral?, Option.bind_eq_bind, Option.bind_eq_some_iff, Option.some.injEq, Prod.exists]
  constructor
  · rintro ⟨numeral, rest, hread, rfl⟩
    exact ⟨rfl, hread⟩
  · rintro ⟨hlexeme, hread⟩
    exact ⟨_, _, hread, by rw [← hlexeme]⟩

theorem numeral?_eq_none_iff : numeral? cs = none ↔ Text.Numeral.read cs = none := by
  rw [numeral?]
  cases Text.Numeral.read cs <;> simp

section

variable (hsource : source.toList = before ++ cs)

include hsource

/-- At a place of a source text the longest numeral is found, if there is one and what follows does not bar it. The
place after it is between characters of the text. Over bytes the same is found, and nothing inside of a character. -/
theorem numeral?_exact :
    (∀ m, numeral? cs = some m ↔ m.lexeme = ⟨.numeric, String.ofList m.taken⟩ ∧ cs = m.taken ++ m.rest ∧
      Longest cs m.taken ∧ Stops m.rest ∧ (m.taken.getLast? = some 'e' → m.rest ≠ [])) ∧
    (numeral? cs = none ↔ NoneStarts cs ∨ ∃ v rest, cs = v ++ rest ∧ Longest cs v ∧ Barred v rest) ∧
    (∀ m, numeral? cs = some m → utf8Len (before ++ m.taken) ≤ source.utf8ByteSize ∧
      (String.Pos.Raw.mk (utf8Len (before ++ m.taken))).IsValid source) ∧
    Text.Numeral.read (byteChars ((encode source.toList).drop (utf8Len before))) =
      (numeral? cs).map (fun m => (m.taken, byteChars (encode m.rest))) ∧
    ∀ offset, ¬ (String.Pos.Raw.mk offset).IsValid source →
      Text.Numeral.read (byteChars ((encode source.toList).drop offset)) = none := by
  refine ⟨fun m => ?_, ?_, fun m hm => ?_, ?_, fun offset hoffset => ?_⟩
  · rw [numeral?_eq_some_iff, Text.Numeral.read_eq_some_iff]
  · rw [numeral?_eq_none_iff, Text.Numeral.read_eq_none_iff]
  · obtain ⟨hsplit, -⟩ := splits_of_numeral? hm
    have happend : source.toList = before ++ m.taken ++ m.rest := by rw [List.append_assoc, hsplit, hsource]
    have hvalid := isValid_of_append happend
    exact ⟨hvalid.le_utf8ByteSize, hvalid⟩
  · have hdrop : (encode source.toList).drop (utf8Len before) = encode cs := by
      rw [hsource, Text.Utf8.encode_append, ← Text.Utf8.length_encode, List.drop_left]
    rw [hdrop, Text.Numeral.read_byteChars, numeral?]
    cases Text.Numeral.read cs <;> rfl
  · refine Text.Numeral.read_byteChars_drop_eq_none fun start rest hsplit hstart => hoffset ?_
    rw [← hstart]
    exact isValid_of_append hsplit

end

/-- A marker and a sign alone, before a letter that is no marker. -/
theorem numeral?_exact_sign :
    numeral? "1.e+x".toList = some ⟨⟨.numeric, "1.e+"⟩, "1.e+".toList, ['x']⟩ ∧
      Longest "1.e+x".toList "1.e+".toList := by
  have hsource : "é 1.e+x".toList = "é ".toList ++ "1.e+x".toList := by decide
  have hm : numeral? "1.e+x".toList = some ⟨⟨.numeric, "1.e+"⟩, "1.e+".toList, ['x']⟩ := rfl
  obtain ⟨-, -, hlongest, -⟩ := ((numeral?_exact hsource).1 _).1 hm
  exact ⟨hm, hlongest⟩

end SqlStore.Match
