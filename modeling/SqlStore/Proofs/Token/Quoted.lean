import SqlStore.Token.Match
import SqlStore.Proofs.Text.Quoted

/-!
# Quoted lexemes

What is read between two delimiters is what has been written between them, and nothing else is read
(`Match.quoted?_exact`).
-/

namespace SqlStore.Match

open String (utf8Len)
open Text.Quoted (Closes write)
open Text.Utf8 (decode? encode)

variable {kind : TokenKind} {q : Char} {cs rest : List Char} {m : Match}

theorem quoted?_write_append (v : String) (hrest : rest.head? ≠ some q) :
    quoted? kind q (write q v.toList ++ rest) = some ⟨⟨kind, v⟩, write q v.toList, rest⟩ := by
  simp [quoted?, Text.Quoted.read_write_append hrest]

theorem read_of_quoted? (h : quoted? kind q cs = some m) :
    Text.Quoted.read q cs = some (m.lexeme.text.toList, m.rest) ∧ m.lexeme.kind = kind ∧
      m.taken = write q m.lexeme.text.toList := by
  simp only [quoted?, Option.bind_eq_bind, Option.bind_eq_some_iff, Option.some.injEq] at h
  obtain ⟨⟨text, rest⟩, hread, rfl⟩ := h
  simpa using hread

theorem quoted?_eq_none_iff : quoted? kind q cs = none ↔ cs.head? ≠ some q ∨ ¬ Closes q cs.tail := by
  rw [quoted?, ← Text.Quoted.read_eq_none_iff]
  cases Text.Quoted.read q cs <;> simp

theorem mem_write_iff {c : Char} (hc : c ≠ q) (text : List Char) : c ∈ write q text ↔ c ∈ text := by
  rw [← List.count_pos_iff, Text.Quoted.count_write hc, List.count_pos_iff]

/-- Where the characters between delimiters lead: only line feeds of the text itself begin a line. -/
theorem advance_write (hq : q ≠ '\n') (p : Position) (text : List Char) :
    p.advance (write q text) = ⟨p.line + text.count '\n',
      if '\n' ∈ text then (Position.afterBytes (encode (write q text))).column
      else p.column + utf8Len (write q text)⟩ := by
  simp only [Position.advance_eq, Text.Quoted.count_write hq.symm, mem_write_iff hq.symm]

/-- The bytes of a text are read as its characters are. -/
theorem read_encode (hq : q.toNat < 128) (kind : TokenKind) (cs : List Char) :
    Text.Quoted.read q.toUInt8 (encode cs) =
      (quoted? kind q cs).map fun m => (encode m.lexeme.text.toList, encode m.rest) := by
  rw [Text.Quoted.read_encode hq, quoted?]
  cases Text.Quoted.read q cs with
  | none => rfl
  | some p => simp [Prod.map]

section

variable {source : String} {before : List Char} (hsource : source.toList = before ++ cs)

include hsource

/-- At a place of a source text, a text that is written between quotes is read again if no further quote follows it, and
the place after it is where its characters lead. Whatever is read was so written. Nothing is read exactly where there
is no opening quote, or none that closes. Over bytes the same is read, and the bytes between the quotes are always
well formed. -/
theorem quoted?_exact (hq : q = '\'' ∨ q = '"') (kind : TokenKind) (p : Position) :
    (∀ (v : String) (rest : List Char), cs = write q v.toList ++ rest → rest.head? ≠ some q →
      quoted? kind q cs = some ⟨⟨kind, v⟩, write q v.toList, rest⟩) ∧
    (∀ m, quoted? kind q cs = some m →
      m.lexeme.kind = kind ∧ m.taken = write q m.lexeme.text.toList ∧ cs = m.taken ++ m.rest ∧
      m.rest.head? ≠ some q ∧ (String.Pos.Raw.mk (utf8Len (before ++ m.taken))).IsValid source ∧
      p.advance m.taken = ⟨p.line + m.lexeme.text.toList.count '\n',
        if '\n' ∈ m.lexeme.text.toList then (Position.afterBytes (encode m.taken)).column
        else p.column + utf8Len m.taken⟩ ∧
      (p = .ofOffset source (utf8Len before) → p.advance m.taken = .ofOffset source (utf8Len (before ++ m.taken)))) ∧
    (quoted? kind q cs = none ↔ cs.head? ≠ some q ∨ ¬ Closes q cs.tail) ∧
    Text.Quoted.read q.toUInt8 (encode cs) =
      (quoted? kind q cs).map (fun m => (encode m.lexeme.text.toList, encode m.rest)) ∧
    ∀ value rest, Text.Quoted.read q.toUInt8 (encode cs) = some (value, rest) →
      (∃ text, decode? value = some text) ∧ encode cs = write q.toUInt8 value ++ rest ∧
        rest.head? ≠ some q.toUInt8 := by
  have hascii : q.toNat < 128 ∧ q ≠ '\n' := by rcases hq with rfl | rfl <;> decide
  refine ⟨fun v rest hcs hrest => hcs ▸ quoted?_write_append v hrest, fun m hm => ?_, quoted?_eq_none_iff,
    read_encode hascii.1 kind cs, fun value rest hread => ⟨?_, Text.Quoted.read_eq_some_iff.1 hread⟩⟩
  · obtain ⟨hread, hkind, htaken⟩ := read_of_quoted? hm
    obtain ⟨hcs, hrest⟩ := Text.Quoted.read_eq_some_iff.1 hread
    rw [← htaken] at hcs
    have hsplit : source.toList = before ++ m.taken ++ m.rest := by rw [List.append_assoc, ← hcs, hsource]
    refine ⟨hkind, htaken, hcs, hrest, isValid_of_append hsplit, ?_, fun hp => ?_⟩
    · rw [htaken, advance_write hascii.2]
    · rw [hp, Position.ofOffset_append hsource, Position.ofOffset_append hsplit, Position.advance_append]
  · rw [read_encode hascii.1 kind, Option.map_eq_some_iff] at hread
    obtain ⟨m, -, heq⟩ := hread
    exact ⟨m.lexeme.text.toList, by rw [← (Prod.mk.inj heq).1, Text.Utf8.decode?_encode]⟩

end

/-- A text with a quote and a line feed inside, at the second line of a source text. -/
theorem quoted?_exact_line_feed :
    quoted? .string '\'' "'a''\nb' ".toList = some ⟨⟨.string, "a'\nb"⟩, "'a''\nb'".toList, [' ']⟩ ∧
      (Position.mk 1 2).advance "'a''\nb'".toList = ⟨2, 2⟩ := by
  have hsource : "\n  'a''\nb' ".toList = "\n  ".toList ++ "'a''\nb' ".toList := rfl
  obtain ⟨hwritten, hread, -⟩ := quoted?_exact hsource (.inl rfl) .string ⟨1, 2⟩
  have hm := hwritten "a'\nb" [' '] rfl (by decide)
  obtain ⟨-, -, -, -, -, hplace, -⟩ := hread _ hm
  exact ⟨hm, hplace⟩

end SqlStore.Match
