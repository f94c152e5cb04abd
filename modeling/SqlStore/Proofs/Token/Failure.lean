import SqlStore.Proofs.Token.Quoted
import SqlStore.Proofs.Token.Tiling

/-!
# Where no lexeme fits

A source text that is not read in full has an offset at which no reader finds a lexeme. What the error says of this
place can be told from the bytes there alone (`Token.ofSource_error`): a quote that is never closed, an identifier in
quotes with nothing between them, or neither. A string or an identifier that is properly closed is never such a place.
-/

namespace SqlStore

open String (utf8Len)
open Text.Quoted (Closes write)
open Text.Utf8 (encode)

/-- A quote is at the offset, and nothing in the rest of the source closes it: quotes in pairs do not. -/
def UnclosedAt (source : String) (offset : Nat) : Prop :=
  ∃ q, (q = '\'' ∨ q = '"') ∧ (encode source.toList)[offset]? = some q.toUInt8 ∧
    ¬ Closes q.toUInt8 ((encode source.toList).drop (offset + 1))

/-- Two double quotes are at the offset, and no third after them. -/
def EmptyNameAt (source : String) (offset : Nat) : Prop :=
  (encode source.toList)[offset]? = some '"'.toUInt8 ∧ (encode source.toList)[offset + 1]? = some '"'.toUInt8 ∧
    (encode source.toList)[offset + 2]? ≠ some '"'.toUInt8

/-- A closed string, or a closed identifier in quotes that is not empty, is at the offset. -/
def QuotedAt (source : String) (offset : Nat) : Prop :=
  ∃ q text after, (q = '\'' ∨ q = '"' ∧ text ≠ []) ∧
    (encode source.toList).drop offset = write q.toUInt8 text ++ after ∧ after.head? ≠ some q.toUInt8

/-- What an error says of the token before its place. -/
def LexError.previousHint (tokens : List Token) : String :=
  match tokens.getLast? with
  | none => ""
  | some t => " after " ++ t.text

/-! ## Bytes at an offset -/

section

variable {source : String} {before rest : List Char} {q : Char}

theorem drop_encode (h : source.toList = before ++ rest) :
    (encode source.toList).drop (utf8Len before) = encode rest := by
  rw [h, Text.Utf8.encode_append, ← Text.Utf8.length_encode, List.drop_left]

theorem ascii_of_quote (hq : q = '\'' ∨ q = '"') : q.toNat < 128 := by
  rcases hq with rfl | rfl <;> decide

theorem head?_encode_iff (hq : q.toNat < 128) : (encode rest).head? = some q.toUInt8 ↔ rest.head? = some q := by
  constructor
  · intro h
    by_contra hne
    exact Text.Quoted.head?_encode_ne hq hne h
  · intro h
    obtain ⟨more, rfl⟩ := List.head?_eq_some_iff.1 h
    rw [Text.Utf8.encode_cons, Text.Utf8.encodeChar_of_ascii hq]
    rfl

/-- Among the characters from the offset on, a quote is first and no text is read after it. -/
theorem unclosedAt_iff (h : source.toList = before ++ rest) :
    UnclosedAt source (utf8Len before) ↔
      ∃ q, (q = '\'' ∨ q = '"') ∧ rest.head? = some q ∧ Text.Quoted.read q rest = none := by
  refine exists_congr fun q => and_congr_right fun hq => ?_
  have hascii := ascii_of_quote hq
  have hread : Text.Quoted.read q rest = none ↔ Text.Quoted.read q.toUInt8 (encode rest) = none := by
    rw [Text.Quoted.read_encode hascii, Option.map_eq_none_iff]
  rw [← List.tail_drop, ← List.head?_drop, drop_encode h, hread, Text.Quoted.read_eq_none_iff,
    ← head?_encode_iff hascii]
  refine and_congr_right fun hhead => ?_
  simp [hhead]

/-- Among the characters from the offset on, an empty text is read between double quotes. -/
theorem emptyNameAt_iff (h : source.toList = before ++ rest) :
    EmptyNameAt source (utf8Len before) ↔ ∃ after, Text.Quoted.read '"' rest = some ([], after) := by
  have hbytes : EmptyNameAt source (utf8Len before) ↔
      ∃ after, Text.Quoted.read '"'.toUInt8 (encode rest) = some ([], after) := by
    rw [Text.Quoted.exists_read_eq_nil_iff, ← drop_encode h]
    simp [EmptyNameAt, List.getElem?_drop]
  rw [hbytes, Text.Quoted.read_encode (by decide)]
  constructor
  · rintro ⟨after, hread⟩
    obtain ⟨⟨text, more⟩, hread, heq⟩ := Option.map_eq_some_iff.1 hread
    obtain rfl := Text.Utf8.encode_eq_nil_iff.1 (Prod.mk.inj heq).1
    exact ⟨more, hread⟩
  · rintro ⟨after, hread⟩
    rw [hread]
    exact ⟨_, rfl⟩

/-- Among the characters from the offset on, a text is read between the quotes. -/
theorem quotedAt_iff (h : source.toList = before ++ rest) :
    QuotedAt source (utf8Len before) ↔
      ∃ q text after, (q = '\'' ∨ q = '"' ∧ text ≠ []) ∧ Text.Quoted.read q rest = some (text, after) := by
  rw [QuotedAt, drop_encode h]
  simp only [← Text.Quoted.read_eq_some_iff]
  constructor
  · rintro ⟨q, value, after, hq, hread⟩
    have hascii := ascii_of_quote (hq.imp_right And.left)
    rw [Text.Quoted.read_encode hascii] at hread
    obtain ⟨⟨text, more⟩, hread, heq⟩ := Option.map_eq_some_iff.1 hread
    refine ⟨q, text, more, hq.imp_right (And.imp_right fun hne => ?_), hread⟩
    rintro rfl
    exact hne (Prod.mk.inj heq).1.symm
  · rintro ⟨q, text, after, hq, hread⟩
    have hascii := ascii_of_quote (hq.imp_right And.left)
    refine ⟨q, encode text, encode after, hq.imp_right (And.imp_right fun hne => ?_), ?_⟩
    · exact fun hnil => hne (Text.Utf8.encode_eq_nil_iff.1 hnil)
    · rw [Text.Quoted.read_encode hascii, hread]
      rfl

end

/-! ## Problems -/

section

variable {rest : List Char}

theorem Match.NothingFits.read_eq_none (h : NothingFits rest) : Text.Quoted.read '\'' rest = none := by
  have hstring : string? rest = none := h.2 _ (by simp [readers])
  rwa [string?, quoted?_eq_none_iff, ← Text.Quoted.read_eq_none_iff] at hstring

theorem Match.NothingFits.text_eq_nil {text after : List Char} (h : NothingFits rest)
    (hread : Text.Quoted.read '"' rest = some (text, after)) : text = [] := by
  have hname : quotedIdentifier? rest = none := h.2 _ (by simp [readers])
  simpa [quotedIdentifier?, quoted?, hread] using hname

namespace LexProblem

theorem ofRest_of_quote {q : Char} (hq : q = '\'' ∨ q = '"') (hhead : rest.head? = some q) :
    ofRest rest = if (Text.Quoted.read q rest).isSome then .emptyIdentifier else .unterminatedQuote := by
  obtain ⟨cs, rfl⟩ := List.head?_eq_some_iff.1 hhead
  rw [ofRest, if_pos hq]

theorem ofRest_eq_unterminatedQuote_iff :
    ofRest rest = .unterminatedQuote ↔
      ∃ q, (q = '\'' ∨ q = '"') ∧ rest.head? = some q ∧ Text.Quoted.read q rest = none := by
  constructor
  · intro hrest
    cases rest with
    | nil => cases hrest
    | cons c cs =>
        rw [ofRest] at hrest
        split_ifs at hrest with hc hread
        exact ⟨c, hc, rfl, by simpa using hread⟩
  · rintro ⟨q, hq, hhead, hread⟩
    rw [ofRest_of_quote hq hhead, hread]
    rfl

/-- A quote that is closed is where nothing fits only if it opens an empty identifier. -/
theorem ofRest_eq_emptyIdentifier_iff (h : Match.NothingFits rest) :
    ofRest rest = .emptyIdentifier ↔ ∃ after, Text.Quoted.read '"' rest = some ([], after) := by
  constructor
  · intro hrest
    cases rest with
    | nil => cases hrest
    | cons c cs =>
        rw [ofRest] at hrest
        split_ifs at hrest with hc hread
        obtain ⟨⟨text, after⟩, hread⟩ := Option.isSome_iff_exists.1 hread
        rcases hc with rfl | rfl
        · rw [h.read_eq_none] at hread
          cases hread
        · obtain rfl := h.text_eq_nil hread
          exact ⟨after, hread⟩
  · rintro ⟨after, hread⟩
    have hhead : rest.head? = some '"' := by
      obtain ⟨hrest, -⟩ := Text.Quoted.read_eq_some_iff.1 hread
      rw [hrest]
      rfl
    rw [ofRest_of_quote (.inr rfl) hhead, hread]
    rfl

theorem hint_eq_unterminatedQuote_iff {p : LexProblem} :
    p.hint = ": unterminated quoted literal" ↔ p = .unterminatedQuote := by
  cases p <;> decide

theorem hint_eq_emptyIdentifier_iff {p : LexProblem} :
    p.hint = ": empty quoted identifier" ↔ p = .emptyIdentifier := by
  cases p <;> decide

theorem hint_eq_empty_iff {p : LexProblem} : p.hint = "" ↔ p ≠ .unterminatedQuote ∧ p ≠ .emptyIdentifier := by
  cases p <;> decide

end LexProblem

end

/-! ## Errors -/

theorem LexError.previousHint_eq (tokens : List Token) :
    ((tokens.getLast?.map Token.text).map (" after " ++ ·)).getD "" = previousHint tokens := by
  rw [previousHint]
  cases tokens.getLast? <;> rfl

theorem LexError.message_eq {tokens : List Token} {problem : LexProblem} {p : Position} :
    (LexError.mk problem (tokens.getLast?.map Token.text) p).message =
      "Unable to lex token" ++ (previousHint tokens ++ problem.hint) ++ ", at " ++ p.render := by
  -- the message is an interpolated text, which is compared with its parts as a whole
  calc
    _ = "Unable to lex token" ++ ((tokens.getLast?.map Token.text).map (" after " ++ ·)).getD "" ++ problem.hint ++
        ", at " ++ p.render := rfl
    _ = _ := by rw [previousHint_eq, @String.append_assoc "Unable to lex token"]

/-- Where a source text is not read in full, the error is at an offset up to which tokens tile the text. Its message
names the last of these tokens, and after it says of the place what the bytes there say: a quote that is never closed,
two double quotes with nothing between them, or neither. No string is there that is closed, and no identifier in quotes
that is closed and not empty. -/
theorem Token.ofSource_error {source : String} {e : LexError} (h : ofSource source = .error e) :
    let tokens := (Scan.ofSource source).tokens
    let hint := LexError.previousHint tokens ++ e.problem.hint
    ∃ offset < source.utf8ByteSize, e.position = .ofOffset source offset ∧
      (∃ spans, Tiling source 0 offset tokens spans) ∧
      e.message = "Unable to lex token" ++ hint ++ ", at " ++ e.position.render ∧
      (e.problem.hint = ": unterminated quoted literal" ↔ UnclosedAt source offset) ∧
      (e.problem.hint = ": empty quoted identifier" ↔ EmptyNameAt source offset) ∧
      (e.problem.hint = "" ↔ ¬ UnclosedAt source offset ∧ ¬ EmptyNameAt source offset) ∧
      ¬ QuotedAt source offset := by
  intro tokens hint
  obtain ⟨before, spans, hsource, hstop, htiles⟩ := @Scan.run_tiles source [] source.toList .origin rfl rfl
  rw [ofSource] at h
  split_ifs at h with hrest
  cases h
  have hne : (Scan.ofSource source).rest ≠ [] := by simpa using hrest
  have hfits := Scan.nothingFits_rest .origin source.toList hne
  have hunclosed := LexProblem.ofRest_eq_unterminatedQuote_iff.trans (unclosedAt_iff hsource).symm
  have hempty := (LexProblem.ofRest_eq_emptyIdentifier_iff hfits).trans (emptyNameAt_iff hsource).symm
  refine ⟨utf8Len before, ?_, ?_, ⟨spans, htiles⟩, LexError.message_eq,
    LexProblem.hint_eq_unterminatedQuote_iff.trans hunclosed, LexProblem.hint_eq_emptyIdentifier_iff.trans hempty,
    LexProblem.hint_eq_empty_iff.trans (and_congr hunclosed.not hempty.not), ?_⟩
  · have hpos := utf8Len_pos hne
    rw [utf8ByteSize_of_append hsource]
    exact Nat.lt_add_of_pos_right hpos
  · rw [Position.ofOffset_append hsource]
    exact hstop
  · rw [quotedAt_iff hsource]
    -- a closed string and a closed name would have been read here
    rintro ⟨q, text, after, rfl | ⟨rfl, htext⟩, hread⟩
    · rw [hfits.read_eq_none] at hread
      cases hread
    · exact htext (hfits.text_eq_nil hread)

/-- Two quotes inside a string do not close it. -/
theorem Token.ofSource_error_doubled :
    let source := "select 'it''s"
    ofSource source = .error ⟨.unterminatedQuote, some "select", ⟨0, 7⟩⟩ ∧ UnclosedAt source 7 := by
  intro source
  have hsource : ofSource source = .error ⟨.unterminatedQuote, some "select", ⟨0, 7⟩⟩ := by decide +kernel
  obtain ⟨offset, hlt, hplace, -, -, hunclosed, -⟩ := ofSource_error hsource
  have hplace' : Position.ofOffset source 7 = ⟨0, 7⟩ := by decide +kernel
  have hoffset : offset = 7 :=
    Position.ofOffset_inj (Nat.le_of_lt hlt) (by decide) (hplace.symm.trans hplace'.symm)
  rw [hoffset] at hunclosed
  exact ⟨hsource, hunclosed.1 rfl⟩

end SqlStore
