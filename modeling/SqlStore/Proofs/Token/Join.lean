import SqlStore.Proofs.Token.Spelling

/-!
# Joined texts

A text that scans in full keeps its tokens when a line break or a punctuation mark follows, whatever comes after
that (`Scan.run_append`). The tokens of a text further down are the same tokens, some lines below (`Scan.run_down`).
So the tokens of two texts with a line break between them are those of both (`Token.ofSource_lineFeed`).
-/

namespace SqlStore

/-- A character that belongs to no token but its own: a punctuation mark or a separator, except the blank of a
reserved word of two words. -/
def Breaks (c : Char) : Prop := c ∈ delimiters ∧ c ≠ ' '

theorem breaks_semicolon : Breaks ';' := ⟨by decide, by decide⟩

theorem breaks_lineFeed : Breaks '\n' := ⟨by decide, by decide⟩

section

variable {c : Char} (hc : Breaks c)

include hc

theorem Keyword.not_mem_of_breaks (k : Keyword) : c.toLower ∉ k.spelling.toList := by
  rw [toLower_delimiter hc.1]
  intro hmem
  have hword : k.spelling.toList.all (fun c => c = ' ' ∨ c ∉ delimiters) := by cases k <;> decide
  have hnot := List.all_eq_true.1 hword c hmem
  simp [hc.1, hc.2] at hnot

theorem Breaks.not_isNumeralChar : Text.Numeral.isNumeralChar c = false := by
  have hall : delimiters.all (fun c => !Text.Numeral.isNumeralChar c) = true := by decide
  simpa using List.all_eq_true.1 hall c hc.1

theorem Breaks.ne_quote : c ≠ '\'' ∧ c ≠ '"' := by
  have hall : delimiters.all (fun c => c ≠ '\'' ∧ c ≠ '"') = true := by decide
  simpa using List.all_eq_true.1 hall c hc.1

end

/-! ## One lexeme -/

namespace Match

variable {c : Char} {cs more : List Char} {m : Match}

/-- The same match in a text that goes on. -/
def followedBy (m : Match) (more : List Char) : Match := { m with rest := m.rest ++ more }

theorem ofSpelling_followedBy {kind : TokenKind} {text spelling : String}
    (h : Text.Begins spelling.toList cs) (more : List Char) :
    ofSpelling kind text spelling (cs ++ more) = (ofSpelling kind text spelling cs).followedBy more := by
  have hle : spelling.length ≤ cs.length := by
    have hlength := List.IsPrefix.length_le h
    rwa [List.length_map, String.length_toList] at hlength
  simp [ofSpelling, followedBy, List.take_append_of_le_length hle, List.drop_append_of_le_length hle]

/-- Where a match leaves nothing, what follows does not go on with a word either. -/
theorem any_head?_followedBy (hc : Breaks c) (m : Match) :
    (m.followedBy (c :: more)).rest.head?.any isIdentifierChar = m.rest.head?.any isIdentifierChar := by
  unfold followedBy
  cases m.rest with
  | nil => simp [not_isIdentifierChar_delimiter hc.1]
  | cons d rest => rfl

theorem keyword?_append (hc : Breaks c) (hcs : cs ≠ []) :
    keyword? (cs ++ c :: more) = (keyword? cs).map (·.followedBy (c :: more)) := by
  have hmatch := @Text.longestMatch_append _ c cs more Keyword.spelling Keyword.all hcs fun k _ hmem =>
    k.not_mem_of_breaks hc (List.mem_of_mem_tail hmem)
  rw [keyword?, keyword?, hmatch]
  cases hlongest : Text.longestMatch Keyword.spelling Keyword.all cs with
  | none => rfl
  | some k =>
      have hfound := @ofSpelling_followedBy cs k.kind k.spelling _ (Text.begins_of_longestMatch hlongest).2 (c :: more)
      simp only [Option.bind_eq_bind, Option.bind_some, hfound, any_head?_followedBy hc]
      split <;> rfl

theorem symbol?_append (hc : Breaks c) (hcs : cs ≠ []) :
    symbol? (cs ++ c :: more) = (symbol? cs).map (·.followedBy (c :: more)) := by
  have hmatch := @Text.longestMatch_append _ c cs more Symbol.spelling Symbol.all hcs fun s _ => by
    rw [toLower_delimiter hc.1]
    exact s.not_mem_tail_of_delimiter hc.1
  rw [symbol?, symbol?, hmatch]
  cases hlongest : Text.longestMatch Symbol.spelling Symbol.all cs with
  | none => rfl
  | some s => simp [ofSpelling_followedBy (Text.begins_of_longestMatch hlongest).2]

theorem quoted?_append {kind : TokenKind} {q : Char} (hq : c ≠ q) (h : quoted? kind q cs = some m) :
    quoted? kind q (cs ++ c :: more) = some (m.followedBy (c :: more)) := by
  simp only [quoted?, Option.bind_eq_bind, Option.bind_eq_some_iff, Option.some.injEq] at h
  obtain ⟨⟨text, rest⟩, hread, rfl⟩ := h
  obtain ⟨rfl, hrest⟩ := Text.Quoted.read_eq_some_iff.1 hread
  have hread' : Text.Quoted.read q (Text.Quoted.write q text ++ rest ++ c :: more) =
      some (text, rest ++ c :: more) := by
    refine Text.Quoted.read_eq_some_iff.2 ⟨List.append_assoc _ _ _, ?_⟩
    cases rest with
    | nil => simpa using hq
    | cons d rest => exact hrest
  rw [quoted?, hread']
  rfl

theorem numeral?_append (hc : Breaks c) (h : numeral? cs = some m) :
    numeral? (cs ++ c :: more) = some (m.followedBy (c :: more)) := by
  simp only [numeral?, Option.bind_eq_bind, Option.bind_eq_some_iff, Option.some.injEq] at h
  obtain ⟨⟨numeral, rest⟩, hread, rfl⟩ := h
  rw [numeral?, Text.Numeral.read_append_cons hc.not_isNumeralChar hread]
  rfl

theorem quotedIdentifier?_append (hc : Breaks c) (h : quotedIdentifier? cs = some m) :
    quotedIdentifier? (cs ++ c :: more) = some (m.followedBy (c :: more)) := by
  simp only [quotedIdentifier?, Option.bind_eq_bind, Option.bind_eq_some_iff] at h
  obtain ⟨found, hfound, h⟩ := h
  split at h
  · cases h
  rename_i hname
  cases h
  rw [quotedIdentifier?, quoted?_append hc.ne_quote.2 hfound]
  exact if_neg hname

theorem bareIdentifier?_append (hc : Breaks c) (h : bareIdentifier? cs = some m) :
    bareIdentifier? (cs ++ c :: more) = some (m.followedBy (c :: more)) := by
  unfold bareIdentifier? at h ⊢
  split at h
  swap
  · cases h
  rename_i hhead
  cases h
  have hstop := not_isIdentifierChar_delimiter hc.1
  have hhead' : (cs ++ c :: more).head?.any Char.isAlpha = true := by
    cases cs with
    | nil => cases hhead
    | cons d cs => exact hhead
  rw [if_pos hhead', Text.takeWhile_append_cons hstop, Text.dropWhile_append_cons hstop]
  rfl

/-! The classes after the symbols are told apart by the first character. -/

section

variable {d : Char}

theorem head_of_quoted? {kind : TokenKind} {q : Char} (h : quoted? kind q (d :: cs) = some m) : d = q := by
  by_contra hd
  simp [quoted?, Text.Quoted.read, hd] at h

theorem head_of_numeral? (h : numeral? (d :: cs) = some m) : d.isDigit = true ∨ d = '.' := by
  by_contra hd
  simp_all [numeral?, Text.Numeral.read, Text.Numeral.mantissa, Text.Numeral.digits, Text.Numeral.fraction]

theorem head_of_quotedIdentifier? (h : quotedIdentifier? (d :: cs) = some m) : d = '"' := by
  simp only [quotedIdentifier?, Option.bind_eq_bind, Option.bind_eq_some_iff] at h
  obtain ⟨found, hfound, -⟩ := h
  exact head_of_quoted? hfound

theorem head_of_bareIdentifier? (h : bareIdentifier? (d :: cs) = some m) : d.isAlpha = true := by
  unfold bareIdentifier? at h
  split at h
  · assumption
  · cases h

theorem string?_of_numeral? (h : numeral? (d :: cs) = some m) (cs' : List Char) : string? (d :: cs') = none := by
  refine Option.eq_none_iff_forall_ne_some.2 fun n hn => ?_
  obtain rfl := head_of_quoted? hn
  exact absurd (head_of_numeral? h) (by decide)

theorem quoted_numeral?_of_bareIdentifier? (h : bareIdentifier? (d :: cs) = some m) (cs' : List Char) :
    string? (d :: cs') = none ∧ numeral? (d :: cs') = none ∧ quotedIdentifier? (d :: cs') = none := by
  have hd := head_of_bareIdentifier? h
  refine ⟨?_, ?_, ?_⟩ <;> refine Option.eq_none_iff_forall_ne_some.2 fun n hn => ?_
  · obtain rfl := head_of_quoted? hn
    cases hd
  · rcases head_of_numeral? hn with hdigit | rfl
    · rw [(toLower_digit hdigit).2] at hd
      cases hd
    · cases hd
  · obtain rfl := head_of_quotedIdentifier? hn
    cases hd

end

/-- What is found at the head of a text is found there whatever follows a breaking character. -/
theorem first?_append (hc : Breaks c) (hcs : cs ≠ []) (h : first? cs = some m) :
    first? (cs ++ c :: more) = some (m.followedBy (c :: more)) := by
  simp only [first?, Option.or_eq_some_iff] at h
  rw [first?, keyword?_append hc hcs, symbol?_append hc hcs]
  rcases h with h | ⟨hkeyword, h⟩
  · simp [h]
  rcases h with h | ⟨hsymbol, h⟩
  · simp [hkeyword, h]
  rw [hkeyword, hsymbol]
  obtain ⟨d, cs, rfl⟩ := List.exists_cons_of_ne_nil hcs
  rw [List.cons_append]
  rcases h with h | ⟨-, h | ⟨-, h | ⟨-, h⟩⟩⟩
  · have hfound : string? (d :: (cs ++ c :: more)) = _ := quoted?_append hc.ne_quote.1 h
    simp [hfound]
  · have hfound : numeral? (d :: (cs ++ c :: more)) = _ := numeral?_append hc h
    simp [string?_of_numeral? h, hfound]
  · have hfound : quotedIdentifier? (d :: (cs ++ c :: more)) = _ := quotedIdentifier?_append hc h
    obtain rfl := head_of_quotedIdentifier? h
    rw [hfound]
    rfl
  · have hfound : bareIdentifier? (d :: (cs ++ c :: more)) = _ := bareIdentifier?_append hc h
    simp [quoted_numeral?_of_bareIdentifier? h, hfound]

end Match

/-! ## Whole texts -/

namespace Scan

variable {c : Char} {cs more : List Char} {p : Position}

theorem run_append (hc : Breaks c) (h : (run p cs).rest = []) :
    run p (cs ++ c :: more) = ⟨(run p cs).tokens ++ (run (p.advance cs) (c :: more)).tokens,
      (run (p.advance cs) (c :: more)).rest, (run (p.advance cs) (c :: more)).stop⟩ := by
  fun_induction run p cs with
  | case1 => rfl
  | case2 p d cs hd ih =>
      rw [afterSeparator_eq hd] at ih h ⊢
      rw [List.cons_append, run_separator hd]
      exact ih h
  | case3 => cases h
  | case4 p d cs hd m stop hm scan ih =>
      -- the lexeme is found again, and what it leaves is again a text that something follows
      obtain ⟨hfirst, rfl⟩ := Match.firstAt?_eq_some_iff.1 hm
      obtain ⟨happend, -⟩ := Match.splits_of_first? (List.cons_ne_nil _ _) hfirst
      have hmatch : Match.first? (d :: (cs ++ c :: more)) = _ := Match.first?_append hc (List.cons_ne_nil _ _) hfirst
      rw [List.cons_append]
      have hrest : run (p.advance m.taken) (m.rest ++ c :: more) = _ := ih h
      rw [run_some (by simpa using hd) hmatch]
      simp only [Match.followedBy]
      rw [hrest, ← happend, Position.advance_append]
      rfl

end Scan

/-! ## Text further down -/

/-- The place some lines below. -/
def Position.down (lines : Nat) (p : Position) : Position := ⟨p.line + lines, p.column⟩

/-- The token some lines below. -/
def Token.down (lines : Nat) (t : Token) : Token := ⟨t.lexeme, t.start.down lines, t.stop.down lines⟩

theorem Position.next_down (lines : Nat) (p : Position) (c : Char) : (p.down lines).next c = (p.next c).down lines := by
  unfold next down
  split <;> simp [Nat.add_right_comm]

theorem Position.advance_down (lines : Nat) (p : Position) (cs : List Char) :
    (p.down lines).advance cs = (p.advance cs).down lines := by
  induction cs generalizing p with
  | nil => rfl
  | cons c cs ih => rw [advance_cons, next_down, ih, advance_cons]

theorem Position.line_advance (p : Position) (cs : List Char) : (p.advance cs).line = p.line + cs.count '\n' := by
  induction cs generalizing p with
  | nil => rfl
  | cons c cs ih =>
      rw [advance_cons, ih, next]
      by_cases hc : c = '\n'
      · simp only [hc, ↓reduceIte, List.count_cons_self]
        omega
      · simp [hc]

theorem Position.line_advance_origin (cs : List Char) : (origin.advance cs).line = cs.count '\n' := by
  rw [line_advance]
  exact Nat.zero_add _

theorem Scan.run_down (lines : Nat) (p : Position) (cs : List Char) :
    run (p.down lines) cs =
      ⟨(run p cs).tokens.map (Token.down lines), (run p cs).rest, (run p cs).stop.down lines⟩ := by
  fun_induction run p cs with
  | case1 => simp
  | case2 p c cs hc ih =>
      rw [afterSeparator_eq hc] at ih ⊢
      rw [run_separator hc, Position.next_down, ih]
  | case3 p c cs hc hm =>
      rw [run_none (by simpa using hc) (Match.firstAt?_eq_none_iff.1 hm)]
      rfl
  | case4 p c cs hc m stop hm scan ih =>
      obtain ⟨hfirst, rfl⟩ := Match.firstAt?_eq_some_iff.1 hm
      rw [run_some (by simpa using hc) hfirst, Position.advance_down, ih]
      rfl

theorem Token.ofSource_eq_ok_iff {source : String} {tokens : List Token} :
    ofSource source = .ok tokens ↔
      (Scan.run .origin source.toList).rest = [] ∧ (Scan.run .origin source.toList).tokens = tokens := by
  rw [ofSource, Scan.ofSource]
  split <;> simp_all

/-- What follows a line feed scans as a text of its own, some lines below. -/
theorem Scan.run_lineFeed (p : Position) (cs : List Char) :
    run p ('\n' :: cs) =
      ⟨(run .origin cs).tokens.map (Token.down (p.line + 1)), (run .origin cs).rest,
        (run .origin cs).stop.down (p.line + 1)⟩ := by
  have hbelow : p.next '\n' = Position.origin.down (p.line + 1) := by
    simp [Position.next, Position.down, Position.origin]
  rw [run_separator rfl, hbelow, run_down]

theorem Scan.run_semicolon (p : Position) (cs : List Char) :
    run p (';' :: '\n' :: cs) =
      ⟨⟨.symbol .semicolon, p, p.next ';'⟩ :: (run .origin cs).tokens.map (Token.down (p.line + 1)),
        (run .origin cs).rest, (run .origin cs).stop.down (p.line + 1)⟩ := by
  have hsemicolon : run p (';' :: '\n' :: cs) = _ :=
    run_first? (List.cons_ne_nil _ _) (@Match.first?_punctuation .semicolon (by decide) ('\n' :: cs))
  have hadvance : p.advance Symbol.semicolon.spelling.toList = p.next ';' := rfl
  rw [hsemicolon, hadvance, run_lineFeed]
  rfl

/-- A semicolon and a line break between two texts add one token, and put the second text below the first. -/
theorem Token.ofSource_semicolon {source₁ source₂ : String} {tokens₁ tokens₂ : List Token}
    (h₁ : ofSource source₁ = .ok tokens₁) (h₂ : ofSource source₂ = .ok tokens₂) :
    ∃ semicolon : Token, semicolon.lexeme = .symbol .semicolon ∧
      ofSource (source₁ ++ ";\n" ++ source₂) =
        .ok (tokens₁ ++ semicolon :: tokens₂.map (down (source₁.toList.count '\n' + 1))) := by
  obtain ⟨hrest₁, rfl⟩ := ofSource_eq_ok_iff.1 h₁
  obtain ⟨hrest₂, rfl⟩ := ofSource_eq_ok_iff.1 h₂
  have hsource : (source₁ ++ ";\n" ++ source₂).toList = source₁.toList ++ ';' :: '\n' :: source₂.toList := by
    simp [String.toList_append]
  let place := Position.origin.advance source₁.toList
  refine ⟨⟨.symbol .semicolon, place, place.next ';'⟩, rfl, ofSource_eq_ok_iff.2 ?_⟩
  rw [hsource, Scan.run_append breaks_semicolon hrest₁, Scan.run_semicolon, Position.line_advance_origin]
  exact ⟨hrest₂, rfl⟩

/-- Two texts with a line break between them have the tokens of both: those of the first as they are, and those of the
second as many lines further down as there are up to the end of the line break. -/
theorem Token.ofSource_lineFeed {source₁ source₂ : String} {tokens₁ tokens₂ : List Token}
    (h₁ : ofSource source₁ = .ok tokens₁) (h₂ : ofSource source₂ = .ok tokens₂) :
    ofSource (source₁ ++ "\n" ++ source₂) =
      .ok (tokens₁ ++ tokens₂.map (down (1 + source₁.toList.count '\n'))) := by
  obtain ⟨hrest₁, rfl⟩ := ofSource_eq_ok_iff.1 h₁
  obtain ⟨hrest₂, rfl⟩ := ofSource_eq_ok_iff.1 h₂
  have hsource : (source₁ ++ "\n" ++ source₂).toList = source₁.toList ++ '\n' :: source₂.toList := by
    simp [String.toList_append]
  refine ofSource_eq_ok_iff.2 ?_
  rw [hsource, Scan.run_append breaks_lineFeed hrest₁, Scan.run_lineFeed, Position.line_advance_origin, Nat.add_comm]
  exact ⟨hrest₂, rfl⟩

/-- Two words that a blank would make one reserved word, after a string of two lines and before a numeral. -/
theorem Token.ofSource_lineFeed_primary_key :
    let first := "'a\nb', primary"
    let second := "key 1e5"
    ofSource (first ++ "\n" ++ second) = .ok
      ([⟨⟨.string, "a\nb"⟩, ⟨0, 0⟩, ⟨1, 2⟩⟩, ⟨.symbol .comma, ⟨1, 2⟩, ⟨1, 3⟩⟩,
          ⟨.identifier "primary", ⟨1, 4⟩, ⟨1, 11⟩⟩] ++
        [⟨.identifier "key", ⟨2, 0⟩, ⟨2, 3⟩⟩, ⟨⟨.numeric, "1e5"⟩, ⟨2, 4⟩, ⟨2, 7⟩⟩]) := by
  intro first second
  have hfirst : ofSource first = .ok [⟨⟨.string, "a\nb"⟩, ⟨0, 0⟩, ⟨1, 2⟩⟩, ⟨.symbol .comma, ⟨1, 2⟩, ⟨1, 3⟩⟩,
      ⟨.identifier "primary", ⟨1, 4⟩, ⟨1, 11⟩⟩] := by
    decide +kernel
  have hsecond : ofSource second = .ok [⟨.identifier "key", ⟨0, 0⟩, ⟨0, 3⟩⟩, ⟨⟨.numeric, "1e5"⟩, ⟨0, 4⟩, ⟨0, 7⟩⟩] := by
    decide +kernel
  have hlines : first.toList.count '\n' = 1 := by decide
  rw [ofSource_lineFeed hfirst hsecond, hlines]
  rfl

end SqlStore
