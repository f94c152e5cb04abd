import SqlStore.Position
import SqlStore.Text.LongestMatch
import SqlStore.Text.Numeral
import SqlStore.Text.Utf8
import SqlStore.Token.Lexeme

/-!
# The lexeme at the head of a text

One reader for each class of lexemes, and `Match.first?`, which takes the first class that fits. Whatever is
found takes at least one character, and what it takes and what it leaves make up the text (`splits_of_first?`).
Each reader counts lines and columns in its own way (`firstAt?`).
-/

namespace SqlStore

/-- A lexeme found at the head of a text, the characters it takes, and the text after them. -/
structure Match where
  lexeme : Lexeme
  taken : List Char
  rest : List Char

namespace Match

/-- A lexeme written with as many characters as `spelling`. -/
def ofSpelling (kind : TokenKind) (text spelling : String) (cs : List Char) : Match :=
  ⟨⟨kind, text⟩, cs.take spelling.length, cs.drop spelling.length⟩

/-- A reserved word that is not the beginning of a longer word. -/
def keyword? (cs : List Char) : Option Match := do
  let k ← Text.longestMatch Keyword.spelling Keyword.all cs
  let found := ofSpelling k.kind k.spelling k.spelling cs
  if found.rest.head?.any isIdentifierChar then none else some found

def symbol? (cs : List Char) : Option Match := do
  let s ← Text.longestMatch Symbol.spelling Symbol.all cs
  some (ofSpelling .symbol s.canonical.spelling s.spelling cs)

/-- A text between delimiters. -/
def quoted? (kind : TokenKind) (q : Char) (cs : List Char) : Option Match := do
  let (text, rest) ← Text.Quoted.read q cs
  some ⟨⟨kind, String.ofList text⟩, Text.Quoted.write q text, rest⟩

def string? (cs : List Char) : Option Match :=
  quoted? .string '\'' cs

def numeral? (cs : List Char) : Option Match := do
  let (numeral, rest) ← Text.Numeral.read cs
  some ⟨⟨.numeric, String.ofList numeral⟩, numeral, rest⟩

/-- An identifier in double quotes, which is not empty. -/
def quotedIdentifier? (cs : List Char) : Option Match := do
  let found ← quoted? .identifier '"' cs
  if found.lexeme.text.isEmpty then none else some found

/-- A letter and the identifier characters after it, in lower case. -/
def bareIdentifier? (cs : List Char) : Option Match :=
  if cs.head?.any Char.isAlpha then
    let word := cs.takeWhile isIdentifierChar
    some ⟨.identifier (String.ofList (word.map Char.toLower)), word, cs.dropWhile isIdentifierChar⟩
  else none

/-- The first of the classes that fits: keyword, symbol, string, numeral, identifier. -/
def first? (cs : List Char) : Option Match :=
  (keyword? cs).or <| (symbol? cs).or <| (string? cs).or <| (numeral? cs).or <|
    (quotedIdentifier? cs).or (bareIdentifier? cs)

/-! ## Where a reader stops -/

/-- A lexeme without line feeds is passed in one move on its line. -/
def stopOnLine (p : Position) (m : Match) : Position :=
  p.forward (Text.Utf8.encode m.taken).length

/-- From the place after an opening delimiter to the place after the closing one: a doubled delimiter takes two columns,
and a line feed leads to the next line. -/
def stopInQuotes (q : Char) (p : Position) : List Char → Position
  | [] => p
  | [_] => p.forward 1
  | c :: d :: cs =>
      if c = q then
        if d = q then stopInQuotes q (p.forward 2) cs else p.forward 1
      else stopInQuotes q (if c = '\n' then p.nextLine else p.forward c.utf8Size) (d :: cs)

/-- What a reader finds on one line, with the place where it stops. -/
def onLine (p : Position) (found : Option Match) : Option (Match × Position) :=
  found.map fun m => (m, stopOnLine p m)

/-- What a reader finds between delimiters, with the place where it stops. -/
def inQuotes (q : Char) (p : Position) (cs : List Char) (found : Option Match) : Option (Match × Position) :=
  found.map fun m => (m, stopInQuotes q (p.forward 1) cs.tail)

/-- The first of the classes that fits a text that starts at a place, and the place where its reader stops. -/
def firstAt? (p : Position) (cs : List Char) : Option (Match × Position) :=
  (onLine p (keyword? cs)).or <| (onLine p (symbol? cs)).or <| (inQuotes '\'' p cs (string? cs)).or <|
    (onLine p (numeral? cs)).or <| (inQuotes '"' p cs (quotedIdentifier? cs)).or (onLine p (bareIdentifier? cs))

@[simp] theorem map_fst_onLine (p : Position) (found : Option Match) : (onLine p found).map Prod.fst = found := by
  cases found <;> rfl

@[simp] theorem map_fst_inQuotes (q : Char) (p : Position) (cs : List Char) (found : Option Match) :
    (inQuotes q p cs found).map Prod.fst = found := by
  cases found <;> rfl

theorem map_fst_firstAt? (p : Position) (cs : List Char) : (firstAt? p cs).map Prod.fst = first? cs := by
  simp only [firstAt?, first?, Option.map_or, map_fst_onLine, map_fst_inQuotes]

/-! ## What a match takes -/

/-- The match takes at least one character of the text and leaves the others. -/
def Splits (m : Match) (cs : List Char) : Prop :=
  m.taken ++ m.rest = cs ∧ m.taken ≠ []

theorem ofSpelling_splits (kind : TokenKind) (text : String) {spelling : String} {cs : List Char}
    (hs : spelling ≠ "") (hcs : cs ≠ []) : (ofSpelling kind text spelling cs).Splits cs := by
  refine ⟨List.take_append_drop _ _, ?_⟩
  simp [ofSpelling, List.take_eq_nil_iff, hs, hcs]

theorem splits_of_keyword? {cs : List Char} {m : Match} (hcs : cs ≠ []) (h : keyword? cs = some m) :
    m.Splits cs := by
  simp only [keyword?, Option.bind_eq_bind, Option.bind_eq_some_iff] at h
  obtain ⟨k, -, h⟩ := h
  split at h <;> simp only [Option.some.injEq, reduceCtorEq] at h
  exact h ▸ ofSpelling_splits _ _ (by cases k <;> decide) hcs

theorem splits_of_symbol? {cs : List Char} {m : Match} (hcs : cs ≠ []) (h : symbol? cs = some m) :
    m.Splits cs := by
  simp only [symbol?, Option.bind_eq_bind, Option.bind_eq_some_iff, Option.some.injEq] at h
  obtain ⟨s, -, rfl⟩ := h
  exact ofSpelling_splits _ _ (by cases s <;> decide) hcs

theorem splits_of_quoted? {kind : TokenKind} {q : Char} {cs : List Char} {m : Match}
    (h : quoted? kind q cs = some m) : m.Splits cs := by
  simp only [quoted?, Option.bind_eq_bind, Option.bind_eq_some_iff, Option.some.injEq] at h
  obtain ⟨⟨text, rest⟩, hread, rfl⟩ := h
  exact ⟨(Text.Quoted.read_eq_some_iff.1 hread).1.symm, by simp [Text.Quoted.write]⟩

theorem splits_of_numeral? {cs : List Char} {m : Match} (h : numeral? cs = some m) : m.Splits cs := by
  simp only [numeral?, Option.bind_eq_bind, Option.bind_eq_some_iff, Option.some.injEq] at h
  obtain ⟨⟨numeral, rest⟩, hread, rfl⟩ := h
  exact Text.Numeral.append_of_read hread

theorem splits_of_quotedIdentifier? {cs : List Char} {m : Match} (h : quotedIdentifier? cs = some m) :
    m.Splits cs := by
  simp only [quotedIdentifier?, Option.bind_eq_bind, Option.bind_eq_some_iff] at h
  obtain ⟨found, hfound, h⟩ := h
  split at h <;> simp only [Option.some.injEq, reduceCtorEq] at h
  exact h ▸ splits_of_quoted? hfound

theorem splits_of_bareIdentifier? {cs : List Char} {m : Match} (h : bareIdentifier? cs = some m) :
    m.Splits cs := by
  unfold bareIdentifier? at h
  split at h <;> simp only [Option.some.injEq, reduceCtorEq] at h
  rename_i hhead
  subst h
  refine ⟨List.takeWhile_append_dropWhile, ?_⟩
  cases cs with
  | nil => simp at hhead
  | cons c cs =>
      have : isIdentifierChar c = true := by simp_all [isIdentifierChar, Char.isAlphanum]
      simp [this]

theorem splits_of_first? {cs : List Char} {m : Match} (hcs : cs ≠ []) (h : first? cs = some m) : m.Splits cs := by
  simp only [first?, Option.or_eq_some_iff] at h
  rcases h with h | ⟨-, h | ⟨-, h | ⟨-, h | ⟨-, h | ⟨-, h⟩⟩⟩⟩⟩
  · exact splits_of_keyword? hcs h
  · exact splits_of_symbol? hcs h
  · exact splits_of_quoted? h
  · exact splits_of_numeral? h
  · exact splits_of_quotedIdentifier? h
  · exact splits_of_bareIdentifier? h

theorem rest_length_lt_of_first? {cs : List Char} {m : Match} (hcs : cs ≠ []) (h : first? cs = some m) :
    m.rest.length < cs.length := by
  obtain ⟨happend, htaken⟩ := splits_of_first? hcs h
  have := List.length_pos_iff.2 htaken
  rw [← happend, List.length_append]
  omega

end Match

end SqlStore
