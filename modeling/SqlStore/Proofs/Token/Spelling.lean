import Mathlib.Data.List.Nodup
import SqlStore.Proofs.Token.Move

/-!
# Spelled texts

Texts made of reserved words, quoted texts, numerals and punctuation, with any separators in between, scan to the
lexemes they spell (`Spells.ofSource`).
-/

namespace SqlStore

/-- The characters that end the word before them: separators and punctuation. -/
def delimiters : List Char := [' ', '\t', '\r', '\n', ',', '(', ')', ';']

/-- Nothing follows, or a delimiter. -/
def Delimited (rest : List Char) : Prop := ∀ c ∈ rest.head?, c ∈ delimiters

def Symbol.punctuation : List Symbol := [.comma, .leftParen, .rightParen, .semicolon]

/-- A spelling of the lexeme; reserved words can have letters of either case. -/
inductive Lexeme.Word : Lexeme → List Char → Prop
  | keyword {k : Keyword} {w : List Char} (h : w.map Char.toLower = k.spelling.toList) : Word ⟨k.kind, k.spelling⟩ w
  | string (s : String) : Word ⟨.string, s⟩ (Text.Quoted.write '\'' s.toList)
  | identifier {name : String} (h : name ≠ "") : Word (.identifier name) (Text.Quoted.write '"' name.toList)
  | numeral {ds : List Char} (hne : ds ≠ []) (h : ∀ c ∈ ds, c.isDigit = true) : Word ⟨.numeric, String.ofList ds⟩ ds

/-- The text spells the lexemes in their order. -/
inductive Spells : List Lexeme → List Char → Prop
  | nil : Spells [] []
  | separator {c : Char} {ls : List Lexeme} {cs : List Char} (hc : Scan.isSeparator c = true) (h : Spells ls cs) :
      Spells ls (c :: cs)
  | punctuation {s : Symbol} {ls : List Lexeme} {cs : List Char} (hs : s ∈ Symbol.punctuation) (h : Spells ls cs) :
      Spells (.symbol s :: ls) (s.spelling.toList ++ cs)
  | word {l : Lexeme} {w : List Char} {ls : List Lexeme} {cs : List Char} (hw : l.Word w) (hcs : Delimited cs)
      (h : Spells ls cs) : Spells (l :: ls) (w ++ cs)

/-! ## Delimiters -/

section

variable {c : Char} (hc : c ∈ delimiters)

include hc

theorem toLower_delimiter : c.toLower = c := by
  have hall : delimiters.all (fun c => c.toLower == c) = true := by decide
  simpa using List.all_eq_true.1 hall c hc

theorem not_isIdentifierChar_delimiter : isIdentifierChar c = false := by
  have hall : delimiters.all (fun c => !isIdentifierChar c) = true := by decide
  simpa using List.all_eq_true.1 hall c hc

theorem not_numeral_delimiter : c.isDigit = false ∧ c ≠ '.' ∧ c ≠ 'e' := by
  have hall : delimiters.all (fun c => !c.isDigit && (c != '.' && c != 'e')) = true := by decide
  simpa using List.all_eq_true.1 hall c hc

end

theorem isUpper_iff {c : Char} : c.isUpper = true ↔ 'A'.val ≤ c.val ∧ c.val ≤ 'Z'.val :=
  decide_eq_true_iff

theorem isLower_iff {c : Char} : c.isLower = true ↔ 'a'.val ≤ c.val ∧ c.val ≤ 'z'.val :=
  Bool.and_eq_true_iff.trans (and_congr decide_eq_true_iff decide_eq_true_iff)

theorem isAlpha_iff {c : Char} : c.isAlpha = true ↔ c.isUpper = true ∨ c.isLower = true :=
  Bool.or_eq_true_iff

theorem toLower_of_not_isUpper {c : Char} (h : c.isUpper = false) : c.toLower = c :=
  dif_neg fun hc => Bool.eq_false_iff.1 h (isUpper_iff.2 hc)

theorem toLower_of_not_isIdentifierChar {c : Char} (h : isIdentifierChar c = false) : c.toLower = c := by
  refine toLower_of_not_isUpper (Bool.eq_false_iff.2 fun hupper => ?_)
  have halpha : c.isAlpha = true := isAlpha_iff.2 (.inl hupper)
  simp [isIdentifierChar, Char.isAlphanum, halpha] at h

theorem toLower_digit {c : Char} (h : c.isDigit = true) : c.toLower = c ∧ c.isAlpha = false := by
  have hdigit : c.toNat ≤ 57 := by
    simp only [Char.isDigit, Bool.and_eq_true, decide_eq_true_eq, UInt32.le_iff_toNat_le] at h
    exact h.2
  have hupper : ¬ c.isUpper = true := fun hc => by
    have hle : 65 ≤ c.toNat := UInt32.le_iff_toNat_le.1 (isUpper_iff.1 hc).1
    omega
  have hlower : ¬ c.isLower = true := fun hc => by
    have hle : 97 ≤ c.toNat := UInt32.le_iff_toNat_le.1 (isLower_iff.1 hc).1
    omega
  exact ⟨toLower_of_not_isUpper (Bool.eq_false_iff.2 hupper),
    Bool.eq_false_iff.2 fun hc => (isAlpha_iff.1 hc).elim hupper hlower⟩

theorem delimited_nil : Delimited [] := fun c hc => by cases hc

theorem delimited_cons {c : Char} (hc : c ∈ delimiters) (rest : List Char) : Delimited (c :: rest) := by
  intro d hd
  cases hd
  exact hc

theorem Delimited.stops {rest : List Char} (h : Delimited rest) : Text.Numeral.Stops rest :=
  fun c hc => not_numeral_delimiter (h c hc)

theorem Delimited.head?_ne {rest : List Char} (h : Delimited rest) {q : Char} (hq : q ∉ delimiters) :
    rest.head? ≠ some q :=
  fun hhead => hq (h q hhead)

theorem Delimited.not_isIdentifierChar {rest : List Char} (h : Delimited rest) :
    rest.head?.any isIdentifierChar = false := by
  cases rest with
  | nil => rfl
  | cons c rest => exact not_isIdentifierChar_delimiter (h c rfl)

/-! ## Reserved words -/

namespace Keyword

theorem mem_all (k : Keyword) : k ∈ all := by
  cases k <;> decide

theorem spelling_injective {j k : Keyword} (h : j.spelling = k.spelling) : j = k := by
  have hnodup : (all.map spelling).Nodup := by decide
  exact List.inj_on_of_nodup_map hnodup (mem_all j) (mem_all k) h

theorem spelling_ne_empty (k : Keyword) : k.spelling ≠ "" := by
  cases k <;> decide

theorem map_toLower_spelling (k : Keyword) : k.spelling.toList.map Char.toLower = k.spelling.toList := by
  cases k <;> decide

theorem kind_ne (k : Keyword) : k.kind ≠ .string ∧ k.kind ≠ .identifier ∧ k.kind ≠ .numeric := by
  cases k <;> decide

theorem exists_spelling (k : Keyword) : ∃ c cs, k.spelling.toList = c :: cs ∧ c.isAlpha := by
  cases k <;> exact ⟨_, _, rfl, rfl⟩

/-- Only the reserved word of two words has a character of no identifier. -/
theorem eq_primaryKey_of_mem {k : Keyword} {c : Char} (hc : isIdentifierChar c = Bool.false)
    (hmem : c ∈ k.spelling.toList) : k = primaryKey ∧ c = ' ' := by
  have hword : k = primaryKey ∨ k.spelling.toList.all isIdentifierChar := by cases k <;> decide
  rcases hword with rfl | hword
  · have hblank : primaryKey.spelling.toList.all (fun c => c = ' ' ∨ isIdentifierChar c) := by decide
    refine ⟨rfl, ?_⟩
    simpa [hc] using List.all_eq_true.1 hblank c hmem
  · rw [List.all_eq_true.1 hword c hmem] at hc
    cases hc

/-- No spelling goes on after another with a character of no identifier. -/
theorem not_spelling_append {j k : Keyword} {c : Char} (hc : isIdentifierChar c = Bool.false) :
    ¬ k.spelling.toList ++ [c] <+: j.spelling.toList := by
  intro h
  obtain ⟨rfl, rfl⟩ := eq_primaryKey_of_mem hc (h.subset (by simp))
  have hnone : ∀ k ∈ all, ¬ k.spelling.toList ++ [' '] <+: primaryKey.spelling.toList := by decide
  exact hnone k (mem_all k) h

end Keyword

namespace Symbol

theorem mem_all (s : Symbol) : s ∈ all := by
  cases s <;> decide

theorem spelling_injective {b s : Symbol} (h : b.spelling = s.spelling) : b = s := by
  have hnodup : (all.map spelling).Nodup := by decide
  exact List.inj_on_of_nodup_map hnodup (mem_all b) (mem_all s) h

theorem spelling_ne_empty (s : Symbol) : s.spelling ≠ "" := by
  cases s <;> decide

theorem map_toLower_spelling (s : Symbol) : s.spelling.toList.map Char.toLower = s.spelling.toList := by
  cases s <;> decide

/-- The characters that symbols start with. -/
def heads : List Char := ['=', '<', '!', '>', '|', '+', ',', '(', ')', ';', '*']

theorem exists_spelling (s : Symbol) : ∃ c cs, s.spelling.toList = c :: cs ∧ c ∈ heads := by
  cases s <;> exact ⟨_, _, rfl, by decide⟩

/-- A punctuation mark is one character, with which no other symbol starts. -/
theorem exists_of_mem_punctuation {s : Symbol} (hs : s ∈ punctuation) :
    ∃ c, s.spelling.toList = [c] ∧ c ∈ delimiters ∧ ∀ b ∈ all, b.spelling.toList.head? = some c → b = s := by
  simp only [punctuation, List.mem_cons, List.not_mem_nil, or_false] at hs
  rcases hs with rfl | rfl | rfl | rfl <;> exact ⟨_, rfl, by decide, by decide⟩

theorem canonical_of_mem_punctuation {s : Symbol} (hs : s ∈ punctuation) : s.canonical = s := by
  simp only [punctuation, List.mem_cons, List.not_mem_nil, or_false] at hs
  rcases hs with rfl | rfl | rfl | rfl <;> rfl

theorem not_mem_tail_of_delimiter (s : Symbol) {c : Char} (hc : c ∈ delimiters) : c ∉ s.spelling.toList.tail := by
  intro hmem
  have hsigns : s.spelling.toList.tail.all (fun c => c ∉ delimiters) := by cases s <;> decide
  have hnot := List.all_eq_true.1 hsigns c hmem
  simp [hc] at hnot

/-- No other symbol goes on after this one with the head of the text. -/
def Ends (s : Symbol) (rest : List Char) : Prop :=
  ∀ c ∈ rest.head?, ∀ b ∈ all, ¬ s.spelling.toList ++ [c.toLower] <+: b.spelling.toList

theorem ends_of_delimited (s : Symbol) {rest : List Char} (hrest : Delimited rest) : s.Ends rest := by
  intro c hc b _ h
  obtain ⟨d, ds, hd, -⟩ := s.exists_spelling
  rw [toLower_delimiter (hrest c hc), hd] at h
  obtain ⟨more, hmore⟩ := h
  refine b.not_mem_tail_of_delimiter (hrest c hc) ?_
  simp [← hmore]

theorem ends_of_mem_punctuation {s : Symbol} (hs : s ∈ punctuation) (rest : List Char) : s.Ends rest := by
  intro c _ b hb h
  obtain ⟨d, hd, -, hunique⟩ := exists_of_mem_punctuation hs
  obtain ⟨more, hmore⟩ := h
  obtain rfl := hunique b hb (by simp [← hmore, hd])
  simp [hd] at hmore

end Symbol

namespace Match

open Text

theorem longestMatch_keyword {k : Keyword} {w rest : List Char} (h : w.map Char.toLower = k.spelling.toList)
    (hrest : rest.head?.any isIdentifierChar = false) :
    longestMatch Keyword.spelling Keyword.all (w ++ rest) = some k := by
  refine longestMatch_append_eq_some k.mem_all k.spelling_ne_empty (fun j _ => Keyword.spelling_injective) h ?_
  intro c hc j _
  have hstop : isIdentifierChar c = false := by
    rw [Option.mem_def.1 hc] at hrest
    exact hrest
  rw [toLower_of_not_isIdentifierChar hstop]
  exact Keyword.not_spelling_append hstop

theorem ofSpelling_append {kind : TokenKind} {text spelling : String} {w rest : List Char}
    (h : spelling.length = w.length) : ofSpelling kind text spelling (w ++ rest) = ⟨⟨kind, text⟩, w, rest⟩ := by
  simp [ofSpelling, h]

theorem keyword?_word {k : Keyword} {w rest : List Char} (h : w.map Char.toLower = k.spelling.toList)
    (hrest : rest.head?.any isIdentifierChar = false) : keyword? (w ++ rest) = some ⟨⟨k.kind, k.spelling⟩, w, rest⟩ := by
  have hlength : k.spelling.length = w.length := by
    rw [← String.length_toList, ← h, List.length_map]
  rw [keyword?, longestMatch_keyword h hrest]
  simp [ofSpelling_append hlength, hrest]

/-- No reserved word starts with anything but a letter. -/
theorem keyword?_eq_none {c : Char} (hc : c.toLower.isAlpha = false) (cs : List Char) : keyword? (c :: cs) = none := by
  have hnone : longestMatch Keyword.spelling Keyword.all (c :: cs) = none := by
    refine longestMatch_eq_none_of_head fun k _ => ?_
    obtain ⟨w, ws, hspelling, hw⟩ := k.exists_spelling
    refine ⟨w, ws, hspelling, ?_⟩
    rintro rfl
    rw [hc] at hw
    cases hw
  rw [keyword?, hnone]
  rfl

theorem symbol?_eq_none {c : Char} (hc : c.toLower ∉ Symbol.heads) (cs : List Char) : symbol? (c :: cs) = none := by
  have hnone : longestMatch Symbol.spelling Symbol.all (c :: cs) = none := by
    refine longestMatch_eq_none_of_head fun s _ => ?_
    obtain ⟨w, ws, hspelling, hw⟩ := s.exists_spelling
    exact ⟨w, ws, hspelling, fun heq => hc (heq ▸ hw)⟩
  rw [symbol?, hnone]
  rfl

theorem symbol?_word {s : Symbol} {w rest : List Char} (h : w.map Char.toLower = s.spelling.toList)
    (hrest : s.Ends rest) : symbol? (w ++ rest) = some ⟨.symbol s.canonical, w, rest⟩ := by
  have hsome : longestMatch Symbol.spelling Symbol.all (w ++ rest) = some s :=
    longestMatch_append_eq_some s.mem_all s.spelling_ne_empty (fun b _ => Symbol.spelling_injective) h hrest
  have hlength : s.spelling.length = w.length := by
    rw [← String.length_toList, ← h, List.length_map]
  rw [symbol?, hsome]
  simp [ofSpelling_append hlength, Lexeme.symbol]

theorem first?_symbol {s : Symbol} {w rest : List Char} (h : w.map Char.toLower = s.spelling.toList)
    (hrest : s.Ends rest) : first? (w ++ rest) = some ⟨.symbol s.canonical, w, rest⟩ := by
  have hkeyword : keyword? (w ++ rest) = none := by
    obtain ⟨d, ds, hd, hheads⟩ := s.exists_spelling
    have hsigns : Symbol.heads.all (fun c => !c.isAlpha) = true := by decide
    cases w with
    | nil => rw [hd] at h; cases h
    | cons c w =>
        rw [hd] at h
        cases h
        exact keyword?_eq_none (by simpa using List.all_eq_true.1 hsigns _ hheads) _
  rw [first?, hkeyword, symbol?_word h hrest]
  rfl

theorem first?_punctuation {s : Symbol} (hs : s ∈ Symbol.punctuation) (rest : List Char) :
    first? (s.spelling.toList ++ rest) = some ⟨.symbol s, s.spelling.toList, rest⟩ := by
  rw [first?_symbol s.map_toLower_spelling (Symbol.ends_of_mem_punctuation hs rest),
    Symbol.canonical_of_mem_punctuation hs]

theorem quoted?_write {kind : TokenKind} {q : Char} (hq : q ∉ delimiters) (s : String) {rest : List Char}
    (hrest : Delimited rest) : quoted? kind q (Quoted.write q s.toList ++ rest) =
      some ⟨⟨kind, s⟩, Quoted.write q s.toList, rest⟩ := by
  simp [quoted?, Quoted.read_write_append (hrest.head?_ne hq)]

theorem first?_string (s : String) {rest : List Char} (hrest : Delimited rest) :
    first? (Quoted.write '\'' s.toList ++ rest) =
      some ⟨⟨.string, s⟩, Quoted.write '\'' s.toList, rest⟩ := by
  have hread : string? (Quoted.write '\'' s.toList ++ rest) = _ := quoted?_write (by decide) s hrest
  rw [first?, hread, Quoted.write, List.cons_append, List.cons_append, keyword?_eq_none rfl,
    symbol?_eq_none (by decide)]
  rfl

theorem first?_identifier {name : String} (hname : name ≠ "") {rest : List Char} (hrest : Delimited rest) :
    first? (Quoted.write '"' name.toList ++ rest) =
      some ⟨.identifier name, Quoted.write '"' name.toList, rest⟩ := by
  have hread : quotedIdentifier? (Quoted.write '"' name.toList ++ rest) =
      some ⟨.identifier name, Quoted.write '"' name.toList, rest⟩ := by
    rw [quotedIdentifier?, quoted?_write (by decide) name hrest]
    simp [hname, Lexeme.identifier]
  rw [first?, hread, Quoted.write, List.cons_append, List.cons_append, keyword?_eq_none rfl,
    symbol?_eq_none (by decide)]
  rfl

/-- A digit or a period starts nothing but a numeral. -/
theorem first?_eq_numeral? {c : Char} (hc : c.isDigit = true ∨ c = '.') (cs : List Char) :
    first? (c :: cs) = numeral? (c :: cs) := by
  have hlower : c.toLower = c ∧ c.isAlpha = false := by
    rcases hc with hdigit | rfl
    · exact toLower_digit hdigit
    · decide
  have hheads : ∀ d ∈ '\'' :: '"' :: Symbol.heads, c ≠ d := by
    rintro d hd rfl
    have hsigns : ('\'' :: '"' :: Symbol.heads).all (fun d => !d.isDigit && d != '.') = true := by decide
    have hnot := List.all_eq_true.1 hsigns c hd
    rcases hc with hdigit | rfl
    · simp [hdigit] at hnot
    · cases hnot
  have hsymbol : c.toLower ∉ Symbol.heads := by
    rw [hlower.1]
    exact fun hmem => hheads c (by simp [hmem]) rfl
  have hstring : string? (c :: cs) = none := by
    simp [string?, quoted?, Quoted.read, hheads]
  have hquoted : quotedIdentifier? (c :: cs) = none := by
    simp [quotedIdentifier?, quoted?, Quoted.read, hheads]
  have hbare : bareIdentifier? (c :: cs) = none := by
    simp [bareIdentifier?, hlower.2]
  rw [first?, keyword?_eq_none (by rw [hlower.1, hlower.2]), symbol?_eq_none hsymbol, hstring, hquoted, hbare]
  simp

theorem first?_numeral {whole part power rest : List Char} (h : Numeral.Form whole part power) (hne : power ≠ ['e'])
    (hrest : Numeral.Stops rest) : first? (whole ++ (part ++ power) ++ rest) =
      some ⟨⟨.numeric, String.ofList (whole ++ (part ++ power))⟩, whole ++ (part ++ power), rest⟩ := by
  obtain ⟨c, cs, hcs, hc⟩ := h.exists_cons
  have hread := Numeral.read_of_form h (fun hpower => absurd hpower hne) hrest
  rw [hcs] at hread ⊢
  rw [List.cons_append, first?_eq_numeral? hc, numeral?, ← List.cons_append, hread]
  rfl

theorem first?_word {l : Lexeme} {w : List Char} (hw : l.Word w) {rest : List Char} (hrest : Delimited rest) :
    first? (w ++ rest) = some ⟨l, w, rest⟩ := by
  cases hw with
  | keyword h => rw [first?, keyword?_word h hrest.not_isIdentifierChar]; rfl
  | string s => exact first?_string s hrest
  | identifier h => exact first?_identifier h hrest
  | numeral hne h =>
      have hform : Numeral.Form w [] [] := ⟨h, .none, .none, .inl hne⟩
      simpa using first?_numeral hform (by simp) hrest.stops

theorem first?_separator {c : Char} (hc : Scan.isSeparator c = true) (cs : List Char) : first? (c :: cs) = none := by
  simp only [Scan.isSeparator, Bool.or_eq_true, beq_iff_eq] at hc
  have hkeyword : keyword? (c :: cs) = none := by
    rcases hc with ((rfl | rfl) | rfl) | rfl <;> exact keyword?_eq_none rfl cs
  have hsymbol : symbol? (c :: cs) = none := by
    rcases hc with ((rfl | rfl) | rfl) | rfl <;> exact symbol?_eq_none (by decide) cs
  rw [first?, hkeyword, hsymbol]
  rcases hc with ((rfl | rfl) | rfl) | rfl <;> rfl

end Match

/-! ## Scanning -/

theorem Lexeme.Word.ne_nil {l : Lexeme} {w : List Char} (h : l.Word w) : w ≠ [] := by
  cases h with
  | @keyword k _ h =>
      rintro rfl
      obtain ⟨c, cs, hk, -⟩ := k.exists_spelling
      rw [hk] at h
      cases h
  | string s => simp [Text.Quoted.write]
  | identifier h => simp [Text.Quoted.write]
  | numeral hne h => exact hne

namespace Scan

theorem run_first? {p : Position} {cs w rest : List Char} {l : Lexeme} (hne : cs ≠ [])
    (h : Match.first? cs = some ⟨l, w, rest⟩) :
    run p cs = ⟨⟨l, p, p.advance w⟩ :: (run (p.advance w) rest).tokens, (run (p.advance w) rest).rest,
      (run (p.advance w) rest).stop⟩ := by
  cases cs with
  | nil => exact absurd rfl hne
  | cons c cs =>
      have hc : isSeparator c = false := by
        cases hc : isSeparator c with
        | false => rfl
        | true =>
            rw [Match.first?_separator hc] at h
            cases h
      exact run_some hc h

end Scan

/-- The text scans in full to the lexemes, wherever it starts. -/
def Scan.Yields (cs : List Char) (ls : List Lexeme) : Prop :=
  ∀ p, (run p cs).tokens.map Token.lexeme = ls ∧ (run p cs).rest = []

namespace Scan.Yields

variable {c : Char} {cs w rest : List Char} {l : Lexeme} {ls : List Lexeme}

theorem nil : Yields [] [] := fun p => by
  rw [run_nil]
  exact ⟨rfl, rfl⟩

theorem separator (hc : isSeparator c = true) (h : Yields cs ls) : Yields (c :: cs) ls := fun p => by
  rw [run_separator hc]
  exact h _

theorem lexeme (hne : cs ≠ []) (hm : Match.first? cs = some ⟨l, w, rest⟩) (h : Yields rest ls) :
    Yields cs (l :: ls) := fun p => by
  rw [run_first? hne hm]
  obtain ⟨htokens, hrest⟩ := h (p.advance w)
  exact ⟨congrArg (List.cons _) htokens, hrest⟩

theorem punctuation {s : Symbol} (hs : s ∈ Symbol.punctuation) (h : Yields cs ls) :
    Yields (s.spelling.toList ++ cs) (.symbol s :: ls) := by
  refine lexeme ?_ (Match.first?_punctuation hs cs) h
  obtain ⟨c, hc, -⟩ := Symbol.exists_of_mem_punctuation hs
  simp [hc]

theorem word (hw : l.Word w) (hcs : Delimited cs) (h : Yields cs ls) : Yields (w ++ cs) (l :: ls) :=
  lexeme (by simp [hw.ne_nil]) (Match.first?_word hw hcs) h

theorem ofSource {source : String} (h : Yields source.toList ls) :
    ∃ ts, Token.ofSource source = .ok ts ∧ ts.map Token.lexeme = ls := by
  obtain ⟨htokens, hrest⟩ := h .origin
  refine ⟨_, ?_, htokens⟩
  rw [Token.ofSource, Scan.ofSource, if_pos (by simp [hrest])]

end Scan.Yields

theorem Spells.yields {ls : List Lexeme} {cs : List Char} (h : Spells ls cs) : Scan.Yields cs ls := by
  induction h with
  | nil => exact .nil
  | separator hc _ ih => exact .separator hc ih
  | punctuation hs _ ih => exact .punctuation hs ih
  | word hw hcs _ ih => exact .word hw hcs ih

theorem Spells.ofSource {ls : List Lexeme} {source : String} (h : Spells ls source.toList) :
    ∃ ts, Token.ofSource source = .ok ts ∧ ts.map Token.lexeme = ls :=
  h.yields.ofSource

end SqlStore
