import SqlStore.Proofs.Token.Join

/-!
# Written forms

How each lexeme is written in a source text (`Lexeme.WrittenAs`). A reader takes nothing but a written form of the
lexeme it finds (`Match.writtenAs_of_first?`). A written form is found again before a delimiter or the end of the text
(`Match.first?_writtenAs`), unless it is a numeral that ends in its exponent marker.
-/

namespace SqlStore

open Text

/-- A text that the lexeme is read from; reserved words and bare identifiers can have letters of either case. -/
inductive Lexeme.WrittenAs : Lexeme → List Char → Prop
  | reserved {k : Keyword} {w : List Char} (h : w.map Char.toLower = k.spelling.toList) :
      WrittenAs ⟨k.kind, k.spelling⟩ w
  | symbol {s : Symbol} {w : List Char} (h : w.map Char.toLower = s.spelling.toList) : WrittenAs (.symbol s.canonical) w
  | string (s : String) : WrittenAs ⟨.string, s⟩ (Quoted.write '\'' s.toList)
  | numeral {whole part power : List Char} (h : Numeral.Form whole part power) :
      WrittenAs ⟨.numeric, String.ofList (whole ++ (part ++ power))⟩ (whole ++ (part ++ power))
  | quotedName {name : String} (h : name ≠ "") : WrittenAs (.identifier name) (Quoted.write '"' name.toList)
  | bareName {c : Char} {cs : List Char} (hc : c.isAlpha = true) (hcs : ∀ d ∈ cs, isIdentifierChar d = true)
      (hword : ∀ k : Keyword, (c :: cs).map Char.toLower ≠ k.spelling.toList) :
      WrittenAs (.identifier (String.ofList ((c :: cs).map Char.toLower))) (c :: cs)

/-- A numeral whose exponent is the marker alone. -/
def Lexeme.HasOpenExponent (l : Lexeme) : Prop := l.kind = .numeric ∧ l.text.toList.getLast? = some 'e'

instance (l : Lexeme) : Decidable l.HasOpenExponent := inferInstanceAs (Decidable (_ ∧ _))

theorem isLower_toLower {c : Char} (h : c.isAlpha = true) : c.toLower.isLower = true := by
  by_cases hupper : c.isUpper = true
  · obtain ⟨hA, hZ⟩ := isUpper_iff.1 hupper
    have hval : c.toLower.val = c.val + 32 := congrArg Char.val (dif_pos (isUpper_iff.1 hupper))
    rw [isLower_iff, hval]
    simp only [UInt32.le_iff_toNat_le] at hA hZ ⊢
    simp at hA hZ ⊢
    omega
  · rw [toLower_of_not_isUpper (Bool.eq_false_iff.2 hupper)]
    exact (isAlpha_iff.1 h).resolve_left hupper

theorem isIdentifierChar_of_isAlpha {c : Char} (h : c.isAlpha = true) : isIdentifierChar c = true := by
  simp [isIdentifierChar, Char.isAlphanum, h]

theorem isIdentifierChar_of_mem_cons {c : Char} {cs : List Char} (hc : c.isAlpha = true)
    (hcs : ∀ d ∈ cs, isIdentifierChar d = true) : ∀ d ∈ c :: cs, isIdentifierChar d = true := by
  intro d hd
  rcases List.mem_cons.1 hd with rfl | hd
  · exact isIdentifierChar_of_isAlpha hc
  · exact hcs d hd

/-! ## What is read -/

namespace Match

variable {cs : List Char} {m : Match}

theorem map_toLower_taken {kind : TokenKind} {text spelling : String} (h : Begins spelling.toList cs) :
    (ofSpelling kind text spelling cs).taken.map Char.toLower = spelling.toList := by
  rw [ofSpelling, List.map_take, ← String.length_toList]
  exact (List.prefix_iff_eq_take.1 h).symm

theorem writtenAs_of_keyword? (h : keyword? cs = some m) : m.lexeme.WrittenAs m.taken := by
  simp only [keyword?, Option.bind_eq_bind, Option.bind_eq_some_iff] at h
  obtain ⟨k, hk, h⟩ := h
  split at h
  · cases h
  cases h
  exact .reserved (map_toLower_taken (begins_of_longestMatch hk).2)

theorem writtenAs_of_symbol? (h : symbol? cs = some m) : m.lexeme.WrittenAs m.taken := by
  simp only [symbol?, Option.bind_eq_bind, Option.bind_eq_some_iff, Option.some.injEq] at h
  obtain ⟨s, hs, rfl⟩ := h
  exact .symbol (map_toLower_taken (begins_of_longestMatch hs).2)

theorem writtenAs_of_string? (h : string? cs = some m) : m.lexeme.WrittenAs m.taken := by
  simp only [string?, quoted?, Option.bind_eq_bind, Option.bind_eq_some_iff, Option.some.injEq] at h
  obtain ⟨⟨text, rest⟩, -, rfl⟩ := h
  simpa using Lexeme.WrittenAs.string (String.ofList text)

theorem writtenAs_of_numeral? (h : numeral? cs = some m) : m.lexeme.WrittenAs m.taken := by
  simp only [numeral?, Option.bind_eq_bind, Option.bind_eq_some_iff, Option.some.injEq] at h
  obtain ⟨⟨numeral, rest⟩, hread, rfl⟩ := h
  obtain ⟨whole, part, power, hform, rfl, -⟩ := Numeral.exists_form_of_read hread
  exact .numeral hform

theorem writtenAs_of_quotedIdentifier? (h : quotedIdentifier? cs = some m) : m.lexeme.WrittenAs m.taken := by
  simp only [quotedIdentifier?, quoted?, Option.bind_eq_bind, Option.bind_eq_some_iff, Option.some.injEq] at h
  obtain ⟨_, ⟨⟨text, rest⟩, -, rfl⟩, h⟩ := h
  split at h
  · cases h
  rename_i hname
  cases h
  have hne : String.ofList text ≠ "" := by
    rwa [String.isEmpty_iff] at hname
  simpa [Lexeme.identifier] using Lexeme.WrittenAs.quotedName hne

theorem any_head?_dropWhile (cs : List Char) :
    (cs.dropWhile isIdentifierChar).head?.any isIdentifierChar = false := by
  have hnot := List.head?_dropWhile_not isIdentifierChar cs
  cases hd : (cs.dropWhile isIdentifierChar).head? with
  | none => rfl
  | some d =>
      rw [hd] at hnot
      exact hnot

theorem writtenAs_of_bareIdentifier? (hkeyword : keyword? cs = none) (h : bareIdentifier? cs = some m) :
    m.lexeme.WrittenAs m.taken := by
  unfold bareIdentifier? at h
  split at h
  swap
  · cases h
  rename_i hhead
  cases h
  cases cs with
  | nil => cases hhead
  | cons c cs =>
      have hc : c.isAlpha = true := hhead
      have htake : (c :: cs).takeWhile isIdentifierChar = c :: cs.takeWhile isIdentifierChar :=
        List.takeWhile_cons_of_pos (isIdentifierChar_of_isAlpha hc)
      simp only [htake]
      refine .bareName hc (fun d hd => List.all_eq_true.1 List.all_takeWhile d hd) fun k hk => ?_
      rw [← htake] at hk
      have hfound := keyword?_word hk (any_head?_dropWhile (c :: cs))
      rw [List.takeWhile_append_dropWhile, hkeyword] at hfound
      cases hfound

theorem writtenAs_of_first? (h : first? cs = some m) : m.lexeme.WrittenAs m.taken := by
  simp only [first?, Option.or_eq_some_iff] at h
  rcases h with h | ⟨hkeyword, h | ⟨-, h | ⟨-, h | ⟨-, h | ⟨-, h⟩⟩⟩⟩⟩
  · exact writtenAs_of_keyword? h
  · exact writtenAs_of_symbol? h
  · exact writtenAs_of_string? h
  · exact writtenAs_of_numeral? h
  · exact writtenAs_of_quotedIdentifier? h
  · exact writtenAs_of_bareIdentifier? hkeyword h

/-! ## What is found again -/

section

variable {c : Char} {l : Lexeme} {w rest : List Char}

/-- A reserved word with a character of no identifier inside has two words. -/
theorem keyword_of_not_isIdentifierChar {k : Keyword} {u tail : List Char} (hc : isIdentifierChar c = false)
    (h : u ++ c :: tail = k.spelling.toList) :
    k = .primaryKey ∧ u = "primary".toList ∧ c :: tail = " key".toList := by
  obtain ⟨rfl, rfl⟩ := Keyword.eq_primaryKey_of_mem hc (c := c) (k := k) (by simp [← h])
  have hspelling : "primary".toList ++ ' ' :: "key".toList = u ++ ' ' :: tail := h.symm
  rw [List.append_cons_inj_of_notMem (by decide) (by decide)] at hspelling
  exact ⟨rfl, hspelling.1.symm, congrArg _ hspelling.2.2.symm⟩

theorem keyword?_eq_none_of_inside {k : Keyword} (hw : ∀ d ∈ w, isIdentifierChar d = true)
    (hlongest : longestMatch Keyword.spelling Keyword.all (w ++ rest) = some k)
    (hlength : k.spelling.length < w.length) : keyword? (w ++ rest) = none := by
  have hnext : (w ++ rest)[k.spelling.length]? = some w[k.spelling.length] := by
    rw [List.getElem?_append_left hlength, List.getElem?_eq_getElem hlength]
  rw [keyword?, hlongest]
  simp [ofSpelling, hnext, hw _ (List.getElem_mem hlength)]

/-- A word that is no reserved word is none with what follows it either, unless this is the second word of the one that
has two. -/
theorem keyword?_eq_none_of_word (hw : ∀ d ∈ w, isIdentifierChar d = true)
    (hword : ∀ k : Keyword, w.map Char.toLower ≠ k.spelling.toList) (hrest : rest.head?.any isIdentifierChar = false)
    (hkey : w.map Char.toLower = "primary".toList → Begins " key".toList rest →
      (rest.drop 4).head?.any isIdentifierChar = true) : keyword? (w ++ rest) = none := by
  cases hlongest : longestMatch Keyword.spelling Keyword.all (w ++ rest) with
  | none => rw [keyword?, hlongest]; rfl
  | some k =>
      obtain ⟨-, hbegins⟩ := begins_of_longestMatch hlongest
      rw [Begins, List.map_append] at hbegins
      rcases List.prefix_or_prefix_of_prefix hbegins (List.prefix_append _ _) with ⟨tail, htail⟩ | ⟨tail, htail⟩
      · -- the reserved word ends inside the word
        have hne : tail ≠ [] := by
          rintro rfl
          exact hword k (by simpa using htail.symm)
        refine keyword?_eq_none_of_inside hw hlongest ?_
        have heq := congrArg List.length htail
        have hpos := List.length_pos_iff.2 hne
        rw [List.length_append, List.length_map, String.length_toList] at heq
        omega
      · -- the reserved word goes on after the word
        rw [← htail, List.prefix_append_right_inj] at hbegins
        cases tail with
        | nil => exact absurd (by simpa using htail) (hword k)
        | cons d tail =>
            cases rest with
            | nil => cases List.prefix_nil.1 hbegins
            | cons e rest =>
                have he : isIdentifierChar e = false := hrest
                have hd : d = e := by
                  rw [List.map_cons, List.cons_prefix_cons, toLower_of_not_isIdentifierChar he] at hbegins
                  exact hbegins.1
                obtain ⟨rfl, hprimary, hrest'⟩ := keyword_of_not_isIdentifierChar (hd ▸ he) htail
                have hlength : w.length = 7 := by
                  rw [← w.length_map Char.toLower, hprimary]
                  rfl
                have hdrop : (w ++ e :: rest).drop Keyword.primaryKey.spelling.length = (e :: rest).drop 4 := by
                  rw [show Keyword.primaryKey.spelling.length = w.length + 4 by rw [hlength]; rfl, List.drop_append]
                  simp
                rw [keyword?, hlongest]
                simp only [Option.bind_eq_bind, Option.bind_some, ofSpelling, hdrop, hkey hprimary (hrest' ▸ hbegins),
                  ↓reduceIte]

theorem first?_bareName (hc : c.isAlpha = true) (hcs : ∀ d ∈ cs, isIdentifierChar d = true)
    (hrest : rest.head?.any isIdentifierChar = false) (hkeyword : keyword? (c :: cs ++ rest) = none) :
    first? (c :: cs ++ rest) =
      some ⟨.identifier (String.ofList ((c :: cs).map Char.toLower)), c :: cs, rest⟩ := by
  have hall := isIdentifierChar_of_mem_cons hc hcs
  have hstop : rest.takeWhile isIdentifierChar = [] ∧ rest.dropWhile isIdentifierChar = rest := by
    cases rest with
    | nil => exact ⟨rfl, rfl⟩
    | cons d rest =>
        have hd : isIdentifierChar d = false := hrest
        simp [hd]
  have hbare : bareIdentifier? (c :: cs ++ rest) =
      some ⟨.identifier (String.ofList ((c :: cs).map Char.toLower)), c :: cs, rest⟩ := by
    have hhead : (c :: cs ++ rest).head?.any Char.isAlpha = true := hc
    rw [bareIdentifier?, if_pos hhead, List.takeWhile_append_of_pos hall, List.dropWhile_append_of_pos hall, hstop.1,
      hstop.2, List.append_nil]
  have hsymbol : c.toLower ∉ Symbol.heads := by
    intro hmem
    have hsigns : Symbol.heads.all (fun c => !c.isLower) = true := by decide
    have hnot := List.all_eq_true.1 hsigns _ hmem
    rw [isLower_toLower hc] at hnot
    cases hnot
  rw [first?, hkeyword, hbare, List.cons_append, symbol?_eq_none hsymbol]
  obtain ⟨hstring, hnumeral, hquoted⟩ := quoted_numeral?_of_bareIdentifier? hbare (cs ++ rest)
  rw [hstring, hnumeral, hquoted]
  rfl

theorem first?_writtenAs (h : l.WrittenAs w) (hopen : ¬ l.HasOpenExponent) (hrest : Delimited rest)
    (hkey : w.map Char.toLower = "primary".toList → ¬ Begins " key".toList rest) :
    first? (w ++ rest) = some ⟨l, w, rest⟩ := by
  cases h with
  | reserved h => exact first?_word (.keyword h) hrest
  | symbol h => exact first?_symbol h (Symbol.ends_of_delimited _ hrest)
  | string s => exact first?_string s hrest
  | @numeral whole part power h =>
      refine first?_numeral h ?_ hrest.stops
      rintro rfl
      exact hopen ⟨rfl, by simp⟩
  | quotedName h => exact first?_identifier h hrest
  | bareName hc hcs hword =>
      have hall := isIdentifierChar_of_mem_cons hc hcs
      have hstop := hrest.not_isIdentifierChar
      exact first?_bareName hc hcs hstop
        (keyword?_eq_none_of_word hall hword hstop fun hprimary hbegins => absurd hbegins (hkey hprimary))

end

end Match

end SqlStore
