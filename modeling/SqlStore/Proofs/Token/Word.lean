import SqlStore.Proofs.Sequence
import SqlStore.Proofs.Token.Relex

/-!
# Words

A word is a run of identifier characters that starts with a letter. Where the lexer stands between tokens at a letter
it takes the whole word as one token, or both words of the reserved word that has two, and only the list of reserved
words decides what kind of token that is (`Token.ofSource_word`).
-/

namespace SqlStore

open String (utf8Len)
open Text (Begins)

/-- What a word in lower case stands for: a value, a reserved word, or else a name. -/
def TokenKind.ofWord (word : String) : TokenKind :=
  if word = "true" ∨ word = "false" then .bool
  else if word = "null" then .null
  else if ∃ k ∈ Keyword.all, k ≠ .primaryKey ∧ k.spelling = word then .keyword
  else .identifier

/-- After the word stand one blank and the second word of the reserved word that has two. -/
structure PrimaryKeyAt (word rest key after : List Char) : Prop where
  first : word.map Char.toLower = "primary".toList
  rest_eq : rest = ' ' :: (key ++ after)
  second : key.map Char.toLower = "key".toList
  ends : after.head?.any isIdentifierChar = false

theorem PrimaryKeyAt.key_unique {word rest key after key' after' : List Char} (h : PrimaryKeyAt word rest key after)
    (h' : PrimaryKeyAt word rest key' after') : key = key' := by
  have hlength : key.length = key'.length := by
    rw [← key.length_map Char.toLower, ← key'.length_map Char.toLower, h.second, h'.second]
  have heq := h.rest_eq.symm.trans h'.rest_eq
  exact (List.append_inj (List.cons.inj heq).2 hlength).1

/-! ## The word at the head of a text -/

theorem TokenKind.ofWord_spelling {k : Keyword} (hk : k ≠ .primaryKey) : ofWord k.spelling = k.kind := by
  cases k <;> first | decide | exact absurd rfl hk

theorem TokenKind.ofWord_of_forall_ne {word : String} (h : ∀ k : Keyword, k.spelling ≠ word) :
    ofWord word = .identifier := by
  have hvalue : ¬ (word = "true" ∨ word = "false") := by
    rintro (rfl | rfl)
    · exact h .true rfl
    · exact h .false rfl
  rw [ofWord, if_neg hvalue, if_neg fun hnull => h .null hnull.symm, if_neg]
  rintro ⟨k, -, -, hk⟩
  exact h k hk

theorem Keyword.map_toLower_ne_primaryKey {w : List Char} (hw : ∀ d ∈ w, isIdentifierChar d = Bool.true) :
    w.map Char.toLower ≠ primaryKey.spelling.toList := by
  intro h
  have hblank : ' ' ∈ w.map Char.toLower := by
    rw [h]
    decide
  obtain ⟨d, hd, hlower⟩ := List.mem_map.1 hblank
  have hletter := hw d hd
  by_cases hupper : d.isUpper = Bool.true
  · have hlow := isLower_toLower (isAlpha_iff.2 (.inl hupper))
    rw [hlower] at hlow
    cases hlow
  · rw [toLower_of_not_isUpper (by simpa using hupper)] at hlower
    subst hlower
    cases hletter

theorem not_isSeparator_of_isAlpha {c : Char} (h : c.isAlpha = true) : Scan.isSeparator c = false := by
  refine Bool.eq_false_iff.2 fun hc => ?_
  simp only [Scan.isSeparator, Bool.or_eq_true, beq_iff_eq] at hc
  rcases hc with ((rfl | rfl) | rfl) | rfl <;> cases h

theorem any_head?_takeWhile {cs : List Char} (h : cs.head?.any Char.isAlpha = true) :
    (cs.takeWhile isIdentifierChar).head?.any Char.isAlpha = true := by
  cases cs with
  | nil => cases h
  | cons c cs =>
      rw [List.takeWhile_cons_of_pos (isIdentifierChar_of_isAlpha h)]
      exact h

/-- The two words are found where the second of them begins the rest, up to the character after it. -/
theorem exists_primaryKeyAt {word rest : List Char} (hfirst : word.map Char.toLower = "primary".toList)
    (hrest : rest.head?.any isIdentifierChar = false) (hbegins : Begins " key".toList rest)
    (hends : (rest.drop 4).head?.any isIdentifierChar = false) : ∃ key after, PrimaryKeyAt word rest key after := by
  have hblanks : " key".toList = ' ' :: "key".toList := by decide
  rw [Begins, hblanks] at hbegins
  obtain ⟨more, hmore⟩ := hbegins
  obtain ⟨second, after, rfl, hsecond, -⟩ := List.map_eq_append_iff.1 hmore.symm
  obtain ⟨c, key, rfl, hc, hkey⟩ := List.map_eq_cons_iff.1 hsecond
  have hblank : c = ' ' := by
    rw [← hc, toLower_of_not_isIdentifierChar hrest]
  have hlength : key.length = 3 := by
    rw [← key.length_map Char.toLower, hkey]
    rfl
  refine ⟨key, after, hfirst, by rw [hblank]; rfl, hkey, ?_⟩
  simpa [List.drop_append, hlength] using hends

namespace Match

variable {word rest key after : List Char}

theorem first?_primaryKey (h : PrimaryKeyAt word rest key after) :
    first? (word ++ rest) = some ⟨.keyword .primaryKey, word ++ ' ' :: key, after⟩ := by
  have hspelling : (word ++ ' ' :: key).map Char.toLower = Keyword.primaryKey.spelling.toList := by
    rw [List.map_append, List.map_cons, h.first, h.second]
    decide
  have hkeyword := keyword?_word hspelling h.ends
  rw [List.append_assoc, List.cons_append, ← h.rest_eq] at hkeyword
  rw [first?, hkeyword]
  rfl

/-- A word that is not the first of two is taken as it is, whatever reserved words it begins with. -/
theorem first?_singleWord (hword : ∀ d ∈ word, isIdentifierChar d = true) (hletter : word.head?.any Char.isAlpha = true)
    (hrest : rest.head?.any isIdentifierChar = false) (hnot : ∀ key after, ¬ PrimaryKeyAt word rest key after) :
    first? (word ++ rest) = some ⟨⟨.ofWord (String.ofList (word.map Char.toLower)),
      String.ofList (word.map Char.toLower)⟩, word, rest⟩ := by
  by_cases hreserved : ∃ k : Keyword, word.map Char.toLower = k.spelling.toList
  · obtain ⟨k, hk⟩ := hreserved
    have hprimary : k ≠ .primaryKey := by
      rintro rfl
      exact Keyword.map_toLower_ne_primaryKey hword hk
    rw [first?, keyword?_word hk hrest, hk, String.ofList_toList, TokenKind.ofWord_spelling hprimary]
    rfl
  · have hnone : ∀ k : Keyword, word.map Char.toLower ≠ k.spelling.toList := fun k hk => hreserved ⟨k, hk⟩
    have hkeyword : keyword? (word ++ rest) = none := by
      refine keyword?_eq_none_of_word hword hnone hrest fun hfirst hbegins => ?_
      by_contra hends
      obtain ⟨key, after, h⟩ := exists_primaryKeyAt hfirst hrest hbegins (by simpa using hends)
      exact hnot key after h
    have hkind : TokenKind.ofWord (String.ofList (word.map Char.toLower)) = .identifier := by
      refine TokenKind.ofWord_of_forall_ne fun k hk => hnone k ?_
      rw [hk, String.toList_ofList]
    rw [hkind]
    cases word with
    | nil => cases hletter
    | cons c cs => exact first?_bareName hletter (fun d hd => hword d (List.mem_cons_of_mem _ hd)) hrest hkeyword

end Match

/-! ## Places between tokens -/

/-- No token goes on across the offset. -/
def Token.Between (source : String) (tokens : List Token) (offset : Nat) : Prop :=
  ∀ t ∈ tokens, ∃ span, t.Covers source span ∧ (offset ≤ span.start ∨ span.stop ≤ offset)

/-- One of the tokens stands for the bytes of the span, and each of the others stands before it or after it. -/
def Token.Fills (source : String) (tokens : List Token) (t : Token) (span : Span) : Prop :=
  ∃ earlier later, tokens = earlier ++ t :: later ∧ t.Covers source span ∧
    (∀ e ∈ earlier, ∃ other, e.Covers source other ∧ other.stop ≤ span.start) ∧
    ∀ e ∈ later, ∃ other, e.Covers source other ∧ span.stop ≤ other.start

section

variable {source : String} {tokens : List Token} {before cs : List Char}

/-- A separator byte stands for no other character. -/
theorem not_separatorAt_of_append {c : Char} (h : source.toList = before ++ c :: cs) (hc : Scan.isSeparator c = false) :
    ¬ SeparatorAt source (utf8Len before) := by
  rintro ⟨b, hb, hbyte⟩
  obtain ⟨q, hq, hlow, rfl⟩ : ∃ q, Scan.isSeparator q = true ∧ q.toNat < 128 ∧ q.toUInt8 = b := by
    simp only [List.mem_cons, List.not_mem_nil, or_false] at hb
    rcases hb with rfl | rfl | rfl | rfl
    exacts [⟨' ', by decide⟩, ⟨'\t', by decide⟩, ⟨'\r', by decide⟩, ⟨'\n', by decide⟩]
  have hhead : (String.utf8EncodeChar c)[0]? = some q.toUInt8 := by
    rw [h, Text.Utf8.encode_append, Text.Utf8.encode_cons, ← Text.Utf8.length_encode,
      List.getElem?_append_right (Nat.le_refl _), Nat.sub_self, List.getElem?_append_left] at hbyte
    · exact hbyte
    · rw [String.length_utf8EncodeChar]
      exact c.utf8Size_pos
  rw [(Text.Utf8.ascii_mem_encodeChar hlow).1 (List.mem_of_getElem? hhead), hq] at hc
  cases hc

theorem Tiling.exists_fills {start stop offset : Nat} {spans : List Span} (h : Tiling source start stop tokens spans)
    (hstart : start ≤ offset) (hstop : offset < stop) (hbyte : ¬ SeparatorAt source offset)
    (hbetween : Token.Between source tokens offset) :
    ∃ t span, span.start = offset ∧ Token.Fills source tokens t span := by
  obtain ⟨span, hspan, hle, hlt⟩ : ∃ span ∈ spans, span.start ≤ offset ∧ offset < span.stop := by
    by_contra hnone
    refine hbyte (h.between offset hstart hstop fun span hspan => ?_)
    by_contra hinside
    exact hnone ⟨span, hspan, by omega, by omega⟩
  obtain ⟨as, bs, rfl⟩ := List.append_of_mem hspan
  obtain ⟨earlier, more, rfl, hearlier, hmore⟩ := exists_append_of_forall₂ h.covers.flip
  obtain ⟨hbs, has⟩ : (∀ b ∈ bs, span.stop ≤ b.start) ∧ ∀ a ∈ as, a.stop ≤ span.start := by
    obtain ⟨-, hcons, hacross⟩ := List.pairwise_append.1 h.ordered
    exact ⟨(List.pairwise_cons.1 hcons).1, fun a ha => hacross a ha span List.mem_cons_self⟩
  cases hmore with
  | @cons _ t _ later ht hlater =>
      refine ⟨t, span, ?_, earlier, later, rfl, ht, ?_, ?_⟩
      · obtain ⟨other, hother, hside⟩ := hbetween t (List.mem_append_right _ List.mem_cons_self)
        obtain rfl := ht.unique hother
        omega
      · exact forall_mem_of_forall₂ hearlier fun a ha e he => ⟨a, he, has a ha⟩
      · exact forall_mem_of_forall₂ hlater fun b hb e he => ⟨b, he, hbs b hb⟩

theorem eq_of_utf8Len_eq {as bs more : List Char} (h : as ++ more = bs ++ cs) (hlen : utf8Len as = utf8Len bs) :
    as = bs ∧ more = cs := by
  rcases List.append_eq_append_iff.1 h with ⟨ds, rfl, rfl⟩ | ⟨ds, rfl, rfl⟩ <;> rw [String.utf8Len_append] at hlen
  all_goals
    have hnil : ds = [] := by
      by_contra hne
      have hpos := utf8Len_pos hne
      omega
    simp [hnil]

/-- A token that starts at an offset is what is first found there. -/
theorem Token.exists_first?_of_covers {t : Token} {span : Span} (h : ofSource source = .ok tokens) (ht : t ∈ tokens)
    (hcovers : t.Covers source span) (hsource : source.toList = before ++ cs) (hstart : span.start = utf8Len before) :
    ∃ m, Match.first? cs = some m ∧ m.lexeme = t.lexeme ∧ span = ⟨utf8Len before, utf8Len (before ++ m.taken)⟩ := by
  obtain ⟨-, rfl⟩ := ofSource_eq_ok_iff.1 h
  obtain ⟨before', taken, rest, hsplit, hm, hne, hplace, hstop⟩ := Scan.exists_match_of_mem ht
  have hother := covers_of_append hsplit hne t.lexeme hplace
  rw [← hstop] at hother
  obtain rfl := hcovers.unique hother
  obtain ⟨rfl, rfl⟩ := eq_of_utf8Len_eq (hsplit.symm.trans hsource) hstart
  exact ⟨_, hm, rfl, rfl⟩

/-- What is first found at a place between tokens is the only token there. -/
theorem Token.fills_of_first? {c : Char} {m : Match} (h : ofSource source = .ok tokens)
    (hsource : source.toList = before ++ c :: cs) (hc : Scan.isSeparator c = false)
    (hbetween : Between source tokens (utf8Len before)) (hm : Match.first? (c :: cs) = some m) :
    ∃ t, t.lexeme = m.lexeme ∧ Fills source tokens t ⟨utf8Len before, utf8Len (before ++ m.taken)⟩ := by
  obtain ⟨hrest, htokens⟩ := ofSource_eq_ok_iff.1 h
  obtain ⟨taken, spans, hall, -, htiles⟩ := @Scan.run_tiles source [] source.toList .origin rfl rfl
  rw [hrest, List.append_nil] at hall
  rw [htokens, List.nil_append, ← hall, hsource] at htiles
  have hinside : utf8Len before < utf8Len (before ++ c :: cs) := by
    have hpos := utf8Len_pos (List.cons_ne_nil c cs)
    rw [String.utf8Len_append]
    omega
  obtain ⟨t, span, hstart, hfills⟩ :=
    htiles.exists_fills (Nat.zero_le _) hinside (not_separatorAt_of_append hsource hc) hbetween
  have ⟨earlier, later, hsplit, hcovers, _⟩ := hfills
  obtain ⟨m', hm', hlexeme, rfl⟩ := exists_first?_of_covers h (by simp [hsplit]) hcovers hsource hstart
  obtain rfl : m' = m := Option.some.inj (hm'.symm.trans hm)
  exact ⟨t, hlexeme.symm, hfills⟩

/-- At a letter between tokens, one token stands for the word that starts there, or for both words of the reserved word
that has two. Its text is the word in lower case. -/
theorem Token.ofSource_word (h : ofSource source = .ok tokens) (hsource : source.toList = before ++ cs)
    (hletter : cs.head?.any Char.isAlpha = true) (hbetween : Between source tokens (utf8Len before)) :
    let word := cs.takeWhile isIdentifierChar
    let rest := cs.dropWhile isIdentifierChar
    let text := String.ofList (word.map Char.toLower)
    ∃ t taken, taken <+: cs ∧ Fills source tokens t ⟨utf8Len before, utf8Len (before ++ taken)⟩ ∧
      (∀ key after, PrimaryKeyAt word rest key after →
        taken = word ++ ' ' :: key ∧ t.lexeme = ⟨.keyword, "primary key"⟩) ∧
      ((∀ key after, ¬ PrimaryKeyAt word rest key after) → taken = word ∧ t.lexeme = ⟨.ofWord text, text⟩) := by
  intro word rest text
  have happend : word ++ rest = cs := List.takeWhile_append_dropWhile
  cases cs with
  | nil => cases hletter
  | cons c cs =>
      have hc := not_isSeparator_of_isAlpha hletter
      by_cases hprimary : ∃ key after, PrimaryKeyAt word rest key after
      · obtain ⟨key, after, hkey⟩ := hprimary
        have hfirst := Match.first?_primaryKey hkey
        rw [happend] at hfirst
        obtain ⟨t, ht, hfills⟩ := fills_of_first? h hsource hc hbetween hfirst
        refine ⟨t, _, ⟨after, ?_⟩, hfills, fun key' after' hkey' => ⟨?_, ht⟩, fun hnot => absurd hkey (hnot key after)⟩
        · rw [← happend, hkey.rest_eq, List.append_assoc, List.cons_append]
        · rw [hkey.key_unique hkey']
      · have hword : ∀ d ∈ word, isIdentifierChar d = true := fun d hd => List.all_eq_true.1 List.all_takeWhile d hd
        have hnot : ∀ key after, ¬ PrimaryKeyAt word rest key after := fun key after hkey => hprimary ⟨key, after, hkey⟩
        have hfirst := Match.first?_singleWord hword (any_head?_takeWhile hletter) (Match.any_head?_dropWhile _) hnot
        rw [happend] at hfirst
        obtain ⟨t, ht, hfills⟩ := fills_of_first? h hsource hc hbetween hfirst
        exact ⟨t, word, ⟨rest, happend⟩, hfills, fun key after hkey => absurd hkey (hnot key after), fun _ => ⟨rfl, ht⟩⟩

end

/-- The two words after a name. -/
theorem Token.ofSource_word_primaryKey :
    let source := "id Primary KEY"
    let tokens : List Token := [⟨.identifier "id", ⟨0, 0⟩, ⟨0, 2⟩⟩, ⟨.keyword .primaryKey, ⟨0, 3⟩, ⟨0, 14⟩⟩]
    ofSource source = .ok tokens ∧ Between source tokens 3 ∧
      ∃ t, Fills source tokens t ⟨3, 14⟩ ∧ t.lexeme = ⟨.keyword, "primary key"⟩ := by
  intro source tokens
  have hsource : ofSource source = .ok tokens := by decide +kernel
  have hbetween : Between source tokens 3 := by
    refine List.forall_mem_cons.2 ⟨⟨⟨0, 2⟩, ?_, .inr (by decide)⟩, ?_⟩
    · exact @covers_of_append source [] "id".toList " Primary KEY".toList (by decide) (by decide) _ _ rfl
    · refine List.forall_mem_singleton.2 ⟨⟨3, 14⟩, ?_, .inl (by decide)⟩
      exact @covers_of_append source "id ".toList "Primary KEY".toList [] (by decide) (by decide) _ _ rfl
  obtain ⟨t, taken, -, hfills, hprimary, -⟩ :=
    @ofSource_word source tokens "id ".toList "Primary KEY".toList hsource (by decide) rfl hbetween
  obtain ⟨rfl, ht⟩ := hprimary "KEY".toList [] ⟨by decide, by decide, by decide, rfl⟩
  exact ⟨hsource, hbetween, t, hfills, ht⟩

end SqlStore
