import Mathlib.Data.List.Forall2
import SqlStore.Proofs.Text.Offset
import SqlStore.Proofs.Token.Move

/-!
# Tokens tile their source

The tokens of a source text stand for ranges of its bytes, one after another, with nothing but separators outside
them, and their places are those of the offsets where the ranges start and stop (`Token.ofSource_tiles`). One step of
a scan adds a separator or a token in front of a tiling; a run of steps puts the tiling together (`Scan.run_tiles`).
-/

namespace SqlStore

open String (utf8Len)
open Text.Utf8 (encode)

/-- The token stands for the bytes of the span, which starts and stops between characters. -/
structure Token.Covers (source : String) (t : Token) (span : Span) : Prop where
  nonempty : span.start < span.stop
  start_valid : (String.Pos.Raw.mk span.start).IsValid source
  stop_valid : (String.Pos.Raw.mk span.stop).IsValid source
  start_eq : t.start = .ofOffset source span.start
  stop_eq : t.stop = .ofOffset source span.stop

/-- A blank, a tab, a carriage return or a line feed. -/
def SeparatorAt (source : String) (offset : Nat) : Prop :=
  ∃ b ∈ [32, 9, 13, 10], (encode source.toList)[offset]? = some b

/-- Between two offsets the tokens stand for the spans, and every byte outside the spans is a separator. -/
structure Tiling (source : String) (start stop : Nat) (tokens : List Token) (spans : List Span) : Prop where
  le : start ≤ stop
  covers : List.Forall₂ (Token.Covers source) tokens spans
  ordered : spans.Pairwise fun a b => a.stop ≤ b.start
  within : ∀ span ∈ spans, start ≤ span.start ∧ span.stop ≤ stop
  between : ∀ offset, start ≤ offset → offset < stop →
    (∀ span ∈ spans, offset < span.start ∨ span.stop ≤ offset) → SeparatorAt source offset

namespace Match

/-- The readers of the classes of lexemes; an identifier has two. -/
def readers : List (List Char → Option Match) :=
  [keyword?, symbol?, string?, numeral?, quotedIdentifier?, bareIdentifier?]

/-- No lexeme and no separator is at the head of the text. -/
def NothingFits (cs : List Char) : Prop :=
  (∀ c ∈ cs.head?, Scan.isSeparator c = false) ∧ ∀ read ∈ readers, read cs = none

theorem first?_eq_none_iff {cs : List Char} : first? cs = none ↔ ∀ read ∈ readers, read cs = none := by
  simp [first?, readers, Option.or_eq_none_iff]

theorem splits_of_mem_readers {read : List Char → Option Match} {cs : List Char} {m : Match} (hread : read ∈ readers)
    (h : read cs = some m) : m.Splits cs := by
  have hcs : read = keyword? ∨ read = symbol? → cs ≠ [] := by
    rintro (rfl | rfl) rfl <;> cases h
  simp only [readers, List.mem_cons, List.not_mem_nil, or_false] at hread
  rcases hread with rfl | rfl | rfl | rfl | rfl | rfl
  · exact splits_of_keyword? (hcs (.inl rfl)) h
  · exact splits_of_symbol? (hcs (.inr rfl)) h
  · exact splits_of_quoted? h
  · exact splits_of_numeral? h
  · exact splits_of_quotedIdentifier? h
  · exact splits_of_bareIdentifier? h

end Match

/-! ## One step -/

theorem utf8Len_pos {cs : List Char} (h : cs ≠ []) : 0 < utf8Len cs := by
  cases cs with
  | nil => exact absurd rfl h
  | cons c cs =>
      rw [String.utf8Len_cons]
      exact Nat.add_pos_right _ c.utf8Size_pos

section

variable {source : String} {before middle after : List Char} {c : Char} {start stop : Nat} {tokens : List Token}
  {spans : List Span}

theorem Token.covers_of_append (h : source.toList = before ++ (middle ++ after)) (hne : middle ≠ []) (l : Lexeme)
    {p : Position} (hp : p = .advance .origin before) :
    Covers source ⟨l, p, p.advance middle⟩ ⟨utf8Len before, utf8Len (before ++ middle)⟩ := by
  have hsplit : source.toList = before ++ middle ++ after := by rw [h, List.append_assoc]
  refine ⟨?_, isValid_of_append h, isValid_of_append hsplit, ?_, ?_⟩
  · have hpos := utf8Len_pos hne
    simp only [String.utf8Len_append]
    omega
  · rw [hp, Position.ofOffset_append h]
  · rw [hp, Position.ofOffset_append hsplit, Position.advance_append]

theorem utf8EncodeChar_of_isSeparator (hc : Scan.isSeparator c = true) :
    ∃ b ∈ [32, 9, 13, 10], String.utf8EncodeChar c = [b] := by
  simp only [Scan.isSeparator, Bool.or_eq_true, beq_iff_eq] at hc
  rcases hc with ((rfl | rfl) | rfl) | rfl <;> exact ⟨_, by decide, rfl⟩

theorem separatorAt_of_append (h : source.toList = before ++ c :: after) (hc : Scan.isSeparator c = true) :
    SeparatorAt source (utf8Len before) ∧ utf8Len (before ++ [c]) = utf8Len before + 1 := by
  obtain ⟨b, hb, hform⟩ := utf8EncodeChar_of_isSeparator hc
  constructor
  · refine ⟨b, hb, ?_⟩
    rw [h, Text.Utf8.encode_append, Text.Utf8.encode_cons, hform, ← Text.Utf8.length_encode]
    simp
  · have hsize : c.utf8Size = 1 := by rw [← String.length_utf8EncodeChar, hform, List.length_singleton]
    simp [hsize]

namespace Tiling

theorem nil : Tiling source start start [] [] :=
  ⟨Nat.le_refl _, .nil, .nil, by simp, fun _ _ _ => by omega⟩

theorem separator (hc : SeparatorAt source start) (h : Tiling source (start + 1) stop tokens spans) :
    Tiling source start stop tokens spans := by
  refine ⟨Nat.le_of_succ_le h.le, h.covers, h.ordered, fun span hspan => ?_, fun offset hstart hstop hout => ?_⟩
  · have := h.within span hspan
    omega
  · rcases Nat.eq_or_lt_of_le hstart with rfl | hlt
    · exact hc
    · exact h.between offset hlt hstop hout

theorem token {t : Token} {span : Span} (ht : t.Covers source span) (h : Tiling source span.stop stop tokens spans) :
    Tiling source span.start stop (t :: tokens) (span :: spans) := by
  have hlt := ht.nonempty
  have hle := h.le
  refine ⟨by omega, .cons ht h.covers, .cons (fun other hother => (h.within other hother).1) h.ordered, ?_, ?_⟩
  · intro other hother
    rcases List.mem_cons.1 hother with rfl | hother
    · exact ⟨Nat.le_refl _, hle⟩
    · have := h.within other hother
      omega
  · intro offset hstart hstop hout
    have hafter : span.stop ≤ offset := by
      have := hout span List.mem_cons_self
      omega
    exact h.between offset hafter hstop fun other hother => hout other (List.mem_cons_of_mem _ hother)

end Tiling

end

/-! ## Whole texts -/

theorem Scan.nothingFits_rest (p : Position) (cs : List Char) (h : (run p cs).rest ≠ []) :
    Match.NothingFits (run p cs).rest := by
  fun_induction run p cs with
  | case1 => exact absurd rfl h
  | case2 p c cs hc ih => exact ih h
  | case3 p c cs hc hm =>
      refine ⟨fun d hd => ?_, Match.first?_eq_none_iff.1 (Match.firstAt?_eq_none_iff.1 hm)⟩
      cases hd
      simpa using hc
  | case4 p c cs hc m stop hm scan ih => exact ih h

/-- From where a scan starts up to where it ends its tokens tile the text. -/
theorem Scan.run_tiles {source : String} {before cs : List Char} {p : Position} (h : source.toList = before ++ cs)
    (hp : p = Position.origin.advance before) :
    ∃ taken spans, cs = taken ++ (run p cs).rest ∧ (run p cs).stop = p.advance taken ∧
      Tiling source (utf8Len before) (utf8Len (before ++ taken)) (run p cs).tokens spans := by
  fun_induction run p cs generalizing before with
  | case1 p =>
      refine ⟨[], [], rfl, rfl, ?_⟩
      rw [List.append_nil]
      exact .nil
  | case2 p c cs hc ih =>
      rw [afterSeparator_eq hc] at ih ⊢
      obtain ⟨taken, spans, hcs, hstop, htiles⟩ := @ih (before ++ [c]) (by simp [h]) (by simp [hp])
      obtain ⟨hseparator, hsize⟩ := separatorAt_of_append h hc
      rw [hsize, List.append_assoc] at htiles
      exact ⟨c :: taken, spans, congrArg (c :: ·) hcs, hstop, .separator hseparator htiles⟩
  | case3 p c cs hc hm =>
      refine ⟨[], [], rfl, rfl, ?_⟩
      rw [List.append_nil]
      exact .nil
  | case4 p c cs hc m stop hm scan =>
      rename_i ih
      obtain ⟨hfirst, rfl⟩ := Match.firstAt?_eq_some_iff.1 hm
      obtain ⟨hsplit, hne⟩ := Match.splits_of_first? (List.cons_ne_nil _ _) hfirst
      have hsource : source.toList = before ++ (m.taken ++ m.rest) := by rw [hsplit, h]
      obtain ⟨taken, spans, hrest, hstop, htiles⟩ :=
        @ih (before ++ m.taken) (by rw [hsource, List.append_assoc]) (by rw [Position.advance_append, ← hp])
      rw [List.append_assoc] at htiles
      refine ⟨m.taken ++ taken, _, ?_, ?_, .token (Token.covers_of_append hsource hne m.lexeme hp) htiles⟩
      · rw [List.append_assoc, ← hrest, hsplit]
      · rw [Position.advance_append]
        exact hstop

/-- Where a source text is read in full its tokens tile it. Where it is not, they tile it up to an offset at which no
reader fits, and this is where the error is. Whatever a reader finds takes at least one byte and no more than there
are. -/
theorem Token.ofSource_tiles (source : String) :
    (match ofSource source with
      | .ok tokens => ∃ spans, Tiling source 0 source.utf8ByteSize tokens spans
      | .error e => ∃ before rest spans, source.toList = before ++ rest ∧
          utf8Len before < source.utf8ByteSize ∧ Match.NothingFits rest ∧
          Tiling source 0 (utf8Len before) (Scan.ofSource source).tokens spans ∧
          e.position = .ofOffset source (utf8Len before)) ∧
      ∀ before rest, source.toList = before ++ rest → ∀ read ∈ Match.readers, ∀ m, read rest = some m →
        rest = m.taken ++ m.rest ∧ utf8Len before < utf8Len (before ++ m.taken) ∧
          utf8Len (before ++ m.taken) ≤ source.utf8ByteSize := by
  constructor
  · obtain ⟨taken, spans, hsource, hstop, htiles⟩ := @Scan.run_tiles source [] source.toList .origin rfl rfl
    have hsize := utf8ByteSize_of_append hsource
    have hfits := Scan.nothingFits_rest .origin source.toList
    rw [ofSource, Scan.ofSource]
    by_cases hrest : (Scan.run .origin source.toList).rest = []
    · rw [if_pos (List.isEmpty_iff.2 hrest)]
      rw [hrest] at hsize
      exact ⟨spans, hsize ▸ htiles⟩
    · rw [if_neg (by rwa [List.isEmpty_iff])]
      have hpos := utf8Len_pos hrest
      refine ⟨taken, _, spans, hsource, by omega, hfits hrest, htiles, ?_⟩
      rw [Position.ofOffset_append hsource]
      exact hstop
  · intro before rest hsource read hread m hm
    obtain ⟨happend, hne⟩ := Match.splits_of_mem_readers hread hm
    have hsize := utf8ByteSize_of_append hsource
    have hpos := utf8Len_pos hne
    rw [← happend] at hsize
    simp only [String.utf8Len_append] at hsize ⊢
    exact ⟨happend.symm, by omega, by omega⟩

end SqlStore
