import SqlStore.Proofs.Token.Tiling
import SqlStore.Proofs.Token.Written

/-!
# Reading a token again

What a token covers of its source text, and what it is written as by `Lexeme.render`, are texts of their own. Each of
them reads as the token alone, except in the cases that `Token.ofSource_text_of_covers` and `Lexeme.ofSource_render`
name: a numeral that ends in its exponent marker cannot stand at the end of a text, and an identifier with the name of
a reserved word is written without the quotes it needs.
-/

namespace SqlStore

def Lexeme.ofSource (source : String) : Except LexError (List Lexeme) :=
  (Token.ofSource source).map (·.map Token.lexeme)

/-- An identifier with the name of a reserved word; the one of two words is no name without quotes anyway. -/
def Lexeme.IsReservedName (l : Lexeme) : Prop :=
  l.kind = .identifier ∧ ∃ k ∈ Keyword.all, k ≠ .primaryKey ∧ l.text = k.spelling

instance (l : Lexeme) : Decidable l.IsReservedName := inferInstanceAs (Decidable (_ ∧ _))

theorem Scan.exists_match_of_mem {p : Position} {cs : List Char} {t : Token} (h : t ∈ (run p cs).tokens) :
    ∃ before taken rest, cs = before ++ (taken ++ rest) ∧
      Match.first? (taken ++ rest) = some ⟨t.lexeme, taken, rest⟩ ∧ taken ≠ [] ∧
      t.start = p.advance before ∧ t.stop = t.start.advance taken := by
  fun_induction run p cs with
  | case1 => cases h
  | case2 p c cs hc ih =>
      obtain ⟨before, taken, rest, rfl, hm, hne, hstart, hstop⟩ := ih h
      rw [afterSeparator_eq hc] at hstart
      exact ⟨c :: before, taken, rest, rfl, hm, hne, hstart, hstop⟩
  | case3 => cases h
  | case4 p c cs hc m stop hm scan =>
      rename_i ih
      obtain ⟨hfirst, rfl⟩ := Match.firstAt?_eq_some_iff.1 hm
      obtain ⟨hsplit, hne⟩ := Match.splits_of_first? (List.cons_ne_nil _ _) hfirst
      rcases List.mem_cons.1 h with rfl | h
      · refine ⟨[], m.taken, m.rest, hsplit.symm, ?_, hne, rfl, rfl⟩
        rw [hsplit]
        exact hfirst
      · obtain ⟨before, taken, rest, hrest, hm', hne', hstart, hstop⟩ := ih h
        refine ⟨m.taken ++ before, taken, rest, ?_, hm', hne', ?_, hstop⟩
        · rw [← hsplit, hrest, List.append_assoc]
        · rw [hstart, Position.advance_append]

theorem Token.Covers.unique {source : String} {t : Token} {a b : Span} (ha : t.Covers source a)
    (hb : t.Covers source b) : a = b := by
  have hstart : a.start = b.start :=
    Position.ofOffset_inj ha.start_valid.le_utf8ByteSize hb.start_valid.le_utf8ByteSize
      (ha.start_eq.symm.trans hb.start_eq)
  have hstop : a.stop = b.stop :=
    Position.ofOffset_inj ha.stop_valid.le_utf8ByteSize hb.stop_valid.le_utf8ByteSize
      (ha.stop_eq.symm.trans hb.stop_eq)
  cases a
  cases b
  cases hstart
  cases hstop
  rfl

/-- A token of a source text covers a written form of its lexeme. -/
theorem Token.exists_writtenAs_of_mem {source : String} {tokens : List Token} {t : Token}
    (h : ofSource source = .ok tokens) (ht : t ∈ tokens) :
    ∃ span w, t.Covers source span ∧ span.text source = String.ofList w ∧ t.lexeme.WrittenAs w := by
  obtain ⟨-, rfl⟩ := ofSource_eq_ok_iff.1 h
  obtain ⟨before, taken, rest, hsource, hm, hne, hstart, hstop⟩ := Scan.exists_match_of_mem ht
  refine ⟨_, taken, ?_, Span.text_of_append hsource, Match.writtenAs_of_first? hm⟩
  have hcovers := covers_of_append hsource hne t.lexeme hstart
  rw [← hstop] at hcovers
  exact hcovers

/-! ## Texts of one token -/

namespace Lexeme

variable {l : Lexeme} {w : List Char}

theorem WrittenAs.ne_nil (h : l.WrittenAs w) : w ≠ [] := by
  cases h with
  | reserved h => exact (Word.keyword h).ne_nil
  | @symbol s _ h =>
      rintro rfl
      obtain ⟨c, cs, hs, -⟩ := s.exists_spelling
      rw [hs] at h
      cases h
  | string s => exact (Word.string s).ne_nil
  | numeral h =>
      obtain ⟨c, cs, hcs, -⟩ := h.exists_cons
      rw [hcs]
      exact List.cons_ne_nil _ _
  | quotedName h => exact (Word.identifier h).ne_nil
  | bareName => exact List.cons_ne_nil _ _

theorem ofSource_of_writtenAs (h : l.WrittenAs w) (hopen : ¬ l.HasOpenExponent) :
    ofSource (String.ofList w) = .ok [l] := by
  have hfirst : Match.first? (w ++ []) = some ⟨l, w, []⟩ :=
    Match.first?_writtenAs h hopen delimited_nil fun _ hbegins => by cases List.prefix_nil.1 hbegins
  rw [List.append_nil] at hfirst
  have hyields : Scan.Yields (String.ofList w).toList [l] := by
    rw [String.toList_ofList]
    exact .lexeme h.ne_nil hfirst .nil
  obtain ⟨ts, htokens, hlexemes⟩ := hyields.ofSource
  rw [ofSource, htokens, ← hlexemes]
  rfl

theorem ofSource_of_open_exponent (h : l.WrittenAs w) (hopen : l.HasOpenExponent) :
    Token.ofSource (String.ofList w) = .error ⟨.unknownText, none, .origin⟩ := by
  obtain ⟨hkind, hlast⟩ := hopen
  cases h with
  | @reserved k => cases k <;> cases hkind
  | @numeral whole part power hform =>
      rw [String.toList_ofList, hform.getLast?_eq_marker_iff] at hlast
      subst hlast
      have hread := Text.Numeral.read_of_open_exponent hform
      obtain ⟨c, cs, hcs, hc⟩ := hform.exists_cons
      rw [hcs] at hread ⊢
      have hnone : Match.first? (c :: cs) = none := by
        rw [Match.first?_eq_numeral? hc, Match.numeral?, hread]
        rfl
      have hseparator : Scan.isSeparator c = false := by
        refine Bool.eq_false_iff.2 fun hseparator => ?_
        simp only [Scan.isSeparator, Bool.or_eq_true, beq_iff_eq] at hseparator
        rcases hseparator with ((rfl | rfl) | rfl) | rfl <;> exact absurd hc (by decide)
      have hquote : ¬ (c = '\'' ∨ c = '"') := by
        rintro (rfl | rfl) <;> exact absurd hc (by decide)
      have hproblem : LexProblem.ofRest (c :: cs) = .unknownText := if_neg hquote
      rw [Token.ofSource, Scan.ofSource, String.toList_ofList, Scan.run_none hseparator hnone, hproblem]
      rfl
  | symbol | string | quotedName | bareName => cases hkind

/-! ## Texts that are rendered -/

theorem render_eq_text (hstring : l.kind ≠ .string) (hidentifier : l.kind ≠ .identifier) : l.render = l.text := by
  unfold render
  split <;> simp_all

theorem writtenAs_of_isPlainIdentifier {name : String} (hplain : isPlainIdentifier name.toList = true)
    (hname : ¬ (identifier name).IsReservedName) : (identifier name).WrittenAs name.toList := by
  simp only [isPlainIdentifier, Bool.and_eq_true, List.all_eq_true, Bool.not_eq_eq_eq_not, Bool.not_true] at hplain
  obtain ⟨hhead, hall⟩ := hplain
  have hlower : name.toList.map Char.toLower = name.toList :=
    (List.map_congr_left fun c hc => toLower_of_not_isUpper (hall c hc).2).trans (List.map_id _)
  have hword : ∀ k : Keyword, name.toList.map Char.toLower ≠ k.spelling.toList := by
    intro k hk
    rw [hlower] at hk
    -- the reserved word of two words is not plain
    by_cases hprimary : k = .primaryKey
    · subst hprimary
      have hblank := (hall ' ' (by rw [hk]; decide)).1
      cases hblank
    · exact hname ⟨rfl, k, k.mem_all, hprimary, String.toList_inj.1 hk⟩
  cases hcs : name.toList with
  | nil =>
      rw [hcs] at hhead
      cases hhead
  | cons c cs =>
      rw [hcs] at hhead hall hlower hword
      have hc : c.isAlpha = true := isAlpha_iff.2 (.inr hhead)
      have hwritten := WrittenAs.bareName hc (fun d hd => (hall d (List.mem_cons_of_mem _ hd)).1) hword
      rwa [hlower, ← hcs, String.ofList_toList, hcs] at hwritten

theorem writtenAs_render_identifier {name : String} (hne : name ≠ "") (hname : ¬ (identifier name).IsReservedName) :
    (identifier name).WrittenAs (identifier name).render.toList := by
  by_cases hplain : isPlainIdentifier name.toList = true
  · have hrender : (identifier name).render = name := if_pos hplain
    rw [hrender]
    exact writtenAs_of_isPlainIdentifier hplain hname
  · have hrender : (identifier name).render = String.ofList (Text.Quoted.write '"' name.toList) := if_neg hplain
    rw [hrender, String.toList_ofList]
    exact .quotedName hne

theorem writtenAs_render (h : l.WrittenAs w) (hname : ¬ l.IsReservedName) : l.WrittenAs l.render.toList := by
  cases h with
  | @reserved k =>
      rw [render_eq_text k.kind_ne.1 k.kind_ne.2.1]
      exact .reserved k.map_toLower_spelling
  | @symbol s =>
      rw [render_eq_text (by simp [symbol]) (by simp [symbol])]
      have hcanonical : s.canonical.canonical = s.canonical := by cases s <;> rfl
      have hwritten := WrittenAs.symbol s.canonical.map_toLower_spelling
      rwa [hcanonical] at hwritten
  | string s =>
      rw [render, String.toList_ofList]
      exact .string s
  | numeral h =>
      rw [render_eq_text (by simp) (by simp), String.toList_ofList]
      exact .numeral h
  | quotedName h => exact writtenAs_render_identifier h hname
  | bareName => exact writtenAs_render_identifier (by simp) hname

theorem render_of_isReservedName (h : l.IsReservedName) :
    ∃ k : Keyword, l.render = k.spelling ∧ (⟨k.kind, k.spelling⟩ : Lexeme) ≠ l := by
  obtain ⟨hkind, k, -, hk, htext⟩ := h
  have hplain : isPlainIdentifier k.spelling.toList = true := by cases k <;> first | decide | exact absurd rfl hk
  refine ⟨k, ?_, fun heq => k.kind_ne.2.1 ?_⟩
  · rw [render, hkind, htext]
    exact if_pos hplain
  · rw [← hkind, ← heq]

end Lexeme

/-! ## Tokens of a source text -/

section

variable {source : String} {tokens : List Token} {t : Token} (h : Token.ofSource source = .ok tokens) (ht : t ∈ tokens)

include h ht

/-- A token covers one span of its source text. What stands there reads as the token alone, unless this is a numeral
that ends in its exponent marker, which must be followed by something. -/
theorem Token.ofSource_text_of_covers :
    (∃ span, t.Covers source span) ∧ ∀ span, t.Covers source span →
      if t.lexeme.HasOpenExponent then ofSource (span.text source) = .error ⟨.unknownText, none, .origin⟩
      else Lexeme.ofSource (span.text source) = .ok [t.lexeme] := by
  obtain ⟨span, w, hcovers, htext, hwritten⟩ := exists_writtenAs_of_mem h ht
  refine ⟨⟨span, hcovers⟩, fun other hother => ?_⟩
  obtain rfl := hcovers.unique hother
  rw [htext]
  split
  · exact Lexeme.ofSource_of_open_exponent hwritten ‹_›
  · exact Lexeme.ofSource_of_writtenAs hwritten ‹_›

end

/-- A numeral that ends in its exponent marker, before a blank. -/
theorem Token.ofSource_text_of_covers_marker :
    let t : Token := ⟨⟨.numeric, "1e"⟩, ⟨0, 0⟩, ⟨0, 2⟩⟩
    ofSource "1e " = .ok [t] ∧ ∃ span, t.Covers "1e " span ∧
      ofSource (span.text "1e ") = .error ⟨.unknownText, none, .origin⟩ := by
  intro t
  have hsource : ofSource "1e " = .ok [t] := by decide +kernel
  obtain ⟨⟨span, hcovers⟩, hrelex⟩ := ofSource_text_of_covers hsource List.mem_cons_self
  have hfail := hrelex span hcovers
  rw [if_pos (by decide)] at hfail
  exact ⟨hsource, span, hcovers, hfail⟩

theorem Token.not_forall_ofSource_text :
    ¬ ∀ (source : String) (tokens : List Token) (t : Token) (span : Span), ofSource source = .ok tokens → t ∈ tokens →
      t.Covers source span → Lexeme.ofSource (span.text source) = .ok [t.lexeme] := by
  intro hforall
  have hsource : ofSource "1e " = .ok [⟨⟨.numeric, "1e"⟩, ⟨0, 0⟩, ⟨0, 2⟩⟩] := by decide +kernel
  obtain ⟨span, w, hcovers, htext, hwritten⟩ := exists_writtenAs_of_mem hsource List.mem_cons_self
  have hread := hforall _ _ _ span hsource List.mem_cons_self hcovers
  rw [htext, Lexeme.ofSource, Lexeme.ofSource_of_open_exponent hwritten (by decide)] at hread
  cases hread

/-- What a token is rendered as reads as the token alone exactly if it is neither a numeral that ends in its exponent
marker nor an identifier with the name of a reserved word. -/
theorem Lexeme.ofSource_render {source : String} {tokens : List Token} {t : Token}
    (h : Token.ofSource source = .ok tokens) (ht : t ∈ tokens) :
    ofSource t.lexeme.render = .ok [t.lexeme] ↔ ¬ t.lexeme.HasOpenExponent ∧ ¬ t.lexeme.IsReservedName := by
  obtain ⟨_, w, -, -, hwritten⟩ := Token.exists_writtenAs_of_mem h ht
  constructor
  · intro hread
    constructor
    · intro hopen
      have hname : ¬ t.lexeme.IsReservedName := fun hname => by
        cases hname.1.symm.trans hopen.1
      have hfail := ofSource_of_open_exponent (writtenAs_render hwritten hname) hopen
      rw [ofSource, ← String.ofList_toList (s := t.lexeme.render), hfail] at hread
      cases hread
    · intro hname
      obtain ⟨k, hrender, hne⟩ := render_of_isReservedName hname
      have hkeyword := ofSource_of_writtenAs (.reserved k.map_toLower_spelling) fun hopen => k.kind_ne.2.2 hopen.1
      rw [String.ofList_toList, ← hrender, hread, hrender] at hkeyword
      exact hne (List.head_eq_of_cons_eq (Except.ok.inj hkeyword)).symm
  · rintro ⟨hopen, hname⟩
    have hread := ofSource_of_writtenAs (writtenAs_render hwritten hname) hopen
    rwa [String.ofList_toList] at hread

/-- An identifier that holds a quote and a reserved word. -/
theorem Lexeme.ofSource_render_quotes :
    (identifier "a\"from").render = "\"a\"\"from\"" ∧
      ofSource (identifier "a\"from").render = .ok [identifier "a\"from"] := by
  have hsource : Token.ofSource "\"a\"\"from\"" = .ok [⟨identifier "a\"from", ⟨0, 0⟩, ⟨0, 9⟩⟩] := by
    decide +kernel
  exact ⟨by decide, (ofSource_render hsource List.mem_cons_self).2 ⟨by decide, by decide⟩⟩

theorem Lexeme.not_forall_ofSource_render :
    ¬ ∀ (source : String) (tokens : List Token) (t : Token), Token.ofSource source = .ok tokens → t ∈ tokens →
      ofSource t.lexeme.render = .ok [t.lexeme] := by
  intro hforall
  have hsource : Token.ofSource "\"select\"" = .ok [⟨identifier "select", ⟨0, 0⟩, ⟨0, 8⟩⟩] := by
    decide +kernel
  have hread := hforall _ _ _ hsource List.mem_cons_self
  have hrender : (identifier "select").render = Keyword.select.spelling := by decide
  have hkeyword := ofSource_of_writtenAs (.reserved Keyword.select.map_toLower_spelling) (by decide)
  rw [String.ofList_toList, ← hrender, hread] at hkeyword
  cases hkeyword

end SqlStore
