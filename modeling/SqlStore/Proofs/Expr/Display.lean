import SqlStore.Proofs.Placement
import SqlStore.Proofs.Token.Relex

/-!
# Reading a rendered expression

A rendered expression has parentheses around every operation. As the text of a selection it scans to the tokens of the
tree and these parentheses (`Expr.Showable.yields`), which write the tree again (`Expr.Showable.exists_rendering`).
-/

namespace SqlStore

open Text

/-- The lexeme of a token of some source text. -/
def Lexeme.Lexable (l : Lexeme) : Prop :=
  ∃ source tokens, Token.ofSource source = .ok tokens ∧ l ∈ tokens.map Token.lexeme

theorem Lexeme.Lexable.exists_writtenAs {l : Lexeme} (h : l.Lexable) : ∃ w, l.WrittenAs w := by
  obtain ⟨source, tokens, hsource, hmem⟩ := h
  obtain ⟨t, ht, rfl⟩ := List.mem_map.1 hmem
  obtain ⟨-, w, -, -, hwritten⟩ := Token.exists_writtenAs_of_mem hsource ht
  exact ⟨w, hwritten⟩

namespace Operator

theorem writtenAs (op : Operator) : op.lexeme.WrittenAs op.lexeme.text.toList := by
  cases op with
  | and => exact .reserved (Keyword.map_toLower_spelling .and)
  | or => exact .reserved (Keyword.map_toLower_spelling .or)
  | equal => exact .symbol (Symbol.map_toLower_spelling .equal)
  | notEqual => exact .symbol (Symbol.map_toLower_spelling .notEqual)
  | concat => exact .symbol (Symbol.map_toLower_spelling .concat)
  | plus => exact .symbol (Symbol.map_toLower_spelling .plus)

theorem not_hasOpenExponent (op : Operator) : ¬ op.lexeme.HasOpenExponent := by
  cases op <;> decide

theorem ne_primary (op : Operator) : op.lexeme.text.toList.map Char.toLower ≠ "primary".toList := by
  cases op <;> decide

theorem not_begins_key (op : Operator) (cs : List Char) : ¬ Begins "key".toList (op.lexeme.text.toList ++ cs) := by
  intro h
  cases op <;> cases (begins_cons_cons.1 h).1

end Operator

/-- The text scans in full to the lexemes, and a word can stand before it. -/
structure Scan.AfterWord (cs : List Char) (ls : List Lexeme) : Prop where
  delimited : Delimited cs
  not_key : ¬ Begins " key".toList cs
  yields : Yields cs ls

namespace Scan

variable {l : Lexeme} {w cs : List Char} {ls : List Lexeme}

theorem AfterWord.nil : AfterWord [] [] where
  delimited := delimited_nil
  not_key := fun hbegins => by cases List.prefix_nil.1 hbegins
  yields := .nil

theorem AfterWord.word (h : AfterWord cs ls) (hw : l.WrittenAs w) (hopen : ¬ l.HasOpenExponent) :
    Yields (w ++ cs) (l :: ls) :=
  .lexeme (by simp [hw.ne_nil]) (Match.first?_writtenAs hw hopen h.delimited fun _ => h.not_key) h.yields

theorem AfterWord.blank (h : Yields cs ls) (hkey : ¬ Begins "key".toList cs) : AfterWord (' ' :: cs) ls where
  delimited := delimited_cons (by decide) cs
  not_key := fun hbegins => hkey (begins_cons_cons.1 hbegins).2
  yields := .separator rfl h

/-- An operator goes on as no reserved word, whatever the operand after it is. -/
theorem Yields.operator (op : Operator) (h : Yields cs ls) :
    Yields (op.lexeme.text.toList ++ ' ' :: cs) (op.lexeme :: ls) := by
  have hblank : Delimited (' ' :: cs) := delimited_cons (by decide) cs
  have hfirst := Match.first?_writtenAs op.writtenAs op.not_hasOpenExponent hblank fun h => absurd h op.ne_primary
  exact .lexeme (by simp) hfirst (.separator rfl h)

theorem AfterWord.closing (h : Yields cs ls) : AfterWord (')' :: cs) (.symbol .rightParen :: ls) where
  delimited := delimited_cons (by decide) cs
  not_key := fun hbegins => by cases (begins_cons_cons.1 hbegins).1
  yields := .punctuation (s := .rightParen) (by decide) h

end Scan

namespace Expr

/-- A tree of operators over operands from source texts, none of which is an identifier with the name of a reserved
word or a numeral that ends in its exponent marker. -/
inductive Showable : Expr → Prop
  | literal {t : Token} (ht : t.kind.isOperand = true) (hlexable : t.lexeme.Lexable)
      (hname : ¬ t.lexeme.IsReservedName) (hopen : ¬ t.lexeme.HasOpenExponent) : Showable (.literal t)
  | binary {l r : Expr} {t : Token} {op : Operator} (hl : Showable l) (ht : t.lexeme = op.lexeme) (hr : Showable r) :
      Showable (.binary l t r)

def shown : Expr → List Lexeme
  | .literal t => [t.lexeme]
  | .binary l t r => .symbol .leftParen :: (l.shown ++ t.lexeme :: (r.shown ++ [.symbol .rightParen]))

/-- The expression apart from where its tokens stand. -/
def placeless : Expr → Expr := mapTokens fun t => .ofLexeme t.lexeme

theorem Showable.yields {e : Expr} (h : e.Showable) {cs : List Char} {ls : List Lexeme} (hcs : Scan.AfterWord cs ls) :
    Scan.Yields (e.render.toList ++ cs) (e.shown ++ ls) := by
  induction h generalizing cs ls with
  | literal _ hlexable hname hopen =>
      obtain ⟨w, hw⟩ := hlexable.exists_writtenAs
      exact hcs.word (Lexeme.writtenAs_render hw hname) hopen
  | @binary l r t op _ ht _ ihl ihr =>
      -- from the end of the text, since a word is found by what follows it
      have hright := ihr (.closing hcs.yields)
      have hleft := ihl (.blank (.operator op hright) (op.not_begins_key _))
      have hopening := Scan.Yields.punctuation (s := .leftParen) (by decide) hleft
      have htext : t.text = op.lexeme.text := congrArg Lexeme.text ht
      simpa [render, shown, htext, ht, String.toList_append, Symbol.spelling] using hopening

theorem Showable.exists_rendering {e : Expr} (h : e.Showable) {ts : List Token} (hts : ts.map Token.lexeme = e.shown)
    (floor : Nat) : ∃ e', Rendering floor e' ts ∧ e'.placeless = e.placeless := by
  induction h generalizing ts floor with
  | @literal t ht =>
      obtain ⟨t', ts', rfl, ht', hts'⟩ := List.map_eq_cons_iff.1 hts
      obtain rfl := List.map_eq_nil_iff.1 hts'
      refine ⟨.literal t', .literal ?_, ?_⟩
      · rwa [Token.kind, ht']
      · simp only [placeless, mapTokens, ht']
  | @binary l r t op _ ht _ ihl ihr =>
      obtain ⟨opening, ts, rfl, ho, hts⟩ := List.map_eq_cons_iff.1 hts
      obtain ⟨ls, ts, rfl, hls, hts⟩ := List.map_eq_append_iff.1 hts
      obtain ⟨t', ts, rfl, ht', hts⟩ := List.map_eq_cons_iff.1 hts
      obtain ⟨rs, ts, rfl, hrs, hts⟩ := List.map_eq_append_iff.1 hts
      obtain ⟨closing, ts, rfl, hc, hts⟩ := List.map_eq_cons_iff.1 hts
      obtain rfl := List.map_eq_nil_iff.1 hts
      obtain ⟨l', hl, hl'⟩ := ihl hls op.power
      obtain ⟨r', hr, hr'⟩ := ihr hrs (op.power + 1)
      refine ⟨.binary l' t' r', ?_, ?_⟩
      · have hparen : Rendering floor (.binary l' t' r') (opening :: ((ls ++ t' :: rs) ++ [closing])) :=
          .paren ho (.binary (ht'.trans ht) (Nat.zero_le _) hl hr) hc
        simpa using hparen
      · simp only [placeless, mapTokens, ht'] at hl' hr' ⊢
        rw [hl', hr']

/-- The text of a selection of one rendered expression is a script of this one statement, and its expression is the
rendered one. -/
theorem ofSource_select_render {e : Expr} (h : e.Showable) :
    ∃ e', Script.ofSource ("SELECT " ++ e.render) = .ok [.select ⟨[.expression e' none], none, none, none, none⟩] ∧
      e'.placeless = e.placeless := by
  have hshown := h.yields .nil
  rw [List.append_nil, List.append_nil] at hshown
  have hselect : Scan.Yields ("SELECT " ++ e.render).toList (.keyword .select :: e.shown) := by
    have hword : Lexeme.Word (.keyword .select) "SELECT".toList := .keyword (k := .select) (by decide)
    have htext : ("SELECT " ++ e.render).toList = "SELECT".toList ++ ' ' :: e.render.toList := by
      simp [String.toList_append]
    rw [htext]
    exact .word hword (delimited_cons (by decide) _) (.separator rfl hshown)
  obtain ⟨ts, hts, hlexemes⟩ := hselect.ofSource
  obtain ⟨word, ts, rfl, hword, hlexemes⟩ := List.map_eq_cons_iff.1 hlexemes
  obtain ⟨e', hrendering, hsame⟩ := h.exists_rendering hlexemes 0
  refine ⟨e', Script.ofSource_eq_ok_iff.2 ⟨_, hts, ?_⟩, hsame⟩
  have hitems : Reading.Entries Statement.RendersItem [.expression e' none] (ts ++ [] ++ []) :=
    .cons (.expression hrendering .none) .nil
  have hstatement := Statement.Rendering.select hword (.mk hitems .none .none .none)
  simpa using Script.Rendering.single hstatement

theorem ofSource_select_render_primary :
    let e : Expr :=
      .binary (.binary (.literal (.ofLexeme (.identifier "primary"))) (.ofLexeme (.symbol .equal))
        (.literal (.ofLexeme (.identifier "Key")))) (.ofLexeme (.keyword .and))
        (.binary (.literal (.ofLexeme ⟨.numeric, "1e5"⟩)) (.ofLexeme (.symbol .plus))
          (.literal (.ofLexeme ⟨.string, "it's"⟩)))
    e.render = "((primary = \"Key\") and (1e5 + 'it''s'))" ∧
      ∃ e', Script.ofSource ("SELECT " ++ e.render) = .ok [.select ⟨[.expression e' none], none, none, none, none⟩] ∧
        e'.placeless = e.placeless := by
  intro e
  let leaves : List Lexeme := [.identifier "primary", .identifier "Key", ⟨.numeric, "1e5"⟩, ⟨.string, "it's"⟩]
  have hsource : Token.ofSource "primary \"Key\" 1e5 'it''s'" = .ok _ :=
    Token.ofSource_eq_ok_iff.2 ⟨by decide +kernel, rfl⟩
  have hleaves : (Scan.run .origin "primary \"Key\" 1e5 'it''s'".toList).tokens.map Token.lexeme = leaves := by
    decide +kernel
  have hoperands : ∀ l ∈ leaves, l.kind.isOperand = true ∧ ¬ l.IsReservedName ∧ ¬ l.HasOpenExponent := by decide
  have hshowable : ∀ l ∈ leaves, Showable (.literal (.ofLexeme l)) := by
    intro l hl
    obtain ⟨hkind, hname, hopen⟩ := hoperands l hl
    exact .literal hkind ⟨_, _, hsource, hleaves ▸ hl⟩ hname hopen
  have hequal : (Token.ofLexeme (.symbol .equal)).lexeme = Operator.equal.lexeme := rfl
  have hplus : (Token.ofLexeme (.symbol .plus)).lexeme = Operator.plus.lexeme := rfl
  have hand : (Token.ofLexeme (.keyword .and)).lexeme = Operator.and.lexeme := rfl
  refine ⟨by decide, ofSource_select_render ?_⟩
  exact .binary (.binary (hshowable _ (by decide)) hequal (hshowable _ (by decide))) hand
    (.binary (hshowable _ (by decide)) hplus (hshowable _ (by decide)))

end Expr

end SqlStore
