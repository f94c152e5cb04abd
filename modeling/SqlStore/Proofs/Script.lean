import Mathlib.Data.List.Basic
import SqlStore.Script
import SqlStore.Proofs.Statement.Parse

/-!
# Reading scripts

The reader of scripts accepts exactly the grammar, and gives the statements that the tokens write
(`read_eq_ok_iff`).
-/

namespace SqlStore.Script

open Reading

theorem Rendering.head {statement : Statement} {script : Script} {ts : List Token}
    (h : Rendering (statement :: script) ts) : ∃ t us, ts = t :: us ∧ t.kind = .keyword := by
  cases h with
  | last h _ | cons h _ _ _ =>
      obtain ⟨t, us, rfl, ht⟩ := h.head
      exact ⟨t, _, rfl, ht⟩

theorem Semicolons.dropWhile_append {ss : List Token} (h : Semicolons ss) {us : List Token}
    (hus : ∀ t ∈ us.head?, t.lexeme ≠ .symbol .semicolon) :
    (ss ++ us).dropWhile (fun t => t.lexeme == .symbol .semicolon) = us := by
  rw [List.dropWhile_append_of_pos fun t ht => by simpa using h t ht]
  cases us with
  | nil => rfl
  | cons t us => exact List.dropWhile_cons_of_neg (by simpa using hus t rfl)

theorem exists_semicolons {t : Token} (ts : List Token) (h : t.lexeme = .symbol .semicolon) :
    ∃ ss, Semicolons ss ∧ ss ≠ [] ∧ t :: ts = ss ++ ts.dropWhile fun t => t.lexeme == .symbol .semicolon := by
  refine ⟨t :: ts.takeWhile fun t => t.lexeme == .symbol .semicolon, ?_, List.cons_ne_nil _ _, ?_⟩
  · intro u hu
    rcases List.mem_cons.1 hu with rfl | hu
    · exact h
    · simpa using List.all_eq_true.1 List.all_takeWhile u hu
  · rw [List.cons_append, List.takeWhile_append_dropWhile]

theorem Rendering.single {statement : Statement} {ts : List Token} (h : Statement.Rendering statement ts) :
    Rendering [statement] ts := by
  have hnone : Semicolons [] := fun t ht => by cases ht
  simpa using Rendering.last h hnone

/-- A statement and some semicolons can stand before any script. -/
theorem Rendering.prepend {statement : Statement} {script : Script} {ts ss us : List Token}
    (hrest : Rendering script us) (h : Statement.Rendering statement ts) (hs : Semicolons ss) (hne : ss ≠ []) :
    Rendering (statement :: script) (ts ++ (ss ++ us)) := by
  cases script with
  | nil =>
      cases hrest
      simpa using Rendering.last h hs
  | cons next script => exact .cons h hs hne hrest

theorem Rendering.exists_statement {script : Script} {ts : List Token} (h : Rendering script ts) :
    ∀ statement ∈ script, ∃ us, Statement.Rendering statement us ∧ us ⊆ ts := by
  induction h with
  | nil => simp
  | last h _ => simpa using ⟨_, h, List.subset_append_left _ _⟩
  | cons h _ _ _ ih =>
      refine List.forall_mem_cons.2 ⟨⟨_, h, List.subset_append_left _ _⟩, fun statement hstatement => ?_⟩
      obtain ⟨us, hus, hsub⟩ := ih statement hstatement
      exact ⟨us, hus, fun t ht => by simp [hsub ht]⟩

theorem read_append {statement : Statement} {ts ss us : List Token} (h : Statement.Rendering statement ts)
    (hs : Semicolons ss) (hne : ss = [] → us = []) (hus : ∀ t ∈ us.head?, t.lexeme ≠ .symbol .semicolon) :
    read (ts ++ (ss ++ us)) = (do
      let others ← read us
      return statement :: others) := by
  have hends : Ends [.symbol .semicolon] (ss ++ us) := by
    cases ss with
    | nil => rw [hne rfl]; exact ends_nil
    | cons s ss => exact ends_cons.2 (List.mem_singleton.2 (hs s List.mem_cons_self))
  have hparse := Statement.reads_parse.complete h hends
  obtain ⟨t, ts', rfl, -⟩ := h.head
  rw [List.cons_append] at hparse ⊢
  rw [read_cons, hparse]
  cases ss with
  | nil => simp [hne rfl, bind, Except.bind, pure, Except.pure]
  | cons s ss =>
      have hdrop : (ss ++ us).dropWhile (fun t => t.lexeme == .symbol .semicolon) = us :=
        Semicolons.dropWhile_append (fun t ht => hs t (List.mem_cons_of_mem _ ht)) hus
      simp [bind, Except.bind, hs s List.mem_cons_self, hdrop]

theorem read_complete {script : Script} {ts : List Token} (h : Rendering script ts) : read ts = .ok script := by
  induction h with
  | nil => exact read_nil
  | @last statement ts ss h hs =>
      have hread : read (ts ++ (ss ++ [])) = _ := read_append h hs (fun _ => rfl) (by simp)
      rw [List.append_nil] at hread
      rw [hread, read_nil]
      rfl
  | @cons statement next script ts ss us h hs hne hrest ih =>
      have hus : ∀ t ∈ us.head?, t.lexeme ≠ .symbol .semicolon := by
        obtain ⟨t, us, rfl, ht⟩ := hrest.head
        intro u hu hsemi
        cases hu
        rw [Token.kind, hsemi] at ht
        exact absurd ht (by decide)
      rw [read_append h hs (fun hnil => absurd hnil hne) hus, ih]
      rfl

theorem read_sound {ts : List Token} {script : Script} (h : read ts = .ok script) : Rendering script ts := by
  fun_induction read ts generalizing script with
  | case1 =>
      cases h
      exact .nil
  | case2 => cases h
  | case3 t ts statement hparse =>
      cases h
      obtain ⟨us, hus, hstatement⟩ := Statement.reads_parse.sound hparse
      rw [hus, List.append_nil]
      exact .single hstatement
  | case4 t ts statement next rest hparse hnext ih =>
      obtain ⟨others, hothers, h⟩ := exists_of_bind_eq_ok h
      cases h
      obtain ⟨us, hus, hstatement⟩ := Statement.reads_parse.sound hparse
      obtain ⟨ss, hs, hne, hsplit⟩ := exists_semicolons rest hnext
      rw [hus, hsplit]
      exact (ih hothers).prepend hstatement hs hne
  | case5 => cases h

theorem read_eq_ok_iff {ts : List Token} {script : Script} : read ts = .ok script ↔ Rendering script ts :=
  ⟨read_sound, read_complete⟩

/-- A source text is a script where it scans in full and its tokens write the statements. -/
theorem ofSource_eq_ok_iff {source : String} {script : Script} :
    ofSource source = .ok script ↔ ∃ tokens, Token.ofSource source = .ok tokens ∧ Rendering script tokens := by
  rw [ofSource]
  cases Token.ofSource source with
  | error e => simp [Except.mapError, bind, Except.bind]
  | ok tokens =>
      simp only [Except.mapError, bind, Except.bind, Except.ok.injEq, exists_eq_left', ← read_eq_ok_iff, ofTokens]
      cases read tokens <;> simp

/-- The reader accepts the token lists of the grammar and gives back the statements they write. The
expressions of the grammar are the chains of operands and operators, and a tree has the tokens of its chain
without the parentheses. -/
theorem ofTokens_eq_ok_iff :
    (∀ tokens script, ofTokens tokens = .ok script ↔ Rendering script tokens) ∧
    (∀ ts, (∃ e, Expr.Rendering 0 e ts) ↔ Expr.Chain ts) ∧
    (∀ e ts, Expr.Rendering 0 e ts → e.tokens = ts.filter fun t => !Expr.isParenthesis t) := by
  refine ⟨fun tokens script => ?_, fun ts => Expr.chain_iff_exists_rendering.symm, fun e ts h => h.tokens_eq⟩
  rw [← read_eq_ok_iff, ofTokens]
  cases read tokens <;> simp [Except.mapError]

end SqlStore.Script
