import Mathlib.Data.List.Basic
import SqlStore.Proofs.Script
import SqlStore.Proofs.Statement.Lookahead
import SqlStore.Proofs.Statement.Viable

/-!
# Places of parse errors

A parse error stands at the first token that no script has after the tokens before it (`PointsAt`).
-/

namespace SqlStore.Script

open Reading

/-- Some script begins with the tokens. -/
def Viable (ts : List Token) : Prop := ∃ more script, ofTokens (ts ++ more) = .ok script

theorem ofTokens_eq_ok {ts : List Token} {script : Script} : ofTokens ts = .ok script ↔ read ts = .ok script := by
  rw [ofTokens]
  cases read ts <;> simp [Except.mapError]

theorem viable_of_begins {ts : List Token} (h : Begins Rendering ts) : Viable ts := by
  obtain ⟨script, more, h⟩ := h
  exact ⟨more, script, ofTokens_eq_ok.2 (read_complete h)⟩

/-- What the reader has taken where it fails begins a script. -/
theorem begins_of_read_eq_error {ts : List Token} {f : Failure} (h : read ts = .error f) :
    ∃ taken, ts = taken ++ f.rest ∧ Begins Rendering taken := by
  fun_induction read ts with
  | case1 => cases h
  | case2 t ts f' hparse =>
      cases h
      obtain ⟨taken, hts, statement, more, hstatement⟩ := Statement.failsLate_parse.begins hparse
      exact ⟨taken, hts, [statement], more, .single hstatement⟩
  | case3 => cases h
  | case4 t ts statement next rest hparse hnext ih =>
      obtain hothers | ⟨others, -, h⟩ := exists_of_bind_eq_error h
      · obtain ⟨us, hus, hstatement⟩ := Statement.reads_parse.sound hparse
        obtain ⟨ss, hs, hne, hsplit⟩ := exists_semicolons rest hnext
        obtain ⟨taken, htaken, others, more, hrest⟩ := ih hothers
        refine ⟨us ++ (ss ++ taken), by rw [hus, hsplit, htaken]; simp, statement :: others, more, ?_⟩
        simpa using hrest.prepend hstatement hs hne
      · cases h
  | case5 t ts statement next rest hparse hnext =>
      cases h
      obtain ⟨us, hus, hstatement⟩ := Statement.reads_parse.sound hparse
      exact ⟨us, hus, [statement], [], .single (by rwa [List.append_nil])⟩

/-- No script begins with what the reader has taken and the token at which it fails. -/
theorem not_viable_of_read_eq_error {taken rest : List Token} {t : Token} {expected : Expectation}
    (h : read (taken ++ t :: rest) = .error ⟨expected, t :: rest⟩) : ¬ Viable (taken ++ [t]) := by
  rintro ⟨more, script, hscript⟩
  have hfails : readAll (taken ++ t :: rest) = .error ⟨expected, t :: rest⟩ := by rw [readAll, h]; rfl
  obtain ⟨taken', htaken, hsame⟩ := readAll_looksOneAhead (taken ++ t :: rest)
  rw [hfails] at htaken hsame
  obtain rfl := List.append_cancel_right htaken
  -- what is left starts with `t` for both lists, so the reader fails on the other one in the same place
  have hagain : readAll (taken ++ t :: more) = .error ⟨expected, t :: more⟩ := hsame t rest rfl more
  rw [List.append_assoc, List.singleton_append, ofTokens_eq_ok] at hscript
  rw [readAll, hscript] at hagain
  cases hagain

/-- The error stands at the `c`-th token and names it, and no script goes on with that token after those before it; or
`c` is the number of tokens, the error stands at the end of the last one, and some script goes on there. -/
structure PointsAt (e : ParseError) (tokens : List Token) (c : Nat) : Prop where
  le : c ≤ tokens.length
  viable : Viable (tokens.take c)
  at_token : ∀ t, tokens[c]? = some t →
    e.position = t.start ∧
    e.message = e.expected.phrase ++ ", got " ++ t.text ++ ", near " ++ t.start.render ∧
    ¬ Viable (tokens.take (c + 1))
  at_end : c = tokens.length → ∃ last, tokens.getLast? = some last ∧
    e.position = last.stop ∧
    e.message = e.expected.phrase ++ ", got end of input, near " ++ last.stop.render

theorem pointsAt_token {taken rest : List Token} {t : Token} {expected : Expectation}
    (h : read (taken ++ t :: rest) = .error ⟨expected, t :: rest⟩) (hbegins : Begins Rendering taken) :
    PointsAt (.ofFailure (taken ++ t :: rest) ⟨expected, t :: rest⟩) (taken ++ t :: rest) taken.length where
  le := by simp
  viable := by simpa using viable_of_begins hbegins
  at_token := by
    intro t' ht
    obtain rfl : t = t' := by simpa using ht
    refine ⟨rfl, rfl, ?_⟩
    rw [List.take_length_add_append]
    exact not_viable_of_read_eq_error h
  at_end hlen := by simp at hlen

theorem pointsAt_end {tokens : List Token} {expected : Expectation} (h : read tokens = .error ⟨expected, []⟩)
    (hbegins : Begins Rendering tokens) : PointsAt (.ofFailure tokens ⟨expected, []⟩) tokens tokens.length where
  le := Nat.le_refl _
  viable := by simpa using viable_of_begins hbegins
  at_token t ht := by simp at ht
  at_end := by
    intro _
    have hne : tokens ≠ [] := by
      rintro rfl
      simp at h
    have hlast := List.getLast?_eq_some_getLast hne
    refine ⟨tokens.getLast hne, hlast, ?_⟩
    simp [ParseError.ofFailure, ParseError.message, hlast, String.append_assoc]

/-- A parse error stands at the first token that no script has after the tokens before it, or at the end of the last
token if a script can go on after all of them. -/
theorem exists_pointsAt_of_ofTokens_eq_error {tokens : List Token} {e : ParseError} (h : ofTokens tokens = .error e) :
    ∃ c, PointsAt e tokens c := by
  rw [ofTokens] at h
  cases hread : read tokens with
  | ok script =>
      rw [hread] at h
      cases h
  | error f =>
      rw [hread] at h
      cases h
      obtain ⟨expected, rest⟩ := f
      obtain ⟨taken, rfl, hbegins⟩ := begins_of_read_eq_error hread
      cases rest with
      | nil =>
          rw [List.append_nil] at hread ⊢
          exact ⟨_, pointsAt_end hread hbegins⟩
      | cons t rest => exact ⟨_, pointsAt_token hread hbegins⟩

/-- `insert into t values (1 2`: the second number cannot stand where it stands. -/
theorem pointsAt_second_number :
    let token (l : Lexeme) (start stop : Nat) : Token := ⟨l, ⟨0, start⟩, ⟨0, stop⟩⟩
    let tokens := [token (.keyword .insert) 0 6, token (.keyword .into) 7 11, token (.identifier "t") 12 13,
      token (.keyword .values) 14 20, token (.symbol .leftParen) 21 22, token ⟨.numeric, "1"⟩ 22 23,
      token ⟨.numeric, "2"⟩ 24 25]
    let e : ParseError := ⟨.operator, some "2", ⟨0, 24⟩⟩
    ofTokens tokens = .error e ∧ ∃ c, PointsAt e tokens c := by
  intro token tokens e
  have h : ofTokens tokens = .error e := by decide +kernel
  exact ⟨h, exists_pointsAt_of_ofTokens_eq_error h⟩

end SqlStore.Script
