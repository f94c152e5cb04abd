import SqlStore.Reading.Expectation

/-!
# Reading tokens

A reading step takes what it wants from the head of a token list and hands back the rest, or says what it
expected and where. `Consumes` and `Keeps` say that a success never hands back more than there was.
-/

namespace SqlStore

/-- A reading step: what it read and the tokens after it, or why it could not. -/
abbrev Reader (α : Type) := List Token → Except Failure (α × List Token)

namespace Reading

variable {α : Type}

/-- The tokens after a lexeme that has to be there. -/
def expect (l : Lexeme) (expected : Expectation) : List Token → Except Failure (List Token)
  | [] => .error ⟨expected, []⟩
  | t :: ts => if t.lexeme = l then .ok ts else .error ⟨expected, t :: ts⟩

/-- A token of a kind that has to be there. -/
def expectKind (kind : TokenKind) (expected : Expectation) : Reader Token
  | [] => .error ⟨expected, []⟩
  | t :: ts => if t.kind = kind then .ok (t, ts) else .error ⟨expected, t :: ts⟩

/-- What stands after a keyword, if the keyword stands at the head of the tokens. -/
def after (k : Keyword) (item : Reader α) : Reader (Option α)
  | [] => .ok (none, [])
  | t :: ts =>
      if t.lexeme = .keyword k then do
        let (a, rest) ← item ts
        return (some a, rest)
      else .ok (none, t :: ts)

theorem after_keyword {k : Keyword} {item : Reader α} {t : Token} (ht : t.lexeme = .keyword k) (ts : List Token) :
    after k item (t :: ts) = (do
      let (a, rest) ← item ts
      return (some a, rest)) :=
  if_pos ht

/-- Every success leaves fewer tokens. -/
structure Consumes (item : Reader α) : Prop where
  lt : ∀ {ts : List Token} {a : α} {rest : List Token}, item ts = .ok (a, rest) → rest.length < ts.length

/-- Every success leaves no more tokens. -/
structure Keeps (item : Reader α) : Prop where
  le : ∀ {ts : List Token} {a : α} {rest : List Token}, item ts = .ok (a, rest) → rest.length ≤ ts.length

theorem Consumes.keeps {item : Reader α} (h : Consumes item) : Keeps item :=
  ⟨fun hok => Nat.le_of_lt (h.lt hok)⟩

/-- A success of two steps is a success of each. -/
theorem exists_of_bind_eq_ok {ε β : Type} {x : Except ε α} {f : α → Except ε β} {b : β}
    (h : (x >>= f) = .ok b) : ∃ a, x = .ok a ∧ f a = .ok b := by
  cases x with
  | error e => cases h
  | ok a => exact ⟨a, rfl, h⟩

theorem expect_eq_ok {l : Lexeme} {expected : Expectation} {ts rest : List Token} :
    expect l expected ts = .ok rest ↔ ∃ t, ts = t :: rest ∧ t.lexeme = l := by
  cases ts with
  | nil => simp [expect]
  | cons t ts =>
      rw [expect]
      split
      · refine ⟨fun h => ⟨t, ?_, ‹_›⟩, fun ⟨u, h, _⟩ => ?_⟩ <;> simp_all
      · refine ⟨fun h => by simp at h, fun ⟨u, h, _⟩ => ?_⟩
        simp_all

theorem length_le_of_expect {l : Lexeme} {expected : Expectation} {ts rest : List Token}
    (h : expect l expected ts = .ok rest) : rest.length ≤ ts.length := by
  obtain ⟨t, rfl, -⟩ := expect_eq_ok.1 h
  exact Nat.le_succ _

theorem expectKind_eq_ok {kind : TokenKind} {expected : Expectation} {ts rest : List Token} {t : Token} :
    expectKind kind expected ts = .ok (t, rest) ↔ ts = t :: rest ∧ t.kind = kind := by
  cases ts with
  | nil => simp [expectKind]
  | cons u ts =>
      rw [expectKind]
      split
      · simp only [Except.ok.injEq, Prod.mk.injEq, List.cons.injEq]
        constructor
        · rintro ⟨rfl, rfl⟩; exact ⟨⟨rfl, rfl⟩, ‹_›⟩
        · rintro ⟨⟨rfl, rfl⟩, -⟩; exact ⟨rfl, rfl⟩
      · simp only [reduceCtorEq, false_iff, List.cons.injEq]
        rintro ⟨⟨rfl, rfl⟩, hk⟩
        exact absurd hk ‹_›

theorem consumes_expectKind {kind : TokenKind} {expected : Expectation} : Consumes (expectKind kind expected) :=
  ⟨fun h => by simp [(expectKind_eq_ok.1 h).1]⟩

theorem keeps_after {k : Keyword} {item : Reader α} (hitem : Keeps item) : Keeps (after k item) := by
  constructor
  intro ts a rest h
  cases ts with
  | nil =>
      simp only [after, Except.ok.injEq, Prod.mk.injEq] at h
      simp [← h.2]
  | cons t ts =>
      rw [after] at h
      split at h
      · obtain ⟨⟨b, rest'⟩, hok, h⟩ := exists_of_bind_eq_ok h
        cases h
        exact Nat.le_succ_of_le (hitem.le hok)
      · cases h
        exact Nat.le_refl _

end Reading

end SqlStore
