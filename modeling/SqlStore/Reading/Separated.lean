import SqlStore.Reading.Basic

/-!
# Entries between commas

Lists of entries of any kind, up to a token that closes the list or the last token.
-/

namespace SqlStore.Reading

variable {α : Type}

/-- After an entry: more entries, each after a comma, up to a token that `closes` or the last token. -/
def more (item : Reader α) (hitem : Consumes item) (closes : Lexeme → Bool) (ts : List Token) :
    Except Failure (List α × List Token) :=
  match ts with
  | [] => .ok ([], [])
  | t :: rest =>
      if closes t.lexeme then .ok ([], t :: rest)
      else if t.lexeme = .symbol .comma then
        match _h : item rest with
        | .error e => .error e
        | .ok (a, rest') => do
            let (others, rest'') ← more item hitem closes rest'
            return (a :: others, rest'')
      else .error ⟨.comma, t :: rest⟩
termination_by ts.length
decreasing_by
  have := hitem.lt ‹item rest = _›
  simp only [List.length_cons]
  omega

/-- Entries between commas, up to a token that `closes` or the last token. -/
def separated (item : Reader α) (hitem : Consumes item) (closes : Lexeme → Bool) : Reader (List α)
  | [] => .ok ([], [])
  | t :: rest =>
      if closes t.lexeme then .ok ([], t :: rest)
      else do
        let (a, rest) ← item (t :: rest)
        let (others, rest) ← more item hitem closes rest
        return (a :: others, rest)

/-! ## One step -/

section

variable {item : Reader α} (hitem : Consumes item) {closes : Lexeme → Bool} {t : Token} {ts : List Token}

@[simp] theorem more_nil : more item hitem closes [] = .ok ([], []) := by
  rw [more]

theorem more_closes (ht : closes t.lexeme = true) : more item hitem closes (t :: ts) = .ok ([], t :: ts) := by
  rw [more, if_pos ht]

theorem more_comma (ht : closes t.lexeme = false) (hcomma : t.lexeme = .symbol .comma) :
    more item hitem closes (t :: ts) = (do
      let (a, rest) ← item ts
      let (others, rest) ← more item hitem closes rest
      return (a :: others, rest)) := by
  rw [more, if_neg (by simp [ht]), if_pos hcomma]
  split <;> rename_i h <;> simp only [h] <;> rfl

theorem more_other (ht : closes t.lexeme = false) (hcomma : t.lexeme ≠ .symbol .comma) :
    more item hitem closes (t :: ts) = .error ⟨.comma, t :: ts⟩ := by
  rw [more, if_neg (by simp [ht]), if_neg hcomma]

theorem separated_open (ht : closes t.lexeme = false) :
    separated item hitem closes (t :: ts) = (do
      let (a, rest) ← item (t :: ts)
      let (others, rest) ← more item hitem closes rest
      return (a :: others, rest)) :=
  if_neg (by simp [ht])

end

/-! ## What a success takes -/

theorem keeps_more {item : Reader α} (hitem : Consumes item) {closes : Lexeme → Bool} :
    Keeps (more item hitem closes) := by
  constructor
  intro ts
  fun_induction more item hitem closes ts with
  | case1 => intro a rest h; cases h; exact Nat.le_refl _
  | case2 => intro a rest h; cases h; exact Nat.le_refl _
  | case3 => intro a rest h; cases h
  | case4 t rest _ _ b rest' hok ih =>
      intro a rest'' h
      obtain ⟨⟨others, rest₂⟩, hmore, h⟩ := exists_of_bind_eq_ok h
      cases h
      have := ih hmore
      have := hitem.lt hok
      simp only [List.length_cons]
      omega
  | case5 => intro a rest h; cases h

theorem keeps_separated {item : Reader α} (hitem : Consumes item) {closes : Lexeme → Bool} :
    Keeps (separated item hitem closes) := by
  constructor
  intro ts a rest h
  fun_cases separated item hitem closes ts with
  | case1 => simp only [separated] at h; cases h; exact Nat.le_refl _
  | case2 t ts hc => simp only [separated, hc, ↓reduceIte] at h; cases h; exact Nat.le_refl _
  | case3 t ts hc =>
      simp only [separated, hc, ↓reduceIte, Bool.false_eq_true] at h
      obtain ⟨⟨b, rest₁⟩, hok, h⟩ := exists_of_bind_eq_ok h
      obtain ⟨⟨others, rest₂⟩, hmore, h⟩ := exists_of_bind_eq_ok h
      cases h
      exact Nat.le_of_lt (Nat.lt_of_le_of_lt ((keeps_more hitem).le hmore) (hitem.lt hok))

end SqlStore.Reading
