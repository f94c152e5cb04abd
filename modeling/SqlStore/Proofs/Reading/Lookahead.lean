import SqlStore.Reading.Separated

/-!
# Lookahead

A reader with one token of lookahead takes some tokens and leaves the others; of those that it leaves it has seen
the first and nothing else. So its answer stays what it is when other tokens stand after that one.
-/

namespace SqlStore.Reading

variable {α β : Type}

/-- The tokens that an answer leaves. -/
def left : Except Failure (α × List Token) → List Token
  | .ok (_, rest) => rest
  | .error f => f.rest

/-- The answer with other tokens left. -/
def leave (ts : List Token) : Except Failure (α × List Token) → Except Failure (α × List Token)
  | .ok (a, _) => .ok (a, ts)
  | .error f => .error ⟨f.expected, ts⟩

/-- What the reader makes of the tokens does not depend on those after the first that it leaves. -/
def LooksOneAhead (item : Reader α) (ts : List Token) : Prop :=
  ∃ taken, ts = taken ++ left (item ts) ∧
    ∀ t rest, left (item ts) = t :: rest → ∀ more, item (taken ++ t :: more) = leave (t :: more) (item ts)

namespace LooksOneAhead

variable {item item' : Reader α} {next : α × List Token → Except Failure (β × List Token)} {t : Token} {ts : List Token}

theorem pure (a : α) (ts : List Token) : LooksOneAhead (fun us => .ok (a, us)) ts :=
  ⟨[], rfl, fun _ _ _ _ => rfl⟩

theorem fail (expected : Expectation) (ts : List Token) :
    LooksOneAhead (fun us => .error ⟨expected, us⟩ : Reader α) ts :=
  ⟨[], rfl, fun _ _ _ _ => rfl⟩

theorem nil (h : left (item []) = []) : LooksOneAhead item [] := by
  refine ⟨[], by rw [h]; rfl, fun t rest ht => ?_⟩
  rw [h] at ht
  cases ht

/-- The first token is taken, and the rest is read by another reader. -/
theorem cons (heq : ∀ us, item (t :: us) = item' us) (h : LooksOneAhead item' ts) : LooksOneAhead item (t :: ts) := by
  obtain ⟨taken, hts, hsame⟩ := h
  rw [← heq] at hts hsame
  exact ⟨t :: taken, congrArg (List.cons t) hts, fun u rest hu more => (heq _).trans (hsame u rest hu more)⟩

/-- The first token decides that another reader reads it and the rest. -/
theorem head (heq : ∀ us, item (t :: us) = item' (t :: us)) (h : LooksOneAhead item' (t :: ts)) :
    LooksOneAhead item (t :: ts) := by
  obtain ⟨taken, hts, hsame⟩ := h
  rw [← heq] at hts hsame
  refine ⟨taken, hts, fun u rest hu more => ?_⟩
  rw [← hsame u rest hu more]
  cases taken with
  | nil =>
      rw [hu] at hts
      cases hts
      exact heq more
  | cons v taken =>
      obtain ⟨rfl, -⟩ := List.cons.inj hts
      exact heq _

theorem bind (h : LooksOneAhead item ts)
    (hnext : ∀ a rest, item ts = .ok (a, rest) → LooksOneAhead (fun us => next (a, us)) rest) :
    LooksOneAhead (fun us => item us >>= next) ts := by
  obtain ⟨taken, hts, hsame⟩ := h
  cases hitem : item ts with
  | error f =>
      simp only [hitem, left] at hts hsame
      refine ⟨taken, ?_, fun t rest ht more => ?_⟩
      · simp only [hitem, Bind.bind, Except.bind]
        exact hts
      · simp only [hitem, Bind.bind, Except.bind] at ht ⊢
        rw [hsame t rest ht more]
        rfl
  | ok answer =>
      obtain ⟨a, rest₁⟩ := answer
      obtain ⟨taken', hrest₁, hsame'⟩ := hnext a rest₁ hitem
      simp only [hitem, left] at hts hsame
      refine ⟨taken ++ taken', ?_, fun t rest ht more => ?_⟩
      · simp only [hitem, Bind.bind, Except.bind]
        rw [List.append_assoc, ← hrest₁]
        exact hts
      · simp only [hitem, Bind.bind, Except.bind] at ht ⊢
        rw [ht] at hrest₁
        have hfirst : item (taken ++ (taken' ++ t :: more)) = .ok (a, taken' ++ t :: more) := by
          cases taken' with
          | nil => exact hsame t rest hrest₁ more
          | cons u taken' => exact hsame u _ hrest₁ (taken' ++ t :: more)
        rw [List.append_assoc, hfirst]
        exact hsame' t rest ht more

/-- Tokens that are passed over are seen together with the first one after them. -/
theorem dropWhile {p : Token → Bool} (h : LooksOneAhead item (ts.dropWhile p)) :
    LooksOneAhead (fun us => item (us.dropWhile p)) ts := by
  obtain ⟨taken, hrest, hsame⟩ := h
  have hts := List.takeWhile_append_dropWhile (p := p) (l := ts)
  rw [hrest] at hts
  refine ⟨ts.takeWhile p ++ taken, by rw [List.append_assoc, hts], fun t rest ht more => ?_⟩
  have hdrop : (ts.takeWhile p ++ (taken ++ t :: more)).dropWhile p = taken ++ t :: more := by
    rw [List.dropWhile_append_of_pos fun u hu => List.all_eq_true.1 List.all_takeWhile u hu]
    -- the first token after those passed over is the first one taken, or the first one left if none is taken
    have hfirst : (ts.dropWhile p).head? = (taken ++ t :: more).head? := by
      rw [hrest, ht]
      cases taken <;> rfl
    have hnot := List.head?_dropWhile_not p ts
    rw [hfirst] at hnot
    cases hall : taken ++ t :: more with
    | nil => rfl
    | cons u us =>
        rw [hall] at hnot
        exact List.dropWhile_cons_of_neg (by simpa using hnot)
  rw [List.append_assoc]
  exact (congrArg item hdrop).trans (hsame t rest ht more)

/-! ## Readers in general -/

theorem expectKind (kind : TokenKind) (expected : Expectation) (ts : List Token) :
    LooksOneAhead (Reading.expectKind kind expected) ts := by
  cases ts with
  | nil => exact nil rfl
  | cons t ts =>
      by_cases ht : t.kind = kind
      · exact cons (fun us => if_pos ht) (pure t ts)
      · refine head (fun us => ?_) (fail expected (t :: ts))
        exact if_neg ht

theorem expect {l : Lexeme} {expected : Expectation} {item : Reader α}
    (h : ∀ rest, Reading.expect l expected ts = .ok rest → LooksOneAhead item rest) :
    LooksOneAhead (fun us => do let rest ← Reading.expect l expected us; item rest) ts := by
  cases ts with
  | nil => exact nil rfl
  | cons t ts =>
      by_cases ht : t.lexeme = l
      · refine cons (fun us => ?_) (h ts (if_pos ht))
        rw [Reading.expect, if_pos ht]
        rfl
      · refine head (fun us => ?_) (fail expected (t :: ts))
        rw [Reading.expect, if_neg ht]
        rfl

theorem after {k : Keyword} (h : ∀ us, LooksOneAhead item us) (ts : List Token) :
    LooksOneAhead (Reading.after k item) ts := by
  cases ts with
  | nil => exact nil rfl
  | cons t ts =>
      by_cases ht : t.lexeme = .keyword k
      · exact cons (after_keyword ht) (bind (h ts) fun a rest _ => pure (some a) rest)
      · refine head (fun us => ?_) (pure none (t :: ts))
        exact if_neg ht

theorem more (hitem : Consumes item) {closes : Lexeme → Bool} (h : ∀ us, LooksOneAhead item us) (ts : List Token) :
    LooksOneAhead (Reading.more item hitem closes) ts := by
  -- by induction on the length: after an entry there are fewer tokens
  induction hn : ts.length using Nat.strongRecOn generalizing ts with
  | ind n ih =>
      cases ts with
      | nil => exact nil (by rw [more_nil]; rfl)
      | cons t ts =>
          by_cases hclose : closes t.lexeme = true
          · exact head (fun us => more_closes hitem hclose) (pure [] (t :: ts))
          rw [Bool.not_eq_true] at hclose
          by_cases hcomma : t.lexeme = .symbol .comma
          · refine cons (fun us => more_comma hitem hclose hcomma) (bind (h ts) fun a rest ha => ?_)
            have hlt := hitem.lt ha
            refine bind (ih rest.length ?_ rest rfl) fun others rest _ => pure (a :: others) rest
            rw [← hn, List.length_cons]
            omega
          · exact head (fun us => more_other hitem hclose hcomma) (fail .comma (t :: ts))

theorem separated (hitem : Consumes item) {closes : Lexeme → Bool} (h : ∀ us, LooksOneAhead item us)
    (ts : List Token) : LooksOneAhead (Reading.separated item hitem closes) ts := by
  cases ts with
  | nil => exact nil rfl
  | cons t ts =>
      by_cases hclose : closes t.lexeme = true
      · refine head (fun us => ?_) (pure [] (t :: ts))
        exact if_pos hclose
      · rw [Bool.not_eq_true] at hclose
        refine head (fun us => separated_open hitem hclose) (bind (h (t :: ts)) fun a rest _ => ?_)
        exact bind (more hitem h rest) fun others rest _ => pure (a :: others) rest

end LooksOneAhead

end SqlStore.Reading
