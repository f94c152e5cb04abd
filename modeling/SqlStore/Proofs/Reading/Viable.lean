import SqlStore.Proofs.Reading
import SqlStore.Proofs.Sequence

/-!
# Beginnings

Where a reader fails, the tokens that it has taken begin something that could have been read: what is wrong comes
after them.
-/

namespace SqlStore.Reading

variable {α β : Type}

/-- With more tokens after them, the tokens write something. -/
def Begins (R : α → List Token → Prop) (ts : List Token) : Prop := ∃ a more, R a (ts ++ more)

/-- Where the reader fails, it has taken the beginning of something that the relation writes. -/
structure FailsLate (item : Reader α) (R : α → List Token → Prop) : Prop where
  begins : ∀ {ts : List Token} {f : Failure}, item ts = .error f → ∃ taken, ts = taken ++ f.rest ∧ Begins R taken

/-- Of two readers in sequence, the first fails after some tokens, or it takes some and the second fails. -/
theorem exists_of_bind_failure {item : Reader α} {R : α → List Token → Prop} {stops : List Lexeme}
    {next : α × List Token → Except Failure β} {ts : List Token} {f : Failure} (h : (item ts >>= next) = .error f)
    (hfails : FailsLate item R) (hreads : Reads item R stops) :
    (∃ taken a more, ts = taken ++ f.rest ∧ R a (taken ++ more)) ∨
      ∃ taken rest a, ts = taken ++ rest ∧ R a taken ∧ next (a, rest) = .error f := by
  obtain hfirst | ⟨⟨a, rest⟩, ha, hnext⟩ := exists_of_bind_eq_error h
  · obtain ⟨taken, hts, a, more, ha⟩ := hfails.begins hfirst
    exact .inl ⟨taken, a, more, hts, ha⟩
  · obtain ⟨taken, hts, hwritten⟩ := hreads.sound ha
    exact .inr ⟨taken, rest, a, hts, hwritten, hnext⟩

theorem exists_of_expect_failure {l : Lexeme} {expected : Expectation} {next : List Token → Except Failure β}
    {ts : List Token} {f : Failure} (h : (expect l expected ts >>= next) = .error f) :
    ts = f.rest ∨ ∃ t rest, ts = t :: rest ∧ t.lexeme = l ∧ next rest = .error f := by
  obtain hfirst | ⟨rest, hrest, hnext⟩ := exists_of_bind_eq_error h
  · cases ts with
    | nil => cases hfirst; exact .inl rfl
    | cons t ts =>
        rw [expect] at hfirst
        split at hfirst <;> cases hfirst
        exact .inl rfl
  · obtain ⟨t, rfl, ht⟩ := expect_eq_ok.1 hrest
    exact .inr ⟨t, rest, rfl, ht, hnext⟩

theorem failsLate_expectKind {kind : TokenKind} {expected : Expectation} :
    FailsLate (expectKind kind expected) (OfKind kind) where
  begins := by
    intro ts f h
    refine ⟨[], ?_, _, [.ofLexeme ⟨kind, ""⟩], rfl, rfl⟩
    cases ts with
    | nil => cases h; rfl
    | cons t ts =>
        rw [expectKind] at h
        split at h <;> cases h
        rfl

section

variable {item : Reader α} {R : α → List Token → Prop}

theorem failsLate_after {k : Keyword} (h : FailsLate item R) : FailsLate (after k item) (Clause k R) where
  begins := by
    intro ts f hfail
    cases ts with
    | nil => cases hfail
    | cons t ts =>
        rw [after] at hfail
        split at hfail
        · rename_i ht
          obtain hfail | ⟨answer, -, hfail⟩ := exists_of_bind_eq_error hfail
          · obtain ⟨taken, rfl, a, more, ha⟩ := h.begins hfail
            exact ⟨t :: taken, rfl, some a, more, .some ht ha⟩
          · cases hfail
        · cases hfail

variable {stops : List Lexeme} (hitem : Consumes item) {closes : Lexeme → Bool}

theorem failsLate_more (h : FailsLate item R) (hreads : Reads item R stops) :
    FailsLate (more item hitem closes) (More R) where
  begins := by
    intro ts
    fun_induction more item hitem closes ts with
    | case1 => intro f hfail; cases hfail
    | case2 => intro f hfail; cases hfail
    | case3 t ts _ hcomma f' ha =>
        intro f hfail
        cases hfail
        obtain ⟨taken, rfl, a, rest, ha⟩ := h.begins ha
        refine ⟨t :: taken, rfl, [a], rest, ?_⟩
        simpa using More.cons hcomma ha .nil
    | case4 t ts _ hcomma a rest ha ih =>
        intro f hfail
        obtain hfail | ⟨answer, -, hfail⟩ := exists_of_bind_eq_error hfail
        · obtain ⟨us, rfl, hus⟩ := hreads.sound ha
          obtain ⟨taken, rfl, as, rest, has⟩ := ih hfail
          refine ⟨t :: (us ++ taken), by simp, a :: as, rest, ?_⟩
          simpa using More.cons hcomma hus has
        · cases hfail
    | case5 =>
        intro f hfail
        cases hfail
        exact ⟨[], rfl, [], [], .nil⟩

theorem failsLate_separated (h : FailsLate item R) (hreads : Reads item R stops) :
    FailsLate (separated item hitem closes) (Entries R) where
  begins := by
    intro ts f hfail
    cases ts with
    | nil => cases hfail
    | cons t ts =>
        rw [separated] at hfail
        split at hfail
        · cases hfail
        obtain ⟨taken, a, rest, hts, ha⟩ | ⟨us, rest, a, hts, ha, hfail⟩ := exists_of_bind_failure hfail h hreads
        · refine ⟨taken, hts, [a], rest, ?_⟩
          simpa using Entries.cons ha .nil
        obtain hfail | ⟨answer, -, hfail⟩ := exists_of_bind_eq_error hfail
        · obtain ⟨taken, rfl, as, rest, has⟩ := (failsLate_more hitem h hreads).begins hfail
          refine ⟨us ++ taken, by rw [hts, List.append_assoc], a :: as, rest, ?_⟩
          simpa using Entries.cons ha has
        · cases hfail

end

end SqlStore.Reading
