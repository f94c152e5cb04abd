import SqlStore.Reading.Separated

/-!
# What readers take

`Reads item R stops` ties a reader to a relation between values and the tokens that write them: whatever the
reader takes is related to what it gives, and related tokens are read in full where a stop or nothing follows.
-/

namespace SqlStore.Reading

variable {α : Type}

/-- Nothing follows, or one of the stops. -/
def Ends (stops : List Lexeme) (rest : List Token) : Prop := ∀ t ∈ rest.head?, t.lexeme ∈ stops

/-- The reader reads exactly what the relation writes, up to a stop. -/
structure Reads (item : Reader α) (R : α → List Token → Prop) (stops : List Lexeme) : Prop where
  sound : ∀ {ts : List Token} {a : α} {rest : List Token}, item ts = .ok (a, rest) →
    ∃ taken, ts = taken ++ rest ∧ R a taken
  complete : ∀ {a : α} {taken rest : List Token}, R a taken → Ends stops rest →
    item (taken ++ rest) = .ok (a, rest)

section

variable {stops stops' : List Lexeme} {t : Token} {ts rest : List Token}

theorem ends_nil : Ends stops [] := by
  intro t ht
  cases ht

theorem ends_cons : Ends stops (t :: rest) ↔ t.lexeme ∈ stops := by
  simp [Ends]

theorem Ends.mono (h : Ends stops rest) (hsub : stops ⊆ stops') : Ends stops' rest :=
  fun t ht => hsub (h t ht)

theorem Ends.append (h : Ends stops ts) (hrest : Ends stops rest) : Ends stops (ts ++ rest) := by
  cases ts with
  | nil => exact hrest
  | cons t ts => exact ends_cons.2 (ends_cons.1 h)

end

/-! ## One token -/

/-- One token of a kind. -/
def OfKind (kind : TokenKind) (t : Token) (ts : List Token) : Prop := ts = [t] ∧ t.kind = kind

theorem expect_cons {l : Lexeme} {expected : Expectation} {t : Token} {ts : List Token} (h : t.lexeme = l) :
    expect l expected (t :: ts) = .ok ts :=
  expect_eq_ok.2 ⟨t, rfl, h⟩

theorem expectKind_cons {kind : TokenKind} {expected : Expectation} {t : Token} {ts : List Token}
    (h : t.kind = kind) : expectKind kind expected (t :: ts) = .ok (t, ts) :=
  expectKind_eq_ok.2 ⟨rfl, h⟩

theorem reads_expectKind {kind : TokenKind} {expected : Expectation} {stops : List Lexeme} :
    Reads (expectKind kind expected) (OfKind kind) stops where
  sound := by
    intro ts t rest h
    obtain ⟨rfl, ht⟩ := expectKind_eq_ok.1 h
    exact ⟨[t], rfl, rfl, ht⟩
  complete := by
    rintro t _ rest ⟨rfl, ht⟩ _
    exact expectKind_cons ht

/-! ## Clauses -/

/-- `[k x]`. -/
inductive Clause (k : Keyword) (R : α → List Token → Prop) : Option α → List Token → Prop
  | none : Clause k R none []
  | some {word : Token} {a : α} {ts : List Token} (hword : word.lexeme = .keyword k) (h : R a ts) :
      Clause k R (some a) (word :: ts)

theorem Clause.ends {k : Keyword} {R : α → List Token → Prop} {a : Option α} {ts : List Token}
    (h : Clause k R a ts) {stops : List Lexeme} (hk : .keyword k ∈ stops) : Ends stops ts := by
  cases h with
  | none => exact ends_nil
  | some hword _ => exact ends_cons.2 (hword ▸ hk)

theorem reads_after {k : Keyword} {item : Reader α} {R : α → List Token → Prop} {stops : List Lexeme}
    (h : Reads item R stops) (hk : .keyword k ∉ stops) : Reads (after k item) (Clause k R) stops where
  sound := by
    intro ts a rest hok
    cases ts with
    | nil =>
        cases hok
        exact ⟨[], rfl, .none⟩
    | cons t ts =>
        rw [after] at hok
        split at hok
        · obtain ⟨⟨b, rest'⟩, hb, hok⟩ := exists_of_bind_eq_ok hok
          cases hok
          obtain ⟨us, rfl, hus⟩ := h.sound hb
          exact ⟨t :: us, rfl, .some ‹_› hus⟩
        · cases hok
          exact ⟨[], rfl, .none⟩
  complete := by
    intro a taken rest ha hrest
    cases ha with
    | none =>
        cases rest with
        | nil => rfl
        | cons t rest =>
            rw [List.nil_append, after, if_neg]
            intro ht
            exact hk (ht ▸ ends_cons.1 hrest)
    | @some word a ts hword ha =>
        rw [List.cons_append, after, if_pos hword, h.complete ha hrest]
        rfl

/-! ## Entries between commas -/

/-- `(, x)*`. -/
inductive More (R : α → List Token → Prop) : List α → List Token → Prop
  | nil : More R [] []
  | cons {comma : Token} {a : α} {as : List α} {ts us : List Token}
      (hcomma : comma.lexeme = .symbol .comma) (h : R a ts) (hs : More R as us) :
      More R (a :: as) (comma :: (ts ++ us))

/-- `[x (, x)*]`. -/
inductive Entries (R : α → List Token → Prop) : List α → List Token → Prop
  | nil : Entries R [] []
  | cons {a : α} {as : List α} {ts us : List Token} (h : R a ts) (hs : More R as us) :
      Entries R (a :: as) (ts ++ us)

theorem More.ends {R : α → List Token → Prop} {as : List α} {ts : List Token} (h : More R as ts)
    {stops : List Lexeme} (hcomma : .symbol .comma ∈ stops) : Ends stops ts := by
  cases h with
  | nil => exact ends_nil
  | cons hc _ _ => exact ends_cons.2 (hc ▸ hcomma)

section

variable {item : Reader α} (hitem : Consumes item) {R : α → List Token → Prop} {stops closing : List Lexeme}
  {closes : Lexeme → Bool}

theorem more_sound (h : Reads item R stops) : ∀ {ts : List Token} {as : List α} {rest : List Token},
    more item hitem closes ts = .ok (as, rest) → ∃ taken, ts = taken ++ rest ∧ More R as taken := by
  intro ts
  fun_induction more item hitem closes ts with
  | case1 =>
      intro as rest hok
      cases hok
      exact ⟨[], rfl, .nil⟩
  | case2 t rest' =>
      intro as rest hok
      cases hok
      exact ⟨[], rfl, .nil⟩
  | case3 => intro as rest hok; cases hok
  | case4 t rest₁ _ hcomma a rest₂ ha ih =>
      intro as rest hok
      obtain ⟨⟨others, rest₃⟩, hmore, hok⟩ := exists_of_bind_eq_ok hok
      cases hok
      obtain ⟨us, rfl, hus⟩ := h.sound ha
      obtain ⟨vs, rfl, hvs⟩ := ih hmore
      exact ⟨t :: (us ++ vs), by simp, .cons hcomma hus hvs⟩
  | case5 => intro as rest hok; cases hok

theorem more_complete (h : Reads item R stops) (hcloses : ∀ l, closes l = true ↔ l ∈ closing)
    (hsub : closing ⊆ stops) (hcomma : .symbol .comma ∈ stops) (hopen : .symbol .comma ∉ closing)
    {as : List α} {ts rest : List Token} (hts : More R as ts) (hrest : Ends closing rest) :
    more item hitem closes (ts ++ rest) = .ok (as, rest) := by
  induction hts with
  | nil =>
      cases rest with
      | nil => exact more_nil hitem
      | cons t rest => exact more_closes hitem ((hcloses _).2 (ends_cons.1 hrest))
  | @cons comma a as ts us hc ha hs ih =>
      have hnot : closes comma.lexeme = false := by
        rw [hc, Bool.eq_false_iff]
        exact fun hmem => hopen ((hcloses _).1 hmem)
      have hread := h.complete ha ((hs.ends hcomma).append (hrest.mono hsub))
      rw [List.cons_append, List.append_assoc, more_comma hitem hnot hc, hread]
      simp [bind, Except.bind, ih, pure, Except.pure]

theorem reads_separated (h : Reads item R stops) (hcloses : ∀ l, closes l = true ↔ l ∈ closing)
    (hsub : closing ⊆ stops) (hcomma : .symbol .comma ∈ stops) (hopen : .symbol .comma ∉ closing)
    (hhead : ∀ a ts, R a ts → ∃ t us, ts = t :: us ∧ t.lexeme ∉ closing) :
    Reads (separated item hitem closes) (Entries R) closing where
  sound := by
    intro ts as rest hok
    cases ts with
    | nil =>
        cases hok
        exact ⟨[], rfl, .nil⟩
    | cons t ts =>
        rw [separated] at hok
        split at hok
        · cases hok
          exact ⟨[], rfl, .nil⟩
        · obtain ⟨⟨a, rest₁⟩, ha, hok⟩ := exists_of_bind_eq_ok hok
          obtain ⟨⟨others, rest₂⟩, hmore, hok⟩ := exists_of_bind_eq_ok hok
          cases hok
          obtain ⟨us, hus, hwritten⟩ := h.sound ha
          obtain ⟨vs, rfl, hvs⟩ := more_sound hitem h hmore
          exact ⟨us ++ vs, by rw [hus, List.append_assoc], .cons hwritten hvs⟩
  complete := by
    intro as taken rest has hrest
    cases has with
    | nil =>
        cases rest with
        | nil => rfl
        | cons t rest => rw [List.nil_append, separated, if_pos ((hcloses _).2 (ends_cons.1 hrest))]
    | @cons a as ts us ha hs =>
        obtain ⟨t, ts', rfl, ht⟩ := hhead a ts ha
        have hnot : ¬ closes t.lexeme = true := fun hc => ht ((hcloses _).1 hc)
        have hread := h.complete ha ((hs.ends hcomma).append (hrest.mono hsub))
        have hmore := more_complete hitem h hcloses hsub hcomma hopen hs hrest
        rw [List.append_assoc, List.cons_append, separated, if_neg hnot, ← List.cons_append, hread]
        simp [bind, Except.bind, hmore, pure, Except.pure]

end

/-! ## Facts about every entry -/

section

variable {R : α → List Token → Prop} {P : α → Prop}

theorem More.forall_mem {as : List α} {ts : List Token} (h : More R as ts) (hR : ∀ a ts, R a ts → P a) :
    ∀ a ∈ as, P a := by
  induction h with
  | nil => simp
  | cons _ h _ ih => exact List.forall_mem_cons.2 ⟨hR _ _ h, ih⟩

theorem Entries.forall_mem {as : List α} {ts : List Token} (h : Entries R as ts) (hR : ∀ a ts, R a ts → P a) :
    ∀ a ∈ as, P a := by
  cases h with
  | nil => simp
  | cons h hs => exact List.forall_mem_cons.2 ⟨hR _ _ h, hs.forall_mem hR⟩

theorem More.exists_entry {as : List α} {ts : List Token} (h : More R as ts) : ∀ a ∈ as, ∃ us, R a us ∧ us ⊆ ts := by
  induction h with
  | nil => simp
  | cons _ h _ ih =>
      refine List.forall_mem_cons.2 ⟨⟨_, h, fun t ht => by simp [ht]⟩, fun a ha => ?_⟩
      obtain ⟨us, hus, hsub⟩ := ih a ha
      exact ⟨us, hus, fun t ht => by simp [hsub ht]⟩

/-- An entry is written by some of the tokens of the list. -/
theorem Entries.exists_entry {as : List α} {ts : List Token} (h : Entries R as ts) :
    ∀ a ∈ as, ∃ us, R a us ∧ us ⊆ ts := by
  cases h with
  | nil => simp
  | cons h hs =>
      refine List.forall_mem_cons.2 ⟨⟨_, h, List.subset_append_left _ _⟩, fun a ha => ?_⟩
      obtain ⟨us, hus, hsub⟩ := hs.exists_entry a ha
      exact ⟨us, hus, fun t ht => List.mem_append_right _ (hsub ht)⟩

theorem Clause.forall_mem {k : Keyword} {a : Option α} {ts : List Token} (h : Clause k R a ts)
    (hR : ∀ a ts, R a ts → P a) : ∀ b ∈ a.toList, P b := by
  cases h with
  | none => simp
  | some _ h => simpa using hR _ _ h

end

end SqlStore.Reading
