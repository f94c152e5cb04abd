import SqlStore.Expr.Parse
import SqlStore.Proofs.Expr.Rendering

/-!
# Reading expressions gives back the tree

Precedence climbing and `Rendering` agree: whatever writes a tree reads back as that tree
(`Rendering.parse_eq_extend`), and whatever is read was written by the tokens taken (`parse_sound`). What is
read can be followed by a stop, by an operator no tighter than the floor, or by nothing (`EndsAt`).
-/

namespace SqlStore.Expr

/-- No stop is an operator; so it is for every list of stops that a statement reads its expressions with. -/
def NoOperator (stops : List Lexeme) : Prop := ∀ l ∈ stops, Operator.ofLexeme? l = none

instance (stops : List Lexeme) : Decidable (NoOperator stops) :=
  inferInstanceAs (Decidable (∀ l ∈ stops, Operator.ofLexeme? l = none))

/-- What may follow an expression: nothing, a stop, or an operator of at most a given power. -/
def EndsAt (stops : List Lexeme) (power : Nat) (rest : List Token) : Prop :=
  ∀ t ∈ rest.head?, t.lexeme ∈ stops ∨ ∃ op : Operator, t.lexeme = op.lexeme ∧ op.power ≤ power

section

variable {stops : List Lexeme} {p q : Nat} {t : Token} {op : Operator} {rest : List Token}

theorem NoOperator.cons_rightParen (h : NoOperator stops) : NoOperator (.symbol .rightParen :: stops) := by
  intro l hl
  rcases List.mem_cons.1 hl with rfl | hl
  · decide
  · exact h l hl

theorem ofLexeme?_of_lexeme (ht : t.lexeme = op.lexeme) : Operator.ofLexeme? t.lexeme = some op :=
  Operator.ofLexeme?_eq_some_iff.2 ht.symm

theorem NoOperator.not_mem (h : NoOperator stops) (ht : t.lexeme = op.lexeme) : t.lexeme ∉ stops := by
  intro hmem
  have hnone := h _ hmem
  rw [ofLexeme?_of_lexeme ht] at hnone
  cases hnone

theorem EndsAt.mono (h : EndsAt stops p rest) (hle : p ≤ q) : EndsAt stops q rest := by
  intro t ht
  rcases h t ht with hstop | ⟨op, hop, hpower⟩
  · exact Or.inl hstop
  · exact Or.inr ⟨op, hop, Nat.le_trans hpower hle⟩

theorem endsAt_nil : EndsAt stops p [] := by
  intro t ht
  cases ht

theorem endsAt_cons : EndsAt stops p (t :: rest) ↔
    t.lexeme ∈ stops ∨ ∃ op : Operator, t.lexeme = op.lexeme ∧ op.power ≤ p := by
  simp [EndsAt]

theorem extend_of_endsAt {left : Expr} (h : EndsAt stops p rest) : extend stops p left rest = .ok (left, rest) := by
  cases rest with
  | nil => exact extend_nil
  | cons t rest =>
      rcases endsAt_cons.1 h with ht | ⟨op, hop, hle⟩
      · exact extend_stop ht
      · refine extend_loose (ofLexeme?_of_lexeme hop) ?_
        rw [hop, Operator.bindingPower_lexeme]
        exact hle

end

/-! ## What writes a tree reads as the tree -/

/-- Reading takes in the whole rendering as one left operand, under any floor below its operators. -/
theorem Rendering.parse_eq_extend {p : Nat} {e : Expr} {ts : List Token} (h : Rendering p e ts) :
    ∀ (stops : List Lexeme) (floor : Nat) (rest : List Token), NoOperator stops → floor ≤ p - 1 →
      EndsAt stops p rest → parse stops floor (ts ++ rest) = extend stops floor e rest := by
  induction h with
  | literal ht =>
      intro stops floor rest _ _ _
      exact parse_operand ht
  | @paren p e opening closing ts ho _ hc ih =>
      intro stops floor rest hstops _ _
      have hclose : EndsAt (.symbol .rightParen :: stops) 0 (closing :: rest) :=
        endsAt_cons.2 (Or.inl (by simp [hc]))
      have hinner := ih _ 0 _ hstops.cons_rightParen (Nat.le_refl _) hclose
      rw [extend_of_endsAt hclose] at hinner
      rw [List.cons_append, List.append_assoc, List.singleton_append, parse_paren ho, hinner]
      simp [bind, Except.bind, Reading.expect, hc]
  | @binary p l r t op ls rs ht hp _ _ ihl ihr =>
      intro stops floor rest hstops hfloor hrest
      have hpos := op.power_pos
      -- the left operand runs up to the operator, the right one up to what follows the whole
      have hleft := ihl stops floor (t :: (rs ++ rest)) hstops (by omega)
        (endsAt_cons.2 (Or.inr ⟨op, ht, Nat.le_refl _⟩))
      have hright := ihr stops op.power rest hstops (Nat.le_refl _) (hrest.mono (Nat.le_succ_of_le hp))
      rw [extend_of_endsAt (hrest.mono hp)] at hright
      have hpower : t.lexeme.bindingPower = op.power := by rw [ht, Operator.bindingPower_lexeme]
      rw [List.append_assoc, List.cons_append, hleft,
        extend_tight (hstops.not_mem ht) (ofLexeme?_of_lexeme ht) (by omega), hpower, hright]
      rfl

theorem Rendering.parse {e : Expr} {ts rest : List Token} {stops : List Lexeme} (h : Rendering 0 e ts)
    (hstops : NoOperator stops) (hrest : EndsAt stops 0 rest) : parse stops 0 (ts ++ rest) = .ok (e, rest) := by
  rw [h.parse_eq_extend stops 0 rest hstops (Nat.le_refl _) hrest, extend_of_endsAt hrest]

/-- Reading gives back the tree of every rendering, and the tokens after it. -/
theorem parse_append_of_rendering {e : Expr} {ts rest : List Token} {stops : List Lexeme} (h : Rendering 0 e ts)
    (hstops : NoOperator stops) (hrest : ∀ t ∈ rest.head?, t.lexeme ∈ stops) :
    parse stops 0 (ts ++ rest) = .ok (e, rest) :=
  h.parse hstops fun t ht => Or.inl (hrest t ht)

-- `(a) + (b + c) = d`: the first parentheses could be left out, the second could not
theorem parse_append_of_rendering_sum :
    parse [.symbol .comma] 0
      ([.ofLexeme (.symbol .leftParen), .ofLexeme (.identifier "a"), .ofLexeme (.symbol .rightParen),
        .ofLexeme (.symbol .plus), .ofLexeme (.symbol .leftParen), .ofLexeme (.identifier "b"),
        .ofLexeme (.symbol .plus), .ofLexeme (.identifier "c"), .ofLexeme (.symbol .rightParen),
        .ofLexeme (.symbol .equal), .ofLexeme (.identifier "d")] ++ [.ofLexeme (.symbol .comma)]) =
      .ok (.binary
        (.binary (.literal (.ofLexeme (.identifier "a"))) (.ofLexeme (.symbol .plus))
          (.binary (.literal (.ofLexeme (.identifier "b"))) (.ofLexeme (.symbol .plus))
            (.literal (.ofLexeme (.identifier "c")))))
        (.ofLexeme (.symbol .equal)) (.literal (.ofLexeme (.identifier "d"))),
        [.ofLexeme (.symbol .comma)]) := by
  have hname : ∀ floor s, Rendering floor (.literal (.ofLexeme (.identifier s))) [.ofLexeme (.identifier s)] :=
    fun _ _ => .literal rfl
  have hparen : ∀ {floor e ts}, Rendering 0 e ts →
      Rendering floor e (.ofLexeme (.symbol .leftParen) :: (ts ++ [.ofLexeme (.symbol .rightParen)])) :=
    fun h => .paren rfl h rfl
  have hplus : ∀ (floor) {l r ls rs}, floor ≤ 5 → Rendering 5 l ls → Rendering 6 r rs →
      Rendering floor (.binary l (.ofLexeme (.symbol .plus)) r) (ls ++ .ofLexeme (.symbol .plus) :: rs) :=
    fun _ _ _ _ _ hfloor hl hr => @Rendering.binary _ _ _ _ .plus _ _ rfl hfloor hl hr
  have hright := hplus 0 (by decide) (hname 5 "b") (hname 6 "c")
  have hsum := hplus 2 (by decide) (hparen (hname 0 "a")) (hparen hright)
  exact parse_append_of_rendering (@Rendering.binary 0 _ _ _ .equal _ _ rfl (by decide) hsum (hname 3 "d"))
    (by decide) (by decide)

/-! ## What is read was written -/

/-- The left operand can stand before the next token, if that is an operator tighter than the floor. -/
def FitsBefore (floor : Nat) (left : Expr) (ls ts : List Token) : Prop :=
  ∀ t ∈ ts.head?, ∀ op : Operator, t.lexeme = op.lexeme → floor < op.power → Rendering op.power left ls

theorem FitsBefore.of_forall {floor : Nat} {left : Expr} {ls ts : List Token}
    (h : ∀ p, Rendering p left ls) : FitsBefore floor left ls ts :=
  fun _ _ op _ _ => h op.power

/-- An operation fits before whatever its right operand was read up to. -/
theorem FitsBefore.binary {stops : List Lexeme} {floor : Nat} {l r : Expr} {t : Token} {op : Operator}
    {ls rs rest : List Token} (hstops : NoOperator stops) (ht : t.lexeme = op.lexeme)
    (hl : Rendering op.power l ls) (hr : Rendering (op.power + 1) r rs) (hrest : EndsAt stops op.power rest) :
    FitsBefore floor (.binary l t r) (ls ++ t :: rs) rest := by
  intro u hu op' hop' _
  rcases hrest u hu with hstop | ⟨op₁, hop₁, hle⟩
  · exact absurd hstop (hstops.not_mem hop')
  · have hsome := ofLexeme?_of_lexeme hop₁
    rw [ofLexeme?_of_lexeme hop', Option.some.injEq] at hsome
    subst hsome
    exact .binary ht hle hl hr

/-- Reading an expression from fewer than `n` tokens takes a rendering of it. -/
def ParseTakesRendering (n : Nat) : Prop :=
  ∀ {stops : List Lexeme} {floor : Nat} {ts : List Token} {e : Expr} {rest : List Token}, ts.length < n →
    NoOperator stops → parse stops floor ts = .ok (e, rest) →
    ∃ taken, ts = taken ++ rest ∧ Rendering (floor + 1) e taken ∧ EndsAt stops floor rest

/-- Reading on after a left operand from fewer than `n` tokens takes the rest of a rendering. -/
def ExtendTakesRendering (n : Nat) : Prop :=
  ∀ {stops : List Lexeme} {floor : Nat} {left : Expr} {ls ts : List Token} {e : Expr} {rest : List Token},
    ts.length < n → NoOperator stops → Rendering (floor + 1) left ls → FitsBefore floor left ls ts →
    extend stops floor left ts = .ok (e, rest) →
    ∃ taken, ts = taken ++ rest ∧ Rendering (floor + 1) e (ls ++ taken) ∧ EndsAt stops floor rest

theorem parseTakesRendering_succ {n : Nat} (hparse : ParseTakesRendering n)
    (hextend : ExtendTakesRendering n) : ParseTakesRendering (n + 1) := by
  intro stops floor ts e rest hlen hstops h
  cases ts with
  | nil => simp at h
  | cons t ts =>
      rw [List.length_cons] at hlen
      by_cases hparen : t.lexeme = .symbol .leftParen
      · rw [parse_paren hparen] at h
        obtain ⟨⟨inner, rest₁⟩, hinner, hthen⟩ := Reading.exists_of_bind_eq_ok h
        obtain ⟨rest₂, hclose, hextended⟩ := Reading.exists_of_bind_eq_ok hthen
        obtain ⟨close, rfl, hc⟩ := Reading.expect_eq_ok.1 hclose
        obtain ⟨us, hus, hinner, -⟩ := hparse (by omega) hstops.cons_rightParen hinner
        have hshort : rest₂.length < n := by
          rw [hus, List.length_append, List.length_cons] at hlen
          omega
        have hall : ∀ p, Rendering p inner (t :: (us ++ [close])) :=
          fun p => .paren hparen (hinner.of_le (Nat.zero_le _)) hc
        obtain ⟨vs, rfl, he, hend⟩ := hextend hshort hstops (hall _) (.of_forall hall) hextended
        exact ⟨t :: (us ++ [close]) ++ vs, by simp [hus], he, hend⟩
      · cases hkind : t.kind.isOperand with
        | false =>
            rw [parse_other hparen hkind] at h
            cases h
        | true =>
            rw [parse_operand hkind] at h
            obtain ⟨us, rfl, he, hend⟩ :=
              hextend (by omega) hstops (.literal hkind) (.of_forall fun _ => .literal hkind) h
            exact ⟨t :: us, rfl, he, hend⟩

theorem extendTakesRendering_succ {n : Nat} (hparse : ParseTakesRendering n)
    (hextend : ExtendTakesRendering n) : ExtendTakesRendering (n + 1) := by
  intro stops floor left ls ts e rest hlen hstops hleft hfits h
  -- where reading ends, nothing is taken after the left operand
  have hended : EndsAt stops floor rest → left = e ∧ ts = rest →
      ∃ taken, ts = taken ++ rest ∧ Rendering (floor + 1) e (ls ++ taken) ∧ EndsAt stops floor rest := by
    rintro hend ⟨rfl, rfl⟩
    exact ⟨[], rfl, by simpa using hleft, hend⟩
  cases ts with
  | nil =>
      simp only [extend_nil, Except.ok.injEq, Prod.mk.injEq] at h
      exact hended (h.2 ▸ endsAt_nil) h
  | cons t ts =>
      by_cases hstop : t.lexeme ∈ stops
      · simp only [extend_stop hstop, Except.ok.injEq, Prod.mk.injEq] at h
        exact hended (h.2 ▸ endsAt_cons.2 (Or.inl hstop)) h
      cases hop : Operator.ofLexeme? t.lexeme with
      | none =>
          rw [extend_other hstop hop] at h
          cases h
      | some op =>
          have ht := (Operator.ofLexeme?_eq_some_iff.1 hop).symm
          have hpower : t.lexeme.bindingPower = op.power := by rw [ht, Operator.bindingPower_lexeme]
          by_cases hle : op.power ≤ floor
          · simp only [extend_loose hop (hpower ▸ hle), Except.ok.injEq, Prod.mk.injEq] at h
            exact hended (h.2 ▸ endsAt_cons.2 (Or.inr ⟨op, ht, hle⟩)) h
          · rw [extend_tight hstop hop (by omega), hpower] at h
            obtain ⟨⟨right, rest₁⟩, hright, hextended⟩ := Reading.exists_of_bind_eq_ok h
            rw [List.length_cons] at hlen
            obtain ⟨rs, rfl, hrs, hend₁⟩ := hparse (by omega) hstops hright
            rw [List.length_append] at hlen
            have hls := hfits t rfl op ht (by omega)
            obtain ⟨us, rfl, he, hend⟩ := hextend (by omega) hstops (.binary ht (by omega) hls hrs)
              (.binary hstops ht hls hrs hend₁) hextended
            exact ⟨t :: (rs ++ us), by simp, by simpa using he, hend⟩

theorem takesRendering (n : Nat) : ParseTakesRendering n ∧ ExtendTakesRendering n := by
  induction n with
  | zero => exact ⟨fun h => absurd h (Nat.not_lt_zero _), fun h => absurd h (Nat.not_lt_zero _)⟩
  | succ n ih => exact ⟨parseTakesRendering_succ ih.1 ih.2, extendTakesRendering_succ ih.1 ih.2⟩

theorem parse_sound {stops : List Lexeme} {floor : Nat} {ts : List Token} {e : Expr} {rest : List Token}
    (hstops : NoOperator stops) (h : parse stops floor ts = .ok (e, rest)) :
    ∃ taken, ts = taken ++ rest ∧ Rendering (floor + 1) e taken ∧ EndsAt stops floor rest :=
  (takesRendering _).1 (Nat.lt_succ_self _) hstops h

end SqlStore.Expr
