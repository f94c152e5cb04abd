import SqlStore.Expr.Basic
import SqlStore.Reading.Basic

/-!
# Reading expressions

Precedence climbing: an operand, then every operator that binds tighter than a floor, with its right operand
read above the operator's own power. So operators of one power group to the left. Reading ends at a stop, at
the last token, or before an operator that binds too loosely; each success takes at least one token
(`consumes_parse`).
-/

namespace SqlStore.Expr

/-- The lexeme is one of those between two operands: AND, OR, or one of four symbols. -/
def isBinaryOperator (l : Lexeme) : Bool :=
  l == .keyword .and || l == .keyword .or || [.equal, .notEqual, .concat, .plus].any fun s => l == .symbol s

/-- The reader takes for operators what evaluation knows as operators. -/
theorem isBinaryOperator_eq (l : Lexeme) : isBinaryOperator l = (Operator.ofLexeme? l).isSome := by
  rw [Bool.eq_iff_iff, Option.isSome_iff_exists]
  simp only [isBinaryOperator, Operator.ofLexeme?_eq_some_iff, Bool.or_eq_true, beq_iff_eq, List.any_cons,
    List.any_nil, Bool.or_false]
  constructor
  · rintro ((rfl | rfl) | rfl | rfl | rfl | rfl)
    · exact ⟨.and, rfl⟩
    · exact ⟨.or, rfl⟩
    · exact ⟨.equal, rfl⟩
    · exact ⟨.notEqual, rfl⟩
    · exact ⟨.concat, rfl⟩
    · exact ⟨.plus, rfl⟩
  · rintro ⟨op, rfl⟩
    cases op <;> simp [Operator.lexeme]

/-- An expression and the tokens after it, fewer than there were. -/
abbrev Shorter (ts : List Token) := { p : Expr × List Token // p.2.length < ts.length }

/-- An expression and the tokens after it, no more than there were. -/
abbrev NoLonger (ts : List Token) := { p : Expr × List Token // p.2.length ≤ ts.length }

mutual

/-- `parse`, with a proof that it takes something. -/
def parseShorter (stops : List Lexeme) (floor : Nat) (ts : List Token) : Except Failure (Shorter ts) :=
  match ts with
  | [] => .error ⟨.expression, []⟩
  | t :: ts =>
      if t.lexeme = .symbol .leftParen then
        match parseShorter (.symbol .rightParen :: stops) 0 ts with
        | .error e => .error e
        | .ok ⟨(_, []), _⟩ => .error ⟨.closingParen, []⟩
        | .ok ⟨(inner, close :: rest), _⟩ =>
            if close.lexeme = .symbol .rightParen then
              match extendNoLonger stops floor inner rest with
              | .error e => .error e
              | .ok ⟨p, _⟩ => .ok ⟨p, by simp_all only [List.length_cons]; omega⟩
            else .error ⟨.closingParen, close :: rest⟩
      else if t.kind.isOperand then
        match extendNoLonger stops floor (.literal t) ts with
        | .error e => .error e
        | .ok ⟨p, _⟩ => .ok ⟨p, by simp_all only [List.length_cons]; omega⟩
      else .error ⟨.expression, t :: ts⟩
termination_by ts.length
decreasing_by all_goals simp_all only [List.length_cons]; omega

/-- `extend`, with a proof that it gives nothing back. -/
def extendNoLonger (stops : List Lexeme) (floor : Nat) (left : Expr) (ts : List Token) :
    Except Failure (NoLonger ts) :=
  match ts with
  | [] => .ok ⟨(left, []), Nat.le_refl _⟩
  | t :: ts =>
      if t.lexeme ∈ stops then .ok ⟨(left, t :: ts), Nat.le_refl _⟩
      else if isBinaryOperator t.lexeme = false then .error ⟨.operator, t :: ts⟩
      else if t.lexeme.bindingPower ≤ floor then .ok ⟨(left, t :: ts), Nat.le_refl _⟩
      else
        match parseShorter stops t.lexeme.bindingPower ts with
        | .error e => .error e
        | .ok ⟨(right, rest), _⟩ =>
            match extendNoLonger stops floor (.binary left t right) rest with
            | .error e => .error e
            | .ok ⟨p, _⟩ => .ok ⟨p, by simp_all only [List.length_cons]; omega⟩
termination_by ts.length
decreasing_by all_goals simp_all only [List.length_cons]; omega

end

/-- The expression at the head of the tokens, up to one of the stops or an operator no tighter than the
floor. -/
def parse (stops : List Lexeme) (floor : Nat) : Reader Expr :=
  fun ts => (parseShorter stops floor ts).map Subtype.val

/-- The expression that starts with a left operand already read. -/
def extend (stops : List Lexeme) (floor : Nat) (left : Expr) : Reader Expr :=
  fun ts => (extendNoLonger stops floor left ts).map Subtype.val

variable {stops : List Lexeme} {floor : Nat} {left : Expr} {t : Token} {ts : List Token}

/-! ## One step of reading -/

@[simp] theorem parse_nil : parse stops floor [] = .error ⟨.expression, []⟩ := by
  rw [parse, parseShorter]
  rfl

theorem parse_paren (ht : t.lexeme = .symbol .leftParen) :
    parse stops floor (t :: ts) = (do
      let (inner, rest) ← parse (.symbol .rightParen :: stops) 0 ts
      let rest ← Reading.expect (.symbol .rightParen) .closingParen rest
      extend stops floor inner rest) := by
  rw [parse, parse, parseShorter, if_pos ht]
  match parseShorter (.symbol .rightParen :: stops) 0 ts with
  | .error e => rfl
  | .ok ⟨(_, []), _⟩ => rfl
  | .ok ⟨(inner, close :: rest), _⟩ =>
      by_cases hc : close.lexeme = .symbol .rightParen
      · simp only [if_pos hc, Except.map, bind, Except.bind, Reading.expect, extend]
        cases extendNoLonger stops floor inner rest <;> rfl
      · simp only [if_neg hc, Except.map, bind, Except.bind, Reading.expect]

theorem parse_operand (ht : t.kind.isOperand = true) :
    parse stops floor (t :: ts) = extend stops floor (.literal t) ts := by
  have hne : t.lexeme ≠ .symbol .leftParen := fun h => by
    rw [Token.kind, h] at ht
    exact absurd ht (by decide)
  rw [parse, extend, parseShorter, if_neg hne, if_pos ht]
  cases extendNoLonger stops floor (.literal t) ts <;> rfl

theorem parse_other (hne : t.lexeme ≠ .symbol .leftParen) (ht : t.kind.isOperand = false) :
    parse stops floor (t :: ts) = .error ⟨.expression, t :: ts⟩ := by
  rw [parse, parseShorter, if_neg hne, if_neg (by simp [ht])]
  rfl

@[simp] theorem extend_nil : extend stops floor left [] = .ok (left, []) := by
  rw [extend, extendNoLonger]
  rfl

theorem extend_stop (ht : t.lexeme ∈ stops) : extend stops floor left (t :: ts) = .ok (left, t :: ts) := by
  rw [extend, extendNoLonger, if_pos ht]
  rfl

theorem extend_other (hstop : t.lexeme ∉ stops) (ht : Operator.ofLexeme? t.lexeme = none) :
    extend stops floor left (t :: ts) = .error ⟨.operator, t :: ts⟩ := by
  rw [extend, extendNoLonger, if_neg hstop, if_pos (by simp [isBinaryOperator_eq, ht])]
  rfl

theorem extend_loose {op : Operator} (ht : Operator.ofLexeme? t.lexeme = some op)
    (hfloor : t.lexeme.bindingPower ≤ floor) : extend stops floor left (t :: ts) = .ok (left, t :: ts) := by
  by_cases hstop : t.lexeme ∈ stops
  · exact extend_stop hstop
  · rw [extend, extendNoLonger, if_neg hstop, if_neg (by simp [isBinaryOperator_eq, ht]), if_pos hfloor]
    rfl

theorem extend_tight {op : Operator} (hstop : t.lexeme ∉ stops) (ht : Operator.ofLexeme? t.lexeme = some op)
    (hfloor : floor < t.lexeme.bindingPower) :
    extend stops floor left (t :: ts) = (do
      let (right, rest) ← parse stops t.lexeme.bindingPower ts
      extend stops floor (.binary left t right) rest) := by
  rw [extend, parse, extendNoLonger, if_neg hstop, if_neg (by simp [isBinaryOperator_eq, ht]), if_neg (by omega)]
  match parseShorter stops t.lexeme.bindingPower ts with
  | .error e => rfl
  | .ok ⟨(right, rest), _⟩ =>
      simp only [Except.map, bind, Except.bind, extend]
      cases extendNoLonger stops floor (.binary left t right) rest <;> rfl

/-! ## What a success takes -/

theorem consumes_parse : Reading.Consumes (parse stops floor) := by
  constructor
  intro ts e rest h
  rw [parse] at h
  cases hp : parseShorter stops floor ts with
  | error f => simp [hp, Except.map] at h
  | ok p =>
      simp only [hp, Except.map, Except.ok.injEq] at h
      have := p.2
      rwa [h] at this

end SqlStore.Expr
