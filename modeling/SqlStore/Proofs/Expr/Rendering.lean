import SqlStore.Expr.Basic

/-!
# Expressions as token lists

`Chain` is the plain grammar of expressions: operands with operators between them. `Rendering` says which
tokens write a given tree, with parentheses wherever the powers of the operators ask for them and as many more
as one likes. The two describe the same token lists (`chain_iff_exists_rendering`).
-/

namespace SqlStore

namespace Operator

/-- How tightly the operator binds. -/
def power : Operator → Nat
  | .and | .or => 1
  | .equal | .notEqual => 2
  | .concat | .plus => 5

theorem bindingPower_lexeme (op : Operator) : op.lexeme.bindingPower = op.power := by
  cases op <;> decide

theorem power_pos (op : Operator) : 0 < op.power := by
  cases op <;> decide

end Operator

namespace Expr

mutual
/-- A literal or a name, or a chain between parentheses. -/
inductive Operand : List Token → Prop
  | token {t : Token} (ht : t.kind.isOperand = true) : Operand [t]
  | paren {opening closing : Token} {ts : List Token} (ho : opening.lexeme = .symbol .leftParen)
      (h : Chain ts) (hc : closing.lexeme = .symbol .rightParen) : Operand (opening :: (ts ++ [closing]))

/-- `operand (op operand)*`. -/
inductive Chain : List Token → Prop
  | operand {ts : List Token} (h : Operand ts) : Chain ts
  | link {t : Token} {op : Operator} {ts us : List Token} (h : Chain ts) (ht : t.lexeme = op.lexeme)
      (hu : Operand us) : Chain (ts ++ t :: us)
end

/-- The tokens write the tree, and every operator outside parentheses has at least the power `floor`. A left
operand may show operators no weaker than its own operator, a right operand only stronger ones. -/
inductive Rendering : Nat → Expr → List Token → Prop
  | literal {floor : Nat} {t : Token} (ht : t.kind.isOperand = true) : Rendering floor (.literal t) [t]
  | paren {floor : Nat} {e : Expr} {opening closing : Token} {ts : List Token}
      (ho : opening.lexeme = .symbol .leftParen) (h : Rendering 0 e ts)
      (hc : closing.lexeme = .symbol .rightParen) : Rendering floor e (opening :: (ts ++ [closing]))
  | binary {floor : Nat} {l r : Expr} {t : Token} {op : Operator} {ls rs : List Token}
      (ht : t.lexeme = op.lexeme) (hfloor : floor ≤ op.power) (hl : Rendering op.power l ls)
      (hr : Rendering (op.power + 1) r rs) : Rendering floor (.binary l t r) (ls ++ t :: rs)

theorem Rendering.of_le {p q : Nat} {e : Expr} {ts : List Token} (h : Rendering p e ts) (hle : q ≤ p) :
    Rendering q e ts := by
  cases h with
  | literal ht => exact .literal ht
  | paren ho h hc => exact .paren ho h hc
  | binary ht hfloor hl hr => exact .binary ht (Nat.le_trans hle hfloor) hl hr

/-- An expression starts with an operand token or an opening parenthesis. -/
theorem Rendering.head {floor : Nat} {e : Expr} {ts : List Token} (h : Rendering floor e ts) :
    ∃ t us, ts = t :: us ∧ (t.kind.isOperand = true ∨ t.lexeme = .symbol .leftParen) := by
  induction h with
  | literal ht => exact ⟨_, [], rfl, Or.inl ht⟩
  | paren ho _ _ => exact ⟨_, _, rfl, Or.inr ho⟩
  | binary _ _ _ _ ihl _ =>
      obtain ⟨t, us, rfl, ht⟩ := ihl
      exact ⟨t, _, rfl, ht⟩

/-- The tokens of the tree, from left to right. -/
def tokens : Expr → List Token
  | .literal t => [t]
  | .binary l t r => l.tokens ++ t :: r.tokens

def isParenthesis (t : Token) : Bool :=
  t.lexeme = .symbol .leftParen ∨ t.lexeme = .symbol .rightParen

theorem isParenthesis_of_isOperand {t : Token} (ht : t.kind.isOperand = true) : isParenthesis t = false := by
  rw [isParenthesis, decide_eq_false_iff_not]
  rintro (h | h) <;> rw [Token.kind, h] at ht <;> exact absurd ht (by decide)

theorem isParenthesis_of_operator {t : Token} {op : Operator} (ht : t.lexeme = op.lexeme) :
    isParenthesis t = false := by
  rw [isParenthesis, ht]
  cases op <;> decide

/-- Apart from parentheses, a rendering has the tokens of the tree, each once and in their order. -/
theorem Rendering.tokens_eq {floor : Nat} {e : Expr} {ts : List Token} (h : Rendering floor e ts) :
    e.tokens = ts.filter (fun t => !isParenthesis t) := by
  induction h with
  | literal ht => simp [tokens, isParenthesis_of_isOperand ht]
  | paren ho _ hc ih => simp [ih, isParenthesis, ho, hc]
  | binary ht _ _ _ ihl ihr => simp [tokens, ihl, ihr, isParenthesis_of_operator ht]

/-! ## Chains and renderings -/

theorem Chain.append {t : Token} {op : Operator} {ts : List Token} (hts : Chain ts)
    (ht : t.lexeme = op.lexeme) : {us : List Token} → Chain us → Chain (ts ++ t :: us)
  | _, .operand hu => .link hts ht hu
  | _, .link hus hu ho => by
      have h := Chain.link (hts.append ht hus) hu ho
      rwa [List.append_assoc] at h

theorem Rendering.chain {floor : Nat} {e : Expr} {ts : List Token} (h : Rendering floor e ts) : Chain ts := by
  induction h with
  | literal ht => exact .operand (.token ht)
  | paren ho _ hc ih => exact .operand (.paren ho ih hc)
  | binary ht _ _ _ ihl ihr => exact ihl.append ht ihr

/-- One more operand goes below every operator that binds no tighter than the one before it. -/
theorem Rendering.exists_link {p : Nat} {e o : Expr} {t : Token} {op : Operator} {ts us : List Token}
    (h : Rendering p e ts) (ht : t.lexeme = op.lexeme) (hu : ∀ floor, Rendering floor o us) :
    ∃ e', Rendering (min p op.power) e' (ts ++ t :: us) := by
  induction h with
  | literal hk => exact ⟨_, .binary ht (Nat.min_le_right _ _) (.literal hk) (hu _)⟩
  | paren ho h hc _ => exact ⟨_, .binary ht (Nat.min_le_right _ _) (.paren ho h hc) (hu _)⟩
  | @binary p l r t' op' ls rs ht' hfloor hl hr _ ihr =>
      by_cases hle : op.power ≤ op'.power
      · exact ⟨_, .binary ht (Nat.min_le_right _ _) (.binary ht' hle hl hr) (hu _)⟩
      · obtain ⟨r', hr'⟩ := ihr
        rw [Nat.min_eq_left (by omega)] at hr'
        refine ⟨.binary l t' r', ?_⟩
        rw [List.append_assoc]
        exact .binary ht' (Nat.le_trans (Nat.min_le_left _ _) hfloor) hl hr'

mutual
theorem Operand.exists_rendering : {ts : List Token} → Operand ts → ∃ e, ∀ floor, Rendering floor e ts
  | _, .token ht => ⟨_, fun _ => .literal ht⟩
  | _, .paren ho h hc =>
      have ⟨e, he⟩ := Chain.exists_rendering h
      ⟨e, fun _ => .paren ho he hc⟩

theorem Chain.exists_rendering : {ts : List Token} → Chain ts → ∃ e, Rendering 0 e ts
  | _, .operand h =>
      have ⟨e, he⟩ := Operand.exists_rendering h
      ⟨e, he 0⟩
  | _, .link h ht hu => by
      obtain ⟨e, he⟩ := Chain.exists_rendering h
      obtain ⟨o, ho⟩ := Operand.exists_rendering hu
      simpa using he.exists_link ht ho
end

theorem chain_iff_exists_rendering {ts : List Token} : Chain ts ↔ ∃ e, Rendering 0 e ts :=
  ⟨Chain.exists_rendering, fun ⟨_, h⟩ => h.chain⟩

end Expr

end SqlStore
