import SqlStore.Expr.Parse
import SqlStore.Reading.Separated
import SqlStore.Statement.Basic

/-!
# Reading selections

Items, the table after FROM, the condition after WHERE, and the row counts after LIMIT and OFFSET.
-/

namespace SqlStore.Statement

open Reading

/-- What ends the items of a selection. -/
def itemStops : List Lexeme :=
  [.keyword .fromWord, .keyword .whereWord, .keyword .limit, .keyword .offset, .symbol .semicolon]

/-- An asterisk, or an expression with an optional name after AS. -/
def readItem : Reader SelectItem
  | [] => .error ⟨.expression, []⟩
  | t :: ts =>
      if t.lexeme = .symbol .asterisk then .ok (.allColumns, ts)
      else do
        let (expr, rest) ← Expr.parse (.symbol .comma :: .keyword .asWord :: itemStops) 0 (t :: ts)
        let (shownAs, rest) ← after .asWord (expectKind .identifier .aliasName) rest
        return (.expression expr shownAs, rest)

theorem consumes_readItem : Consumes readItem := by
  constructor
  intro ts item rest h
  cases ts with
  | nil => cases h
  | cons t ts =>
      rw [readItem] at h
      split at h
      · cases h
        exact Nat.lt_succ_self _
      · obtain ⟨⟨expr, rest₁⟩, hexpr, h⟩ := exists_of_bind_eq_ok h
        obtain ⟨⟨shownAs, rest₂⟩, hname, h⟩ := exists_of_bind_eq_ok h
        cases h
        exact Nat.lt_of_le_of_lt ((keeps_after consumes_expectKind.keeps).le hname) (Expr.consumes_parse.lt hexpr)

/-- The count after LIMIT, if there is one. -/
def readLimit : Reader (Option Expr) :=
  after .limit (Expr.parse [.keyword .offset, .symbol .semicolon] 0)

/-- The count after OFFSET, if there is one. -/
def readOffset : Reader (Option Expr) :=
  after .offset (Expr.parse [.keyword .limit, .symbol .semicolon] 0)

/-- LIMIT and OFFSET in either order, each at most once. -/
def readWindow : Reader (Option Expr × Option Expr) := fun ts => do
  match ← readLimit ts with
  | (some limit, rest) =>
      let (offset, rest) ← readOffset rest
      return ((some limit, offset), rest)
  | (none, rest) =>
      let (offset, rest) ← readOffset rest
      let (limit, rest) ← readLimit rest
      return ((limit, offset), rest)

/-- A selection, after its first word. -/
def readSelect : Reader Select := fun ts => do
  let (items, rest) ← separated readItem consumes_readItem (· ∈ itemStops) ts
  let (source, rest) ← after .fromWord (expectKind .identifier .sourceTable) rest
  let (condition, rest) ←
    after .whereWord (Expr.parse [.keyword .limit, .keyword .offset, .symbol .semicolon] 0) rest
  let ((limit, offset), rest) ← readWindow rest
  return (⟨items, source, condition, limit, offset⟩, rest)

/-! ## What a success takes -/

theorem keeps_readWindow : Keeps readWindow := by
  constructor
  intro ts window rest h
  obtain ⟨⟨limit, rest₁⟩, hlimit, h⟩ := exists_of_bind_eq_ok h
  have h₁ := (keeps_after Expr.consumes_parse.keeps).le hlimit
  cases limit with
  | none =>
      obtain ⟨⟨offset, rest₂⟩, hoffset, h⟩ := exists_of_bind_eq_ok h
      obtain ⟨⟨limit, rest₃⟩, hlimit, h⟩ := exists_of_bind_eq_ok h
      cases h
      exact Nat.le_trans ((keeps_after Expr.consumes_parse.keeps).le hlimit)
        (Nat.le_trans ((keeps_after Expr.consumes_parse.keeps).le hoffset) h₁)
  | some limit =>
      obtain ⟨⟨offset, rest₂⟩, hoffset, h⟩ := exists_of_bind_eq_ok h
      cases h
      exact Nat.le_trans ((keeps_after Expr.consumes_parse.keeps).le hoffset) h₁

theorem keeps_readSelect : Keeps readSelect := by
  constructor
  intro ts query rest h
  obtain ⟨⟨items, rest₁⟩, hitems, h⟩ := exists_of_bind_eq_ok h
  obtain ⟨⟨source, rest₂⟩, hsource, h⟩ := exists_of_bind_eq_ok h
  obtain ⟨⟨condition, rest₃⟩, hcondition, h⟩ := exists_of_bind_eq_ok h
  obtain ⟨⟨⟨limit, offset⟩, rest₄⟩, hwindow, h⟩ := exists_of_bind_eq_ok h
  cases h
  exact Nat.le_trans (keeps_readWindow.le hwindow)
    (Nat.le_trans ((keeps_after Expr.consumes_parse.keeps).le hcondition)
      (Nat.le_trans ((keeps_after consumes_expectKind.keeps).le hsource)
        ((keeps_separated consumes_readItem).le hitems)))

end SqlStore.Statement
