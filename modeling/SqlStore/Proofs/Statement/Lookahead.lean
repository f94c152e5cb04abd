import SqlStore.Script
import SqlStore.Proofs.Reading.Lookahead

/-!
# Lookahead of expressions, statements and scripts

Every reader of the grammar looks one token ahead (`LooksOneAhead`), up to the reader of whole scripts.
-/

namespace SqlStore

open Reading

/-! ## Expressions -/

namespace Expr

/-- Reading an expression from fewer than `n` tokens, or reading on after a left operand, looks one token ahead. -/
def LooksOneAheadBelow (n : Nat) : Prop :=
  ∀ {ts : List Token}, ts.length < n → ∀ (stops : List Lexeme) (floor : Nat),
    LooksOneAhead (parse stops floor) ts ∧ ∀ left, LooksOneAhead (extend stops floor left) ts

theorem parse_looksOneAhead_succ {n : Nat} (ih : LooksOneAheadBelow n) {ts : List Token} (hlen : ts.length < n + 1)
    (stops : List Lexeme) (floor : Nat) : LooksOneAhead (parse stops floor) ts := by
  cases ts with
  | nil => exact .nil (by rw [parse_nil]; rfl)
  | cons t ts =>
      rw [List.length_cons] at hlen
      by_cases hparen : t.lexeme = .symbol .leftParen
      · refine .cons (fun us => parse_paren hparen) (.bind (ih (by omega) _ _).1 fun inner rest hinner => ?_)
        have := consumes_parse.lt hinner
        refine .expect fun rest' hclose => ?_
        have := length_le_of_expect hclose
        exact (ih (by omega) _ _).2 inner
      · cases hkind : t.kind.isOperand with
        | true => exact .cons (fun us => parse_operand hkind) ((ih (by omega) _ _).2 (.literal t))
        | false => exact .head (fun us => parse_other hparen hkind) (.fail .expression (t :: ts))

theorem extend_looksOneAhead_succ {n : Nat} (ih : LooksOneAheadBelow n) {ts : List Token} (hlen : ts.length < n + 1)
    (stops : List Lexeme) (floor : Nat) (left : Expr) : LooksOneAhead (extend stops floor left) ts := by
  cases ts with
  | nil => exact .nil (by rw [extend_nil]; rfl)
  | cons t ts =>
      rw [List.length_cons] at hlen
      by_cases hstop : t.lexeme ∈ stops
      · exact .head (fun us => extend_stop hstop) (.pure left (t :: ts))
      cases hop : Operator.ofLexeme? t.lexeme with
      | none => exact .head (fun us => extend_other hstop hop) (.fail .operator (t :: ts))
      | some op =>
          by_cases hle : t.lexeme.bindingPower ≤ floor
          · exact .head (fun us => extend_loose hop hle) (.pure left (t :: ts))
          · refine .cons (fun us => extend_tight hstop hop (by omega))
              (.bind (ih (by omega) _ _).1 fun right rest hright => ?_)
            have := consumes_parse.lt hright
            exact (ih (by omega) _ _).2 (.binary left t right)

theorem looksOneAheadBelow (n : Nat) : LooksOneAheadBelow n := by
  induction n with
  | zero => exact fun h => absurd h (Nat.not_lt_zero _)
  | succ n ih =>
      exact fun hlen stops floor =>
        ⟨parse_looksOneAhead_succ ih hlen stops floor, extend_looksOneAhead_succ ih hlen stops floor⟩

theorem parse_looksOneAhead (stops : List Lexeme) (floor : Nat) (ts : List Token) :
    LooksOneAhead (parse stops floor) ts :=
  (looksOneAheadBelow _ (Nat.lt_succ_self _) stops floor).1

end Expr

/-! ## Statements -/

namespace Statement

theorem readItem_expression {t : Token} (ht : t.lexeme ≠ .symbol .asterisk) (ts : List Token) :
    readItem (t :: ts) = (do
      let (expr, rest) ← Expr.parse (.symbol .comma :: .keyword .asWord :: itemStops) 0 (t :: ts)
      let (shownAs, rest) ← after .asWord (expectKind .identifier .aliasName) rest
      return (.expression expr shownAs, rest)) :=
  if_neg ht

theorem readItem_looksOneAhead (ts : List Token) : LooksOneAhead readItem ts := by
  cases ts with
  | nil => exact .nil rfl
  | cons t ts =>
      by_cases ht : t.lexeme = .symbol .asterisk
      · exact .cons (fun us => if_pos ht) (.pure SelectItem.allColumns ts)
      · refine .head (readItem_expression ht) (.bind (Expr.parse_looksOneAhead _ _ _) fun expr rest _ => ?_)
        exact .bind (.after (LooksOneAhead.expectKind _ _) rest) fun shownAs rest _ => .pure _ rest

theorem readLimit_looksOneAhead (ts : List Token) : LooksOneAhead readLimit ts :=
  .after (Expr.parse_looksOneAhead _ _) ts

theorem readOffset_looksOneAhead (ts : List Token) : LooksOneAhead readOffset ts :=
  .after (Expr.parse_looksOneAhead _ _) ts

theorem readWindow_looksOneAhead (ts : List Token) : LooksOneAhead readWindow ts := by
  refine .bind (readLimit_looksOneAhead ts) fun limit rest _ => ?_
  cases limit with
  | some limit => exact .bind (readOffset_looksOneAhead rest) fun offset rest _ => .pure _ rest
  | none =>
      refine .bind (readOffset_looksOneAhead rest) fun offset rest _ => ?_
      exact .bind (readLimit_looksOneAhead rest) fun limit rest _ => .pure _ rest

theorem readSelect_looksOneAhead (ts : List Token) : LooksOneAhead readSelect ts := by
  refine .bind (.separated consumes_readItem readItem_looksOneAhead ts) fun items rest _ => ?_
  refine .bind (.after (LooksOneAhead.expectKind _ _) rest) fun source rest _ => ?_
  refine .bind (.after (Expr.parse_looksOneAhead _ _) rest) fun condition rest _ => ?_
  exact .bind (readWindow_looksOneAhead rest) fun window rest _ => .pure _ rest

theorem readInsert_looksOneAhead (ts : List Token) : LooksOneAhead readInsert ts := by
  refine .expect fun rest _ => .bind (.expectKind _ _ rest) fun table rest _ => ?_
  refine .expect fun rest _ => .expect fun rest _ => ?_
  refine .bind (.separated Expr.consumes_parse (Expr.parse_looksOneAhead _ _) rest) fun values rest _ => ?_
  exact .expect fun rest _ => .pure _ rest

theorem readColumn_looksOneAhead (ts : List Token) : LooksOneAhead readColumn ts := by
  refine .bind (.expectKind _ _ ts) fun name rest _ => .bind (.expectKind _ _ rest) fun type rest _ => ?_
  cases rest with
  | nil => exact .nil rfl
  | cons t rest =>
      by_cases ht : t.lexeme = .keyword .primaryKey
      · exact .cons (fun us => if_pos ht) (.pure _ rest)
      · exact .head (fun us => if_neg ht) (.pure _ (t :: rest))

theorem readCreate_looksOneAhead (ts : List Token) : LooksOneAhead readCreate ts := by
  refine .expect fun rest _ => .bind (.expectKind _ _ rest) fun table rest _ => ?_
  cases rest with
  | nil => exact .nil rfl
  | cons t rest =>
      by_cases ht : t.lexeme = .symbol .leftParen
      · refine .cons (fun us => if_pos ht) ?_
        refine .bind (.separated consumes_readColumn readColumn_looksOneAhead rest) fun columns rest _ => ?_
        exact .expect fun rest _ => .pure _ rest
      · exact .head (fun us => if_neg ht) (.pure _ (t :: rest))

theorem readDrop_looksOneAhead (ts : List Token) : LooksOneAhead readDrop ts :=
  .expect fun rest _ => .expectKind _ _ rest

theorem parse_looksOneAhead (ts : List Token) : LooksOneAhead parse ts := by
  cases ts with
  | nil => exact .nil rfl
  | cons t ts =>
      by_cases hselect : t.lexeme = .keyword .select
      · exact .cons (fun us => if_pos hselect) (.bind (readSelect_looksOneAhead ts) fun query rest _ => .pure _ rest)
      by_cases hinsert : t.lexeme = .keyword .insert
      · exact .cons (fun us => (if_neg hselect).trans (if_pos hinsert))
          (.bind (readInsert_looksOneAhead ts) fun row rest _ => .pure _ rest)
      by_cases hcreate : t.lexeme = .keyword .create
      · exact .cons (fun us => (if_neg hselect).trans ((if_neg hinsert).trans (if_pos hcreate)))
          (.bind (readCreate_looksOneAhead ts) fun definition rest _ => .pure _ rest)
      by_cases hdrop : t.lexeme = .keyword .drop
      · exact .cons (fun us => (if_neg hselect).trans ((if_neg hinsert).trans ((if_neg hcreate).trans (if_pos hdrop))))
          (.bind (readDrop_looksOneAhead ts) fun table rest _ => .pure _ rest)
      · refine .head (fun us => ?_) (.fail .statement (t :: ts))
        rw [parse, if_neg hselect, if_neg hinsert, if_neg hcreate, if_neg hdrop]

end Statement

/-! ## Scripts -/

namespace Script

/-- A script, which leaves no token. -/
def readAll : Reader Script := fun ts => (read ts).map fun script => (script, [])

theorem readAll_cons (t : Token) (ts : List Token) :
    readAll (t :: ts) = (do
      let (statement, rest) ← Statement.parse (t :: ts)
      match rest with
      | [] => return ([statement], [])
      | next :: rest =>
          if next.lexeme = .symbol .semicolon then
            let (others, rest) ← readAll (rest.dropWhile fun t => t.lexeme == .symbol .semicolon)
            return (statement :: others, rest)
          else .error ⟨.semicolon, next :: rest⟩) := by
  rw [readAll, read_cons]
  cases Statement.parse (t :: ts) with
  | error f => rfl
  | ok answer =>
      obtain ⟨statement, rest⟩ := answer
      cases rest with
      | nil => rfl
      | cons next rest =>
          simp only [bind, Except.bind, readAll]
          split
          · cases read (rest.dropWhile fun t => t.lexeme == .symbol .semicolon) <;> rfl
          · rfl

theorem readAll_looksOneAhead (ts : List Token) : LooksOneAhead readAll ts := by
  induction hn : ts.length using Nat.strongRecOn generalizing ts with
  | ind n ih =>
      cases ts with
      | nil => exact .nil (by rw [readAll, read_nil]; rfl)
      | cons t ts =>
          refine .head (readAll_cons t) (.bind (Statement.parse_looksOneAhead _) fun statement rest hstatement => ?_)
          have hlt := Statement.consumes_parse.lt hstatement
          cases rest with
          | nil => exact .nil rfl
          | cons next rest =>
              by_cases hnext : next.lexeme = .symbol .semicolon
              · refine .cons (fun us => if_pos hnext) ?_
                have hle := (List.dropWhile_sublist (l := rest) fun t => t.lexeme == .symbol .semicolon).length_le
                simp only [List.length_cons] at hn hlt
                refine .bind (.dropWhile (ih _ ?_ _ rfl)) fun others rest _ => .pure (statement :: others) rest
                omega
              · exact .head (fun us => if_neg hnext) (.fail .semicolon (next :: rest))

end Script

end SqlStore
