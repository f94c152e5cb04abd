import SqlStore.Proofs.Reading.Progress
import SqlStore.Proofs.Statement.Lookahead

/-!
# Progress of the grammar

Expressions and statements take at least one token, and lists of entries give none back. Every reader that calls itself
does so at a later place, so reading ends, with at most as many statements as there are tokens
(`Script.reading_advances`).
-/

namespace SqlStore

open Reading

/-! ## Expressions -/

namespace Expr

/-- What reading an expression asks for: an expression, or one that starts with a left operand already read. -/
inductive Call
  | parse (stops : List Lexeme) (floor : Nat)
  | extend (stops : List Lexeme) (floor : Nat) (left : Expr)

namespace Call

/-- The answer to a call. -/
def read : Call → Reader Expr
  | .parse stops floor => Expr.parse stops floor
  | .extend stops floor left => Expr.extend stops floor left

/-- What is read for a call, where other readers answer the calls that it makes. -/
def body (again : Call → Reader Expr) : Call → Reader Expr
  | .parse _ _, [] => .error ⟨.expression, []⟩
  | .parse stops floor, t :: ts =>
      if t.lexeme = .symbol .leftParen then do
        let (inner, rest) ← again (.parse (.symbol .rightParen :: stops) 0) ts
        let rest ← expect (.symbol .rightParen) .closingParen rest
        again (.extend stops floor inner) rest
      else if t.kind.isOperand then again (.extend stops floor (.literal t)) ts
      else .error ⟨.expression, t :: ts⟩
  | .extend _ _ left, [] => .ok (left, [])
  | .extend stops floor left, t :: ts =>
      if t.lexeme ∈ stops then .ok (left, t :: ts)
      else if isBinaryOperator t.lexeme = false then .error ⟨.operator, t :: ts⟩
      else if t.lexeme.bindingPower ≤ floor then .ok (left, t :: ts)
      else do
        let (right, rest) ← again (.parse stops t.lexeme.bindingPower) ts
        again (.extend stops floor (.binary left t right)) rest

variable {again : Call → Reader Expr} {stops : List Lexeme} {floor : Nat} {left : Expr} {ts : List Token}

theorem body_parse (h : ∀ call us, Later us ts → again call us = call.read us) :
    body again (.parse stops floor) ts = Expr.parse stops floor ts := by
  cases ts with
  | nil => rw [parse_nil, body]
  | cons t ts =>
      rw [body]
      by_cases hparen : t.lexeme = .symbol .leftParen
      · rw [if_pos hparen, parse_paren hparen, h _ ts (later_tail t ts)]
        refine bind_congr_of_ok ?_
        rintro ⟨inner, rest⟩ hinner
        refine bind_congr_of_ok fun rest' hclose => ?_
        have hrest := consumes_parse.later (parse_looksOneAhead _ _) hinner
        exact h _ rest' (hrest.of_suffix (suffix_of_expect hclose)).cons
      rw [if_neg hparen]
      cases hkind : t.kind.isOperand with
      | true => rw [if_pos rfl, parse_operand hkind, h _ ts (later_tail t ts), read]
      | false => rw [if_neg Bool.false_ne_true, parse_other hparen hkind]

theorem body_extend (h : ∀ call us, Later us ts → again call us = call.read us) :
    body again (.extend stops floor left) ts = Expr.extend stops floor left ts := by
  cases ts with
  | nil => rw [extend_nil, body]
  | cons t ts =>
      rw [body]
      by_cases hstop : t.lexeme ∈ stops
      · rw [if_pos hstop, extend_stop hstop]
      rw [if_neg hstop]
      cases hop : Operator.ofLexeme? t.lexeme with
      | none =>
          rw [extend_other hstop hop, if_pos (by simp [isBinaryOperator_eq, hop])]
      | some op =>
          rw [if_neg (by simp [isBinaryOperator_eq, hop])]
          by_cases hle : t.lexeme.bindingPower ≤ floor
          · rw [if_pos hle, extend_loose hop hle]
          · rw [if_neg hle, extend_tight hstop hop (by omega), h _ ts (later_tail t ts)]
            refine bind_congr_of_ok ?_
            rintro ⟨right, rest⟩ hright
            exact h _ rest (consumes_parse.later (parse_looksOneAhead _ _) hright).cons

theorem callsAhead : CallsAhead body read := by
  refine .of_later fun again ts h call => ?_
  cases call with
  | parse stops floor => exact body_parse h
  | extend stops floor left => exact body_extend h

end Call

end Expr

/-! ## Scripts -/

namespace Script

/-- A statement and the semicolons after it, and the statements that another reader finds then. -/
def round (again : Unit → List Token → Except Failure Script) : Unit → List Token → Except Failure Script
  | (), [] => .ok []
  | (), t :: ts => do
      let (statement, rest) ← Statement.parse (t :: ts)
      match rest with
      | [] => return [statement]
      | next :: rest =>
          if next.lexeme = .symbol .semicolon then
            let others ← again () (rest.dropWhile fun t => t.lexeme == .symbol .semicolon)
            return statement :: others
          else .error ⟨.semicolon, next :: rest⟩

theorem callsAhead : CallsAhead round fun () => read := by
  refine .of_later fun again ts h _ => ?_
  cases ts with
  | nil => rw [round, read_nil]
  | cons t ts =>
      rw [round, read_cons]
      refine bind_congr_of_ok ?_
      rintro ⟨statement, rest⟩ hstatement
      have hlater := Statement.consumes_parse.later Statement.parse_looksOneAhead hstatement
      cases rest with
      | nil => rfl
      | cons next rest =>
          have hdrop := (List.dropWhile_suffix (l := rest) fun t => t.lexeme == .symbol .semicolon)
          dsimp only
          rw [h () _ (hlater.of_suffix (hdrop.trans (List.suffix_cons next rest)))]

theorem length_le_of_read {ts : List Token} {script : Script} (h : read ts = .ok script) :
    script.length ≤ ts.length := by
  fun_induction read ts generalizing script with
  | case1 =>
      cases h
      exact Nat.le_refl _
  | case2 => cases h
  | case3 t ts statement hparse =>
      cases h
      exact Nat.succ_le_succ (Nat.zero_le _)
  | case4 t ts statement next rest hparse hnext ih =>
      obtain ⟨others, hothers, h⟩ := exists_of_bind_eq_ok h
      cases h
      have hlt := Statement.consumes_parse.lt hparse
      have hdrop := (List.dropWhile_sublist (l := rest) fun t => t.lexeme == .symbol .semicolon).length_le
      have hle := ih hothers
      simp only [List.length_cons] at *
      omega
  | case5 => cases h

open Statement in
/-- Every expression and every statement that is read ends later than it starts, and the entries of a list end no
earlier. An expression inside another one starts later than that one, each round of reading entries starts later than
the round before it, and so does each round of reading statements. So all this reading ends, and there are no more
statements than tokens. -/
theorem reading_advances :
    (∀ stops floor, Advances (Expr.parse stops floor)) ∧ Advances Statement.parse ∧
    NeverGoesBack (separated readItem consumes_readItem (· ∈ itemStops)) ∧ NeverGoesBack readValues ∧
    NeverGoesBack readColumns ∧
    CallsAhead Expr.Call.body Expr.Call.read ∧
    CallsAhead (entryRound readItem (· ∈ itemStops)) (entriesFrom readItem consumes_readItem (· ∈ itemStops)) ∧
    CallsAhead (entryRound (Expr.parse [.symbol .comma, .symbol .rightParen] 0) (· = .symbol .rightParen))
      (entriesFrom (Expr.parse [.symbol .comma, .symbol .rightParen] 0) Expr.consumes_parse (· = .symbol .rightParen)) ∧
    CallsAhead (entryRound readColumn (· = .symbol .rightParen))
      (entriesFrom readColumn consumes_readColumn (· = .symbol .rightParen)) ∧
    CallsAhead round (fun () => read) ∧
    ∀ tokens script, ofTokens tokens = .ok script → script.length ≤ tokens.length := by
  have hexpr : ∀ stops floor ts, LooksOneAhead (Expr.parse stops floor) ts := Expr.parse_looksOneAhead
  refine ⟨fun stops floor => Expr.consumes_parse.advances (hexpr stops floor),
    Statement.consumes_parse.advances parse_looksOneAhead,
    neverGoesBack (.separated consumes_readItem readItem_looksOneAhead),
    neverGoesBack (.separated Expr.consumes_parse (hexpr _ _)),
    neverGoesBack (.separated consumes_readColumn readColumn_looksOneAhead), Expr.Call.callsAhead,
    entriesFrom_callsAhead consumes_readItem readItem_looksOneAhead,
    entriesFrom_callsAhead Expr.consumes_parse (hexpr _ _),
    entriesFrom_callsAhead consumes_readColumn readColumn_looksOneAhead, Script.callsAhead, fun tokens script h => ?_⟩
  rw [ofTokens] at h
  cases hread : read tokens with
  | error f =>
      rw [hread] at h
      cases h
  | ok script' =>
      rw [hread] at h
      cases h
      exact length_le_of_read hread

end Script

end SqlStore
