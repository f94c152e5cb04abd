import Mathlib.Logic.Function.Iterate
import SqlStore.Proofs.Reading.Lookahead

/-!
# Progress

A reader leaves the tokens from some later place on (`Advances`). A recursion over tokens makes each of its calls at a
later place than the call that makes it (`CallsAhead`): what would be answered to a call anywhere else is never asked
for. So the calls do not nest deeper than there are tokens (`CallsAhead.ends`).
-/

namespace SqlStore.Reading

variable {ι α β : Type}

/-! ## Places -/

/-- From whatever place it starts, a success leads to a later place among the tokens. -/
def Advances (item : Reader α) : Prop :=
  ∀ (tokens : List Token) (c : Nat), c ≤ tokens.length → ∀ a rest, item (tokens.drop c) = .ok (a, rest) →
    ∃ next, c < next ∧ next ≤ tokens.length ∧ rest = tokens.drop next

/-- From whatever place it starts, a success leads to no earlier place. -/
def NeverGoesBack (item : Reader α) : Prop :=
  ∀ (tokens : List Token) (c : Nat), c ≤ tokens.length → ∀ a rest, item (tokens.drop c) = .ok (a, rest) →
    ∃ next, c ≤ next ∧ next ≤ tokens.length ∧ rest = tokens.drop next

/-- The first tokens are what is left of the others, without at least one of them. -/
def Later (us ts : List Token) : Prop := us <:+ ts ∧ us.length < ts.length

section

variable {item : Reader α} {t : Token} {us ts tokens rest : List Token} {a : α} {c : Nat}

theorem later_cons (h : us <:+ ts) : Later us (t :: ts) :=
  ⟨h.trans (List.suffix_cons t ts), Nat.lt_succ_of_le h.length_le⟩

theorem later_tail (t : Token) (ts : List Token) : Later ts (t :: ts) := later_cons (List.suffix_refl ts)

theorem Later.cons (h : Later us ts) : Later us (t :: ts) := later_cons h.1

theorem Later.of_suffix (h : rest <:+ us) (hus : Later us ts) : Later rest ts :=
  ⟨h.trans hus.1, Nat.lt_of_le_of_lt h.length_le hus.2⟩

theorem exists_drop_of_suffix (h : us <:+ tokens.drop c) (hc : c ≤ tokens.length) :
    ∃ next, c ≤ next ∧ next ≤ tokens.length ∧ us = tokens.drop next := by
  have hlength := h.length_le
  rw [List.length_drop] at hlength
  refine ⟨tokens.length - us.length, by omega, by omega, ?_⟩
  exact List.suffix_iff_eq_drop.1 (h.trans (List.drop_suffix c tokens))

theorem Later.exists_drop (h : Later us (tokens.drop c)) (hc : c ≤ tokens.length) :
    ∃ next, c < next ∧ next ≤ tokens.length ∧ us = tokens.drop next := by
  obtain ⟨next, hle, hnext, rfl⟩ := exists_drop_of_suffix h.1 hc
  have hlt := h.2
  rw [List.length_drop, List.length_drop] at hlt
  exact ⟨next, by omega, hnext, rfl⟩

theorem suffix_of_looksOneAhead (h : LooksOneAhead item ts) (hok : item ts = .ok (a, rest)) : rest <:+ ts := by
  obtain ⟨taken, hts, -⟩ := h
  rw [hok] at hts
  exact ⟨taken, hts.symm⟩

theorem suffix_of_expect {l : Lexeme} {expected : Expectation} (h : expect l expected ts = .ok rest) : rest <:+ ts := by
  obtain ⟨t, rfl, -⟩ := expect_eq_ok.1 h
  exact List.suffix_cons t rest

theorem Consumes.later (hitem : Consumes item) (hlook : ∀ us, LooksOneAhead item us) (hok : item ts = .ok (a, rest)) :
    Later rest ts :=
  ⟨suffix_of_looksOneAhead (hlook ts) hok, hitem.lt hok⟩

theorem Consumes.advances (hitem : Consumes item) (hlook : ∀ us, LooksOneAhead item us) : Advances item :=
  fun _ _ hc _ _ hok => (hitem.later hlook hok).exists_drop hc

theorem neverGoesBack (hlook : ∀ us, LooksOneAhead item us) : NeverGoesBack item :=
  fun _ _ hc _ _ hok => exists_drop_of_suffix (suffix_of_looksOneAhead (hlook _) hok) hc

end

/-! ## Calls -/

/-- The answers are what the body makes of them, with every call of the body at a later place than its own: a body that
is given other answers anywhere else makes the same of them. However the innermost calls are answered, a body that
calls itself more often than there are tokens gives the answers. -/
structure CallsAhead (body : (ι → List Token → β) → ι → List Token → β) (answer : ι → List Token → β) : Prop where
  ahead : ∀ (again : ι → List Token → β) (tokens : List Token) (c : Nat), c ≤ tokens.length →
    (∀ j next, c < next → next ≤ tokens.length → again j (tokens.drop next) = answer j (tokens.drop next)) →
    ∀ i, body again i (tokens.drop c) = answer i (tokens.drop c)
  ends : ∀ (innermost : ι → List Token → β) (n : Nat) (i : ι) (ts : List Token), ts.length < n →
    (body^[n] innermost) i ts = answer i ts

section

variable {body : (ι → List Token → β) → ι → List Token → β} {answer : ι → List Token → β}

theorem CallsAhead.of_later (h : ∀ (again : ι → List Token → β) (ts : List Token),
    (∀ j us, Later us ts → again j us = answer j us) → ∀ i, body again i ts = answer i ts) : CallsAhead body answer where
  ahead := by
    intro again tokens c hc hagain
    refine h again _ fun j us hus => ?_
    obtain ⟨next, hlt, hnext, rfl⟩ := hus.exists_drop hc
    exact hagain j next hlt hnext
  ends := by
    intro innermost n
    induction n with
    | zero => exact fun i ts hts => absurd hts (Nat.not_lt_zero _)
    | succ n ih =>
        intro i ts hts
        rw [Function.iterate_succ_apply']
        exact h _ ts (fun j us hus => ih j us (by have := hus.2; omega)) i

end

/-- Of two steps, the second is asked for what the first leaves. -/
theorem bind_congr_of_ok {ε : Type} {x : Except ε α} {f g : α → Except ε β} (h : ∀ a, x = .ok a → f a = g a) :
    (x >>= f) = (x >>= g) := by
  cases x with
  | error e => rfl
  | ok a => exact h a rfl

/-! ## Entries between commas -/

section

variable {item : Reader α} (hitem : Consumes item) {closes : Lexeme → Bool} {t : Token} {ts : List Token}

/-- The entries from the first one on, or those after an entry. -/
def entriesFrom (item : Reader α) (hitem : Consumes item) (closes : Lexeme → Bool) : Bool → Reader (List α)
  | true => separated item hitem closes
  | false => more item hitem closes

/-- An entry, and the entries that another reader finds after it. -/
def entryThen (item : Reader α) (others : Reader (List α)) : Reader (List α) := fun ts => do
  let (a, rest) ← item ts
  let (as, rest) ← others rest
  return (a :: as, rest)

/-- One round of reading entries: it ends with a token that `closes` or the last token, and else reads an entry, which
is the first one or stands after a comma. -/
def entryRound (item : Reader α) (closes : Lexeme → Bool) (again : Bool → Reader (List α)) (isFirst : Bool) :
    Reader (List α)
  | [] => .ok ([], [])
  | t :: ts =>
      if closes t.lexeme then .ok ([], t :: ts)
      else do
        let rest ← if isFirst then .ok (t :: ts) else expect (.symbol .comma) .comma (t :: ts)
        entryThen item (again false) rest

include hitem

theorem entryThen_congr (hlook : ∀ us, LooksOneAhead item us) {others others' : Reader (List α)}
    (h : ∀ rest, Later rest ts → others rest = others' rest) : entryThen item others ts = entryThen item others' ts := by
  refine bind_congr_of_ok ?_
  rintro ⟨a, rest⟩ hok
  dsimp only
  rw [h rest (hitem.later hlook hok)]

/-- The round after an entry starts later than the entry. -/
theorem entriesFrom_callsAhead (hlook : ∀ us, LooksOneAhead item us) :
    CallsAhead (entryRound item closes) (entriesFrom item hitem closes) := by
  refine .of_later fun again ts hagain isFirst => ?_
  cases ts with
  | nil => cases isFirst <;> simp [entryRound, entriesFrom, separated]
  | cons t ts =>
      rw [entryRound]
      by_cases hclose : closes t.lexeme = true
      · rw [if_pos hclose]
        cases isFirst with
        | true => exact (if_pos hclose).symm
        | false => exact (more_closes hitem hclose).symm
      rw [if_neg hclose]
      rw [Bool.not_eq_true] at hclose
      cases isFirst with
      | true =>
          rw [entriesFrom, separated_open hitem hclose]
          exact entryThen_congr hitem hlook (hagain false)
      | false =>
          by_cases hcomma : t.lexeme = .symbol .comma
          · rw [entriesFrom, more_comma hitem hclose hcomma, expect, if_pos hcomma]
            exact entryThen_congr hitem hlook fun rest hrest => hagain false rest hrest.cons
          · rw [entriesFrom, more_other hitem hclose hcomma, expect, if_neg hcomma]
            rfl

end

end SqlStore.Reading
