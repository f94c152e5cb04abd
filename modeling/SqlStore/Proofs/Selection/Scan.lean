import SqlStore.Selection
import SqlStore.Proofs.Sequence

/-!
# Scans

What `Select.scan` goes through, counted instead of looped: a row is reached as long as the rows kept before it do
not fill the limit, and it is shown if it is kept and as many kept rows as are skipped stand before it. The first
row reached that fails decides the error (`scanned_scan`).
-/

namespace SqlStore.Select

open Reading

/-- The first entries, up to a limit. -/
def upTo {α : Type} (limit : Option Nat) (as : List α) : List α :=
  match limit with
  | none => as
  | some n => as.take n

section

variable (query : Select) (columns : Columns)

/-- The condition is true on the row. -/
def holdsOn (row : List Cell) : Bool :=
  match (query.keeps columns row).result with
  | .ok kept => kept
  | .error _ => false

/-- The rows before the index that are kept. -/
def keptBefore (rows : List (List Cell)) (i : Nat) : Nat := (rows.take i).countP (query.holdsOn columns)

/-- The rows before the index, without those skipped, do not fill the limit. -/
def Reaches (limit : Option Nat) (skip : Nat) (rows : List (List Cell)) (i : Nat) : Prop :=
  ∀ n ∈ limit, query.keptBefore columns rows i - skip < n

/-- The row of the index is reached and fails: in its condition, or in its items if it would be shown. -/
inductive RowFails (limit : Option Nat) (skip : Nat) (rows : List (List Cell)) (i : Nat) : StoreError → Prop
  | condition {row : List Cell} {e : StoreError} (hrow : rows[i]? = some row)
      (hreached : query.Reaches columns limit skip rows i) (h : (query.keeps columns row).result = .error e) :
      RowFails limit skip rows i e
  | items {row : List Cell} {e : StoreError} (hrow : rows[i]? = some row)
      (hreached : query.Reaches columns limit skip rows i) (hkept : query.holdsOn columns row = true)
      (hskip : skip ≤ query.keptBefore columns rows i) (h : (query.project columns row).result = .error e) :
      RowFails limit skip rows i e

/-- What a scan gives: if no row fails, the projections of the kept rows without those skipped, up to the limit, and
otherwise the error of the first row that fails. -/
inductive Scanned (limit : Option Nat) (skip : Nat) (rows : List (List Cell)) :
    Except StoreError (List (List Evaluated)) → Prop
  | shown {shown : List (List Evaluated)} (hnone : ∀ i e, ¬ query.RowFails columns limit skip rows i e)
      (hshown : List.Forall₂ (fun row values => (query.project columns row).result = .ok values)
        (upTo limit ((rows.filter (query.holdsOn columns)).drop skip)) shown) :
      Scanned limit skip rows (.ok shown)
  | failed {i : Nat} {e : StoreError} (h : query.RowFails columns limit skip rows i e)
      (hfirst : ∀ j < i, ∀ e', ¬ query.RowFails columns limit skip rows j e') : Scanned limit skip rows (.error e)

end

variable {query : Select} {columns : Columns} {row : List Cell} {rows : List (List Cell)} {limit : Option Nat}
  {skip i : Nat} {e : StoreError}

theorem RowFails.unique {e' : StoreError} (h : query.RowFails columns limit skip rows i e)
    (h' : query.RowFails columns limit skip rows i e') : e = e' := by
  have hholds : ∀ {row e}, (query.keeps columns row).result = .error e → query.holdsOn columns row = false := by
    intro row e h
    rw [holdsOn, h]
  rcases h with ⟨hrow, _, h⟩ | ⟨hrow, _, hkept, _, h⟩ <;> rcases h' with ⟨hrow', _, h'⟩ | ⟨hrow', _, hkept', _, h'⟩
  all_goals
    rw [hrow] at hrow'
    cases hrow'
  · exact Except.error.inj (h.symm.trans h')
  · simp [hholds h] at hkept'
  · simp [hholds h'] at hkept
  · exact Except.error.inj (h.symm.trans h')

theorem keptBefore_cons_succ (row : List Cell) (rows : List (List Cell)) (i : Nat) :
    query.keptBefore columns (row :: rows) (i + 1) =
      query.keptBefore columns rows i + if query.holdsOn columns row then 1 else 0 := by
  rw [keptBefore, List.take_succ_cons, List.countP_cons]
  rfl

theorem not_rowFails_of_limit_zero (rows : List (List Cell)) : ¬ query.RowFails columns (some 0) skip rows i e := by
  rintro (⟨_, hreached, _⟩ | ⟨_, hreached, _, _, _⟩) <;> exact Nat.not_lt_zero _ (hreached 0 rfl)

theorem rowFails_cons_zero (hlimit : limit ≠ some 0) :
    query.RowFails columns limit skip (row :: rows) 0 e ↔
      (query.keeps columns row).result = .error e ∨
        query.holdsOn columns row = true ∧ skip = 0 ∧ (query.project columns row).result = .error e := by
  have hreached : query.Reaches columns limit skip (row :: rows) 0 := by
    intro n hn
    have : n ≠ 0 := by
      rintro rfl
      exact hlimit hn
    simp [keptBefore]
    omega
  constructor
  · rintro (⟨hrow, _, h⟩ | ⟨hrow, _, hkept, hskip, h⟩)
    · cases hrow
      exact .inl h
    · cases hrow
      exact .inr ⟨hkept, Nat.le_zero.1 hskip, h⟩
  · rintro (h | ⟨hkept, rfl, h⟩)
    · exact .condition rfl hreached h
    · exact .items rfl hreached hkept (Nat.zero_le _) h

/-- A later row fails as it does without the first one, with the limit and the rows to skip that are then left. -/
theorem rowFails_cons_succ {limit' : Option Nat} {skip' : Nat}
    (hreaches : query.Reaches columns limit skip (row :: rows) (i + 1) ↔ query.Reaches columns limit' skip' rows i)
    (hskips : skip ≤ query.keptBefore columns (row :: rows) (i + 1) ↔ skip' ≤ query.keptBefore columns rows i) :
    query.RowFails columns limit skip (row :: rows) (i + 1) e ↔ query.RowFails columns limit' skip' rows i e := by
  constructor
  · rintro (⟨hrow, hreached, h⟩ | ⟨hrow, hreached, hkept, hskip, h⟩)
    · exact .condition hrow (hreaches.1 hreached) h
    · exact .items hrow (hreaches.1 hreached) hkept (hskips.1 hskip) h
  · rintro (⟨hrow, hreached, h⟩ | ⟨hrow, hreached, hkept, hskip, h⟩)
    · exact .condition hrow (hreaches.2 hreached) h
    · exact .items hrow (hreaches.2 hreached) hkept (hskips.2 hskip) h

section

variable {limit' : Option Nat} {skip' : Nat} {answer : Except StoreError (List (List Evaluated))}
  (hfirst : ∀ e, ¬ query.RowFails columns limit skip (row :: rows) 0 e)
  (hreaches : ∀ i, query.Reaches columns limit skip (row :: rows) (i + 1) ↔ query.Reaches columns limit' skip' rows i)
  (hskips : ∀ i, skip ≤ query.keptBefore columns (row :: rows) (i + 1) ↔ skip' ≤ query.keptBefore columns rows i)

include hfirst hreaches hskips

theorem not_rowFails_cons (h : ∀ i e, ¬ query.RowFails columns limit' skip' rows i e) (i : Nat) (e : StoreError) :
    ¬ query.RowFails columns limit skip (row :: rows) i e := by
  cases i with
  | zero => exact hfirst e
  | succ i => exact fun hfail => h i e ((rowFails_cons_succ (hreaches i) (hskips i)).1 hfail)

theorem Scanned.failed_cons (h : query.RowFails columns limit' skip' rows i e)
    (hearlier : ∀ j < i, ∀ e', ¬ query.RowFails columns limit' skip' rows j e') :
    query.Scanned columns limit skip (row :: rows) (.error e) := by
  refine .failed ((rowFails_cons_succ (hreaches i) (hskips i)).2 h) fun j hj e' hfail => ?_
  cases j with
  | zero => exact hfirst e' hfail
  | succ j => exact hearlier j (Nat.lt_of_succ_lt_succ hj) e' ((rowFails_cons_succ (hreaches j) (hskips j)).1 hfail)

theorem Scanned.cons_of_passed (h : query.Scanned columns limit' skip' rows answer)
    (hwindow : upTo limit (((row :: rows).filter (query.holdsOn columns)).drop skip) =
      upTo limit' ((rows.filter (query.holdsOn columns)).drop skip')) :
    query.Scanned columns limit skip (row :: rows) answer := by
  cases h with
  | shown hnone hshown =>
      exact .shown (not_rowFails_cons hfirst hreaches hskips hnone) (hwindow ▸ hshown)
  | failed h hearlier => exact .failed_cons hfirst hreaches hskips h hearlier

/-- A row that is shown stands before the others, if they do not fail. -/
theorem Scanned.cons_of_shown {values : List Evaluated} (h : query.Scanned columns limit' skip' rows answer)
    (hproject : (query.project columns row).result = .ok values)
    (hwindow : upTo limit (((row :: rows).filter (query.holdsOn columns)).drop skip) =
      row :: upTo limit' ((rows.filter (query.holdsOn columns)).drop skip')) :
    query.Scanned columns limit skip (row :: rows) (answer.map (values :: ·)) := by
  cases h with
  | shown hnone hshown =>
      exact .shown (not_rowFails_cons hfirst hreaches hskips hnone) (hwindow ▸ .cons hproject hshown)
  | failed h hearlier => exact .failed_cons hfirst hreaches hskips h hearlier

end

theorem bind_pure_cons (values : List Evaluated) (x : Except StoreError (List (List Evaluated))) :
    (do let others ← x; return values :: others) = x.map (values :: ·) := by
  cases x <;> rfl

theorem upTo_cons {α : Type} {a : α} {as : List α} (hlimit : limit ≠ some 0) :
    upTo limit (a :: as) = a :: upTo (limit.map (· - 1)) as := by
  match limit, hlimit with
  | none, _ => rfl
  | some (n + 1), _ => rfl

theorem reaches_cons_succ (hlimit : limit ≠ some 0)
    (hcount : query.keptBefore columns (row :: rows) (i + 1) = query.keptBefore columns rows i + 1) :
    query.Reaches columns limit 0 (row :: rows) (i + 1) ↔ query.Reaches columns (limit.map (· - 1)) 0 rows i := by
  match limit, hlimit with
  | none, _ => simp [Reaches]
  | some (n + 1), _ => simp [Reaches, hcount]

/-- A scan gives what its rows, counted, say. -/
theorem scanned_scan (query : Select) (columns : Columns) (limit : Option Nat) (skip : Nat)
    (rows : List (List Cell)) : query.Scanned columns limit skip rows (query.scan columns limit skip rows).result := by
  -- on the rows, with the limit and the number of rows to skip that are left for them
  induction rows generalizing limit skip with
  | nil =>
      refine .shown (fun i e => ?_) (by cases limit <;> simp [upTo])
      rintro (⟨hrow, _, _⟩ | ⟨hrow, _, _, _, _⟩) <;> simp at hrow
  | cons row rows ih =>
      rw [result_scan_cons]
      by_cases hlimit : limit = some 0
      · rw [if_pos hlimit, hlimit]
        exact .shown (fun i e => not_rowFails_of_limit_zero _) (by simp [upTo])
      rw [if_neg hlimit]
      cases hkeeps : (query.keeps columns row).result with
      | error e =>
          exact .failed ((rowFails_cons_zero hlimit).2 (.inl hkeeps)) (fun j hj => absurd hj (Nat.not_lt_zero j))
      | ok kept =>
          have hholds : query.holdsOn columns row = kept := by rw [holdsOn, hkeeps]
          cases kept with
          | false =>
              have hcount : ∀ i, query.keptBefore columns (row :: rows) (i + 1) = query.keptBefore columns rows i := by
                intro i
                rw [keptBefore_cons_succ, hholds]
                rfl
              refine (ih limit skip).cons_of_passed (fun e => ?_) (fun i => ?_) (fun i => ?_) ?_
              · rw [rowFails_cons_zero hlimit, hkeeps, hholds]
                simp
              · simp only [Reaches, hcount]
              · rw [hcount]
              · rw [List.filter_cons, hholds]
                rfl
          | true =>
              have hcount : ∀ i, query.keptBefore columns (row :: rows) (i + 1) =
                  query.keptBefore columns rows i + 1 := by
                intro i
                rw [keptBefore_cons_succ, hholds]
                rfl
              have hfilter : (row :: rows).filter (query.holdsOn columns) = row :: rows.filter (query.holdsOn columns) := by
                rw [List.filter_cons, if_pos hholds]
              cases skip with
              | succ skip =>
                  refine (ih limit skip).cons_of_passed (fun e => ?_) (fun i => ?_) (fun i => ?_) ?_
                  · rw [rowFails_cons_zero hlimit, hkeeps]
                    simp
                  · simp only [Reaches, hcount, Nat.add_sub_add_right]
                  · rw [hcount, Nat.add_le_add_iff_right]
                  · rw [hfilter, List.drop_succ_cons]
              | zero =>
                  cases hproject : (query.project columns row).result with
                  | error e =>
                      have hfail : query.RowFails columns limit 0 (row :: rows) 0 e :=
                        (rowFails_cons_zero hlimit).2 (.inr ⟨hholds, rfl, hproject⟩)
                      exact .failed hfail (fun j hj => absurd hj (Nat.not_lt_zero j))
                  | ok values =>
                      change query.Scanned columns limit 0 (row :: rows)
                        (do let others ← (query.scan columns (limit.map (· - 1)) 0 rows).result; return values :: others)
                      rw [bind_pure_cons]
                      refine (ih (limit.map (· - 1)) 0).cons_of_shown (fun e => ?_) (fun i => ?_) (fun i => ?_) hproject ?_
                      · rw [rowFails_cons_zero hlimit, hkeeps, hproject]
                        simp
                      · exact reaches_cons_succ hlimit (hcount i)
                      · simp
                      · rw [hfilter, List.drop_zero, List.drop_zero, upTo_cons hlimit]

end SqlStore.Select
