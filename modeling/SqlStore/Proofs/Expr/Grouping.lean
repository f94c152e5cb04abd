import Mathlib.Data.List.Perm.Basic
import Mathlib.Algebra.BigOperators.Group.List.Basic
import Mathlib.Algebra.Ring.Int.Defs
import SqlStore.Proofs.Expr.Boolean
import SqlStore.Table

/-!
# Chains of one operator

A chain of `||` or of `+` gives one result however its operands are grouped, and a chain of `+` in whatever order they
are taken (`Table.evaluate_grouped`). What carries this is that an operation forgets how its operands came about: it
sees their bytes, or their sum modulo `2 ^ 32` (`Operator.Gathers`).
-/

namespace SqlStore

/-! ## Cells taken together -/

namespace Cell

/-- The bytes of some cells one after another. -/
def joined (cells : List Cell) : Cell := ⟨some (cells.flatMap bytes)⟩

/-- The integer that is the sum of some cells modulo `2 ^ 32`. -/
def summed (cells : List Cell) : Cell := .ofInt (.ofInt (cells.map fun c => c.toInt.toInt).sum)

theorem toInt_of_length_lt {c : Cell} (h : c.bytes.length < 4) : c.toInt = 0 := by
  match hbytes : c.bytes, h with
  | [], _ | [_], _ | [_, _], _ | [_, _, _], _ => simp [toInt, hbytes, word?]

@[simp] theorem toInt_summed (cells : List Cell) :
    (summed cells).toInt = .ofInt (cells.map fun c => c.toInt.toInt).sum := by
  rw [summed, toInt_ofInt]

theorem summed_perm {cells others : List Cell} (h : cells.Perm others) : summed cells = summed others := by
  unfold summed
  rw [(h.map fun c => c.toInt.toInt).sum_eq]

end Cell

/-- The operation makes of two cells what `total` makes of all the cells that they stand for, so that it does not matter
how these have been taken together before. -/
structure Operator.Gathers (op : Operator) (total : List Cell → Cell) : Prop where
  operandType : op.operandType? = some op.resultType
  total_total (cells : List Cell) : total [total cells] = total cells
  cell (v w : Evaluated) (cells others : List Cell) (hv : total [v.cell] = total cells)
    (hw : total [w.cell] = total others) : op.cell v w = total (cells ++ others)

namespace Operator

theorem gathers_concat : concat.Gathers Cell.joined where
  operandType := rfl
  total_total cells := by simp [Cell.joined, Cell.bytes]
  cell v w cells others hv hw := by
    simp only [Cell.joined, Cell.mk.injEq, Option.some.injEq, List.flatMap_singleton] at hv hw
    simp [cell, Cell.concat, Cell.joined, hv, hw]

theorem gathers_plus : plus.Gathers Cell.summed where
  operandType := rfl
  total_total cells := by
    rw [Cell.summed, List.map_singleton, List.sum_singleton, Int32.ofInt_toInt, Cell.toInt_summed]
    rfl
  cell v w cells others hv hw := by
    have hv := congrArg Cell.toInt hv
    have hw := congrArg Cell.toInt hw
    simp only [Cell.toInt_summed, List.map_singleton, List.sum_singleton, Int32.ofInt_toInt] at hv hw
    simp [cell, Cell.summed, hv, hw, Int32.ofInt_add]

end Operator

/-! ## Groupings -/

namespace Expr

/-- The tree takes the operands together, in their order, by operations of one operator. -/
inductive Groups (op : Operator) : List Expr → Expr → Prop
  | operand (e : Expr) : Groups op [e] e
  | operation {ls rs : List Expr} {l r : Expr} {t : Token} (ht : t.lexeme = op.lexeme) (hl : Groups op ls l)
      (hr : Groups op rs r) : Groups op (ls ++ rs) (.binary l t r)

/-- The expression has a value of the type on the row. -/
def Gives (columns : Columns) (row : List Cell) (type : SqlType) (e : Expr) (v : Evaluated) : Prop :=
  (e.eval columns row).result = .ok v ∧ v.column.type = type

variable {columns : Columns} {row : List Cell} {op : Operator} {total : List Cell → Cell} {es : List Expr}
  {e l r : Expr} {t : Token} {u : Evaluated} {vs : List Evaluated}

theorem result_eval_operation_eq_ok_iff (hop : op.operandType? = some op.resultType) (ht : t.lexeme = op.lexeme) :
    ((binary l t r).eval columns row).result = .ok u ↔
      ∃ v w : Evaluated, Gives columns row op.resultType l v ∧ Gives columns row op.resultType r w ∧
        u = ⟨⟨anonymousColumn, op.resultType⟩, op.cell v w⟩ := by
  rw [result_eval_binary_eq_ok_iff]
  constructor
  · rintro ⟨v, w, op', hl, hr, hop', hcheck, rfl⟩
    obtain rfl : op = op' := by
      have := Operator.ofLexeme?_eq_some_iff.2 ht.symm
      rw [Operator.ofLexeme?_eq_some_iff.2 hop'.symm] at this
      exact (Option.some.inj this).symm
    obtain ⟨hv, hw⟩ := Operator.check_eq_ok_iff.1 hcheck _ hop
    exact ⟨v, w, ⟨hl, hv⟩, ⟨hr, hw⟩, rfl⟩
  · rintro ⟨v, w, ⟨hl, hv⟩, ⟨hr, hw⟩, rfl⟩
    refine ⟨v, w, op, hl, hr, ht, Operator.check_eq_ok_iff.2 ?_, rfl⟩
    intro type htype
    rw [hop] at htype
    cases htype
    exact ⟨hv, hw⟩

theorem Groups.exists_operands (h : Groups op es e) (hop : op.Gathers total)
    (hu : Gives columns row op.resultType e u) :
    ∃ vs, List.Forall₂ (Gives columns row op.resultType) es vs ∧ total [u.cell] = total (vs.map Evaluated.cell) := by
  induction h generalizing u with
  | operand e => exact ⟨[u], .cons hu .nil, rfl⟩
  | operation ht _ _ ihl ihr =>
      obtain ⟨v, w, hv, hw, rfl⟩ := (result_eval_operation_eq_ok_iff hop.operandType ht).1 hu.1
      obtain ⟨vs, hvs, hv⟩ := ihl hv
      obtain ⟨ws, hws, hw⟩ := ihr hw
      refine ⟨vs ++ ws, List.rel_append hvs hws, ?_⟩
      rw [hop.cell v w _ _ hv hw, hop.total_total, List.map_append]

theorem Groups.exists_gives (h : Groups op es e) (hop : op.Gathers total)
    (hvs : List.Forall₂ (Gives columns row op.resultType) es vs) :
    ∃ u, Gives columns row op.resultType e u ∧ total [u.cell] = total (vs.map Evaluated.cell) := by
  induction h generalizing vs with
  | operand e =>
      obtain _ | ⟨hu, _ | _⟩ := hvs
      exact ⟨_, hu, rfl⟩
  | operation ht _ _ ihl ihr =>
      obtain ⟨vs, ws, rfl, hvs, hws⟩ := exists_append_of_forall₂ hvs
      obtain ⟨v, hv, hvtotal⟩ := ihl hvs
      obtain ⟨w, hw, hwtotal⟩ := ihr hws
      refine ⟨_, ⟨(result_eval_operation_eq_ok_iff hop.operandType ht).2 ⟨v, w, hv, hw, rfl⟩, rfl⟩, ?_⟩
      rw [hop.cell v w _ _ hvtotal hwtotal, hop.total_total, List.map_append]

/-- A chain of at least two operands has a value exactly if each of them has one of the type, and then this is what they
make together. -/
theorem Groups.result_eval_eq_ok_iff (h : Groups op es e) (hop : op.Gathers total) (hes : 2 ≤ es.length) :
    (e.eval columns row).result = .ok u ↔
      ∃ vs, List.Forall₂ (Gives columns row op.resultType) es vs ∧
        u = ⟨⟨anonymousColumn, op.resultType⟩, total (vs.map Evaluated.cell)⟩ := by
  cases h with
  | operand e => simp at hes
  | operation ht hl hr =>
      rw [result_eval_operation_eq_ok_iff hop.operandType ht]
      constructor
      · rintro ⟨v, w, hv, hw, rfl⟩
        obtain ⟨vs, hvs, hvtotal⟩ := hl.exists_operands hop hv
        obtain ⟨ws, hws, hwtotal⟩ := hr.exists_operands hop hw
        refine ⟨vs ++ ws, List.rel_append hvs hws, ?_⟩
        rw [hop.cell v w _ _ hvtotal hwtotal, List.map_append]
      · rintro ⟨vs, hvs, rfl⟩
        obtain ⟨vs, ws, rfl, hvs, hws⟩ := exists_append_of_forall₂ hvs
        obtain ⟨v, hv, hvtotal⟩ := hl.exists_gives hop hvs
        obtain ⟨w, hw, hwtotal⟩ := hr.exists_gives hop hws
        refine ⟨v, w, hv, hw, ?_⟩
        rw [hop.cell v w _ _ hvtotal hwtotal, List.map_append]

/-- Chains that take the same operands together give the same value, or none of them gives one. -/
theorem Groups.toOption_eq {others : List Expr} {f : Expr} (he : Groups op es e) (hf : Groups op others f)
    (hop : op.Gathers total) (hes : 2 ≤ es.length) (hothers : es.Perm others)
    (htotal : es = others ∨ ∀ cells more, cells.Perm more → total cells = total more) :
    (e.eval columns row).result.toOption = (f.eval columns row).result.toOption := by
  have hlength : 2 ≤ others.length := hothers.length_eq ▸ hes
  apply toOption_eq_of_ok_iff
  intro u
  rw [he.result_eval_eq_ok_iff hop hes, hf.result_eval_eq_ok_iff hop hlength]
  rcases htotal with rfl | htotal
  · rfl
  · constructor
    · rintro ⟨vs, hvs, rfl⟩
      obtain ⟨ws, hws, hperm⟩ := List.perm_comp_forall₂ hothers.symm hvs
      exact ⟨ws, hws, by rw [htotal _ _ (hperm.map Evaluated.cell)]⟩
    · rintro ⟨vs, hvs, rfl⟩
      obtain ⟨ws, hws, hperm⟩ := List.perm_comp_forall₂ hothers hvs
      exact ⟨ws, hws, by rw [htotal _ _ (hperm.map Evaluated.cell)]⟩

theorem Groups.exists_eval_eq_ok_iff (h : Groups op es e) (hop : op.Gathers total) (hes : 2 ≤ es.length) :
    (∃ u, (e.eval columns row).result = .ok u) ↔ ∀ d ∈ es, ∃ v, Gives columns row op.resultType d v := by
  simp only [h.result_eval_eq_ok_iff hop hes, ← exists_forall₂_iff]
  constructor
  · rintro ⟨u, vs, hvs, -⟩
    exact ⟨vs, hvs⟩
  · rintro ⟨vs, hvs⟩
    exact ⟨_, vs, hvs, rfl⟩

end Expr

namespace Table

/-- The values of some expressions on the row of an index, each of them of the type. -/
def Values (table : Table) (row : Nat) (type : SqlType) : List Expr → List Evaluated → Prop :=
  List.Forall₂ fun e v => (table.evaluate row e).result = .ok v ∧ v.column.type = type

/-- Grouped in any way, operands with `||` between them give the text of all their bytes, and operands with `+` between
them, in any order, give the sum of their integers modulo `2 ^ 32`, an operand of fewer than four bytes being 0; either
fails if an operand has no value of the type. -/
theorem evaluate_grouped (table : Table) (row : Nat) {es : List Expr} (hes : 2 ≤ es.length) :
    (∀ e f, Expr.Groups .concat es e → Expr.Groups .concat es f →
      (table.evaluate row e).result.toOption = (table.evaluate row f).result.toOption ∧
      ((∃ u, (table.evaluate row e).result = .ok u) ↔
        ∀ d ∈ es, ∃ v, (table.evaluate row d).result = .ok v ∧ v.column.type = .text) ∧
      ∀ vs, table.Values row .text es vs →
        (table.evaluate row e).result = .ok ⟨⟨anonymousColumn, .text⟩, ⟨some (vs.flatMap (·.cell.bytes))⟩⟩) ∧
    (∀ others e f, es.Perm others → Expr.Groups .plus es e → Expr.Groups .plus others f →
      (table.evaluate row e).result.toOption = (table.evaluate row f).result.toOption ∧
      ((∃ u, (table.evaluate row e).result = .ok u) ↔
        ∀ d ∈ es, ∃ v, (table.evaluate row d).result = .ok v ∧ v.column.type = .int) ∧
      ∀ vs, table.Values row .int es vs →
        ∃ n : Int32, (table.evaluate row e).result = .ok ⟨⟨anonymousColumn, .int⟩, .ofInt n⟩ ∧
          n.toInt = Int.bmod (vs.map (·.cell.toInt.toInt)).sum (2 ^ 32)) ∧
    ∀ c : Cell, c.bytes.length < 4 → c.toInt = 0 := by
  refine ⟨fun e f he hf => ⟨?_, ?_, fun vs hvs => ?_⟩, fun others e f hothers he hf => ⟨?_, ?_, fun vs hvs => ?_⟩,
    fun _ => Cell.toInt_of_length_lt⟩
  · exact he.toOption_eq hf Operator.gathers_concat hes (.refl es) (.inl rfl)
  · exact he.exists_eval_eq_ok_iff Operator.gathers_concat hes
  · apply (he.result_eval_eq_ok_iff Operator.gathers_concat hes).2
    exact ⟨vs, hvs, by simp [Cell.joined, List.flatMap_map, Operator.resultType]⟩
  · exact he.toOption_eq hf Operator.gathers_plus hes hothers (.inr fun _ _ => Cell.summed_perm)
  · exact he.exists_eval_eq_ok_iff Operator.gathers_plus hes
  · refine ⟨.ofInt (vs.map fun v => v.cell.toInt.toInt).sum, ?_, Int32.toInt_ofInt⟩
    apply (he.result_eval_eq_ok_iff Operator.gathers_plus hes).2
    exact ⟨vs, hvs, by simp [Cell.summed, Function.comp_def, Operator.resultType]⟩

/-- Three integers, one of which is not there and one of which is too short, and a sum that wraps around. -/
theorem evaluate_grouped_wrapping :
    let table : Table := ⟨⟨["a", "b", "c"], [.int, .int, .int]⟩, [[.ofInt 2147483647, .empty, ⟨some [7]⟩]], none⟩
    let name (s : String) : Expr := .literal (.ofLexeme (.identifier s))
    let plus (l r : Expr) : Expr := .binary l (.ofLexeme (.symbol .plus)) r
    let one : Expr := .literal (.ofLexeme ⟨.numeric, "1"⟩)
    2 ≤ [name "a", name "b", name "c", one].length ∧
      (table.evaluate 0 (plus (plus (plus (name "a") (name "b")) (name "c")) one)).result.toOption =
        some ⟨⟨anonymousColumn, .int⟩, .ofInt (-2147483648)⟩ ∧
      (table.evaluate 0 (plus (plus (name "b") one) (plus (name "c") (name "a")))).result.toOption =
        some ⟨⟨anonymousColumn, .int⟩, .ofInt (-2147483648)⟩ := by
  intro table name plus one
  have hleft : Expr.Groups .plus [name "a", name "b", name "c", one]
      (plus (plus (plus (name "a") (name "b")) (name "c")) one) :=
    .operation rfl (.operation rfl (.operation rfl (.operand _) (.operand _)) (.operand _)) (.operand _)
  have hother : Expr.Groups .plus [name "b", one, name "c", name "a"]
      (plus (plus (name "b") one) (plus (name "c") (name "a"))) :=
    .operation rfl (.operation rfl (.operand _) (.operand _)) (.operation rfl (.operand _) (.operand _))
  have hperm : [name "a", name "b", name "c", one].Perm [name "b", one, name "c", name "a"] := by decide
  have hsame := ((table.evaluate_grouped 0 (by decide)).2.1 _ _ _ hperm hleft hother).1
  exact ⟨by decide, rfl, hsame ▸ rfl⟩

end Table

end SqlStore
