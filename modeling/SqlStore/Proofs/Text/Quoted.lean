import SqlStore.Text.Quoted
import SqlStore.Proofs.Text.Offset

/-!
# Where quoted texts close

A quoted text closes at the first run of delimiters of odd length (`Quoted.readBody_isSome_iff`). A delimiter that is an
ASCII character can be looked for among the bytes of a text as well, for its byte stands in no other character
(`Quoted.read_encode`).
-/

namespace SqlStore.Text

namespace Quoted

section

variable {α : Type} {q c : α} {s text rest : List α}

/-- Somewhere a run of delimiters has odd length, so that not all of them can stand in pairs. -/
def Closes (q : α) (s : List α) : Prop :=
  ∃ before n after, s = before ++ (List.replicate (2 * n + 1) q ++ after) ∧ before.getLast? ≠ some q ∧
    after.head? ≠ some q

theorem not_closes_nil : ¬ Closes q [] := by
  rintro ⟨before, n, after, h, -⟩
  simp [List.replicate_succ] at h

theorem closes_of_head (h : s.head? ≠ some q) : Closes q (q :: s) := ⟨[], 0, s, by simp, by simp, h⟩

theorem closes_cons_of_ne (hc : c ≠ q) : Closes q (c :: s) ↔ Closes q s := by
  constructor
  · rintro ⟨before, n, after, h, hbefore, hafter⟩
    cases before with
    | nil =>
        rw [List.nil_append, List.replicate_succ, List.cons_append, List.cons.injEq] at h
        exact absurd h.1 hc
    | cons d before =>
        rw [List.cons_append, List.cons.injEq] at h
        refine ⟨before, n, after, h.2, fun hlast => hbefore ?_, hafter⟩
        rw [List.getLast?_cons, hlast]
        rfl
  · rintro ⟨before, n, after, rfl, hbefore, hafter⟩
    refine ⟨c :: before, n, after, rfl, ?_, hafter⟩
    rw [List.getLast?_cons]
    cases hlast : before.getLast? with
    | none => simpa using hc
    | some d => simpa [hlast] using hbefore

theorem replicate_odd_succ (n : Nat) (q : α) :
    List.replicate (2 * (n + 1) + 1) q = q :: q :: List.replicate (2 * n + 1) q := rfl

/-- A pair of delimiters changes nothing of how odd a run is. -/
theorem closes_cons_cons : Closes q (q :: q :: s) ↔ Closes q s := by
  constructor
  · rintro ⟨before, n, after, h, hbefore, hafter⟩
    match before with
    | [] =>
        cases n with
        | zero =>
            simp only [List.nil_append, Nat.mul_zero, Nat.zero_add, List.replicate_one, List.singleton_append,
              List.cons.injEq, true_and] at h
            simp [← h] at hafter
        | succ n =>
            rw [List.nil_append, replicate_odd_succ, List.cons_append, List.cons_append] at h
            simp only [List.cons.injEq, true_and] at h
            exact ⟨[], n, after, h, by simp, hafter⟩
    | [d] =>
        simp only [List.cons_append, List.cons.injEq] at h
        simp [← h.1] at hbefore
    | d :: e :: before =>
        simp only [List.cons_append, List.cons.injEq] at h
        refine ⟨before, n, after, h.2.2, fun hlast => hbefore ?_, hafter⟩
        simp [List.getLast?_cons, hlast]
  · rintro ⟨before, n, after, rfl, hbefore, hafter⟩
    cases before with
    | nil => exact ⟨[], n + 1, after, by simp [replicate_odd_succ], by simp, hafter⟩
    | cons d before =>
        refine ⟨q :: q :: d :: before, n, after, rfl, ?_, hafter⟩
        simpa [List.getLast?_cons] using hbefore

end

section

variable {α : Type} [DecidableEq α] {q c : α} {s text rest : List α}

theorem readBody_cons_of_ne (hc : c ≠ q) :
    readBody q (c :: s) = (readBody q s).map fun (text, rest) => (c :: text, rest) := by
  cases s with
  | nil => simp [readBody, hc]
  | cons d s => rw [readBody, if_neg hc]

theorem readBody_cons_self (hs : s.head? ≠ some q) : readBody q (q :: s) = some ([], s) := by
  cases s with
  | nil => simp [readBody]
  | cons d s => simp_all [readBody]

theorem readBody_append {as : List α} (has : q ∉ as) :
    readBody q (as ++ s) = (readBody q s).map fun (text, rest) => (as ++ text, rest) := by
  induction as with
  | nil => simp
  | cons a as ih =>
      rw [List.mem_cons, not_or] at has
      obtain ⟨ha, has⟩ := has
      rw [List.cons_append, readBody_cons_of_ne (Ne.symm ha), ih has, Option.map_map]
      rfl

/-- What stands after an opening delimiter is read exactly if it closes. -/
theorem readBody_isSome_iff : (readBody q s).isSome ↔ Closes q s := by
  fun_induction readBody q s with
  | case1 => simp [not_closes_nil]
  | case2 => simpa using closes_of_head (s := []) (by simp)
  | case3 c hc => simp [closes_cons_of_ne hc, not_closes_nil]
  | case4 s ih => rw [Option.isSome_map, ih, closes_cons_cons]
  | case5 d s hd => simpa using closes_of_head (s := d :: s) (by simpa using hd)
  | case6 c d s hc ih => rw [Option.isSome_map, ih, closes_cons_of_ne hc]

theorem read_eq_none_iff : read q s = none ↔ s.head? ≠ some q ∨ ¬ Closes q s.tail := by
  cases s with
  | nil => simp [read]
  | cons c s =>
      by_cases hc : c = q
      · simp [read, hc, ← readBody_isSome_iff]
      · simp [read, hc]

/-- There is nothing between two delimiters that no third follows. -/
theorem exists_read_eq_nil_iff :
    (∃ after, read q s = some ([], after)) ↔ s[0]? = some q ∧ s[1]? = some q ∧ s[2]? ≠ some q := by
  simp only [read_eq_some_iff, write, escape, List.cons_append, List.nil_append]
  constructor
  · rintro ⟨after, rfl, hafter⟩
    simpa [← List.head?_eq_getElem?] using hafter
  · rintro ⟨hfirst, hsecond, hthird⟩
    obtain ⟨after, rfl⟩ : ∃ after, s = q :: q :: after := by
      cases s with
      | nil => cases hfirst
      | cons c s =>
          cases s with
          | nil => cases hsecond
          | cons d after =>
              cases hfirst
              cases hsecond
              exact ⟨after, rfl⟩
    exact ⟨after, rfl, by simpa [List.head?_eq_getElem?] using hthird⟩

/-- Only the delimiters are written twice. -/
theorem count_write (hc : c ≠ q) (text : List α) : (write q text).count c = text.count c := by
  have hescape : (escape q text).count c = text.count c := by
    induction text with
    | nil => rfl
    | cons d text ih => by_cases hd : d = q <;> simp [escape, hd, List.count_cons, ih, hc.symm]
  simp [write, hescape, hc.symm]

end

/-! ## Bytes -/

section

open Utf8

variable {q c : Char} {cs : List Char} (hq : q.toNat < 128)

include hq

theorem head?_encode_ne (h : cs.head? ≠ some q) : (encode cs).head? ≠ some q.toUInt8 := by
  cases cs with
  | nil => simp [encode]
  | cons c cs =>
      intro hhead
      rw [encode_cons, List.head?_append_of_ne_nil _ (String.utf8EncodeChar_ne_nil)] at hhead
      exact h (congrArg some ((ascii_mem_encodeChar hq).1 (List.mem_of_head? hhead)))

theorem readBody_encode : readBody q.toUInt8 (encode cs) = (readBody q cs).map (Prod.map encode encode) := by
  have hencode : ∀ c, c ≠ q → q.toUInt8 ∉ String.utf8EncodeChar c := fun c hc => (ascii_mem_encodeChar hq).not.2 hc
  fun_induction readBody q cs with
  | case1 => rfl
  | case2 => simp [encode_cons, encodeChar_of_ascii hq, readBody]
  | case3 c hc =>
      rw [encode_cons, readBody_append (hencode c hc)]
      rfl
  | case4 cs ih =>
      simp only [encode_cons, encodeChar_of_ascii hq, List.singleton_append, readBody, ↓reduceIte, ih, Option.map_map]
      simp [Function.comp_def, encode_cons, encodeChar_of_ascii hq]
  | case5 d cs hd =>
      have hhead : (encode (d :: cs)).head? ≠ some q.toUInt8 := head?_encode_ne hq (by simpa using hd)
      rw [encode_cons, encodeChar_of_ascii hq, List.singleton_append, readBody_cons_self hhead]
      rfl
  | case6 c d cs hc ih =>
      rw [encode_cons, readBody_append (hencode c hc), ih, Option.map_map, Option.map_map]
      simp [Function.comp_def, encode_cons]

/-- Delimiters are found at the same places among bytes and among characters. -/
theorem read_encode : read q.toUInt8 (encode cs) = (read q cs).map (Prod.map encode encode) := by
  cases cs with
  | nil => rfl
  | cons c cs =>
      by_cases hc : c = q
      · simp [hc, encode_cons, encodeChar_of_ascii hq, read, readBody_encode hq]
      · have hhead : (encode (c :: cs)).head? ≠ some q.toUInt8 := head?_encode_ne hq (by simpa using hc)
        rw [read_eq_none_iff.2 (.inl hhead), read_eq_none_iff.2 (.inl (by simpa using hc))]
        rfl

end

end Quoted

end SqlStore.Text
