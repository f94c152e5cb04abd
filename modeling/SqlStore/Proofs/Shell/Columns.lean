import Mathlib.Data.List.Basic
import SqlStore.Shell.Layout

/-!
# Columns of a line of dashes

The line of dashes of a printed table has a cross between any two columns and nowhere else
(`offsetsOf_separator_cons_cons`). Pieces of text that are as long as the columns are wide are found again where the
line of dashes has its columns, whatever three characters stand between them (`columnsOf_intercalate`,
`gap_prefix_of_mem`).
-/

namespace SqlStore.Shell

/-- What stands between two columns in the line of dashes. -/
abbrev cross : List Char := ['-', '+', '-']

/-- What stands between two columns in every other line. -/
abbrev bar : List Char := [' ', '|', ' ']

/-- The offsets, from left to right, at which a text has a piece. -/
def offsetsOf (piece text : List Char) : List Nat :=
  (List.range text.length).filter fun o => piece.isPrefixOf (text.drop o)

/-- What a text has from one offset on: its parts before, between and after some offsets, at each of which three
characters are left out. -/
def partsFrom (start : Nat) (text : List Char) : List Nat → List (List Char)
  | [] => [text.drop start]
  | o :: os => (text.take o).drop start :: partsFrom (o + 3) text os

/-- The parts of a text where the line of dashes has its columns. -/
def columnsOf (dashes text : List Char) : List (List Char) := partsFrom 0 text (offsetsOf cross dashes)

/-! ## Crosses -/

section

variable {piece text rest : List Char} {c : Char}

theorem offsetsOf_cons_of_prefix (h : piece <+: c :: text) :
    offsetsOf piece (c :: text) = 0 :: (offsetsOf piece text).map (· + 1) := by
  rw [offsetsOf, List.length_cons, List.range_succ_eq_map, List.filter_cons_of_pos (by simpa using h), List.filter_map]
  rfl

theorem offsetsOf_cons_of_not_prefix (h : ¬ piece <+: c :: text) :
    offsetsOf piece (c :: text) = (offsetsOf piece text).map (· + 1) := by
  rw [offsetsOf, List.length_cons, List.range_succ_eq_map, List.filter_cons_of_neg (by simpa using h), List.filter_map]
  rfl

theorem not_begins_cross (h : rest.head? ≠ some '+') : ¬ cross <+: '-' :: rest := by
  rintro ⟨more, hmore⟩
  simp [← (List.cons.inj hmore).2] at h

theorem offsetsOf_dashes (w : Nat) (h : rest.head? ≠ some '+') :
    offsetsOf cross (List.replicate w '-' ++ rest) = (offsetsOf cross rest).map (· + w) := by
  induction w with
  | zero => simp
  | succ w ih =>
      -- behind a dash comes another dash or the rest, so no cross begins at it
      have hhead : (List.replicate w '-' ++ rest).head? ≠ some '+' := by
        cases w with
        | zero => exact h
        | succ w => simp [List.replicate_succ]
      rw [List.replicate_succ, List.cons_append, offsetsOf_cons_of_not_prefix (not_begins_cross hhead), ih,
        List.map_map]
      rfl

theorem offsetsOf_cross (h : rest.head? ≠ some '+') :
    offsetsOf cross (cross ++ rest) = 0 :: (offsetsOf cross rest).map (· + 3) := by
  have hplus : ¬ cross <+: '+' :: '-' :: rest := by simp
  have hcross : cross <+: '-' :: '+' :: '-' :: rest := List.prefix_append cross rest
  have happend : cross ++ rest = '-' :: '+' :: '-' :: rest := rfl
  rw [happend, offsetsOf_cons_of_prefix hcross, offsetsOf_cons_of_not_prefix hplus,
    offsetsOf_cons_of_not_prefix (not_begins_cross h), List.map_map, List.map_map]
  rfl

theorem separator_cons_cons (w w' : Nat) (ws : List Nat) :
    separator (w :: w' :: ws) = List.replicate w '-' ++ (cross ++ separator (w' :: ws)) := by
  simp [separator]

theorem head?_separator (ws : List Nat) : (separator ws).head? ≠ some '+' := by
  match ws with
  | [] => simp [separator]
  | [w] => cases w <;> simp [separator, List.replicate_succ]
  | w :: w' :: ws =>
      rw [separator_cons_cons]
      cases w <;> simp [List.replicate_succ]

theorem offsetsOf_separator_singleton (w : Nat) : offsetsOf cross (separator [w]) = [] := by
  have h : offsetsOf cross (List.replicate w '-' ++ []) = [] := offsetsOf_dashes w (by simp)
  rw [List.append_nil] at h
  rw [separator, List.map_singleton, List.intercalate_singleton, h]

/-- The first cross is behind the dashes of the first column, and the others are as far apart as if it was not there. -/
theorem offsetsOf_separator_cons_cons (w w' : Nat) (ws : List Nat) :
    offsetsOf cross (separator (w :: w' :: ws)) =
      w :: (offsetsOf cross (separator (w' :: ws))).map (· + (w + 3)) := by
  have hhead := head?_separator (w' :: ws)
  rw [separator_cons_cons, offsetsOf_dashes w (by simp), offsetsOf_cross hhead, List.map_cons, List.map_map,
    Nat.zero_add]
  simp [Function.comp_def, Nat.add_assoc, Nat.add_comm 3 w]

theorem length_offsetsOf_separator (ws : List Nat) : (offsetsOf cross (separator ws)).length = ws.length - 1 := by
  induction ws with
  | nil => rfl
  | cons w ws ih =>
      cases ws with
      | nil => rw [offsetsOf_separator_singleton]; rfl
      | cons w' ws => simpa [offsetsOf_separator_cons_cons] using ih

end

/-! ## Pieces side by side -/

section

variable {gap : List Char} {pieces : List (List Char)}

theorem partsFrom_append (before text : List Char) (start : Nat) (os : List Nat) :
    partsFrom (start + before.length) (before ++ text) (os.map (· + before.length)) = partsFrom start text os := by
  induction os generalizing start with
  | nil => simp [partsFrom, Nat.add_comm start]
  | cons o os ih =>
      have hnext := ih (o + 3)
      rw [Nat.add_right_comm] at hnext
      rw [List.map_cons, partsFrom, partsFrom, hnext, Nat.add_comm o, List.take_length_add_append, Nat.add_comm start,
        List.drop_length_add_append]

theorem columnsOf_cons_cons (hgap : gap.length = 3) (piece rest : List Char) (w : Nat) (ws : List Nat) :
    columnsOf (separator (piece.length :: w :: ws)) (piece ++ gap ++ rest) =
      piece :: columnsOf (separator (w :: ws)) rest := by
  have hrest := partsFrom_append (piece ++ gap) rest 0 (offsetsOf cross (separator (w :: ws)))
  rw [List.length_append, hgap, Nat.zero_add] at hrest
  rw [columnsOf, offsetsOf_separator_cons_cons, partsFrom, hrest, columnsOf]
  simp

/-- Pieces with a gap between any two are found where the line of dashes for their lengths has its columns. -/
theorem columnsOf_intercalate (hgap : gap.length = 3) (hne : pieces ≠ []) :
    columnsOf (separator (pieces.map List.length)) (gap.intercalate pieces) = pieces := by
  induction pieces with
  | nil => exact absurd rfl hne
  | cons piece pieces ih =>
      cases pieces with
      | nil => simp [columnsOf, offsetsOf_separator_singleton, partsFrom]
      | cons piece' pieces =>
          rw [List.intercalate_cons_cons, List.map_cons, List.map_cons, columnsOf_cons_cons hgap]
          exact congrArg (piece :: ·) (ih (by simp))

/-- The columns of the line of dashes itself are its runs of dashes. -/
theorem columnsOf_separator {ws : List Nat} (hne : ws ≠ []) :
    columnsOf (separator ws) (separator ws) = ws.map fun w => List.replicate w '-' := by
  have hlengths : (ws.map fun w => List.replicate w '-').map List.length = ws := by
    simp [Function.comp_def]
  have hruns : columnsOf (separator ((ws.map fun w => List.replicate w '-').map List.length)) (separator ws) =
      ws.map fun w => List.replicate w '-' := columnsOf_intercalate rfl (by simpa)
  rwa [hlengths] at hruns

/-- The gaps are at the crosses. -/
theorem gap_prefix_of_mem (hgap : gap.length = 3) {o : Nat}
    (ho : o ∈ offsetsOf cross (separator (pieces.map List.length))) : gap <+: (gap.intercalate pieces).drop o := by
  induction pieces generalizing o with
  | nil => simp [offsetsOf, separator] at ho
  | cons piece pieces ih =>
      cases pieces with
      | nil => simp [offsetsOf_separator_singleton] at ho
      | cons piece' pieces =>
          rw [List.map_cons, List.map_cons, offsetsOf_separator_cons_cons] at ho
          rw [List.intercalate_cons_cons, List.append_assoc]
          rcases List.mem_cons.1 ho with rfl | ho
          · rw [List.drop_left]
            exact List.prefix_append _ _
          · obtain ⟨o', ho', rfl⟩ := List.mem_map.1 ho
            have hsize : o' + (piece.length + 3) = (piece ++ gap).length + o' := by
              rw [List.length_append, hgap, Nat.add_comm]
            rw [← List.append_assoc, hsize, List.drop_length_add_append]
            exact ih ho'

theorem length_intercalate (hgap : gap.length = 3) :
    (gap.intercalate pieces).length = (separator (pieces.map List.length)).length := by
  induction pieces with
  | nil => rfl
  | cons piece pieces ih =>
      cases pieces with
      | nil => simp [separator]
      | cons piece' pieces =>
          rw [List.intercalate_cons_cons, List.map_cons, List.map_cons, separator_cons_cons]
          simp only [List.length_append, List.length_replicate, hgap, ih]
          simp [Nat.add_assoc]

end

end SqlStore.Shell
