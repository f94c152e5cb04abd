import Mathlib.Data.List.Forall2
import Mathlib.Data.String.Basic
import SqlStore.Proofs.Shell.Columns
import SqlStore.Proofs.Text.Blank

/-!
# Printed tables line up

Every line of a printed table but the line of dashes has a bar wherever that has a cross, before the blanks at its end
are left out, and between the bars the texts of its columns (`aligned_of_tableLines`). The dashes of a column are as
many as its longest text has characters or its name has bytes, whichever is more (`dashes_of_tableLines`).
-/

namespace SqlStore.Shell

open String (utf8Len)
open Text (isBlank)

/-- The text is as long as the line of dashes, has a bar wherever that has a cross, and has in each column the text that
belongs there with nothing but spaces after it. -/
structure Aligned (dashes : List Char) (texts : List (List Char)) (full : List Char) : Prop where
  length_eq : full.length = dashes.length
  bars : ∀ o ∈ offsetsOf cross dashes, bar <+: full.drop o
  columns : ∀ (j : Nat) (text : List Char), texts[j]? = some text →
    ∃ n, (columnsOf dashes full)[j]? = some (text ++ List.replicate n ' ')

/-- The line is an aligned text without the blanks at its end. With spaces up to the length of the line of dashes it has
its bars again. -/
structure PrintedAs (dashes : List Char) (texts : List (List Char)) (line : List Char) : Prop where
  aligned : ∃ full blanks, Aligned dashes texts full ∧ full = line ++ blanks ∧ ∀ c ∈ blanks, isBlank c = true
  trimmed : ∀ c ∈ line.getLast?, isBlank c = false
  bars : ∀ o ∈ offsetsOf cross dashes, bar <+: (line.rightpad dashes.length ' ').drop o

/-- The texts of a column: its name, and its value in each row. -/
def columnTexts (r : Results) (j : Nat) (c : Column) : List (List Char) :=
  c.name.toList :: (r.rows.filterMap (·[j]?)).map fun cell => showValue (.decode c.type cell)

/-! ## Widths -/

theorem length_le_utf8Len (cs : List Char) : cs.length ≤ utf8Len cs := by
  induction cs with
  | nil => exact Nat.le_refl _
  | cons c cs ih =>
      have hpos := c.utf8Size_pos
      rw [List.length_cons, String.utf8Len_cons]
      omega

theorem utf8Len_of_ascii {cs : List Char} (h : ∀ c ∈ cs, c.toNat < 128) : utf8Len cs = cs.length := by
  induction cs with
  | nil => rfl
  | cons c cs ih =>
      rw [List.forall_mem_cons] at h
      have hc : c.utf8Size = 1 := Char.utf8Size_eq_one_iff.2 (Nat.le_of_lt_succ h.1)
      rw [String.utf8Len_cons, ih h.2, hc, List.length_cons]

section

variable {r : Results} {columns : List Column} {rows : List (List (List Char))} {c : Column} {j w : Nat}

theorem length_widen (ws : List Nat) (texts : List (List Char)) : (widen ws texts).length = ws.length := by
  induction ws generalizing texts with
  | nil => simp [widen]
  | cons w ws ih => cases texts <;> simp [widen, ih]

theorem getElem?_widen (ws : List Nat) (texts : List (List Char)) (j : Nat) :
    (widen ws texts)[j]? = ws[j]?.map fun w => texts[j]?.elim w fun text => max w text.length := by
  induction ws generalizing texts j with
  | nil => simp [widen]
  | cons w ws ih =>
      cases texts with
      | nil => simp [widen]
      | cons text texts => cases j <;> simp [widen, ih]

theorem length_widths (columns : List Column) (rows : List (List (List Char))) :
    (widths columns rows).length = columns.length := by
  have hrun : ∀ ws : List Nat, (rows.foldl widen ws).length = ws.length := by
    induction rows with
    | nil => exact fun ws => rfl
    | cons texts rows ih =>
        intro ws
        rw [List.foldl_cons, ih, length_widen]
  rw [widths, hrun, List.length_map]

/-- Row after row, a column gets the width of the longest of its texts, if it is not wider already. -/
theorem getElem?_foldl_widen (rows : List (List (List Char))) (ws : List Nat) (j : Nat) :
    (rows.foldl widen ws)[j]? = ws[j]?.map fun w => ((rows.filterMap (·[j]?)).map List.length).foldl max w := by
  induction rows generalizing ws with
  | nil => simp
  | cons texts rows ih =>
      rw [List.foldl_cons, ih, getElem?_widen, Option.map_map]
      cases htext : texts[j]? <;> simp [htext, Function.comp_def]

theorem getElem?_widths (h : columns[j]? = some c) :
    (widths columns rows)[j]? = (c.name.utf8ByteSize :: (rows.filterMap (·[j]?)).map List.length).max? := by
  rw [widths, getElem?_foldl_widen, List.getElem?_map, h, List.max?_cons']
  rfl

/-- A column has room for its name. -/
theorem length_name_le {text : List Char} (htext : (columns.map fun c => c.name.toList)[j]? = some text)
    (hw : (widths columns rows)[j]? = some w) : text.length ≤ w := by
  rw [List.getElem?_map, Option.map_eq_some_iff] at htext
  obtain ⟨c, hc, rfl⟩ := htext
  rw [getElem?_widths hc, List.max?_eq_some_iff] at hw
  calc
    c.name.toList.length ≤ utf8Len c.name.toList := length_le_utf8Len _
    _ = c.name.utf8ByteSize := String.utf8Len_toList _
    _ ≤ w := hw.2 _ List.mem_cons_self

/-- A column has room for each of its values. -/
theorem length_value_le {texts : List (List Char)} {text : List Char} (htexts : texts ∈ rows)
    (htext : texts[j]? = some text) (hw : (widths columns rows)[j]? = some w) : text.length ≤ w := by
  obtain ⟨hj, -⟩ := List.getElem?_eq_some_iff.1 hw
  rw [length_widths] at hj
  rw [getElem?_widths (List.getElem?_eq_getElem hj), List.max?_eq_some_iff] at hw
  have hmem : text ∈ rows.filterMap (·[j]?) := List.mem_filterMap.2 ⟨texts, htexts, htext⟩
  exact hw.2 _ (List.mem_cons_of_mem _ (List.mem_map_of_mem hmem))

theorem getElem?_showRow (h : columns[j]? = some c) (row : List Cell) :
    (showRow columns row)[j]? = row[j]?.map fun cell => showValue (.decode c.type cell) := by
  rw [showRow, Value.decodeRow, List.getElem?_map, List.getElem?_zipWith, h]
  cases row[j]? <;> rfl

/-- The width of a column is that of its longest text, or the number of bytes of its name if that is more. -/
theorem getElem?_widths_results (h : r.columns[j]? = some c) {needed : Nat}
    (hneeded : ((columnTexts r j c).map List.length).max? = some needed) :
    (widths r.columns (r.rows.map (showRow r.columns)))[j]? = some (max c.name.utf8ByteSize needed) := by
  have hname : c.name.toList.length ≤ c.name.utf8ByteSize := by
    rw [← String.utf8Len_toList]
    exact length_le_utf8Len _
  have hvalues : (r.rows.map (showRow r.columns)).filterMap (·[j]?) =
      (r.rows.filterMap (·[j]?)).map fun cell => showValue (.decode c.type cell) := by
    simp only [List.filterMap_map, List.map_filterMap, Function.comp_def, getElem?_showRow h]
  rw [columnTexts, List.map_cons, List.max?_cons', Option.some.injEq] at hneeded
  rw [getElem?_widths h, hvalues, List.max?_cons', ← hneeded, ← @List.foldl_assoc _ max, Nat.max_eq_left hname]

end

/-! ## Lines -/

section

variable {ws : List Nat} {texts : List (List Char)} {dashes line blanks full : List Char}

theorem length_pad {w : Nat} {text : List Char} (h : text.length ≤ w) : (pad w text).length = w := by
  rw [pad, List.length_append, List.length_replicate]
  omega

/-- Texts for which there is room are filled up to the widths. -/
theorem map_length_zipWith_pad (hlength : texts.length = ws.length)
    (hroom : ∀ (j : Nat) (text : List Char) (w : Nat), texts[j]? = some text → ws[j]? = some w → text.length ≤ w) :
    (List.zipWith pad ws texts).map List.length = ws := by
  refine List.ext_getElem (by simp [hlength]) fun j hj hj' => ?_
  rw [List.getElem_map, List.getElem_zipWith]
  exact length_pad (hroom j _ _ (List.getElem?_eq_getElem (hlength ▸ hj')) (List.getElem?_eq_getElem hj'))

theorem aligned_fullLine (hlength : texts.length = ws.length)
    (hroom : ∀ (j : Nat) (text : List Char) (w : Nat), texts[j]? = some text → ws[j]? = some w → text.length ≤ w) :
    Aligned (separator ws) texts (fullLine ws texts) := by
  have hpieces := map_length_zipWith_pad hlength hroom
  generalize hpads : List.zipWith pad ws texts = pieces at hpieces
  rw [fullLine, hpads, ← hpieces]
  refine ⟨length_intercalate rfl, fun o ho => gap_prefix_of_mem rfl ho, fun j text htext => ?_⟩
  obtain ⟨w, hw⟩ : ∃ w, ws[j]? = some w := by
    have hj := (List.getElem?_eq_some_iff.1 htext).1
    exact ⟨_, List.getElem?_eq_getElem (hlength ▸ hj)⟩
  have hpiece : pieces[j]? = some (pad w text) := by rw [← hpads, List.getElem?_zipWith, hw, htext]
  have hne : pieces ≠ [] := by
    rintro rfl
    cases hpiece
  exact ⟨w - text.length, by rw [columnsOf_intercalate rfl hne, hpiece, pad]⟩

/-- Where blanks are replaced by spaces, a space or a character that is no blank stays as it is. -/
theorem getElem?_refill {i : Nat} {c : Char} (hblanks : ∀ c ∈ blanks, isBlank c = true)
    (hc : c = ' ' ∨ isBlank c = false) (h : (line ++ blanks)[i]? = some c) :
    (line ++ List.replicate blanks.length ' ')[i]? = some c := by
  rcases Nat.lt_or_ge i line.length with hlt | hge
  · rwa [List.getElem?_append_left hlt] at h ⊢
  · rw [List.getElem?_append_right hge] at h ⊢
    obtain ⟨hi, hget⟩ := List.getElem?_eq_some_iff.1 h
    have hblank := hblanks c (hget ▸ List.getElem_mem hi)
    rw [List.getElem?_replicate, if_pos hi]
    rcases hc with rfl | hc
    · rfl
    · rw [hblank] at hc
      cases hc

theorem bar_prefix_refill {o : Nat} (hblanks : ∀ c ∈ blanks, isBlank c = true)
    (h : bar <+: (line ++ blanks).drop o) : bar <+: (line ++ List.replicate blanks.length ' ').drop o := by
  rw [List.prefix_iff_getElem?] at h ⊢
  intro i hi
  have hget := h i hi
  rw [List.getElem?_drop] at hget ⊢
  -- a bar that was cut had spaces at its end, which the padding puts there again
  refine getElem?_refill hblanks ?_ hget
  have hbar : bar.all (fun c => c == ' ' || !isBlank c) = true := by decide
  simpa using List.all_eq_true.1 hbar _ (List.getElem_mem hi)

theorem Aligned.printedAs (h : Aligned dashes texts full) : PrintedAs dashes texts (Text.trimEnd full) := by
  obtain ⟨blanks, hfull, hblanks⟩ := Text.exists_trimEnd_append full
  refine ⟨⟨full, blanks, h, hfull, hblanks⟩, Text.isBlank_of_getLast?_trimEnd, fun o ho => ?_⟩
  have hlength : dashes.length - (Text.trimEnd full).length = blanks.length := by
    have := congrArg List.length hfull
    rw [List.length_append, h.length_eq] at this
    omega
  have hbar := h.bars o ho
  rw [hfull] at hbar
  rw [List.rightpad, hlength]
  exact bar_prefix_refill hblanks hbar

end

/-! ## Tables -/

section

variable {r : Results}

theorem tableLines_of_rows (hrows : r.rows ≠ []) :
    let ws := widths r.columns (r.rows.map (showRow r.columns))
    tableLines r = line ws (r.columns.map fun c => c.name.toList) :: separator ws ::
      (r.rows.map fun row => line ws (showRow r.columns row)) ++ [countLine r.rows.length] := by
  have hempty : r.rows.isEmpty = false := by simpa using hrows
  rw [tableLines, hempty]
  simp [Function.comp_def]

/-- The lines of a table are the names, the dashes, a line for each row in the order of the rows, and the number of rows.
The lines of the names and of the rows have their texts where the dashes have the columns. -/
theorem aligned_of_tableLines (hrows : r.rows ≠ []) (hcells : ∀ row ∈ r.rows, row.length = r.columns.length) :
    ∃ names dashes lines count, tableLines r = names :: dashes :: lines ++ [count] ∧
      showResults r = String.ofList ((names :: dashes :: lines ++ [count]).flatMap (· ++ ['\n'])) ∧
      (offsetsOf cross dashes).length = r.columns.length - 1 ∧
      PrintedAs dashes (r.columns.map fun c => c.name.toList) names ∧
      List.Forall₂ (fun row line =>
        PrintedAs dashes (List.zipWith (fun c cell => showValue (.decode c.type cell)) r.columns row) line)
        r.rows lines ∧
      count = if r.rows.length = 1 then "(1 result)".toList
        else ("(" ++ toString r.rows.length ++ " results)").toList := by
  have hlines := tableLines_of_rows hrows
  refine ⟨_, _, _, _, hlines, by rw [showResults, hlines], ?_, ?_, ?_, rfl⟩
  · rw [length_offsetsOf_separator, length_widths]
  · exact (aligned_fullLine (by rw [length_widths, List.length_map]) fun j text w => length_name_le).printedAs
  · rw [List.forall₂_map_right_iff, List.forall₂_same]
    intro row hrow
    have hmem : showRow r.columns row ∈ r.rows.map (showRow r.columns) := List.mem_map_of_mem hrow
    have htexts : List.zipWith (fun c cell => showValue (.decode c.type cell)) r.columns row =
        showRow r.columns row := by
      rw [showRow, Value.decodeRow, List.map_zipWith]
    rw [htexts]
    refine (aligned_fullLine ?_ fun j text w => length_value_le hmem).printedAs
    rw [length_widths, ← htexts, List.length_zipWith, hcells row hrow, Nat.min_self]

/-- A table with a name of two bytes, a column without name, and a blank as its last text. -/
theorem aligned_of_tableLines_blank :
    let r : Results := ⟨[⟨"é", .int⟩, ⟨"", .text⟩], [[.ofInt 1, .ofText " "], [.empty, .empty]]⟩
    (r.rows ≠ [] ∧ ∀ row ∈ r.rows, row.length = r.columns.length) ∧
      tableLines r = ["é  |", "---+--", "1  |", "0  |", "(2 results)"].map String.toList ∧
      PrintedAs "---+--".toList [['é'], []] "é  |".toList := by
  intro r
  have hr : r.rows ≠ [] ∧ ∀ row ∈ r.rows, row.length = r.columns.length := by simp [r]
  have hlines : tableLines r = ["é  |", "---+--", "1  |", "0  |", "(2 results)"].map String.toList := by decide +kernel
  obtain ⟨names, dashes, lines, count, heq, -, -, hnames, -⟩ := aligned_of_tableLines hr.1 hr.2
  rw [hlines] at heq
  simp only [List.map_cons, List.cons_append, List.cons.injEq] at heq
  obtain ⟨rfl, rfl, -⟩ := heq
  exact ⟨hr, hlines, hnames⟩

/-- The dashes of a column are as many as its longest text has characters or its name has bytes, whichever is more. So
they are as many as its longest text has characters exactly if its name has no more bytes, as with a name in ASCII. -/
theorem dashes_of_tableLines (hrows : r.rows ≠ []) :
    ∃ dashes, (tableLines r)[1]? = some dashes ∧ ∀ (j : Nat) (c : Column), r.columns[j]? = some c →
      ∃ needed, ((columnTexts r j c).map List.length).max? = some needed ∧
        (columnsOf dashes dashes)[j]? = some (List.replicate (max c.name.utf8ByteSize needed) '-') ∧
        ((columnsOf dashes dashes)[j]? = some (List.replicate needed '-') ↔ c.name.utf8ByteSize ≤ needed) ∧
        ((∀ d ∈ c.name.toList, d.toNat < 128) → c.name.utf8ByteSize ≤ needed) := by
  have hlines := tableLines_of_rows hrows
  refine ⟨_, by rw [hlines]; rfl, fun j c hc => ?_⟩
  obtain ⟨needed, hneeded⟩ : ∃ needed, ((columnTexts r j c).map List.length).max? = some needed := by
    rw [columnTexts, List.map_cons, List.max?_cons']
    exact ⟨_, rfl⟩
  have hwidth := getElem?_widths_results hc hneeded
  refine ⟨needed, hneeded, ?_⟩
  rw [columnsOf_separator (List.ne_nil_of_mem (List.mem_of_getElem? hwidth)), List.getElem?_map, hwidth, Option.map_some]
  refine ⟨rfl, by simp [List.replicate_inj], fun hascii => ?_⟩
  rw [List.max?_eq_some_iff] at hneeded
  have hname := hneeded.2 _ (List.mem_map_of_mem List.mem_cons_self)
  rwa [← utf8Len_of_ascii hascii, String.utf8Len_toList] at hname

/-- A name of one character in two bytes. -/
theorem dashes_of_tableLines_two_bytes :
    let r : Results := ⟨[⟨"é", .int⟩], [[.ofInt 1]]⟩
    r.rows ≠ [] ∧ tableLines r = ["é", "--", "1", "(1 result)"].map String.toList ∧
      (columnsOf "--".toList "--".toList)[0]? = some ['-', '-'] := by
  intro r
  have hr : r.rows ≠ [] := by simp [r]
  have hlines : tableLines r = ["é", "--", "1", "(1 result)"].map String.toList := by decide +kernel
  obtain ⟨dashes, hdashes, hcolumns⟩ := dashes_of_tableLines hr
  obtain ⟨needed, hneeded, hrun, -⟩ := hcolumns 0 ⟨"é", .int⟩ rfl
  have hone : ((columnTexts r 0 ⟨"é", .int⟩).map List.length).max? = some 1 := by decide +kernel
  obtain rfl : needed = 1 := Option.some.inj (hneeded.symm.trans hone)
  obtain rfl : dashes = "--".toList := by simpa [hlines, eq_comm] using hdashes
  exact ⟨hr, hlines, hrun.trans (by decide +kernel)⟩

/-- The dashes of a column are not always as many as its longest text has characters. -/
theorem not_forall_dashes :
    ¬ ∀ r : Results, r.rows ≠ [] → (∀ row ∈ r.rows, row.length = r.columns.length) →
      ∀ dashes, (tableLines r)[1]? = some dashes → ∀ (j : Nat) (c : Column), r.columns[j]? = some c →
        ∀ needed, ((columnTexts r j c).map List.length).max? = some needed →
          (columnsOf dashes dashes)[j]? = some (List.replicate needed '-') := by
  intro h
  have hrun := h ⟨[⟨"é", .int⟩], [[.ofInt 1]]⟩ (by simp) (by simp) "--".toList (by decide +kernel) 0 ⟨"é", .int⟩ rfl 1
    (by decide +kernel)
  revert hrun
  decide +kernel

end

end SqlStore.Shell
