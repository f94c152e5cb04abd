import Mathlib.Data.List.TakeWhile
import SqlStore.Text.Blank

/-!
# Trimmed texts

What trimming leaves of a text is the part between the blanks around it (`trim_eq_iff`).
-/

namespace SqlStore.Text

variable {cs text blanks : List Char}

/-- The text stands among blanks, and neither begins nor ends with one. -/
inductive Trimmed : List Char → List Char → Prop
  | mk {before text after : List Char} (hbefore : ∀ c ∈ before, isBlank c = true)
      (hafter : ∀ c ∈ after, isBlank c = true) (hhead : ∀ c ∈ text.head?, isBlank c = false)
      (hlast : ∀ c ∈ text.getLast?, isBlank c = false) : Trimmed (before ++ (text ++ after)) text

theorem Trimmed.append (h : Trimmed cs text) (hblanks : ∀ c ∈ blanks, isBlank c = true) :
    Trimmed (cs ++ blanks) text := by
  cases h with
  | mk hbefore hafter hhead hlast =>
      rw [List.append_assoc, List.append_assoc]
      exact .mk hbefore (List.forall_mem_append.2 ⟨hafter, hblanks⟩) hhead hlast

theorem trimEnd_append (h : ∀ c ∈ blanks, isBlank c = true) : trimEnd (cs ++ blanks) = trimEnd cs := by
  have hreverse : ∀ c ∈ blanks.reverse, isBlank c = true := fun c hc => h c (List.mem_reverse.1 hc)
  rw [trimEnd, List.reverse_append, List.dropWhile_append_of_pos hreverse, trimEnd]

theorem dropWhile_isBlank_of_head? (h : ∀ c ∈ cs.head?, isBlank c = false) : cs.dropWhile isBlank = cs := by
  cases cs with
  | nil => rfl
  | cons c cs => rw [List.dropWhile_cons_of_neg (by simpa using h c rfl)]

theorem trimEnd_of_getLast? (h : ∀ c ∈ cs.getLast?, isBlank c = false) : trimEnd cs = cs := by
  rw [trimEnd, dropWhile_isBlank_of_head? (by rwa [List.head?_reverse]), List.reverse_reverse]

theorem isBlank_of_head?_dropWhile : ∀ c ∈ (cs.dropWhile isBlank).head?, isBlank c = false := by
  intro c hc
  have h := List.head?_dropWhile_not isBlank cs
  rwa [hc] at h

theorem isBlank_of_getLast?_trimEnd : ∀ c ∈ (trimEnd cs).getLast?, isBlank c = false := by
  rw [trimEnd, List.getLast?_reverse]
  exact isBlank_of_head?_dropWhile

theorem trimmed_trim (cs : List Char) : Trimmed cs (trim cs) := by
  obtain ⟨after, hafter, hblank⟩ := exists_trimEnd_append (cs.dropWhile isBlank)
  have hcs : cs = cs.takeWhile isBlank ++ (trim cs ++ after) := by
    rw [trim, ← hafter, List.takeWhile_append_dropWhile]
  have hhead : ∀ c ∈ (trim cs).head?, isBlank c = false := by
    intro c hc
    have hmem : c ∈ (cs.dropWhile isBlank).head? := by
      rw [hafter, List.head?_append]
      exact Option.or_eq_some_iff.2 (.inl hc)
    exact isBlank_of_head?_dropWhile c hmem
  have hmk : Trimmed (cs.takeWhile isBlank ++ (trim cs ++ after)) (trim cs) :=
    .mk (List.all_eq_true.1 List.all_takeWhile) hblank hhead isBlank_of_getLast?_trimEnd
  rwa [← hcs] at hmk

/-- Trimming leaves the text that stands among the blanks. -/
theorem trim_eq_iff : trim cs = text ↔ Trimmed cs text := by
  constructor
  · rintro rfl
    exact trimmed_trim cs
  · rintro ⟨hbefore, hafter, hhead, hlast⟩
    rw [trim, List.dropWhile_append_of_pos hbefore]
    cases text with
    | nil =>
        rw [List.nil_append, List.dropWhile_eq_nil_iff.2 hafter]
        rfl
    | cons c text =>
        rw [dropWhile_isBlank_of_head? (by simpa using hhead), trimEnd_append hafter, trimEnd_of_getLast? hlast]

end SqlStore.Text
