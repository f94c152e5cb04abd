/-!
# Quoted text

A text between two delimiters, in which a doubled delimiter stands for one. Reading undoes writing and takes
nothing else (`read_eq_some_iff`). A text is a list of characters or of bytes.
-/

namespace SqlStore.Text.Quoted

variable {α : Type} [DecidableEq α]

/-- The text with every delimiter doubled. -/
def escape (q : α) : List α → List α
  | [] => []
  | c :: cs => if c = q then q :: q :: escape q cs else c :: escape q cs

/-- The text between delimiters. -/
def write (q : α) (cs : List α) : List α :=
  q :: escape q cs ++ [q]

/-- After an opening delimiter: the text up to the closing one, and what follows it. -/
def readBody (q : α) : List α → Option (List α × List α)
  | [] => none
  | [c] => if c = q then some ([], []) else none
  | c :: d :: cs =>
      if c = q then
        if d = q then (readBody q cs).map fun (text, rest) => (q :: text, rest)
        else some ([], d :: cs)
      else (readBody q (d :: cs)).map fun (text, rest) => (c :: text, rest)

/-- The quoted text at the head of a text, and what follows it; `none` where there is no opening delimiter or
no closing one. -/
def read (q : α) : List α → Option (List α × List α)
  | [] => none
  | c :: cs => if c = q then readBody q cs else none

theorem readBody_escape_append {q : α} {rest : List α} (hrest : rest.head? ≠ some q) (text : List α) :
    readBody q (escape q text ++ q :: rest) = some (text, rest) := by
  induction text with
  | nil =>
      cases rest with
      | nil => simp [escape, readBody]
      | cons d rest => simp_all [escape, readBody]
  | cons c text ih =>
      by_cases hc : c = q
      · simp [escape, readBody, hc, ih]
      · rw [escape, if_neg hc, List.cons_append]
        obtain ⟨d, ds, hds⟩ := List.exists_cons_of_ne_nil (l := escape q text ++ q :: rest) (by simp)
        rw [hds] at ih ⊢
        rw [readBody, if_neg hc, ih, Option.map_some]

theorem eq_of_readBody {q : α} {s text rest : List α} (h : readBody q s = some (text, rest)) :
    s = escape q text ++ q :: rest ∧ rest.head? ≠ some q := by
  fun_induction readBody q s generalizing text with
  | case1 => simp at h
  | case2 => simp_all [escape]
  | case3 => simp at h
  | case4 cs ih =>
      obtain ⟨⟨text', rest'⟩, hread, heq⟩ := Option.map_eq_some_iff.1 h
      simp only [Prod.mk.injEq] at heq
      obtain ⟨rfl, rfl⟩ := heq
      obtain ⟨rfl, hrest⟩ := ih hread
      exact ⟨by simp [escape], hrest⟩
  | case5 d cs hd =>
      simp only [Option.some.injEq, Prod.mk.injEq] at h
      obtain ⟨rfl, rfl⟩ := h
      simp [escape, hd]
  | case6 c d cs hc ih =>
      obtain ⟨⟨text', rest'⟩, hread, heq⟩ := Option.map_eq_some_iff.1 h
      simp only [Prod.mk.injEq] at heq
      obtain ⟨rfl, rfl⟩ := heq
      obtain ⟨hs, hrest⟩ := ih hread
      exact ⟨by rw [hs, escape, if_neg hc, List.cons_append], hrest⟩

theorem read_write_append {q : α} {rest : List α} (hrest : rest.head? ≠ some q) (text : List α) :
    read q (write q text ++ rest) = some (text, rest) := by
  simp [read, write, readBody_escape_append hrest]

theorem read_eq_some_iff {q : α} {s text rest : List α} :
    read q s = some (text, rest) ↔ s = write q text ++ rest ∧ rest.head? ≠ some q := by
  refine ⟨fun h => ?_, fun ⟨hs, hrest⟩ => hs ▸ read_write_append hrest text⟩
  cases s with
  | nil => simp [read] at h
  | cons c cs =>
      rw [read] at h
      split at h
      · obtain ⟨rfl, hrest⟩ := eq_of_readBody h
        simp_all [write]
      · simp at h

end SqlStore.Text.Quoted
