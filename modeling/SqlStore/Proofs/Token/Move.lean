import SqlStore.Proofs.Text.LongestMatch
import SqlStore.Proofs.Text.Numeral
import SqlStore.Proofs.Text.Utf8
import SqlStore.Token.Scan

/-!
# Moves

Readers count lines and columns each in its own way: most of them pass a lexeme in one move, and quoted texts are
passed piece by piece. Every one of them stops where the characters that it takes lead, one by one
(`Match.firstAt?_eq`), and so does a scan between tokens.
-/

namespace SqlStore

/-! ## Moves on one line -/

theorem Position.advance_of_not_mem {cs : List Char} (h : '\n' ∉ cs) (p : Position) :
    p.advance cs = p.forward (Text.Utf8.encode cs).length := by
  induction cs generalizing p with
  | nil => rfl
  | cons c cs ih =>
      obtain ⟨hc, hcs⟩ := List.ne_and_not_mem_of_not_mem_cons h
      rw [advance_cons, ih hcs, next, if_neg (Ne.symm hc), forward, forward, Text.Utf8.encode_cons, List.length_append,
        String.length_utf8EncodeChar, Nat.add_assoc]

namespace Match

variable {p : Position} {cs : List Char} {m : Match}

/-- What is spelled like a word has a line feed only where the word has one. -/
theorem not_mem_take_of_begins {word : String} (hword : '\n' ∉ word.toList)
    (h : Text.Begins word.toList cs) : '\n' ∉ cs.take word.length := by
  intro hmem
  obtain ⟨tail, htail⟩ := h
  have htaken : (cs.take word.length).map Char.toLower = word.toList := by
    rw [List.map_take, ← htail, ← String.length_toList, List.take_left]
  exact hword (htaken ▸ List.mem_map.2 ⟨'\n', hmem, by decide⟩)

theorem not_mem_of_keyword? (h : keyword? cs = some m) : '\n' ∉ m.taken := by
  simp only [keyword?, Option.bind_eq_bind, Option.bind_eq_some_iff] at h
  obtain ⟨k, hk, h⟩ := h
  split at h <;> cases h
  exact not_mem_take_of_begins (by cases k <;> decide) (Text.begins_of_longestMatch hk).2

theorem not_mem_of_symbol? (h : symbol? cs = some m) : '\n' ∉ m.taken := by
  simp only [symbol?, Option.bind_eq_bind, Option.bind_eq_some_iff] at h
  obtain ⟨s, hs, h⟩ := h
  cases h
  exact not_mem_take_of_begins (by cases s <;> decide) (Text.begins_of_longestMatch hs).2

theorem not_mem_of_numeral? (h : numeral? cs = some m) : '\n' ∉ m.taken := by
  simp only [numeral?, Option.bind_eq_bind, Option.bind_eq_some_iff] at h
  obtain ⟨⟨numeral, rest⟩, hread, h⟩ := h
  cases h
  obtain ⟨whole, part, power, hform, rfl, -, -⟩ := Text.Numeral.exists_form_of_read hread
  have hdigits : ∀ {ds : List Char}, Text.Numeral.Digits ds → '\n' ∉ ds := fun hds hmem => by cases hds _ hmem
  simp only [List.mem_append, not_or]
  refine ⟨hdigits hform.digits, ?_, ?_⟩
  · cases hform.fraction with
    | none => simp
    | some hds => simpa using hdigits hds
  · cases hform.exponent with
    | none => simp
    | some hmark hds =>
        simp only [List.mem_cons, List.not_mem_nil, or_false] at hmark
        rcases hmark with rfl | rfl | rfl <;> simpa using hdigits hds

theorem not_mem_of_bareIdentifier? (h : bareIdentifier? cs = some m) : '\n' ∉ m.taken := by
  unfold bareIdentifier? at h
  split at h <;> cases h
  intro hmem
  exact absurd (List.all_eq_true.1 List.all_takeWhile _ hmem) (by decide)

/-- A reader of lexemes without line feeds stops where the characters lead. -/
theorem onLine_eq {found : Option Match} (h : ∀ m ∈ found, '\n' ∉ m.taken) :
    onLine p found = found.map fun m => (m, p.advance m.taken) := by
  cases found with
  | none => rfl
  | some m => rw [onLine, Option.map_some, Option.map_some, stopOnLine, Position.advance_of_not_mem (h m rfl)]

/-! ## Moves through quoted texts -/

/-- A delimiter is one byte, and no line feed. -/
structure OneColumn (q : Char) : Prop where
  size : q.utf8Size = 1
  ne : q ≠ '\n'

theorem OneColumn.next {q : Char} (hq : OneColumn q) (p : Position) : p.next q = p.forward 1 := by
  rw [Position.next, if_neg hq.ne, hq.size, Position.forward]

theorem stopInQuotes_of_readBody {q : Char} (hq : OneColumn q) {text rest : List Char}
    (h : Text.Quoted.readBody q cs = some (text, rest)) :
    stopInQuotes q p cs = p.advance (Text.Quoted.escape q text ++ [q]) := by
  fun_induction Text.Quoted.readBody q cs generalizing text p with
  | case1 => cases h
  | case2 =>
      cases h
      exact (hq.next p).symm
  | case3 => cases h
  | case4 cs ih =>
      obtain ⟨⟨text', rest'⟩, hread, heq⟩ := Option.map_eq_some_iff.1 h
      cases heq
      rw [stopInQuotes, if_pos rfl, if_pos rfl, ih hread, Text.Quoted.escape, if_pos rfl, List.cons_append,
        List.cons_append, Position.advance_cons, Position.advance_cons, hq.next, hq.next]
      rfl
  | case5 d cs hd =>
      cases h
      rw [stopInQuotes, if_pos rfl, if_neg hd]
      exact (hq.next p).symm
  | case6 c d cs hc ih =>
      obtain ⟨⟨text', rest'⟩, hread, heq⟩ := Option.map_eq_some_iff.1 h
      cases heq
      rw [stopInQuotes, if_neg hc, ih hread, Text.Quoted.escape, if_neg hc, List.cons_append, Position.advance_cons]
      rfl

theorem inQuotes_eq {kind : TokenKind} {q : Char} (hq : OneColumn q) {found : Option Match}
    (h : ∀ m ∈ found, quoted? kind q cs = some m) :
    inQuotes q p cs found = found.map fun m => (m, p.advance m.taken) := by
  cases found with
  | none => rfl
  | some m =>
      have hquoted := h m rfl
      simp only [quoted?, Option.bind_eq_bind, Option.bind_eq_some_iff] at hquoted
      obtain ⟨⟨text, rest⟩, hread, heq⟩ := hquoted
      cases heq
      cases cs with
      | nil => cases hread
      | cons c cs =>
          rw [Text.Quoted.read] at hread
          split at hread
          · simp only [inQuotes, Option.map_some, List.tail_cons, stopInQuotes_of_readBody hq hread, Text.Quoted.write,
              List.cons_append, Position.advance_cons, hq.next]
          · cases hread

theorem quoted?_of_quotedIdentifier? (h : quotedIdentifier? cs = some m) : quoted? .identifier '"' cs = some m := by
  simp only [quotedIdentifier?, Option.bind_eq_bind, Option.bind_eq_some_iff] at h
  obtain ⟨found, hfound, h⟩ := h
  split at h <;> cases h
  exact hfound

/-! ## All readers -/

/-- Whichever reader finds a lexeme, it stops where the characters of the lexeme lead. -/
theorem firstAt?_eq (p : Position) (cs : List Char) :
    firstAt? p cs = (first? cs).map fun m => (m, p.advance m.taken) := by
  have hstring : inQuotes '\'' p cs (string? cs) = _ :=
    inQuotes_eq ⟨by decide, by decide⟩ fun m (hm : quoted? .string '\'' cs = some m) => hm
  have hname : inQuotes '"' p cs (quotedIdentifier? cs) = _ :=
    inQuotes_eq ⟨by decide, by decide⟩ fun _ => quoted?_of_quotedIdentifier?
  simp only [firstAt?, first?, Option.map_or, hstring, hname, onLine_eq fun _ => not_mem_of_keyword?,
    onLine_eq fun _ => not_mem_of_symbol?, onLine_eq fun _ => not_mem_of_numeral?,
    onLine_eq fun _ => not_mem_of_bareIdentifier?]

theorem firstAt?_eq_some_iff {stop : Position} :
    firstAt? p cs = some (m, stop) ↔ first? cs = some m ∧ stop = p.advance m.taken := by
  rw [firstAt?_eq]
  cases first? cs with
  | none => simp
  | some m' =>
      simp only [Option.map_some, Option.some.injEq, Prod.mk.injEq]
      constructor
      · rintro ⟨rfl, rfl⟩
        exact ⟨rfl, rfl⟩
      · rintro ⟨rfl, rfl⟩
        exact ⟨rfl, rfl⟩

theorem firstAt?_eq_none_iff : firstAt? p cs = none ↔ first? cs = none := by
  rw [firstAt?_eq, Option.map_eq_none_iff]

end Match

/-! ## One step of a scan -/

namespace Scan

variable {p : Position} {c : Char} {cs : List Char}

theorem afterSeparator_eq (hc : isSeparator c = true) : afterSeparator p c = p.next c := by
  simp only [isSeparator, Bool.or_eq_true, beq_iff_eq] at hc
  rcases hc with ((rfl | rfl) | rfl) | rfl <;> rfl

@[simp] theorem run_nil (p : Position) : run p [] = ⟨[], [], p⟩ := by
  rw [run]

theorem run_separator (hc : isSeparator c = true) : run p (c :: cs) = run (p.next c) cs := by
  rw [run, if_pos hc, afterSeparator_eq hc]

theorem run_none (hc : isSeparator c = false) (h : Match.first? (c :: cs) = none) :
    run p (c :: cs) = ⟨[], c :: cs, p⟩ := by
  rw [run, if_neg (by simp [hc])]
  split
  · rfl
  · simp_all [Match.firstAt?_eq_some_iff]

theorem run_some {m : Match} (hc : isSeparator c = false) (h : Match.first? (c :: cs) = some m) :
    run p (c :: cs) =
      ⟨⟨m.lexeme, p, p.advance m.taken⟩ :: (run (p.advance m.taken) m.rest).tokens,
        (run (p.advance m.taken) m.rest).rest, (run (p.advance m.taken) m.rest).stop⟩ := by
  rw [run, if_neg (by simp [hc])]
  split
  · simp_all [Match.firstAt?_eq_none_iff]
  · rename_i hfound
    obtain ⟨hm, rfl⟩ := Match.firstAt?_eq_some_iff.1 hfound
    cases h.symm.trans hm
    rfl

end Scan

end SqlStore
