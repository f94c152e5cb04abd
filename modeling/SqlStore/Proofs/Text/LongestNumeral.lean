import Mathlib.Data.List.Induction
import Mathlib.Tactic.ByContra
import SqlStore.Proofs.Text.Numeral
import SqlStore.Proofs.Text.Offset

/-!
# The longest numeral

A numeral grows to the right one character at a time, and what can come next depends only on the characters that it
has (`Numeral.Extends`), so every beginning of a numeral is one (`Numeral.isNumeral_concat_iff`). What is read is the
longest numeral at the head of a text (`Numeral.read_eq_some_iff`), unless what follows bars it
(`Numeral.read_eq_none_iff`). All its characters are ASCII, so the same is read over bytes (`Numeral.read_byteChars`).
-/

namespace SqlStore.Text.Numeral

open String (utf8Len)
open Utf8 (byteChars encode)

/-- A numeral is digits with at most one period among them or in front, and after that at most one exponent. -/
def IsNumeral (v : List Char) : Prop := ∃ whole part power, Form whole part power ∧ v = whole ++ (part ++ power)

/-- The longest numeral that the text begins with. -/
structure Longest (cs v : List Char) : Prop where
  isPrefix : v <+: cs
  isNumeral : IsNumeral v
  le : ∀ u, u <+: cs → IsNumeral u → u.length ≤ v.length

/-- Nothing that a numeral starts with is at the head of the text. -/
def NoneStarts (cs : List Char) : Prop := ∀ c ∈ cs.head?, c.isDigit = false ∧ c ≠ '.'

/-- The character goes on with the numeral. -/
inductive Extends (v : List Char) : Char → Prop
  | digit {c : Char} (hc : c.isDigit = true) : Extends v c
  | period (hperiod : '.' ∉ v) (hmarker : 'e' ∉ v) : Extends v '.'
  | marker (hmarker : 'e' ∉ v) : Extends v 'e'
  | sign {c : Char} (hc : c = '-' ∨ c = '+') (hlast : v.getLast? = some 'e') : Extends v c

/-- A numeral as it grows from its first character. -/
inductive Grows : List Char → Prop
  | first {c : Char} (hc : c.isDigit = true ∨ c = '.') : Grows [c]
  | next {v : List Char} {c : Char} (h : Grows v) (hc : Extends v c) : Grows (v ++ [c])

/-- What stands after the numeral keeps it from being read. -/
inductive Barred (v : List Char) : List Char → Prop
  | secondPeriod {more : List Char} (h : '.' ∈ v) : Barred v ('.' :: more)
  | periodPastMarker {more : List Char} (h : 'e' ∈ v) : Barred v ('.' :: more)
  | secondMarker {more : List Char} (h : 'e' ∈ v) : Barred v ('e' :: more)
  | lastMarker (h : v.getLast? = some 'e') : Barred v []

/-! ## Growing numerals -/

section

variable {whole part power ds u v cs rest more : List Char} {c : Char}

theorem Digits.concat (h : Digits ds) (hc : c.isDigit = true) : Digits (ds ++ [c]) := by
  intro d hd
  rcases List.mem_append.1 hd with hd | hd
  · exact h d hd
  · rw [List.mem_singleton.1 hd]
    exact hc

theorem Digits.not_mem (h : Digits ds) (hc : c.isDigit = false) : c ∉ ds := by
  intro hmem
  rw [h c hmem] at hc
  cases hc

theorem Grows.append_digits (h : Grows v) (hds : Digits ds) : Grows (v ++ ds) := by
  induction ds generalizing v with
  | nil => simpa using h
  | cons d ds ih =>
      have hnext := h.next (.digit (hds d List.mem_cons_self))
      simpa using ih hnext fun c hc => hds c (List.mem_cons_of_mem _ hc)

theorem Grows.of_digits (h : Digits ds) (hne : ds ≠ []) : Grows ds := by
  cases ds with
  | nil => exact absurd rfl hne
  | cons d ds =>
      exact (Grows.first (.inl (h d List.mem_cons_self))).append_digits fun c hc => h c (List.mem_cons_of_mem _ hc)

theorem Grows.append_fraction (hwhole : Digits whole) (hpart : Fraction part) (hne : whole ≠ [] ∨ part ≠ []) :
    Grows (whole ++ part) := by
  cases hpart with
  | none =>
      rw [List.append_nil]
      exact .of_digits hwhole (hne.resolve_right fun h => h rfl)
  | @some ds hds =>
      have hperiod : Grows (whole ++ ['.']) := by
        by_cases hnil : whole = []
        · rw [hnil]
          exact .first (.inr rfl)
        · exact (Grows.of_digits hwhole hnil).next (.period (hwhole.not_mem rfl) (hwhole.not_mem rfl))
      simpa using hperiod.append_digits hds

theorem Fraction.marker_not_mem (h : Fraction part) : 'e' ∉ part := by
  cases h with
  | none => exact List.not_mem_nil
  | some h => simp [h.not_mem (c := 'e') rfl]

theorem Exponent.eq_nil (h : Exponent power) (hpower : 'e' ∉ power) : power = [] := by
  cases h with
  | none => rfl
  | some => exact absurd List.mem_cons_self hpower

theorem Form.grows (h : Form whole part power) : Grows (whole ++ (part ++ power)) := by
  have hmantissa := Grows.append_fraction h.digits h.fraction h.ne_nil
  have hmarker : 'e' ∉ whole ++ part := by
    simp [h.digits.not_mem (c := 'e') rfl, h.fraction.marker_not_mem]
  rw [← List.append_assoc]
  cases h.exponent with
  | none => simpa using hmantissa
  | @some mark ds hmark hds =>
      have hpower := hmantissa.next (.marker hmarker)
      have hlast : (whole ++ part ++ ['e']).getLast? = some 'e' := by simp
      have hsign : Grows (whole ++ part ++ ['e'] ++ mark) := by
        simp only [List.mem_cons, List.not_mem_nil, or_false] at hmark
        rcases hmark with rfl | rfl | rfl
        · simpa using hpower
        · exact hpower.next (.sign (.inl rfl) hlast)
        · exact hpower.next (.sign (.inr rfl) hlast)
      simpa using hsign.append_digits hds

theorem Form.append_digit (h : Form whole part power) (hc : c.isDigit = true) :
    IsNumeral (whole ++ (part ++ power) ++ [c]) := by
  cases h.exponent with
  | @some mark ds hmark hds =>
      exact ⟨whole, part, 'e' :: (mark ++ (ds ++ [c])), ⟨h.digits, h.fraction, .some hmark (hds.concat hc), h.ne_nil⟩,
        by simp⟩
  | none =>
      cases h.fraction with
      | @some ds hds =>
          exact ⟨whole, '.' :: (ds ++ [c]), [], ⟨h.digits, .some (hds.concat hc), .none, .inr (by simp)⟩, by simp⟩
      | none => exact ⟨whole ++ [c], [], [], ⟨h.digits.concat hc, .none, .none, .inl (by simp)⟩, by simp⟩

theorem IsNumeral.concat (h : IsNumeral v) (hc : Extends v c) : IsNumeral (v ++ [c]) := by
  obtain ⟨whole, part, power, hform, rfl⟩ := h
  cases hc with
  | digit hc => exact hform.append_digit hc
  | period hperiod hmarker =>
      simp only [List.mem_append, not_or] at hperiod hmarker
      obtain rfl := hform.exponent.eq_nil hmarker.2.2
      cases hform.fraction with
      | some => exact absurd List.mem_cons_self hperiod.2.1
      | none => exact ⟨whole, ['.'], [], ⟨hform.digits, .some digits_nil, .none, .inr (by simp)⟩, by simp⟩
  | marker hmarker =>
      simp only [List.mem_append, not_or] at hmarker
      obtain rfl := hform.exponent.eq_nil hmarker.2.2
      have hpower : Exponent ('e' :: ([] ++ [])) := .some (by simp) digits_nil
      exact ⟨whole, part, _, ⟨hform.digits, hform.fraction, hpower, hform.ne_nil⟩, by simp⟩
  | sign hc hlast =>
      obtain rfl := hform.getLast?_eq_marker_iff.1 hlast
      have hmark : [c] ∈ [[], ['-'], ['+']] := by simpa using hc
      have hpower : Exponent ('e' :: ([c] ++ [])) := .some hmark digits_nil
      exact ⟨whole, part, _, ⟨hform.digits, hform.fraction, hpower, hform.ne_nil⟩, by simp⟩

theorem isNumeral_iff_grows : IsNumeral v ↔ Grows v := by
  constructor
  · rintro ⟨whole, part, power, hform, rfl⟩
    exact hform.grows
  · intro h
    induction h with
    | @first c hc =>
        rcases hc with hdigit | rfl
        · exact ⟨[c], [], [], ⟨by simpa [Digits] using hdigit, .none, .none, .inl (by simp)⟩, rfl⟩
        · exact ⟨[], ['.'], [], ⟨digits_nil, .some digits_nil, .none, .inr (by simp)⟩, rfl⟩
    | next _ hc ih => exact ih.concat hc

/-- A numeral without its last character is a numeral that this character goes on with. -/
theorem isNumeral_concat_iff (hne : v ≠ []) : IsNumeral (v ++ [c]) ↔ IsNumeral v ∧ Extends v c := by
  refine ⟨fun h => ?_, fun ⟨h, hc⟩ => h.concat hc⟩
  rw [isNumeral_iff_grows] at h ⊢
  generalize hu : v ++ [c] = u at h
  cases h with
  | first =>
      rcases List.append_eq_singleton_iff.1 hu with ⟨rfl, -⟩ | ⟨-, hnil⟩
      · exact absurd rfl hne
      · cases hnil
  | next h hc =>
      obtain ⟨rfl, hsingle⟩ := List.append_inj' hu rfl
      cases hsingle
      exact ⟨h, hc⟩

theorem IsNumeral.ne_nil (h : IsNumeral v) : v ≠ [] := by
  obtain ⟨whole, part, power, hform, rfl⟩ := h
  obtain ⟨c, cs, hcs, -⟩ := hform.exists_cons
  rw [hcs]
  exact List.cons_ne_nil _ _

/-- A beginning of a numeral is a numeral. -/
theorem IsNumeral.of_append (h : IsNumeral (v ++ more)) (hne : v ≠ []) : IsNumeral v := by
  induction more using List.reverseRecOn with
  | nil => simpa using h
  | append_singleton more c ih =>
      rw [← List.append_assoc] at h
      exact ih ((isNumeral_concat_iff (by simp [hne])).1 h).1

/-! ## The longest beginning -/

/-- A numeral is the longest where the next character does not go on with it. -/
theorem longest_append_iff : Longest (v ++ rest) v ↔ IsNumeral v ∧ ∀ c ∈ rest.head?, ¬ Extends v c := by
  constructor
  · intro h
    refine ⟨h.isNumeral, fun c hc hextends => ?_⟩
    obtain ⟨more, rfl⟩ := List.head?_eq_some_iff.1 hc
    have hle := h.le (v ++ [c]) (by simp) (h.isNumeral.concat hextends)
    rw [List.length_append, List.length_singleton] at hle
    omega
  · rintro ⟨hv, hstop⟩
    refine ⟨List.prefix_append _ _, hv, fun u hu hnumeral => ?_⟩
    by_contra hlonger
    obtain ⟨tail, rfl⟩ := List.prefix_of_prefix_length_le (List.prefix_append v rest) hu (by omega)
    cases tail with
    | nil => simp at hlonger
    | cons c tail =>
        rw [List.prefix_append_right_inj] at hu
        obtain ⟨more, rfl⟩ := hu
        rw [← List.singleton_append, ← List.append_assoc] at hnumeral
        exact hstop c rfl ((isNumeral_concat_iff hv.ne_nil).1 (hnumeral.of_append (by simp))).2

theorem Longest.unique (hu : Longest cs u) (hv : Longest cs v) : u = v := by
  have hle := hu.le v hv.isPrefix hv.isNumeral
  exact (List.prefix_of_prefix_length_le hu.isPrefix hv.isPrefix (hv.le u hu.isPrefix hu.isNumeral)).eq_of_length_le hle

theorem exists_longest (h : IsNumeral v) : ∃ u, Longest (v ++ rest) u := by
  induction rest generalizing v with
  | nil => exact ⟨v, longest_append_iff.2 ⟨h, nofun⟩⟩
  | cons c rest ih =>
      by_cases hc : Extends v c
      · have hlonger := ih (h.concat hc)
        rwa [List.append_assoc, List.singleton_append] at hlonger
      · refine ⟨v, longest_append_iff.2 ⟨h, fun d hd => ?_⟩⟩
        cases hd
        exact hc

theorem exists_longest_iff : (∃ v, Longest cs v) ↔ ¬ NoneStarts cs := by
  constructor
  · rintro ⟨_, ⟨more, rfl⟩, ⟨whole, part, power, hform, rfl⟩, -⟩ hnone
    obtain ⟨c, tail, hcons, hc⟩ := hform.exists_cons
    obtain ⟨hdigit, hperiod⟩ := hnone c (by simp [hcons])
    rw [hdigit] at hc
    exact hc.elim nofun hperiod
  · intro hstart
    cases cs with
    | nil => exact absurd nofun hstart
    | cons c more =>
        have hc : c.isDigit = true ∨ c = '.' := by
          by_contra hnot
          refine hstart fun d hd => ?_
          cases hd
          simpa using hnot
        have hlongest : ∃ v, Longest ([c] ++ more) v := exists_longest (isNumeral_iff_grows.2 (.first hc))
        exact hlongest

/-! ## What is read -/

/-- What is read is the longest numeral, after which no second period or marker stands, and which does not end the text
with its marker. -/
theorem read_eq_some_iff : read cs = some (v, rest) ↔
    cs = v ++ rest ∧ Longest cs v ∧ Stops rest ∧ (v.getLast? = some 'e' → rest ≠ []) := by
  constructor
  · intro h
    obtain ⟨rfl, -⟩ := append_of_read h
    obtain ⟨whole, part, power, hform, rfl, hstops, hmarker⟩ := exists_form_of_read h
    rw [hform.getLast?_eq_marker_iff]
    refine ⟨rfl, longest_append_iff.2 ⟨⟨whole, part, power, hform, rfl⟩, fun c hc hextends => ?_⟩, hstops,
      fun hpower => (hmarker hpower).1⟩
    obtain ⟨hdigit, hperiod, hexponent⟩ := hstops c hc
    cases hextends with
    | digit hc =>
        rw [hdigit] at hc
        cases hc
    | period => exact hperiod rfl
    | marker => exact hexponent rfl
    | sign hsign hlast =>
        obtain ⟨hminus, hplus⟩ := (hmarker (hform.getLast?_eq_marker_iff.1 hlast)).2 c hc
        exact hsign.elim hminus hplus
  · rintro ⟨rfl, hlongest, hstops, hne⟩
    obtain ⟨⟨whole, part, power, hform, rfl⟩, hnot⟩ := longest_append_iff.1 hlongest
    refine read_of_form hform (fun hpower => ?_) hstops
    have hlast := hform.getLast?_eq_marker_iff.2 hpower
    exact ⟨hne hlast, fun c hc => not_or.1 fun hsign => hnot c hc (.sign hsign hlast)⟩

theorem Longest.barred_iff (h : Longest (v ++ rest) v) :
    Barred v rest ↔ ¬ (Stops rest ∧ (v.getLast? = some 'e' → rest ≠ [])) := by
  obtain ⟨-, hnot⟩ := longest_append_iff.1 h
  constructor
  · rintro hbarred ⟨hstops, hne⟩
    cases hbarred with
    | secondPeriod | periodPastMarker => exact (hstops '.' rfl).2.1 rfl
    | secondMarker => exact (hstops 'e' rfl).2.2 rfl
    | lastMarker hlast => exact hne hlast rfl
  · intro hread
    by_contra hbarred
    refine hread ⟨fun c hc => ⟨?_, ?_, ?_⟩, ?_⟩
    · exact Bool.eq_false_iff.2 fun hdigit => hnot c hc (.digit hdigit)
    · rintro rfl
      obtain ⟨more, rfl⟩ := List.head?_eq_some_iff.1 hc
      exact hnot _ hc (.period (fun h => hbarred (.secondPeriod h)) fun h => hbarred (.periodPastMarker h))
    · rintro rfl
      obtain ⟨more, rfl⟩ := List.head?_eq_some_iff.1 hc
      exact hnot _ hc (.marker fun h => hbarred (.secondMarker h))
    · rintro hlast rfl
      exact hbarred (.lastMarker hlast)

theorem read_eq_none_iff :
    read cs = none ↔ NoneStarts cs ∨ ∃ v rest, cs = v ++ rest ∧ Longest cs v ∧ Barred v rest := by
  constructor
  · intro h
    by_cases hstart : NoneStarts cs
    · exact .inl hstart
    · obtain ⟨v, hlongest⟩ := exists_longest_iff.2 hstart
      obtain ⟨rest, rfl⟩ := hlongest.isPrefix
      refine .inr ⟨v, rest, rfl, hlongest, hlongest.barred_iff.2 fun hread => ?_⟩
      rw [read_eq_some_iff.2 ⟨rfl, hlongest, hread⟩] at h
      cases h
  · intro h
    refine Option.eq_none_iff_forall_ne_some.2 fun ⟨u, rest⟩ hread => ?_
    obtain ⟨rfl, hlongest, hstops⟩ := read_eq_some_iff.1 hread
    rcases h with hstart | ⟨v, rest', hsplit, hlongest', hbarred⟩
    · exact exists_longest_iff.1 ⟨u, hlongest⟩ hstart
    · obtain rfl := hlongest.unique hlongest'
      obtain rfl := List.append_cancel_left hsplit
      exact hlongest.barred_iff.1 hbarred hstops

/-! ## Bytes -/

theorem toNat_of_isDigit (h : c.isDigit = true) : c.toNat < 128 := by
  simp only [Char.isDigit, Bool.and_eq_true, decide_eq_true_eq, UInt32.le_iff_toNat_le] at h
  exact Nat.lt_of_le_of_lt h.2 (by decide)

theorem IsNumeral.ascii (h : IsNumeral v) : ∀ c ∈ v, c.toNat < 128 := by
  rw [isNumeral_iff_grows] at h
  induction h with
  | @first c hc =>
      rw [List.forall_mem_singleton]
      rcases hc with hdigit | rfl
      · exact toNat_of_isDigit hdigit
      · decide
  | @next v c _ hc ih =>
      rw [List.forall_mem_append, List.forall_mem_singleton]
      refine ⟨ih, ?_⟩
      cases hc with
      | digit hdigit => exact toNat_of_isDigit hdigit
      | period | marker => decide
      | sign hsign => rcases hsign with rfl | rfl <;> decide

theorem prefix_byteChars_iff (hu : ∀ c ∈ u, c.toNat < 128) : u <+: byteChars (encode cs) ↔ u <+: cs := by
  constructor
  · rintro ⟨r, hr⟩
    obtain ⟨rest, rfl, -⟩ := (Utf8.byteChars_encode_eq_append_iff hu).1 hr.symm
    exact List.prefix_append _ _
  · rintro ⟨rest, rfl⟩
    rw [(Utf8.byteChars_encode_eq_append_iff hu).2 ⟨rest, rfl, rfl⟩]
    exact List.prefix_append _ _

theorem longest_byteChars_iff : Longest (byteChars (encode cs)) v ↔ Longest cs v := by
  constructor
  · intro h
    exact ⟨(prefix_byteChars_iff h.isNumeral.ascii).1 h.isPrefix, h.isNumeral,
      fun u hu hnumeral => h.le u ((prefix_byteChars_iff hnumeral.ascii).2 hu) hnumeral⟩
  · intro h
    exact ⟨(prefix_byteChars_iff h.isNumeral.ascii).2 h.isPrefix, h.isNumeral,
      fun u hu hnumeral => h.le u ((prefix_byteChars_iff hnumeral.ascii).1 hu) hnumeral⟩

theorem stops_byteChars_iff : Stops (byteChars (encode rest)) ↔ Stops rest := by
  have hascii : ∀ c : Char, ¬ (c.isDigit = false ∧ c ≠ '.' ∧ c ≠ 'e') → c.toNat < 128 := by
    intro c hc
    by_cases hdigit : c.isDigit = true
    · exact toNat_of_isDigit hdigit
    · have hsign : c = '.' ∨ c = 'e' := by
        by_contra hnot
        exact hc ⟨by simpa using hdigit, not_or.1 hnot⟩
      rcases hsign with rfl | rfl <;> decide
  constructor
  · intro h c hc
    by_contra hnot
    exact hnot (h c ((Utf8.head?_byteChars_encode (hascii c hnot)).2 hc))
  · intro h c hc
    by_contra hnot
    exact hnot (h c ((Utf8.head?_byteChars_encode (hascii c hnot)).1 hc))

/-- The bytes of a text are read as its characters are. -/
theorem read_byteChars (cs : List Char) :
    read (byteChars (encode cs)) = (read cs).map (Prod.map id fun rest => byteChars (encode rest)) := by
  have hnil : ∀ rest : List Char, byteChars (encode rest) ≠ [] ↔ rest ≠ [] := by
    intro rest
    cases rest with
    | nil => simp [byteChars]
    | cons c rest => simp [Utf8.encode_cons, Utf8.byteChars_encodeChar_ne_nil]
  refine Option.ext ?_
  rintro ⟨v, r⟩
  simp only [Option.map_eq_some_iff, Prod.exists, Prod.map_apply, id, Prod.mk.injEq, read_eq_some_iff,
    longest_byteChars_iff]
  constructor
  · rintro ⟨hsplit, hlongest, hstops, hne⟩
    obtain ⟨rest, rfl, rfl⟩ := (Utf8.byteChars_encode_eq_append_iff hlongest.isNumeral.ascii).1 hsplit
    rw [stops_byteChars_iff] at hstops
    rw [hnil] at hne
    exact ⟨v, rest, ⟨rfl, hlongest, hstops, hne⟩, rfl, rfl⟩
  · rintro ⟨_, rest, ⟨rfl, hlongest, hstops, hne⟩, rfl, rfl⟩
    rw [stops_byteChars_iff, hnil]
    exact ⟨(Utf8.byteChars_encode_eq_append_iff hlongest.isNumeral.ascii).2 ⟨rest, rfl, rfl⟩, hlongest, hstops, hne⟩

/-- Inside a character no numeral starts. -/
theorem read_byteChars_drop_eq_none {offset : Nat}
    (h : ∀ before after, cs = before ++ after → utf8Len before ≠ offset) :
    read (byteChars ((encode cs).drop offset)) = none := by
  refine Option.eq_none_iff_forall_ne_some.2 fun ⟨v, r⟩ hread => ?_
  obtain ⟨hsplit, hlongest, -⟩ := read_eq_some_iff.1 hread
  obtain ⟨c, ds, rfl⟩ := List.exists_cons_of_ne_nil hlongest.isNumeral.ne_nil
  have hhead : (byteChars ((encode cs).drop offset)).head? = some c := by rw [hsplit]; rfl
  obtain ⟨before, after, hcs, hoffset⟩ :=
    Utf8.exists_append_of_head? (hlongest.isNumeral.ascii c List.mem_cons_self) hhead
  exact h before after hcs hoffset

end

end SqlStore.Text.Numeral
