import SqlStore.Text.Numeral

/-!
# Numerals and decimal numbers

A number written in decimal digits is the number again. What is read as a numeral has the form of one
(`Numeral.exists_form_of_read`), and such a text is read in full where nothing goes on with it
(`Numeral.read_of_form`), except that a marker without sign and digits cannot end the text
(`Numeral.read_of_open_exponent`). A numeral is read in the same way where the text goes on with a character of no
numeral (`Numeral.read_append_cons`).
-/

namespace SqlStore.Text

theorem takeWhile_append_cons {p : Char → Bool} {c : Char} (hc : p c = false) (cs more : List Char) :
    (cs ++ c :: more).takeWhile p = cs.takeWhile p := by
  induction cs with
  | nil => simp [hc]
  | cons d cs ih => simp [List.takeWhile_cons, ih]

theorem dropWhile_append_cons {p : Char → Bool} {c : Char} (hc : p c = false) (cs more : List Char) :
    (cs ++ c :: more).dropWhile p = cs.dropWhile p ++ c :: more := by
  induction cs with
  | nil => simp [hc]
  | cons d cs ih =>
      simp only [List.cons_append, List.dropWhile_cons]
      split
      · exact ih
      · rfl

namespace Numeral

/-! ## The grammar -/

section

variable {whole part power ds rest cs numeral : List Char}

def Digits (ds : List Char) : Prop := ∀ c ∈ ds, c.isDigit = true

theorem digits_nil : Digits [] := fun _ hc => absurd hc List.not_mem_nil

/-- Nothing, or a period and digits. -/
inductive Fraction : List Char → Prop
  | none : Fraction []
  | some {ds : List Char} (h : Digits ds) : Fraction ('.' :: ds)

/-- Nothing, or a marker, at most one sign, and digits. -/
inductive Exponent : List Char → Prop
  | none : Exponent []
  | some {mark ds : List Char} (hmark : mark ∈ [[], ['-'], ['+']]) (h : Digits ds) : Exponent ('e' :: (mark ++ ds))

/-- The three parts of a numeral, of which the first two are not both empty. -/
structure Form (whole part power : List Char) : Prop where
  digits : Digits whole
  fraction : Fraction part
  exponent : Exponent power
  ne_nil : whole ≠ [] ∨ part ≠ []

/-- The text does not go on with a numeral. -/
def Stops (rest : List Char) : Prop := ∀ c ∈ rest.head?, c.isDigit = false ∧ c ≠ '.' ∧ c ≠ 'e'

theorem digits_of_head (hds : Digits ds) (hrest : ∀ c ∈ rest.head?, c.isDigit = false) :
    digits (ds ++ rest) = (ds, rest) := by
  rw [digits, List.takeWhile_append_of_pos hds, List.dropWhile_append_of_pos hds]
  cases rest with
  | nil => simp
  | cons c rest =>
      have hc := hrest c rfl
      simp [hc]

theorem fraction_of_head (h : Fraction part) (hrest : ∀ c ∈ rest.head?, c.isDigit = false ∧ c ≠ '.') :
    fraction (part ++ rest) = (part, rest) := by
  cases h with
  | none =>
      cases rest with
      | nil => rfl
      | cons c rest =>
          have hc := (hrest c rfl).2
          simp [fraction, hc]
  | some h =>
      rw [List.cons_append, fraction, digits_of_head h fun c hc => (hrest c hc).1]

theorem sign_of_head {mark : List Char} (hmark : mark ∈ [[], ['-'], ['+']])
    (hrest : mark = [] → ∀ c ∈ rest.head?, c ≠ '-' ∧ c ≠ '+') : sign (mark ++ rest) = (mark, rest) := by
  simp only [List.mem_cons, List.not_mem_nil, or_false] at hmark
  rcases hmark with rfl | rfl | rfl
  · cases rest with
    | nil => rfl
    | cons c rest =>
        have hc := hrest rfl c rfl
        simp [sign, hc]
  · rfl
  · rfl

theorem ne_sign_of_head (h : Digits ds) (hne : ds ≠ []) : ∀ c ∈ (ds ++ rest).head?, c ≠ '-' ∧ c ≠ '+' := by
  intro c hc
  cases ds with
  | nil => exact absurd rfl hne
  | cons d ds =>
      cases hc
      have hd := h _ List.mem_cons_self
      constructor <;> rintro rfl <;> cases hd

/-- After a marker alone the text goes on, and not with a sign. -/
def PastMarker (rest : List Char) : Prop := rest ≠ [] ∧ ∀ c ∈ rest.head?, c ≠ '-' ∧ c ≠ '+'

theorem exponent_of_stops (h : Exponent power) (hmarker : power = ['e'] → PastMarker rest) (hrest : Stops rest) :
    exponent (power ++ rest) = some (power, rest) := by
  cases h with
  | none =>
      cases rest with
      | nil => rfl
      | cons c rest =>
          have hc := (hrest c rfl).2.2
          simp [exponent, hc]
  | @some mark ds hmark h =>
      have htail : mark = [] → ds = [] → PastMarker rest := fun hmark hds => hmarker (by rw [hmark, hds]; rfl)
      have hne : (mark ++ (ds ++ rest)).isEmpty = false := by
        refine Bool.eq_false_iff.2 fun hempty => ?_
        simp only [List.isEmpty_iff, List.append_eq_nil_iff] at hempty
        exact (htail hempty.1 hempty.2.1).1 hempty.2.2
      have hsign : sign (mark ++ (ds ++ rest)) = (mark, ds ++ rest) := by
        refine sign_of_head hmark fun hmark => ?_
        by_cases hds : ds = []
        · rw [hds]
          exact (htail hmark hds).2
        · exact ne_sign_of_head h hds
      have hdigits := digits_of_head h fun c hc => (hrest c hc).1
      rw [List.cons_append, exponent, List.append_assoc, if_neg (by simp [hne]), hsign]
      simp [hdigits]

theorem mantissa_of_form (h : Form whole part power) (hrest : Stops rest) :
    mantissa (whole ++ (part ++ (power ++ rest))) = some (whole ++ part, power ++ rest) := by
  have hpower : ∀ c ∈ (power ++ rest).head?, c.isDigit = false ∧ c ≠ '.' := by
    intro c hc
    cases h.exponent with
    | none => exact ⟨(hrest c hc).1, (hrest c hc).2.1⟩
    | some =>
        cases hc
        decide
  have hpart : ∀ c ∈ (part ++ (power ++ rest)).head?, c.isDigit = false := by
    intro c hc
    cases h.fraction with
    | none => exact (hpower c hc).1
    | some =>
        cases hc
        rfl
  have hstart : (whole.isEmpty && part.isEmpty) = false := by
    rcases h.ne_nil with hne | hne <;> simp [hne]
  rw [mantissa, digits_of_head h.digits hpart]
  simp only [fraction_of_head h.fraction hpower, hstart, Bool.false_eq_true, ↓reduceIte]

theorem continues_of_stops (hrest : Stops rest) : continues rest = false := by
  cases rest with
  | nil => rfl
  | cons c rest =>
      have hc := hrest c rfl
      simp [continues, hc.2]

theorem read_of_form (h : Form whole part power) (hmarker : power = ['e'] → PastMarker rest) (hrest : Stops rest) :
    read (whole ++ (part ++ power) ++ rest) = some (whole ++ (part ++ power), rest) := by
  rw [read]
  simp [mantissa_of_form h hrest, exponent_of_stops h.exponent hmarker hrest, continues_of_stops hrest]

theorem Form.exists_cons (h : Form whole part power) :
    ∃ c cs, whole ++ (part ++ power) = c :: cs ∧ (c.isDigit = true ∨ c = '.') := by
  cases whole with
  | cons d ds => exact ⟨d, _, rfl, .inl (h.digits d List.mem_cons_self)⟩
  | nil =>
      cases h.fraction with
      | none => simpa using h.ne_nil
      | some => exact ⟨_, _, rfl, .inr rfl⟩

/-- A marker cannot end the text. -/
theorem read_of_open_exponent (h : Form whole part ['e']) : read (whole ++ (part ++ ['e'])) = none := by
  have hmantissa : mantissa (whole ++ (part ++ (['e'] ++ []))) = some (whole ++ part, ['e']) :=
    mantissa_of_form h fun c hc => by cases hc
  rw [List.append_nil] at hmantissa
  simp [read, hmantissa, exponent]

theorem digits_digits (cs : List Char) : Digits (digits cs).1 :=
  fun c hc => List.all_eq_true.1 List.all_takeWhile c hc

theorem fraction_fraction (cs : List Char) : Fraction (fraction cs).1 := by
  fun_cases fraction cs with
  | case1 cs => exact .some (digits_digits cs)
  | case2 => exact .none

theorem exponent_of_exponent (h : exponent cs = some (power, rest)) : Exponent power := by
  fun_cases exponent cs with
  | case1 => simp_all [exponent]
  | case2 cs hcs mark power' =>
      simp only [exponent, hcs, ↓reduceIte, Option.some.injEq, Prod.mk.injEq, Bool.false_eq_true] at h
      rw [← h.1]
      refine .some ?_ (digits_digits _)
      fun_cases sign cs <;> simp
  | case3 cs hcs =>
      have hnone : exponent cs = some ([], cs) := by simp [exponent]
      rw [hnone] at h
      cases h
      exact .none

theorem head?_digits (cs : List Char) : ∀ c ∈ (digits cs).2.head?, c.isDigit = false := by
  intro c hc
  have hnot := List.head?_dropWhile_not Char.isDigit cs
  rw [digits] at hc
  rw [hc] at hnot
  exact hnot

theorem head?_fraction (h : ∀ c ∈ cs.head?, c.isDigit = false) : ∀ c ∈ (fraction cs).2.head?, c.isDigit = false := by
  fun_cases fraction cs with
  | case1 cs => exact head?_digits cs
  | case2 => exact h

theorem head?_sign (h : (sign cs).1 = []) : (sign cs).2 = cs ∧ ∀ c ∈ cs.head?, c ≠ '-' ∧ c ≠ '+' := by
  fun_cases sign cs with
  | case1 => cases h
  | case2 => cases h
  | case3 cs hminus hplus =>
      refine ⟨rfl, fun c hc => ?_⟩
      obtain ⟨more, rfl⟩ := List.head?_eq_some_iff.1 hc
      exact ⟨fun h => hminus more (by rw [h]), fun h => hplus more (by rw [h])⟩

theorem stops_of_exponent (h : exponent cs = some (power, rest)) (hcs : ∀ c ∈ cs.head?, c.isDigit = false)
    (hcontinues : continues rest = false) : Stops rest ∧ (power = ['e'] → PastMarker rest) := by
  have hrest : (∀ c ∈ rest.head?, c.isDigit = false) ∧ (power = ['e'] → PastMarker rest) := by
    fun_cases exponent cs with
    | case1 => simp_all [exponent]
    | case2 cs hne mark digit =>
        simp only [exponent, hne, ↓reduceIte, Option.some.injEq, Prod.mk.injEq, Bool.false_eq_true] at h
        obtain ⟨rfl, rfl⟩ := h
        refine ⟨head?_digits _, fun hpower => ?_⟩
        obtain ⟨hsign, hdigits⟩ := List.append_eq_nil_iff.1 (List.cons.inj hpower).2
        obtain ⟨hmark, hhead⟩ := head?_sign hsign
        have hall : (digits cs).2 = cs := by
          have happend := digits_append cs
          rw [hmark] at hdigits
          rwa [hdigits, List.nil_append] at happend
        rw [hmark, hall]
        exact ⟨by simpa using hne, hhead⟩
    | case3 cs hne =>
        have hnone : exponent cs = some ([], cs) := by simp [exponent]
        rw [hnone] at h
        cases h
        exact ⟨hcs, fun hpower => absurd hpower.symm (List.cons_ne_nil _ _)⟩
  refine ⟨fun c hc => ⟨hrest.1 c hc, ?_⟩, hrest.2⟩
  rw [continues, Option.mem_def.1 hc] at hcontinues
  simpa using hcontinues

/-- What is read has the form of a numeral, and does not go on after it. -/
theorem exists_form_of_read (h : read cs = some (numeral, rest)) :
    ∃ whole part power, Form whole part power ∧ numeral = whole ++ (part ++ power) ∧ Stops rest ∧
      (power = ['e'] → PastMarker rest) := by
  simp only [read, Option.bind_eq_bind, Option.bind_eq_some_iff] at h
  obtain ⟨⟨taken, rest₁⟩, hmantissa, ⟨power, rest₂⟩, hpower, h⟩ := h
  split at h
  · cases h
  rename_i hcontinues
  cases h
  simp only [mantissa] at hmantissa
  split at hmantissa
  · cases hmantissa
  rename_i hstart
  cases hmantissa
  have hform : Form (digits cs).1 (fraction (digits cs).2).1 power := by
    refine ⟨digits_digits cs, fraction_fraction _, exponent_of_exponent hpower, ?_⟩
    simpa [Decidable.or_iff_not_imp_left] using hstart
  have hstops := stops_of_exponent hpower (head?_fraction (head?_digits cs)) (by simpa using hcontinues)
  exact ⟨_, _, power, hform, List.append_assoc _ _ _, hstops⟩

/-- Only an exponent without sign and digits ends in a marker. -/
theorem Form.getLast?_eq_marker_iff (h : Form whole part power) :
    (whole ++ (part ++ power)).getLast? = some 'e' ↔ power = ['e'] := by
  have hdigits : ∀ {ds : List Char}, Digits ds → ds.getLast? ≠ some 'e' := by
    intro ds hds hlast
    cases hds _ (List.mem_of_getLast? hlast)
  constructor
  · intro hlast
    cases h.exponent with
    | none =>
        exfalso
        cases h.fraction with
        | none => exact hdigits h.digits (by simpa using hlast)
        | @some ds hds =>
            cases ds with
            | nil => simp at hlast
            | cons d ds => exact hdigits hds (by simpa using hlast)
    | @some mark ds hmark hds =>
        cases ds with
        | cons d ds =>
            refine absurd ?_ (hdigits hds)
            rwa [← List.append_assoc, ← List.cons_append, ← List.append_assoc,
              List.getLast?_append, List.getLast?_cons, Option.some_or, ← List.getLast?_cons] at hlast
        | nil =>
            simp only [List.mem_cons, List.not_mem_nil, or_false] at hmark
            rcases hmark with rfl | rfl | rfl <;> simp_all
  · rintro rfl
    simp

end

/-! ## Decimal numbers -/

theorem digits_toDigits (n : Nat) : Digits (Nat.toDigits 10 n) :=
  fun _ hc => Nat.isDigit_of_mem_toDigits (by decide) (by decide) hc

theorem natural?_toDigits (n : Nat) : natural? (Nat.toDigits 10 n) = some n := by
  have hdigits : (Nat.toDigits 10 n).all Char.isDigit = true := List.all_eq_true.2 (digits_toDigits n)
  have hvalue := @Nat.ofDigitChars_ten_toDigits n
  rw [Nat.ofDigitChars_eq_foldl] at hvalue
  rw [natural?, if_pos (by simp [hdigits]), hvalue]

theorem toList_toString_of_nonneg {n : Int32} (h : 0 ≤ n) :
    (toString n.toInt).toList = Nat.toDigits 10 n.toInt.toNat := by
  have hn : 0 ≤ n.toInt := Int32.le_iff_toInt_le.1 h
  rw [Int.toString_eq_repr, Int.repr_eq_if, if_pos hn, Nat.toList_repr]

/-- Digits that write a number of 32 bits read as the number. -/
theorem int32?_of_natural? {cs : List Char} {n : Int32} {m : Nat} (h : natural? cs = some m) (hn : n.toInt = m) :
    int32? cs = some n := by
  have hcs : cs ≠ [] ∧ Digits cs := by
    rw [natural?] at h
    split at h
    · simp_all [Digits]
    · cases h
  have hsign : sign cs = ([], cs) := by
    have hhead := @ne_sign_of_head cs [] hcs.2 hcs.1
    rw [List.append_nil] at hhead
    exact @sign_of_head _ [] List.mem_cons_self fun _ => hhead
  have hfit : fit m = some n := by
    rw [← hn, fit, if_pos ⟨Int32.minValue_le_toInt n, Int32.toInt_le n⟩, Int32.ofInt_toInt]
  rw [int32?, hsign]
  simp only [Option.bind_eq_bind, h, Option.bind_some, List.nil_eq, reduceCtorEq, ↓reduceIte, hfit]

theorem int32?_toString {n : Int32} (h : 0 ≤ n) : int32? (toString n.toInt).toList = some n := by
  have hn : 0 ≤ n.toInt := Int32.le_iff_toInt_le.1 h
  rw [toList_toString_of_nonneg h]
  exact int32?_of_natural? (natural?_toDigits _) (Int.toNat_of_nonneg hn).symm

theorem Form.sign_eq {whole part power : List Char} (h : Form whole part power) :
    sign (whole ++ (part ++ power)) = ([], whole ++ (part ++ power)) := by
  obtain ⟨c, cs, hcs, hc⟩ := h.exists_cons
  rw [hcs]
  refine @sign_of_head (c :: cs) [] List.mem_cons_self fun _ d hd => ?_
  cases hd
  constructor <;> rintro rfl <;> exact absurd hc (by decide)

/-- A numeral has no sign in front, so the number it writes is not negative. -/
theorem Form.nonneg_of_int32? {whole part power : List Char} {n : Int32} (h : Form whole part power)
    (hn : int32? (whole ++ (part ++ power)) = some n) : 0 ≤ n := by
  rw [int32?, h.sign_eq] at hn
  simp only [Option.bind_eq_bind, Option.bind_eq_some_iff, List.nil_eq, reduceCtorEq, ↓reduceIte] at hn
  obtain ⟨m, -, hfit⟩ := hn
  rw [fit] at hfit
  split at hfit
  · rename_i hbounds
    cases hfit
    rw [Int32.le_iff_toInt_le, Int32.toInt_ofInt_of_le (by omega) (Int.lt_of_le_of_lt hbounds.2 (by decide))]
    exact Int.natCast_nonneg m
  · cases hfit

/-! ## Text that follows -/

/-- A character that can go on with a numeral. -/
def isNumeralChar (c : Char) : Bool := c.isDigit || c == '.' || c == 'e' || c == '+' || c == '-'

section

variable {c : Char} {cs whole power numeral rest more : List Char} (hc : isNumeralChar c = false)

include hc

theorem digits_append_cons : digits (cs ++ c :: more) = ((digits cs).1, (digits cs).2 ++ c :: more) := by
  have hdigit : c.isDigit = false := by simp_all [isNumeralChar]
  rw [digits, takeWhile_append_cons hdigit, dropWhile_append_cons hdigit, digits]

theorem sign_append_cons : sign (cs ++ c :: more) = ((sign cs).1, (sign cs).2 ++ c :: more) := by
  simp only [isNumeralChar, Bool.or_eq_false_iff, beq_eq_false_iff_ne] at hc
  cases cs with
  | nil => simp [sign, hc]
  | cons d cs =>
      by_cases hminus : d = '-'
      · simp [sign, hminus]
      · by_cases hplus : d = '+' <;> simp [sign, hminus, hplus]

theorem fraction_append_cons :
    fraction (cs ++ c :: more) = ((fraction cs).1, (fraction cs).2 ++ c :: more) := by
  have hperiod : c ≠ '.' := by rintro rfl; cases hc
  cases cs with
  | nil => simp [fraction, hperiod]
  | cons d cs => by_cases hd : d = '.' <;> simp [fraction, hd, digits_append_cons hc]

theorem mantissa_append_cons (h : mantissa cs = some (whole, rest)) :
    mantissa (cs ++ c :: more) = some (whole, rest ++ c :: more) := by
  simp only [mantissa, digits_append_cons hc, fraction_append_cons hc] at h ⊢
  split at h
  · cases h
  rename_i hwhole
  cases h
  rw [if_neg hwhole]

theorem exponent_append_cons (h : exponent cs = some (power, rest)) :
    exponent (cs ++ c :: more) = some (power, rest ++ c :: more) := by
  have hmarker : c ≠ 'e' := by rintro rfl; cases hc
  cases cs with
  | nil =>
      cases h
      simp [exponent, hmarker]
  | cons d cs =>
      by_cases hd : d = 'e'
      · subst hd
        simp only [exponent] at h
        split at h
        · cases h
        cases h
        simp [exponent, sign_append_cons hc, digits_append_cons hc]
      · have hnone : ∀ cs, exponent (d :: cs) = some ([], d :: cs) := by
          intro cs
          simp [exponent, hd]
        rw [hnone] at h
        cases h
        exact hnone _

theorem read_append_cons (h : read cs = some (numeral, rest)) :
    read (cs ++ c :: more) = some (numeral, rest ++ c :: more) := by
  simp only [read, Option.bind_eq_bind, Option.bind_eq_some_iff] at h
  obtain ⟨⟨whole, rest₁⟩, hwhole, ⟨power, rest₂⟩, hpower, h⟩ := h
  have hcontinues : continues (rest₂ ++ c :: more) = continues rest₂ := by
    simp only [isNumeralChar, Bool.or_eq_false_iff, beq_eq_false_iff_ne] at hc
    cases rest₂ with
    | nil => simp [continues, hc]
    | cons d rest₂ => rfl
  split at h
  · cases h
  rename_i hstop
  cases h
  simp [read, mantissa_append_cons hc hwhole, exponent_append_cons hc hpower, hcontinues, hstop]

end

end Numeral

end SqlStore.Text
