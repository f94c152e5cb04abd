import Mathlib.Data.List.MinMax
import Mathlib.Data.List.Nodup
import SqlStore.Proofs.Text.LongestMatch
import SqlStore.Proofs.Text.Offset

/-!
# The walk of the longest match

After any characters of a text the walk has found the longest option that begins them, and is left with the options
that go on (`Walk.Describes`). It reads on while there are such options (`Walk.Reads`). So what it finds depends on which
options there are and not on their order (`longestMatch_eq_some_iff`), and it is the same over bytes
(`longestMatch_exact`).
-/

namespace SqlStore.Text

open String (utf8Len)
open Utf8 (byteChars encode lowerByte)

variable {α : Type} {spelling : α → String} {options : List α} {a : α} {c : Char} {ws cs taken rest : List Char}

/-! ## The longest option -/

/-- The option begins the text, and no longer one does. -/
structure IsLongest (spelling : α → String) (options : List α) (cs : List Char) (a : α) : Prop where
  mem : a ∈ options
  begins : Begins (spelling a).toList cs
  le : ∀ b ∈ options, Begins (spelling b).toList cs → (spelling b).toList.length ≤ (spelling a).toList.length

/-- No spelling is empty, and no two options have the same one. -/
structure Spelled (spelling : α → String) (options : List α) : Prop where
  ne_empty : ∀ a ∈ options, spelling a ≠ ""
  nodup : (options.map spelling).Nodup

theorem exists_isLongest (ha : a ∈ options) (hbegins : Begins (spelling a).toList cs) :
    ∃ b, IsLongest spelling options cs b := by
  classical
  let beginning := options.filter fun b => Begins (spelling b).toList cs
  have hmem : ∀ b, b ∈ beginning ↔ b ∈ options ∧ Begins (spelling b).toList cs := by simp [beginning]
  cases hmax : beginning.argmax fun b => (spelling b).toList.length with
  | none =>
      rw [List.argmax_eq_none] at hmax
      have hin := (hmem a).2 ⟨ha, hbegins⟩
      rw [hmax] at hin
      cases hin
  | some b =>
      obtain ⟨hb, hbbegins⟩ := (hmem b).1 (List.argmax_mem hmax)
      refine ⟨b, hb, hbbegins, fun d hd hdbegins => ?_⟩
      have hle := List.le_of_mem_argmax ((hmem d).2 ⟨hd, hdbegins⟩) hmax
      exact hle

/-- Two options that begin the same text are spelled alike if they are as long as each other. -/
theorem Begins.eq_of_length_eq {vs : List Char} (hv : Begins vs cs) (hw : Begins ws cs)
    (hlength : vs.length = ws.length) : vs = ws :=
  (List.prefix_of_prefix_length_le hv hw hlength.le).eq_of_length hlength

theorem IsLongest.longestMatch_eq (h : Spelled spelling options) (ha : IsLongest spelling options cs a) :
    longestMatch spelling options cs = some a := by
  refine longestMatch_eq_some ha.mem (h.ne_empty a ha.mem) ha.begins fun b hb hbegins => ?_
  rcases (ha.le b hb hbegins).lt_or_eq with hlt | hlength
  · exact .inl hlt
  · have hspelling := String.toList_inj.1 (hbegins.eq_of_length_eq ha.begins hlength)
    exact .inr (List.inj_on_of_nodup_map h.nodup hb ha.mem hspelling)

theorem longestMatch_eq_some_iff (h : Spelled spelling options) :
    longestMatch spelling options cs = some a ↔ IsLongest spelling options cs a := by
  refine ⟨fun hfound => ?_, fun ha => ha.longestMatch_eq h⟩
  obtain ⟨ha, hbegins⟩ := begins_of_longestMatch hfound
  obtain ⟨b, hb⟩ := exists_isLongest ha hbegins
  obtain rfl : b = a := Option.some.inj ((hb.longestMatch_eq h).symm.trans hfound)
  exact hb

theorem longestMatch_eq_none_iff (h : Spelled spelling options) :
    longestMatch spelling options cs = none ↔ ∀ a ∈ options, ¬ Begins (spelling a).toList cs := by
  refine ⟨fun hnone a ha hbegins => ?_, longestMatch_eq_none⟩
  obtain ⟨b, hb⟩ := exists_isLongest ha hbegins
  rw [hb.longestMatch_eq h] at hnone
  cases hnone

theorem IsLongest.congr {options' : List α} {cs' : List Char} (ha : IsLongest spelling options cs a)
    (hsame : ∀ b, b ∈ options ∧ Begins (spelling b).toList cs ↔ b ∈ options' ∧ Begins (spelling b).toList cs') :
    IsLongest spelling options' cs' a := by
  obtain ⟨hmem, hbegins⟩ := (hsame a).1 ⟨ha.mem, ha.begins⟩
  refine ⟨hmem, hbegins, fun b hb hbbegins => ?_⟩
  obtain ⟨hin, hbegin⟩ := (hsame b).2 ⟨hb, hbbegins⟩
  exact ha.le b hin hbegin

/-- What is found depends on nothing but which options begin the text. -/
theorem longestMatch_congr {options' : List α} {cs' : List Char} (h : Spelled spelling options)
    (h' : Spelled spelling options')
    (hsame : ∀ b, b ∈ options ∧ Begins (spelling b).toList cs ↔ b ∈ options' ∧ Begins (spelling b).toList cs') :
    longestMatch spelling options cs = longestMatch spelling options' cs' := by
  refine Option.ext fun a => ?_
  rw [longestMatch_eq_some_iff h, longestMatch_eq_some_iff h']
  exact ⟨fun ha => ha.congr hsame, fun ha => ha.congr fun b => (hsame b).symm⟩

theorem longestMatch_perm {options' : List α} (h : Spelled spelling options) (hperm : options'.Perm options) :
    longestMatch spelling options' cs = longestMatch spelling options cs := by
  have h' : Spelled spelling options' :=
    ⟨fun a ha => h.ne_empty a (hperm.mem_iff.1 ha), (hperm.map spelling).nodup_iff.2 h.nodup⟩
  exact longestMatch_congr h' h fun b => and_congr_left fun _ => hperm.mem_iff

/-! ## One character after another -/

/-- The last option that was complete, and the candidates that are left. -/
structure Walk (α : Type) where
  best : Option α
  live : List (Candidate α)

namespace Walk

variable {w w' : Walk α}

def start (spelling : α → String) (options : List α) : Walk α :=
  ⟨none, options.map fun a => (a, (spelling a).toList)⟩

/-- The walk after one more character: a candidate that is complete is the best so far, and no candidate any more. -/
def next (w : Walk α) (c : Char) : Walk α :=
  let agreeing := narrow c w.live
  let complete := agreeing.find? fun (_, remaining) => remaining.isEmpty
  ⟨(complete.map Prod.fst).or w.best, agreeing.filter fun (_, remaining) => !remaining.isEmpty⟩

/-- The walk reads the characters one after another, each of them while a candidate is left. -/
inductive Reads : Walk α → List Char → Walk α → Prop
  | nil {w : Walk α} : Reads w [] w
  | cons {w w' : Walk α} {c : Char} {cs : List Char} (hlive : w.live ≠ []) (h : Reads (w.next c) cs w') :
      Reads w (c :: cs) w'

/-- The best option so far is the longest that begins the characters, and the candidates left are the options that go on
after them. -/
structure Describes (spelling : α → String) (options : List α) (taken : List Char) (w : Walk α) : Prop where
  best : ∀ a, w.best = some a ↔ IsLongest spelling options taken a
  live : ∀ a ws, (a, ws) ∈ w.live ↔ a ∈ options ∧ ws ≠ [] ∧ (spelling a).toList = taken.map Char.toLower ++ ws

theorem mem_live_next : (a, ws) ∈ (w.next c).live ↔ (a, c.toLower :: ws) ∈ w.live ∧ ws ≠ [] := by
  simp [next, mem_narrow]

theorem longestFrom_next (hlive : w.live ≠ []) :
    longestFrom w.best w.live (c :: cs) = longestFrom (w.next c).best (w.next c).live cs := by
  obtain ⟨best, live⟩ := w
  cases live with
  | nil => exact absurd rfl hlive
  | cons x live => rfl

/-- The walk ends where no candidate is left, and at the end of the text. -/
theorem longestFrom_end (h : cs = [] ∨ w.live = []) : longestFrom w.best w.live cs = w.best := by
  obtain ⟨best, live⟩ := w
  rcases h with rfl | rfl
  · cases live <;> rfl
  · cases cs <;> rfl

theorem Reads.longestFrom_append (h : w.Reads cs w') (rest : List Char) :
    longestFrom w.best w.live (cs ++ rest) = longestFrom w'.best w'.live rest := by
  induction h with
  | nil => rfl
  | cons hlive _ ih => rw [List.cons_append, longestFrom_next hlive, ih]

theorem Reads.mem_live (h : w.Reads cs w') (hopen : ∀ x ∈ w.live, x.2 ≠ []) :
    (a, ws) ∈ w'.live ↔ (a, cs.map Char.toLower ++ ws) ∈ w.live ∧ ws ≠ [] := by
  induction h with
  | nil => exact (and_iff_left_of_imp (hopen (a, ws))).symm
  | cons _ _ ih =>
      rw [ih fun x hx => (mem_live_next.1 hx).2, mem_live_next, List.map_cons, List.cons_append]
      exact and_congr_left fun hws => and_iff_left (by simp [hws])

theorem exists_reads (w : Walk α) (cs : List Char) :
    ∃ taken rest w', cs = taken ++ rest ∧ w.Reads taken w' ∧ (rest = [] ∨ w'.live = []) := by
  induction cs generalizing w with
  | nil => exact ⟨[], [], w, rfl, .nil, .inl rfl⟩
  | cons c cs ih =>
      by_cases hlive : w.live = []
      · exact ⟨[], c :: cs, w, rfl, .nil, .inr hlive⟩
      · obtain ⟨taken, rest, w', rfl, hreads, hend⟩ := ih (w.next c)
        exact ⟨c :: taken, rest, w', rfl, .cons hlive hreads, hend⟩

theorem Reads.describes (h : Spelled spelling options) (hreads : (start spelling options).Reads taken w) :
    w.Describes spelling options taken where
  best a := by
    have hbest := hreads.longestFrom_append []
    rw [List.append_nil, longestFrom_end (.inl rfl)] at hbest
    rw [← longestMatch_eq_some_iff h, ← hbest]
    rfl
  live a ws := by
    have hopen : ∀ x ∈ (start spelling options).live, x.2 ≠ [] := by
      rintro x hx
      obtain ⟨b, hb, rfl⟩ := List.mem_map.1 hx
      simpa using h.ne_empty b hb
    rw [hreads.mem_live hopen, start, List.mem_map]
    constructor
    · rintro ⟨⟨b, hb, heq⟩, hws⟩
      obtain ⟨rfl, hspelling⟩ := Prod.mk.inj heq
      exact ⟨hb, hws, hspelling⟩
    · rintro ⟨ha, hws, hspelling⟩
      exact ⟨⟨a, ha, by rw [hspelling]⟩, hws⟩

end Walk

/-! ## Bytes -/

section

variable {bytes : List UInt8} (hws : ∀ q ∈ ws, q.toNat < 128)

include hws

theorem begins_byteChars_iff : Begins ws (byteChars bytes) ↔ encode ws <+: bytes.map lowerByte := by
  rw [Begins, Utf8.map_toLower_byteChars, ← Utf8.byteChars_prefix_iff, Utf8.byteChars_encode_of_ascii hws]

theorem length_encode_of_ascii : (encode ws).length = ws.length := by
  have hlength := congrArg List.length (Utf8.byteChars_encode_of_ascii hws)
  rwa [byteChars, List.length_map] at hlength

theorem begins_byteChars_encode_iff : Begins ws (byteChars (encode cs)) ↔ Begins ws cs := by
  induction ws generalizing cs with
  | nil => exact iff_of_true begins_nil begins_nil
  | cons q ws ih =>
      obtain ⟨hq, htail⟩ := List.forall_mem_cons.1 hws
      cases cs with
      | nil => rfl
      | cons c cs =>
          rw [begins_cons_cons, Utf8.encode_cons, Utf8.byteChars_append]
          by_cases hc : c.toNat < 128
          · rw [Utf8.byteChars_encodeChar hc, List.singleton_append, begins_cons_cons, ih htail]
          · -- the character is not the first one of the spelling, and neither is its first byte
            have hne : q ≠ c.toLower := fun heq => hc (Utf8.toNat_lt_of_toLower (heq ▸ hq))
            refine iff_of_false (fun hbegins => ?_) fun hbegins => hne hbegins.1
            obtain ⟨d, ds, hds⟩ := List.exists_cons_of_ne_nil (Utf8.byteChars_encodeChar_ne_nil c)
            rw [hds, List.cons_append, begins_cons_cons] at hbegins
            have hd : d.toNat < 128 := Utf8.toNat_lt_of_toLower (hbegins.1 ▸ hq)
            have hmem : d ∈ byteChars (String.utf8EncodeChar c) := hds ▸ List.mem_cons_self
            exact hc (Utf8.eq_of_mem_byteChars hd hmem ▸ hd)

end

/-- Every character of a spelling is ASCII, so that it is one byte of a text. -/
def AsciiSpelled (spelling : α → String) (options : List α) : Prop :=
  ∀ a ∈ options, ∀ c ∈ (spelling a).toList, c.toNat < 128

theorem isLongest_byteChars_iff {bytes : List UInt8} (hascii : AsciiSpelled spelling options) :
    IsLongest spelling options (byteChars bytes) a ↔
      a ∈ options ∧ encode (spelling a).toList <+: bytes.map lowerByte ∧
        ∀ b ∈ options, encode (spelling b).toList <+: bytes.map lowerByte →
          (encode (spelling b).toList).length ≤ (encode (spelling a).toList).length := by
  constructor
  · intro ha
    refine ⟨ha.mem, (begins_byteChars_iff (hascii a ha.mem)).1 ha.begins, fun b hb hbegins => ?_⟩
    rw [length_encode_of_ascii (hascii a ha.mem), length_encode_of_ascii (hascii b hb)]
    exact ha.le b hb ((begins_byteChars_iff (hascii b hb)).2 hbegins)
  · rintro ⟨ha, hbegins, hle⟩
    refine ⟨ha, (begins_byteChars_iff (hascii a ha)).2 hbegins, fun b hb hbbegins => ?_⟩
    rw [← length_encode_of_ascii (hascii a ha), ← length_encode_of_ascii (hascii b hb)]
    exact hle b hb ((begins_byteChars_iff (hascii b hb)).1 hbbegins)

/-- Between characters of a text, the same is found among its characters as among its bytes. -/
theorem longestMatch_byteChars_encode (h : Spelled spelling options) (hascii : AsciiSpelled spelling options) :
    longestMatch spelling options (byteChars (encode cs)) = longestMatch spelling options cs :=
  longestMatch_congr h h fun b => and_congr_right fun hb => begins_byteChars_encode_iff (hascii b hb)

/-- At any offset of a source text, the option is found whose bytes are the longest to begin the bytes there in lower
case, and none where no option's bytes begin them. The order of the options is of no account. The walk reads byte after
byte; it ends with the source or where no option goes on after the bytes read, and what it has found then is the
answer. Between characters it finds the same among the characters. -/
theorem longestMatch_exact (h : Spelled spelling options) (hascii : AsciiSpelled spelling options) (source : String)
    (offset : Nat) :
    let bytes := (encode source.toList).drop offset
    let spelled := fun a => encode (spelling a).toList
    let found := longestMatch spelling options (byteChars bytes)
    (∀ a, found = some a ↔ a ∈ options ∧ spelled a <+: bytes.map lowerByte ∧
      ∀ b ∈ options, spelled b <+: bytes.map lowerByte → (spelled b).length ≤ (spelled a).length) ∧
    (found = none ↔ ∀ a ∈ options, ¬ spelled a <+: bytes.map lowerByte) ∧
    (∀ options' : List α, options'.Perm options → longestMatch spelling options' (byteChars bytes) = found) ∧
    (∀ taken rest w, byteChars bytes = taken ++ rest → (Walk.start spelling options).Reads taken w →
      w.Describes spelling options taken ∧ found = longestFrom w.best w.live rest) ∧
    (∃ taken rest w, byteChars bytes = taken ++ rest ∧ (Walk.start spelling options).Reads taken w ∧
      (rest = [] ∨ w.live = []) ∧ found = w.best) ∧
    ∀ before cs, source.toList = before ++ cs → utf8Len before = offset →
      longestMatch spelling options cs = found := by
  intro bytes spelled found
  have hreads : ∀ {taken rest w}, byteChars bytes = taken ++ rest → (Walk.start spelling options).Reads taken w →
      found = longestFrom w.best w.live rest := by
    intro taken rest w hsplit hread
    rw [← hread.longestFrom_append rest, ← hsplit]
    rfl
  refine ⟨fun a => ?_, ?_, fun options' hperm => longestMatch_perm h hperm,
    fun taken rest w hsplit hread => ⟨hread.describes h, hreads hsplit hread⟩, ?_, fun before cs hsource hbefore => ?_⟩
  · rw [longestMatch_eq_some_iff h, isLongest_byteChars_iff hascii]
  · rw [longestMatch_eq_none_iff h]
    exact forall₂_congr fun a ha => not_congr (begins_byteChars_iff (hascii a ha))
  · obtain ⟨taken, rest, w, hsplit, hread, hend⟩ := (Walk.start spelling options).exists_reads (byteChars bytes)
    exact ⟨taken, rest, w, hsplit, hread, hend, by rw [hreads hsplit hread, Walk.longestFrom_end hend]⟩
  · have hdrop : bytes = encode cs := by
      change (encode source.toList).drop offset = encode cs
      rw [hsource, Utf8.encode_append, ← hbefore, ← Utf8.length_encode, List.drop_left]
    rw [← longestMatch_byteChars_encode h hascii, ← hdrop]

/-- Two words that begin alike, in front of one that both of them begin. -/
theorem longestMatch_exact_into :
    let options := ["int", "on", "into"]
    Spelled id options ∧ AsciiSpelled id options ∧
      longestMatch id options (byteChars ((encode "é INTOX".toList).drop 3)) = some "into" ∧
      longestMatch id options "INTOX".toList = some "into" := by
  intro options
  have h : Spelled id options := ⟨by simp [options], by simp [options]⟩
  have hascii : AsciiSpelled id options := by simp [AsciiSpelled, options]
  obtain ⟨hsome, -, -, -, -, hcharacters⟩ := longestMatch_exact h hascii "é INTOX" 3
  have hfound := (hsome "into").2 ⟨by simp [options], by decide, by decide⟩
  exact ⟨h, hascii, hfound, (hcharacters "é ".toList "INTOX".toList rfl rfl).trans hfound⟩

end SqlStore.Text
