import Mathlib.Data.List.Induction
import Mathlib.Data.String.Basic
import SqlStore.Position
import SqlStore.Proofs.Text.Utf8

/-!
# Byte offsets

A place in a source text as an offset into its UTF-8 bytes. The line and the column of an offset are counted over
bytes (`Position.ofOffset`). Going over the text character by character arrives at the same place
(`Position.ofOffset_append`), and no two offsets have one place (`Position.ofOffset_inj`).
-/

namespace SqlStore

open String (utf8Len)

namespace Text.Utf8

variable {cs : List Char}

@[simp] theorem length_encode : (encode cs).length = utf8Len cs := by
  induction cs with
  | nil => rfl
  | cons c cs ih =>
      rw [encode_cons, List.length_append, String.length_utf8EncodeChar, ih, String.utf8Len_cons, Nat.add_comm]

/-- An ASCII byte starts a character. -/
theorem exists_append_of_head? {q : Char} {offset : Nat} (hq : q.toNat < 128)
    (h : (byteChars ((encode cs).drop offset)).head? = some q) :
    ∃ before after, cs = before ++ after ∧ utf8Len before = offset := by
  induction cs generalizing offset with
  | nil => simp [byteChars] at h
  | cons c cs ih =>
      rw [encode_cons, List.drop_append, byteChars_append] at h
      rcases Nat.lt_or_ge offset (String.utf8EncodeChar c).length with hlt | hge
      · -- the byte is one of this character, so it is the only one
        refine ⟨[], c :: cs, rfl, ?_⟩
        have hne : byteChars ((String.utf8EncodeChar c).drop offset) ≠ [] := by simpa [byteChars] using hlt
        rw [List.head?_append_of_ne_nil _ hne] at h
        have hmem := List.mem_of_mem_head? h
        rw [byteChars, List.map_drop] at hmem
        rw [eq_of_mem_byteChars hq (List.mem_of_mem_drop hmem), encodeChar_of_ascii hq, List.length_singleton] at hlt
        rw [Nat.lt_one_iff.1 hlt, String.utf8Len_nil]
      · rw [List.drop_eq_nil_of_le hge] at h
        obtain ⟨before, after, rfl, hbefore⟩ := ih h
        refine ⟨c :: before, after, rfl, ?_⟩
        rw [String.utf8Len_cons, hbefore, ← String.length_utf8EncodeChar]
        omega

end Text.Utf8

open Text.Utf8

/-! ## Places of offsets -/

namespace Position

/-- The line feeds among the bytes, and the bytes after the last of them. -/
def afterBytes (bytes : List UInt8) : Position :=
  ⟨bytes.count 10, (bytes.reverse.takeWhile (· != 10)).length⟩

/-- The place that so many bytes of a text stand before. -/
def ofOffset (source : String) (offset : Nat) : Position := afterBytes ((encode source.toList).take offset)

theorem afterBytes_append_of_not_mem {bytes more : List UInt8} (h : 10 ∉ more) :
    afterBytes (bytes ++ more) = ⟨(afterBytes bytes).line, (afterBytes bytes).column + more.length⟩ := by
  have hmore : ∀ b ∈ more.reverse, (b != 10) = true := by
    intro b hb
    rw [bne_iff_ne]
    rintro rfl
    exact h (List.mem_reverse.1 hb)
  simp only [afterBytes, List.count_append, List.count_eq_zero_of_not_mem h, List.reverse_append,
    List.takeWhile_append_of_pos hmore, List.length_append, List.length_reverse]
  simp [Nat.add_comm]

theorem afterBytes_encodeChar (bytes : List UInt8) (c : Char) :
    afterBytes (bytes ++ String.utf8EncodeChar c) = (afterBytes bytes).next c := by
  by_cases hc : c = '\n'
  · subst hc
    have hbyte : String.utf8EncodeChar '\n' = [10] := by decide
    simp [hbyte, afterBytes, next]
  · rw [afterBytes_append_of_not_mem (lineFeed_mem_encodeChar.not.2 hc), next, if_neg hc, String.length_utf8EncodeChar]

theorem advance_afterBytes (bytes : List UInt8) (cs : List Char) :
    (afterBytes bytes).advance cs = afterBytes (bytes ++ encode cs) := by
  induction cs generalizing bytes with
  | nil => simp [encode]
  | cons c cs ih => rw [advance_cons, ← afterBytes_encodeChar, ih, encode_cons, List.append_assoc]

/-- The place after some more characters: each line feed begins a line, and without one the column counts on. -/
theorem advance_eq (p : Position) (cs : List Char) :
    p.advance cs = ⟨p.line + cs.count '\n',
      if '\n' ∈ cs then (afterBytes (encode cs)).column else p.column + utf8Len cs⟩ := by
  induction cs using List.reverseRecOn with
  | nil => rfl
  | append_singleton cs c ih =>
      rw [advance_append, ih, advance_cons, advance_nil, encode_append, encode_cons, encode_nil, List.append_nil,
        afterBytes_encodeChar]
      by_cases hc : c = '\n'
      · simp [next, hc, Nat.add_assoc]
      · by_cases hmem : '\n' ∈ cs <;> simp [next, hc, Ne.symm hc, hmem, Nat.add_assoc]

theorem afterBytes_append_ne {bytes more : List UInt8} (h : more ≠ []) :
    afterBytes (bytes ++ more) ≠ afterBytes bytes := by
  intro heq
  by_cases hmore : 10 ∈ more
  · have hline : bytes.count 10 + more.count 10 = bytes.count 10 := by
      rw [← List.count_append]
      exact congrArg line heq
    have hpos := List.count_pos_iff.2 hmore
    omega
  · rw [afterBytes_append_of_not_mem hmore] at heq
    have hcolumn : (afterBytes bytes).column + more.length = (afterBytes bytes).column := congrArg column heq
    have hpos := List.length_pos_iff.2 h
    omega

end Position

section

variable {source : String} {before after : List Char} (h : source.toList = before ++ after)

include h

theorem utf8ByteSize_of_append : source.utf8ByteSize = utf8Len before + utf8Len after := by
  rw [← String.utf8Len_append, ← h, ← String.utf8ByteSize_ofList, String.ofList_toList]

/-- Where a text can be split between characters is a character boundary of its bytes. -/
theorem isValid_of_append : (String.Pos.Raw.mk (utf8Len before)).IsValid source := by
  have hsource : source = String.ofList before ++ String.ofList after := by
    rw [← String.ofList_append, ← h, String.ofList_toList]
  rw [hsource, ← String.utf8ByteSize_ofList]
  exact String.Pos.Raw.isValid_rawEndPos.append_right _

theorem Position.ofOffset_append : ofOffset source (utf8Len before) = origin.advance before := by
  have htake : (encode source.toList).take (utf8Len before) = encode before := by
    rw [h, encode_append, ← length_encode, List.take_left]
  rw [ofOffset, htake]
  exact (advance_afterBytes [] before).symm

end

theorem Position.ofOffset_ne_of_lt {source : String} {i j : Nat} (hij : i < j) (hj : j ≤ source.utf8ByteSize) :
    ofOffset source j ≠ ofOffset source i := by
  have hlength : j ≤ (encode source.toList).length := by
    rwa [length_encode, ← String.utf8ByteSize_ofList, String.ofList_toList]
  obtain ⟨n, rfl⟩ := Nat.exists_eq_add_of_lt hij
  rw [ofOffset, Nat.add_assoc, List.take_add]
  refine afterBytes_append_ne fun hnil => ?_
  have := congrArg List.length hnil
  simp only [List.length_take, List.length_drop, List.length_nil] at this
  omega

theorem Position.ofOffset_inj {source : String} {i j : Nat} (hi : i ≤ source.utf8ByteSize)
    (hj : j ≤ source.utf8ByteSize) (h : ofOffset source i = ofOffset source j) : i = j := by
  rcases Nat.lt_trichotomy i j with hlt | heq | hgt
  · exact absurd h.symm (ofOffset_ne_of_lt hlt hj)
  · exact heq
  · exact absurd h (ofOffset_ne_of_lt hgt hi)

/-! ## Ranges of bytes -/

/-- The bytes from one offset up to another. -/
structure Span where
  start : Nat
  stop : Nat

/-- The part of a text between the two offsets. -/
def Span.text (source : String) (span : Span) : String :=
  String.Pos.Raw.extract source ⟨span.start⟩ ⟨span.stop⟩

theorem Span.text_of_append {source : String} {before middle after : List Char}
    (h : source.toList = before ++ (middle ++ after)) :
    (Span.mk (utf8Len before) (utf8Len (before ++ middle))).text source = String.ofList middle := by
  have hsource : source = String.ofList (before ++ middle ++ after) := by
    rw [List.append_assoc, ← h, String.ofList_toList]
  rw [hsource, text, String.utf8Len_append]
  exact String.extract_of_valid before middle after

end SqlStore
