import Mathlib.Data.List.Basic
import SqlStore.Text.Utf8

/-!
# Well-formed bytes

Bytes read as a text exactly if they are its UTF-8 form (`decode?_eq_some_iff`). The byte of an ASCII character stands
for itself only (`ascii_mem_encodeChar`), so bytes can be cut at line feeds before they are read.
-/

namespace SqlStore.Text.Utf8

variable {c q : Char} {cs ds : List Char} {bytes : List UInt8}

@[simp] theorem encode_nil : encode [] = [] := rfl

theorem encode_cons : encode (c :: cs) = String.utf8EncodeChar c ++ encode cs := List.flatMap_cons

@[simp] theorem encode_append : encode (cs ++ ds) = encode cs ++ encode ds := List.flatMap_append

theorem encode_eq_nil_iff : encode cs = [] ↔ cs = [] := by
  cases cs with
  | nil => simp
  | cons c cs => simp [encode_cons, String.utf8EncodeChar_ne_nil]

theorem toNat_eq_of_toUInt8_eq {n : Nat} (hq : q.toNat < 128) (hlt : n < 256) (h : q.toUInt8 = UInt8.ofNat n) :
    q.toNat = n := by
  have hq' : q.toUInt8.toNat = q.toNat % 2 ^ 8 := UInt32.toNat_toUInt8 q.val
  have hn : (UInt8.ofNat n).toNat = n % 2 ^ 8 := UInt8.toNat_ofNat'
  rw [h] at hq'
  omega

theorem toUInt8_ne_ofNat {n : Nat} (hq : q.toNat < 128) (h : 128 ≤ n) (hlt : n < 256) :
    q.toUInt8 ≠ UInt8.ofNat n := by
  intro heq
  have := toNat_eq_of_toUInt8_eq hq hlt heq
  omega

theorem encodeChar_of_ascii (hq : q.toNat < 128) : String.utf8EncodeChar q = [q.toUInt8] := by
  have hle : q.val.toNat ≤ 127 := Nat.le_of_lt_succ hq
  rw [String.utf8EncodeChar]
  simp only [hle, ↓reduceIte]
  rfl

/-- The byte of an ASCII character stands in no other character. -/
theorem ascii_mem_encodeChar (hq : q.toNat < 128) : q.toUInt8 ∈ String.utf8EncodeChar c ↔ c = q := by
  constructor
  · fun_cases String.utf8EncodeChar c with
    | case1 v hv =>
        intro h
        have hval := toNat_eq_of_toUInt8_eq hq (by omega) (List.mem_singleton.1 h)
        exact Char.ext (UInt32.toNat_inj.1 hval.symm)
    | case2 | case3 | case4 =>
        -- every byte of a longer form has its high bit set
        intro h
        simp (disch := omega) only [List.mem_cons, List.not_mem_nil, toUInt8_ne_ofNat hq, or_self] at h
  · rintro rfl
    rw [encodeChar_of_ascii hq]
    exact List.mem_singleton_self _

theorem lineFeed_mem_encodeChar : 10 ∈ String.utf8EncodeChar c ↔ c = '\n' :=
  ascii_mem_encodeChar (q := '\n') (by decide)

theorem exists_of_head? (h : head? bytes = some c) : ∃ rest, bytes = String.utf8EncodeChar c ++ rest := by
  obtain ⟨more, hmore⟩ := ByteArray.exists_of_utf8DecodeChar?_eq_some h
  have htake : bytes.take 4 = String.utf8EncodeChar c ++ more.data.toList := by
    have := congrArg (·.data.toList) hmore
    simpa only [List.toList_data_toByteArray, ByteArray.toList_data_append] using this
  exact ⟨more.data.toList ++ bytes.drop 4, by rw [← List.append_assoc, ← htake, List.take_append_drop]⟩

/-- Bytes are read as a text exactly if they are its UTF-8 form. -/
theorem decode?_eq_some_iff : decode? bytes = some cs ↔ bytes = encode cs := by
  refine ⟨fun h => ?_, fun h => by rw [h, decode?_encode]⟩
  induction cs generalizing bytes with
  | nil =>
      cases bytes with
      | nil => rfl
      | cons b bytes =>
          rw [decode?] at h
          split at h
          · simp at h
          · cases h
  | cons c cs ih =>
      cases bytes with
      | nil => simp [decode?] at h
      | cons b bytes =>
          cases hhead : head? (b :: bytes) with
          | none => simp [decode?, hhead] at h
          | some d =>
              obtain ⟨rest, hrest⟩ := exists_of_head? hhead
              rw [hrest, decode?_encodeChar_append] at h
              obtain ⟨es, hes, heq⟩ := Option.map_eq_some_iff.1 h
              obtain ⟨rfl, rfl⟩ := List.cons.inj heq
              rw [hrest, encode_cons, ih hes]

theorem encode_lineFeed : encode ['\n'] = [10] := by decide

theorem exists_of_encode_eq_append_lineFeed (h : encode cs = bytes ++ [10]) : ∃ ds, bytes = encode ds := by
  rcases cs.eq_nil_or_concat with rfl | ⟨ds, c, rfl⟩
  · simp [encode] at h
  · rw [List.concat_eq_append, encode_append, encode_cons] at h
    have hlast := congrArg List.getLast? h
    have hc : c = '\n' := by
      refine lineFeed_mem_encodeChar.1 (List.mem_of_getLast? ?_)
      simpa [encode, List.getLast?_append, Option.or_eq_some_iff] using hlast
    subst hc
    exact ⟨ds, (List.append_cancel_right h).symm⟩

/-- Bytes with a line feed after them are a text exactly if they are one without it. -/
theorem decode?_append_lineFeed : decode? (bytes ++ [10]) = (decode? bytes).map (· ++ ['\n']) := by
  cases h : decode? bytes with
  | some cs =>
      rw [decode?_eq_some_iff.1 h, ← encode_lineFeed, ← encode_append, decode?_encode]
      rfl
  | none =>
      refine Option.eq_none_iff_forall_ne_some.2 fun cs hcs => ?_
      obtain ⟨ds, hds⟩ := exists_of_encode_eq_append_lineFeed (decode?_eq_some_iff.1 hcs).symm
      rw [decode?_eq_some_iff.2 hds] at h
      cases h

/-! ## Bytes one by one -/

/-- The bytes, each taken for the character with its code. -/
def byteChars (bytes : List UInt8) : List Char := bytes.map fun b => Char.ofNat b.toNat

@[simp] theorem byteChars_append (bytes more : List UInt8) :
    byteChars (bytes ++ more) = byteChars bytes ++ byteChars more := List.map_append

theorem byteChars_encodeChar (hq : q.toNat < 128) : byteChars (String.utf8EncodeChar q) = [q] := by
  have hbyte : q.toUInt8.toNat = q.toNat % 2 ^ 8 := UInt32.toNat_toUInt8 q.val
  rw [encodeChar_of_ascii hq, byteChars, List.map_singleton, hbyte, Nat.mod_eq_of_lt (by omega), Char.ofNat_toNat]

theorem byteChars_encodeChar_ne_nil (c : Char) : byteChars (String.utf8EncodeChar c) ≠ [] := by
  rw [byteChars, ne_eq, List.map_eq_nil_iff]
  exact String.utf8EncodeChar_ne_nil

theorem toNat_byteChar (b : UInt8) : (Char.ofNat b.toNat).toNat = b.toNat := by
  have hvalid : b.toNat.isValidChar := .inl (Nat.lt_trans b.toNat_lt (by decide))
  rw [Char.ofNat, dif_pos hvalid]
  rfl

theorem eq_of_mem_byteChars (hq : q.toNat < 128) (h : q ∈ byteChars (String.utf8EncodeChar c)) : c = q := by
  obtain ⟨b, hb, rfl⟩ := List.mem_map.1 h
  have hcode := toNat_byteChar b
  have hbyte : (Char.ofNat b.toNat).toUInt8 = b := by
    refine UInt8.toNat_inj.1 ?_
    have hlow : (Char.ofNat b.toNat).toUInt8.toNat = (Char.ofNat b.toNat).toNat % 2 ^ 8 := UInt32.toNat_toUInt8 _
    omega
  rw [← hbyte] at hb
  exact (ascii_mem_encodeChar hq).1 hb

/-- ASCII characters at the head are the same among the bytes as in the text. -/
theorem byteChars_encode_eq_append_iff {v r : List Char} (hv : ∀ q ∈ v, q.toNat < 128) :
    byteChars (encode cs) = v ++ r ↔ ∃ rest, cs = v ++ rest ∧ r = byteChars (encode rest) := by
  induction v generalizing cs with
  | nil => simp [eq_comm]
  | cons q v ih =>
      obtain ⟨hq, htail⟩ := List.forall_mem_cons.1 hv
      constructor
      · intro h
        cases cs with
        | nil => cases h
        | cons c cs =>
            rw [encode_cons, byteChars_append] at h
            have hhead := congrArg List.head? h
            rw [List.head?_append_of_ne_nil _ (byteChars_encodeChar_ne_nil c)] at hhead
            obtain rfl := eq_of_mem_byteChars hq (List.mem_of_mem_head? hhead)
            rw [byteChars_encodeChar hq, List.singleton_append, List.cons_append, List.cons.injEq] at h
            obtain ⟨rest, rfl, hr⟩ := (ih htail).1 h.2
            exact ⟨rest, rfl, hr⟩
      · rintro ⟨rest, rfl, rfl⟩
        rw [List.cons_append, encode_cons, byteChars_append, byteChars_encodeChar hq, (ih htail).2 ⟨rest, rfl, rfl⟩]
        rfl

theorem head?_byteChars_encode (hq : q.toNat < 128) : (byteChars (encode cs)).head? = some q ↔ cs.head? = some q := by
  have happend := @byteChars_encode_eq_append_iff cs [q]
  simp only [List.mem_singleton, forall_eq, List.singleton_append] at happend
  simp only [List.head?_eq_some_iff, happend hq]
  constructor
  · rintro ⟨-, rest, hcs, -⟩
    exact ⟨rest, hcs⟩
  · rintro ⟨rest, hcs⟩
    exact ⟨_, rest, hcs, rfl⟩

theorem byteChars_encode_of_ascii (h : ∀ q ∈ cs, q.toNat < 128) : byteChars (encode cs) = cs := by
  have hself := (byteChars_encode_eq_append_iff h).2 ⟨[], (List.append_nil cs).symm, rfl⟩
  simpa [byteChars] using hself

theorem byteChars_prefix_iff {bytes more : List UInt8} : byteChars bytes <+: byteChars more ↔ bytes <+: more := by
  refine List.prefix_map_iff_of_injective fun a b hab => UInt8.toNat_inj.1 ?_
  rw [← toNat_byteChar a, hab, toNat_byteChar]

/-! ## Bytes in lower case -/

/-- The byte of an ASCII capital letter gives that of the small letter. -/
def lowerByte (b : UInt8) : UInt8 := if 65 ≤ b ∧ b ≤ 90 then b + 32 else b

theorem toLower_byteChar (b : UInt8) : (Char.ofNat b.toNat).toLower = Char.ofNat (lowerByte b).toNat := by
  have hall : ∀ n : Fin 256, (Char.ofNat n).toLower = Char.ofNat (lowerByte (UInt8.ofNat n)).toNat := by
    decide +kernel
  simpa using hall ⟨b.toNat, b.toNat_lt⟩

theorem map_toLower_byteChars (bytes : List UInt8) :
    (byteChars bytes).map Char.toLower = byteChars (bytes.map lowerByte) := by
  simp [byteChars, toLower_byteChar]

/-- Only the letters of ASCII have another letter for lower case. -/
theorem toNat_lt_of_toLower (h : c.toLower.toNat < 128) : c.toNat < 128 := by
  by_cases hupper : 'A'.val ≤ c.val ∧ c.val ≤ 'Z'.val
  · exact Nat.lt_of_le_of_lt (UInt32.le_iff_toNat_le.1 hupper.2) (by decide)
  · have hsame : c.toLower = c := dif_neg hupper
    rwa [hsame] at h

end SqlStore.Text.Utf8
