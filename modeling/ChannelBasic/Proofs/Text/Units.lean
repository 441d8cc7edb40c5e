import ChannelBasic.Text.Utf16

/-!
# Proofs/Text/Units — texts and their code units

A text is read back from its units (`Utf16.decode_encode`), character by character, since a character
beyond the first 65536 is spelled by a proper pair and every other one by a unit that is no half of a
pair.  Units that are no text are read as one that takes no more of them (`Utf16.units_decode_le`).
-/

namespace ChannelBasic.Utf16

theorem length_unitsOf_single (u : UInt16) : (unitsOf (single u)).length = 1 := by
  have hu : u.toNat < 65536 := u.toNat_lt
  have small : (single u).toNat < 0x10000 := by
    unfold single
    split
    · decide
    · by_cases hv : u.toNat.isValidChar
      · rw [Char.ofNat, dif_pos hv]
        exact hu
      · simp [Char.ofNat, hv]
  rw [unitsOf, if_pos small]
  rfl

theorem length_unitsOf_le (c : Char) : (unitsOf c).length ≤ 2 := by
  unfold unitsOf
  split <;> simp

/-- **A text read from units takes no more units.** -/
theorem units_decode_le (us : List UInt16) : units (decode us) ≤ us.length := by
  rw [units, encode, decode, String.toList_ofList]
  fun_induction decodeChars us with
  | case1 => exact Nat.le_refl _
  | case2 u => simp [length_unitsOf_single]
  | case3 u v rest h ih =>
    have := length_unitsOf_le (pair u v)
    simp only [List.flatMap_cons, List.length_append, List.length_cons]
    omega
  | case4 u v rest h ih =>
    have := length_unitsOf_single u
    simp only [List.flatMap_cons, List.length_append, List.length_cons] at ih ⊢
    omega

/-- A character that takes one unit is read back from it. -/
theorem single_ofNat {c : Char} (h : c.toNat < 0x10000) :
    isHigh (UInt16.ofNat c.toNat) = false ∧ single (UInt16.ofNat c.toNat) = c := by
  have hu : (UInt16.ofNat c.toNat).toNat = c.toNat := by
    rw [UInt16.toNat_ofNat']
    exact Nat.mod_eq_of_lt h
  have hv : c.toNat < 0xD800 ∨ 0xDFFF < c.toNat ∧ c.toNat < 0x110000 := c.valid
  have hhigh : isHigh (UInt16.ofNat c.toNat) = false := by
    simp only [isHigh, hu, Bool.and_eq_false_iff, decide_eq_false_iff_not]
    omega
  have hlow : isLow (UInt16.ofNat c.toNat) = false := by
    simp only [isLow, hu, Bool.and_eq_false_iff, decide_eq_false_iff_not]
    omega
  refine ⟨hhigh, ?_⟩
  rw [single, hhigh, hlow, hu]
  exact Char.ofNat_toNat c

/-- A character that takes a pair is read back from it. -/
theorem pair_ofNat {c : Char} (h : ¬ c.toNat < 0x10000) :
    let high := UInt16.ofNat (0xD800 + (c.toNat - 0x10000) / 0x400)
    let low := UInt16.ofNat (0xDC00 + (c.toNat - 0x10000) % 0x400)
    isHigh high = true ∧ isLow low = true ∧ pair high low = c := by
  intro high low
  have hv : c.toNat < 0xD800 ∨ 0xDFFF < c.toNat ∧ c.toNat < 0x110000 := c.valid
  have hhigh : high.toNat = 0xD800 + (c.toNat - 0x10000) / 0x400 := by
    rw [UInt16.toNat_ofNat']
    exact Nat.mod_eq_of_lt (by omega)
  have hlow : low.toNat = 0xDC00 + (c.toNat - 0x10000) % 0x400 := by
    rw [UInt16.toNat_ofNat']
    exact Nat.mod_eq_of_lt (by omega)
  refine ⟨?_, ?_, ?_⟩
  · simp only [isHigh, hhigh, Bool.and_eq_true, decide_eq_true_eq]
    omega
  · simp only [isLow, hlow, Bool.and_eq_true, decide_eq_true_eq]
    omega
  · have hn : 0x10000 + (high.toNat - 0xD800) * 0x400 + (low.toNat - 0xDC00) = c.toNat := by omega
    rw [pair, hn]
    exact Char.ofNat_toNat c

/-- What is encoded is read back character by character. -/
theorem decodeChars_unitsOf (c : Char) (us : List UInt16) :
    decodeChars (unitsOf c ++ us) = c :: decodeChars us := by
  unfold unitsOf
  split
  next h =>
    obtain ⟨hhigh, hsingle⟩ := single_ofNat h
    cases us with
    | nil => simp [decodeChars, hsingle]
    | cons v rest => simp [decodeChars, hhigh, hsingle]
  next h =>
    obtain ⟨hhigh, hlow, hpair⟩ := pair_ofNat h
    simp only [List.cons_append, List.nil_append, decodeChars, hhigh, hlow, hpair, Bool.and_self,
      if_true]

/-- **A text is read back from its units.** -/
theorem decode_encode (s : String) : decode (encode s) = s := by
  have key (cs : List Char) : decodeChars (cs.flatMap unitsOf) = cs := by
    induction cs with
    | nil => rfl
    | cons c cs ih => rw [List.flatMap_cons, decodeChars_unitsOf, ih]
  rw [decode, encode, key, String.ofList_toList]

theorem encode_append (s s' : String) : encode (s ++ s') = encode s ++ encode s' := by
  rw [encode, String.toList_append, List.flatMap_append]
  rfl

end ChannelBasic.Utf16
