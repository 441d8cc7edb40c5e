import ChannelBasic.Proofs.Fixed.Arithmetic
import ChannelBasic.Proofs.Machine.Steps
import ChannelBasic.Proofs.Typing.Literals

/-!
# Proofs/Execution/Conversions — what a conversion keeps

`Value.count?` counts a number in ten-thousandths, whichever numeric type it has.  A conversion to a
numeric type of the same or a higher rank keeps the count (`Value.count?_cast`), and a number that
fits a numeric type keeps it there (`Literal.cast_of_fits`), with one exception: **a REAL keeps the
count up to a multiple of `2 ^ 64`**.  That is the count itself for the whole numbers up to
`Fixed.maxWhole` and for no others (`Value.kept_eq_self_iff`), so that only a LONG can be too large
(`Value.In.kept_eq_self`).

A text in a shorter string is cut.  The machine cuts code units; a literal is read as characters
again after the cut, so a pair that the cut goes through leaves the replacement character
(`Utf16.encode_decode_take`).  **The two records are the same unless a pair is cut**
(`Literal.record_eq_iff`).
-/

namespace ChannelBasic

open Code

/-! ## Numbers -/

namespace Value

variable {s s' : Scalar} {v : Value} {x : Int}

/-- How many ten-thousandths a number comes to. -/
def count? : Value → Option Int
  | .integral n => some (n.toInt * Fixed.scale)
  | .real x => some x.raw.toInt
  | _ => none

/-- What a numeric type makes of a count: a REAL keeps 64 bits of it. -/
def kept (s : Scalar) (x : Int) : Int := if s = .real then Int.bmod x (2 ^ 64) else x

/-- A value of a plain type: it is unchanged by a stay in the type's bytes. -/
structure In (s : Scalar) (v : Value) : Prop where
  of : v.Of (.scalar s)
  truncate : v.truncate s.size = v

/-- Whole numbers up to the greatest that can be written are kept. -/
theorem kept_eq_self_iff (n : Int64) :
    kept s (n.toInt * Fixed.scale) = n.toInt * Fixed.scale ↔
      (s = .real → n.toInt.natAbs ≤ Fixed.maxWhole) := by
  by_cases hs : s = .real
  · rw [kept, if_pos hs, ← Fixed.raw_ofInt, Fixed.raw_ofInt_eq_iff]
    exact ⟨fun h _ => h, fun h => h hs⟩
  · rw [kept, if_neg hs]
    exact ⟨fun _ h => absurd h hs, fun _ => rfl⟩

theorem kept_raw (y : Fixed) : kept s y.raw.toInt = y.raw.toInt := by
  rw [kept]
  split
  · exact Int.bmod_eq_of_le (by have := y.raw.le_toInt; omega) (by have := y.raw.toInt_lt; omega)
  · rfl

theorem exists_count? (hs : s.isNumeric = true) (hv : v.Of (.scalar s)) :
    ∃ x, v.count? = some x := by
  obtain ⟨-, n, rfl⟩ | ⟨-, x, rfl⟩ := of_numeric hs hv <;> exact ⟨_, rfl⟩

/-- Bytes of the width of a plain type stand for a value of it. -/
theorem exists_in_of_length {bs : List UInt8} (hlen : bs.length = s.size) :
    ∃ v, decode s.kind bs = .ok v ∧ v.In s := by
  have hle : bs.length ≤ 8 := by
    rw [hlen]
    exact s.size_le_eight
  have hread : Word.wrap (Word.read bs) s.size = Word.read bs := by
    apply Int64.toInt_inj.1
    rw [Word.toInt_wrap s.size_le_eight, Word.toInt_read hle, Word.signed, hlen, Word.span_eq,
      Int.bmod_bmod]
  have hin (hs : s.isIntegral = true) : (Value.integral (Word.read bs)).In s :=
    ⟨integral_of hs, congrArg Value.integral hread⟩
  cases s with
  | boolean => exact ⟨_, rfl, trivial, rfl⟩
  | real => exact ⟨_, rfl, trivial, rfl⟩
  | _ => exact ⟨_, rfl, hin rfl⟩

/-- **A conversion to a type of no lower rank keeps the number**, in a REAL up to 64 bits. -/
theorem count?_cast {r r' : Nat} (hr : s.rank? = some r) (hr' : s'.rank? = some r') (hle : r ≤ r')
    (hv : v.In s) (hx : v.count? = some x) :
    ∃ w, v.cast s'.kind = .ok w ∧ w.In s' ∧ w.count? = some (kept s' x) := by
  obtain ⟨hs, n, rfl⟩ | ⟨rfl, y, rfl⟩ :=
    of_numeric (Scalar.isNumeric_iff_rank?.2 ⟨r, hr⟩) hv.of
  · obtain rfl : n.toInt * Fixed.scale = x := by simpa [count?] using hx
    by_cases hreal : s' = .real
    · subst hreal
      exact ⟨.real (.ofInt n), rfl, ⟨trivial, rfl⟩, congrArg some (Fixed.raw_ofInt n)⟩
    · have hs' : s'.isIntegral = true := by
        cases s' <;> first | exact absurd rfl hreal | cases hr' <;> rfl
      have hsize : s.size ≤ s'.size := by
        cases s <;> cases hr <;> cases s' <;> cases hr' <;>
          first | decide | omega
      have hwrap : Word.wrap n s.size = n := by simpa [Value.truncate] using hv.truncate
      refine ⟨.integral n, ?_, ⟨integral_of hs', ?_⟩, ?_⟩
      · cases s' <;> first | rfl | cases hs'
      · rw [Value.truncate, Word.wrap_of_le hsize s'.size_le_eight hwrap]
      · rw [kept, if_neg hreal]
        rfl
  · obtain rfl : y.raw.toInt = x := by simpa [count?] using hx
    obtain rfl : 5 = r := by simpa [Scalar.rank?] using hr
    obtain rfl : s' = .real := by cases s' <;> simp_all [Scalar.rank?] <;> omega
    refine ⟨.real y, rfl, ⟨trivial, rfl⟩, ?_⟩
    rw [count?, kept_raw]

/-- **Every number but a LONG is kept**, whatever numeric type it is converted to. -/
theorem In.kept_eq_self (hv : v.In s) (hs : s ≠ .long) (hx : v.count? = some x) :
    kept s' x = x := by
  cases v with
  | boolean b => cases hx
  | string units => cases hx
  | real y =>
    obtain rfl : y.raw.toInt = x := by simpa [count?] using hx
    exact kept_raw y
  | integral n =>
    obtain rfl : n.toInt * Fixed.scale = x := by simpa [count?] using hx
    have hof := hv.of
    have hsize : s.size ≤ 4 := by
      cases s <;> first | decide | exact absurd rfl hs | cases hof
    have hwrap : Word.wrap n s.size = n := by simpa [Value.truncate] using hv.truncate
    have hfour : Int.bmod n.toInt (256 ^ 4) = n.toInt := by
      rw [← Word.toInt_wrap (by decide), Word.wrap_of_le hsize (by decide) hwrap]
    have hlo := Int.le_bmod (x := n.toInt) (m := 256 ^ 4) (by decide)
    have hhi := Int.bmod_lt (x := n.toInt) (m := 256 ^ 4) (by decide)
    have hmax : Fixed.maxWhole = 922337203685477 := rfl
    rw [hfour] at hlo hhi
    exact (kept_eq_self_iff n).2 fun _ => by omega

/-- What is written for a value of a plain type stands for the value. -/
theorem decode_take_encode (hv : v.In s) :
    decode s.kind ((v.encode s.size).take s.size) = .ok v ∧
      ((v.encode s.size).take s.size).length = s.size := by
  have hsize : Shape.size? [] (.scalar s) = some s.size := rfl
  have hlen : (v.encode s.size).length = s.size := length_encode hsize hv.of
  have hlt : s.size < 2 ^ 31 := s.size_le_eight.trans_lt (by decide)
  have hdecode : decode s.kind (v.encode s.size) = .ok (v.truncate s.size) :=
    decode_encode hsize hlt hv.of
  rw [List.take_of_length_le hlen.le, hdecode, hv.truncate]
  exact ⟨rfl, hlen⟩

end Value

/-- **The conversion instruction keeps the number on top of the stack**, in a REAL up to 64 bits. -/
theorem Machine.tick_cast_number {m : Machine} {natives : Natives} {data : List UInt8}
    {x0 x1 x2 : Int32} {s s' : Scalar} {r r' : Nat} (hr : s.rank? = some r)
    (hr' : s'.rank? = some r') (hle : r ≤ r') (hm : m.Ready)
    (hat : m.At (.of .CAST s.kind.code s'.kind.code x0 x1 x2)) (ht : m.Tops data)
    (hlen : data.length = s.size) (h0 : x0.toInt = s.size) (h1 : x1.toInt = s'.size) :
    ∃ v w x bytes, m.tick natives = (m.popped s.size).answered bytes ∧
      bytes.length = s'.size ∧ Value.decode s.kind data = .ok v ∧ v.count? = some x ∧
      Value.decode s'.kind bytes = .ok w ∧ w.count? = some (Value.kept s' x) := by
  obtain ⟨v, hv, hin⟩ := Value.exists_in_of_length hlen
  obtain ⟨x, hx⟩ := Value.exists_count? (Scalar.isNumeric_iff_rank?.2 ⟨r, hr⟩) hin.of
  obtain ⟨w, hw, hin', hx'⟩ := Value.count?_cast hr hr' hle hin hx
  obtain ⟨hdecode, hbytes⟩ := Value.decode_take_encode hin'
  refine ⟨v, w, x, (w.encode s'.size).take s'.size, ?_, hbytes, hv, hx, hdecode, hx'⟩
  rw [tick_cast hm hat ht (by rw [h0, hlen]) hv hw h1, hlen]

/-! ## Constants -/

namespace Literal

variable {l l' : Literal} {s : Scalar} {x : Int}

theorem cast_integral (hs : s.isIntegral = true) (n : Int64) :
    (integral n).cast s.kind s.size = some (.integral (Word.wrap n s.size)) := by
  cases s <;> first | rfl | cases hs

theorem cast_real (hs : s.isIntegral = true) (y : Fixed) :
    (real y).cast s.kind s.size = some (.integral (Word.wrap y.toInt s.size)) := by
  cases s <;> first | rfl | cases hs

/-- **A constant fits a whole type exactly if the conversion to it keeps the number.** -/
theorem fits_iff_cast (hs : s.isIntegral = true) (hx : l.toValue.count? = some x) :
    l.fits s.kind s.size = true ↔
      ∃ l', l.cast s.kind s.size = some l' ∧ l'.toValue.count? = some x := by
  have hkind : s.kind.isIntegral = true := s.isIntegral_kind.trans hs
  cases l with
  | boolean b => cases hx
  | text c => cases hx
  | integral n =>
    obtain rfl : n.toInt * Fixed.scale = x := by simpa [toValue, Value.count?] using hx
    have hcount : (Literal.integral (Word.wrap n s.size)).toValue.count? =
        some ((Word.wrap n s.size).toInt * Fixed.scale) := rfl
    simp only [fits, hkind, if_true, beq_iff_eq, cast_integral hs, Option.some.injEq,
      exists_eq_left', hcount]
    constructor
    · intro h
      rw [h]
    · intro h
      exact Int64.toInt_inj.1 (Int.eq_of_mul_eq_mul_right (by decide) h)
  | real y =>
    obtain rfl : y.raw.toInt = x := by simpa [toValue, Value.count?] using hx
    have hcount : (Literal.integral (Word.wrap y.toInt s.size)).toValue.count? =
        some ((Word.wrap y.toInt s.size).toInt * Fixed.scale) := rfl
    simp only [fits, hkind, Bool.true_and, Bool.and_eq_true, beq_iff_eq, Fixed.isIntegral_iff,
      cast_real hs, Option.some.injEq, exists_eq_left', hcount]
    constructor
    · rintro ⟨hwhole, hwrap⟩
      rw [hwrap, hwhole]
    · intro h
      -- the count is a multiple of the scale, so nothing is behind the point
      have hpart : y.toInt.toInt = (Word.wrap y.toInt s.size).toInt := by
        rw [Fixed.toInt_toInt, ← h]
        exact Int.mul_tdiv_cancel _ (by decide)
      refine ⟨?_, Int64.toInt_inj.1 hpart.symm⟩
      rw [hpart, h]

/-- **A number that fits a numeric type keeps its count there**, in a REAL up to 64 bits. -/
theorem cast_of_fits (hs : s.isNumeric = true) (hfits : l.fits s.kind s.size = true)
    (hx : l.toValue.count? = some x) :
    ∃ l', l.cast s.kind s.size = some l' ∧ l'.toValue.count? = some (Value.kept s x) := by
  by_cases hreal : s = .real
  · subst hreal
    cases l with
    | integral n =>
      obtain rfl : n.toInt * Fixed.scale = x := by simpa [toValue, Value.count?] using hx
      exact ⟨.real (.ofInt n), rfl, congrArg some (Fixed.raw_ofInt n)⟩
    | _ => cases hfits
  · have hi : s.isIntegral = true := by
      cases s <;> first | exact absurd rfl hreal | cases hs <;> rfl
    rw [Value.kept, if_neg hreal]
    exact (fits_iff_cast hi hx).1 hfits

end Literal

/-! ## Texts -/

namespace Utf16

variable {u : UInt16} {us vs : List UInt16} {n : Nat}

/-- Units whose last one is no longer half of a pair. -/
def mend : List UInt16 → List UInt16
  | [] => []
  | [u] => if isHigh u then [0xFFFD] else [u]
  | u :: v :: us => u :: mend (v :: us)

@[simp] theorem length_mend (us : List UInt16) : (mend us).length = us.length := by
  fun_induction mend us <;> simp_all

/-- **Units are kept unless half of a pair is last.** -/
theorem mend_eq_self_iff : mend us = us ↔ ∀ u ∈ us.getLast?, isHigh u = false := by
  fun_induction mend us with
  | case1 => simp
  | case2 u h =>
    have hne : u ≠ 0xFFFD := by
      rintro rfl
      cases h
    simp [h, hne.symm]
  | case3 u h => simpa using h
  | case4 u v us ih => simpa using ih

theorem isHigh_of_isLow (h : isLow u = true) : isHigh u = false := by
  simp only [isLow, Bool.and_eq_true, decide_eq_true_eq] at h
  simp only [isHigh, Bool.and_eq_false_iff, decide_eq_false_iff_not]
  omega

theorem mend_cons (h : isHigh u = false) : mend (u :: us) = u :: mend us := by
  cases us with
  | nil => simp [mend, h]
  | cons v us => rfl

theorem mend_unitsOf (c : Char) (us : List UInt16) :
    mend (unitsOf c ++ us) = unitsOf c ++ mend us := by
  unfold unitsOf
  split
  next h => exact mend_cons (single_ofNat h).1
  next h =>
    obtain ⟨-, hlow, -⟩ := pair_ofNat h
    exact congrArg _ (mend_cons (isHigh_of_isLow hlow))

/-- What is cut off within a character is a half of it that cannot be read. -/
theorem take_unitsOf {c : Char} (hn : n < (unitsOf c).length) :
    (decodeChars ((unitsOf c).take n)).flatMap unitsOf = mend ((unitsOf c).take n) := by
  unfold unitsOf at hn ⊢
  split at hn
  next h =>
    obtain rfl : n = 0 := Nat.lt_one_iff.1 hn
    rfl
  next h =>
    rw [if_neg h]
    obtain ⟨hhigh, -, -⟩ := pair_ofNat h
    match n, hn with
    | 0, _ => rfl
    | 1, _ =>
      simp only [List.take_succ_cons, List.take_zero, decodeChars, single, hhigh, Bool.true_or,
        if_true, mend]
      rfl

/-- **A text that is cut is read again with the replacement character for half of a pair.** -/
theorem encode_decode_take (s : String) (n : Nat) :
    encode (decode ((encode s).take n)) = mend ((encode s).take n) := by
  rw [encode, decode, String.toList_ofList, encode]
  induction s.toList generalizing n with
  | nil => simp [decodeChars, mend]
  | cons c cs ih =>
    rw [List.flatMap_cons]
    by_cases hn : n < (unitsOf c).length
    · rw [List.take_append_of_le_length hn.le]
      exact take_unitsOf hn
    · obtain ⟨k, rfl⟩ : ∃ k, n = (unitsOf c).length + k := ⟨n - (unitsOf c).length, by omega⟩
      rw [List.take_length_add_append, decodeChars_unitsOf, List.flatMap_cons, ih, mend_unitsOf]

end Utf16

variable {s s' : String} {c k : Nat}

/-- **The conversion instruction cuts the code units of a text.** -/
theorem Machine.tick_cast_text {m : Machine} {natives : Natives} {x0 x1 x2 : Int32}
    (hk : k < 2 ^ 31) (hs : Utf16.units s ≤ k) (hm : m.Ready)
    (hat : m.At (.of .CAST ValueType.string.code ValueType.string.code x0 x1 x2))
    (ht : m.Tops (encodeString (Utf16.encode s) (stringSize k)))
    (h0 : x0.toInt = stringSize k) (h1 : x1.toInt = stringSize c) :
    m.tick natives =
      (m.popped (stringSize k)).answered (encodeString (Utf16.encode s) (stringSize c)) := by
  have hlen (n : Nat) : (encodeString (Utf16.encode s) (stringSize n)).length = stringSize n := by
    rw [length_encodeString, max_eq_left (stringHeader_le_stringSize n)]
  have hdecode : Value.decode .string (encodeString (Utf16.encode s) (stringSize k)) =
      .ok (.string (Utf16.encode s)) := by
    have hle : ¬ (encodeString (Utf16.encode s) (stringSize k)).length < stringHeader := by
      rw [hlen]
      exact Nat.not_lt.2 (stringHeader_le_stringSize k)
    rw [Value.decode, if_neg hle, decodeString_encodeString _ hk, List.take_of_length_le hs]
  have hcast : (Value.string (Utf16.encode s)).cast .string = .ok (.string (Utf16.encode s)) := by
    rw [Value.cast, Value.text, Value.ofText, Utf16.decode_encode]
  rw [tick_cast hm hat ht (by rw [h0, hlen]) hdecode hcast h1, hlen, Value.encode,
    List.take_of_length_le (hlen c).le]

namespace Literal

/-- What a text becomes in a string of a capacity, beforehand. -/
theorem encode_of_cast (h : (text s).cast .string (stringSize c) = some (text s')) :
    Utf16.encode s' = Utf16.mend ((Utf16.encode s).take c) := by
  obtain rfl : Utf16.decode ((Utf16.encode (Utf16.decode (Utf16.encode s))).take
      (stringCapacity (stringSize c))) = s' := by
    simpa [cast, toValue, Value.ofText, Value.cast, Value.text, Except.toOption, ofValue?] using h
  rw [stringCapacity_stringSize, Utf16.decode_encode, Utf16.encode_decode_take]

/-- **A text cut beforehand has the length and the capacity that the machine gives it**, and its
units, the last one mended. -/
theorem record_of_cast (h : (text s).cast .string (stringSize c) = some (text s')) :
    ∃ head tail, head.length = stringHeader ∧
      encodeString (Utf16.encode s) (stringSize c) =
        head ++ bytesOfUnits ((Utf16.encode s).take c) ++ tail ∧
      encodeString (Utf16.encode s') (stringSize c) =
        head ++ bytesOfUnits (Utf16.mend ((Utf16.encode s).take c)) ++ tail := by
  have hle : (Utf16.mend ((Utf16.encode s).take c)).length ≤ c := by simp
  refine ⟨Word.bytes 4 ((Utf16.encode s).take c).length ++ Word.bytes 4 c,
    List.replicate (2 * (c - ((Utf16.encode s).take c).length)) 0, by simp [stringHeader], ?_, ?_⟩
  · rw [encodeString_eq, List.append_assoc _ (bytesOfUnits _)]
  · rw [encodeString_eq, encode_of_cast h, List.take_of_length_le hle, Utf16.length_mend,
      List.append_assoc _ (bytesOfUnits _)]

/-- **The machine and the compiler cut a text to the same record unless they cut a pair.** -/
theorem record_eq_iff (hc : c < 2 ^ 31)
    (h : (text s).cast .string (stringSize c) = some (text s')) :
    encodeString (Utf16.encode s') (stringSize c) = encodeString (Utf16.encode s) (stringSize c) ↔
      ∀ u ∈ ((Utf16.encode s).take c).getLast?, Utf16.isHigh u = false := by
  have hle : (Utf16.mend ((Utf16.encode s).take c)).length ≤ c := by simp
  rw [← Utf16.mend_eq_self_iff, encode_of_cast h]
  constructor
  · intro heq
    have hread := congrArg decodeString heq
    rwa [decodeString_encodeString _ hc, decodeString_encodeString _ hc,
      List.take_of_length_le hle] at hread
  · intro heq
    rw [heq, encodeString_eq, encodeString_eq, List.take_take, min_self]

end Literal

end ChannelBasic
