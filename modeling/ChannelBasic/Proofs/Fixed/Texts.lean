import Mathlib.Tactic.FieldSimp
import ChannelBasic.Proofs.Fixed.Arithmetic
import ChannelBasic.Proofs.Text.Numbers

/-!
# Proofs/Fixed/Texts — a numeral is read as its number, cut after the fourth place

A `Numeral` spells the fraction `number`, however many places it has.  Of the places that are read
four are kept, which is the cut toward zero of the count of ten-thousandths (`towardZero_number`).

What is displayed for a REAL is a numeral too (`Fixed.numeral`), and nothing is cut off it.
-/

namespace ChannelBasic

namespace Numeral

variable (d : Numeral)

/-! ## The number that is spelt -/

/-- The number without its sign. -/
def magnitude : ℚ := Decimal.value d.whole + Decimal.value d.places / 10 ^ d.places.length

/-- The decimal number that a numeral spells. -/
def number : ℚ := if d.negative then -d.magnitude else d.magnitude

/-- The ten-thousandths that are read of it. -/
def count : ℕ := Decimal.value d.whole * Fixed.scale.toNat + Fixed.fraction d.places

/-- The number that is read, before it is wrapped. -/
def signedCount : ℤ := if d.negative then -(d.count : ℤ) else d.count

theorem towardZero_magnitude : towardZero (d.magnitude * Fixed.scale) = d.count := by
  have hpow : (10 : ℚ) ^ d.places.length ≠ 0 := by positivity
  have hshift : (d.magnitude * Fixed.scale : ℚ) =
      ((Decimal.value d.whole * Fixed.scale.toNat * 10 ^ d.places.length +
        Decimal.value d.places * 10 ^ Fixed.places : ℕ) : ℤ) /
          ((10 ^ d.places.length : ℕ) : ℤ) := by
    rw [magnitude]
    simp only [Fixed.scale, Fixed.places, Int.reduceToNat]
    push_cast
    field_simp
  rw [hshift, towardZero_div, ← Int.ofNat_tdiv, Nat.mul_comm _ (10 ^ _),
    Nat.mul_add_div (Nat.pow_pos (by decide)), count,
    Fixed.fraction_eq_div fun _ => d.isDigit_of_mem_places]

/-- **The places that are kept are those of the number that is cut toward zero.** -/
theorem towardZero_number : towardZero (d.number * Fixed.scale) = d.signedCount := by
  unfold number signedCount
  cases d.negative with
  | true => rw [if_pos rfl, if_pos rfl, neg_mul, towardZero_neg, towardZero_magnitude]
  | false =>
    rw [if_neg Bool.false_ne_true, if_neg Bool.false_ne_true, towardZero_magnitude]

/-- **A numeral is read if its whole part is not too large.** -/
theorem ofString?_text :
    Fixed.ofString? d.text =
      if Fixed.maxWhole < Decimal.value d.whole then none
      else some ⟨Int64.ofInt d.signedCount⟩ := by
  rw [Fixed.ofString?, text, String.toList_ofList, ofChars?_chars, magnitude?_unsigned]
  by_cases hlarge : Fixed.maxWhole < Decimal.value d.whole
  · rw [if_pos hlarge, if_pos hlarge]
    rfl
  · rw [if_neg hlarge, if_neg hlarge]
    rfl

end Numeral

namespace Fixed

variable {x : Fixed}

/-! ## The numeral that is displayed -/

/-- What is displayed for a REAL: the point is written only where places follow. -/
def numeral (x : Fixed) : Numeral where
  negative := x.raw.toInt < 0
  whole := x.wholeChars
  places? :=
    if x.raw.toInt.natAbs % scale.toNat = 0 then none
    else some (decimals (x.raw.toInt.natAbs % scale.toNat))
  whole_ne_nil := wholeChars_ne_nil x
  isDigit_whole := isDigit_wholeChars x
  isDigit_places ds hds c hc := by
    split at hds
    · cases hds
    · rw [← Option.mem_some.1 hds] at hc
      exact isDigit_of_mem_decimals hc

theorem negative_numeral (x : Fixed) : x.numeral.negative = true ↔ x.raw.toInt < 0 :=
  decide_eq_true_iff

theorem text_numeral (x : Fixed) : x.numeral.text = x.render := by
  have hunsigned : x.numeral.unsigned = x.wholeChars ++
      if x.raw.toInt.natAbs % scale.toNat = 0 then []
      else '.' :: decimals (x.raw.toInt.natAbs % scale.toNat) := by
    unfold Numeral.unsigned numeral
    dsimp only
    split <;> rfl
  rw [Numeral.text, Numeral.chars, hunsigned, render, chars]
  by_cases hneg : x.raw.toInt < 0
  · rw [if_pos (x.negative_numeral.2 hneg), if_pos hneg]
    rfl
  · rw [if_neg (mt x.negative_numeral.1 hneg), if_neg hneg]
    rfl

theorem count_numeral (x : Fixed) : x.numeral.count = x.raw.toInt.natAbs := by
  have hplaces : fraction x.numeral.places = x.raw.toInt.natAbs % scale.toNat := by
    unfold Numeral.places numeral
    dsimp only
    split
    next h => rw [h]; rfl
    next => exact fraction_decimals (mod_scale_lt _)
  have hwhole : Decimal.value x.numeral.whole = x.raw.toInt.natAbs / scale.toNat :=
    x.value_wholeChars
  rw [Numeral.count, hplaces, hwhole, Nat.mul_comm, Nat.div_add_mod]

theorem signedCount_numeral (x : Fixed) : x.numeral.signedCount = x.raw.toInt := by
  rw [Numeral.signedCount, count_numeral]
  by_cases hneg : x.raw.toInt < 0
  · rw [if_pos (x.negative_numeral.2 hneg)]
    omega
  · rw [if_neg (mt x.negative_numeral.1 hneg)]
    omega

/-- **A REAL is read back from what is displayed.**  The count of the least one wraps around on the
way. -/
theorem ofString?_render (x : Fixed) : ofString? x.render = some x := by
  have hwhole : Decimal.value x.numeral.whole ≤ maxWhole := x.value_wholeChars_le
  rw [← text_numeral, Numeral.ofString?_text, if_neg (Nat.not_lt.2 hwhole), signedCount_numeral,
    Int64.ofInt_toInt]

/-! ## Reading -/

/-- **REALs are written and read back.**  What is displayed for a REAL is read as the same REAL.  The
texts that are read are the numerals whose whole part is not too large.  Where the count of
ten-thousandths has room in 64 bits, it is that of the number which is spelt, cut toward zero, however
many places the numeral has. -/
theorem ofString?_towardZero :
    (∀ x : Fixed, x.raw ≠ Int64.minValue → ofString? x.render = some x) ∧
    (∀ s : String, (ofString? s).isSome ↔
      ∃ d : Numeral, d.text = s ∧ Decimal.value d.whole ≤ maxWhole) ∧
    ∀ (d : Numeral) (x : Fixed), ofString? d.text = some x →
      Word.Fits 8 (towardZero (d.number * scale)) →
      x.raw.toInt = towardZero (d.number * scale) := by
  refine ⟨fun x _ => ofString?_render x, fun s => ⟨?accepted, ?numeral⟩, ?value⟩
  case accepted =>
    intro h
    obtain ⟨d, hd⟩ := Numeral.exists_of_ofChars? h
    have htext : d.text = s := by rw [Numeral.text, hd, String.ofList_toList]
    refine ⟨d, htext, Nat.not_lt.1 fun hlarge => ?_⟩
    rw [← htext, Numeral.ofString?_text, if_pos hlarge] at h
    cases h
  case numeral =>
    rintro ⟨d, rfl, hwhole⟩
    rw [Numeral.ofString?_text, if_neg (Nat.not_lt.2 hwhole)]
    rfl
  case value =>
    intro d x hx hfits
    rw [Numeral.ofString?_text] at hx
    split at hx
    · cases hx
    · rw [Numeral.towardZero_number] at hfits ⊢
      rw [← Option.some.inj hx]
      exact toInt_ofInt_of_fits hfits

/-- The numeral `-0.00019` is read as `-0.0001`, the greatest REAL below zero. -/
theorem ofString?_towardZero_tiny :
    ofString? (Fixed.mk (-1)).render = some ⟨-1⟩ ∧
      ∃ x, ofString? "-0.00019" = some x ∧ x.raw.toInt = -1 := by
  let d : Numeral :=
    { negative := true
      whole := ['0']
      places? := some ['0', '0', '0', '1', '9']
      whole_ne_nil := by decide
      isDigit_whole := List.all_eq_true.1 rfl
      isDigit_places := by
        rintro ds ⟨⟩
        exact List.all_eq_true.1 rfl }
  have hcut : towardZero (d.number * scale) = -1 := by decide +kernel
  obtain ⟨hback, haccepted, hvalue⟩ := ofString?_towardZero
  obtain ⟨x, hx⟩ := Option.isSome_iff_exists.1
    ((haccepted "-0.00019").2 ⟨d, by decide +kernel, by decide +kernel⟩)
  refine ⟨hback ⟨-1⟩ (by decide), x, hx, ?_⟩
  exact (hvalue d x hx (by rw [hcut]; decide)).trans hcut

end Fixed

end ChannelBasic
