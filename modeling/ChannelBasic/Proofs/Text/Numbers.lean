import Mathlib.Data.List.TakeWhile
import Mathlib.Tactic.Ring
import ChannelBasic.Fixed

/-!
# Proofs/Text/Numbers — written numbers are read back

Digits that were written for a number spell it (`Decimal.value_digits`), zeros before them change
nothing, and zeros behind them shift it.  So the places behind the point of a REAL may lose the zeros
at their end, and **a REAL is read back from its whole part and its places** (`Fixed.ofChars?_written`),
the sign aside.

A `Numeral` is a sign, a whole part and places.  **What is read as a REAL is what is spelt by one**
(`Numeral.exists_of_ofChars?`), and of its places those that are kept are all of them, cut
(`Fixed.fraction_eq_div`).
-/

namespace ChannelBasic

/-! ## Whole numbers -/

namespace Decimal

variable {c : Char} {cs ds : List Char} {n k : Nat}

theorem isDigit_of_mem_digits (h : c ∈ digits n) : c.isDigit = true :=
  Nat.isDigit_of_mem_toDigits (by decide) (by decide) h

/-- There is a first digit. -/
theorem exists_digits (n : Nat) :
    ∃ c cs, digits n = c :: cs ∧ c.isDigit = true ∧ ∀ d ∈ cs, d.isDigit = true := by
  obtain ⟨c, cs, h⟩ := List.exists_cons_of_ne_nil (Nat.toDigits_ne_nil (b := 10) (n := n))
  have hall : ∀ d ∈ c :: cs, d.isDigit = true := fun d hd => isDigit_of_mem_digits (h ▸ hd)
  exact ⟨c, cs, h, hall c (by simp), fun d hd => hall d (by simp [hd])⟩

/-- **Digits spell the number they were written for.** -/
@[simp] theorem value_digits (n : Nat) : value (digits n) = n :=
  Nat.ofDigitChars_toDigits (by decide) (by decide)

theorem foldl_digits (start : Nat) (cs : List Char) :
    cs.foldl (fun n c => 10 * n + digitValue c) start = start * 10 ^ cs.length + value cs := by
  induction cs generalizing start with
  | nil => simp [value, valueIn]
  | cons c cs ih =>
    rw [value, valueIn, List.foldl_cons, List.foldl_cons, ih, ih, List.length_cons]
    ring

theorem value_append (cs ds : List Char) :
    value (cs ++ ds) = value cs * 10 ^ ds.length + value ds := by
  rw [value, valueIn, List.foldl_append, foldl_digits]
  rfl

theorem value_zeros (k : Nat) : value (List.replicate k '0') = 0 := by
  induction k with
  | zero => rfl
  | succ k ih =>
    rw [List.replicate_succ', value_append, ih]
    rfl

@[simp] theorem value_padded (k n : Nat) : value (padded k n) = n := by
  rw [padded, value_append, value_zeros, value_digits, Nat.zero_mul, Nat.zero_add]

/-- Digits spell less than the next power of ten. -/
theorem value_lt (h : ∀ c ∈ ds, c.isDigit = true) : value ds < 10 ^ ds.length := by
  induction ds with
  | nil => decide
  | cons c cs ih =>
    obtain ⟨hc, hcs⟩ := List.forall_mem_cons.1 h
    have hdigit : digitValue c ≤ 9 := by
      have hle : c.toNat ≤ '9'.toNat := (Char.isDigit_iff_toNat.1 hc).2
      have hlast : '9'.toNat = '0'.toNat + 9 := rfl
      rw [digitValue]
      omega
    have hone : value [c] = digitValue c := by simp [value, valueIn]
    have hvalue : value (c :: cs) = digitValue c * 10 ^ cs.length + value cs := by
      rw [← List.singleton_append, value_append, hone]
    have hrest := ih hcs
    calc value (c :: cs) = digitValue c * 10 ^ cs.length + value cs := hvalue
      _ < 9 * 10 ^ cs.length + 10 ^ cs.length :=
        Nat.add_lt_add_of_le_of_lt (Nat.mul_le_mul_right _ hdigit) hrest
      _ = 10 ^ (c :: cs).length := by
        rw [List.length_cons]
        ring

theorem isDigit_of_mem_padded (h : c ∈ padded k n) : c.isDigit = true := by
  obtain h | h := List.mem_append.1 h
  · rw [List.eq_of_mem_replicate h]
    decide
  · exact isDigit_of_mem_digits h

theorem length_padded (hk : 0 < k) (hn : n < 10 ^ k) : (padded k n).length = k := by
  have hle : (digits n).length ≤ k := (Nat.length_toDigits_le_iff (by decide) hk).2 hn
  simp [padded]
  omega

end Decimal

/-! ## Numerals -/

namespace Fixed

theorem ofChars?_minus (cs : List Char) :
    ofChars? ('-' :: cs) = (magnitude? cs).map fun n : Nat => ⟨Int64.ofInt (-n)⟩ := by
  rw [ofChars?]
  cases magnitude? cs <;> rfl

theorem ofChars?_of_ne {cs : List Char} (h : ∀ rest, cs ≠ '-' :: rest) :
    ofChars? cs = (magnitude? cs).map fun n : Nat => ⟨Int64.ofInt n⟩ := by
  unfold ofChars?
  split
  next rest => exact absurd rfl (h rest)
  next => cases magnitude? cs <;> rfl

end Fixed

/-- A decimal number as it is written: with a sign or without, digits, and after a point more digits or
none. -/
structure Numeral where
  negative : Bool
  whole : List Char
  /-- What stands behind the point, where there is one. -/
  places? : Option (List Char)
  whole_ne_nil : whole ≠ []
  isDigit_whole : ∀ c ∈ whole, c.isDigit = true
  isDigit_places : ∀ ds ∈ places?, ∀ c ∈ ds, c.isDigit = true

namespace Numeral

variable (d : Numeral)

/-- The digits behind the point. -/
def places : List Char := d.places?.getD []

/-- All but the sign. -/
def unsigned : List Char := d.whole ++ d.places?.elim [] ('.' :: ·)

def chars : List Char := if d.negative then '-' :: d.unsigned else d.unsigned

def text : String := String.ofList d.chars

theorem isDigit_of_mem_places {c : Char} (h : c ∈ d.places) : c.isDigit = true := by
  have hplaces := d.isDigit_places
  unfold places at h
  cases hd : d.places? with
  | none => simp [hd] at h
  | some ds => exact hplaces ds hd c (by simpa [hd] using h)

theorem exists_whole : ∃ c cs, d.whole = c :: cs ∧ c.isDigit = true := by
  obtain ⟨c, cs, h⟩ := List.exists_cons_of_ne_nil d.whole_ne_nil
  exact ⟨c, cs, h, d.isDigit_whole c (by simp [h])⟩

/-- A digit is no point. -/
theorem ne_point {c : Char} (h : c ∈ d.whole) : (c != '.') = true := by
  rw [bne_iff_ne]
  rintro rfl
  exact absurd (d.isDigit_whole '.' h) (by decide)

theorem takeWhile_unsigned : d.unsigned.takeWhile (· != '.') = d.whole := by
  rw [unsigned, List.takeWhile_append_of_pos fun _ => d.ne_point]
  cases d.places? with
  | none => exact List.append_nil _
  | some ds => exact List.append_nil _

theorem drop_dropWhile_unsigned : (d.unsigned.dropWhile (· != '.')).drop 1 = d.places := by
  rw [unsigned, places, List.dropWhile_append_of_pos fun _ => d.ne_point]
  cases d.places? with
  | none => rfl
  | some ds => rfl

open Fixed in
/-- **What is read of a numeral**, its sign aside: the whole part if it is not too large, and the first
places. -/
theorem magnitude?_unsigned :
    magnitude? d.unsigned =
      if maxWhole < Decimal.value d.whole then none
      else some (Decimal.value d.whole * scale.toNat + fraction d.places) := by
  have hproper :
      (d.whole.isEmpty || !d.whole.all Char.isDigit || !d.places.all Char.isDigit) = false := by
    rw [List.all_eq_true.2 d.isDigit_whole, List.all_eq_true.2 fun _ => d.isDigit_of_mem_places,
      List.isEmpty_eq_false_iff.2 d.whole_ne_nil]
    rfl
  unfold magnitude?
  rw [d.takeWhile_unsigned, d.drop_dropWhile_unsigned]
  dsimp only
  rw [hproper, if_neg Bool.false_ne_true]

theorem ofChars?_chars :
    Fixed.ofChars? d.chars =
      (Fixed.magnitude? d.unsigned).map fun n : Nat =>
        ⟨Int64.ofInt (if d.negative then -(n : Int) else n)⟩ := by
  obtain ⟨c, cs, hc, hdigit⟩ := d.exists_whole
  have hminus : ∀ cs, d.unsigned ≠ '-' :: cs := fun cs h => by
    rw [unsigned, hc] at h
    exact absurd ((List.cons.inj h).1 ▸ hdigit) (by decide)
  unfold chars
  cases d.negative with
  | true => exact Fixed.ofChars?_minus d.unsigned
  | false => exact Fixed.ofChars?_of_ne hminus

/-- **Whatever is read was a numeral.** -/
theorem exists_of_magnitude? {cs : List Char} (h : (Fixed.magnitude? cs).isSome) (negative : Bool) :
    ∃ d : Numeral, d.negative = negative ∧ d.unsigned = cs := by
  unfold Fixed.magnitude? at h
  dsimp only at h
  split at h
  · exact absurd h Bool.false_ne_true
  next hproper =>
  simp only [Bool.or_eq_true, List.isEmpty_iff, Bool.not_eq_true', List.all_eq_false, not_or,
    not_exists, not_and, not_not] at hproper
  obtain ⟨⟨hne, hwhole⟩, hplaces⟩ := hproper
  have hsplit := List.takeWhile_append_dropWhile (p := (· != '.')) (l := cs)
  cases hrest : cs.dropWhile (· != '.') with
  | nil =>
    refine ⟨⟨negative, cs.takeWhile (· != '.'), none, hne, hwhole, by simp⟩, rfl, ?_⟩
    rwa [hrest] at hsplit
  | cons c ds =>
    have hpoint : c = '.' := by
      have hhead := List.head_dropWhile_not (p := (· != '.')) (l := cs) (by simp [hrest])
      simpa [hrest] using hhead
    have hdigits : ∀ es ∈ some ds, ∀ e ∈ es, e.isDigit = true := by
      rintro es ⟨⟩ e he
      exact hplaces e (by rwa [hrest])
    refine ⟨⟨negative, cs.takeWhile (· != '.'), some ds, hne, hwhole, hdigits⟩, rfl, ?_⟩
    rw [hrest, hpoint] at hsplit
    exact hsplit

theorem exists_of_ofChars? {cs : List Char} (h : (Fixed.ofChars? cs).isSome) :
    ∃ d : Numeral, d.chars = cs := by
  by_cases hminus : ∃ rest, cs = '-' :: rest
  · obtain ⟨rest, rfl⟩ := hminus
    rw [Fixed.ofChars?_minus, Option.isSome_map] at h
    obtain ⟨d, hd, rfl⟩ := exists_of_magnitude? h true
    exact ⟨d, by rw [chars, hd, if_pos rfl]⟩
  · rw [Fixed.ofChars?_of_ne (not_exists.1 hminus), Option.isSome_map] at h
    obtain ⟨d, hd, rfl⟩ := exists_of_magnitude? h false
    exact ⟨d, by rw [chars, hd, if_neg Bool.false_ne_true]⟩

end Numeral

/-! ## Numbers with places -/

namespace Fixed

open Decimal

variable {n : Nat}

/-- **The places that are kept are all of them, cut.** -/
theorem fraction_eq_div {ds : List Char} (h : ∀ c ∈ ds, c.isDigit = true) :
    fraction ds = value ds * 10 ^ places / 10 ^ ds.length := by
  have hpos (k : Nat) : 0 < 10 ^ k := Nat.pow_pos (by decide)
  have hsplit : value ds = value (ds.take places) * 10 ^ (ds.length - places) +
      value (ds.drop places) := by
    rw [← List.length_drop, ← value_append, List.take_append_drop]
  rcases Nat.le_total ds.length places with hle | hle
  · -- nothing is cut off
    have hpow : 10 ^ places = 10 ^ (places - ds.length) * 10 ^ ds.length := by
      rw [← Nat.pow_add, Nat.sub_add_cancel hle]
    rw [fraction, List.take_of_length_le hle, hpow, ← Nat.mul_assoc, Nat.mul_div_cancel _ (hpos _)]
    rfl
  · have hpow : 10 ^ ds.length = 10 ^ (ds.length - places) * 10 ^ places := by
      rw [← Nat.pow_add, Nat.sub_add_cancel hle]
    have hcut : value (ds.drop places) < 10 ^ (ds.length - places) := by
      rw [← List.length_drop]
      exact value_lt fun c hc => h c (List.mem_of_mem_drop hc)
    have hkept : (ds.take places).length = places := List.length_take_of_le hle
    rw [hpow, Nat.mul_div_mul_right _ _ (hpos _), hsplit, Nat.mul_comm, Nat.mul_add_div (hpos _),
      Nat.div_eq_of_lt hcut, fraction, hkept, Nat.sub_self]
    exact Nat.mul_one _

/-- The places are all that is written with four digits, but for zeros at the end. -/
theorem padded_eq_decimals (n : Nat) : ∃ k, padded places n = decimals n ++ List.replicate k '0' := by
  refine ⟨((padded places n).reverse.takeWhile (· == '0')).length, ?_⟩
  have hzeros : (padded places n).reverse.takeWhile (· == '0') =
      List.replicate ((padded places n).reverse.takeWhile (· == '0')).length '0' :=
    List.eq_replicate_iff.2 ⟨rfl, fun c hc => by simpa using List.mem_takeWhile_imp hc⟩
  calc padded places n
      = ((padded places n).reverse.takeWhile (· == '0') ++
          (padded places n).reverse.dropWhile (· == '0')).reverse := by
        rw [List.takeWhile_append_dropWhile, List.reverse_reverse]
    _ = decimals n ++ ((padded places n).reverse.takeWhile (· == '0')).reverse :=
        List.reverse_append
    _ = _ := by
        congr 1
        conv_lhs => rw [hzeros, List.reverse_replicate]

theorem isDigit_of_mem_decimals {c : Char} (h : c ∈ decimals n) : c.isDigit = true := by
  obtain ⟨k, hk⟩ := padded_eq_decimals n
  exact isDigit_of_mem_padded (by rw [hk]; exact List.mem_append_left _ h)

/-- **The places that are left stand for the same number.** -/
theorem fraction_decimals (hn : n < 10 ^ places) : fraction (decimals n) = n := by
  obtain ⟨k, hk⟩ := padded_eq_decimals n
  have hlength : (decimals n).length + k = places := by
    have hpadded := length_padded (by decide) hn
    rwa [hk, List.length_append, List.length_replicate] at hpadded
  have hvalue : value (decimals n) * 10 ^ k = n := by
    have hpadded := value_padded places n
    rwa [hk, value_append, value_zeros, List.length_replicate, Nat.add_zero] at hpadded
  have hkept : (decimals n).take places = decimals n := List.take_of_length_le (by omega)
  rw [fraction, hkept, show places - (decimals n).length = k by omega]
  exact hvalue

/-- The digits before the point, whatever the sign. -/
def wholeChars (x : Fixed) : List Char := digits (x.raw.toInt.natAbs / scale.toNat)

/-- The digits behind the point, of which there is at least one. -/
def placeChars (x : Fixed) : List Char :=
  if x.raw.toInt.natAbs % scale.toNat = 0 then ['0']
  else decimals (x.raw.toInt.natAbs % scale.toNat)

variable {x : Fixed} {c : Char}

theorem wholeChars_ne_nil (x : Fixed) : x.wholeChars ≠ [] := Nat.toDigits_ne_nil

theorem isDigit_wholeChars (x : Fixed) : ∀ c ∈ x.wholeChars, c.isDigit = true :=
  fun _ => isDigit_of_mem_digits

theorem isDigit_of_mem_placeChars (h : c ∈ x.placeChars) : c.isDigit = true := by
  unfold placeChars at h
  split at h
  · rw [List.mem_singleton.1 h]
    decide
  · exact isDigit_of_mem_decimals h

theorem mod_scale_lt (n : Nat) : n % scale.toNat < 10 ^ places := Nat.mod_lt n (by decide)

theorem fraction_placeChars (x : Fixed) :
    fraction x.placeChars = x.raw.toInt.natAbs % scale.toNat := by
  unfold placeChars
  split
  next h => rw [h]; rfl
  next => exact fraction_decimals (mod_scale_lt _)

theorem placeChars_ne_nil (x : Fixed) : x.placeChars ≠ [] := by
  intro h
  have hzero : x.raw.toInt.natAbs % scale.toNat = 0 := by
    rw [← fraction_placeChars, h]
    rfl
  rw [placeChars, if_pos hzero] at h
  cases h

theorem value_wholeChars (x : Fixed) : value x.wholeChars = x.raw.toInt.natAbs / scale.toNat :=
  value_digits _

theorem value_wholeChars_le (x : Fixed) : value x.wholeChars ≤ maxWhole := by
  have hlow := Int64.le_toInt x.raw
  have hhigh := Int64.toInt_lt x.raw
  rw [value_wholeChars]
  simp only [scale, maxWhole, Int.reduceToNat]
  omega

/-- What is written for a number with a point in any case, its sign aside. -/
def written (x : Fixed) : Numeral where
  negative := false
  whole := x.wholeChars
  places? := some x.placeChars
  whole_ne_nil := wholeChars_ne_nil x
  isDigit_whole := isDigit_wholeChars x
  isDigit_places := by
    rintro ds ⟨⟩ c h
    exact isDigit_of_mem_placeChars h

theorem magnitude?_written (x : Fixed) :
    magnitude? (x.wholeChars ++ '.' :: x.placeChars) = some x.raw.toInt.natAbs := by
  have hread := x.written.magnitude?_unsigned
  change magnitude? (x.wholeChars ++ '.' :: x.placeChars) =
    if maxWhole < value x.wholeChars then none
    else some (value x.wholeChars * scale.toNat + fraction x.placeChars) at hread
  rw [hread, if_neg (Nat.not_lt.2 x.value_wholeChars_le), value_wholeChars, fraction_placeChars,
    Nat.mul_comm, Nat.div_add_mod]

/-- **A number is read back from what is written for it**, its sign aside. -/
theorem ofChars?_written (x : Fixed) :
    ofChars? (x.wholeChars ++ '.' :: x.placeChars) = some ⟨Int64.ofInt x.raw.toInt.natAbs⟩ := by
  refine (x.written.ofChars?_chars).trans ?_
  change (magnitude? (x.wholeChars ++ '.' :: x.placeChars)).map _ = _
  rw [magnitude?_written]
  rfl

end Fixed

end ChannelBasic
