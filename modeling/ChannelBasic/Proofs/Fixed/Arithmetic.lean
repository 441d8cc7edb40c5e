import Mathlib.Data.Rat.Floor
import Mathlib.Tactic.Linarith
import ChannelBasic.Proofs.Machine.Words

/-!
# Proofs/Fixed/Arithmetic — products and quotients are exact but for their last place

A REAL stands for the fraction `number`.  What is computed is the exact count of ten-thousandths, cut
by `towardZero`.  The cut commutes with a change of sign (`towardZero_neg`) and changes a number by
less than one (`abs_towardZero_sub_lt`), and **division that is cut toward zero is the fraction, cut
toward zero** (`towardZero_div`).

Nothing is cut off a product by a whole number, so that the quotient undoes it (`mul_ofInt`,
`div?_mul_ofInt`).
-/

namespace ChannelBasic

/-! ## What is behind the point -/

/-- The whole part of a fraction, rounded toward zero. -/
def towardZero (q : ℚ) : ℤ := if 0 ≤ q then ⌊q⌋ else ⌈q⌉

theorem towardZero_of_nonneg {q : ℚ} (h : 0 ≤ q) : towardZero q = ⌊q⌋ := if_pos h

theorem towardZero_neg (q : ℚ) : towardZero (-q) = -towardZero q := by
  obtain h | rfl | h := lt_trichotomy q 0
  · rw [towardZero, towardZero, if_pos (neg_nonneg.2 h.le), if_neg (not_le.2 h), Int.floor_neg]
  · simp [towardZero]
  · rw [towardZero, towardZero, if_neg (by linarith), if_pos h.le, Int.ceil_neg]

/-- Less than one is forgotten. -/
theorem abs_towardZero_sub_lt (q : ℚ) : |(towardZero q : ℚ) - q| < 1 := by
  unfold towardZero
  split
  · have hle := Int.floor_le q
    have hlt := Int.lt_floor_add_one q
    rw [abs_lt]
    constructor <;> linarith
  · have hle := Int.le_ceil q
    have hlt := Int.ceil_lt_add_one q
    rw [abs_lt]
    constructor <;> linarith

/-- **Division that is cut toward zero is the fraction, cut toward zero.** -/
theorem towardZero_div (m n : ℤ) : towardZero (m / n) = m.tdiv n := by
  have key (k d : ℕ) : towardZero ((k : ℤ) / (d : ℤ) : ℚ) = (k : ℤ).tdiv d := by
    rw [towardZero_of_nonneg (by positivity), Int.cast_natCast, Int.cast_natCast,
      Rat.floor_natCast_div_natCast, ← Int.ofNat_tdiv]
    rfl
  obtain ⟨k, rfl | rfl⟩ := m.eq_nat_or_neg <;> obtain ⟨d, rfl | rfl⟩ := n.eq_nat_or_neg
  · exact key k d
  · rw [Int.cast_neg, div_neg, towardZero_neg, key, Int.tdiv_neg]
  · rw [Int.cast_neg, neg_div, towardZero_neg, key, Int.neg_tdiv]
  · rw [Int.cast_neg, Int.cast_neg, neg_div_neg_eq, key, Int.neg_tdiv, Int.tdiv_neg, neg_neg]

namespace Fixed

variable {x a b : Fixed} {n : Int64}

/-! ## Whole numbers -/

theorem raw_ofInt (n : Int64) : (ofInt n).raw.toInt = Int.bmod (n.toInt * scale) (2 ^ 64) :=
  Int64.toInt_ofInt

/-- **A REAL holds the whole numbers that can be written in it, and no others.** -/
theorem raw_ofInt_eq_iff (n : Int64) :
    (ofInt n).raw.toInt = n.toInt * scale ↔ n.toInt.natAbs ≤ maxWhole := by
  have hmax : maxWhole = 922337203685477 := rfl
  have hscale : n.toInt * scale = n.toInt * 10000 := rfl
  rw [raw_ofInt, hscale, hmax]
  constructor
  · intro h
    have hlo := Int.le_bmod (x := n.toInt * 10000) (m := 2 ^ 64) (by decide)
    have hhi := Int.bmod_lt (x := n.toInt * 10000) (m := 2 ^ 64) (by decide)
    omega
  · intro h
    exact Int.bmod_eq_of_le (by omega) (by omega)

/-- The whole part of a REAL needs no more than 64 bits. -/
theorem toInt_toInt (x : Fixed) : x.toInt.toInt = x.raw.toInt.tdiv scale := by
  have hlo := x.raw.le_toInt
  have hhi := x.raw.toInt_lt
  have hsize : Int64.size = 2 ^ 64 := rfl
  have hle : (x.raw.toInt.tdiv scale).natAbs * 10000 ≤ x.raw.toInt.natAbs := by
    rw [Int.natAbs_tdiv]
    exact Nat.div_mul_le_self _ _
  rw [toInt, Int64.toInt_ofInt, hsize]
  exact Int.bmod_eq_of_le (by omega) (by omega)

theorem isIntegral_iff : x.isIntegral = true ↔ x.toInt.toInt * scale = x.raw.toInt := by
  have hmod := Int.tmod_add_tdiv_mul x.raw.toInt scale
  rw [toInt_toInt, isIntegral, beq_iff_eq]
  omega

/-! ## Room for what is computed on the way -/

theorem natAbs_raw_le (x : Fixed) : x.raw.toInt.natAbs ≤ 2 ^ 63 := by
  have hlow := x.raw.le_toInt
  have hhigh := x.raw.toInt_lt
  omega

/-- **A product needs 127 bits**, whatever it is divided by. -/
theorem fits_product (a b : Fixed) (n : ℤ) :
    Word.Fits 16 (a.raw.toInt * b.raw.toInt) ∧
      Word.Fits 16 ((a.raw.toInt * b.raw.toInt).tdiv n) := by
  have hle : (a.raw.toInt * b.raw.toInt).natAbs ≤ 2 ^ 63 * 2 ^ 63 := by
    rw [Int.natAbs_mul]
    exact Nat.mul_le_mul (natAbs_raw_le a) (natAbs_raw_le b)
  exact ⟨Word.fits_of_natAbs_le hle (by norm_num),
    Word.fits_of_natAbs_le ((Int.natAbs_tdiv_le_natAbs _ n).trans hle) (by norm_num)⟩

/-- A dividend needs fewer bits than that. -/
theorem fits_dividend (a : Fixed) (n : ℤ) :
    Word.Fits 16 (a.raw.toInt * scale) ∧ Word.Fits 16 ((a.raw.toInt * scale).tdiv n) := by
  have hle : (a.raw.toInt * scale).natAbs ≤ 2 ^ 63 * 10000 := by
    rw [Int.natAbs_mul]
    exact Nat.mul_le_mul_right _ (natAbs_raw_le a)
  exact ⟨Word.fits_of_natAbs_le hle (by norm_num),
    Word.fits_of_natAbs_le ((Int.natAbs_tdiv_le_natAbs _ n).trans hle) (by norm_num)⟩

/-! ## Products and quotients -/

theorem toInt_ofInt_of_fits {m : ℤ} (h : Word.Fits 8 m) : (Int64.ofInt m).toInt = m :=
  Int64.toInt_ofInt.trans h.bmod

theorem toInt_eq_zero : n.toInt = 0 ↔ n = 0 :=
  ⟨fun h => Int64.toInt_inj.1 h, fun h => by rw [h]; rfl⟩

theorem div?_of_ne (h : b.raw ≠ 0) :
    a.div? b = some ⟨Int64.ofInt ((a.raw.toInt * scale).tdiv b.raw.toInt)⟩ :=
  if_neg h

theorem div?_of_eq (h : b.raw = 0) : a.div? b = none := if_pos h

theorem mul_comm (a b : Fixed) : a.mul b = b.mul a := by
  rw [mul, mul, Int.mul_comm]

/-- **A product changes its sign with its first factor.** -/
theorem mul_of_opposite {a' : Fixed} (h : a'.raw.toInt = -a.raw.toInt) (b : Fixed) :
    a'.mul b = (a.mul b).neg := by
  rw [mul, h, Int.neg_mul, Int.neg_tdiv, Int64.ofInt_neg]
  rfl

theorem div?_of_opposite {a' : Fixed} (h : a'.raw.toInt = -a.raw.toInt) (b : Fixed) :
    a'.div? b = (a.div? b).map neg := by
  by_cases hb : b.raw = 0
  · rw [div?_of_eq hb, div?_of_eq hb]
    rfl
  · rw [div?_of_ne hb, div?_of_ne hb, h, Int.neg_mul, Int.neg_tdiv, Int64.ofInt_neg]
    rfl

/-- **A quotient changes its sign with its divisor.** -/
theorem div?_by_opposite {b' : Fixed} (h : b'.raw.toInt = -b.raw.toInt) (a : Fixed) :
    a.div? b' = (a.div? b).map neg := by
  have hzero : b'.raw = 0 ↔ b.raw = 0 := by
    rw [← toInt_eq_zero, ← toInt_eq_zero, h, Int.neg_eq_zero]
  by_cases hb : b.raw = 0
  · rw [div?_of_eq hb, div?_of_eq (hzero.2 hb)]
    rfl
  · rw [div?_of_ne hb, div?_of_ne (mt hzero.1 hb), h, Int.tdiv_neg, Int64.ofInt_neg]
    rfl

/-- A product by a whole number is exact. -/
theorem mul_ofInt (hn : Word.Fits 8 (n.toInt * scale)) (a : Fixed) :
    a.mul (ofInt n) = ⟨Int64.ofInt (a.raw.toInt * n.toInt)⟩ := by
  have hraw : (ofInt n).raw.toInt = n.toInt * scale := toInt_ofInt_of_fits hn
  rw [mul, hraw, ← Int.mul_assoc, Int.mul_tdiv_cancel _ (by decide)]

/-- … and is undone by the quotient. -/
theorem div?_mul_ofInt (hn : Word.Fits 8 (n.toInt * scale)) (hne : n ≠ 0)
    (ha : Word.Fits 8 (a.raw.toInt * n.toInt)) : (a.mul (ofInt n)).div? (ofInt n) = some a := by
  have hraw : (ofInt n).raw.toInt = n.toInt * scale := toInt_ofInt_of_fits hn
  have hscaled : n.toInt * scale ≠ 0 := mul_ne_zero (mt toInt_eq_zero.1 hne) (by decide)
  have hdivisor : (ofInt n).raw ≠ 0 := by rwa [Ne, ← toInt_eq_zero, hraw]
  rw [div?_of_ne hdivisor, hraw, mul_ofInt hn, toInt_ofInt_of_fits ha, Int.mul_assoc,
    Int.mul_tdiv_cancel _ hscaled, Int64.ofInt_toInt]

/-! ## How far a result is from the exact one -/

/-- What a REAL stands for. -/
def number (x : Fixed) : ℚ := x.raw.toInt / scale

theorem scale_pos : (0 : ℚ) < scale := by
  norm_num [scale]

/-- Numbers whose counts are less than one apart differ in their last place only. -/
theorem abs_number_sub_lt {q : ℚ} (h : |(x.raw.toInt : ℚ) - q| < 1) :
    |x.number - q / scale| < 1 / scale := by
  rw [number, ← sub_div, abs_div, abs_of_pos scale_pos]
  exact div_lt_div_of_pos_right h scale_pos

/-- **A product is the exact one, cut toward zero**, where there is room for that. -/
theorem toInt_mul {a b : Fixed}
    (h : Word.Fits 8 (towardZero (a.raw.toInt * b.raw.toInt / scale))) :
    (a.mul b).raw.toInt = towardZero (a.raw.toInt * b.raw.toInt / scale) := by
  have hcut : towardZero (a.raw.toInt * b.raw.toInt / scale) =
      (a.raw.toInt * b.raw.toInt).tdiv scale := by
    rw [← Int.cast_mul, towardZero_div]
  rw [hcut] at h ⊢
  exact toInt_ofInt_of_fits h

theorem abs_number_mul_sub_lt
    (h : Word.Fits 8 (towardZero (a.raw.toInt * b.raw.toInt / scale))) :
    |(a.mul b).number - a.number * b.number| < 1 / scale := by
  have hexact : a.number * b.number = a.raw.toInt * b.raw.toInt / scale / scale := by
    rw [number, number, div_mul_div_comm, div_div]
  rw [hexact]
  apply abs_number_sub_lt
  rw [toInt_mul h]
  exact abs_towardZero_sub_lt _

/-- **A quotient is the exact one, cut toward zero**, where there is room for that. -/
theorem toInt_of_div? {q : Fixed} (hq : a.div? b = some q)
    (h : Word.Fits 8 (towardZero (a.raw.toInt * scale / b.raw.toInt))) :
    q.raw.toInt = towardZero (a.raw.toInt * scale / b.raw.toInt) := by
  have hcut : towardZero (a.raw.toInt * scale / b.raw.toInt) =
      (a.raw.toInt * scale).tdiv b.raw.toInt := by
    rw [← Int.cast_mul, towardZero_div]
  have hb : b.raw ≠ 0 := fun hzero => by
    rw [div?_of_eq hzero] at hq
    cases hq
  rw [div?_of_ne hb] at hq
  rw [hcut] at h ⊢
  rw [← Option.some.inj hq]
  exact toInt_ofInt_of_fits h

theorem abs_number_div?_sub_lt {q : Fixed} (hq : a.div? b = some q)
    (h : Word.Fits 8 (towardZero (a.raw.toInt * scale / b.raw.toInt))) :
    |q.number - a.number / b.number| < 1 / scale := by
  have hexact : a.number / b.number = a.raw.toInt * scale / b.raw.toInt / scale := by
    rw [number, number, div_div_div_cancel_right₀ scale_pos.ne', mul_div_right_comm,
      mul_div_cancel_right₀ _ scale_pos.ne']
  rw [hexact]
  apply abs_number_sub_lt
  rw [toInt_of_div? hq h]
  exact abs_towardZero_sub_lt _

/-- **Products and quotients of REALs are the exact ones, cut toward zero.**  What is computed on the
way has room in 128 bits.  Where the result has room in 64, it is less than one unit of the last place
away from the exact one.  Signs can be taken out, products commute, and there is no quotient by zero
only.  A product by a whole number is exact, and the quotient by that number takes it back. -/
theorem mul_div?_towardZero (a b : Fixed) :
    -- what is computed on the way
    (Word.Fits 16 (a.raw.toInt * b.raw.toInt) ∧
      Word.Fits 16 ((a.raw.toInt * b.raw.toInt).tdiv scale) ∧
      Word.Fits 16 (a.raw.toInt * scale) ∧
      Word.Fits 16 ((a.raw.toInt * scale).tdiv b.raw.toInt)) ∧
    -- the results
    (Word.Fits 8 (towardZero (a.raw.toInt * b.raw.toInt / scale)) →
      (a.mul b).raw.toInt = towardZero (a.raw.toInt * b.raw.toInt / scale) ∧
        |(a.mul b).number - a.number * b.number| < 1 / scale) ∧
    (b.raw = 0 → a.div? b = none) ∧
    (b.raw ≠ 0 → ∃ q, a.div? b = some q ∧
      (Word.Fits 8 (towardZero (a.raw.toInt * scale / b.raw.toInt)) →
        q.raw.toInt = towardZero (a.raw.toInt * scale / b.raw.toInt) ∧
          |q.number - a.number / b.number| < 1 / scale)) ∧
    -- their signs and their factors
    (∀ a' : Fixed, a'.raw.toInt = -a.raw.toInt →
      a'.mul b = (a.mul b).neg ∧ a'.div? b = (a.div? b).map neg) ∧
    (∀ b' : Fixed, b'.raw.toInt = -b.raw.toInt →
      a.mul b' = (a.mul b).neg ∧ a.div? b' = (a.div? b).map neg) ∧
    a.mul b = b.mul a ∧
    -- whole numbers
    ∀ n : Int64, Word.Fits 8 (n.toInt * scale) → Word.Fits 8 (a.raw.toInt * n.toInt) →
      (a.mul (ofInt n)).raw.toInt = a.raw.toInt * n.toInt ∧
        (n ≠ 0 → (a.mul (ofInt n)).div? (ofInt n) = some a) := by
  refine ⟨?room, ?product, div?_of_eq, ?quotient, ?first, ?second, mul_comm a b, ?whole⟩
  case room =>
    obtain ⟨hproduct, hcut⟩ := fits_product a b scale
    obtain ⟨hdividend, hquotient⟩ := fits_dividend a b.raw.toInt
    exact ⟨hproduct, hcut, hdividend, hquotient⟩
  case product => exact fun h => ⟨toInt_mul h, abs_number_mul_sub_lt h⟩
  case quotient =>
    intro hb
    have hq := div?_of_ne (a := a) hb
    exact ⟨_, hq, fun h => ⟨toInt_of_div? hq h, abs_number_div?_sub_lt hq h⟩⟩
  case first => exact fun a' h => ⟨mul_of_opposite h b, div?_of_opposite h b⟩
  case second =>
    intro b' h
    refine ⟨?_, div?_by_opposite h a⟩
    rw [mul_comm, mul_of_opposite h, mul_comm]
  case whole =>
    intro n hn ha
    refine ⟨?_, fun hne => div?_mul_ofInt hn hne ha⟩
    rw [mul_ofInt hn, toInt_ofInt_of_fits ha]

/-- Half as much again as -3.3333 is -4.99995, two thirds of it are -2.2222, and three times that
much can be taken back. -/
theorem mul_div?_towardZero_thirds :
    (mul ⟨-33333⟩ ⟨15000⟩).raw.toInt = -49999 ∧
      (∃ q, div? ⟨-33333⟩ ⟨15000⟩ = some q ∧ q.raw.toInt = -22222) ∧
      mul ⟨33333⟩ ⟨15000⟩ = (mul ⟨-33333⟩ ⟨15000⟩).neg ∧
      (mul ⟨-33333⟩ (ofInt 3)).div? (ofInt 3) = some ⟨-33333⟩ := by
  have hproduct : towardZero ((-33333 : Int64).toInt * (15000 : Int64).toInt / scale) = -49999 := by
    decide +kernel
  have hquotient :
      towardZero ((-33333 : Int64).toInt * scale / (15000 : Int64).toInt) = -22222 := by
    decide +kernel
  obtain ⟨-, hmul, -, hdiv, hfirst, -, -, hwhole⟩ := mul_div?_towardZero ⟨-33333⟩ ⟨15000⟩
  obtain ⟨q, hq, hcount⟩ := hdiv (by decide)
  refine ⟨?_, ⟨q, hq, ?_⟩, (hfirst ⟨33333⟩ (by decide)).1,
    (hwhole 3 (by decide) (by decide)).2 (by decide)⟩
  · exact (hmul (by rw [hproduct]; decide)).1.trans hproduct
  · exact (hcount (by rw [hquotient]; decide)).1.trans hquotient

end Fixed

end ChannelBasic
