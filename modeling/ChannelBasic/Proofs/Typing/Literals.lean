import ChannelBasic.Proofs.Text.Units
import ChannelBasic.Proofs.Types.Operators

/-!
# Proofs/Typing/Literals — values known beforehand stay within their types

`Literal.Fits l σ` says that a literal is one of the values of a shape: a whole number within its
width, a text within its capacity.  Whatever is computed beforehand **fits the type it is computed
for**, since the operations on literals end in what storing the result would do.
-/

namespace ChannelBasic

open Code

namespace Literal

variable {σ τ a b c : Shape} {l l' : Literal} {v : Value} {sizes : List (Nat × Nat)} {n : Nat}

/-- Whether a literal is a value of a shape. -/
def Fits : Literal → Shape → Prop
  | .boolean _, .scalar .boolean | .real _, .scalar .real => True
  | .integral n, .scalar s => s.isIntegral = true ∧ Word.wrap n s.size = n
  | .text s, .string c => Utf16.units s ≤ c
  | _, _ => False

theorem toValue_of (h : l.Fits σ) : l.toValue.Of σ := by
  cases σ with
  | scalar s => cases s <;> cases l <;> simp_all [Fits, toValue, Value.Of]
  | string => cases l <;> simp_all [Fits, toValue, Value.Of, Value.ofText]
  | _ => cases l <;> simp_all [Fits]

/-- What fits a shape loses nothing in it. -/
theorem truncate_toValue (hn : σ.size? sizes = some n) (h : l.Fits σ) :
    l.toValue.truncate n = l.toValue := by
  cases l with
  | integral k =>
    obtain ⟨s, rfl⟩ : ∃ s, σ = .scalar s := by cases σ <;> simp_all [Fits]
    obtain rfl : s.size = n := by simpa [Shape.size?] using hn
    have hk : Word.wrap k s.size = k := by cases s <;> simp_all [Fits]
    rw [toValue, Value.truncate, hk]
  | text s =>
    obtain ⟨c, rfl⟩ : ∃ c, σ = .string c := by cases σ <;> simp_all [Fits]
    obtain rfl : stringSize c = n := by simpa [Shape.size?] using hn
    rw [toValue, Value.ofText, Value.truncate, stringCapacity_stringSize,
      List.take_of_length_le h]
  | _ => rfl

/-- **What a value of a shape becomes by storing it fits the shape.** -/
theorem fits_of_ofValue? (hn : σ.size? sizes = some n) (hv : v.Of σ)
    (h : ofValue? σ.kind n v = some l) : l.Fits σ := by
  cases v with
  | boolean x =>
    obtain rfl : σ = .scalar .boolean := by
      cases σ with
      | scalar s => cases s <;> simp_all [Value.Of]
      | _ => simp_all [Value.Of]
    obtain rfl : Literal.boolean x = l := by simpa [ofValue?] using h
    trivial
  | real x =>
    obtain rfl : σ = .scalar .real := by
      cases σ with
      | scalar s => cases s <;> simp_all [Value.Of]
      | _ => simp_all [Value.Of]
    obtain rfl : Literal.real x = l := by simpa [ofValue?] using h
    trivial
  | integral k =>
    obtain ⟨s, rfl⟩ : ∃ s, σ = .scalar s := by cases σ <;> simp_all [Value.Of]
    obtain rfl : s.size = n := by simpa [Shape.size?] using hn
    have hi : s.isIntegral = true := by cases s <;> simp_all [Value.Of]
    have hk : s.kind.isIntegral = true := by rw [s.isIntegral_kind, hi]
    obtain rfl : Literal.integral (Word.wrap k s.size) = l := by
      simpa [ofValue?, Shape.kind, hk] using h
    have hfit := And.intro hi (Word.wrap_wrap s.size_le_eight k)
    cases s <;> exact hfit
  | string units =>
    obtain ⟨c, rfl⟩ : ∃ c, σ = .string c := by cases σ <;> simp_all [Value.Of]
    obtain rfl : stringSize c = n := by simpa [Shape.size?] using hn
    obtain rfl : Literal.text (Utf16.decode (units.take c)) = l := by
      simpa [ofValue?, stringCapacity_stringSize] using h
    have hle := Utf16.units_decode_le (units.take c)
    have htake : (units.take c).length ≤ c := by simp
    exact hle.trans htake

theorem boolean_fits (x : Bool) : (Literal.boolean x).Fits (.scalar .boolean) := trivial

/-- A value of a shape can be stored. -/
theorem exists_ofValue? (hv : v.Of σ) : ∃ l, ofValue? σ.kind n v = some l := by
  cases v with
  | integral k =>
    obtain ⟨s, rfl⟩ : ∃ s, σ = .scalar s := by cases σ <;> simp_all [Value.Of]
    have hi : s.isIntegral = true := by cases s <;> simp_all [Value.Of]
    exact ⟨_, by rw [ofValue?, Shape.kind, s.isIntegral_kind, if_pos hi]⟩
  | _ => exact ⟨_, rfl⟩

/-! ## Operations -/

theorem toOption_bind_eq_some {x : Except Fault Value} {f : Value → Option Literal} :
    x.toOption.bind f = some l ↔ ∃ v, x = .ok v ∧ f v = some l := by
  cases x <;> simp [Except.toOption]

theorem fits_unary {op : UnaryOp} (hop : op.Takes σ) (hn : σ.size? sizes = some n)
    (hl : l.Fits σ) (h : l.unary op σ.kind n = some l') : l'.Fits σ := by
  cases op with
  | plus =>
    obtain rfl : l = l' := by simpa [unary] using h
    exact hl
  | minus =>
    obtain ⟨v, hv, h⟩ := toOption_bind_eq_some.1 h
    obtain ⟨v', hv', hof⟩ := Value.negate_of hop (toValue_of hl)
    obtain rfl : v' = v := by simpa using hv'.symm.trans hv
    exact fits_of_ofValue? hn hof h
  | not =>
    obtain ⟨v, hv, h⟩ := toOption_bind_eq_some.1 h
    obtain ⟨v', hv', hof⟩ := Value.complement_of hop (toValue_of hl)
    obtain rfl : v' = v := by simpa using hv'.symm.trans hv
    exact fits_of_ofValue? hn hof h

theorem fits_binary {op : BinaryOp} {r : Literal} (hop : op.Takes a b c)
    (hn : c.size? sizes = some n) (hl : l.Fits a) (hr : r.Fits b)
    (h : l.binary op r c.kind n = some l') : l'.Fits c := by
  obtain ⟨k, hk⟩ | ⟨hk, code, hcode⟩ := Value.operation_or_comparison op
  · obtain ⟨rfl, answer, hc⟩ := Value.compare_of_takes hop hk (toValue_of hl) (toValue_of hr)
    obtain rfl : Literal.boolean answer = l' := by
      simpa [binary, hk, hc, Except.toOption] using h
    exact boolean_fits answer
  · rw [binary, hk] at h
    simp only [hcode] at h
    obtain ⟨v, hv, h⟩ := toOption_bind_eq_some.1 h
    obtain ⟨v', hv', hof⟩ | hz :=
      Value.binary_of_takes hop hcode (toValue_of hl) (toValue_of hr)
    · obtain rfl : v' = v := by simpa using hv'.symm.trans hv
      exact fits_of_ofValue? hn hof h
    · rw [hz] at hv
      cases hv

theorem fits_cast (hc : σ.Converts τ) (hn : τ.size? sizes = some n) (hl : l.Fits σ)
    (h : l.cast τ.kind n = some l') : l'.Fits τ := by
  obtain ⟨v, hv, h⟩ := toOption_bind_eq_some.1 h
  obtain ⟨v', hv', hof⟩ := Value.cast_of_converts hc (toValue_of hl)
  obtain rfl : v' = v := by simpa using hv'.symm.trans hv
  exact fits_of_ofValue? hn hof h

/-- A number converted to a narrower numeric type fits it, too. -/
theorem fits_cast_number {s s' : Scalar} (hs : s.isNumeric = true) (hs' : s'.isNumeric = true)
    (hl : l.Fits (.scalar s)) (h : l.cast s'.kind s'.size = some l') : l'.Fits (.scalar s') := by
  obtain ⟨v, hv, h⟩ := toOption_bind_eq_some.1 h
  have hsize : Shape.size? [] (.scalar s') = some s'.size := rfl
  obtain ⟨-, k, hk⟩ | ⟨-, x, hx⟩ := Value.of_numeric hs (toValue_of hl)
  · rw [hk] at hv
    refine fits_of_ofValue? hsize ?_ h
    cases s' <;> cases hs' <;> cases hv <;> simp [Value.Of, Scalar.isIntegral]
  · rw [hx] at hv
    refine fits_of_ofValue? hsize ?_ h
    cases s' <;> cases hs' <;> cases hv <;> simp [Value.Of, Scalar.isIntegral]

/-- A conversion that the machine makes can be made beforehand. -/
theorem exists_cast (hc : σ.Converts τ) (hl : l.Fits σ) : ∃ l', l.cast τ.kind n = some l' := by
  obtain ⟨v, hv, hof⟩ := Value.cast_of_converts hc (toValue_of hl)
  obtain ⟨l', hl'⟩ := exists_ofValue? (n := n) hof
  exact ⟨l', toOption_bind_eq_some.2 ⟨v, hv, hl'⟩⟩

end Literal

end ChannelBasic
