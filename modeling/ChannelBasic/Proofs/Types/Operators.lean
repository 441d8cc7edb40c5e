import ChannelBasic.Program.Literal
import ChannelBasic.Proofs.Machine.Words
import ChannelBasic.Proofs.Types.Shape

/-!
# Proofs/Types/Operators — which operators go with which shapes

`BinaryOp.Takes op a b c` is the table of the operators: operands of shapes `a` and `b` give a
result of shape `c`.  On values of the right shapes **an operation comes to a value of the shape of
its result, or divides by zero** (`binary_of_takes`); it is never a bad instruction.
-/

namespace ChannelBasic

open Code

/-- Shapes whose values operators work on. -/
@[grind =] def Shape.isValue : Shape → Bool
  | .scalar _ | .string _ => true
  | .pointer | .struct _ => false

/-- Operands that an operator can stand before. -/
@[grind =] def UnaryOp.Takes : UnaryOp → Shape → Prop
  | .plus, σ | .minus, σ => σ.isNumeric = true
  | .not, .scalar s => s = .boolean ∨ s.isIntegral = true
  | .not, _ => False

/-- Operands that an operator can stand between, and what it gives. -/
inductive BinaryOp.Takes : BinaryOp → Shape → Shape → Shape → Prop where
  | arithmetic {op : BinaryOp} {s : Scalar} : op = .add ∨ op = .subtract ∨ op = .divide →
      s.isNumeric = true → Takes op (.scalar s) (.scalar s) (.scalar s)
  | multiply {s : Scalar} : s.isNumeric = true →
      Takes .multiply (.scalar s) (.scalar s) (.scalar s.widened)
  | mod {s : Scalar} : s.isIntegral = true → Takes .mod (.scalar s) (.scalar s) (.scalar s)
  | shift {op : BinaryOp} {s s' : Scalar} : op = .shl ∨ op = .shr → s.isIntegral = true →
      s'.isIntegral = true → Takes op (.scalar s) (.scalar s') (.scalar s)
  | logic {op : BinaryOp} {s : Scalar} : op = .and ∨ op = .or ∨ op = .xor →
      s = .boolean ∨ s.isIntegral = true → Takes op (.scalar s) (.scalar s) (.scalar s)
  | join {a b : Nat} : Takes .add (.string a) (.string b) (.string (a + b))
  | numbers {op : BinaryOp} {c : Comparison} {s : Scalar} : op.comparison? = some c →
      s.isNumeric = true → Takes op (.scalar s) (.scalar s) (.scalar .boolean)
  | strings {op : BinaryOp} {c : Comparison} {a b : Nat} : op.comparison? = some c →
      Takes op (.string a) (.string b) (.scalar .boolean)
  | booleans {op : BinaryOp} : op = .equal ∨ op = .notEqual →
      Takes op (.scalar .boolean) (.scalar .boolean) (.scalar .boolean)

/-- Shapes that the machine converts into one another. -/
@[grind =] def Shape.Converts : Shape → Shape → Prop
  | .scalar s, .scalar s' => ∃ r r', s.rank? = some r ∧ s'.rank? = some r' ∧ r ≤ r'
  | .scalar _, .string _ | .string _, .string _ => True
  | _, _ => False

namespace Shape

variable {σ τ a b c : Shape} {op : BinaryOp}

theorem isValue_of_takes {op : UnaryOp} (h : op.Takes σ) : σ.isValue = true := by
  cases op <;> cases σ <;> simp_all [UnaryOp.Takes, isNumeric, isValue]

theorem isValue_of_isNumeric (h : σ.isNumeric = true) : σ.isValue = true := by
  cases σ <;> simp_all [isNumeric, isValue]

/-- Operands and result of an operator are values. -/
theorem isValue_of_binary (h : op.Takes a b c) :
    a.isValue = true ∧ b.isValue = true ∧ c.isValue = true := by
  cases h <;> exact ⟨rfl, rfl, rfl⟩

theorem isValue_of_converts (h : σ.Converts τ) : σ.isValue = true ∧ τ.isValue = true := by
  cases σ <;> cases τ <;> simp_all [Converts, isValue]

theorem size?_of_isValue (h : σ.isValue = true) (sizes sizes' : List (Nat × Nat)) :
    σ.size? sizes = σ.size? sizes' := by
  cases σ <;> simp_all [isValue, size?]

theorem exists_size?_of_isValue (h : σ.isValue = true) (sizes : List (Nat × Nat)) :
    ∃ n, σ.size? sizes = some n := by
  cases σ <;> simp_all [isValue, size?]

end Shape

/-! ## Values of a shape -/

namespace Value

attribute [grind =] binary integralBinary realBinary decode encode

variable {σ τ a b c : Shape} {v l r : Value}

/-- The values of a shape. -/
@[grind =] def Of : Shape → Value → Prop
  | .scalar .boolean, .boolean _ | .scalar .real, .real _ | .string _, .string _ => True
  | .scalar s, .integral _ => s.isIntegral = true
  | _, _ => False

theorem of_boolean (h : v.Of (.scalar .boolean)) : ∃ b, v = .boolean b := by
  cases v <;> simp_all [Of, Scalar.isIntegral]

theorem of_real (h : v.Of (.scalar .real)) : ∃ x, v = .real x := by
  cases v <;> simp_all [Of, Scalar.isIntegral]

theorem of_string {n : Nat} (h : v.Of (.string n)) : ∃ units, v = .string units := by
  cases v <;> simp_all [Of]

theorem of_integral {s : Scalar} (hs : s.isIntegral = true) (h : v.Of (.scalar s)) :
    ∃ n, v = .integral n := by
  cases s <;> cases v <;> simp_all [Of, Scalar.isIntegral]

theorem integral_of {s : Scalar} {n : Int64} (hs : s.isIntegral = true) :
    (Value.integral n).Of (.scalar s) := by
  cases s <;> simp_all [Of, Scalar.isIntegral]

/-- A number is whole or REAL. -/
theorem of_numeric {s : Scalar} (hs : s.isNumeric = true) (h : v.Of (.scalar s)) :
    s.isIntegral = true ∧ (∃ n, v = .integral n) ∨ s = .real ∧ ∃ x, v = .real x := by
  cases s <;> cases v <;> simp_all [Of, Scalar.isIntegral, Scalar.isNumeric]

/-- Bytes stand for a value of the shape they are read by; a string needs its header. -/
theorem decode_of (hσ : σ.isValue = true) {bs : List UInt8}
    (hlen : ∀ n, σ = .string n → stringHeader ≤ bs.length) :
    ∃ v, decode σ.kind bs = .ok v ∧ v.Of σ := by
  cases σ with
  | scalar s => cases s <;> exact ⟨_, rfl, by simp [Of, Scalar.isIntegral]⟩
  | string n =>
    have h := hlen n rfl
    refine ⟨.string (decodeString bs), ?_, by simp [Of]⟩
    rw [Shape.kind, decode, if_neg (by omega)]
  | pointer => cases hσ
  | struct n => cases hσ

theorem negate_of (hσ : σ.isNumeric = true) (h : v.Of σ) :
    ∃ v', v.negate = .ok v' ∧ v'.Of σ := by
  obtain ⟨s, rfl⟩ : ∃ s, σ = .scalar s := by cases σ <;> simp_all [Shape.isNumeric]
  obtain ⟨hs, n, rfl⟩ | ⟨rfl, x, rfl⟩ := of_numeric hσ h
  · exact ⟨_, rfl, integral_of hs⟩
  · exact ⟨_, rfl, trivial⟩

theorem complement_of (hσ : UnaryOp.Takes .not σ) (h : v.Of σ) :
    ∃ v', v.complement = .ok v' ∧ v'.Of σ := by
  obtain ⟨s, rfl⟩ : ∃ s, σ = .scalar s := by cases σ <;> simp_all [UnaryOp.Takes]
  obtain rfl | hs := hσ
  · obtain ⟨b, rfl⟩ := of_boolean h
    exact ⟨_, rfl, trivial⟩
  · obtain ⟨n, rfl⟩ := of_integral hs h
    exact ⟨_, rfl, integral_of hs⟩

theorem sign_of (hσ : σ.isNumeric = true) (h : v.Of σ) : ∃ n, v.sign = .ok n := by
  obtain ⟨s, rfl⟩ : ∃ s, σ = .scalar s := by cases σ <;> simp_all [Shape.isNumeric]
  obtain ⟨-, n, rfl⟩ | ⟨-, x, rfl⟩ := of_numeric hσ h <;> exact ⟨_, rfl⟩

/-- **An operation on operands it takes comes to a value of its result's shape, or divides by
zero.** -/
theorem binary_of_takes {op : BinaryOp} {code : Opcode} (h : op.Takes a b c)
    (hcode : op.opcode? = some code) (hl : l.Of a) (hr : r.Of b) :
    (∃ v, binary code l r = .ok v ∧ v.Of c) ∨ binary code l r = .error .divisionByZero := by
  have whole {s : Scalar} (hs : s.isIntegral = true) (n m : Int64)
      (hop : ∃ k, integralBinary code n m = .ok k ∨
        integralBinary code n m = .error .divisionByZero) :
      (∃ v, binary code (.integral n) (.integral m) = .ok v ∧ v.Of (.scalar s)) ∨
        binary code (.integral n) (.integral m) = .error .divisionByZero := by
    obtain ⟨k, hk | hk⟩ := hop
    · exact .inl ⟨.integral k, by rw [binary, hk]; rfl, integral_of hs⟩
    · exact .inr (by rw [binary, hk]; rfl)
  cases h with
  | arithmetic hop hs =>
    obtain ⟨hi, n, rfl⟩ | ⟨rfl, x, rfl⟩ := of_numeric hs hl
    · obtain ⟨m, rfl⟩ := of_integral hi hr
      refine whole hi n m ?_
      obtain rfl | rfl | rfl := hop <;> cases hcode
      · exact ⟨_, .inl rfl⟩
      · exact ⟨_, .inl rfl⟩
      · by_cases hm : m = 0
        · exact ⟨0, .inr (by rw [integralBinary, if_pos hm])⟩
        · exact ⟨_, .inl (by rw [integralBinary, if_neg hm])⟩
    · obtain ⟨y, rfl⟩ := of_real hr
      obtain rfl | rfl | rfl := hop <;> cases hcode
      · exact .inl ⟨_, rfl, trivial⟩
      · exact .inl ⟨_, rfl, trivial⟩
      · cases hq : x.div? y with
        | none => exact .inr (by rw [binary, realBinary, hq]; rfl)
        | some q => exact .inl ⟨.real q, by rw [binary, realBinary, hq]; rfl, trivial⟩
  | @multiply s hs =>
    cases hcode
    obtain ⟨hi, n, rfl⟩ | ⟨rfl, x, rfl⟩ := of_numeric hs hl
    · obtain ⟨m, rfl⟩ := of_integral hi hr
      have hw : s.widened.isIntegral = true := by cases s <;> simp_all [Scalar.widened, Scalar.isIntegral]
      exact whole hw n m ⟨_, .inl rfl⟩
    · obtain ⟨y, rfl⟩ := of_real hr
      exact .inl ⟨_, rfl, trivial⟩
  | mod hs =>
    cases hcode
    obtain ⟨n, rfl⟩ := of_integral hs hl
    obtain ⟨m, rfl⟩ := of_integral hs hr
    refine whole hs n m ?_
    by_cases hm : m = 0
    · exact ⟨0, .inr (by rw [integralBinary, if_pos hm])⟩
    · exact ⟨_, .inl (by rw [integralBinary, if_neg hm])⟩
  | shift hop hs hs' =>
    obtain ⟨n, rfl⟩ := of_integral hs hl
    obtain ⟨m, rfl⟩ := of_integral hs' hr
    refine whole hs n m ?_
    obtain rfl | rfl := hop <;> cases hcode <;> exact ⟨_, .inl rfl⟩
  | logic hop hs =>
    obtain rfl | hs := hs
    · obtain ⟨x, rfl⟩ := of_boolean hl
      obtain ⟨y, rfl⟩ := of_boolean hr
      obtain rfl | rfl | rfl := hop <;> cases hcode <;> exact .inl ⟨_, rfl, trivial⟩
    · obtain ⟨n, rfl⟩ := of_integral hs hl
      obtain ⟨m, rfl⟩ := of_integral hs hr
      refine whole hs n m ?_
      obtain rfl | rfl | rfl := hop <;> cases hcode <;> exact ⟨_, .inl rfl⟩
  | join =>
    cases hcode
    obtain ⟨x, rfl⟩ := of_string hl
    obtain ⟨y, rfl⟩ := of_string hr
    exact .inl ⟨_, rfl, trivial⟩
  | numbers hc => cases op <;> simp_all [BinaryOp.opcode?, BinaryOp.comparison?]
  | strings hc => cases op <;> simp_all [BinaryOp.opcode?, BinaryOp.comparison?]
  | booleans hop => obtain rfl | rfl := hop <;> cases hcode

/-- **A comparison of operands it takes has an answer.** -/
theorem compare_of_takes {op : BinaryOp} {k : Comparison} (h : op.Takes a b c)
    (hk : op.comparison? = some k) (hl : l.Of a) (hr : r.Of b) :
    c = .scalar .boolean ∧ ∃ answer, compare k l r = .ok answer := by
  cases h with
  | arithmetic hop => obtain rfl | rfl | rfl := hop <;> cases hk
  | multiply => cases hk
  | mod => cases hk
  | shift hop => obtain rfl | rfl := hop <;> cases hk
  | logic hop => obtain rfl | rfl | rfl := hop <;> cases hk
  | join => cases hk
  | numbers hc hs =>
    obtain ⟨hi, n, rfl⟩ | ⟨rfl, x, rfl⟩ := of_numeric hs hl
    · obtain ⟨m, rfl⟩ := of_integral hi hr
      exact ⟨rfl, _, rfl⟩
    · obtain ⟨y, rfl⟩ := of_real hr
      exact ⟨rfl, _, rfl⟩
  | strings =>
    obtain ⟨x, rfl⟩ := of_string hl
    obtain ⟨y, rfl⟩ := of_string hr
    exact ⟨rfl, _, rfl⟩
  | booleans hop =>
    obtain ⟨x, rfl⟩ := of_boolean hl
    obtain ⟨y, rfl⟩ := of_boolean hr
    obtain rfl | rfl := hop <;> cases hk <;> exact ⟨rfl, _, rfl⟩

/-- An operator is a comparison or an operation. -/
theorem operation_or_comparison (op : BinaryOp) :
    (∃ k, op.comparison? = some k) ∨ op.comparison? = none ∧ ∃ code, op.opcode? = some code := by
  cases op <;> simp [BinaryOp.comparison?, BinaryOp.opcode?]

/-- **A conversion comes to a value of the shape converted to.** -/
theorem cast_of_converts (h : σ.Converts τ) (hv : v.Of σ) :
    ∃ v', v.cast τ.kind = .ok v' ∧ v'.Of τ := by
  cases τ with
  | string c => exact ⟨_, rfl, trivial⟩
  | scalar s' =>
    obtain ⟨s, rfl⟩ : ∃ s, σ = .scalar s := by cases σ <;> simp_all [Shape.Converts]
    obtain ⟨r, r', hr, hr', hle⟩ := h
    obtain ⟨hi, n, rfl⟩ | ⟨rfl, x, rfl⟩ := of_numeric (Scalar.isNumeric_iff_rank?.2 ⟨r, hr⟩) hv
    · cases s' with
      | boolean => cases hr'
      | _ => exact ⟨_, rfl, by simp [Of, Scalar.isIntegral]⟩
    · obtain rfl : 5 = r := by simpa [Scalar.rank?] using hr
      obtain rfl : s' = .real := by cases s' <;> simp_all [Scalar.rank?] <;> omega
      exact ⟨_, rfl, trivial⟩
  | pointer => cases σ <;> cases h
  | struct n => cases σ <;> cases h

/-! ## Values in bytes -/

/-- What is left of a value in `size` bytes: a whole number is cut to its width, a string to the
units that have room. -/
def truncate (size : Nat) : Value → Value
  | .integral n => .integral (Word.wrap n size)
  | .string units => .string (units.take (stringCapacity size))
  | v => v

theorem truncate_of {size : Nat} (h : v.Of σ) : (v.truncate size).Of σ := by
  cases σ with
  | scalar s => cases s <;> cases v <;> simp_all [Of, truncate]
  | _ => cases v <;> simp_all [Of, truncate]

variable {sizes : List (Nat × Nat)} {n : Nat}

theorem length_encode (hn : σ.size? sizes = some n) (h : v.Of σ) : (v.encode n).length = n := by
  cases v with
  | string units =>
    obtain ⟨c, rfl⟩ : ∃ c, σ = .string c := by cases σ <;> simp_all [Of]
    obtain rfl : stringSize c = n := by simpa [Shape.size?] using hn
    rw [encode, length_encodeString, max_eq_left (stringHeader_le_stringSize c)]
  | _ => simp [encode]

/-- **A value that has been written is read back as what is left of it.** -/
theorem decode_encode (hn : σ.size? sizes = some n) (hlt : n < 2 ^ 31) (h : v.Of σ) :
    decode σ.kind (v.encode n) = .ok (v.truncate n) := by
  cases v with
  | boolean b =>
    obtain rfl : σ = .scalar .boolean := by
      cases σ with
      | scalar s => cases s <;> simp_all [Of]
      | _ => simp_all [Of]
    obtain rfl : 1 = n := by simpa [Shape.size?, Scalar.size] using hn
    cases b <;> rfl
  | integral k =>
    obtain ⟨s, rfl⟩ : ∃ s, σ = .scalar s := by cases σ <;> simp_all [Of]
    obtain rfl : s.size = n := by simpa [Shape.size?] using hn
    have hi : s.isIntegral = true := by cases s <;> simp_all [Of]
    have hread : Word.read ((Value.integral k).encode s.size) = Word.wrap k s.size := by
      rw [encode, Word.fit_ofInt64 s.size_le_eight, Word.read_ofInt s.size_le_eight]
    rw [truncate, ← hread]
    cases s <;> first | rfl | cases hi
  | real x =>
    obtain rfl : σ = .scalar .real := by
      cases σ with
      | scalar s => cases s <;> simp_all [Of]
      | _ => simp_all [Of]
    obtain rfl : 8 = n := by simpa [Shape.size?, Scalar.size] using hn
    have hread : Word.read ((Value.real x).encode 8) = x.raw := by
      rw [encode, Word.fit_ofInt64 le_rfl, Word.read_ofInt le_rfl, Word.wrap_eight]
    change Except.ok (Value.real ⟨Word.read ((Value.real x).encode 8)⟩) = _
    rw [hread]
    rfl
  | string units =>
    obtain ⟨c, rfl⟩ : ∃ c, σ = .string c := by cases σ <;> simp_all [Of]
    obtain rfl : stringSize c = n := by simpa [Shape.size?] using hn
    have hlen : ¬ (encodeString units (stringSize c)).length < stringHeader := by
      rw [length_encodeString]
      omega
    have hc : c < 2 ^ 31 := by
      simp only [stringSize] at hlt
      omega
    rw [Shape.kind, decode, encode, if_neg hlen, decodeString_encodeString units hc, truncate,
      stringCapacity_stringSize]

/-- Writing a value loses what does not fit, so it may be lost before. -/
theorem encode_truncate (hn : σ.size? sizes = some n) (h : v.Of σ) :
    (v.truncate n).encode n = v.encode n := by
  cases v with
  | integral k =>
    obtain ⟨s, rfl⟩ : ∃ s, σ = .scalar s := by cases σ <;> simp_all [Of]
    obtain rfl : s.size = n := by simpa [Shape.size?] using hn
    have hmod : Int.bmod k.toInt (256 ^ s.size) % (256 ^ s.size : Nat) =
        k.toInt % (256 ^ s.size : Nat) := Int.bmod_emod
    rw [truncate, encode, encode, Word.fit_ofInt64 s.size_le_eight,
      Word.fit_ofInt64 s.size_le_eight, Word.toInt_wrap s.size_le_eight, Word.ofInt, Word.ofInt,
      Word.span_eq, hmod]
  | string units => simp [truncate, encode, encodeString, List.take_take]
  | _ => rfl

end Value

end ChannelBasic
