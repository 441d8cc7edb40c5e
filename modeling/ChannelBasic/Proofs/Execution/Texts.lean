import ChannelBasic.Program.Coercion
import ChannelBasic.Proofs.Execution.Conversions
import ChannelBasic.Proofs.Text.Numbers

/-!
# Proofs/Execution/Texts — the texts of values have room

Where a value becomes a part of a string, it becomes a text, and checking gives the text as many
characters as its type can take.  The numbers of characters are constants, but they are no
convention: a text is a sign, the digits of a whole part and, for a REAL, a point and four places,
so **the text of every value has room in the text capacity of its type**
(`TypeTable.Builtin.textsFit`).  All characters of a text take one code unit each, so that the
capacity may be counted in code units as well.
-/

namespace ChannelBasic

open Code

/-! ## Digits, signs and places -/

namespace Decimal

variable {n k : Nat} {i : Int} {c : Char}

theorem length_digits_le (hk : 0 < k) (hn : n < 10 ^ k) : (digits n).length ≤ k :=
  (Nat.length_toDigits_le_iff (by decide) hk).2 hn

/-- A number with a sign takes one character more than its digits. -/
theorem length_signed_le (hk : 0 < k) (hi : i.natAbs < 10 ^ k) : (signed i).length ≤ k + 1 := by
  have hdigits := length_digits_le hk hi
  unfold signed
  split
  · exact Nat.succ_le_succ hdigits
  · exact Nat.le_succ_of_le hdigits

theorem lt_of_mem_digits (h : c ∈ digits n) : c.toNat < 128 := by
  have hdigit := isDigit_of_mem_digits h
  simp only [Char.isDigit, Bool.and_eq_true, decide_eq_true_eq] at hdigit
  exact lt_of_le_of_lt hdigit.2 (by decide)

theorem lt_of_mem_signed (h : c ∈ signed i) : c.toNat < 128 := by
  unfold signed at h
  split at h
  · obtain rfl | h := List.mem_cons.1 h
    · decide
    · exact lt_of_mem_digits h
  · exact lt_of_mem_digits h

end Decimal

namespace Fixed

open Decimal

variable {x : Fixed} {n : Nat} {c : Char}

theorem length_decimals_le (hn : n < 10 ^ places) : (decimals n).length ≤ places := by
  obtain ⟨k, hk⟩ := padded_eq_decimals n
  have hlength := length_padded (by decide) hn
  rw [hk, List.length_append] at hlength
  omega

/-- **A REAL takes a sign, fifteen digits, a point and four places at most.** -/
theorem length_chars_le (x : Fixed) : x.chars.length ≤ 1 + 15 + (1 + places) := by
  have hlow := x.raw.le_toInt
  have hhigh := x.raw.toInt_lt
  have hscale : scale.toNat = 10000 := rfl
  have hwhole : (digits (x.raw.toInt.natAbs / scale.toNat)).length ≤ 15 :=
    length_digits_le (by decide) (by rw [hscale]; omega)
  have hplaces := length_decimals_le (mod_scale_lt x.raw.toInt.natAbs)
  unfold chars
  simp only [List.length_append]
  refine Nat.add_le_add (Nat.add_le_add ?_ hwhole) ?_
  · split <;> decide
  · split
    · exact Nat.zero_le _
    · rw [List.length_cons]
      omega

theorem lt_of_mem_chars (h : c ∈ x.chars) : c.toNat < 128 := by
  unfold chars at h
  simp only [List.mem_append] at h
  obtain (h | h) | h := h
  · split at h
    · rw [List.mem_singleton.1 h]
      decide
    · cases h
  · exact lt_of_mem_digits h
  · split at h
    · cases h
    · obtain rfl | h := List.mem_cons.1 h
      · decide
      · obtain ⟨k, hk⟩ := padded_eq_decimals (x.raw.toInt.natAbs % scale.toNat)
        have hpadded := List.mem_append_left (List.replicate k '0') h
        rw [← hk] at hpadded
        obtain h | h := List.mem_append.1 hpadded
        · rw [List.eq_of_mem_replicate h]
          decide
        · exact lt_of_mem_digits h

end Fixed

/-- Characters of one code unit each take as many units as they are. -/
theorem Utf16.units_ofList {cs : List Char} (h : ∀ c ∈ cs, c.toNat < 128) :
    units (String.ofList cs) = cs.length := by
  rw [units, encode, String.toList_ofList]
  induction cs with
  | nil => rfl
  | cons c cs ih =>
    obtain ⟨hc, hcs⟩ := List.forall_mem_cons.1 h
    have hone : unitsOf c = [UInt16.ofNat c.toNat] := if_pos (hc.trans (by decide))
    rw [List.flatMap_cons, hone, List.singleton_append, List.length_cons, List.length_cons, ih hcs]

/-! ## Values -/

/-- The most characters that the text of a value of a plain type takes. -/
def Scalar.textCapacity : Scalar → Nat
  | .boolean => 5
  | .byte => 4
  | .short => 6
  | .integer => 11
  | .long => 20
  | .real => 21

/-- The code units that a value adds to a string: those of a string, or of the text of anything
else. -/
def Value.spelling : Value → List UInt16
  | .string units => units
  | v => Utf16.encode v.text

namespace Value

variable {s : Scalar} {v : Value} {n : Int64}

/-- A whole number of a type is within the range of its bytes. -/
theorem In.natAbs_le (h : (Value.integral n).In s) : n.toInt.natAbs ≤ 256 ^ s.size / 2 := by
  have hwrap : Word.wrap n s.size = n := Value.integral.inj h.truncate
  have hmod : Int.bmod n.toInt (256 ^ s.size) = n.toInt := by
    rw [← Word.toInt_wrap s.size_le_eight, hwrap]
  have hpos : 0 < 256 ^ s.size := Nat.pow_pos (by decide)
  have hlow := Int.le_bmod (x := n.toInt) hpos
  have hhigh := Int.bmod_lt (x := n.toInt) hpos
  rw [hmod] at hlow hhigh
  omega

/-- The text of a value is made of characters of one code unit each, for which there is room. -/
theorem In.exists_chars (h : v.In s) : ∃ cs, v.text = String.ofList cs ∧
    (∀ c ∈ cs, c.toNat < 128) ∧ cs.length ≤ s.textCapacity := by
  have whole {n : Int64} {k : Nat} (hn : (Value.integral n).In s) (hk : 0 < k)
      (hs : 256 ^ s.size / 2 < 10 ^ k) (hc : k + 1 ≤ s.textCapacity) :
      ∃ cs, (Value.integral n).text = String.ofList cs ∧ (∀ c ∈ cs, c.toNat < 128) ∧
        cs.length ≤ s.textCapacity :=
    ⟨_, rfl, fun _ => Decimal.lt_of_mem_signed,
      (Decimal.length_signed_le hk (hn.natAbs_le.trans_lt hs)).trans hc⟩
  have hof := h.of
  cases v with
  | boolean b =>
    obtain rfl : s = .boolean := by cases s <;> first | rfl | cases hof
    have word {cs : List Char} (hcs : cs.all (·.toNat < 128) = true) : ∀ c ∈ cs, c.toNat < 128 :=
      fun c hc => of_decide_eq_true (List.all_eq_true.1 hcs c hc)
    cases b with
    | false => exact ⟨"FALSE".toList, rfl, word (by decide), by decide⟩
    | true => exact ⟨"TRUE".toList, rfl, word (by decide), by decide⟩
  | real x =>
    obtain rfl : s = .real := by cases s <;> first | rfl | cases hof
    exact ⟨x.chars, rfl, fun _ => Fixed.lt_of_mem_chars, x.length_chars_le⟩
  | string units => cases s <;> cases hof
  | integral n =>
    cases s with
    | boolean | real => cases hof
    | byte => exact whole (k := 3) h (by decide) (by decide) (by decide)
    | short => exact whole (k := 5) h (by decide) (by decide) (by decide)
    | integer => exact whole (k := 10) h (by decide) (by decide) (by decide)
    | long => exact whole (k := 19) h (by decide) (by decide) (by decide)

/-- **The text of a value has room in the text capacity of its type.** -/
theorem In.length_text_le (h : v.In s) : v.text.length ≤ s.textCapacity := by
  obtain ⟨cs, hcs, -, hle⟩ := h.exists_chars
  rwa [hcs, String.length_ofList]

theorem In.units_text (h : v.In s) : Utf16.units v.text = v.text.length := by
  obtain ⟨cs, hcs, hlt, -⟩ := h.exists_chars
  rw [hcs, Utf16.units_ofList hlt, String.length_ofList]

theorem In.spelling_eq (h : v.In s) : v.spelling = Utf16.encode v.text := by
  have hof := h.of
  cases v with
  | string units => cases s <;> cases hof
  | _ => rfl

/-- A value becomes a string of its text. -/
theorem In.cast_string (h : v.In s) : v.cast .string = .ok (.string v.spelling) := by
  rw [h.spelling_eq]
  rfl

theorem In.length_spelling_le (h : v.In s) : v.spelling.length ≤ s.textCapacity := by
  rw [h.spelling_eq]
  exact h.units_text.le.trans h.length_text_le

end Value

/-! ## Types -/

namespace TypeTable

variable {t : TypeTable} {id : TypeId} {capacity : Nat}

/-- What has a text capacity is a plain type, with the capacity that the type needs. -/
theorem Builtin.exists_scalar (hB : t.Builtin) (h : t.textCapacity? id = some capacity) :
    ∃ s, t.shape? id = some (.scalar s) ∧ capacity = s.textCapacity := by
  unfold textCapacity? at h
  split at h
  next hb => exact ⟨.boolean, hB.isBoolean hb, (Option.some.inj h).symm⟩
  next =>
    cases hr : t.rank? id with
    | none =>
      rw [hr] at h
      cases h
    | some r =>
      obtain ⟨s, hs, hsr⟩ := rank?_eq_some hr
      refine ⟨s, hs, ?_⟩
      cases s <;> cases hsr <;> rw [hr] at h <;> exact (Option.some.inj h).symm

/-- BOOLEAN and the numeric types have a text capacity. -/
theorem exists_textCapacity (h : (t.isBoolean id || t.isNumeric id) = true) :
    ∃ capacity, t.textCapacity? id = some capacity := by
  unfold textCapacity?
  split
  next => exact ⟨5, rfl⟩
  next hb =>
    obtain ⟨s, hs, hn⟩ := isNumeric_iff.1 ((Bool.or_eq_true_iff.1 h).resolve_left hb)
    rw [rank?_of_shape? hs]
    cases s with
    | boolean => cases hn
    | _ => exact ⟨_, rfl⟩

/-- **The texts of all values of plain types fit**: whatever bytes of its size stand for, the text
has no more characters than the text capacity of the type, and each of them takes one code unit. -/
def TextsFit (t : TypeTable) : Prop :=
  ∀ id, (t.isBoolean id || t.isNumeric id) = true → ∃ capacity, t.textCapacity? id = some capacity ∧
    ∀ data : List UInt8, t.size? id = some data.length → ∃ v,
      Value.decode (t.valueType id) data = .ok v ∧ v.text.length ≤ capacity ∧
        Utf16.units v.text = v.text.length

theorem Builtin.textsFit (hB : t.Builtin) : t.TextsFit := by
  intro id h
  obtain ⟨capacity, hcapacity⟩ := exists_textCapacity h
  obtain ⟨s, hs, rfl⟩ := hB.exists_scalar hcapacity
  refine ⟨_, hcapacity, fun data hdata => ?_⟩
  rw [size?_eq, hs] at hdata
  obtain ⟨v, hv, hin⟩ := Value.exists_in_of_length (Option.some.inj hdata).symm
  rw [valueType_eq hs]
  exact ⟨v, hv, hin.length_text_le, hin.units_text⟩

end TypeTable

end ChannelBasic
