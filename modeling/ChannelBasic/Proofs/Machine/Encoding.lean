import ChannelBasic.Proofs.Machine.Words

/-!
# Proofs/Machine/Encoding — values are written into bytes of any number and read from them

A value may be written into fewer bytes than it takes and read from more.

* **Of a whole number the bytes keep the representative of their width** (`Word.toInt_read_fit`), and
  up to eight bytes are what the number they stand for is written as (`Word.fit_read`).
* **Of a string a record keeps the units that have room in it**, and gives back as many as its length
  word counts (`decodeString_encodeString_of_le`).  Whatever bytes a record is made of, the units it
  gives are kept by a record of its size (`decodeString_recoded`), so that writing what has been read
  a second time changes nothing more.
-/

namespace ChannelBasic

open Code

namespace Word

/-- Bytes behind the eighth are not read. -/
theorem read_fit_of_le {size : Nat} (h : 8 ≤ size) (n : Int64) : read (fit size (ofInt64 n)) = n := by
  have hfirst : (fit size (ofInt64 n)).take 8 = ofInt64 n := by
    rw [fit, List.take_take, min_eq_left h]
    exact List.take_left' (by simp [ofInt64])
  have hall : (ofInt64 n).take 8 = ofInt64 n := List.take_of_length_le (by simp [ofInt64])
  rw [read, hfirst, ← hall]
  exact read_ofInt64 n

/-- **What is read of a number in some bytes is its representative of their width.** -/
theorem toInt_read_fit (size : Nat) (n : Int64) :
    (read (fit size (ofInt64 n))).toInt = Int.bmod n.toInt (256 ^ size) := by
  obtain h | h := Nat.le_total size 8
  · rw [fit_ofInt64 h, read_ofInt h, toInt_wrap h]
  · rw [read_fit_of_le h, ((fits_toInt n).mono h).bmod]

/-- **Up to eight bytes are what is written of the number that is read from them.** -/
theorem fit_read {bs : List UInt8} (h : bs.length ≤ 8) : fit bs.length (ofInt64 (read bs)) = bs := by
  rw [fit_ofInt64 h, toInt_read h, ofInt_signed]

end Word

/-- **The units that a record gives are kept by every record of its size.** -/
theorem decodeString_recoded {bs : List UInt8} (h : stringHeader ≤ bs.length) :
    decodeString (encodeString (decodeString bs) bs.length) = decodeString bs := by
  have hfits : (decodeString bs).take (stringCapacity bs.length) = decodeString bs :=
    List.take_of_length_le (length_decodeString_le bs)
  rw [decodeString_encodeString_of_le h, hfits,
    Word.signed_bytes_four (length_decodeString_lt h), Int.toNat_natCast, List.take_length]

namespace Value

variable {type : ValueType} {bs : List UInt8} {size : Nat}

/-- Reads bytes as a value of a type and writes the value into `size` bytes. -/
def recode (type : ValueType) (size : Nat) (bs : List UInt8) : Except Fault (List UInt8) :=
  (decode type bs).map (encode size)

/-! ## Reading by type -/

theorem decode_whole (h : type.isIntegral = true ∨ type = .pointer) (bs : List UInt8) :
    decode type bs = .ok (.integral (Word.read bs)) := by
  obtain h | rfl := h
  · cases type <;> first | rfl | cases h
  · rfl

theorem decode_string (h : stringHeader ≤ bs.length) :
    decode .string bs = .ok (.string (decodeString bs)) :=
  if_neg (by omega)

theorem decode_boolean_encode (h : 1 ≤ size) (b : Bool) :
    decode .boolean ((Value.boolean b).encode size) = .ok (.boolean b) := by
  obtain ⟨n, rfl⟩ : ∃ n, size = n + 1 := ⟨size - 1, by omega⟩
  cases b <;> rfl

theorem recode_whole (h : type.isIntegral = true ∨ type = .pointer) (hle : bs.length ≤ 8) :
    recode type bs.length bs = .ok bs := by
  rw [recode, decode_whole h]
  exact congrArg Except.ok (Word.fit_read hle)

theorem recode_string (h : stringHeader ≤ bs.length) :
    recode .string bs.length bs = .ok (encodeString (decodeString bs) bs.length) := by
  rw [recode, decode_string h]
  rfl

/-- The capacity of a record stands behind its length. -/
theorem capacity_encodeString (h : stringHeader ≤ size) (units : List UInt16) :
    ((encodeString units size).drop 4).take 4 = Word.bytes 4 (stringCapacity size) := by
  rw [encodeString_of_le h, List.append_assoc, List.drop_left' (by simp)]
  exact List.take_left' (by simp)

/-- **Of a string its longest prefix that has room is read again**, unless a length word cannot say
how long that is. -/
theorem exists_kept (h : stringHeader ≤ size) (units : List UInt16) :
    ∃ kept, decode .string ((Value.string units).encode size) = .ok (.string kept) ∧
      kept <+: units ∧ kept.length ≤ stringCapacity size ∧
      (min units.length (stringCapacity size) < 2 ^ 31 →
        kept = units.take (stringCapacity size)) := by
  have hsize := length_encodeString_of_le h units
  refine ⟨_, decode_string (by rw [encode, hsize]; exact h), ?_, ?_, fun hlt => ?_⟩
  · rw [encode, decodeString_encodeString_of_le h]
    exact List.take_prefix _ _
  · have hle := length_decodeString_le (encodeString units size)
    rwa [hsize] at hle
  · have hlength : (units.take (stringCapacity size)).length < 2 ^ 31 := by
      rwa [List.length_take, min_comm]
    rw [encode, decodeString_encodeString_of_le h, Word.signed_bytes_four hlength,
      Int.toNat_natCast]
    exact (List.prefix_iff_eq_take.1 (List.take_prefix _ _)).symm

theorem recode_recode_string (h : stringHeader ≤ bs.length) :
    (recode .string bs.length bs >>= recode .string bs.length) = recode .string bs.length bs := by
  have hsize := length_encodeString_of_le h (decodeString bs)
  have hagain : recode .string bs.length (encodeString (decodeString bs) bs.length) =
      .ok (encodeString (decodeString bs) bs.length) := by
    have hrecord := recode_string (h.trans_eq hsize.symm)
    rwa [hsize, decodeString_recoded h] at hrecord
  rw [recode_string h]
  exact hagain

/-! ## The theorem -/

/-- **Values and bytes are made of each other without loss**, but for what has no room.  A whole
number comes back as its representative of the width, and up to eight bytes come back as they are; a
REAL takes eight bytes and a BOOLEAN one.  A record of `size` bytes has that size and the capacity
that belongs to it; it gives back a prefix of the units that were written, which is the longest that
has room unless it is longer than a length word can say, as none is in a record whose size has 32 bits.
Bytes of any kind are read as no more units than have room, and to write these once more changes
nothing. -/
theorem decode_encode_of_size (size : Nat) :
    (∀ type : ValueType, type.isIntegral = true ∨ type = .pointer →
      (∀ n : Int64, ∃ n', decode type ((Value.integral n).encode size) = .ok (.integral n') ∧
        n'.toInt = Int.bmod n.toInt (2 ^ (8 * size))) ∧
      (size ≤ 8 → ∀ bs : List UInt8, bs.length = size → recode type size bs = .ok bs)) ∧
    ((∀ x : Fixed, decode .real ((Value.real x).encode 8) = .ok (.real x)) ∧
      ∀ bs : List UInt8, bs.length = 8 → recode .real 8 bs = .ok bs) ∧
    (1 ≤ size → ∀ b : Bool,
      decode .boolean ((Value.boolean b).encode size) = .ok (.boolean b)) ∧
    (8 ≤ size →
      (∀ units : List UInt16,
        ((Value.string units).encode size).length = size ∧
        (((Value.string units).encode size).drop 4).take 4 = Word.bytes 4 ((size - 8) / 2) ∧
        ∃ kept, decode .string ((Value.string units).encode size) = .ok (.string kept) ∧
          kept <+: units ∧ kept.length ≤ (size - 8) / 2 ∧
          (min units.length ((size - 8) / 2) < 2 ^ 31 → kept = units.take ((size - 8) / 2))) ∧
      ∀ bs : List UInt8, bs.length = size →
        (∃ units, decode .string bs = .ok (.string units) ∧ units.length ≤ (size - 8) / 2) ∧
        (recode .string size bs >>= recode .string size) = recode .string size bs) := by
  have hpow : 2 ^ (8 * size) = 256 ^ size := by
    rw [pow_mul]
    rfl
  refine ⟨fun type ht => ⟨fun n => ?_, fun hle bs hbs => ?_⟩, ⟨fun x => ?_, fun bs hbs => ?_⟩,
    decode_boolean_encode, fun hle => ⟨fun units => ?_, fun bs hbs => ?_⟩⟩
  · exact ⟨_, decode_whole ht _, by rw [encode, hpow, Word.toInt_read_fit]⟩
  · subst hbs
    exact recode_whole ht hle
  · have hread : Word.read (Word.fit 8 (Word.ofInt64 x.raw)) = x.raw :=
      Word.read_fit_of_le le_rfl x.raw
    rw [encode, decode, hread]
  · have hread : Word.fit 8 (Word.ofInt64 (Word.read bs)) = bs := by
      rw [← hbs]
      exact Word.fit_read hbs.le
    exact congrArg Except.ok hread
  · exact ⟨length_encodeString_of_le hle units, capacity_encodeString hle units,
      exists_kept hle units⟩
  · subst hbs
    exact ⟨⟨_, decode_string hle, length_decodeString_le bs⟩, recode_recode_string hle⟩

/-- Eleven bytes have room for one unit.  A length word of -1 is read as no unit at all, and one byte
more than fits is cut off; in a byte 200 is -56. -/
theorem decode_encode_of_size_odd :
    decode .string ((Value.string [97, 98, 99]).encode 11) = .ok (.string [97]) ∧
    (recode .string 11 [255, 255, 255, 255, 9, 9, 9, 9, 97, 0, 7] >>= recode .string 11) =
      .ok [0, 0, 0, 0, 1, 0, 0, 0, 0, 0, 0] ∧
    (∃ n', decode .byte ((Value.integral 200).encode 1) = .ok (.integral n') ∧ n'.toInt = -56) ∧
    recode .byte 1 [200] = .ok [200] ∧
    decode .boolean ((Value.boolean true).encode 11) = .ok (.boolean true) := by
  obtain ⟨-, -, hboolean, hstring⟩ := decode_encode_of_size 11
  obtain ⟨hwritten, hread⟩ := hstring (by decide)
  obtain ⟨-, -, kept, hkept, -, -, hlongest⟩ := hwritten [97, 98, 99]
  obtain ⟨hbyte, hback⟩ := (decode_encode_of_size 1).1 .byte (.inl rfl)
  refine ⟨?_, ?_, hbyte 200, hback (by decide) [200] rfl, hboolean (by decide) true⟩
  · rw [hkept, hlongest (by decide)]
    rfl
  · rw [(hread [255, 255, 255, 255, 9, 9, 9, 9, 97, 0, 7] rfl).2]
    rfl

end Value

end ChannelBasic
