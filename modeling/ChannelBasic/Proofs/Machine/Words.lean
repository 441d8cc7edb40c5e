import Mathlib.Tactic.Ring
import ChannelBasic.Machine.Value

/-!
# Proofs/Machine/Words — numbers and strings in bytes and back

What is left of a number in fewer bytes is its representative of that width (`toInt_wrap`), and a
row of bytes is what its number is written as (`ofInt_signed`).  `Fits` says which numbers bytes of a
width can hold.

A record of any size gives back as many units as its length word counts
(`decodeString_encodeString_of_le`), which are those that had room in it as long as a length word can
count them (`decodeString_encodeString`).
-/

namespace ChannelBasic

namespace Word

/-! ## Bytes -/

theorem span_eq (width : Nat) : span width = 256 ^ width := rfl

theorem take_bytes {k width : Nat} (h : k ≤ width) (n : Nat) :
    (bytes width n).take k = bytes k n := by
  induction k generalizing width n with
  | zero => rfl
  | succ k ih =>
    obtain ⟨w, rfl⟩ : ∃ w, width = w + 1 := ⟨width - 1, by omega⟩
    rw [bytes, bytes, List.take_succ_cons, ih (by omega)]

/-- Bytes depend on a number up to their width only. -/
theorem bytes_mod (k n m : Nat) (h : 256 ^ k ∣ m) : bytes k (n % m) = bytes k n := by
  induction k generalizing n m with
  | zero => rfl
  | succ k ih =>
    obtain ⟨q, rfl⟩ := h
    have hm : 256 ^ (k + 1) * q = 256 * (256 ^ k * q) := by ring
    rw [bytes, bytes, hm, Nat.mod_mul_right_mod, Nat.mod_mul_right_div_self]
    exact congrArg _ (ih (n / 256) _ ⟨q, rfl⟩)

theorem ofInt_bytes (k : Nat) {w : Nat} (h : k ≤ w) (n : Int) :
    bytes k (n % (256 ^ w : Nat)).toNat = ofInt k n := by
  have hpow : 256 ^ k ∣ 256 ^ w := pow_dvd_pow 256 h
  have hpos : (0 : Int) < (256 ^ w : Nat) := by exact_mod_cast Nat.pow_pos (by decide : 0 < 256)
  have hmod : (n % (256 ^ k : Nat)).toNat = (n % (256 ^ w : Nat)).toNat % 256 ^ k := by
    have hnn : 0 ≤ n % (256 ^ w : Nat) := Int.emod_nonneg _ (by omega)
    have key : n % (256 ^ k : Nat) = n % (256 ^ w : Nat) % (256 ^ k : Nat) :=
      (Int.emod_emod_of_dvd n (Int.natCast_dvd_natCast.2 hpow)).symm
    rw [key, ← Int.toNat_of_nonneg hnn]
    exact_mod_cast rfl
  rw [ofInt, span_eq, hmod, bytes_mod k _ _ (dvd_refl _)]

/-- A size is written without a sign. -/
theorem ofInt_natCast (width n : Nat) : ofInt width n = bytes width n := by
  rw [ofInt, span_eq, ← Int.natCast_emod, Int.toNat_natCast, bytes_mod width n _ (dvd_refl _)]

theorem take_ofInt {k width : Nat} (h : k ≤ width) (n : Int) :
    (ofInt width n).take k = ofInt k n := by
  rw [ofInt, span_eq, take_bytes h, ofInt_bytes k h]

theorem fit_eq_take {size : Nat} {bs : List UInt8} (h : size ≤ bs.length) :
    fit size bs = bs.take size := by
  rw [fit, Nat.sub_eq_zero_of_le h]
  simp

theorem fit_ofInt64 {size : Nat} (h : size ≤ 8) (n : Int64) :
    fit size (ofInt64 n) = ofInt size n.toInt := by
  rw [fit_eq_take (by simpa [ofInt64] using h), ofInt64, take_ofInt h]

theorem unsigned_lt (bs : List UInt8) : unsigned bs < 256 ^ bs.length := by
  induction bs with
  | nil => simp [unsigned]
  | cons b bs ih =>
    have hb : b.toNat < 256 := b.toNat_lt
    rw [unsigned, List.length_cons, Nat.pow_succ]
    omega

theorem bytes_unsigned (bs : List UInt8) : bytes bs.length (unsigned bs) = bs := by
  induction bs with
  | nil => rfl
  | cons b bs ih =>
    have hb : b.toNat < 256 := b.toNat_lt
    have hlow : (b.toNat + 256 * unsigned bs) % 256 = b.toNat := by omega
    have hhigh : (b.toNat + 256 * unsigned bs) / 256 = unsigned bs := by omega
    rw [List.length_cons, unsigned, bytes, hlow, hhigh, ih, UInt8.ofNat_toNat]

/-- **A row of bytes is what its number is written as.** -/
theorem ofInt_signed (bs : List UInt8) : ofInt bs.length (signed bs) = bs := by
  have hpos : (0 : Int) < (256 ^ bs.length : Nat) := by
    exact_mod_cast Nat.pow_pos (by decide : 0 < 256)
  have hmod : signed bs % (256 ^ bs.length : Nat) = (unsigned bs : Int) := by
    rw [signed, span_eq, Int.bmod_emod]
    exact Int.emod_eq_of_lt (by omega) (by exact_mod_cast unsigned_lt bs)
  rw [ofInt, span_eq, hmod, Int.toNat_natCast, bytes_unsigned]

/-! ## Numbers of a width -/

section Fits

variable {width : Nat} {x : Int}

/-- A number that bytes of a width can hold. -/
def Fits (width : Nat) (x : Int) : Prop :=
  -((256 ^ width : Nat) : Int) ≤ 2 * x ∧ 2 * x < (256 ^ width : Nat)

instance (width : Nat) (x : Int) : Decidable (Fits width x) :=
  inferInstanceAs (Decidable (_ ∧ _))

theorem Fits.bmod (h : Fits width x) : Int.bmod x (256 ^ width) = x :=
  Int.bmod_eq_of_le_mul_two (by have := h.1; omega) (by have := h.2; omega)

theorem fits_zero (width : Nat) : Fits width 0 := by
  have hpos : 0 < 256 ^ width := Nat.pow_pos (by decide)
  unfold Fits
  omega

theorem Fits.mono (h : Fits width x) {wide : Nat} (hle : width ≤ wide) : Fits wide x := by
  have hpow : 256 ^ width ≤ 256 ^ wide := Nat.pow_le_pow_right (by decide) hle
  obtain ⟨hlow, hhigh⟩ := h
  unfold Fits
  omega

theorem fits_toInt (n : Int64) : Fits 8 n.toInt := by
  have hlow := n.le_toInt
  have hhigh := n.toInt_lt
  unfold Fits
  omega

theorem fits_of_natAbs_le {n : Nat} (h : x.natAbs ≤ n) (hn : 2 * n < 256 ^ width) :
    Fits width x := by
  unfold Fits
  omega

theorem fits_bmod (width : Nat) (x : Int) : Fits width (Int.bmod x (256 ^ width)) := by
  have hpos : 0 < 256 ^ width := Nat.pow_pos (by decide)
  have hlow := Int.le_bmod (x := x) hpos
  have hhigh := Int.bmod_lt (x := x) hpos
  unfold Fits
  omega

/-- What is read from bytes fits as many. -/
theorem fits_signed (bs : List UInt8) : Fits bs.length (signed bs) :=
  fits_bmod _ _

end Fits

theorem bmod_bmod_size {k : Nat} (h : k ≤ 8) (n : Int) :
    Int.bmod (Int.bmod n (256 ^ k)) Int64.size = Int.bmod n (256 ^ k) := by
  have hsize : Int64.size = 2 ^ 64 := rfl
  have hk : (256 : Nat) ^ k ≤ 256 ^ 8 := Nat.pow_le_pow_right (by decide) h
  have hpos : 0 < 256 ^ k := Nat.pow_pos (by decide)
  have hlo := Int.le_bmod (x := n) hpos
  have hhi := Int.bmod_lt (x := n) hpos
  apply Int.bmod_eq_of_le <;> omega

theorem toInt_read {bs : List UInt8} (h : bs.length ≤ 8) : (read bs).toInt = signed bs := by
  rw [read, List.take_of_length_le h, Int64.toInt_ofInt, signed, span_eq, bmod_bmod_size h]

/-- **What is left of a number in some bytes is its representative of that width.** -/
theorem toInt_wrap {size : Nat} (h : size ≤ 8) (n : Int64) :
    (wrap n size).toInt = Int.bmod n.toInt (256 ^ size) := by
  have hlen : ((ofInt64 n).take size).length ≤ 8 := by simp [ofInt64]
  rw [wrap, toInt_read hlen, ofInt64, take_ofInt h, signed_ofInt, span_eq]

theorem wrap_wrap {size : Nat} (h : size ≤ 8) (n : Int64) : wrap (wrap n size) size = wrap n size := by
  apply Int64.toInt_inj.1
  rw [toInt_wrap h, toInt_wrap h, Int.bmod_bmod]

theorem wrap_eight (n : Int64) : wrap n 8 = n := by
  apply Int64.toInt_inj.1
  rw [toInt_wrap le_rfl]
  exact Int.bmod_eq_of_le (by have := n.le_toInt; omega) (by have := n.toInt_lt; omega)

/-- Reading what was written gives what is left of it. -/
theorem read_ofInt {size : Nat} (h : size ≤ 8) (n : Int64) :
    read (ofInt size n.toInt) = wrap n size := by
  apply Int64.toInt_inj.1
  rw [toInt_wrap h, toInt_read (by simpa using h), signed_ofInt, span_eq]

/-- A number in a wider type is the same number. -/
theorem wrap_of_le {a b : Nat} (hab : a ≤ b) (hb : b ≤ 8) {n : Int64} (h : wrap n a = n) :
    wrap n b = n := by
  have ha : Int.bmod n.toInt (256 ^ a) = n.toInt := by
    rw [← toInt_wrap (hab.trans hb), h]
  have hpow : (256 : Nat) ^ a ≤ 256 ^ b := Nat.pow_le_pow_right (by decide) hab
  have hpos : 0 < 256 ^ a := Nat.pow_pos (by decide)
  have hlo := Int.le_bmod (x := n.toInt) hpos
  have hhi := Int.bmod_lt (x := n.toInt) hpos
  apply Int64.toInt_inj.1
  rw [toInt_wrap hb]
  rw [ha] at hlo hhi
  apply Int.bmod_eq_of_le <;> omega

theorem bytes_add (k w n : Nat) : bytes (k + w) n = bytes k n ++ bytes w (n / 256 ^ k) := by
  induction k generalizing n with
  | zero => simp [bytes]
  | succ k ih =>
    rw [Nat.succ_add, bytes, bytes, ih, List.cons_append, Nat.div_div_eq_div_mul, Nat.pow_succ']

theorem toInt_shiftRight_32 (v : Int64) : (v >>> 32).toInt = v.toInt / 2 ^ 32 := by
  have h32 : ((32 : Int64).toBitVec.smod 64) = 32#64 := by decide
  rw [← Int64.toInt_toBitVec, Int64.toBitVec_shiftRight, h32, BitVec.toInt_sshiftRight',
    Int.shiftRight_eq_div_pow]
  rfl

/-- A 64-bit number is its two halves. -/
theorem ofInt32_append (v : Int64) :
    ofInt32 v.toInt32 ++ ofInt32 (v >>> 32).toInt32 = ofInt64 v := by
  have low : v.toInt32.toInt % (256 ^ 4 : Nat) = v.toInt % (256 ^ 4 : Nat) := by
    rw [Int64.toInt_toInt32]
    exact Int.bmod_emod
  have high : (v >>> 32).toInt32.toInt % (256 ^ 4 : Nat) = v.toInt / 2 ^ 32 % (256 ^ 4 : Nat) := by
    rw [Int64.toInt_toInt32, toInt_shiftRight_32]
    exact Int.bmod_emod
  have hlow : (v.toInt % (256 ^ 4 : Nat)).toNat = (v.toInt % (256 ^ 8 : Nat)).toNat % 256 ^ 4 := by
    omega
  have hhigh : (v.toInt / 2 ^ 32 % (256 ^ 4 : Nat)).toNat =
      (v.toInt % (256 ^ 8 : Nat)).toNat / 256 ^ 4 := by
    omega
  rw [ofInt32, ofInt32, ofInt64, ofInt, ofInt, ofInt, span_eq, span_eq, low, high, hlow, hhigh,
    bytes_mod 4 _ _ (dvd_refl _), ← bytes_add 4 4]

/-- Sizes that need more than 32 bits are cut. -/
theorem toInt_size32_eq_min (n : Nat) : (size32 n).toInt = (min n 0x7fffffff : Nat) :=
  Int32.toInt_ofNat_of_lt (by omega)

theorem toInt_size32 {n : Nat} (h : n < 2 ^ 31) : (size32 n).toInt = n := by
  rw [toInt_size32_eq_min, min_eq_left (by omega)]

theorem fits32_iff {x : Int} : fits32 x = true ↔ -0x80000000 ≤ x ∧ x < 0x80000000 := by
  simp [fits32]

/-- A 32-bit number is read back from its four bytes. -/
theorem signed_ofInt_four {x : Int} (h : fits32 x = true) : signed (ofInt 4 x) = x := by
  have hspan : span 4 = 4294967296 := rfl
  rw [fits32_iff] at h
  rw [signed_ofInt]
  exact Int.bmod_eq_of_le (by omega) (by omega)

/-- A size is read back from four bytes if it is no larger than a number with a sign can be. -/
theorem signed_bytes_four {n : Nat} (h : n < 2 ^ 31) : signed (bytes 4 n) = n := by
  rw [signed, unsigned_bytes, length_bytes, span_eq, Nat.mod_eq_of_lt (by omega),
    Int.bmod_eq_of_le (by omega) (by omega)]

/-- Whatever is read back of a size is no larger. -/
theorem toNat_signed_bytes_le (n : Nat) : (signed (bytes 4 n)).toNat ≤ n := by
  have hmod : n % 256 ^ 4 ≤ n := Nat.mod_le _ _
  have hle : Int.bmod (n % 256 ^ 4 : Nat) (256 ^ 4) ≤ (n % 256 ^ 4 : Nat) := by
    rw [Int.bmod_def]
    split <;> omega
  rw [signed, unsigned_bytes, length_bytes, span_eq]
  omega

end Word

/-! ## String records -/

theorem stringCapacity_stringSize (c : Nat) : stringCapacity (stringSize c) = c := by
  simp [stringCapacity, stringSize]

theorem stringHeader_le_stringSize (c : Nat) : stringHeader ≤ stringSize c := by
  simp [stringSize]

theorem unitsOfBytes_bytesOfUnits (units : List UInt16) (rest : List UInt8) :
    unitsOfBytes (bytesOfUnits units ++ rest) = units ++ unitsOfBytes rest := by
  induction units with
  | nil => rfl
  | cons u units ih =>
    have hu : u.toNat < 65536 := u.toNat_lt
    have hval : (UInt8.ofNat (u.toNat % 256)).toNat +
        256 * (UInt8.ofNat (u.toNat / 256 % 256)).toNat = u.toNat := by
      simp
      omega
    have hcons : bytesOfUnits (u :: units) = UInt8.ofNat (u.toNat % 256) ::
        UInt8.ofNat (u.toNat / 256 % 256) :: bytesOfUnits units := rfl
    rw [hcons, List.cons_append, List.cons_append, unitsOfBytes, ih, hval, UInt16.ofNat_toNat]
    rfl

theorem length_bytesOfUnits (units : List UInt16) : (bytesOfUnits units).length = 2 * units.length := by
  induction units with
  | nil => rfl
  | cons u units ih =>
    have hcons : bytesOfUnits (u :: units) = Word.bytes 2 u.toNat ++ bytesOfUnits units := rfl
    rw [hcons, List.length_append, ih, Word.length_bytes, List.length_cons]
    ring

@[simp] theorem length_encodeString (units : List UInt16) (size : Nat) :
    (encodeString units size).length = max size stringHeader := by
  simp [encodeString]

theorem length_encodeString_of_le {size : Nat} (h : stringHeader ≤ size) (units : List UInt16) :
    (encodeString units size).length = size := by
  rw [length_encodeString, max_eq_left h]

/-- The parts of a record of any size. -/
theorem encodeString_of_le {size : Nat} (h : stringHeader ≤ size) (units : List UInt16) :
    encodeString units size =
      Word.bytes 4 (units.take (stringCapacity size)).length ++
        Word.bytes 4 (stringCapacity size) ++
        (bytesOfUnits (units.take (stringCapacity size)) ++
          List.replicate (size - stringSize (units.take (stringCapacity size)).length) 0) := by
  have hlen : (units.take (stringCapacity size)).length ≤ stringCapacity size := by simp
  have hsum : (Word.bytes 4 (units.take (stringCapacity size)).length ++
      Word.bytes 4 (stringCapacity size) ++
        bytesOfUnits (units.take (stringCapacity size))).length =
      stringSize (units.take (stringCapacity size)).length := by
    rw [List.length_append, List.length_append, Word.length_bytes, Word.length_bytes,
      length_bytesOfUnits]
    rfl
  have hfits : stringSize (units.take (stringCapacity size)).length ≤ size := by
    simp only [stringCapacity, stringSize, stringHeader] at h hlen ⊢
    omega
  rw [encodeString, max_eq_left h, Word.fit, hsum, List.take_of_length_le]
  · simp only [List.append_assoc]
  · rw [List.length_append, hsum, List.length_replicate]
    omega

/-- The parts of a record. -/
theorem encodeString_eq (units : List UInt16) (c : Nat) :
    encodeString units (stringSize c) = Word.bytes 4 (units.take c).length ++ Word.bytes 4 c ++
      (bytesOfUnits (units.take c) ++ List.replicate (2 * (c - (units.take c).length)) 0) := by
  have hrest : stringSize c - stringSize (units.take c).length =
      2 * (c - (units.take c).length) := by
    simp only [stringSize]
    omega
  rw [encodeString_of_le (stringHeader_le_stringSize c), stringCapacity_stringSize, hrest]

/-- **A record gives back as many units as its length word counts.** -/
theorem decodeString_encodeString_of_le {size : Nat} (h : stringHeader ≤ size)
    (units : List UInt16) :
    decodeString (encodeString units size) =
      units.take (Word.signed (Word.bytes 4 (units.take (stringCapacity size)).length)).toNat := by
  have hlen : (units.take (stringCapacity size)).length ≤ stringCapacity size := by simp
  have hle := Word.toNat_signed_bytes_le (units.take (stringCapacity size)).length
  have htake : (encodeString units size).take 4 =
      Word.bytes 4 (units.take (stringCapacity size)).length := by
    rw [encodeString_of_le h, List.append_assoc, List.take_append_of_le_length (by simp)]
    exact List.take_of_length_le (by simp)
  have hdrop : (encodeString units size).drop stringHeader =
      bytesOfUnits (units.take (stringCapacity size)) ++
        List.replicate (size - stringSize (units.take (stringCapacity size)).length) 0 := by
    rw [encodeString_of_le h]
    exact List.drop_left' (by simp [stringHeader])
  rw [decodeString, htake, hdrop, length_encodeString_of_le h, unitsOfBytes_bytesOfUnits,
    min_eq_left (hle.trans hlen), List.take_append_of_le_length hle, List.take_take,
    min_eq_left (hle.trans hlen)]

/-- **A record gives back the units that had room in it.** -/
theorem decodeString_encodeString (units : List UInt16) {c : Nat} (hc : c < 2 ^ 31) :
    decodeString (encodeString units (stringSize c)) = units.take c := by
  have hlen : (units.take c).length ≤ c := by simp
  rw [decodeString_encodeString_of_le (stringHeader_le_stringSize c), stringCapacity_stringSize,
    Word.signed_bytes_four (hlen.trans_lt hc), Int.toNat_natCast, List.length_take,
    ← List.take_take, List.take_length]

/-- Whatever its length word says, a record has no more units than there is room for. -/
theorem length_decodeString_le (bytes : List UInt8) :
    (decodeString bytes).length ≤ stringCapacity bytes.length :=
  (List.length_take_le _ _).trans (min_le_right _ _)

/-- A length word says less than `2 ^ 31`. -/
theorem length_decodeString_lt {bytes : List UInt8} (h : stringHeader ≤ bytes.length) :
    (decodeString bytes).length < 2 ^ 31 := by
  have hlen : (bytes.take 4).length = 4 := by
    rw [List.length_take]
    exact min_eq_left ((by decide : 4 ≤ stringHeader).trans h)
  obtain ⟨-, hhigh⟩ := Word.fits_signed (bytes.take 4)
  have hle : (decodeString bytes).length ≤ (Word.signed (bytes.take 4)).toNat :=
    (List.length_take_le _ _).trans (min_le_left _ _)
  rw [hlen] at hhigh
  omega

end ChannelBasic
