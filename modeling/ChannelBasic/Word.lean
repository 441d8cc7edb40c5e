/-!
# Word — numbers as little-endian bytes

A machine number is a row of bytes, least significant first.  `bytes` writes the low bytes of a
number, `signed` reads a row as a two's complement number of its own width, and `wrap` is what is
left of a number after a stay in fewer bytes.
-/

namespace ChannelBasic.Word

/-- The `width` low bytes of a number, least significant first. -/
def bytes : Nat → Nat → List UInt8
  | 0, _ => []
  | width + 1, n => UInt8.ofNat (n % 256) :: bytes width (n / 256)

/-- The number of a row of bytes, read without sign. -/
def unsigned : List UInt8 → Nat
  | [] => 0
  | b :: bs => b.toNat + 256 * unsigned bs

/-- How many numbers there are of a width. -/
def span (width : Nat) : Nat := Nat.pow 256 width

/-- The number of a row of bytes, read as two's complement of the row's width. -/
def signed (bs : List UInt8) : Int := Int.bmod (unsigned bs) (span bs.length)

/-- The `width` low bytes of a signed number. -/
def ofInt (width : Nat) (n : Int) : List UInt8 := bytes width (n % span width).toNat

/-- Exactly `size` bytes: cut, or filled up with zeros. -/
def fit (size : Nat) (bs : List UInt8) : List UInt8 :=
  (bs ++ List.replicate (size - bs.length) 0).take size

/-- The number in a row of one to eight bytes; a longer row counts up to its eighth byte, and an
empty one is zero. -/
def read (bs : List UInt8) : Int64 := Int64.ofInt (signed (bs.take 8))

/-- The eight bytes of a 64-bit number. -/
def ofInt64 (n : Int64) : List UInt8 := ofInt 8 n.toInt

/-- A number cut to `size` bytes and read back. -/
def wrap (n : Int64) (size : Nat) : Int64 := read ((ofInt64 n).take size)

/-- The four bytes of a 32-bit number. -/
def ofInt32 (n : Int32) : List UInt8 := ofInt 4 n.toInt

/-- The 32-bit number in a row of four bytes. -/
def readInt32 (bs : List UInt8) : Int32 := Int32.ofInt (signed bs)

/-- A size as a 32-bit number.  A size that needs more bits becomes the greatest such number, for
which no memory has room. -/
def size32 (n : Nat) : Int32 := Int32.ofNat (min n 0x7fffffff)

/-- Whether a number fits 32 bits. -/
def fits32 (n : Int) : Bool := -0x80000000 ≤ n && n < 0x80000000

@[simp] theorem length_bytes (width n : Nat) : (bytes width n).length = width := by
  induction width generalizing n with
  | zero => rfl
  | succ width ih => simp [bytes, ih]

@[simp] theorem length_ofInt (width : Nat) (n : Int) : (ofInt width n).length = width :=
  length_bytes ..

@[simp] theorem length_fit (size : Nat) (bs : List UInt8) : (fit size bs).length = size := by
  simp only [fit, List.length_take, List.length_append, List.length_replicate]
  omega

/-! ## What is read back -/

/-- Bytes hold a number up to their width. -/
@[simp] theorem unsigned_bytes (width n : Nat) : unsigned (bytes width n) = n % span width := by
  induction width generalizing n with
  | zero => exact (Nat.mod_one n).symm
  | succ width ih =>
    have low : (UInt8.ofNat (n % 256)).toNat = n % 256 := by simp
    have next : span (width + 1) = 256 * span width := Nat.pow_succ'
    rw [bytes, unsigned, ih, low, next, Nat.mod_mul]

/-- **A number in some bytes is read back as its representative of that width.** -/
@[simp] theorem signed_ofInt (width : Nat) (n : Int) :
    signed (ofInt width n) = Int.bmod n (span width) := by
  have pos : (0 : Int) < span width := by
    exact_mod_cast (Nat.pow_pos (by decide) : 0 < span width)
  have nonneg : 0 ≤ n % span width := Int.emod_nonneg _ (by omega)
  have lt : (n % span width).toNat < span width := by
    have := Int.emod_lt_of_pos n pos
    omega
  rw [signed, ofInt, unsigned_bytes, length_bytes, Nat.mod_eq_of_lt lt, Int.toNat_of_nonneg nonneg,
    Int.emod_bmod]

theorem readInt32_ofInt32 (n : Int32) : readInt32 (ofInt32 n) = n := by
  have width : span 4 = 4294967296 := rfl
  have fits : Int.bmod n.toInt (span 4) = n.toInt :=
    Int.bmod_eq_of_le (by have := n.le_toInt; omega) (by have := n.toInt_lt; omega)
  rw [readInt32, ofInt32, signed_ofInt, fits, Int32.ofInt_toInt]

theorem read_ofInt64 (n : Int64) : read (ofInt64 n) = n := by
  have all : (ofInt64 n).take 8 = ofInt64 n := List.take_of_length_le (by simp [ofInt64])
  have width : span 8 = 18446744073709551616 := rfl
  have fits : Int.bmod n.toInt (span 8) = n.toInt :=
    Int.bmod_eq_of_le (by have := n.le_toInt; omega) (by have := n.toInt_lt; omega)
  rw [read, all, ofInt64, signed_ofInt, fits, Int64.ofInt_toInt]

end ChannelBasic.Word
