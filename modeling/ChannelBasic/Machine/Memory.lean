import ChannelBasic.Machine.Value

/-!
# Machine/Memory — the bytes of a machine

One row of bytes.  An address is a number that may be anything; whatever reaches outside the row is
a segmentation fault, and a write that faults changes nothing.
-/

namespace ChannelBasic

/-- The bytes of a machine. -/
structure Memory where
  bytes : Array UInt8
  deriving DecidableEq, Repr, Inhabited

namespace Memory

/-- Zeros. -/
def zeros (size : Nat) : Memory := ⟨Array.replicate size 0⟩

/-- How many bytes there are. -/
def size (m : Memory) : Nat := m.bytes.size

/-- The address after the last byte, as a register holds it: a memory of `2 ^ 31` bytes or more has
no usable top. -/
def top (m : Memory) : Int := Int.bmod m.size 0x100000000

/-- Whether `count` bytes at an address lie inside. -/
def inside (m : Memory) (address count : Int) : Bool :=
  0 ≤ address && 0 ≤ count && address + count ≤ m.size

/-- Bytes put one after the other from an index on. -/
def overwrite (bytes : Array UInt8) (start : Nat) : List UInt8 → Array UInt8
  | [] => bytes
  | b :: rest => overwrite (bytes.setIfInBounds start b) (start + 1) rest

@[simp] theorem size_overwrite (bytes : Array UInt8) (start : Nat) (data : List UInt8) :
    (overwrite bytes start data).size = bytes.size := by
  induction data generalizing bytes start with
  | nil => rfl
  | cons b rest ih => simp [overwrite, ih]

/-- The bytes at an address. -/
def read (m : Memory) (address count : Int) : Except Fault (List UInt8) :=
  if m.inside address count then
    .ok (m.bytes.extract address.toNat (address + count).toNat).toList
  else .error .segmentationFault

/-- Puts bytes at an address. -/
def write (m : Memory) (address : Int) (data : List UInt8) : Except Fault Memory :=
  if m.inside address data.length then .ok ⟨overwrite m.bytes address.toNat data⟩
  else .error .segmentationFault

/-- Puts the bytes of one place at another; the places may overlap. -/
def copy (m : Memory) (source target count : Int) : Except Fault Memory := do
  m.write target (← m.read source count)

/-- Puts one byte in `count` places. -/
def fill (m : Memory) (address count : Int) (b : UInt8) : Except Fault Memory :=
  if m.inside address count then
    .ok ⟨overwrite m.bytes address.toNat (List.replicate count.toNat b)⟩
  else .error .segmentationFault

/-- The 32-bit number at an address. -/
def readInt32 (m : Memory) (address : Int) : Except Fault Int := do
  return Word.signed (← m.read address 4)

/-- Puts the low 32 bits of a number at an address. -/
def writeInt32 (m : Memory) (address n : Int) : Except Fault Memory :=
  m.write address (Word.ofInt 4 n)

/-- The 64-bit number at an address. -/
def readInt64 (m : Memory) (address : Int) : Except Fault Int64 := do
  return Word.read (← m.read address 8)

/-- Puts a 64-bit number at an address. -/
def writeInt64 (m : Memory) (address : Int) (n : Int64) : Except Fault Memory :=
  m.write address (Word.ofInt64 n)

/-! ## String records -/

/-- The bytes of the string record at an address, as its capacity says.  A record whose size or
whose capacity's address is no 32-bit number is no record. -/
def stringSizeAt (m : Memory) (address : Int) : Except Fault Int := do
  unless Word.fits32 (address + 4) do throw .segmentationFault
  let capacity ← m.readInt32 (address + 4)
  let size := stringHeader + 2 * capacity
  unless 0 ≤ capacity && Word.fits32 size do throw .segmentationFault
  return size

/-- The bytes of the string record at an address, all of which lie inside and up to an address of
32 bits. -/
def recordSizeAt (m : Memory) (address : Int) : Except Fault Int := do
  let size ← m.stringSizeAt address
  unless m.inside address size && Word.fits32 (address + size) do throw .segmentationFault
  return size

/-- The text of the string record at an address. -/
def readString (m : Memory) (address : Int) : Except Fault String := do
  let size ← m.recordSizeAt address
  return Utf16.decode (decodeString (← m.read address size))

/-- Puts a text into the string record at an address, cut to the record's capacity. -/
def writeString (m : Memory) (address : Int) (s : String) : Except Fault Memory := do
  let size ← m.recordSizeAt address
  m.write address (encodeString (Utf16.encode s) size.toNat)

end Memory

end ChannelBasic
