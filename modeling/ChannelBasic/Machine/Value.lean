import ChannelBasic.Code.Selector
import ChannelBasic.Fixed
import ChannelBasic.Text.Utf16
import ChannelBasic.Word

/-!
# Machine/Value — what bytes on the stack stand for

A value is read from bytes by the type that an instruction names.  Whole numbers of every width are
64-bit values with their sign.  A string is a **record**: its length, its capacity and then its
code units, two bytes each, up to the capacity.
-/

namespace ChannelBasic

/-- Why a machine cannot go on. -/
inductive Fault where
  | badInstruction | functionNotDefined | segmentationFault | stackOverflow | divisionByZero
  deriving DecidableEq, Repr, Inhabited

/-- How a fault is announced. -/
def Fault.title : Fault → String
  | .badInstruction => "BAD_INSTRUCTION"
  | .functionNotDefined => "FUNCTION_NOT_DEFINED"
  | .segmentationFault => "SEGMENTATION_FAULT"
  | .stackOverflow => "STACK_OVERFLOW"
  | .divisionByZero => "DIVISION_BY_ZERO"

/-- A value of the machine. -/
inductive Value where
  | boolean (b : Bool)
  | integral (n : Int64)
  | real (x : Fixed)
  | string (units : List UInt16)
  deriving DecidableEq, Repr, Inhabited

/-! ## String records -/

/-- Bytes before the code units of a record: its length and its capacity. -/
def stringHeader : Nat := 8

/-- Code units that a record of `size` bytes has room for. -/
def stringCapacity (size : Nat) : Nat := (size - stringHeader) / 2

/-- Bytes of a record with room for `capacity` code units. -/
def stringSize (capacity : Nat) : Nat := stringHeader + 2 * capacity

/-- Code units out of bytes; a last byte alone is left out. -/
def unitsOfBytes : List UInt8 → List UInt16
  | low :: high :: rest => UInt16.ofNat (low.toNat + 256 * high.toNat) :: unitsOfBytes rest
  | _ => []

/-- The bytes of code units. -/
def bytesOfUnits (units : List UInt16) : List UInt8 :=
  units.flatMap fun u => Word.bytes 2 u.toNat

/-- A record of `size` bytes with the units it has room for; no record is smaller than its
header. -/
def encodeString (units : List UInt16) (size : Nat) : List UInt8 :=
  let capacity := stringCapacity size
  let kept := units.take capacity
  Word.fit (max size stringHeader)
    (Word.bytes 4 kept.length ++ Word.bytes 4 capacity ++ bytesOfUnits kept)

/-- The units of a record, as many as its length says and its size has room for. -/
def decodeString (bytes : List UInt8) : List UInt16 :=
  let length := (Word.signed (bytes.take 4)).toNat
  (unitsOfBytes (bytes.drop stringHeader)).take (min length (stringCapacity bytes.length))

namespace Value

/-- A text as a value. -/
def ofText (s : String) : Value := .string (Utf16.encode s)

/-- Reads bytes as a value of a type. -/
def decode (type : Code.ValueType) (bytes : List UInt8) : Except Fault Value :=
  match type with
  | .boolean => .ok (.boolean ((bytes.head?.map (· != 0)).getD false))
  | .byte | .short | .integer | .long | .pointer => .ok (.integral (Word.read bytes))
  | .real => .ok (.real ⟨Word.read bytes⟩)
  | .string =>
    if bytes.length < stringHeader then .error .badInstruction
    else .ok (.string (decodeString bytes))
  | .unknown | .array | .struct => .error .badInstruction

/-- Writes a value into `size` bytes: numbers are cut to the low bytes or followed by zeros,
strings are cut to the units that fit. -/
def encode (size : Nat) : Value → List UInt8
  | .boolean b => Word.fit size [if b then 1 else 0]
  | .integral n => Word.fit size (Word.ofInt64 n)
  | .real x => Word.fit size (Word.ofInt64 x.raw)
  | .string units => encodeString units size

/-- The text a value is printed as. -/
def text : Value → String
  | .boolean true => "TRUE"
  | .boolean false => "FALSE"
  | .integral n => Decimal.ofInt n.toInt
  | .real x => x.render
  | .string units => Utf16.decode units

end Value

end ChannelBasic
