/-!
# Text/Utf16 — strings as sequences of 16-bit code units

A machine string holds UTF-16 code units, a program text holds characters.  `encode` goes from the
text to its units; `decode` goes back, reading every unit that is not half of a proper pair as the
replacement character.  `units` is the length a text has on the machine.
-/

namespace ChannelBasic.Utf16

/-- The character that stands for a code unit without its partner. -/
def replacement : Char := '\uFFFD'

/-- The one or two code units of a character. -/
def unitsOf (c : Char) : List UInt16 :=
  if c.toNat < 0x10000 then [UInt16.ofNat c.toNat]
  else
    let n := c.toNat - 0x10000
    [UInt16.ofNat (0xD800 + n / 0x400), UInt16.ofNat (0xDC00 + n % 0x400)]

/-- The code units of a text. -/
def encode (s : String) : List UInt16 := s.toList.flatMap unitsOf

/-- How many code units a text takes. -/
def units (s : String) : Nat := (encode s).length

/-- The first half of a pair. -/
def isHigh (u : UInt16) : Bool := 0xD800 ≤ u.toNat && u.toNat < 0xDC00

/-- The second half of a pair. -/
def isLow (u : UInt16) : Bool := 0xDC00 ≤ u.toNat && u.toNat < 0xE000

/-- A unit standing alone: half of a pair reads as the replacement character. -/
def single (u : UInt16) : Char :=
  if isHigh u || isLow u then replacement else Char.ofNat u.toNat

/-- The character of a proper pair. -/
def pair (high low : UInt16) : Char :=
  Char.ofNat (0x10000 + (high.toNat - 0xD800) * 0x400 + (low.toNat - 0xDC00))

/-- The characters of a sequence of units. -/
def decodeChars : List UInt16 → List Char
  | [] => []
  | [u] => [single u]
  | u :: v :: rest =>
    if isHigh u && isLow v then pair u v :: decodeChars rest
    else single u :: decodeChars (v :: rest)

/-- **Every** sequence of units has a text. -/
def decode (us : List UInt16) : String := String.ofList (decodeChars us)

end ChannelBasic.Utf16
