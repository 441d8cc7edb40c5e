import ChannelBasic.Text.Decimal

/-!
# Fixed — numbers with four decimal places

A REAL is a 64-bit count of ten-thousandths.  Sums wrap around; products and quotients are taken
exactly, cut toward zero and then wrapped.  `ofChars?` reads a decimal number and forgets every
place after the fourth, `render` writes the shortest text that reads back.
-/

namespace ChannelBasic

/-- A number counted in ten-thousandths. -/
structure Fixed where
  /-- How many ten-thousandths. -/
  raw : Int64
  deriving DecidableEq, Repr, Inhabited

namespace Fixed

/-- Ten-thousandths in a whole. -/
def scale : Int := 10000

/-- Decimal places kept. -/
def places : Nat := 4

/-- The greatest whole part that can be written. -/
def maxWhole : Nat := 922337203685477

/-- A whole number, wrapped if it is too large. -/
def ofInt (n : Int64) : Fixed := ⟨Int64.ofInt (n.toInt * scale)⟩

/-- The whole part, cut toward zero. -/
def toInt (x : Fixed) : Int64 := Int64.ofInt (x.raw.toInt.tdiv scale)

/-- Whether there is nothing behind the point. -/
def isIntegral (x : Fixed) : Bool := x.raw.toInt.tmod scale == 0

/-- `-1`, `0` or `1`. -/
def sign (x : Fixed) : Int := x.raw.toInt.sign

/-- The negative, wrapped. -/
def neg (x : Fixed) : Fixed := ⟨-x.raw⟩

/-- The sum, wrapped. -/
def add (x y : Fixed) : Fixed := ⟨x.raw + y.raw⟩

/-- The difference, wrapped. -/
def sub (x y : Fixed) : Fixed := ⟨x.raw - y.raw⟩

/-- The product, cut toward zero and wrapped. -/
def mul (x y : Fixed) : Fixed := ⟨Int64.ofInt ((x.raw.toInt * y.raw.toInt).tdiv scale)⟩

/-- The quotient, cut toward zero and wrapped; there is none by zero. -/
def div? (x y : Fixed) : Option Fixed :=
  if y.raw = 0 then none
  else some ⟨Int64.ofInt ((x.raw.toInt * scale).tdiv y.raw.toInt)⟩

/-- Numbers are ordered as their counts are. -/
def cmp (x y : Fixed) : Ordering := compare x.raw.toInt y.raw.toInt

/-! ## Reading -/

/-- The ten-thousandths that the first four decimal places stand for. -/
def fraction (decimals : List Char) : Nat :=
  let kept := decimals.take places
  Decimal.value kept * Nat.pow 10 (places - kept.length)

/-- An unsigned number: digits, and after a point more digits or none. -/
def magnitude? (cs : List Char) : Option Nat :=
  let whole := cs.takeWhile (· != '.')
  let decimals := (cs.dropWhile (· != '.')).drop 1
  if whole.isEmpty || !whole.all Char.isDigit || !decimals.all Char.isDigit then none
  else if maxWhole < Decimal.value whole then none
  else some (Decimal.value whole * scale.toNat + fraction decimals)

/-- A number as it is written, with a sign or without. -/
def ofChars? : List Char → Option Fixed
  | '-' :: cs => (magnitude? cs).map fun n => ⟨Int64.ofInt (-n)⟩
  | cs => (magnitude? cs).map fun n => ⟨Int64.ofInt n⟩

/-- A number as it is written. -/
def ofString? (s : String) : Option Fixed := ofChars? s.toList

/-! ## Writing -/

/-- The places behind the point, without the zeros at their end. -/
def decimals (n : Nat) : List Char :=
  ((Decimal.padded places n).reverse.dropWhile (· == '0')).reverse

/-- A number with its sign; the point is written only where places follow. -/
def chars (x : Fixed) : List Char :=
  let n := x.raw.toInt.natAbs
  let whole := Decimal.digits (n / scale.toNat)
  let part := n % scale.toNat
  (if x.raw.toInt < 0 then ['-'] else []) ++ whole ++
    if part = 0 then [] else '.' :: decimals part

/-- A number as a text. -/
def render (x : Fixed) : String := String.ofList x.chars

end Fixed

end ChannelBasic
