/-!
# Text/Decimal — numbers as decimal digits

`digits` writes a natural number, `value` reads digits back, `ofInt` writes a number with its sign.
-/

namespace ChannelBasic.Decimal

/-- The decimal digits of a number, without leading zeros. -/
def digits (n : Nat) : List Char := Nat.toDigits 10 n

/-- The number a digit stands for. -/
def digitValue (c : Char) : Nat := c.toNat - '0'.toNat

/-- The number that digits of a base spell, most significant first. -/
def valueIn (base : Nat) (cs : List Char) : Nat :=
  cs.foldl (fun n c => base * n + digitValue c) 0

/-- The number that decimal digits spell. -/
def value (cs : List Char) : Nat := valueIn 10 cs

/-- A number written with at least `width` digits. -/
def padded (width n : Nat) : List Char :=
  List.replicate (width - (digits n).length) '0' ++ digits n

/-- A whole number with its sign. -/
def signed (n : Int) : List Char :=
  if n < 0 then '-' :: digits n.natAbs else digits n.natAbs

/-- A whole number with its sign, as a text. -/
def ofInt (n : Int) : String := String.ofList (signed n)

end ChannelBasic.Decimal
