/-!
# Types/Scalar — the plain types

BOOLEAN and the five numeric types.  Numeric types are ordered by `rank`: a number of a lower rank
can be written in every higher one.
-/

namespace ChannelBasic

/-- A type whose values are single machine words. -/
inductive Scalar where
  | boolean | byte | short | integer | long | real
  deriving DecidableEq, Repr, Inhabited

namespace Scalar

/-- How a plain type is written. -/
def spelling : Scalar → String
  | .boolean => "BOOLEAN"
  | .byte => "BYTE"
  | .short => "SHORT"
  | .integer => "INTEGER"
  | .long => "LONG"
  | .real => "REAL"

/-- The bytes a value takes. -/
def size : Scalar → Nat
  | .boolean | .byte => 1
  | .short => 2
  | .integer => 4
  | .long | .real => 8

/-- The place of a numeric type among the numeric types. -/
def rank? : Scalar → Option Nat
  | .boolean => none
  | .byte => some 1
  | .short => some 2
  | .integer => some 3
  | .long => some 4
  | .real => some 5

/-- The numeric type of a rank; whatever is no lower rank is REAL. -/
def ofRank : Nat → Scalar
  | 1 => .byte
  | 2 => .short
  | 3 => .integer
  | 4 => .long
  | _ => .real

end Scalar

end ChannelBasic
