import ChannelBasic.Fixed
import ChannelBasic.Location
import ChannelBasic.Operator

/-!
# Raw/Expr — expressions as they are written

Names stand for themselves here; nothing is looked up and nothing has a type yet.  A whole number is
an INTEGER literal if it fits 32 bits and a LONG literal otherwise, so its value says which.
-/

namespace ChannelBasic.Raw

/-- An expression as written.  Operators are located where they stand, members by their name. -/
inductive Expr where
  | integer (location : Location) (value : Int64)
  | real (location : Location) (value : Fixed)
  | text (location : Location) (content : String)
  | boolean (location : Location) (value : Bool)
  | name (location : Location) (name : String)
  | member (location : Location) (target : Expr) (field : String)
  | call (location : Location) (function : String) (arguments : List Expr)
  | unary (location : Location) (op : UnaryOp) (operand : Expr)
  | binary (location : Location) (op : BinaryOp) (left right : Expr)
  deriving Repr, Inhabited

/-- Where an expression stands. -/
def Expr.location : Expr → Location
  | .integer l _ | .real l _ | .text l _ | .boolean l _ | .name l _ | .member l _ _ | .call l _ _
  | .unary l _ _ | .binary l _ _ _ => l

/-- Whether an expression is a call. -/
def Expr.isCall : Expr → Bool
  | .call .. => true
  | _ => false

end ChannelBasic.Raw
