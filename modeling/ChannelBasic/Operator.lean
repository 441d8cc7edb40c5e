/-!
# Operator — the operators of expressions

Signs and words that join or precede operands.  `BinaryOp.tier` orders the binary ones by how
tightly they bind, 0 being the tightest.
-/

namespace ChannelBasic

/-- Operators before an operand. -/
inductive UnaryOp where
  | plus | minus | not
  deriving DecidableEq, Repr, Inhabited

/-- Operators between two operands. -/
inductive BinaryOp where
  | multiply | divide | mod | add | subtract | shl | shr | and | or | xor
  | less | lessEqual | greater | greaterEqual | equal | notEqual
  deriving DecidableEq, Repr, Inhabited

namespace UnaryOp

/-- How an operator is written before its operand, with the blank it needs. -/
def spelling : UnaryOp → String
  | .plus => "+"
  | .minus => "-"
  | .not => "NOT "

/-- The operator with a name, which has no blank. -/
def ofString? : String → Option UnaryOp
  | "+" => some .plus
  | "-" => some .minus
  | "NOT" => some .not
  | _ => none

end UnaryOp

namespace BinaryOp

/-- How an operator is written. -/
def spelling : BinaryOp → String
  | .multiply => "*"
  | .divide => "/"
  | .mod => "MOD"
  | .add => "+"
  | .subtract => "-"
  | .shl => "SHL"
  | .shr => "SHR"
  | .and => "AND"
  | .or => "OR"
  | .xor => "XOR"
  | .less => "<"
  | .lessEqual => "<="
  | .greater => ">"
  | .greaterEqual => ">="
  | .equal => "="
  | .notEqual => "<>"

/-- All there are. -/
def all : List BinaryOp :=
  [.multiply, .divide, .mod, .add, .subtract, .shl, .shr, .and, .or, .xor, .less, .lessEqual,
   .greater, .greaterEqual, .equal, .notEqual]

/-- The operator with a spelling. -/
def ofString? (s : String) : Option BinaryOp := all.find? fun op => op.spelling == s

/-- How tightly an operator binds: the smaller, the tighter. -/
def tier : BinaryOp → Nat
  | .multiply | .divide | .mod => 0
  | .add | .subtract => 1
  | .shl | .shr => 2
  | .and | .or | .xor => 3
  | .less | .lessEqual | .greater | .greaterEqual => 4
  | .equal | .notEqual => 5

/-- How many tiers there are. -/
def tiers : Nat := 6

theorem tier_lt_tiers (op : BinaryOp) : op.tier < tiers := by cases op <;> decide

end BinaryOp

end ChannelBasic
