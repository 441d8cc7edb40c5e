import ChannelBasic.Machine.Operation
import ChannelBasic.Operator
import ChannelBasic.Text.Lines

/-!
# Program/Literal — values known when a program is compiled

A literal is a value of the machine, except that a string is kept as a text.  Operations on literals
are the machine's operations followed by what storing the result would do: a whole number is cut to
its width, a string to its capacity.
-/

namespace ChannelBasic

/-- The machine's operation behind an operator that is no comparison. -/
def BinaryOp.opcode? : BinaryOp → Option Code.Opcode
  | .multiply => some .MUL
  | .divide => some .DIV
  | .mod => some .MOD
  | .add => some .ADD
  | .subtract => some .SUB
  | .shl => some .SHL
  | .shr => some .SHR
  | .and => some .AND
  | .or => some .OR
  | .xor => some .XOR
  | _ => none

/-- The machine's comparison behind an operator that is one. -/
def BinaryOp.comparison? : BinaryOp → Option Code.Comparison
  | .less => some .less
  | .lessEqual => some .lessEqual
  | .greater => some .greater
  | .greaterEqual => some .greaterEqual
  | .equal => some .equal
  | .notEqual => some .different
  | _ => none

/-- A value known when the program is compiled. -/
inductive Literal where
  | boolean (b : Bool)
  | integral (n : Int64)
  | real (x : Fixed)
  | text (content : String)
  deriving DecidableEq, Repr, Inhabited

namespace Literal

/-- The machine's value. -/
def toValue : Literal → Value
  | .boolean b => .boolean b
  | .integral n => .integral n
  | .real x => .real x
  | .text s => .ofText s

/-- A machine's value as it is after a stay in `size` bytes of a type. -/
def ofValue? (type : Code.ValueType) (size : Nat) : Value → Option Literal
  | .boolean b => some (.boolean b)
  | .integral n => if type.isIntegral then some (.integral (Word.wrap n size)) else none
  | .real x => some (.real x)
  | .string units => some (.text (Utf16.decode (units.take (stringCapacity size))))

/-- An operator applied to a literal; the result has a type of `size` bytes. -/
def unary (op : UnaryOp) (operand : Literal) (type : Code.ValueType) (size : Nat) :
    Option Literal :=
  match op with
  | .plus => some operand
  | .minus => operand.toValue.negate.toOption.bind (ofValue? type size)
  | .not => operand.toValue.complement.toOption.bind (ofValue? type size)

/-- An operator applied to two literals.  **A division by zero has no value here**: the machine is
to report it. -/
def binary (op : BinaryOp) (left right : Literal) (type : Code.ValueType) (size : Nat) :
    Option Literal :=
  match op.comparison? with
  | some c => (Value.compare c left.toValue right.toValue).toOption.map .boolean
  | none =>
    match op.opcode? with
    | some code =>
      (Value.binary code left.toValue right.toValue).toOption.bind (ofValue? type size)
    | none => none

/-- A literal in another type. -/
def cast (l : Literal) (type : Code.ValueType) (size : Nat) : Option Literal :=
  (l.toValue.cast type).toOption.bind (ofValue? type size)

/-- Whether a number loses nothing in a numeric type of `size` bytes. -/
def fits (l : Literal) (type : Code.ValueType) (size : Nat) : Bool :=
  match l with
  | .integral n =>
    if type.isIntegral then Word.wrap n size == n else type == .real
  | .real x => type.isIntegral && x.isIntegral && Word.wrap x.toInt size == x.toInt
  | _ => false

/-- How a literal is written in a program. -/
def chars : Literal → List Char
  | .boolean true => "TRUE".toList
  | .boolean false => "FALSE".toList
  | .integral n => Decimal.signed n.toInt
  | .real x => if x.chars.contains '.' then x.chars else x.chars ++ ['.', '0']
  | .text s => Text.quoted s

end Literal

end ChannelBasic
