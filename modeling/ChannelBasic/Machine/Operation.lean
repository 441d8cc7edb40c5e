import ChannelBasic.Code.Opcode
import ChannelBasic.Machine.Value

/-!
# Machine/Operation — what the instructions compute

The operations of the machine on values.  The compiler computes constants with the same operations,
so a constant is what the machine would have computed.  Whole numbers are exact in 64 bits; whoever
stores the result cuts it to its width.
-/

namespace ChannelBasic.Value

open Code

/-- Operations on whole numbers.  A shift by fewer than 0 or more than 63 places shifts everything
out. -/
def integralBinary (op : Opcode) (l r : Int64) : Except Fault Int64 :=
  match op with
  | .ADD => .ok (l + r)
  | .SUB => .ok (l - r)
  | .MUL => .ok (l * r)
  | .DIV => if r = 0 then .error .divisionByZero else .ok (l / r)
  | .MOD => if r = 0 then .error .divisionByZero else .ok (l % r)
  | .AND => .ok (l &&& r)
  | .OR => .ok (l ||| r)
  | .XOR => .ok (l ^^^ r)
  | .SHL => .ok (if 0 ≤ r ∧ r < 64 then l <<< r else 0)
  | .SHR => .ok (if 0 ≤ r ∧ r < 64 then l >>> r else l >>> 63)
  | _ => .error .badInstruction

/-- Operations on REALs. -/
def realBinary (op : Opcode) (l r : Fixed) : Except Fault Fixed :=
  match op with
  | .ADD => .ok (l.add r)
  | .SUB => .ok (l.sub r)
  | .MUL => .ok (l.mul r)
  | .DIV =>
    match l.div? r with
    | some q => .ok q
    | none => .error .divisionByZero
  | _ => .error .badInstruction

/-- Operations on BOOLEANs. -/
def booleanBinary (op : Opcode) (l r : Bool) : Except Fault Bool :=
  match op with
  | .AND => .ok (l && r)
  | .OR => .ok (l || r)
  | .XOR => .ok (l != r)
  | _ => .error .badInstruction

/-- Operations on strings: they can be joined. -/
def stringBinary (op : Opcode) (l r : List UInt16) : Except Fault (List UInt16) :=
  match op with
  | .ADD => .ok (l ++ r)
  | _ => .error .badInstruction

/-- An operation on two values of one kind. -/
def binary (op : Opcode) : Value → Value → Except Fault Value
  | .integral l, .integral r => (integralBinary op l r).map .integral
  | .real l, .real r => (realBinary op l r).map .real
  | .boolean l, .boolean r => (booleanBinary op l r).map .boolean
  | .string l, .string r => (stringBinary op l r).map .string
  | _, _ => .error .badInstruction

/-- Strings are compared unit by unit; a string comes after what it starts with. -/
def compareUnits : List UInt16 → List UInt16 → Ordering
  | [], [] => .eq
  | [], _ :: _ => .lt
  | _ :: _, [] => .gt
  | u :: us, v :: vs => if u < v then .lt else if v < u then .gt else compareUnits us vs

/-- Whether two values of one kind compare this way; BOOLEANs are equal or different only. -/
def compare (c : Comparison) : Value → Value → Except Fault Bool
  | .integral l, .integral r => .ok (c.accepts (Ord.compare l.toInt r.toInt))
  | .real l, .real r => .ok (c.accepts (l.cmp r))
  | .string l, .string r => .ok (c.accepts (compareUnits l r))
  | .boolean l, .boolean r =>
    match c with
    | .equal => .ok (l == r)
    | .different => .ok (l != r)
    | _ => .error .badInstruction
  | _, _ => .error .badInstruction

/-- The negative of a number. -/
def negate : Value → Except Fault Value
  | .integral n => .ok (.integral (-n))
  | .real x => .ok (.real x.neg)
  | _ => .error .badInstruction

/-- The opposite of a BOOLEAN, or a whole number with every bit turned. -/
def complement : Value → Except Fault Value
  | .boolean b => .ok (.boolean !b)
  | .integral n => .ok (.integral (~~~n))
  | _ => .error .badInstruction

/-- The sign of a number. -/
def sign : Value → Except Fault Int
  | .integral n => .ok n.toInt.sign
  | .real x => .ok x.sign
  | _ => .error .badInstruction

/-- The same value in another type.  Everything has a text; whole numbers are cut to a width by
whoever stores them. -/
def cast (v : Value) (type : ValueType) : Except Fault Value :=
  match type, v with
  | .string, v => .ok (.ofText v.text)
  | .byte, .integral n | .short, .integral n | .integer, .integral n | .long, .integral n =>
    .ok (.integral n)
  | .real, .integral n => .ok (.real (.ofInt n))
  | .real, .real x => .ok (.real x)
  | .byte, .real x | .short, .real x | .integer, .real x | .long, .real x =>
    .ok (.integral x.toInt)
  | .boolean, .boolean b => .ok (.boolean b)
  | _, _ => .error .badInstruction

end ChannelBasic.Value
