import ChannelBasic.Code.Selector
import ChannelBasic.Machine.Value
import ChannelBasic.Text.Decimal
import ChannelBasic.Types.Scalar

/-!
# Types/Table — the types of a program

All types of a program stand in one table and are named by their place in it.  A compound type names
its parts the same way.  The plain types and STRING have fixed places; an equal type is entered only
once, except that a type which is still to be resolved has a place of its own, where the resolution
will be put.
-/

namespace ChannelBasic

/-- A place in the table of types. -/
abbrev TypeId := Nat

/-- An entry of the table. -/
inductive DataType where
  | scalar (type : Scalar)
  /-- A string with its capacity; without one it is abstract. -/
  | string (capacity : Option Nat)
  /-- A string whose capacity is the value of an expression not evaluated yet. -/
  | pending (length : Nat)
  | pointer (pointee : TypeId)
  /-- A structured type, by its number and its name. -/
  | struct (number : Nat) (name : String)
  /-- A type whose values must not change; never wraps another one. -/
  | constant (base : TypeId)
  /-- A type known by its name only. -/
  | named (name : String)
  deriving DecidableEq, Repr, Inhabited

/-- Whether an entry is still to be resolved. -/
def DataType.isUnresolved : DataType → Bool
  | .named _ | .pending _ => true
  | _ => false

/-- The types of a program, and the sizes of its structured types as far as they are known. -/
structure TypeTable where
  entries : Array DataType
  structSizes : List (Nat × Nat)
  deriving Repr, Inhabited

namespace TypeTable

/-- The place of a plain type. -/
def scalarId : Scalar → TypeId
  | .boolean => 0
  | .byte => 1
  | .short => 2
  | .integer => 3
  | .long => 4
  | .real => 5

/-- The place of STRING. -/
def stringId : TypeId := 6

/-- A table with the plain types and STRING. -/
def initial : TypeTable :=
  ⟨#[.scalar .boolean, .scalar .byte, .scalar .short, .scalar .integer, .scalar .long,
     .scalar .real, .string none], []⟩

/-- The entry at a place. -/
def get (t : TypeTable) (id : TypeId) : DataType := t.entries.getD id (.named "")

/-- Whether the type at a place is CONST. -/
def isConstant (t : TypeTable) (id : TypeId) : Bool :=
  match t.get id with
  | .constant _ => true
  | _ => false

/-- Puts a type at a place of its own. -/
def append (t : TypeTable) (type : DataType) : TypeId × TypeTable :=
  (t.entries.size, { t with entries := t.entries.push type })

/-- The place of a type, which may be a new one.  **CONST of a CONST type is that type.** -/
def add (t : TypeTable) (type : DataType) : TypeId × TypeTable :=
  match type with
  | .named _ | .pending _ => t.append type
  | .constant base =>
    if t.isConstant base then (base, t)
    else
      match t.entries.findIdx? (· == type) with
      | some id => (id, t)
      | none => t.append type
  | _ =>
    match t.entries.findIdx? (· == type) with
    | some id => (id, t)
    | none => t.append type

/-- Puts the resolution of a type where the type was. -/
def resolve (t : TypeTable) (id : TypeId) (type : DataType) : TypeTable :=
  { t with entries := t.entries.setIfInBounds id type }

/-- The places of types that are still to be resolved. -/
def unresolved (t : TypeTable) : List TypeId :=
  (List.range t.entries.size).filter fun id => (t.get id).isUnresolved

/-- The place of the CONST type over a type. -/
def constant (t : TypeTable) (id : TypeId) : TypeId × TypeTable := t.add (.constant id)

/-- The place of a string type with a capacity. -/
def stringOf (t : TypeTable) (capacity : Nat) : TypeId × TypeTable :=
  t.add (.string (some capacity))

/-- The place of the pointer type to a type. -/
def pointerTo (t : TypeTable) (id : TypeId) : TypeId × TypeTable := t.add (.pointer id)

/-! ## Questions about a type -/

/-- A type without CONST. -/
def base (t : TypeTable) (id : TypeId) : TypeId :=
  match t.get id with
  | .constant base => base
  | _ => id

/-- The entry of a type without CONST. -/
def baseEntry (t : TypeTable) (id : TypeId) : DataType := t.get (t.base id)

/-- The rank of a numeric type. -/
def rank? (t : TypeTable) (id : TypeId) : Option Nat :=
  match t.baseEntry id with
  | .scalar s => s.rank?
  | _ => none

/-- The numeric type of a rank. -/
def ofRank (rank : Nat) : TypeId := scalarId (.ofRank rank)

/-- Whether a type is a number's. -/
def isNumeric (t : TypeTable) (id : TypeId) : Bool := (t.rank? id).isSome

/-- Whether a type is a whole number's. -/
def isIntegral (t : TypeTable) (id : TypeId) : Bool :=
  match t.rank? id with
  | some rank => rank < 5
  | none => false

/-- Whether a type is BOOLEAN. -/
def isBoolean (t : TypeTable) (id : TypeId) : Bool := t.base id == scalarId .boolean

/-- Whether a type is a string's. -/
def isString (t : TypeTable) (id : TypeId) : Bool :=
  match t.baseEntry id with
  | .string _ => true
  | _ => false

/-- The capacity of a string type that has one. -/
def capacity? (t : TypeTable) (id : TypeId) : Option Nat :=
  match t.baseEntry id with
  | .string capacity => capacity
  | _ => none

/-- What a pointer type points to. -/
def pointee? (t : TypeTable) (id : TypeId) : Option TypeId :=
  match t.baseEntry id with
  | .pointer pointee => some pointee
  | _ => none

/-- The number of a structured type. -/
def struct? (t : TypeTable) (id : TypeId) : Option Nat :=
  match t.baseEntry id with
  | .struct number _ => some number
  | _ => none

/-- Whether values of a type have no known size: STRING, and what is still to be resolved. -/
def isAbstract (t : TypeTable) (id : TypeId) : Bool :=
  match t.baseEntry id with
  | .string none | .named _ | .pending _ => true
  | _ => false

/-- How instructions name a type. -/
def valueType (t : TypeTable) (id : TypeId) : Code.ValueType :=
  match t.baseEntry id with
  | .scalar .boolean => .boolean
  | .scalar .byte => .byte
  | .scalar .short => .short
  | .scalar .integer => .integer
  | .scalar .long => .long
  | .scalar .real => .real
  | .string _ => .string
  | .pointer _ => .pointer
  | .struct _ _ => .struct
  | _ => .unknown

/-- Records the size of a structured type. -/
def setStructSize (t : TypeTable) (number size : Nat) : TypeTable :=
  { t with structSizes := (number, size) :: t.structSizes }

/-- The bytes that a value of a type takes, once that is known. -/
def size? (t : TypeTable) (id : TypeId) : Option Nat :=
  match t.baseEntry id with
  | .scalar s => some s.size
  | .pointer _ => some 4
  | .string (some capacity) => some (stringSize capacity)
  | .struct number _ => t.structSizes.lookup number
  | _ => none

/-! ## Types compared -/

/-- Whether two types are built alike, in at most `bound` layers. -/
def sameWithin (t : TypeTable) : Nat → TypeId → TypeId → Bool
  | 0, a, b => a == b
  | bound + 1, a, b =>
    a == b ||
      match t.get a, t.get b with
      | .pointer x, .pointer y => t.sameWithin bound x y
      | .constant x, .constant y => t.sameWithin bound x y
      | x, y => x == y

/-- Whether values of two types have the same bytes; an outer CONST does not count. -/
def isAnalog (t : TypeTable) (a b : TypeId) : Bool :=
  t.sameWithin t.entries.size (t.base a) (t.base b)

/-- Whether a value of a type can stand, by its address, for one of another: analogs can, and every
string can for a STRING. -/
def inherits (t : TypeTable) (actual expected : TypeId) : Bool :=
  t.isAnalog actual expected ||
    match t.baseEntry actual, t.baseEntry expected with
    | .string (some _), .string none => true
    | _, _ => false

/-- How a type is written, in at most `bound` layers. -/
def nameWithin (t : TypeTable) : Nat → TypeId → String
  | 0, _ => ""
  | bound + 1, id =>
    match t.get id with
    | .scalar s => s.spelling
    | .string none => "STRING"
    | .string (some capacity) => "STRING OF " ++ Decimal.ofInt capacity
    | .pending _ => "STRING OF ?"
    | .pointer pointee => "POINTER TO " ++ t.nameWithin bound pointee
    | .struct _ name => name
    | .constant base => "CONST " ++ t.nameWithin bound base
    | .named name => name

/-- How a type is written. -/
def name (t : TypeTable) (id : TypeId) : String := t.nameWithin (t.entries.size + 1) id

end TypeTable

end ChannelBasic
