import ChannelBasic.Diagnostic
import ChannelBasic.Program.Basic

/-!
# Program/Coercion — values that are wanted in another type

`coerce` makes an expression acceptable where a type is expected.  A value of an analogous type
stays as it is; where a pointer is expected, a pointer to it is taken; a constant is converted at
once if nothing is lost; otherwise the conversion is left to the machine, if there is one that keeps
the number, or one that makes a text.
-/

namespace ChannelBasic

/-- What checking knows and changes: types, constants, and the variables of the current function. -/
structure CheckState where
  types : TypeTable
  constants : Array Constant
  /-- Constants whose value is being checked. -/
  openConstants : List Nat
  /-- Lengths that are being evaluated. -/
  openLengths : List Nat
  locals : Array Local

/-- Checking. -/
abbrev Checking := StateT CheckState Checked

/-- What a constant comes to, if it is checked. -/
def CheckState.constantValue (s : CheckState) (index : Nat) : Option Literal :=
  (s.constants[index]?).bind (·.folded)

namespace TypeTable

/-- Characters that the text of a value of a plain type can take. -/
def textCapacity? (t : TypeTable) (id : TypeId) : Option Nat :=
  if t.isBoolean id then some 5
  else
    match t.rank? id with
    | some 1 => some 4
    | some 2 => some 6
    | some 3 => some 11
    | some 4 => some 20
    | some _ => some 21
    | none => none

/-- Whether a numeric type can hold all numbers of another. -/
def widens (t : TypeTable) (source target : TypeId) : Bool :=
  match t.rank? source, t.rank? target with
  | some a, some b => a ≤ b
  | _, _ => false

/-- Whether values of a type have a text. -/
def hasText (t : TypeTable) (id : TypeId) : Bool :=
  t.isString id || t.isNumeric id || t.isBoolean id

/-- Whether the machine converts one type to the other without being asked. -/
def converts (t : TypeTable) (source target : TypeId) : Bool :=
  if t.isNumeric source && t.isNumeric target then t.widens source target
  else (t.capacity? target).isSome && t.hasText source

/-- A constant in another type, if the machine would convert it or nothing is lost. -/
def castLiteral (t : TypeTable) (value : Literal) (source target : TypeId) : Option Literal := do
  let size ← t.size? target
  let type := t.valueType target
  if t.isNumeric target && t.isNumeric source then
    if t.widens source target || value.fits type size then value.cast type size else none
  else if (t.capacity? target).isSome && t.hasText source then value.cast type size
  else none

/-- Whether a pointer to `pointee` can be made of a value: the value, or what it points to, has to
be of such a type, and must not be constant unless the pointee is. -/
def acceptsPointer (t : TypeTable) (pointee actual : TypeId) (isFixed : Bool) : Bool :=
  match t.pointee? actual with
  | some source => t.inherits source pointee && (t.isConstant pointee || !t.isConstant source)
  | none =>
    t.inherits actual pointee && (t.isConstant pointee || !(t.isConstant actual || isFixed))

end TypeTable

namespace Checking

/-- Enters a type. -/
def addType (add : TypeTable → TypeId × TypeTable) : Checking TypeId := modifyGet fun s =>
  let (id, types) := add s.types
  (id, { s with types })

/-- The value of a checked expression that has one. -/
def fold (e : Expr) : Checking (Option Literal) := do
  let s ← get
  return e.fold s.types s.constantValue

/-- A value that does not go where it is wanted. -/
def mismatch (types : TypeTable) (rule : Rule) (place : Location) (actual expected : TypeId) :
    Diagnostic :=
  rule.about place (types.name actual ++ " TO " ++ types.name expected)

/-- An expression as it is acceptable where a type is expected. -/
def coerce (e : Expr) (expected : TypeId) (rule : Rule) : Checking Expr := do
  match e.type? with
  | none => throw (Rule.internalError.about e.location "UNTYPED EXPRESSION")
  | some actual =>
    let types := (← get).types
    if types.isAnalog actual expected then return e
    let value ← fold e
    match types.pointee? expected with
    | some pointee =>
      if !types.acceptsPointer pointee actual value.isSome then
        throw (mismatch types rule e.location actual expected)
      if (types.pointee? actual).isSome then return e
      return .pointer ⟨e.location, some expected⟩ e none
    | none =>
      let target := types.base expected
      match value.bind fun v => types.castLiteral v actual target with
      | some folded => return .literal ⟨e.location, some target⟩ folded
      | none =>
        if types.converts actual target then return .cast ⟨e.location, some target⟩ e
        throw (mismatch types rule e.location actual expected)

end Checking

end ChannelBasic
