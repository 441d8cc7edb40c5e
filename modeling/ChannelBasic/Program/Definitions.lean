import ChannelBasic.Program.Checking

/-!
# Program/Definitions — constants and lengths of strings

A constant is checked when it is first needed, and so is the length of a string type.  Constants and
lengths may need each other; a definition that is needed while it is being checked is **recursive**
and refused.  Since a constant is open while another is checked for it, at most as many checks are
nested as there are constants.
-/

namespace ChannelBasic.Checking

/-- Constants and lengths name constants only. -/
def noSignatures : Signatures := ⟨#[], #[], [], []⟩

/-- The longest capacity that can be declared. -/
def maxCapacity : Int := 32767

/-- A length that can be declared. -/
def capacityOf (place : Location) : Option Literal → Checked Nat
  | some (.integral n) =>
    if 0 < n.toInt ∧ n.toInt ≤ maxCapacity then .ok n.toInt.toNat
    else .error (Rule.invalidStringLength.here place)
  | some _ => .error (Rule.invalidStringLength.here place)
  | none => .error (Rule.expectedConstantExpression.here place)

/-- Evaluates the length of a string type, if that is still to be done. -/
def resolveLength (lengths : Array Expr) (constantType : ConstantType) (id : TypeId) :
    Checking Unit := do
  match (← get).types.get id with
  | .pending index =>
    match lengths[index]? with
    | none => return
    | some length =>
      let place := length.location
      if (← get).openLengths.contains index then throw (Rule.recursiveDefinition.here place)
      modify fun s => { s with openLengths := index :: s.openLengths }
      let (length, _) ← value noSignatures constantType length
      let capacity ← capacityOf place (← fold length)
      modify fun s => { s with
        types := s.types.resolve id (.string (some capacity))
        openLengths := s.openLengths.erase index }
  | _ => return

/-- Evaluates the lengths that a type of at most `bound` layers depends on. -/
def resolveWithin (lengths : Array Expr) (constantType : ConstantType) :
    Nat → TypeId → Checking Unit
  | 0, _ => return
  | bound + 1, id => do
    match (← get).types.get id with
    | .pending _ => resolveLength lengths constantType id
    | .pointer inner => resolveWithin lengths constantType bound inner
    | .constant inner => resolveWithin lengths constantType bound inner
    | _ => return

/-- Evaluates the lengths that a type depends on. -/
def resolveType (lengths : Array Expr) (constantType : ConstantType) (id : TypeId) :
    Checking Unit := do
  resolveWithin lengths constantType ((← get).types.entries.size + 1) id

/-- The value of a constant as its declared type wants it, and the constant's type. -/
def declaredValue (lengths : Array Expr) (constantType : ConstantType) (declared : Option TypeId)
    (e : Expr) (actual : TypeId) : Checking (Expr × TypeId) := do
  match declared with
  | none => return (e, (← get).types.base actual)
  | some declared =>
    resolveType lengths constantType declared
    let types := (← get).types
    let target := types.base declared
    if types.isAbstract target then return (e, types.base actual)
    return (← coerce e target .incompatibleTypes, target)

/-- The type of a constant, checked with at most `bound` checks nested. -/
def constantWithin (lengths : Array Expr) : Nat → ConstantType
  | 0, _ => throw (Rule.recursiveDefinition.nowhere "")
  | bound + 1, index => do
    let s ← get
    match s.constants[index]? with
    | none => throw (Rule.internalError.nowhere "")
    | some c =>
      if c.folded.isSome then
        match c.type with
        | some type => return type
        | none => throw (Rule.internalError.here c.location)
      if s.openConstants.contains index then
        throw (Rule.recursiveDefinition.about c.location c.name)
      set { s with openConstants := index :: s.openConstants }
      let (e, actual) ← value noSignatures (constantWithin lengths bound) c.value
      let (e, type) ← declaredValue lengths (constantWithin lengths bound) c.type e actual
      match ← fold e with
      | none => throw (Rule.expectedConstantExpression.here e.location)
      | some folded =>
        modify fun s => { s with
          constants := s.constants.setIfInBounds index
            { c with type := some type, value := e, folded := some folded }
          openConstants := s.openConstants.erase index }
        return type

end ChannelBasic.Checking
