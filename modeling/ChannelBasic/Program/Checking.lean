import ChannelBasic.Program.Coercion

/-!
# Program/Checking — types of expressions and statements

`expr` finds the type of an expression and of everything in it, converts operands where operators
and functions want other types, and turns operands with a known value into literals.  The type of a
constant is asked of `constantType`, so that a constant can be checked when it is first needed.
`stmts` does the same for the statements of a function; a variable without a type takes the type of
the first value it is given.
-/

namespace ChannelBasic

/-- What the names of a function can refer to, besides constants and variables. -/
structure Signatures where
  structs : Array Struct
  functions : Array Function
  arguments : List Slot
  fields : List Slot

/-- Finds the type of a constant, checking it if need be. -/
abbrev ConstantType := Nat → Checking TypeId

namespace Checking

/-- The type of an expression that has to have one. -/
def valueType (e : Expr) : Checking TypeId :=
  match e.type? with
  | some type => return type
  | none => throw (Rule.functionDoesNotReturnValue.about e.location e.title)

/-- The type of what a name refers to, if it is known. -/
def declaredType (sigs : Signatures) (constantType : ConstantType) :
    Declaration → Checking (Option TypeId)
  | .constant index => do
    let type ← constantType index
    return some (← addType (·.constant type))
  | .localVar index => return ((← get).locals[index]?).bind (·.type)
  | .argument index => return (sigs.arguments[index]?).map (·.type)
  | .dataField index => return (sigs.fields[index]?).map (·.type)

/-! ## Members -/

/-- The field that a member of a checked target means, and its type. -/
def member (sigs : Signatures) (place : Location) (target : Expr) (field : String) :
    Checking (FieldRef × TypeId) := do
  let type ← valueType target
  let types := (← get).types
  match types.struct? type with
  | none => throw (Rule.notAStructure.about place (types.name type))
  | some number =>
    unless target.isAddressable do throw (Rule.operatorNotApplicable.about place ("." ++ field))
    let fields := ((sigs.structs[number]?).map (·.fields)).getD []
    match fields.zipIdx.find? fun x => x.1.name == field with
    | none => throw (Rule.unknownField.about place field)
    | some (slot, index) =>
      if types.isConstant type then
        return (⟨number, index⟩, ← addType (·.constant slot.type))
      return (⟨number, index⟩, slot.type)

/-! ## Operators -/

/-- The type of an operator applied to a checked operand. -/
def unary (place : Location) (op : UnaryOp) (operand : Expr) : Checking TypeId := do
  let type ← valueType operand
  let types := (← get).types
  let applicable := match op with
    | .plus | .minus => types.isNumeric type
    | .not => types.isBoolean type || types.isIntegral type
  unless applicable do
    throw (Rule.operatorNotApplicable.about place (op.spelling ++ types.name type))
  return types.base type

/-- An operand of a string sum as a string, with its type. -/
def stringify (place : Location) (e : Expr) (type : TypeId) : Checking (Expr × TypeId) := do
  let types := (← get).types
  if types.isString type then return (e, type)
  match types.textCapacity? type with
  | none => throw (Rule.operatorNotApplicable.about place (types.name type ++ " + STRING"))
  | some capacity =>
    let target ← addType (·.stringOf capacity)
    return (← coerce e target .incompatibleTypes, target)

/-- Two operands in one type. -/
def promote (left right : Expr) (common : TypeId) : Checking (Expr × Expr) := do
  let left ← coerce left common .incompatibleTypes
  return (left, ← coerce right common .incompatibleTypes)

/-- An operator between types it does not go with. -/
def notApplicable (types : TypeTable) (place : Location) (op : BinaryOp) (lt rt : TypeId) :
    Diagnostic :=
  Rule.operatorNotApplicable.about place
    (types.name lt ++ " " ++ op.spelling ++ " " ++ types.name rt)

/-- The wider of two numeric types. -/
def commonType? (types : TypeTable) (lt rt : TypeId) : Option TypeId :=
  match types.rank? lt, types.rank? rt with
  | some a, some b => some (TypeTable.ofRank (max a b))
  | _, _ => none

/-- The result of a multiplication is wider than BYTE and SHORT operands. -/
def resultType (op : BinaryOp) (common : TypeId) : TypeId :=
  if op = .multiply ∧ common = TypeTable.scalarId .byte then TypeTable.scalarId .short
  else if op = .multiply ∧ common = TypeTable.scalarId .short then TypeTable.scalarId .integer
  else common

/-- The sum of two strings, one of which may be another value with a text. -/
def stringSum (place : Location) (left right : Expr) (lt rt : TypeId) :
    Checking (Expr × Expr × TypeId) := do
  let (left, l) ← stringify place left lt
  let (right, r) ← stringify place right rt
  let types := (← get).types
  match types.capacity? l, types.capacity? r with
  | some n, some m => return (left, right, ← addType (·.stringOf (n + m)))
  | _, _ => throw (notApplicable types place .add lt rt)

/-- Arithmetic on numbers; `MOD` wants whole ones. -/
def arithmetic (place : Location) (op : BinaryOp) (left right : Expr) (lt rt : TypeId) :
    Checking (Expr × Expr × TypeId) := do
  let types := (← get).types
  match commonType? types lt rt with
  | some common =>
    if op = .mod ∧ !(types.isIntegral lt && types.isIntegral rt) then
      throw (notApplicable types place op lt rt)
    let (left, right) ← promote left right common
    return (left, right, resultType op common)
  | none => throw (notApplicable types place op lt rt)

/-- Logic on BOOLEANs, or bit by bit on whole numbers. -/
def logic (place : Location) (op : BinaryOp) (left right : Expr) (lt rt : TypeId) :
    Checking (Expr × Expr × TypeId) := do
  let types := (← get).types
  if types.isBoolean lt && types.isBoolean rt then
    return (left, right, TypeTable.scalarId .boolean)
  if types.isIntegral lt && types.isIntegral rt then
    let common := (commonType? types lt rt).getD (TypeTable.scalarId .long)
    let (left, right) ← promote left right common
    return (left, right, common)
  throw (notApplicable types place op lt rt)

/-- Comparisons of numbers, of strings, and, for equality only, of BOOLEANs. -/
def comparison (place : Location) (op : BinaryOp) (left right : Expr) (lt rt : TypeId) :
    Checking (Expr × Expr × TypeId) := do
  let types := (← get).types
  if types.isNumeric lt && types.isNumeric rt then
    let common := (commonType? types lt rt).getD (TypeTable.scalarId .real)
    let (left, right) ← promote left right common
    return (left, right, TypeTable.scalarId .boolean)
  let strings := types.isString lt && types.isString rt
  let booleans := types.isBoolean lt && types.isBoolean rt && (op == .equal || op == .notEqual)
  unless strings || booleans do throw (notApplicable types place op lt rt)
  return (left, right, TypeTable.scalarId .boolean)

/-- An operator between two checked operands: the operands as it wants them, and its type. -/
def binary (place : Location) (op : BinaryOp) (left right : Expr) :
    Checking (Expr × Expr × TypeId) := do
  let lt ← valueType left
  let rt ← valueType right
  let types := (← get).types
  match op with
  | .add =>
    if types.isString lt || types.isString rt then stringSum place left right lt rt
    else arithmetic place op left right lt rt
  | .subtract | .multiply | .divide | .mod => arithmetic place op left right lt rt
  | .shl | .shr =>
    if types.isIntegral lt && types.isIntegral rt then return (left, right, types.base lt)
    throw (notApplicable types place op lt rt)
  | .and | .or | .xor => logic place op left right lt rt
  | .less | .lessEqual | .greater | .greaterEqual | .equal | .notEqual =>
    comparison place op left right lt rt

/-! ## Expressions -/

/-- An expression with its operands simplified. -/
def simplify (e : Expr) : Checking Expr := do
  let s ← get
  return e.simplify s.types s.constantValue

mutual

/-- Checks an expression. -/
def expr (sigs : Signatures) (constantType : ConstantType) : Expr → Checking Expr
  | .literal i value => return .literal i value
  | .name i name decl => do
    let type ← match decl with
      | some decl => declaredType sigs constantType decl
      | none => pure none
    match type with
    | some type => return .name { i with type := some type } name decl
    | none => throw (Rule.cannotResolveSymbol.about i.location name)
  | .member i target field _ => do
    let target ← expr sigs constantType target
    let (decl, type) ← member sigs i.location target field
    simplify (.member { i with type := some type } target field (some decl))
  | .call i function arguments callee => do
    match callee.bind fun index => sigs.functions[index]? with
    | none => throw (Rule.cannotResolveSymbol.about i.location function)
    | some f =>
      if f.parameters.length != arguments.length then
        throw (Rule.invalidNumberOfArguments.about i.location function)
      let arguments ← exprs sigs constantType f.parameters arguments
      simplify (.call { i with type := f.returns } function arguments callee)
  | .unary i op operand => do
    let operand ← expr sigs constantType operand
    let type ← unary i.location op operand
    simplify (.unary { i with type := some type } op operand)
  | .binary i op left right => do
    let left ← expr sigs constantType left
    let _ ← valueType left
    let right ← expr sigs constantType right
    let (left, right, type) ← binary i.location op left right
    simplify (.binary { i with type := some type } op left right)
  | .cast i operand => simplify (.cast i operand)
  | .pointer i target temp => simplify (.pointer i target temp)

/-- Checks the arguments of a call against the types that the function expects. -/
def exprs (sigs : Signatures) (constantType : ConstantType) :
    List TypeId → List Expr → Checking (List Expr)
  | parameter :: parameters, e :: rest => do
    let e ← expr sigs constantType e
    let _ ← valueType e
    let e ← coerce e parameter .incompatibleArgumentType
    return e :: (← exprs sigs constantType parameters rest)
  | _, _ => return []

end

/-- Checks an expression that has to have a value, and finds its type. -/
def value (sigs : Signatures) (constantType : ConstantType) (e : Expr) :
    Checking (Expr × TypeId) := do
  let e ← expr sigs constantType e
  return (e, ← valueType e)

/-! ## Statements -/

/-- A variable without a type takes the type of the first value assigned to it. -/
def infer (target : Expr) (actual : TypeId) : Checking Unit := do
  match target with
  | .name _ _ (some (.localVar index)) =>
    modify fun s => { s with
      locals := s.locals.modify index fun v =>
        if v.type.isNone then { v with type := some (s.types.base actual) } else v }
  | _ => return

/-- Gives a variable its type. -/
def setLocalType (index : Nat) (type : TypeId) : Checking Unit :=
  modify fun s => { s with
    locals := s.locals.modify index fun v => { v with type := some type } }

/-- Checks an expression that is to be assigned to. -/
def target (sigs : Signatures) (constantType : ConstantType) (e : Expr) :
    Checking (Expr × TypeId) := do
  let (e, type) ← value sigs constantType e
  unless e.isAddressable do throw (Rule.expressionIsNotAssignable.here e.location)
  if (← get).types.isConstant type then
    throw (Rule.canNotAssignToConstant.about e.location e.title)
  return (e, type)

/-- Checks a value that is to be assigned to a place of a type. -/
def assigned (sigs : Signatures) (constantType : ConstantType) (expected : TypeId) (e : Expr) :
    Checking Expr := do
  let (e, _) ← value sigs constantType e
  coerce e expected .incompatibleTypes

/-- Checks an expression that has to be BOOLEAN. -/
def condition (sigs : Signatures) (constantType : ConstantType) (e : Expr) : Checking Expr := do
  let (e, type) ← value sigs constantType e
  let types := (← get).types
  unless types.isBoolean type do
    throw (Rule.conditionMustBeBoolean.about e.location (types.name type))
  return e

/-- Checks the declaration of a variable. -/
def var (sigs : Signatures) (constantType : ConstantType) (place : Location) (index : Nat)
    (first : Option Expr) : Checking (Option Expr) := do
  let s ← get
  match s.locals[index]? with
  | none => throw (Rule.internalError.about place "NOT A VARIABLE")
  | some v =>
    match v.type, first with
    | some declared, first => do
      if s.types.isAbstract declared then
        throw (Rule.variableCanNotBeAbstract.about place v.name)
      match first with
      | some e => return some (← assigned sigs constantType declared e)
      | none => return none
    | none, some e => do
      let (e, actual) ← value sigs constantType e
      setLocalType index ((← get).types.base actual)
      return some e
    | none, none => throw (Rule.expectedDataType.about place v.name)

mutual

/-- Checks a statement of a function that returns a type, or nothing. -/
def stmt (sigs : Signatures) (constantType : ConstantType) (returns : Option TypeId) :
    Stmt → Checking Stmt
  | .var l index first => return .var l index (← var sigs constantType l index first)
  | .assign l first place => do
    let (first, actual) ← value sigs constantType first
    infer place actual
    let (place, expected) ← target sigs constantType place
    return .assign l (← coerce first expected .incompatibleTypes) place
  | .invoke l call => return .invoke l (← expr sigs constantType call)
  | .return l result =>
    match returns, result with
    | some expected, some e => return .return l (some (← assigned sigs constantType expected e))
    | some _, none => throw (Rule.returnValueExpected.here l)
    | none, some _ => throw (Rule.unexpectedReturnValue.here l)
    | none, none => return .return l none
  | .choose l branches => return .choose l (← choices sigs constantType returns branches)
  | .count l counter start finish step body temps => do
    let (start, actual) ← value sigs constantType start
    infer counter actual
    let (counter, type) ← target sigs constantType counter
    let types := (← get).types
    unless types.isNumeric type do
      throw (Rule.counterMustBeNumeric.about counter.location (types.name type))
    let start ← coerce start type .incompatibleTypes
    let finish ← assigned sigs constantType type finish
    let step ← match step with
      | some e => pure (some (← assigned sigs constantType type e))
      | none => pure none
    return .count l counter start finish step (← stmts sigs constantType returns body) temps
  | .loop l test body => do
    let test ← match test with
      | some c => pure (some { c with value := ← condition sigs constantType c.value })
      | none => pure none
    return .loop l test (← stmts sigs constantType returns body)

/-- Checks some statements. -/
def stmts (sigs : Signatures) (constantType : ConstantType) (returns : Option TypeId) :
    List Stmt → Checking (List Stmt)
  | [] => return []
  | s :: rest => do
    let s ← stmt sigs constantType returns s
    return s :: (← stmts sigs constantType returns rest)

/-- Checks the branches of an `IF`. -/
def choices (sigs : Signatures) (constantType : ConstantType) (returns : Option TypeId) :
    Branches → Checking Branches
  | .done => return .done
  | .otherwise body => return .otherwise (← stmts sigs constantType returns body)
  | .branch test body rest => do
    let test ← condition sigs constantType test
    let body ← stmts sigs constantType returns body
    return .branch test body (← choices sigs constantType returns rest)

end

end Checking

end ChannelBasic
