import ChannelBasic.Program.Checked

/-!
# Proofs/Typing/Calculators — checking with another way to calculate

Checking asks at many places what an expression comes to.  Here it is written once more with the
answer left open: wherever `fold` is asked, some `calculate` is asked instead, which may do
anything.  What does not depend on values is taken as it is.  If a `calculate` that goes astray at
some expressions leaves checking what it is, it has never been asked about one of them.
-/

namespace ChannelBasic

/-- Some way to find out what an expression comes to. -/
abbrev Calculator := Expr → Checking (Option Literal)

namespace Checking

variable (calculate : Calculator)

/-! ## Operands -/

/-- `coerce`, with another way to calculate. -/
def coerceBy (e : Expr) (expected : TypeId) (rule : Rule) : Checking Expr := do
  match e.type? with
  | none => throw (Rule.internalError.about e.location "UNTYPED EXPRESSION")
  | some actual =>
    let types := (← get).types
    if types.isAnalog actual expected then return e
    let value ← calculate e
    match types.pointee? expected with
    | some pointee =>
      if !types.acceptsPointer pointee actual value.isSome then
        throw (mismatch types rule e.location actual expected)
      if (types.pointee? actual).isSome then return e
      return .pointer ⟨e.location, some expected⟩ e none
    | none =>
      let target := types.base expected
      match value.bind fun v => types.castLiteral v actual target with
      | some folded => return .literal ⟨e.location, some target⟩ folded
      | none =>
        if types.converts actual target then return .cast ⟨e.location, some target⟩ e
        throw (mismatch types rule e.location actual expected)

/-- `Expr.simplified`, with another way to calculate. -/
def simplifiedBy (e : Expr) : Checking Expr := do
  if e.isLiteral then return e
  match ← calculate e with
  | some value =>
    let types := (← get).types
    return .literal ⟨e.location, e.type?.map types.base⟩ value
  | none => return e

/-- `simplify`, with another way to calculate. -/
def simplifyBy : Expr → Checking Expr
  | .member i target field decl => return .member i (← simplifiedBy calculate target) field decl
  | .call i function arguments callee =>
    return .call i function (← arguments.mapM (simplifiedBy calculate)) callee
  | .unary i op operand => return .unary i op (← simplifiedBy calculate operand)
  | .binary i op left right => do
    let left ← simplifiedBy calculate left
    return .binary i op left (← simplifiedBy calculate right)
  | .cast i operand => return .cast i (← simplifiedBy calculate operand)
  | .pointer i target temp => return .pointer i (← simplifiedBy calculate target) temp
  | e => return e

/-- `stringify`, with another way to calculate. -/
def stringifyBy (place : Location) (e : Expr) (type : TypeId) : Checking (Expr × TypeId) := do
  let types := (← get).types
  if types.isString type then return (e, type)
  match types.textCapacity? type with
  | none => throw (Rule.operatorNotApplicable.about place (types.name type ++ " + STRING"))
  | some capacity =>
    let target ← addType (·.stringOf capacity)
    return (← coerceBy calculate e target .incompatibleTypes, target)

/-- `promote`, with another way to calculate. -/
def promoteBy (left right : Expr) (common : TypeId) : Checking (Expr × Expr) := do
  let left ← coerceBy calculate left common .incompatibleTypes
  return (left, ← coerceBy calculate right common .incompatibleTypes)

/-- `stringSum`, with another way to calculate. -/
def stringSumBy (place : Location) (left right : Expr) (lt rt : TypeId) :
    Checking (Expr × Expr × TypeId) := do
  let (left, l) ← stringifyBy calculate place left lt
  let (right, r) ← stringifyBy calculate place right rt
  let types := (← get).types
  match types.capacity? l, types.capacity? r with
  | some n, some m => return (left, right, ← addType (·.stringOf (n + m)))
  | _, _ => throw (notApplicable types place .add lt rt)

/-- `arithmetic`, with another way to calculate. -/
def arithmeticBy (place : Location) (op : BinaryOp) (left right : Expr) (lt rt : TypeId) :
    Checking (Expr × Expr × TypeId) := do
  let types := (← get).types
  match commonType? types lt rt with
  | some common =>
    if op = .mod ∧ !(types.isIntegral lt && types.isIntegral rt) then
      throw (notApplicable types place op lt rt)
    let (left, right) ← promoteBy calculate left right common
    return (left, right, resultType op common)
  | none => throw (notApplicable types place op lt rt)

/-- `logic`, with another way to calculate. -/
def logicBy (place : Location) (op : BinaryOp) (left right : Expr) (lt rt : TypeId) :
    Checking (Expr × Expr × TypeId) := do
  let types := (← get).types
  if types.isBoolean lt && types.isBoolean rt then
    return (left, right, TypeTable.scalarId .boolean)
  if types.isIntegral lt && types.isIntegral rt then
    let common := (commonType? types lt rt).getD (TypeTable.scalarId .long)
    let (left, right) ← promoteBy calculate left right common
    return (left, right, common)
  throw (notApplicable types place op lt rt)

/-- `comparison`, with another way to calculate. -/
def comparisonBy (place : Location) (op : BinaryOp) (left right : Expr) (lt rt : TypeId) :
    Checking (Expr × Expr × TypeId) := do
  let types := (← get).types
  if types.isNumeric lt && types.isNumeric rt then
    let common := (commonType? types lt rt).getD (TypeTable.scalarId .real)
    let (left, right) ← promoteBy calculate left right common
    return (left, right, TypeTable.scalarId .boolean)
  let strings := types.isString lt && types.isString rt
  let booleans := types.isBoolean lt && types.isBoolean rt && (op == .equal || op == .notEqual)
  unless strings || booleans do throw (notApplicable types place op lt rt)
  return (left, right, TypeTable.scalarId .boolean)

/-- `binary`, with another way to calculate. -/
def binaryBy (place : Location) (op : BinaryOp) (left right : Expr) :
    Checking (Expr × Expr × TypeId) := do
  let lt ← valueType left
  let rt ← valueType right
  let types := (← get).types
  match op with
  | .add =>
    if types.isString lt || types.isString rt then stringSumBy calculate place left right lt rt
    else arithmeticBy calculate place op left right lt rt
  | .subtract | .multiply | .divide | .mod => arithmeticBy calculate place op left right lt rt
  | .shl | .shr =>
    if types.isIntegral lt && types.isIntegral rt then return (left, right, types.base lt)
    throw (notApplicable types place op lt rt)
  | .and | .or | .xor => logicBy calculate place op left right lt rt
  | .less | .lessEqual | .greater | .greaterEqual | .equal | .notEqual =>
    comparisonBy calculate place op left right lt rt

/-! ## Expressions -/

section

variable (sigs : Signatures) (constantType : ConstantType)

mutual

/-- `expr`, with another way to calculate. -/
def exprBy : Expr → Checking Expr
  | .literal i value => return .literal i value
  | .name i name decl => do
    let type ← match decl with
      | some decl => declaredType sigs constantType decl
      | none => pure none
    match type with
    | some type => return .name { i with type := some type } name decl
    | none => throw (Rule.cannotResolveSymbol.about i.location name)
  | .member i target field _ => do
    let target ← exprBy target
    let (decl, type) ← member sigs i.location target field
    simplifyBy calculate (.member { i with type := some type } target field (some decl))
  | .call i function arguments callee => do
    match callee.bind fun index => sigs.functions[index]? with
    | none => throw (Rule.cannotResolveSymbol.about i.location function)
    | some f =>
      if f.parameters.length != arguments.length then
        throw (Rule.invalidNumberOfArguments.about i.location function)
      let arguments ← exprsBy f.parameters arguments
      simplifyBy calculate (.call { i with type := f.returns } function arguments callee)
  | .unary i op operand => do
    let operand ← exprBy operand
    let type ← unary i.location op operand
    simplifyBy calculate (.unary { i with type := some type } op operand)
  | .binary i op left right => do
    let left ← exprBy left
    let _ ← valueType left
    let right ← exprBy right
    let (left, right, type) ← binaryBy calculate i.location op left right
    simplifyBy calculate (.binary { i with type := some type } op left right)
  | .cast i operand => simplifyBy calculate (.cast i operand)
  | .pointer i target temp => simplifyBy calculate (.pointer i target temp)

/-- `exprs`, with another way to calculate. -/
def exprsBy : List TypeId → List Expr → Checking (List Expr)
  | parameter :: parameters, e :: rest => do
    let e ← exprBy e
    let _ ← valueType e
    let e ← coerceBy calculate e parameter .incompatibleArgumentType
    return e :: (← exprsBy parameters rest)
  | _, _ => return []

end

/-- `value`, with another way to calculate. -/
def valueBy (e : Expr) : Checking (Expr × TypeId) := do
  let e ← exprBy calculate sigs constantType e
  return (e, ← valueType e)

/-! ## Statements -/

/-- `target`, with another way to calculate. -/
def targetBy (e : Expr) : Checking (Expr × TypeId) := do
  let (e, type) ← valueBy calculate sigs constantType e
  unless e.isAddressable do throw (Rule.expressionIsNotAssignable.here e.location)
  if (← get).types.isConstant type then
    throw (Rule.canNotAssignToConstant.about e.location e.title)
  return (e, type)

/-- `assigned`, with another way to calculate. -/
def assignedBy (expected : TypeId) (e : Expr) : Checking Expr := do
  let (e, _) ← valueBy calculate sigs constantType e
  coerceBy calculate e expected .incompatibleTypes

/-- `condition`, with another way to calculate. -/
def conditionBy (e : Expr) : Checking Expr := do
  let (e, type) ← valueBy calculate sigs constantType e
  let types := (← get).types
  unless types.isBoolean type do
    throw (Rule.conditionMustBeBoolean.about e.location (types.name type))
  return e

/-- `var`, with another way to calculate. -/
def varBy (place : Location) (index : Nat) (first : Option Expr) : Checking (Option Expr) := do
  let s ← get
  match s.locals[index]? with
  | none => throw (Rule.internalError.about place "NOT A VARIABLE")
  | some v =>
    match v.type, first with
    | some declared, first => do
      if s.types.isAbstract declared then
        throw (Rule.variableCanNotBeAbstract.about place v.name)
      match first with
      | some e => return some (← assignedBy calculate sigs constantType declared e)
      | none => return none
    | none, some e => do
      let (e, actual) ← valueBy calculate sigs constantType e
      setLocalType index ((← get).types.base actual)
      return some e
    | none, none => throw (Rule.expectedDataType.about place v.name)

mutual

/-- `stmt`, with another way to calculate. -/
def stmtBy (returns : Option TypeId) : Stmt → Checking Stmt
  | .var l index first =>
    return .var l index (← varBy calculate sigs constantType l index first)
  | .assign l first place => do
    let (first, actual) ← valueBy calculate sigs constantType first
    infer place actual
    let (place, expected) ← targetBy calculate sigs constantType place
    return .assign l (← coerceBy calculate first expected .incompatibleTypes) place
  | .invoke l call => return .invoke l (← exprBy calculate sigs constantType call)
  | .return l result =>
    match returns, result with
    | some expected, some e =>
      return .return l (some (← assignedBy calculate sigs constantType expected e))
    | some _, none => throw (Rule.returnValueExpected.here l)
    | none, some _ => throw (Rule.unexpectedReturnValue.here l)
    | none, none => return .return l none
  | .choose l branches => return .choose l (← choicesBy returns branches)
  | .count l counter start finish step body temps => do
    let (start, actual) ← valueBy calculate sigs constantType start
    infer counter actual
    let (counter, type) ← targetBy calculate sigs constantType counter
    let types := (← get).types
    unless types.isNumeric type do
      throw (Rule.counterMustBeNumeric.about counter.location (types.name type))
    let start ← coerceBy calculate start type .incompatibleTypes
    let finish ← assignedBy calculate sigs constantType type finish
    let step ← match step with
      | some e => pure (some (← assignedBy calculate sigs constantType type e))
      | none => pure none
    return .count l counter start finish step (← stmtsBy returns body) temps
  | .loop l test body => do
    let test ← match test with
      | some c =>
        pure (some { c with value := ← conditionBy calculate sigs constantType c.value })
      | none => pure none
    return .loop l test (← stmtsBy returns body)

/-- `stmts`, with another way to calculate. -/
def stmtsBy (returns : Option TypeId) : List Stmt → Checking (List Stmt)
  | [] => return []
  | s :: rest => do
    let s ← stmtBy returns s
    return s :: (← stmtsBy returns rest)

/-- `choices`, with another way to calculate. -/
def choicesBy (returns : Option TypeId) : Branches → Checking Branches
  | .done => return .done
  | .otherwise body => return .otherwise (← stmtsBy returns body)
  | .branch test body rest => do
    let test ← conditionBy calculate sigs constantType test
    let body ← stmtsBy returns body
    return .branch test body (← choicesBy returns rest)

end

end

/-! ## Definitions -/

section

variable (lengths : Array Expr) (constantType : ConstantType)

/-- `resolveLength`, with another way to calculate. -/
def resolveLengthBy (id : TypeId) : Checking Unit := do
  match (← get).types.get id with
  | .pending index =>
    match lengths[index]? with
    | none => return
    | some length =>
      let place := length.location
      if (← get).openLengths.contains index then throw (Rule.recursiveDefinition.here place)
      modify fun s => { s with openLengths := index :: s.openLengths }
      let (length, _) ← valueBy calculate noSignatures constantType length
      let capacity ← capacityOf place (← calculate length)
      modify fun s => { s with
        types := s.types.resolve id (.string (some capacity))
        openLengths := s.openLengths.erase index }
  | _ => return

/-- `resolveWithin`, with another way to calculate. -/
def resolveWithinBy : Nat → TypeId → Checking Unit
  | 0, _ => return
  | bound + 1, id => do
    match (← get).types.get id with
    | .pending _ => resolveLengthBy calculate lengths constantType id
    | .pointer inner => resolveWithinBy bound inner
    | .constant inner => resolveWithinBy bound inner
    | _ => return

/-- `resolveType`, with another way to calculate. -/
def resolveTypeBy (id : TypeId) : Checking Unit := do
  resolveWithinBy calculate lengths constantType ((← get).types.entries.size + 1) id

/-- `declaredValue`, with another way to calculate. -/
def declaredValueBy (declared : Option TypeId) (e : Expr) (actual : TypeId) :
    Checking (Expr × TypeId) := do
  match declared with
  | none => return (e, (← get).types.base actual)
  | some declared =>
    resolveTypeBy calculate lengths constantType declared
    let types := (← get).types
    let target := types.base declared
    if types.isAbstract target then return (e, types.base actual)
    return (← coerceBy calculate e target .incompatibleTypes, target)

end

/-- `constantWithin`, with another way to calculate. -/
def constantWithinBy (lengths : Array Expr) : Nat → ConstantType
  | 0, _ => throw (Rule.recursiveDefinition.nowhere "")
  | bound + 1, index => do
    let s ← get
    match s.constants[index]? with
    | none => throw (Rule.internalError.nowhere "")
    | some c =>
      if c.folded.isSome then
        match c.type with
        | some type => return type
        | none => throw (Rule.internalError.here c.location)
      if s.openConstants.contains index then
        throw (Rule.recursiveDefinition.about c.location c.name)
      set { s with openConstants := index :: s.openConstants }
      let (e, actual) ← valueBy calculate noSignatures (constantWithinBy lengths bound) c.value
      let (e, type) ←
        declaredValueBy calculate lengths (constantWithinBy lengths bound) c.type e actual
      match ← calculate e with
      | none => throw (Rule.expectedConstantExpression.here e.location)
      | some folded =>
        modify fun s => { s with
          constants := s.constants.setIfInBounds index
            { c with type := some type, value := e, folded := some folded }
          openConstants := s.openConstants.erase index }
        return type

/-! ## Programs -/

/-- `checkFunction`, with another way to calculate. -/
def checkFunctionBy (p : Program) (constantType : ConstantType) (f : Function) :
    Checking Function := do
  match f.body with
  | .native _ => return f
  | .user body =>
    body.arguments.forM fun a => checkArgument a.location a.type
    modify fun s => { s with locals := body.locals }
    let sigs : Signatures := ⟨p.structs, p.functions, body.arguments, p.ownerFields f.owner⟩
    let statements ← stmtsBy calculate sigs constantType f.returns body.statements
    let locals := (← get).locals
    return { f with body := .user { body with statements, locals } }

/-- `program`, with another way to calculate. -/
def programBy (p : Program) : Checking (List Function) := do
  let constantType := constantWithinBy calculate p.lengths (p.constants.size + 1)
  p.types.unresolved.forM (resolveLengthBy calculate p.lengths constantType)
  (List.range p.constants.size).forM fun index => do
    let _ ← constantType index
  p.structs.toList.forM fun s => s.fields.forM checkField
  p.modules.forM fun m => m.fields.forM checkField
  let functions := p.functions.toList
  functions.forM checkNative
  (functions.filter Function.isUser).forM checkReturns
  (functions.filter (!Function.isUser ·)).forM checkReturns
  let functions ← functions.mapM (checkFunctionBy calculate p constantType)
  p.channels.forM (checkChannel p)
  return functions

end Checking

/-- `checkTypes`, with another way to calculate. -/
def Program.checkTypesBy (calculate : Calculator) (p : Program) : Checked Program := do
  let (functions, s) ← (Checking.programBy calculate p).run ⟨p.types, p.constants, [], [], #[]⟩
  return { p with types := s.types, constants := s.constants, functions := functions.toArray }

end ChannelBasic
