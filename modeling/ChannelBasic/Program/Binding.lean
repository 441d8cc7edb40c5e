import ChannelBasic.Program.Lowering

/-!
# Program/Binding — names come to refer to declarations

A name means the variable, argument, data field or constant that is nearest: variables of the
innermost block first, those of the function's body and its implicit ones next, then arguments, data
fields of the module and constants.  A variable is known in all of its block, except in its own
first value.  An assignment to a name that means nothing declares a variable of the function.

A function's name means one of its own module or library, or else one of a library that is there for
the executor.
-/

namespace ChannelBasic

/-- What can be named from a piece of code, besides variables. -/
structure Surroundings where
  constants : List String
  fields : List String
  arguments : List String
  /-- The function a name means. -/
  function? : String → Option Nat

/-- The variables that can be named from a place in a function. -/
structure Scope where
  around : Surroundings
  /-- Whether the place lies in a function, which can have variables. -/
  inFunction : Bool
  /-- Variables of the blocks around the place but the outermost, innermost block first. -/
  inner : List (List Nat)
  /-- Variables declared in the function's body itself. -/
  body : List Nat
  /-- The variable whose first value the place lies in. -/
  initial : Option Nat

/-- The variables of a function while its names are bound. -/
structure Bound where
  locals : Array Local
  implicit : List Nat

/-- Binding names. -/
abbrev Binding := StateT Bound Checked

namespace Binding

/-- Whether a variable has a name. -/
def isNamed (s : Bound) (name : String) (index : Nat) : Bool :=
  match s.locals[index]? with
  | some v => v.name == name
  | none => false

/-- What a name means. -/
def lookup (scope : Scope) (s : Bound) (name : String) : Option Declaration :=
  let candidates := (scope.inner.flatten ++ s.implicit ++ scope.body).filter
    fun index => some index != scope.initial
  match candidates.find? (isNamed s name) with
  | some index => some (.localVar index)
  | none =>
    match scope.around.arguments.findIdx? (· == name) with
    | some index => some (.argument index)
    | none =>
      match scope.around.fields.findIdx? (· == name) with
      | some index => some (.dataField index)
      | none => (scope.around.constants.findIdx? (· == name)).map .constant

mutual

/-- Binds the names of an expression. -/
def expr (scope : Scope) : Expr → Binding Expr
  | .name i name _ => do
    match lookup scope (← get) name with
    | some decl => return .name i name (some decl)
    | none => throw (Rule.cannotResolveSymbol.about i.location name)
  | .call i function arguments _ => do
    match scope.around.function? function with
    | some callee => return .call i function (← exprs scope arguments) (some callee)
    | none => throw (Rule.cannotResolveSymbol.about i.location function)
  | .literal i value => return .literal i value
  | .member i target field decl => return .member i (← expr scope target) field decl
  | .unary i op operand => return .unary i op (← expr scope operand)
  | .binary i op left right => do
    let left ← expr scope left
    return .binary i op left (← expr scope right)
  | .cast i operand => return .cast i (← expr scope operand)
  | .pointer i target temp => return .pointer i (← expr scope target) temp

/-- Binds the names of some expressions. -/
def exprs (scope : Scope) : List Expr → Binding (List Expr)
  | [] => return []
  | e :: rest => do
    let e ← expr scope e
    return e :: (← exprs scope rest)

end

/-- Binds the names of an expression that may be missing. -/
def expr? (scope : Scope) : Option Expr → Binding (Option Expr)
  | some e => return some (← expr scope e)
  | none => return none

/-- Declares the variable that an assignment to a name without meaning stands for. -/
def declareImplicit (scope : Scope) : Expr → Binding Unit
  | .name i name _ => do
    let s ← get
    if scope.inFunction && (lookup scope s name).isNone then
      set (⟨s.locals.push ⟨i.location, name, none, 0⟩, s.implicit ++ [s.locals.size]⟩ : Bound)
  | _ => return

/-- Refuses a variable whose name is taken: by an argument, by an earlier variable of the block, or,
in the function's body, by an implicit one. -/
def freshVariable (scope : Scope) (earlier : List Nat) (index : Nat) : Binding Unit := do
  let s ← get
  match s.locals[index]? with
  | some v =>
    if earlier.any (isNamed s v.name) || scope.around.arguments.contains v.name then
      throw (Rule.duplicateVariable.about v.location v.name)
  | none => return

/-- Variables that come before those of the current block: the implicit ones, if the block is the
function's body. -/
def outerEarlier (scope : Scope) (s : Bound) : List Nat :=
  if scope.inner.isEmpty then s.implicit else []

/-- The scope of a block inside another. -/
def inside (scope : Scope) (body : List Stmt) : Scope :=
  { scope with inner := declared body :: scope.inner }

mutual

/-- Binds the names of a statement, `earlier` being the variables that its block declares before. -/
def stmt (scope : Scope) (earlier : List Nat) : Stmt → Binding Stmt
  | .var l index value => do
    freshVariable scope (outerEarlier scope (← get) ++ earlier) index
    return .var l index (← expr? { scope with initial := some index } value)
  | .assign l value target => do
    let value ← expr scope value
    declareImplicit scope target
    return .assign l value (← expr scope target)
  | .invoke l call => return .invoke l (← expr scope call)
  | .return l value => return .return l (← expr? scope value)
  | .choose l branches => return .choose l (← choices scope branches)
  | .count l counter start finish step body temps => do
    let start ← expr scope start
    let finish ← expr scope finish
    let step ← expr? scope step
    declareImplicit scope counter
    let counter ← expr scope counter
    return .count l counter start finish step (← stmts (inside scope body) [] body) temps
  | .loop l condition body => do
    let condition ← match condition with
      | some c => pure (some { c with value := ← expr scope c.value })
      | none => pure none
    return .loop l condition (← stmts (inside scope body) [] body)

/-- Binds the names of the statements of a block. -/
def stmts (scope : Scope) (earlier : List Nat) : List Stmt → Binding (List Stmt)
  | [] => return []
  | s :: rest => do
    let bound ← stmt scope earlier s
    return bound :: (← stmts scope (earlier ++ declared [s]) rest)

/-- Binds the names of the branches of an `IF`. -/
def choices (scope : Scope) : Branches → Binding Branches
  | .done => return .done
  | .otherwise body => return .otherwise (← stmts (inside scope body) [] body)
  | .branch condition body rest => do
    let condition ← expr scope condition
    let body ← stmts (inside scope body) [] body
    return .branch condition body (← choices scope rest)

end

end Binding

namespace Program

/-- The first of some functions with a name. -/
def functionNamed? (p : Program) (functions : List Nat) (name : String) : Option Nat :=
  functions.find? fun index =>
    match p.functions[index]? with
    | some f => f.name == name
    | none => false

/-- The first function with a name in a library that is there for one of some executors. -/
def libraryFunction? (p : Program) (executors : List String) (name : String) : Option Nat :=
  (p.libraries.filter (·.isVisible executors)).findSome? fun l => p.functionNamed? l.functions name

/-- The function that a name means to functions of an owner. -/
def function? (p : Program) (owner : Owner) (name : String) : Option Nat :=
  match owner with
  | .module index =>
    match p.modules[index]? with
    | some m => p.functionNamed? m.functions name <|> p.libraryFunction? [m.executor] name
    | none => none
  | .library index =>
    match p.libraries[index]? with
    | some l => p.functionNamed? l.functions name <|> p.libraryFunction? l.executors name
    | none => none

/-- The names of the constants. -/
def constantNames (p : Program) : List String := p.constants.toList.map (·.name)

/-- The data fields that functions of an owner can name. -/
def ownerFields (p : Program) : Owner → List Slot
  | .module index => ((p.modules[index]?).map Module.fields).getD []
  | .library _ => []

/-- Binds an expression that can name constants only. -/
def bindConstantExpr (p : Program) (e : Expr) : Checked Expr :=
  (Binding.expr ⟨⟨p.constantNames, [], [], fun _ => none⟩, false, [], [], none⟩ e).run' ⟨#[], []⟩

/-- Binds the names of a function's body. -/
def bindFunction (p : Program) (f : Function) : Checked Function :=
  match f.body with
  | .native _ => .ok f
  | .user body => do
    let around : Surroundings := ⟨p.constantNames, (p.ownerFields f.owner).map (·.name),
      body.arguments.map (·.name), p.function? f.owner⟩
    let scope : Scope := ⟨around, true, [], declared body.statements, none⟩
    let (statements, s) ← (Binding.stmts scope [] body.statements).run ⟨body.locals, []⟩
    return { f with
      body := .user { body with statements, locals := s.locals, implicit := s.implicit } }

/-- The number and the text of a module with a name. -/
def moduleNamed? (p : Program) (name : String) : Option (Nat × Module) :=
  (p.modules.zipIdx.find? fun x => x.1.name == name).map fun x => (x.2, x.1)

/-- The field of a module that one end of a channel means. -/
def bindEndpoint (p : Program) (location : Location) (access : Access) (rule : Rule)
    (endpoint : Endpoint) : Checked DataFieldRef :=
  match p.moduleNamed? endpoint.owner with
  | none => .error (Rule.unknownModule.about location endpoint.owner)
  | some (owner, m) =>
    match (m.fieldsOf access).find? fun x => x.1.name == endpoint.field with
    | some (_, index) => .ok ⟨owner, index⟩
    | none => .error (rule.about location endpoint.render)

/-- Binds the ends of the channels; **no input field has two channels**. -/
def bindChannels (p : Program) (taken : List Endpoint) : List Channel → Checked (List Channel)
  | [] => .ok []
  | c :: rest => do
    let output ← p.bindEndpoint c.location .output .unknownOutputField c.source
    let input ← p.bindEndpoint c.location .input .unknownInputField c.destination
    if taken.contains c.destination then
      throw (Rule.duplicateChannel.about c.location c.destination.render)
    let bound := { c with fields := some (output, input) }
    return bound :: (← bindChannels p (c.destination :: taken) rest)

/-- Binds all names of a program. -/
def bindNames (p : Program) : Checked Program := do
  let constants ← p.constants.toList.mapM fun c => do
    return { c with value := ← p.bindConstantExpr c.value }
  let lengths ← p.lengths.toList.mapM p.bindConstantExpr
  let functions ← p.functions.toList.mapM p.bindFunction
  let channels ← p.bindChannels [] p.channels
  return { p with
    constants := constants.toArray, lengths := lengths.toArray,
    functions := functions.toArray, channels }

end Program

end ChannelBasic
