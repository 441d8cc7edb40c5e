import ChannelBasic.Diagnostic
import ChannelBasic.Program.Basic

/-!
# Program/Lowering — from a program as written to tables

`Program.ofRaw` enters the declarations of a program into tables: types into the table of types,
functions into the table of functions, variables into the table of their function.  Names are not
bound yet and types known by name are not resolved.  A name declared twice in one place is refused.
-/

namespace ChannelBasic

/-- A type known by name, and where the name stands. -/
structure TypeMention where
  type : TypeId
  location : Location

/-- What is entered so far. -/
structure Lowered where
  types : TypeTable
  lengths : Array Expr
  /-- Types known by name, last one first. -/
  mentions : List TypeMention
  functions : Array Function
  /-- Variables of the current function. -/
  locals : Array Local

/-- Entering a program into tables. -/
abbrev Lowering := StateT Lowered Checked

namespace Lowering

/-- Enters a type. -/
def addType (type : DataType) : Lowering TypeId := modifyGet fun s =>
  let (id, types) := s.types.add type
  (id, { s with types })

/-- The type of a whole number as written. -/
def integerType (n : Int64) : TypeId :=
  TypeTable.scalarId (if Word.fits32 n.toInt then .integer else .long)

mutual

/-- An expression: literals have their types, nothing else has. -/
def expr : Raw.Expr → Lowering Expr
  | .integer l n => return .literal ⟨l, some (integerType n)⟩ (.integral n)
  | .real l x => return .literal ⟨l, some (TypeTable.scalarId .real)⟩ (.real x)
  | .boolean l b => return .literal ⟨l, some (TypeTable.scalarId .boolean)⟩ (.boolean b)
  | .text l content => do
    let type ← addType (.string (some (Utf16.units content)))
    return .literal ⟨l, some type⟩ (.text content)
  | .name l name => return .name ⟨l, none⟩ name none
  | .member l target field => return .member ⟨l, none⟩ (← expr target) field none
  | .call l function arguments => return .call ⟨l, none⟩ function (← exprs arguments) none
  | .unary l op operand => return .unary ⟨l, none⟩ op (← expr operand)
  | .binary l op left right => do
    let left ← expr left
    let right ← expr right
    return .binary ⟨l, none⟩ op left right

/-- Some expressions. -/
def exprs : List Raw.Expr → Lowering (List Expr)
  | [] => return []
  | e :: rest => do
    let e ← expr e
    return e :: (← exprs rest)

end

/-- An expression that may be missing. -/
def expr? : Option Raw.Expr → Lowering (Option Expr)
  | some e => return some (← expr e)
  | none => return none

/-- A type. -/
def dataType : Raw.DataType → Lowering TypeId
  | .scalar s => return TypeTable.scalarId s
  | .string => return TypeTable.stringId
  | .stringOf length => do
    let length ← expr length
    let index ← modifyGet fun s => (s.lengths.size, { s with lengths := s.lengths.push length })
    addType (.pending index)
  | .pointer pointee => do addType (.pointer (← dataType pointee))
  | .constant base => do addType (.constant (← dataType base))
  | .named location name => do
    let type ← addType (.named name)
    modify fun s => { s with mentions := ⟨type, location⟩ :: s.mentions }
    return type

/-- A type that may be missing. -/
def dataType? : Option Raw.DataType → Lowering (Option TypeId)
  | some t => return some (← dataType t)
  | none => return none

/-- Places with names, none of which may be taken. -/
def slots (rule : Rule) : List String → List Raw.Field → Lowering (List Slot)
  | _, [] => return []
  | taken, f :: rest => do
    if taken.contains f.name then throw (rule.about f.location f.name)
    let type ← dataType f.type
    return ⟨f.location, f.name, type, 0⟩ :: (← slots rule (f.name :: taken) rest)

/-- A new variable of the current function. -/
def addLocal (v : Local) : Lowering Nat := modifyGet fun s =>
  (s.locals.size, { s with locals := s.locals.push v })

mutual

/-- A statement. -/
def stmt : Raw.Stmt → Lowering Stmt
  | .var l name type value => do
    let type ← dataType? type
    let value ← expr? value
    let index ← addLocal ⟨l, name, type, 0⟩
    return .var l index value
  | .assign l target value => do
    let value ← expr value
    return .assign l value (← expr target)
  | .call l call => return .invoke l (← expr call)
  | .return l value => return .return l (← expr? value)
  | .choose l branches => return .choose l (← choices branches)
  | .count l counter start finish step body => do
    let counter ← expr counter
    let start ← expr start
    let finish ← expr finish
    let step ← expr? step
    return .count l counter start finish step (← stmts body) ⟨0, 0, 0⟩
  | .loop l condition body => do
    let condition ← match condition with
      | some c => pure (some ⟨c.post, c.negative, ← expr c.value⟩)
      | none => pure none
    return .loop l condition (← stmts body)

/-- Some statements. -/
def stmts : List Raw.Stmt → Lowering (List Stmt)
  | [] => return []
  | s :: rest => do
    let s ← stmt s
    return s :: (← stmts rest)

/-- The branches of an `IF`. -/
def choices : Raw.Branches → Lowering Branches
  | .done => return .done
  | .otherwise body => return .otherwise (← stmts body)
  | .branch condition body rest => do
    let condition ← expr condition
    let body ← stmts body
    return .branch condition body (← choices rest)

end

/-- A function of an owner, entered into the table of functions. -/
def function (owner : Owner) (f : Raw.Function) : Lowering Nat := do
  let entered : Function ← match f.body with
    | .native arguments =>
      let arguments ← arguments.mapM dataType
      pure ⟨f.location, f.name, owner, ← dataType? f.returns, .native arguments⟩
    | .user arguments statements =>
      modify fun s => { s with locals := #[] }
      let arguments ← slots .duplicateArgument [] arguments
      let returns ← dataType? f.returns
      let statements ← stmts statements
      let locals := (← get).locals
      pure ⟨f.location, f.name, owner, returns,
        .user ⟨arguments, locals, [], statements, .empty⟩⟩
  modifyGet fun s => (s.functions.size, { s with functions := s.functions.push entered })

/-- A constant. -/
def constant (taken : List String) (c : Raw.Constant) : Lowering Constant := do
  if taken.contains c.name then throw (Rule.duplicateConstant.about c.location c.name)
  let type ← dataType? c.type
  return ⟨c.location, c.name, type, ← expr c.value, none⟩

/-- Constants, none of whose names may be taken. -/
def constants : List String → List Raw.Constant → Lowering (List Constant)
  | _, [] => return []
  | taken, c :: rest => do
    let entered ← constant taken c
    return entered :: (← constants (c.name :: taken) rest)

/-- A structured type with its number. -/
def struct (s : Raw.Struct) (number : Nat) : Lowering Struct := do
  let fields ← slots .duplicateField [] s.fields
  return ⟨s.location, s.name, ← addType (.struct number s.name), fields⟩

/-- A library with its number. -/
def library (b : Raw.CodeBlock) (number : Nat) : Lowering Library := do
  return ⟨b.location, b.executors, ← b.functions.mapM (function (.library number))⟩

/-- Data sets whose fields all have different names. -/
def dataSets : List String → List Raw.DataSet → Lowering (List DataSet)
  | _, [] => return []
  | taken, d :: rest => do
    let fields ← slots .duplicateField taken d.fields
    return ⟨d.location, d.access, fields⟩ ::
      (← dataSets (d.fields.map (·.name) ++ taken) rest)

/-- The functions of code blocks, none of whose names may be taken. -/
def blockFunctions (owner : Owner) :
    List String → List Raw.CodeBlock → Lowering (List Nat)
  | _, [] => return []
  | taken, b :: rest => do
    let taken ← b.functions.foldlM (fun taken f => do
      if taken.contains f.name then throw (Rule.functionAlreadyExists.about f.location f.name)
      return f.name :: taken) taken
    let entered ← b.functions.mapM (function owner)
    return entered ++ (← blockFunctions owner taken rest)

/-- A module with its number. -/
def module (m : Raw.Module) (number : Nat) : Lowering Module := do
  let dataSets ← dataSets [] m.dataSets
  let functions ← blockFunctions (.module number) [] m.codeBlocks
  return ⟨m.location, m.name, m.executor, dataSets, functions, [], .empty, 0⟩

/-- Some declarations, each with its number. -/
def numbered {α β : Type} (enter : α → Nat → Lowering β) : Nat → List α → Lowering (List β)
  | _, [] => return []
  | number, a :: rest => do
    let b ← enter a number
    return b :: (← numbered enter (number + 1) rest)

/-- A whole program, with the types it knows by name in their order. -/
def program (p : Raw.Program) : Lowering (Program × List TypeMention) := do
  let constants ← constants [] p.constants
  let structs ← numbered struct 0 p.structs
  let libraries ← numbered library 0 p.libraries
  let modules ← numbered module 0 p.modules
  let channels := p.channels.map fun c => (⟨c.location, c.source, c.destination, none⟩ : Channel)
  let s ← get
  return (⟨constants.toArray, structs.toArray, libraries, modules, channels, s.functions,
    s.types, s.lengths⟩, s.mentions.reverse)

end Lowering

namespace Program

/-- Resolves the types that are known by name. -/
def bindTypes (p : Program) : List TypeMention → Checked Program
  | [] => .ok p
  | m :: rest =>
    match p.types.get m.type with
    | .named name =>
      match p.structs.findIdx? fun s => s.name == name with
      | some number =>
        bindTypes { p with types := p.types.resolve m.type (.struct number name) } rest
      | none => .error (Rule.unknownType.about m.location name)
    | _ => bindTypes p rest

/-- A program in tables, with its types resolved and its names not bound. -/
def ofRaw (p : Raw.Program) : Checked Program := do
  let (program, mentions) ←
    (Lowering.program p).run' ⟨.initial, #[], [], #[], #[]⟩
  program.bindTypes mentions

end Program

end ChannelBasic
