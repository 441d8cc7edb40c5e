import ChannelBasic.Diagnostic
import ChannelBasic.Program.Binding

/-!
# Program/Layout — where everything lies

Fields of a type and data fields of a module follow each other without gaps.  Arguments start eight
bytes above the frame pointer, after the saved frame pointer and the return address, and the result
follows them.  Variables and temporaries are laid out below the frame pointer in the order in which
they are met.  A type that contains itself has no size and is refused; a pointer to it is no part.
-/

namespace ChannelBasic

/-- The size of a type that has to have one. -/
def TypeTable.sizeAt (t : TypeTable) (place : Location) (type : Option TypeId) : Checked Nat :=
  match type.bind t.size? with
  | some size => .ok size
  | none => .error (Rule.internalError.about place "SIZE NOT KNOWN")

namespace Layout

/-- Places one after the other from an offset on, and the offset after the last. -/
def slots (types : TypeTable) (offset : Nat) : List Slot → Checked (List Slot × Nat)
  | [] => .ok ([], offset)
  | f :: rest => do
    let size ← types.sizeAt f.location (some f.type)
    let (placed, stop) ← slots types (offset + size) rest
    return ({ f with offset } :: placed, stop)

/-! ## Structured types -/

/-- The structured types and the types, while sizes are found. -/
structure Sizing where
  types : TypeTable
  structs : Array Struct

/-- The fields of a structured type, `inner` finding the sizes of the structured types among
them. -/
def structFields (inner : Nat → StateT Sizing Checked Unit) (offset : Nat) :
    List Slot → StateT Sizing Checked (List Slot × Nat)
  | [] => return ([], offset)
  | f :: rest => do
    match (← get).types.struct? f.type with
    | some number => inner number
    | none => pure ()
    let size ← (← get).types.sizeAt f.location (some f.type)
    let (placed, stop) ← structFields inner (offset + size) rest
    return ({ f with offset } :: placed, stop)

/-- Finds the size of a structured type, `around` being those it is a part of.  They are all
different, so `bound` need not exceed the number of types. -/
def structSize : Nat → List Nat → Nat → StateT Sizing Checked Unit
  | 0, _, _ => throw (Rule.recursiveDefinition.nowhere "")
  | bound + 1, around, number => do
    let s ← get
    match s.structs[number]? with
    | none => return
    | some struct =>
      if (s.types.structSizes.lookup number).isSome then return
      if around.contains number then
        throw (Rule.recursiveDefinition.about struct.location struct.name)
      let (fields, size) ← structFields (structSize bound (number :: around)) 0 struct.fields
      modify fun s =>
        ⟨s.types.setStructSize number size,
          s.structs.setIfInBounds number { struct with fields }⟩

/-! ## Frames -/

/-- Laying out a frame: the offset of what was placed last, and the variables. -/
structure FrameState where
  cursor : Int
  locals : Array Local

/-- Laying out a frame. -/
abbrev FrameLayout := StateT FrameState Checked

/-- Room for `size` bytes below what was placed last. -/
def room (size : Nat) : FrameLayout Int := modifyGet fun s =>
  (s.cursor - size, { s with cursor := s.cursor - size })

/-- A place for a variable. -/
def placeLocal (types : TypeTable) (index : Nat) : FrameLayout Unit := do
  match (← get).locals[index]? with
  | none => return
  | some v =>
    let offset ← room (← types.sizeAt v.location v.type)
    modify fun s => { s with locals := s.locals.modify index fun v => { v with offset } }

mutual

/-- Places for the temporaries of an expression: a pointer's own before those inside it. -/
def expr (types : TypeTable) (constant : Nat → Option Literal) : Expr → FrameLayout Expr
  | .literal i value => return .literal i value
  | .name i name decl => return .name i name decl
  | .member i target field decl => return .member i (← expr types constant target) field decl
  | .call i function arguments callee =>
    return .call i function (← exprs types constant arguments) callee
  | .unary i op operand => return .unary i op (← expr types constant operand)
  | .binary i op left right => do
    let left ← expr types constant left
    return .binary i op left (← expr types constant right)
  | .cast i operand => return .cast i (← expr types constant operand)
  | .pointer i target _ => do
    let temp ← if target.needsTemp types constant then
        pure (some (← room (← types.sizeAt target.location target.type?)))
      else pure none
    return .pointer i (← expr types constant target) temp

/-- Places for the temporaries of some expressions. -/
def exprs (types : TypeTable) (constant : Nat → Option Literal) :
    List Expr → FrameLayout (List Expr)
  | [] => return []
  | e :: rest => do
    let e ← expr types constant e
    return e :: (← exprs types constant rest)

end

/-- Places for the temporaries of an expression that may be missing. -/
def expr? (types : TypeTable) (constant : Nat → Option Literal) :
    Option Expr → FrameLayout (Option Expr)
  | some e => return some (← expr types constant e)
  | none => return none

/-- Places for the end, the step and the sign of the step of a counting loop. -/
def temps (types : TypeTable) (counter : Expr) : FrameLayout Temps := do
  let size ← types.sizeAt counter.location counter.type?
  let finish ← room size
  let step ← room size
  return ⟨finish, step, ← room 1⟩

mutual

/-- Places for the variables and temporaries of a statement. -/
def stmt (types : TypeTable) (constant : Nat → Option Literal) : Stmt → FrameLayout Stmt
  | .var l index value => do
    placeLocal types index
    return .var l index (← expr? types constant value)
  | .assign l value target => do
    let value ← expr types constant value
    return .assign l value (← expr types constant target)
  | .invoke l call => return .invoke l (← expr types constant call)
  | .return l value => return .return l (← expr? types constant value)
  | .choose l branches => return .choose l (← choices types constant branches)
  | .count l counter start finish step body _ => do
    let places ← temps types counter
    let counter ← expr types constant counter
    let start ← expr types constant start
    let finish ← expr types constant finish
    let step ← expr? types constant step
    return .count l counter start finish step (← stmts types constant body) places
  | .loop l condition body => do
    let condition ← match condition with
      | some c => pure (some { c with value := ← expr types constant c.value })
      | none => pure none
    return .loop l condition (← stmts types constant body)

/-- Places for the variables and temporaries of some statements. -/
def stmts (types : TypeTable) (constant : Nat → Option Literal) :
    List Stmt → FrameLayout (List Stmt)
  | [] => return []
  | s :: rest => do
    let s ← stmt types constant s
    return s :: (← stmts types constant rest)

/-- Places for the variables and temporaries of the branches of an `IF`. -/
def choices (types : TypeTable) (constant : Nat → Option Literal) :
    Branches → FrameLayout Branches
  | .done => return .done
  | .otherwise body => return .otherwise (← stmts types constant body)
  | .branch condition body rest => do
    let condition ← expr types constant condition
    let body ← stmts types constant body
    return .branch condition body (← choices types constant rest)

end

/-- Bytes between the frame pointer and the first argument. -/
def linkSize : Nat := 8

/-- The frame of a function. -/
def function (types : TypeTable) (constant : Nat → Option Literal) (f : Function) :
    Checked Function :=
  match f.body with
  | .native _ => .ok f
  | .user body => do
    let (arguments, result) ← slots types linkSize body.arguments
    let (statements, s) ← (do
      body.implicit.forM (placeLocal types)
      stmts types constant body.statements : FrameLayout (List Stmt)).run ⟨0, body.locals⟩
    let frame : Frame := ⟨(-s.cursor).toNat, result - linkSize, result⟩
    return { f with body := .user { body with arguments, statements, locals := s.locals, frame } }

/-! ## Modules -/

/-- The data sets of a module, one after the other. -/
def dataSets (types : TypeTable) (offset : Nat) : List DataSet → Checked (List DataSet × Nat)
  | [] => .ok ([], offset)
  | d :: rest => do
    let (fields, stop) ← slots types offset d.fields
    let (placed, stop) ← dataSets types stop rest
    return ({ d with fields } :: placed, stop)

/-- The data of a module. -/
def module (types : TypeTable) (m : Module) : Checked Module := do
  let (dataSets, dataSize) ← dataSets types 0 m.dataSets
  return { m with dataSets, dataSize }

end Layout

namespace Program

/-- Finds the sizes of all structured types. -/
def layoutStructs (p : Program) : Checked Program := do
  let bound := p.structs.size + 1
  let (_, s) ← ((List.range p.structs.size).forM (Layout.structSize bound [])).run
    ⟨p.types, p.structs⟩
  return { p with types := s.types, structs := s.structs }

/-- Finds the places of everything. -/
def layout (p : Program) : Checked Program := do
  let p ← p.layoutStructs
  let modules ← p.modules.mapM (Layout.module p.types)
  let functions ← p.functions.toList.mapM (Layout.function p.types p.constantValue)
  return { p with modules, functions := functions.toArray }

/-- Offset and capacity of each string inside a value of a type, at most `bound` types deep. -/
def stringsWithin (p : Program) : Nat → TypeId → List (Nat × Nat)
  | bound, type =>
    match p.types.capacity? type with
    | some capacity => [(0, capacity)]
    | none =>
      match bound with
      | 0 => []
      | bound + 1 =>
        match (p.types.struct? type).bind fun number => p.structs[number]? with
        | some s => s.fields.flatMap fun f =>
            (p.stringsWithin bound f.type).map fun (offset, capacity) =>
              (f.offset + offset, capacity)
        | none => []

/-- Offset and capacity of each string inside a value of a type, in their order. -/
def strings (p : Program) (type : TypeId) : List (Nat × Nat) :=
  p.stringsWithin (p.structs.size + 1) type

end Program

end ChannelBasic
