import ChannelBasic.Program.Binding
import ChannelBasic.Program.Definitions

/-!
# Program/Checked — a program whose types are right

All lengths and constants first, then declared types, then the bodies of functions and the channels;
the first fault ends the checking.  A field, an argument and a result must be of a type with a size,
and not of a CONST type.
-/

namespace ChannelBasic

namespace Checking

/-- Refuses a declared type that is CONST, or that has no size. -/
def checkType (place : Location) (constantRule abstractRule : Rule) (id : TypeId) :
    Checking Unit := do
  let types := (← get).types
  if types.isConstant id then throw (constantRule.about place (types.name id))
  if types.isAbstract id then throw (abstractRule.about place (types.name id))

/-- The type of a field. -/
def checkField (f : Slot) : Checking Unit :=
  checkType f.location .fieldCanNotBeConstant .fieldCanNotBeAbstract f.type

/-- The type of an argument. -/
def checkArgument (place : Location) (type : TypeId) : Checking Unit :=
  checkType place .argumentCanNotBeConstant .argumentCanNotBeAbstract type

/-- The types of the arguments of a native function. -/
def checkNative (f : Function) : Checking Unit :=
  match f.body with
  | .native arguments => arguments.forM (checkArgument f.location)
  | .user _ => return

/-- The type of what a function returns. -/
def checkReturns (f : Function) : Checking Unit :=
  match f.returns with
  | some type =>
    checkType f.location .returnTypeCanNotBeConstant .returnTypeCanNotBeAbstract type
  | none => return

/-- The arguments and the body of a function. -/
def checkFunction (p : Program) (constantType : ConstantType) (f : Function) :
    Checking Function := do
  match f.body with
  | .native _ => return f
  | .user body =>
    body.arguments.forM fun a => checkArgument a.location a.type
    modify fun s => { s with locals := body.locals }
    let sigs : Signatures := ⟨p.structs, p.functions, body.arguments, p.ownerFields f.owner⟩
    let statements ← stmts sigs constantType f.returns body.statements
    let locals := (← get).locals
    return { f with body := .user { body with statements, locals } }

/-- The two ends of a channel: they have to be analogous. -/
def checkChannel (p : Program) (c : Channel) : Checking Unit := do
  match c.fields with
  | none => return
  | some (output, input) =>
    match p.dataField? output, p.dataField? input with
    | some a, some b =>
      let types := (← get).types
      if types.isAbstract a.type || !types.isAnalog a.type b.type then
        throw (mismatch types .nonTransferableTypes c.location a.type b.type)
    | _, _ => throw (Rule.internalError.here c.location)

/-- A whole program: its functions, checked. -/
def program (p : Program) : Checking (List Function) := do
  let constantType := constantWithin p.lengths (p.constants.size + 1)
  p.types.unresolved.forM (resolveLength p.lengths constantType)
  (List.range p.constants.size).forM fun index => do
    let _ ← constantType index
  p.structs.toList.forM fun s => s.fields.forM checkField
  p.modules.forM fun m => m.fields.forM checkField
  let functions := p.functions.toList
  functions.forM checkNative
  (functions.filter Function.isUser).forM checkReturns
  (functions.filter (!Function.isUser ·)).forM checkReturns
  let functions ← functions.mapM (checkFunction p constantType)
  p.channels.forM (checkChannel p)
  return functions

end Checking

/-- The program with its types checked, and values converted where that is needed. -/
def Program.checkTypes (p : Program) : Checked Program := do
  let (functions, s) ← (Checking.program p).run ⟨p.types, p.constants, [], [], #[]⟩
  return { p with types := s.types, constants := s.constants, functions := functions.toArray }

end ChannelBasic
