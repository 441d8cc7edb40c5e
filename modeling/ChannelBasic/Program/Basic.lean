import ChannelBasic.Program.StaticData
import ChannelBasic.Program.Stmt
import ChannelBasic.Raw.Program

/-!
# Program/Basic — programs that mean something

The declarations of a program in tables, so that one refers to another by its number.  Functions of
libraries and modules share one table, libraries first; functions, modules and libraries know each
other by numbers in these tables.  A field knows its offset, a function its frame, a module its
texts and its reach, once the passes that compute them have run.
-/

namespace ChannelBasic

/-- A field of a type or of a module, or an argument: a named place with an offset. -/
structure Slot where
  location : Location
  name : String
  type : TypeId
  offset : Nat
  deriving DecidableEq, Repr, Inhabited

/-- A variable of a function; its offset counts down from the frame pointer. -/
structure Local where
  location : Location
  name : String
  /-- Declared, or taken from the first value. -/
  type : Option TypeId
  offset : Int
  deriving DecidableEq, Repr, Inhabited

/-- A named value. -/
structure Constant where
  location : Location
  name : String
  /-- Declared, or taken from the value. -/
  type : Option TypeId
  value : Expr
  /-- What the value comes to, once it is checked. -/
  folded : Option Literal
  deriving Repr, Inhabited

/-- A structured type. -/
structure Struct where
  location : Location
  name : String
  type : TypeId
  fields : List Slot
  deriving Repr, Inhabited

/-- The stack frame of a function. -/
structure Frame where
  /-- Bytes of variables and temporaries. -/
  locals : Nat
  /-- Bytes of arguments. -/
  arguments : Nat
  /-- Offset of the result. -/
  result : Nat
  deriving DecidableEq, Repr, Inhabited

/-- A frame not laid out yet. -/
def Frame.empty : Frame := ⟨0, 0, 0⟩

/-- Where a function belongs. -/
inductive Owner where
  | library (index : Nat)
  | module (index : Nat)
  deriving DecidableEq, Repr, Inhabited

/-- What there is to know about a function with a body. -/
structure UserBody where
  arguments : List Slot
  /-- All variables, those of inner blocks too. -/
  locals : Array Local
  /-- Variables declared by their first assignment, in their order. -/
  implicit : List Nat
  statements : List Stmt
  frame : Frame
  deriving Inhabited

/-- What a function does. -/
inductive FunctionBody where
  | native (arguments : List TypeId)
  | user (body : UserBody)
  deriving Inhabited

/-- A function. -/
structure Function where
  location : Location
  name : String
  owner : Owner
  returns : Option TypeId
  body : FunctionBody
  deriving Inhabited

namespace Function

/-- The body of a function that has one. -/
def user? (f : Function) : Option UserBody :=
  match f.body with
  | .user body => some body
  | .native _ => none

/-- Whether the function has a body. -/
def isUser (f : Function) : Bool := f.user?.isSome

/-- The types of the arguments. -/
def parameters (f : Function) : List TypeId :=
  match f.body with
  | .native arguments => arguments
  | .user body => body.arguments.map (·.type)

/-- The frame; a native function has none. -/
def frame (f : Function) : Frame :=
  match f.body with
  | .user body => body.frame
  | .native _ => .empty

/-- Texts and calls in the function. -/
def mentions (f : Function) : List Mention :=
  match f.body with
  | .user body => Stmt.mentionsAll body.statements
  | .native _ => []

end Function

/-- Functions for some executors, or for all if none is named. -/
structure Library where
  location : Location
  executors : List String
  functions : List Nat
  deriving Repr, Inhabited

/-- Whether a library is there for one of some executors. -/
def Library.isVisible (l : Library) (executors : List String) : Bool :=
  l.executors.isEmpty || l.executors.any fun x => executors.contains x

/-- Fields of a module with one access. -/
structure DataSet where
  location : Location
  access : Access
  fields : List Slot
  deriving Repr, Inhabited

/-- A module. -/
structure Module where
  location : Location
  name : String
  executor : String
  dataSets : List DataSet
  functions : List Nat
  /-- Functions that can come to run, its own first. -/
  reachable : List Nat
  static : StaticData
  /-- Bytes of the data sets. -/
  dataSize : Nat
  deriving Repr, Inhabited

namespace Module

/-- All data fields, in the order of their data sets. -/
def fields (m : Module) : List Slot := m.dataSets.flatMap (·.fields)

/-- The data fields with an access, each with its number among all. -/
def fieldsOf (m : Module) (access : Access) : List (Slot × Nat) :=
  ((m.dataSets.flatMap fun d => d.fields.map fun f => (f, d.access)).zipIdx.filter
    fun x => x.1.2 == access).map fun x => (x.1.1, x.2)

end Module

/-- A data field of a module. -/
structure DataFieldRef where
  owner : Nat
  index : Nat
  deriving DecidableEq, Repr, Inhabited

/-- A channel; its two fields are known once names are bound. -/
structure Channel where
  location : Location
  source : Endpoint
  destination : Endpoint
  fields : Option (DataFieldRef × DataFieldRef)
  deriving Repr, Inhabited

/-- A program. -/
structure Program where
  constants : Array Constant
  structs : Array Struct
  libraries : List Library
  modules : List Module
  channels : List Channel
  functions : Array Function
  types : TypeTable
  /-- The lengths of strings, as expressions. -/
  lengths : Array Expr
  deriving Inhabited

namespace Program

/-- What a constant comes to. -/
def constantValue (p : Program) (index : Nat) : Option Literal :=
  (p.constants[index]?).bind (·.folded)

/-- The data field of a module. -/
def dataField? (p : Program) (r : DataFieldRef) : Option Slot :=
  (p.modules[r.owner]?).bind fun m => m.fields[r.index]?

/-- The field of a structured type. -/
def structField? (p : Program) (r : FieldRef) : Option Slot :=
  (p.structs[r.struct]?).bind fun s => s.fields[r.index]?

end Program

end ChannelBasic
