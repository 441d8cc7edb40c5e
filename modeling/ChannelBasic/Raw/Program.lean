import ChannelBasic.Raw.Expr
import ChannelBasic.Types.Scalar

/-!
# Raw/Program — a program as it is written

Declarations and statements with names and types spelled out.  Modules stand in the order of their
names, everything else in the order of the text.
-/

namespace ChannelBasic

/-- Who may read and write a data set of a module. -/
inductive Access where
  /-- The module alone. -/
  | hidden
  /-- Channels write it. -/
  | input
  /-- Channels read it. -/
  | output
  deriving DecidableEq, Repr, Inhabited

/-- How an access is written. -/
def Access.spelling : Access → String
  | .hidden => "PRIVATE"
  | .input => "INPUT"
  | .output => "OUTPUT"

/-- One end of a channel: a field of a module, both by name. -/
structure Endpoint where
  /-- The module's name. -/
  owner : String
  /-- The field's name. -/
  field : String
  deriving DecidableEq, Repr, Inhabited

/-- The text `module.field`. -/
def Endpoint.render (p : Endpoint) : String := p.owner ++ "." ++ p.field

namespace Raw

/-- A type as written. -/
inductive DataType where
  | scalar (type : Scalar)
  /-- `STRING` without a length. -/
  | string
  /-- `STRING OF` a length. -/
  | stringOf (length : Expr)
  | pointer (pointee : DataType)
  | constant (base : DataType)
  | named (location : Location) (name : String)
  deriving Repr, Inhabited

/-- A named place for a value: a field or an argument. -/
structure Field where
  location : Location
  name : String
  type : DataType
  deriving Repr, Inhabited

/-- A named value. -/
structure Constant where
  location : Location
  name : String
  type : Option DataType
  value : Expr
  deriving Repr, Inhabited

/-- A structured type. -/
structure Struct where
  location : Location
  name : String
  fields : List Field
  deriving Repr, Inhabited

/-- When a loop goes on. -/
structure Condition where
  /-- Tested after the body and not before. -/
  post : Bool
  /-- `UNTIL` and not `WHILE`. -/
  negative : Bool
  value : Expr
  deriving Repr, Inhabited

mutual

/-- A statement as written. -/
inductive Stmt where
  | var (location : Location) (name : String) (type : Option DataType) (value : Option Expr)
  | assign (location : Location) (target value : Expr)
  | call (location : Location) (call : Expr)
  | return (location : Location) (value : Option Expr)
  | choose (location : Location) (branches : Branches)
  | count (location : Location) (counter start finish : Expr) (step : Option Expr)
      (body : List Stmt)
  | loop (location : Location) (condition : Option Condition) (body : List Stmt)

/-- The branches of an `IF`, up to its end or its `ELSE`. -/
inductive Branches where
  | done
  | otherwise (body : List Stmt)
  | branch (condition : Expr) (body : List Stmt) (rest : Branches)

end

instance : Inhabited Stmt := ⟨.return default none⟩

instance : Inhabited Branches := ⟨.done⟩

/-- What a function does. -/
inductive FunctionBody where
  /-- The host does it; only the types of its arguments are known. -/
  | native (arguments : List DataType)
  | user (arguments : List Field) (statements : List Stmt)
  deriving Inhabited

/-- A function. -/
structure Function where
  location : Location
  name : String
  returns : Option DataType
  body : FunctionBody
  deriving Inhabited

/-- Functions that belong together; outside a module, those for some executors or for all. -/
structure CodeBlock where
  location : Location
  executors : List String
  functions : List Function
  deriving Inhabited

/-- Fields of a module with one access. -/
structure DataSet where
  location : Location
  access : Access
  fields : List Field
  deriving Repr, Inhabited

/-- A module. -/
structure Module where
  location : Location
  name : String
  executor : String
  dataSets : List DataSet
  codeBlocks : List CodeBlock
  deriving Inhabited

/-- A channel from an output field to an input field. -/
structure Channel where
  location : Location
  source : Endpoint
  destination : Endpoint
  deriving Repr, Inhabited

/-- A program. -/
structure Program where
  constants : List Constant
  structs : List Struct
  libraries : List CodeBlock
  modules : List Module
  channels : List Channel
  deriving Inhabited

/-- A program without declarations. -/
def Program.empty : Program := ⟨[], [], [], [], []⟩

end Raw

end ChannelBasic
