import ChannelBasic.Location
import ChannelBasic.Program.Literal
import ChannelBasic.Types.Table

/-!
# Program/Expr — expressions that mean something

An expression knows its place and, once checked, its type.  Names and members refer to what declares
them, calls to the function called.  A `cast` or a `pointer` is not written by anyone: checking puts
them where a value has to change its type or is to be passed by its address.  `fold` computes the
value of an expression that has one before the program runs.
-/

namespace ChannelBasic

/-- What every expression knows about itself. -/
structure Info where
  location : Location
  /-- The type, once checked; a call of a function without result has none. -/
  type : Option TypeId
  deriving DecidableEq, Repr, Inhabited

/-- What a name refers to, by its number. -/
inductive Declaration where
  | constant (index : Nat)
  /-- A variable of the function. -/
  | localVar (index : Nat)
  | argument (index : Nat)
  /-- A data field of the function's module. -/
  | dataField (index : Nat)
  deriving DecidableEq, Repr, Inhabited

/-- A field of a structured type. -/
structure FieldRef where
  struct : Nat
  index : Nat
  deriving DecidableEq, Repr, Inhabited

/-- An expression. -/
inductive Expr where
  | literal (info : Info) (value : Literal)
  | name (info : Info) (name : String) (decl : Option Declaration)
  | member (info : Info) (target : Expr) (field : String) (decl : Option FieldRef)
  | call (info : Info) (function : String) (arguments : List Expr) (callee : Option Nat)
  | unary (info : Info) (op : UnaryOp) (operand : Expr)
  | binary (info : Info) (op : BinaryOp) (left right : Expr)
  /-- The operand in another type. -/
  | cast (info : Info) (operand : Expr)
  /-- The address of the target; `temp` is where a target without address is put first. -/
  | pointer (info : Info) (target : Expr) (temp : Option Int)
  deriving Repr, Inhabited

namespace Expr

/-- What an expression knows about itself. -/
def info : Expr → Info
  | .literal i _ | .name i _ _ | .member i _ _ _ | .call i _ _ _ | .unary i _ _ | .binary i _ _ _
  | .cast i _ | .pointer i _ _ => i

/-- Where an expression stands. -/
def location (e : Expr) : Location := e.info.location

/-- The type of an expression, once it has one. -/
def type? (e : Expr) : Option TypeId := e.info.type

/-- The name an expression goes by. -/
def title : Expr → String
  | .name _ n _ => n
  | .member _ _ field _ => field
  | .call _ function _ _ => function
  | _ => ""

/-- Whether an expression is a literal. -/
def isLiteral : Expr → Bool
  | .literal .. => true
  | _ => false

/-- Whether an expression is a place: a variable, an argument, a data field or a member of one. -/
def isAddressable : Expr → Bool
  | .name _ _ (some (.constant _)) => false
  | .name _ _ (some _) => true
  | .member _ target _ _ => target.isAddressable
  | _ => false

/-- The value of an expression, if constants and literals are all it takes; `constant` knows the
values of the constants. -/
def fold (types : TypeTable) (constant : Nat → Option Literal) : Expr → Option Literal
  | .literal _ value => some value
  | .name _ _ (some (.constant index)) => constant index
  | .unary i op operand => do
    let value ← operand.fold types constant
    let type ← i.type
    value.unary op (types.valueType type) (← types.size? type)
  | .binary i op left right => do
    let l ← left.fold types constant
    let r ← right.fold types constant
    let type ← i.type
    l.binary op r (types.valueType type) (← types.size? type)
  | .cast i operand => do
    let value ← operand.fold types constant
    let type ← i.type
    value.cast (types.valueType type) (← types.size? type)
  | _ => none

/-- An operand that is not a literal but has a value becomes a literal of its type without CONST. -/
def simplified (types : TypeTable) (constant : Nat → Option Literal) (e : Expr) : Expr :=
  if e.isLiteral then e
  else
    match e.fold types constant with
    | some value => .literal ⟨e.location, e.type?.map types.base⟩ value
    | none => e

/-- **Operands with a value become literals**; the expression itself stays what it is. -/
def simplify (types : TypeTable) (constant : Nat → Option Literal) : Expr → Expr
  | .member i target field decl => .member i (target.simplified types constant) field decl
  | .call i function arguments callee =>
    .call i function (arguments.map (·.simplified types constant)) callee
  | .unary i op operand => .unary i op (operand.simplified types constant)
  | .binary i op left right =>
    .binary i op (left.simplified types constant) (right.simplified types constant)
  | .cast i operand => .cast i (operand.simplified types constant)
  | .pointer i target temp => .pointer i (target.simplified types constant) temp
  | e => e

/-- Whether the address of a value means a copy: the value is no place, nor a text, which lies in
the static data. -/
def needsTemp (types : TypeTable) (constant : Nat → Option Literal) (target : Expr) : Bool :=
  !target.isAddressable &&
    match target.fold types constant with
    | some (.text _) => false
    | _ => true

end Expr

end ChannelBasic
