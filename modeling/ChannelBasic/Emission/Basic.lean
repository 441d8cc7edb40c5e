import ChannelBasic.Code.Link
import ChannelBasic.Program.Layout

/-!
# Emission/Basic — what code is made of

Code is a list of `Piece`s: instructions, and marks where labels stand.  A piece of a program is
turned into a list, and lists are put together, so that where a piece of code lies is plain to see.
`assemble` then binds each label to the address of the instruction after its mark.

Emitting keeps the labels handed out, the texts that go beside the code, and the functions that are
called: each gets a label the first time it is called, and waits in a queue for its own code.
-/

namespace ChannelBasic

open Code

/-- An instruction, or the place of a label. -/
inductive Piece where
  | op (instruction : Instruction)
  | mark (label : Label)
  deriving DecidableEq, Repr

/-- What emitting the code of a module keeps. -/
structure EmissionState where
  labels : Labels
  static : StaticData
  /-- The labels of functions. -/
  entries : List (Nat × Label)
  /-- Functions with a label whose code is still to come. -/
  queue : List Nat
  deriving DecidableEq, Repr

/-- Emitting code. -/
abbrev Emission := StateT EmissionState Checked

/-- A function of a program, for whose body code is emitted. -/
structure EmissionContext where
  program : Program
  function : Function
  body : UserBody
  /-- The data fields of the function's module. -/
  fields : List Slot

namespace Emission

/-- A new label. -/
def label : Emission Label := modifyGet fun s =>
  let (l, labels) := s.labels.create
  (l, { s with labels })

/-- The offset of a text in the static data. -/
def intern (content : String) (capacity : Nat) : Emission Operand := modifyGet fun s =>
  let (offset, static) := s.static.intern content capacity
  (.static (Int32.ofNat offset), { s with static })

/-- The offset of a native function's name in the static data. -/
def internName (name : String) : Emission Operand := intern name (Utf16.units name)

/-- The label of a function; a function that had none is queued. -/
def entry (function : Nat) : Emission Label := do
  match (← get).entries.lookup function with
  | some l => return l
  | none =>
    let l ← label
    modify fun s =>
      { s with entries := (function, l) :: s.entries, queue := s.queue ++ [function] }
    return l

/-- The type of an expression that has to have one. -/
def typeOf (e : Expr) : Emission TypeId :=
  match e.type? with
  | some type => return type
  | none => throw (Rule.internalError.about e.location "UNTYPED NODE")

/-- The size of a type that has to have one. -/
def sizeOf (ctx : EmissionContext) (place : Location) (type : TypeId) : Emission Nat :=
  ctx.program.types.sizeAt place (some type)

/-- How instructions name the type of an expression, and its size. -/
def typed (ctx : EmissionContext) (e : Expr) : Emission (ValueType × Nat) := do
  let type ← typeOf e
  return (ctx.program.types.valueType type, ← sizeOf ctx e.location type)

/-- The instruction that loads from a place in the frame. -/
def loadFrame (size : Nat) (offset : Int) : Piece :=
  .op (.load .frame (Word.size32 size) (.value (Int32.ofInt offset)))

/-- The instruction that stores to a place in the frame. -/
def storeFrame (size : Nat) (offset : Int) : Piece :=
  .op (.store .frame (Word.size32 size) (.value (Int32.ofInt offset)))

/-- The instruction that pushes zeros. -/
def loadZeros (size : Nat) : Piece := .op (.load .zero (Word.size32 size) (.value 0))

/-- The code that pushes zeros where a function is to put its result. -/
def resultRoom (types : TypeTable) (place : Location) : Option TypeId → Emission (List Piece)
  | some type => return [loadZeros (← types.sizeAt place (some type))]
  | none => return []

/-! ## Places -/

end Emission

/-- Where a value lies. -/
inductive Place where
  /-- Offset from the frame pointer. -/
  | frame (offset : Int)
  /-- Offset into the data sets. -/
  | data (offset : Int)
  deriving DecidableEq, Repr

/-- A place further on. -/
def Place.plus : Place → Nat → Place
  | .frame offset, n => .frame (offset + n)
  | .data offset, n => .data (offset + n)

namespace EmissionContext

/-- Where what a name refers to lies; a constant lies nowhere. -/
def declarationPlace? (ctx : EmissionContext) : Declaration → Option Place
  | .localVar index => (ctx.body.locals[index]?).map fun v => .frame v.offset
  | .argument index => (ctx.body.arguments[index]?).map fun a => .frame a.offset
  | .dataField index => (ctx.fields[index]?).map fun f => .data f.offset
  | .constant _ => none

/-- Where the value of an expression lies, if it is a place. -/
def place? (ctx : EmissionContext) : Expr → Option Place
  | .name _ _ (some decl) => ctx.declarationPlace? decl
  | .member _ target _ (some field) => do
    let place ← ctx.place? target
    let slot ← ctx.program.structField? field
    return place.plus slot.offset
  | _ => none

end EmissionContext

/-! ## Assembly -/

/-- The instructions of some code and its labels, bound; `address` is where the code starts. -/
def assembleFrom (labels : Labels) (address : Nat) :
    List Piece → Checked (List Instruction × Labels)
  | [] => .ok ([], labels)
  | .mark l :: rest => do
    let labels ← labels.bind l (Int32.ofNat address)
    assembleFrom labels address rest
  | .op i :: rest => do
    let (code, labels) ← assembleFrom labels (address + recordSize) rest
    return (i :: code, labels)

/-- The instructions of some code and its labels, bound. -/
def assemble (labels : Labels) (pieces : List Piece) : Checked (List Instruction × Labels) :=
  assembleFrom labels 0 pieces

end ChannelBasic
