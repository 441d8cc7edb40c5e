import ChannelBasic.Emission.Stmt
import ChannelBasic.Image
import ChannelBasic.Machine.Memory

/-!
# Emission/Module — the image of a module

The code of a module starts with a call of its function `MAIN`, if it has one, and the end of the
machine.  The code of its functions follows, and that of the library functions they call: each
function **once**, in the order in which it was first needed.  Behind the code lie the texts.
-/

namespace ChannelBasic

open Code

namespace Emission

/-- The function that a module starts with. -/
def main? (p : Program) (m : Module) : Option (Nat × Function) :=
  m.functions.findSome? fun number => do
    let f ← p.functions[number]?
    if f.isUser && f.name == "MAIN" then some (number, f) else none

/-- The first instructions: room for the result of `MAIN`, its call, and the end. -/
def bootstrap (p : Program) (m : Module) : Emission (List Piece) := do
  match main? p m with
  | none => return [.op .finish]
  | some (number, f) =>
    let room ← resultRoom p.types f.location f.returns
    let label ← entry number
    return room ++ [.op (.call .user (.label label)), .op .finish]

/-- A function whose code is done. -/
structure Done where
  /-- Its number in the table of functions. -/
  number : Nat
  name : String
  label : Label
  arguments : Nat
  result : Nat
  code : List Piece

/-- Bytes of the result of a function. -/
def resultSize (types : TypeTable) (place : Location) : Option TypeId → Emission Nat
  | some type => types.sizeAt place (some type)
  | none => return 0

/-- The code of a function, with its label in front. -/
def functionUnit (p : Program) (m : Module) (number : Nat) : Emission Done := do
  let label ← entry number
  match (p.functions[number]?).bind fun f => f.user?.map fun body => (f, body) with
  | none => throw (Rule.internalError.about m.location "NOT A FUNCTION")
  | some (f, body) =>
    let code ← function ⟨p, f, body, m.fields⟩
    let result ← resultSize p.types f.location f.returns
    return ⟨number, f.name, label, body.frame.arguments, result, .mark label :: code⟩

/-- The code of all functions in the queue, and of those that join it.  A function joins once, so
`bound` need not exceed the number of functions. -/
def functionUnits (p : Program) (m : Module) : Nat → Emission (List Done)
  | 0 => return []
  | bound + 1 => do
    match (← get).queue with
    | [] => return []
    | number :: rest =>
      modify fun s => { s with queue := rest }
      let unit ← functionUnit p m number
      return unit :: (← functionUnits p m bound)

/-- The first instructions of a module and all its functions. -/
def module (p : Program) (m : Module) : Emission (List Piece × List Done) := do
  let start ← bootstrap p m
  m.functions.forM fun number => do
    if ((p.functions[number]?).map Function.isUser).getD false then
      let _ ← entry number
  return (start, ← functionUnits p m p.functions.size)

end Emission

/-- The code of a module, laid out. -/
structure Assembly where
  /-- Functions, in the order in which their code lies. -/
  units : List Emission.Done
  code : List Instruction
  /-- Where the labels stand. -/
  labels : Labels
  static : StaticData

namespace Assembly

/-- Bytes of the code. -/
def codeSize (a : Assembly) : Nat := a.code.length * recordSize

/-- What is known when the code is linked. -/
def link (a : Assembly) : Link :=
  ⟨a.labels, Int32.ofNat a.codeSize, Int32.ofNat (a.codeSize + a.static.size)⟩

/-- What a call of a function needs to know. -/
def entry (a : Assembly) (u : Emission.Done) : Entry :=
  ⟨((a.labels.address? u.label).getD 0).toInt, u.arguments, u.result⟩

end Assembly

namespace Module

/-- What the data sets of a module start with: zeros, and an empty record for each string. -/
def initialData (p : Program) (m : Module) : Array UInt8 :=
  let records := m.fields.flatMap fun f =>
    (p.strings f.type).map fun (offset, capacity) => (f.offset + offset, capacity)
  records.foldl
    (fun bytes (offset, capacity) =>
      Memory.overwrite bytes offset (encodeString [] (stringSize capacity)))
    (Array.replicate m.dataSize 0)

/-- The code of a module, with its labels bound. -/
def assembly (p : Program) (m : Module) : Checked Assembly := do
  let ((start, units), s) ← (Emission.module p m).run ⟨.empty, m.static, [], []⟩
  let (code, labels) ← assemble s.labels (start ++ units.flatMap (·.code))
  return ⟨units, code, labels, s.static⟩

/-- The compiled module. -/
def image (p : Program) (m : Module) : Checked Image := do
  let a ← m.assembly p
  let linked ← a.link.link a.code
  return { name := m.name, executor := m.executor, bytes := linked ++ a.static.bytes,
           codeSize := a.codeSize, dataSize := m.dataSize, data := (m.initialData p).toList,
           entries := a.units.foldl (fun es u => Image.insertEntry u.name (a.entry u) es) [] }

end Module

end ChannelBasic
