import ChannelBasic.Emission.Module
import ChannelBasic.Program.Analysis

/-!
# Executable — a compiled program

The images of all modules, and a `Wire` for each channel: the bytes of an output field in the memory
of one module that go into an input field in the memory of another.
-/

namespace ChannelBasic

/-- An address in the memory of a module. -/
structure Terminal where
  owner : String
  address : Nat
  deriving DecidableEq, Repr, Inhabited

/-- A channel between addresses. -/
structure Wire where
  source : Terminal
  destination : Terminal
  /-- Bytes that go through. -/
  size : Nat
  deriving DecidableEq, Repr, Inhabited

/-- A compiled program. -/
structure Executable where
  images : List Image
  wires : List Wire
  deriving Repr, Inhabited

namespace Executable

/-- Where a data field lies in the memory of its module. -/
def terminal (p : Program) (images : List Image) (place : Location) (r : DataFieldRef) :
    Checked Terminal :=
  match images[r.owner]?, p.dataField? r with
  | some image, some field => .ok ⟨image.name, image.dynamicBase + field.offset⟩
  | _, _ => .error (Rule.internalError.about place "NO MODULE")

/-- The wire of a channel whose fields are known. -/
def wire (p : Program) (images : List Image) (place : Location) (output input : DataFieldRef) :
    Checked Wire := do
  let source ← terminal p images place output
  let destination ← terminal p images place input
  let size ← p.types.sizeAt place ((p.dataField? output).map (·.type))
  return ⟨source, destination, size⟩

/-- The compiled program. -/
def ofProgram (p : Program) : Checked Executable := do
  let images ← p.modules.mapM (Module.image p)
  let wires ← p.channels.filterMapM fun c => do
    match c.fields with
    | some (output, input) => return some (← wire p images c.location output input)
    | none => return none
  return ⟨images, wires⟩

/-- The compiled program in a file, together with all that the file imports. -/
def load (sources : Sources) (main : String) : Checked Executable := do
  ofProgram (← Program.load sources main)

/-- The module with a name. -/
def image? (x : Executable) (name : String) : Option Image :=
  x.images.find? (·.name == name)

/-- The names of the executors, in order and each once. -/
def executors (x : Executable) : List String :=
  ((x.images.map (·.executor)).mergeSort (fun a b => decide (a ≤ b))).eraseReps

/-- The modules of an executor, in the order of the program. -/
def imagesOn (x : Executable) (executor : String) : List Image :=
  x.images.filter (·.executor == executor)

end Executable

end ChannelBasic
