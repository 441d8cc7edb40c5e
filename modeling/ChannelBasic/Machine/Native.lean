import ChannelBasic.Machine.Memory

/-!
# Machine/Native — functions that the host provides

A native function is given the memory and the stack pointer of the call: the return address lies at
the stack pointer, then the arguments in their order, then room for the result.  It may change the
memory, print texts, and end the machine.
-/

namespace ChannelBasic

/-- Why a machine does not run. -/
inductive Halt where
  /-- It has come to its end. -/
  | stopped
  | fault (fault : Fault)
  deriving DecidableEq, Repr, Inhabited

/-- What a native function did. -/
structure NativeOutcome where
  /-- The memory it leaves behind. -/
  memory : Memory
  /-- Texts it printed, in their order. -/
  printed : List String
  /-- Set if the machine is not to go on. -/
  halt : Option Halt

/-- A function of the host. -/
abbrev Native := Memory → Int → NativeOutcome

namespace Native

/-- A function that changes the memory, or faults and leaves it as it was. -/
def ofUpdate (update : Memory → Int → Except Fault Memory) : Native := fun memory sp =>
  match update memory sp with
  | .ok memory => ⟨memory, [], none⟩
  | .error f => ⟨memory, [], some (.fault f)⟩

/-- A function that prints a text found in memory. -/
def ofText (text : Memory → Int → Except Fault String) : Native := fun memory sp =>
  match text memory sp with
  | .ok s => ⟨memory, [s], none⟩
  | .error f => ⟨memory, [], some (.fault f)⟩

/-- Where the argument that comes first lies. -/
def firstArgument (sp : Int) : Int := sp + 4

/-- `ticks() AS LONG`: the time, in milliseconds. -/
def ticks (now : Int64) : Native :=
  ofUpdate fun memory sp => memory.writeInt64 (sp + 4) now

/-- `random(limit AS INTEGER) AS INTEGER`: a number below a positive limit, else zero; `draw` is
the number drawn. -/
def random (draw : Nat) : Native :=
  ofUpdate fun memory sp => do
    let limit ← memory.readInt32 (firstArgument sp)
    memory.writeInt32 (sp + 8) (if 0 < limit then (draw : Int) % limit else 0)

/-- `print(text AS POINTER TO CONST STRING)`. -/
def print : Native :=
  ofText fun memory sp => do
    let address ← memory.readInt32 (firstArgument sp)
    memory.readString address

end Native

/-- The functions a host provides, by name. -/
structure Natives where
  table : List (String × Native)

namespace Natives

/-- A host without functions. -/
def empty : Natives := ⟨[]⟩

/-- A further function; it hides one of the same name. -/
def insert (ns : Natives) (name : String) (f : Native) : Natives := ⟨(name, f) :: ns.table⟩

/-- The function with a name. -/
def find? (ns : Natives) (name : String) : Option Native := ns.table.lookup name

/-- The functions that every host has, given the time and a number drawn at random. -/
def standard (now : Int64) (draw : Nat) : Natives :=
  (empty.insert "ticks" (Native.ticks now)).insert "random" (Native.random draw)

/-- Calls a function. -/
def call (ns : Natives) (name : String) (memory : Memory) (sp : Int) : NativeOutcome :=
  match ns.find? name with
  | some f => f memory sp
  | none => ⟨memory, [], some (.fault .functionNotDefined)⟩

end Natives

end ChannelBasic
