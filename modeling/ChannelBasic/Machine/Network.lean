import ChannelBasic.Executable
import ChannelBasic.Machine

/-!
# Machine/Network — the machines of a program, connected

One machine for each module.  In a **round** each machine that runs does some instructions, in the
order of the machines, and then every wire between two different machines carries its bytes.  A wire
that would reach outside a memory carries nothing.
-/

namespace ChannelBasic

/-- A module's machine. -/
structure Node where
  name : String
  machine : Machine

namespace Node

/-- A node with a module in its memory. -/
def start (size : Nat) (image : Image) : Except (Fault × String) Node :=
  match Machine.start image size with
  | .ok machine => .ok ⟨image.name, machine⟩
  | .error fault => .error (fault, image.name)

/-- A turn of a node: nothing if its machine does not run. -/
def turn (natives : Natives) (quota : Nat) (n : Node) : Node :=
  { n with machine := n.machine.silent.run natives quota }

/-- The fault of a node, with its name and the address of the instruction. -/
def fault? (n : Node) : Option (String × Fault × Int) :=
  match n.machine.event with
  | .halted (.fault f) => some (n.name, f, n.machine.ip)
  | _ => none

end Node

/-- The text about a fault in a module. -/
def faultIn (fault : Fault) (name : String) : String := fault.title ++ " IN MODULE " ++ name

/-- Machines and the wires between them. -/
structure Network where
  nodes : Array Node
  wires : List Wire

namespace Network

/-- A machine for each of some modules. -/
def start (images : List Image) (wires : List Wire) (size : Nat) :
    Except (Fault × String) Network := do
  return ⟨(← images.mapM (Node.start size)).toArray, wires⟩

/-- Whether any machine runs. -/
def isRunning (n : Network) : Bool := n.nodes.any (·.machine.isRunning)

/-- The number of the node with a name. -/
def find? (nodes : Array Node) (name : String) : Option Nat :=
  nodes.findIdx? (·.name == name)

/-- The bytes that a wire is to carry, with the number of the node they go to. -/
def outgoing (nodes : Array Node) (w : Wire) : Option (Nat × List UInt8) := do
  let source ← find? nodes w.source.owner
  let destination ← find? nodes w.destination.owner
  if source = destination then none
  let node ← nodes[source]?
  let bytes ← (node.machine.memory.read w.source.address w.size).toOption
  return (destination, bytes)

/-- Bytes put into the memory of a node, if they lie inside. -/
def deliver (address : Nat) (bytes : List UInt8) (n : Node) : Node :=
  let ⟨name, machine⟩ := n
  if machine.memory.inside address bytes.length then
    ⟨name, { machine with memory := ⟨Memory.overwrite machine.memory.bytes address bytes⟩ }⟩
  else ⟨name, machine⟩

/-- Carries the bytes of a wire. -/
def transfer (nodes : Array Node) (w : Wire) : Array Node :=
  match outgoing nodes w with
  | some (destination, bytes) => nodes.modify destination (deliver w.destination.address bytes)
  | none => nodes

/-- Every wire carries its bytes, in their order. -/
def transmit (n : Network) : Network := { n with nodes := n.wires.foldl transfer n.nodes }

/-- What can be seen of a round. -/
structure Round where
  /-- What was printed, with the names of the modules. -/
  printed : List (String × String)
  /-- The modules whose machines faulted, with the addresses of the instructions. -/
  faults : List (String × Fault × Int)
  /-- The machines after the round. -/
  views : List MachineView
  deriving Repr, Inhabited

/-- What the machines have printed, with the names of the modules. -/
def printed (n : Network) : List (String × String) :=
  n.nodes.toList.flatMap fun node => node.machine.printed.toList.map fun text => (node.name, text)

/-- The faults of nodes that ran before, `before` telling which did. -/
def newFaults (before : List Bool) (n : Network) : List (String × Fault × Int) :=
  (before.zip n.nodes.toList).filterMap fun (ran, node) => if ran then node.fault? else none

/-- A round, and what can be seen of it. -/
def round (natives : Natives) (quota : Nat) (n : Network) : Round × Network :=
  let before := n.nodes.toList.map (·.machine.isRunning)
  let n := { n with nodes := n.nodes.map (Node.turn natives quota) }
  let n := n.transmit
  (⟨n.printed, n.newFaults before, n.nodes.toList.map (·.machine.view)⟩, n)

/-- Rounds until no machine runs, at most `bound` of them, after the rounds `seen`. -/
def runFrom (natives : Natives) (quota : Nat) :
    Nat → Array Round → Network → Array Round × Network
  | 0, seen, n => (seen, n)
  | bound + 1, seen, n =>
    if n.isRunning then
      let (r, n) := n.round natives quota
      runFrom natives quota bound (seen.push r) n
    else (seen, n)

/-- Rounds until no machine runs, at most `bound` of them. -/
def run (natives : Natives) (quota bound : Nat) (n : Network) : Array Round × Network :=
  runFrom natives quota bound #[] n

end Network

end ChannelBasic
