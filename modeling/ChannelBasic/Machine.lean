import ChannelBasic.Image
import ChannelBasic.Machine.Native
import ChannelBasic.Machine.Operation

/-!
# Machine — the machine that runs a module

    code | static data | data sets | ...free... | stack

The stack starts at the top of memory and grows down to the data sets, not into them.  `step` does
one instruction: it keeps what it has done when it faults, but the instruction pointer stays at the
instruction that faulted.  `run` does a number of steps, `invoke` prepares the call of a function.
-/

namespace ChannelBasic

/-- Whether a machine runs. -/
inductive Event where
  | running
  | halted (halt : Halt)
  deriving DecidableEq, Repr, Inhabited

/-- How the state of a machine is announced. -/
def Event.title : Event → String
  | .running => "RUNNING"
  | .halted .stopped => "STOPPED"
  | .halted (.fault f) => f.title

/-- A machine. -/
structure Machine where
  memory : Memory
  /-- The instruction pointer. -/
  ip : Int
  /-- The stack pointer. -/
  sp : Int
  /-- The frame pointer. -/
  lp : Int
  /-- A return to this stack pointer ends the machine. -/
  entrySp : Int
  /-- The end of the data sets, where the stack has to stop. -/
  limit : Int
  event : Event
  /-- Texts printed, in their order. -/
  printed : Array String

/-- What can be seen of a machine beside its memory. -/
structure MachineView where
  event : Event
  ip : Int
  sp : Int
  lp : Int
  deriving DecidableEq, Repr, Inhabited

/-- A step of a machine: it changes the machine even when it ends it. -/
abbrev Step := EStateM Halt Machine

namespace Machine

/-- Whether the machine can do another step. -/
def isRunning (m : Machine) : Bool := m.event == .running

/-- A machine with a module in it, about to run the module's first instruction. -/
def start (image : Image) (size : Nat) : Except Fault Machine := do
  let limit := image.dynamicBase + image.dataSize
  let empty := Memory.zeros size
  let top := empty.top
  if top < limit then throw .segmentationFault
  let memory ← empty.write 0 image.bytes
  if image.dataSize < image.data.length then throw .segmentationFault
  let memory ← memory.write image.dynamicBase image.data
  return { memory, ip := 0, sp := top, lp := top, entrySp := top, limit, event := .running,
           printed := #[] }

end Machine

namespace Step

/-! ## Memory and stack -/

/-- Ends the machine with a fault. -/
def fail {α : Type} (f : Fault) : Step α := throw (.fault f)

/-- A result that may be a fault. -/
def lift {α : Type} : Except Fault α → Step α
  | .ok a => pure a
  | .error f => fail f

/-- The meaning of a byte that has to have one. -/
def select {α : Type} : Option α → Step α
  | some a => pure a
  | none => fail .badInstruction

/-- The bytes at an address. -/
def read (address count : Int) : Step (List UInt8) := do lift ((← get).memory.read address count)

/-- Puts bytes at an address. -/
def write (address : Int) (data : List UInt8) : Step Unit := fun m =>
  if m.memory.inside address data.length then
    .ok () { m with memory := ⟨Memory.overwrite m.memory.bytes address.toNat data⟩ }
  else .error (.fault .segmentationFault) m

/-- Puts the bytes of one place at another. -/
def copy (source target count : Int) : Step Unit := do write target (← read source count)

/-- Makes room for `size` bytes and gives their address. -/
def reserve (size : Int) : Step Int := fun m =>
  if 0 ≤ size ∧ m.limit ≤ m.sp - size then .ok (m.sp - size) { m with sp := m.sp - size }
  else .error (.fault .stackOverflow) m

/-- Drops `size` bytes. -/
def release (size : Int) : Step Unit := fun m =>
  if size < 0 then .error (.fault .stackOverflow) m
  else if m.sp + size ≤ m.memory.top then .ok () { m with sp := m.sp + size }
  else .error (.fault .segmentationFault) m

/-- The address of a place in the frame. -/
def frameAddress (offset : Int) : Step Int := do
  let address := (← get).lp + offset
  if Word.fits32 address then return address else fail .segmentationFault

/-- Pushes bytes. -/
def push (data : List UInt8) : Step Unit := do write (← reserve data.length) data

/-- Pushes zeros. -/
def pushZeros (size : Int) : Step Unit := do
  write (← reserve size) (List.replicate size.toNat 0)

/-- Pushes a 32-bit number. -/
def pushInt (n : Int) : Step Unit := push (Word.ofInt 4 n)

/-- Pops bytes. -/
def pop (size : Int) : Step (List UInt8) := do
  let data ← read (← get).sp size
  release size
  return data

/-- Pops a 32-bit number. -/
def popInt : Step Int := return Word.signed (← pop 4)

/-- Pops a value of a type. -/
def popValue (type : Code.ValueType) (size : Int) : Step Value := do
  lift (Value.decode type (← pop size))

/-- Pushes a value into `size` bytes. -/
def pushValue (v : Value) (size : Int) : Step Unit := do
  write (← reserve size) ((v.encode size.toNat).take size.toNat)

/-! ## Registers -/

/-- Goes to an address. -/
def goto (address : Int) : Step Unit := modify fun m => { m with ip := address }

/-- The address of the instruction after this one. -/
def following : Step Int := return (← get).ip + Code.recordSize

/-- Goes to the instruction after this one. -/
def advance : Step Unit := modify fun m => { m with ip := m.ip + Code.recordSize }

/-- Ends the machine. -/
def stop : Step Unit := modify fun m => { m with event := .halted .stopped }

/-! ## Instructions -/

/-- The record at the instruction pointer. -/
def fetch : Step Code.Record := do
  let bytes ← read (← get).ip Code.recordSize
  match Code.Record.decode? bytes with
  | some r => return r
  | none => fail .segmentationFault

/-- `LOAD`. -/
def load (r : Code.Record) : Step Unit := do
  match ← select (Code.Storage.ofCode? r.p0) with
  | .global =>
    let sp ← reserve r.x0.toInt
    copy r.x1.toInt sp r.x0.toInt
  | .frame =>
    let source ← frameAddress r.x1.toInt
    let sp ← reserve r.x0.toInt
    copy source sp r.x0.toInt
  | .immediate =>
    if 0 ≤ r.x0.toInt ∧ r.x0.toInt ≤ 8 then push (r.immediate.take r.x0.toInt.toNat)
    else fail .badInstruction
  | .framePointer => pushInt (← frameAddress r.x1.toInt)
  | .zero => pushZeros r.x0.toInt

/-- `STORE`. -/
def store (r : Code.Record) : Step Unit := do
  let target ← match ← select (Code.Storage.ofCode? r.p0) with
    | .global => pure r.x1.toInt
    | .frame => frameAddress r.x1.toInt
    | _ => fail .badInstruction
  copy (← get).sp target r.x0.toInt
  release r.x0.toInt

/-- `CAST`. -/
def cast (r : Code.Record) : Step Unit := do
  let source ← select (Code.ValueType.ofCode? r.p0)
  let v ← popValue source r.x0.toInt
  let target ← select (Code.ValueType.ofCode? r.p1)
  pushValue (← lift (v.cast target)) r.x1.toInt

/-- `ADD` and the other operations on two operands. -/
def binary (op : Code.Opcode) (r : Code.Record) : Step Unit := do
  let type ← select (Code.ValueType.ofCode? r.p0)
  let left ← popValue type r.x0.toInt
  let right ← popValue type r.x1.toInt
  pushValue (← lift (Value.binary op left right)) r.x2.toInt

/-- `CMP`. -/
def compare (r : Code.Record) : Step Unit := do
  let type ← select (Code.ValueType.ofCode? r.p0)
  let comparison ← select (Code.Comparison.ofCode? r.p1)
  let left ← popValue type r.x0.toInt
  let right ← popValue type r.x1.toInt
  let result ← lift (Value.compare comparison left right)
  push [if result then 1 else 0]

/-- `NEG` and `NOT`. -/
def unary (f : Value → Except Fault Value) (r : Code.Record) : Step Unit := do
  let type ← select (Code.ValueType.ofCode? r.p0)
  let v ← popValue type r.x0.toInt
  pushValue (← lift (f v)) r.x0.toInt

/-- `SIGN`. -/
def sign (r : Code.Record) : Step Unit := do
  let type ← select (Code.ValueType.ofCode? r.p0)
  let v ← popValue type r.x0.toInt
  push (Word.ofInt 1 (← lift v.sign))

/-- The call of a native function, its return address being pushed. -/
def callNative (natives : Natives) (name : String) : Step Unit := fun m =>
  let outcome := natives.call name m.memory m.sp
  let m := { m with memory := outcome.memory, printed := m.printed ++ outcome.printed }
  match outcome.halt with
  | some h => .error h m
  | none => .ok () m

/-- `CALL`. -/
def call (natives : Natives) (r : Code.Record) : Step Unit := do
  pushInt (← following)
  match ← select (Code.CallKind.ofCode? r.p0) with
  | .user => goto r.x0.toInt
  | .native =>
    let name ← lift ((← get).memory.readString r.x0.toInt)
    callNative natives name
    goto (← popInt)

/-- `RET`. -/
def ret : Step Unit := do
  goto (← popInt)
  let m ← get
  if m.sp = m.entrySp then stop

/-- `ENTER`. -/
def enter (r : Code.Record) : Step Unit := do
  pushInt (← get).lp
  modify fun m => { m with lp := m.sp }
  let _ ← reserve r.x0.toInt

/-- `LEAVE`. -/
def leave (r : Code.Record) : Step Unit := do
  release r.x0.toInt
  let lp ← popInt
  modify fun m => { m with lp }

/-- `IF`. -/
def branch (r : Code.Record) : Step Unit := do
  let condition := (← pop 1).head? != some 0
  let on ← select (Code.BranchOn.ofCode? r.p0)
  if condition == (on == .true) then goto r.x0.toInt else advance

/-- An instruction with its operation. -/
def execute (natives : Natives) (r : Code.Record) : Code.Opcode → Step Unit
  | .NOP => advance
  | .LOAD => do load r; advance
  | .STORE => do store r; advance
  | .CAST => do cast r; advance
  | .POP => do
    let _ ← pop r.x0.toInt
    advance
  | .DUP => do
    push (← read (← get).sp r.x0.toInt)
    advance
  | .CALL => call natives r
  | .RET => ret
  | .ENTER => do enter r; advance
  | .LEAVE => do leave r; advance
  | .CMP => do compare r; advance
  | .SIGN => do sign r; advance
  | .NEG => do unary Value.negate r; advance
  | .NOT => do unary Value.complement r; advance
  | .IF => branch r
  | .JUMP => goto r.x0.toInt
  | .END => stop
  | op => do binary op r; advance

/-- One instruction. -/
def step (natives : Natives) : Step Unit := do
  let r ← fetch
  execute natives r (← select (Code.Opcode.ofCode? r.opcode))

/-- Prepares the call of a function; its result is found at the top of memory when the machine has
stopped.  Arguments of a wrong length change nothing. -/
def invoke (entry : Entry) (arguments : List UInt8) : Step Unit := do
  if arguments.length != entry.arguments then fail .badInstruction
  modify fun m =>
    { m with sp := m.memory.top, lp := m.memory.top, event := .running }
  pushZeros entry.result
  push arguments
  modify fun m => { m with entrySp := m.sp }
  pushInt 0
  goto entry.address

end Step

namespace Machine

/-- Does one step; whatever ends it ends the machine. -/
def tick (natives : Natives) (m : Machine) : Machine :=
  match (Step.step natives).run m with
  | .ok _ m => m
  | .error h m => { m with event := .halted h }

/-- Does at most `quota` steps. -/
def run (natives : Natives) : Nat → Machine → Machine
  | 0, m => m
  | quota + 1, m => if m.isRunning then run natives quota (m.tick natives) else m

/-- What can be seen of a machine beside its memory. -/
def view (m : Machine) : MachineView := ⟨m.event, m.ip, m.sp, m.lp⟩

/-- The machine without the texts it has printed. -/
def silent (m : Machine) : Machine := { m with printed := #[] }

end Machine

end ChannelBasic
