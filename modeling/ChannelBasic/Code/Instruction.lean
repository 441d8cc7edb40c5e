import ChannelBasic.Code.Record

/-!
# Code/Instruction — instructions before their addresses are known

An `Operand` is a number, or an address that is known only once the code is laid out: a label, a
place in the static data or a place in the data sets.  `resolve` replaces such operands and gives
the record.
-/

namespace ChannelBasic.Code

/-- A code address that is not known yet. -/
structure Label where
  number : Nat
  deriving DecidableEq, Repr, Inhabited

/-- A 32-bit operand. -/
inductive Operand where
  | value (n : Int32)
  | label (label : Label)
  /-- An offset into the static data. -/
  | static (offset : Int32)
  /-- An offset into the data sets. -/
  | dynamic (offset : Int32)
  deriving DecidableEq, Repr, Inhabited

/-- An instruction whose operands may still be symbolic. -/
structure Instruction where
  opcode : Opcode
  p0 : UInt8
  p1 : UInt8
  x0 : Operand
  x1 : Operand
  x2 : Operand
  deriving DecidableEq, Repr, Inhabited

namespace Instruction

/-- An instruction with numbers only. -/
def plain (opcode : Opcode) (p0 p1 : UInt8) (x0 x1 x2 : Int32) : Instruction :=
  ⟨opcode, p0, p1, .value x0, .value x1, .value x2⟩

/-- Push `size` bytes from a place. -/
def load (storage : Storage) (size : Int32) (place : Operand) : Instruction :=
  ⟨.LOAD, storage.code, 0, .value size, place, .value 0⟩

/-- Push the low `size` bytes of a number, which lies in the last two operands. -/
def loadImmediate (size : Int32) (value : Int64) : Instruction :=
  plain .LOAD Storage.immediate.code 0 size value.toInt32 (value >>> 32).toInt32

/-- Pop `size` bytes into a place. -/
def store (storage : Storage) (size : Int32) (place : Operand) : Instruction :=
  ⟨.STORE, storage.code, 0, .value size, place, .value 0⟩

/-- Replace the value on top by the same value in another type. -/
def cast (source : ValueType) (sourceSize : Int32) (target : ValueType) (targetSize : Int32) :
    Instruction :=
  plain .CAST source.code target.code sourceSize targetSize 0

/-- Drop `size` bytes. -/
def pop (size : Int32) : Instruction := plain .POP 0 0 size 0 0

/-- Push the `size` bytes on top again. -/
def dup (size : Int32) : Instruction := plain .DUP 0 0 size 0 0

/-- Push the address of the next instruction and go to a function. -/
def call (kind : CallKind) (target : Operand) : Instruction :=
  ⟨.CALL, kind.code, 0, target, .value 0, .value 0⟩

/-- Go to the address on top. -/
def ret : Instruction := plain .RET 0 0 0 0 0

/-- Open a frame with `size` bytes of locals. -/
def enter (size : Int32) : Instruction := plain .ENTER 0 0 size 0 0

/-- Close a frame with `size` bytes of locals. -/
def leave (size : Int32) : Instruction := plain .LEAVE 0 0 size 0 0

/-- Replace two operands by the result of an operation. -/
def binary (op : Opcode) (type : ValueType) (left right result : Int32) : Instruction :=
  plain op type.code 0 left right result

/-- Replace two operands by the BOOLEAN of a comparison. -/
def compare (type : ValueType) (comparison : Comparison) (left right : Int32) : Instruction :=
  plain .CMP type.code comparison.code left right 0

/-- Replace the value on top: `NEG`, `NOT` and `SIGN`. -/
def unary (op : Opcode) (type : ValueType) (size : Int32) : Instruction :=
  plain op type.code 0 size 0 0

/-- Pop a BOOLEAN and go to a label if it has a value. -/
def branch (on : BranchOn) (target : Label) : Instruction :=
  ⟨.IF, on.code, 0, .label target, .value 0, .value 0⟩

/-- Go to a label. -/
def jump (target : Label) : Instruction :=
  ⟨.JUMP, 0, 0, .label target, .value 0, .value 0⟩

/-- Stop the machine. -/
def finish : Instruction := plain .END 0 0 0 0 0

/-- The record of an instruction, once `address` knows its operands. -/
def resolve {m : Type → Type} [Monad m] (address : Operand → m Int32) (i : Instruction) :
    m Record := do
  return ⟨i.opcode.code, i.p0, i.p1, 0, ← address i.x0, ← address i.x1, ← address i.x2⟩

end Instruction

end ChannelBasic.Code
