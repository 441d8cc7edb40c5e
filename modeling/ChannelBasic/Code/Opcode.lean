/-!
# Code/Opcode — what an instruction does

The machine has three registers, the instruction pointer, the stack pointer and the frame pointer;
all other values live on the stack, which grows downwards.  A binary operation finds its left
operand on top of the stack and the right one below it.
-/

namespace ChannelBasic.Code

/-- Operations of the machine, each named as it is spelled. -/
inductive Opcode where
  | NOP | LOAD | STORE | CAST | POP | DUP | CALL | RET | ENTER
  | LEAVE | ADD | SUB | MUL | DIV | MOD | AND | OR | XOR
  | CMP | SIGN | IF | JUMP | NEG | NOT | SHL | SHR | END
  deriving DecidableEq, Repr, Inhabited

namespace Opcode

/-- How an operation is written in a record. -/
def code : Opcode → UInt8
  | .NOP => 0
  | .LOAD => 1
  | .STORE => 2
  | .CAST => 3
  | .POP => 4
  | .DUP => 5
  | .CALL => 6
  | .RET => 7
  | .ENTER => 8
  | .LEAVE => 9
  | .ADD => 10
  | .SUB => 11
  | .MUL => 12
  | .DIV => 13
  | .MOD => 14
  | .AND => 15
  | .OR => 16
  | .XOR => 17
  | .CMP => 18
  | .SIGN => 19
  | .IF => 20
  | .JUMP => 21
  | .NEG => 22
  | .NOT => 23
  | .SHL => 24
  | .SHR => 25
  | .END => 127

/-- How an operation is written in a listing. -/
def spelling : Opcode → String
  | .NOP => "NOP"
  | .LOAD => "LOAD"
  | .STORE => "STORE"
  | .CAST => "CAST"
  | .POP => "POP"
  | .DUP => "DUP"
  | .CALL => "CALL"
  | .RET => "RET"
  | .ENTER => "ENTER"
  | .LEAVE => "LEAVE"
  | .ADD => "ADD"
  | .SUB => "SUB"
  | .MUL => "MUL"
  | .DIV => "DIV"
  | .MOD => "MOD"
  | .AND => "AND"
  | .OR => "OR"
  | .XOR => "XOR"
  | .CMP => "CMP"
  | .SIGN => "SIGN"
  | .IF => "IF"
  | .JUMP => "JUMP"
  | .NEG => "NEG"
  | .NOT => "NOT"
  | .SHL => "SHL"
  | .SHR => "SHR"
  | .END => "END"

/-- All there are. -/
def all : List Opcode :=
  [.NOP, .LOAD, .STORE, .CAST, .POP, .DUP, .CALL, .RET, .ENTER, .LEAVE, .ADD, .SUB, .MUL,
   .DIV, .MOD, .AND, .OR, .XOR, .CMP, .SIGN, .IF, .JUMP, .NEG, .NOT, .SHL, .SHR, .END]

/-- What a byte of a record stands for. -/
def ofCode? (b : UInt8) : Option Opcode := all.find? fun x => x.code == b

theorem ofCode?_code (x : Opcode) : ofCode? x.code = some x := by cases x <;> rfl

/-- Operations on two operands with a result. -/
def isBinary : Opcode → Bool
  | .ADD | .SUB | .MUL | .DIV | .MOD | .AND | .OR | .XOR | .SHL | .SHR => true
  | _ => false

end Opcode

end ChannelBasic.Code
