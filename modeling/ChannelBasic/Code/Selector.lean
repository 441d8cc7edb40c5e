/-!
# Code/Selector — the one-byte operands of an instruction

Each instruction says with up to three bytes what kind of thing it works on.  `code` and `ofCode?`
go between a kind and its byte; a byte that stands for nothing makes the instruction a bad one.
-/

namespace ChannelBasic.Code

/-- Where a `LOAD` takes its bytes from and a `STORE` puts them. -/
inductive Storage where
  | global | frame | immediate | framePointer | zero
  deriving DecidableEq, Repr, Inhabited

namespace Storage

/-- How a storage is written in a record. -/
def code : Storage → UInt8
  | .global => 0
  | .frame => 1
  | .immediate => 2
  | .framePointer => 3
  | .zero => 4

/-- How a storage is written in a listing. -/
def spelling : Storage → String
  | .global => "GLOBAL"
  | .frame => "LOCAL"
  | .immediate => "IMMEDIATE"
  | .framePointer => "LOCAL_POINTER"
  | .zero => "ZERO"

/-- All there are. -/
def all : List Storage :=
  [.global, .frame, .immediate, .framePointer, .zero]

/-- What a byte of a record stands for. -/
def ofCode? (b : UInt8) : Option Storage := all.find? fun x => x.code == b

theorem ofCode?_code (x : Storage) : ofCode? x.code = some x := by cases x <;> rfl

end Storage

/-- What the bytes on the stack are. -/
inductive ValueType where
  | unknown | pointer | boolean | byte | short | integer | long | real | string
  | array | struct
  deriving DecidableEq, Repr, Inhabited

namespace ValueType

/-- How a type is written in a record. -/
def code : ValueType → UInt8
  | .unknown => 0
  | .pointer => 1
  | .boolean => 2
  | .byte => 3
  | .short => 4
  | .integer => 5
  | .long => 6
  | .real => 7
  | .string => 8
  | .array => 9
  | .struct => 10

/-- How a type is written in a listing. -/
def spelling : ValueType → String
  | .unknown => "UNKNOWN"
  | .pointer => "POINTER"
  | .boolean => "BOOLEAN"
  | .byte => "BYTE"
  | .short => "SHORT"
  | .integer => "INTEGER"
  | .long => "LONG"
  | .real => "REAL"
  | .string => "STRING"
  | .array => "ARRAY"
  | .struct => "STRUCT"

/-- All there are. -/
def all : List ValueType :=
  [.unknown, .pointer, .boolean, .byte, .short, .integer, .long, .real, .string, .array,
   .struct]

/-- What a byte of a record stands for. -/
def ofCode? (b : UInt8) : Option ValueType := all.find? fun x => x.code == b

theorem ofCode?_code (x : ValueType) : ofCode? x.code = some x := by cases x <;> rfl

/-- The whole numbers. -/
def isIntegral : ValueType → Bool
  | .byte | .short | .integer | .long => true
  | _ => false

end ValueType

/-- Which orders a comparison accepts. -/
inductive Comparison where
  | equal | different | less | lessEqual | greater | greaterEqual
  deriving DecidableEq, Repr, Inhabited

namespace Comparison

/-- How a comparison is written in a record. -/
def code : Comparison → UInt8
  | .equal => 0
  | .different => 1
  | .less => 2
  | .lessEqual => 3
  | .greater => 4
  | .greaterEqual => 5

/-- How a comparison is written in a listing. -/
def spelling : Comparison → String
  | .equal => "EQ"
  | .different => "DIFF"
  | .less => "LESS"
  | .lessEqual => "LEQ"
  | .greater => "GT"
  | .greaterEqual => "GEQ"

/-- All there are. -/
def all : List Comparison :=
  [.equal, .different, .less, .lessEqual, .greater, .greaterEqual]

/-- What a byte of a record stands for. -/
def ofCode? (b : UInt8) : Option Comparison := all.find? fun x => x.code == b

theorem ofCode?_code (x : Comparison) : ofCode? x.code = some x := by cases x <;> rfl

/-- Whether an order is accepted. -/
def accepts : Comparison → Ordering → Bool
  | .equal, o => o == .eq
  | .different, o => o != .eq
  | .less, o => o == .lt
  | .lessEqual, o => o != .gt
  | .greater, o => o == .gt
  | .greaterEqual, o => o != .lt

end Comparison

/-- Who is called. -/
inductive CallKind where
  | native | user
  deriving DecidableEq, Repr, Inhabited

namespace CallKind

/-- How a kind of call is written in a record. -/
def code : CallKind → UInt8
  | .native => 0
  | .user => 1

/-- How a kind of call is written in a listing. -/
def spelling : CallKind → String
  | .native => "NATIVE"
  | .user => "USER_DEFINED"

/-- All there are. -/
def all : List CallKind :=
  [.native, .user]

/-- What a byte of a record stands for. -/
def ofCode? (b : UInt8) : Option CallKind := all.find? fun x => x.code == b

theorem ofCode?_code (x : CallKind) : ofCode? x.code = some x := by cases x <;> rfl

end CallKind

/-- The value on which an `IF` branches. -/
inductive BranchOn where
  | false | true
  deriving DecidableEq, Repr, Inhabited

namespace BranchOn

/-- How a branch is written in a record. -/
def code : BranchOn → UInt8
  | .false => 0
  | .true => 1

/-- How a branch is written in a listing. -/
def spelling : BranchOn → String
  | .false => "FALSE"
  | .true => "TRUE"

/-- All there are. -/
def all : List BranchOn :=
  [.false, .true]

/-- What a byte of a record stands for. -/
def ofCode? (b : UInt8) : Option BranchOn := all.find? fun x => x.code == b

theorem ofCode?_code (x : BranchOn) : ofCode? x.code = some x := by cases x <;> rfl

end BranchOn

end ChannelBasic.Code
