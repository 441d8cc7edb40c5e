import ChannelBasic.Code.Instruction
import ChannelBasic.Diagnostic

/-!
# Code/Link — labels and the addresses they come to stand for

`Labels` hands out labels and binds each to an address, **once**.  `Link` knows where the static
data and the data sets start; it turns instructions into bytes, and refuses as long as a label has
no address.
-/

namespace ChannelBasic.Code

/-- The labels handed out so far, each with its address if it is bound. -/
structure Labels where
  addresses : Array (Option Int32)
  deriving DecidableEq, Repr, Inhabited

namespace Labels

/-- No labels yet. -/
def empty : Labels := ⟨#[]⟩

/-- How many labels there are. -/
def size (ls : Labels) : Nat := ls.addresses.size

/-- Hands out a label. -/
def create (ls : Labels) : Label × Labels := (⟨ls.size⟩, ⟨ls.addresses.push none⟩)

/-- A fault of the compiler about a label. -/
def fault (before : String) (n : Nat) (after : String) : Diagnostic :=
  Rule.internalError.nowhere (before ++ Decimal.ofInt n ++ after)

/-- Binds a label to an address, unless it is bound already or not one of these. -/
def bind (ls : Labels) (l : Label) (address : Int32) : Checked Labels :=
  match ls.addresses[l.number]? with
  | some none => .ok ⟨ls.addresses.setIfInBounds l.number (some address)⟩
  | some (some _) => .error (fault "LABEL " l.number " BOUND TWICE")
  | none => .error (fault "UNKNOWN LABEL " l.number "")

/-- The address of a label that is bound. -/
def address? (ls : Labels) (l : Label) : Option Int32 := (ls.addresses[l.number]?).join

/-- A label that cannot be resolved. -/
def unresolved (n : Nat) : Diagnostic := fault "UNRESOLVED LABEL " n ""

end Labels

/-- What is known when a module is linked. -/
structure Link where
  labels : Labels
  /-- Where the static data starts. -/
  staticBase : Int32
  /-- Where the data sets start. -/
  dynamicBase : Int32

namespace Link

/-- The number an operand comes to stand for. -/
def resolve (l : Link) : Operand → Checked Int32
  | .value n => .ok n
  | .static offset => .ok (l.staticBase + offset)
  | .dynamic offset => .ok (l.dynamicBase + offset)
  | .label label =>
    match l.labels.address? label with
    | some address => .ok address
    | none => .error (Labels.unresolved label.number)

/-- The records of some code. -/
def records (l : Link) (code : List Instruction) : Checked (List Record) :=
  code.mapM (Instruction.resolve l.resolve)

/-- The bytes of some code; all labels have to be bound, used or not. -/
def link (l : Link) (code : List Instruction) : Checked (List UInt8) :=
  match l.labels.addresses.findIdx? Option.isNone with
  | some index => .error (Labels.unresolved index)
  | none => do return (← l.records code).flatMap Record.encode

end Link

end ChannelBasic.Code
