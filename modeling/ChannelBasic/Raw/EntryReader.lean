import ChannelBasic.Raw.ExprReader
import ChannelBasic.Raw.Program

/-!
# Raw/EntryReader — declarations that take one line

Types, fields, constants, channels and the heads of functions.  `entries` reads such lines up to
the line that closes their section.
-/

namespace ChannelBasic

namespace Reading

/-- A type whose words are at most `bound` many.  `CONST CONST` is `CONST`. -/
def typeWithin : Nat → Reading Raw.DataType
  | 0 => do throw (Rule.expectedDataType.here (← place))
  | bound + 1 => do
    let here ← place
    match ← next with
    | some (.leaf _ (.ident name)) => return .named here name
    | some (.leaf _ (.keyword .BOOLEAN)) => return .scalar .boolean
    | some (.leaf _ (.keyword .BYTE)) => return .scalar .byte
    | some (.leaf _ (.keyword .SHORT)) => return .scalar .short
    | some (.leaf _ (.keyword .INTEGER)) => return .scalar .integer
    | some (.leaf _ (.keyword .LONG)) => return .scalar .long
    | some (.leaf _ (.keyword .REAL)) => return .scalar .real
    | some (.leaf _ (.keyword .STRING)) =>
      if ← accept .OF then return .stringOf (← Reading.expr []) else return .string
    | some (.leaf _ (.keyword .POINTER)) =>
      expect .TO .expectedToKeyword
      return .pointer (← typeWithin bound)
    | some (.leaf _ (.keyword .CONST)) =>
      match ← typeWithin bound with
      | .constant base => return .constant base
      | base => return .constant base
    | _ => throw (Rule.expectedDataType.here here)

/-- A type. -/
def dataType : Reading Raw.DataType := do typeWithin (← get).rest.length

/-- A field or an argument: its name, `AS` and its type, and nothing else. -/
def field (rule : Rule) : Reading Raw.Field := do
  let (location, name) ← ident rule
  expect .AS .expectedAsKeyword
  let type ← dataType
  finish
  return ⟨location, name, type⟩

/-- A type after `AS`, if `AS` comes next. -/
def asType : Reading (Option Raw.DataType) := do
  if ← accept .AS then return some (← dataType) else return none

/-- A constant: its name, its value and perhaps its type. -/
def constant : Reading Raw.Constant := do
  let (location, name) ← ident .expectedVariableName
  equals
  let value ← Reading.expr [.AS]
  let type ← asType
  finish
  return ⟨location, name, type, value⟩

/-- One end of a channel. -/
def endpoint : Reading Endpoint := do
  let (_, owner) ← ident .expectedModuleName
  match ← next with
  | some (.leaf _ .dot) =>
    let (_, field) ← ident .expectedFieldName
    return ⟨owner, field⟩
  | _ => throw (Rule.expectedFieldName.here (← place))

/-- A channel: its source, `TO` and its destination. -/
def channel (location : Location) : Reading Raw.Channel := do
  let source ← endpoint
  expect .TO .expectedToKeyword
  let destination ← endpoint
  finish
  return ⟨location, source, destination⟩

/-- The pieces between the parentheses that have to come next. -/
def parenthesised : Reading (List (List Token)) := do
  let here ← place
  match ← next with
  | some (.group _ inner) => Raw.pieces (← get).line here inner
  | _ => throw (Rule.missedBracket.here here)

/-- What a function returns: nothing, or the type after `AS`; nothing else may follow. -/
def returns : Reading (Option Raw.DataType) := do
  if ← isEnd then return none
  expect .AS .expectedAsKeyword
  let type ← dataType
  finish
  return some type

/-- The executors of a code block, between commas; there may be none. -/
def executorsFrom : Nat → Reading (List String)
  | 0 => return []
  | bound + 1 => do
    let (_, name) ← ident .expectedModuleExecutor
    let here ← place
    match ← next with
    | none => return [name]
    | some t =>
      if t.isComma then return name :: (← executorsFrom bound)
      else throw (Rule.expectedComma.here here)

/-- The executors of a code block. -/
def executors : Reading (List String) := do
  if ← isEnd then return []
  executorsFrom ((← get).rest.length + 1)

/-- Which data a data set holds: hidden data, if nothing else is said. -/
def access : Reading Access := do
  let here ← place
  match ← next with
  | none => return .hidden
  | some (.leaf _ (.keyword .PRIVATE)) => return .hidden
  | some (.leaf _ (.keyword .INPUT)) => return .input
  | some (.leaf _ (.keyword .OUTPUT)) => return .output
  | some _ => throw (Rule.invalidDataPrefix.here here)

end Reading

namespace Raw

/-- A section that the text ends within. -/
def notClosed (opened : Location) (what : String) : Diagnostic :=
  Rule.unexpectedEndOfFile.about opened (what ++ " IS NOT CLOSED")

/-- Entries of one line each, up to the line `END` with the section's word. -/
def entries {α : Type} (opened : Location) (section_ : Keyword) (entry : Line → Checked α) :
    List Line → Checked (List α × List Line)
  | [] => .error (notClosed opened section_.spelling)
  | line :: rest => do
    if line.startsWith [.END, section_] then
      line.endsAfter 2
      return ([], rest)
    else
      let a ← entry line
      let (more, rest) ← entries opened section_ entry rest
      return (a :: more, rest)

/-- A field on a line of its own. -/
def fieldLine (line : Line) : Checked Field :=
  Reading.onLine line (Reading.field .expectedFieldName)

/-- A constant on a line of its own. -/
def constantLine (line : Line) : Checked Constant := Reading.onLine line Reading.constant

/-- A channel on a line of its own. -/
def channelLine (line : Line) : Checked Channel :=
  Reading.onLine line (Reading.channel line.whole)

end Raw

end ChannelBasic
