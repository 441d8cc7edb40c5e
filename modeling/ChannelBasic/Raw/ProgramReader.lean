import ChannelBasic.Raw.StmtReader

/-!
# Raw/ProgramReader — from lines to a program

Sections of a program, read in their order; the first fault ends the reading.  Module names, type
names, data sets of one access and functions of one place may not repeat, and modules are kept in
the order of their names.
-/

namespace ChannelBasic.Raw

/-! ## Functions -/

/-- The head of a native function, after `DECLARE`. -/
def nativeHead : Reading Function := do
  Reading.expect .FUNCTION .unexpectedSequence
  let (location, name) ← Reading.ident .expectedFunctionName
  let line := (← get).line
  let arguments ← (← Reading.parenthesised).mapM fun piece =>
    Reading.onTokens line piece (do
      let type ← Reading.dataType
      Reading.finish
      return type)
  return ⟨location, name, ← Reading.returns, .native arguments⟩

/-- The head of a function with a body, after `FUNCTION`. -/
def userHead : Reading (Location × String × List Field × Option DataType) := do
  let (location, name) ← Reading.ident .expectedFunctionName
  let line := (← get).line
  let arguments ← (← Reading.parenthesised).mapM fun piece =>
    Reading.onTokens line piece (Reading.field .expectedArgument)
  return (location, name, arguments, ← Reading.returns)

/-- The function that starts with a line. -/
def function (bound : Nat) (line : Line) : LineReading Function := do
  if line.startsWith [.DECLARE] then afterWord line nativeHead
  else if line.startsWith [.FUNCTION] then
    let (location, name, arguments, returns) ← afterWord line userHead
    let (body, last) ← statements bound line.whole "FUNCTION" fun l =>
      l.startsWith [.END, .FUNCTION]
    last.endsAfter 2
    return ⟨location, name, returns, .user arguments body⟩
  else throw (Rule.unexpectedSequence.here line.whole)

/-- Refuses a function whose name is taken. -/
def freshFunction (taken : List Function) (f : Function) : Checked Unit :=
  if taken.any fun g => g.name == f.name then
    .error (Rule.functionAlreadyExists.about f.location f.name)
  else .ok ()

/-- The functions of a code block, `found` being those before. -/
def blockFunctions (opened : Location) : Nat → List Function → LineReading (List Function)
  | 0, _ => do throw (notClosed opened "CODE")
  | bound + 1, found => do
    let line ← nextLine opened "CODE"
    if line.startsWith [.END, .CODE] then
      line.endsAfter 2
      return found
    let f ← function bound line
    freshFunction found f
    blockFunctions opened bound (found ++ [f])

/-- A code block opened by a line. -/
def codeBlock (bound : Nat) (line : Line) (executors : List String) : LineReading CodeBlock := do
  return ⟨line.whole, executors, ← blockFunctions line.whole bound []⟩

/-! ## Modules -/

/-- The functions of all code blocks of a module. -/
def Module.functions (m : Module) : List Function := m.codeBlocks.flatMap (·.functions)

/-- Adds a function that stands outside a code block.  Such functions share a block, located like
the module, with the ones right before them. -/
def Module.addFunction (m : Module) (f : Function) : Module :=
  match m.codeBlocks.getLast? with
  | some block =>
    if block.location = m.location then
      { m with codeBlocks :=
          m.codeBlocks.dropLast ++ [{ block with functions := block.functions ++ [f] }] }
    else { m with codeBlocks := m.codeBlocks ++ [⟨m.location, [], [f]⟩] }
  | none => { m with codeBlocks := m.codeBlocks ++ [⟨m.location, [], [f]⟩] }

/-- The fields of a section. -/
def fieldSection (opened : Location) (section_ : Keyword) : LineReading (List Field) :=
  entries opened section_ fieldLine

/-- A data set opened by a line. -/
def dataSet (line : Line) : LineReading DataSet := do
  let access ← afterWord line (do
    let access ← Reading.access
    Reading.finish
    return access)
  return ⟨line.whole, access, ← fieldSection line.whole .DATA⟩

/-- One part of a module, starting with a line. -/
def modulePart (bound : Nat) (m : Module) (line : Line) : LineReading Module := do
  if line.startsWith [.DATA] then
    let data ← dataSet line
    if m.dataSets.any fun d => d.access == data.access then
      throw (Rule.duplicateDataSet.about data.location data.access.spelling)
    return { m with dataSets := m.dataSets ++ [data] }
  else if line.startsWith [.CODE] then
    line.endsAfter 1
    let block ← codeBlock bound line []
    block.functions.forM fun f => (freshFunction m.functions f : LineReading Unit)
    return { m with codeBlocks := m.codeBlocks ++ [block] }
  else if line.startsWith [.FUNCTION] || line.startsWith [.DECLARE] then
    let f ← function bound line
    freshFunction m.functions f
    return m.addFunction f
  else throw (Rule.unexpectedSequence.here line.whole)

/-- The parts of a module up to its end. -/
def moduleParts (opened : Location) : Nat → Module → LineReading Module
  | 0, _ => do throw (notClosed opened "MODULE")
  | bound + 1, m => do
    let line ← nextLine opened "MODULE"
    if line.startsWith [.END, .MODULE] then
      line.endsAfter 2
      return m
    moduleParts opened bound (← modulePart bound m line)

/-- The head of a module, after `MODULE`: its name and its executor. -/
def moduleHead : Reading Module := do
  let (location, name) ← Reading.ident .expectedModuleName
  let (_, executor) ← Reading.ident .expectedModuleExecutor
  Reading.finish
  return ⟨location, name, executor, [], []⟩

/-- **Modules stay sorted by name**; a name that is taken is refused. -/
def insertModule (m : Module) : List Module → Checked (List Module)
  | [] => .ok [m]
  | n :: rest =>
    if m.name == n.name then .error (Rule.moduleAlreadyExists.about m.location m.name)
    else if m.name < n.name then .ok (m :: n :: rest)
    else do return n :: (← insertModule m rest)

/-! ## Programs -/

/-- The head of a structured type, after `TYPE`. -/
def structHead : Reading (Location × String) := do
  let head ← Reading.ident .expectedTypeName
  Reading.finish
  return head

/-- A structured type opened by a line. -/
def struct (line : Line) : LineReading Struct := do
  let (location, name) ← afterWord line structHead
  return ⟨location, name, ← fieldSection line.whole .TYPE⟩

/-- One section of a program, starting with a line. -/
def programPart (bound : Nat) (p : Program) (line : Line) : LineReading Program := do
  if line.startsWith [.CONST] then
    line.endsAfter 1
    let found ← entries line.whole .CONST constantLine
    return { p with constants := p.constants ++ found }
  else if line.startsWith [.TYPE] then
    let s ← struct line
    if p.structs.any fun t => t.name == s.name then
      throw (Rule.typeAlreadyExists.about s.location s.name)
    return { p with structs := p.structs ++ [s] }
  else if line.startsWith [.CODE] then
    let executors ← afterWord line Reading.executors
    let block ← codeBlock bound line executors
    return { p with libraries := p.libraries ++ [block] }
  else if line.startsWith [.MODULE] then
    let head ← afterWord line moduleHead
    let m ← moduleParts line.whole bound head
    return { p with modules := ← insertModule m p.modules }
  else if line.startsWith [.TRANSMISSION] then
    line.endsAfter 1
    let found ← entries line.whole .TRANSMISSION channelLine
    return { p with channels := p.channels ++ found }
  else throw (Rule.unexpectedSequence.here line.whole)

/-- The sections of a program. -/
def programParts : Nat → Program → LineReading Program
  | 0, p => return p
  | bound + 1, p => do
    match ← get with
    | [] => return p
    | line :: rest =>
      set rest
      programParts bound (← programPart bound p line)

/-- Reads the lines of a program. -/
def Program.ofLines (lines : List Line) : Checked Program :=
  (programParts lines.length .empty).run' lines

end ChannelBasic.Raw
