import ChannelBasic.Raw.EntryReader

/-!
# Raw/StmtReader — from lines to statements

A statement takes a line, or a line that opens it, further statements and a line that closes it.
`statements` reads up to a closing line.  Each step uses up at least one line, so as many steps as
there are lines are enough: when the steps run out, so have the lines.
-/

namespace ChannelBasic

/-- A computation that takes lines from the front of a text. -/
abbrev LineReading := StateT (List Line) Checked

namespace Raw

/-- The next line of a section that has to be closed. -/
def nextLine (opened : Location) (what : String) : LineReading Line := fun
  | [] => .error (notClosed opened what)
  | line :: rest => .ok (line, rest)

/-- Reads statements of the section opened at a place, up to a line that closes it. -/
abbrev BlockReader := Location → String → (Line → Bool) → LineReading (List Stmt × Line)

/-! ## Statements on one line -/

/-- A declaration of a variable, after `VAR`: a value, a type or both. -/
def varStmt (location : Location) : Reading Stmt := do
  let (_, name) ← Reading.ident .expectedVariableName
  let value ← match ← Reading.peek with
    | some (.leaf _ (.symbol .equal)) =>
      let _ ← Reading.next
      pure (some (← Reading.expr [.AS]))
    | _ => pure none
  let type ← Reading.asType
  Reading.finish
  if value.isNone && type.isNone then
    throw (Rule.expectedAsKeyword.here (← Reading.place))
  return .var location name type value

/-- A return, after `RETURN`. -/
def returnStmt (location : Location) : Reading Stmt := do
  if ← Reading.isEnd then return .return location none
  return .return location (some (← Reading.expr []))

/-- An assignment or a call. -/
def assignStmt (location : Location) : Reading Stmt := do
  let line := (← get).line
  let target ← Reading.before (Token.isSymbol .equal)
  if ← Reading.isEnd then
    let e ← expr line location target
    if e.isCall then return .call location e
    throw (Rule.unexpectedSequence.here location)
  let equal ← Reading.place
  let _ ← Reading.next
  let target ← expr line location target
  let value ← expr line equal (← get).rest
  return .assign location target value

/-! ## Heads and ends of compound statements -/

/-- The condition of an `IF`, up to `THEN`. -/
def ifHead : Reading Expr := do
  let condition ← Reading.expr [.THEN]
  Reading.expect .THEN .expectedThenKeyword
  Reading.finish
  return condition

/-- What a counting loop is told in its first line. -/
structure CountHead where
  place : Location
  name : String
  start : Expr
  finish : Expr
  step : Option Expr

/-- The first line of a counting loop, after `FOR`. -/
def countHead : Reading CountHead := do
  let (place, name) ← Reading.ident .expectedVariableName
  Reading.equals
  let start ← Reading.expr [.TO]
  Reading.expect .TO .expectedToKeyword
  let finish ← Reading.expr [.STEP]
  let step ← if ← Reading.accept .STEP then pure (some (← Reading.expr [])) else pure none
  Reading.finish
  return ⟨place, name, start, finish, step⟩

/-- The last line of a counting loop, after `NEXT`: nothing, or the counter's name again. -/
def countEnd (name : String) : Reading Unit := do
  unless ← Reading.isEnd do
    let (place, again) ← Reading.ident .expectedVariableName
    if again != name then throw (Rule.counterDoesNotMatch.about place again)
    Reading.finish

/-- A loop's condition, if it has one here. -/
def loopCondition (post : Bool) : Reading (Option Condition) := do
  if ← Reading.accept .WHILE then return some ⟨post, false, ← Reading.expr []⟩
  if ← Reading.accept .UNTIL then return some ⟨post, true, ← Reading.expr []⟩
  return none

/-- A loop's condition after `LOOP`; a loop has one condition at most. -/
def loopEnd (line : Line) (condition : Option Condition) : Reading (Option Condition) := do
  let post ← loopCondition true
  if post.isSome && condition.isSome then throw (Rule.unexpectedSequence.here line.whole)
  Reading.finish
  return post <|> condition

/-! ## Compound statements -/

/-- The branches of an `IF` from a branch's condition on. -/
def branches (block : BlockReader) (opened : Location) : Nat → Expr → LineReading Branches
  | 0, _ => do throw (notClosed opened "IF")
  | bound + 1, condition => do
    let (body, closing) ← block opened "IF" fun l =>
      l.startsWith [.ELSE] || l.startsWith [.END, .IF]
    if closing.startsWith [.END] then
      closing.endsAfter 2
      return .branch condition body .done
    else if closing.startsWith [.ELSE, .IF] then
      let next ← Reading.onTokens closing closing.tokens (do
        let _ ← Reading.next
        let _ ← Reading.next
        ifHead)
      return .branch condition body (← branches block opened bound next)
    else
      closing.endsAfter 1
      let (otherwise, last) ← block opened "IF" fun l => l.startsWith [.END, .IF]
      last.endsAfter 2
      return .branch condition body (.otherwise otherwise)

/-- Reads a line after its first word. -/
def afterWord {α : Type} (line : Line) (r : Reading α) : Checked α :=
  Reading.onLine line (do
    let _ ← Reading.next
    r)

/-- An `IF`. -/
def chooseStmt (block : BlockReader) (bound : Nat) (line : Line) : LineReading Stmt := do
  let condition ← afterWord line ifHead
  return .choose line.whole (← branches block line.whole bound condition)

/-- A `FOR`. -/
def countStmt (block : BlockReader) (line : Line) : LineReading Stmt := do
  let head ← afterWord line countHead
  let (body, last) ← block line.whole "FOR" fun l => l.startsWith [.NEXT]
  afterWord last (countEnd head.name)
  return .count line.whole (.name head.place head.name) head.start head.finish head.step body

/-- A `DO`. -/
def loopStmt (block : BlockReader) (line : Line) : LineReading Stmt := do
  let condition ← afterWord line (do
    let condition ← loopCondition false
    Reading.finish
    return condition)
  let (body, last) ← block line.whole "DO" fun l => l.startsWith [.LOOP]
  let condition ← afterWord last (loopEnd last condition)
  return .loop line.whole condition body

/-- The statement that starts with a line. -/
def stmt (block : BlockReader) (bound : Nat) (line : Line) : LineReading Stmt :=
  match line.tokens with
  | .leaf _ (.keyword .VAR) :: _ => do afterWord line (varStmt line.whole)
  | .leaf _ (.keyword .RETURN) :: _ => do afterWord line (returnStmt line.whole)
  | .leaf _ (.keyword .IF) :: _ => chooseStmt block bound line
  | .leaf _ (.keyword .FOR) :: _ => countStmt block line
  | .leaf _ (.keyword .DO) :: _ => loopStmt block line
  | .leaf _ (.ident _) :: _ => do Reading.onLine line (assignStmt line.whole)
  | _ => do throw (Rule.unexpectedSequence.here line.whole)

/-- Statements up to a closing line, in at most `bound` lines. -/
def statements : Nat → BlockReader
  | 0, opened, what, _ => do throw (notClosed opened what)
  | bound + 1, opened, what, closes => do
    let line ← nextLine opened what
    if closes line then return ([], line)
    let s ← stmt (statements bound) bound line
    let (more, closing) ← statements bound opened what closes
    return (s :: more, closing)

end Raw

end ChannelBasic
