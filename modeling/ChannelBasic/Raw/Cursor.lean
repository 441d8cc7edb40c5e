import ChannelBasic.Source.Line

/-!
# Raw/Cursor — reading the tokens of a line from left to right

A `Cursor` is what is left of a row of tokens.  Its `place` is that of the next token, or the empty
place after the last one.  `Reading` is a computation that moves a cursor or refuses the line.
-/

namespace ChannelBasic

/-- What is left to read of a row of tokens. -/
structure Cursor where
  /-- The line the tokens stand on. -/
  line : Line
  /-- The tokens not read yet. -/
  rest : List Token
  /-- The column after the last token of the row. -/
  stop : Nat

/-- A computation that moves a cursor, or refuses the line. -/
abbrev Reading := StateT Cursor Checked

namespace Cursor

/-- All of a row of tokens. -/
def ofTokens (line : Line) (tokens : List Token) : Cursor :=
  ⟨line, tokens, (Line.wholeSpan tokens).stop⟩

/-- All of a line. -/
def ofLine (line : Line) : Cursor := ofTokens line line.tokens

/-- Where the next token stands, or where the row ends. -/
def place (c : Cursor) : Location :=
  c.line.location (match c.rest with
    | t :: _ => t.span
    | [] => ⟨c.stop, c.stop⟩)

end Cursor

namespace Reading

/-- Reads all of a row of tokens. -/
def onTokens {α : Type} (line : Line) (tokens : List Token) (r : Reading α) : Checked α :=
  StateT.run' r (Cursor.ofTokens line tokens)

/-- Reads a line. -/
def onLine {α : Type} (line : Line) (r : Reading α) : Checked α := onTokens line line.tokens r

/-- Where the next token stands. -/
def place : Reading Location := return (← get).place

/-- The next token, if there is one. -/
def next : Reading (Option Token) := fun c =>
  match c.rest with
  | [] => .ok (none, c)
  | t :: rest => .ok (some t, { c with rest })

/-- The next token, left where it is. -/
def peek : Reading (Option Token) := return (← get).rest.head?

/-- Whether nothing is left. -/
def isEnd : Reading Bool := return (← get).rest.isEmpty

/-- Passes over a reserved word if it comes next. -/
def accept (k : Keyword) : Reading Bool := fun c =>
  match c.rest with
  | t :: rest => if t.isKeyword k then .ok (true, { c with rest }) else .ok (false, c)
  | [] => .ok (false, c)

/-- Passes over a reserved word that has to come next. -/
def expect (k : Keyword) (rule : Rule) : Reading Unit := do
  unless ← accept k do throw (rule.here (← place))

/-- A name that has to come next, with its place. -/
def ident (rule : Rule) : Reading (Location × String) := do
  let here ← place
  match ← next with
  | some (.leaf _ (.ident name)) => return (here, name)
  | _ => throw (rule.here here)

/-- Passes over an equals sign; what follows a wrong token is where it was missed. -/
def equals : Reading Unit := do
  match ← next with
  | some (.leaf _ (.symbol .equal)) => return
  | _ => throw (Rule.unexpectedSequence.about (← place) "EXPECTED =")

/-- Nothing may be left. -/
def finish : Reading Unit := do
  unless ← isEnd do throw (Rule.unexpectedSequence.here (← place))

/-- The tokens before the first one that `stops`. -/
def before (stops : Token → Bool) : Reading (List Token) := fun c =>
  .ok (c.rest.takeWhile (!stops ·), { c with rest := c.rest.dropWhile (!stops ·) })

end Reading

/-- Nothing may follow the first `n` tokens of a line. -/
def Line.endsAfter (l : Line) (n : Nat) : Checked Unit :=
  match l.tokens.drop n with
  | [] => .ok ()
  | t :: _ => .error (Rule.unexpectedSequence.here (l.location t.span))

end ChannelBasic
