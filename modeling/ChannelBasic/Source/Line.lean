import ChannelBasic.Token.Lexer

/-!
# Source/Line — one line of a program

A line is its tokens together with the file and the number it has there, so that every location a
reader reports can be made from the line alone.
-/

namespace ChannelBasic

/-- The tokens of a line of a file. -/
structure Line where
  /-- The file's name. -/
  file : String
  /-- The line's number, the first one being 1. -/
  number : Nat
  /-- What stands on the line. -/
  tokens : List Token
  deriving Repr, Inhabited

namespace Line

/-- Reads the text of a line. -/
def read (file : String) (number : Nat) (text : String) : Checked Line := do
  return ⟨file, number, ← Lexer.lex file number text⟩

/-- Columns of this line. -/
def location (l : Line) (span : Span) : Location := ⟨l.file, l.number, span⟩

/-- The columns from the first token to the last. -/
def wholeSpan (tokens : List Token) : Span :=
  ⟨(tokens.head?.map (·.span.start)).getD 0, (tokens.getLast?.map (·.span.stop)).getD 0⟩

/-- The place of the line from its first token to its last. -/
def whole (l : Line) : Location := l.location (wholeSpan l.tokens)

/-- Whether the line starts with these reserved words. -/
def startsWith (l : Line) (ks : List Keyword) : Bool :=
  go ks l.tokens
where
  /-- The words against the tokens, one by one. -/
  go : List Keyword → List Token → Bool
    | [], _ => true
    | _ :: _, [] => false
    | k :: ks, t :: ts => t.isKeyword k && go ks ts

/-- The tokens written back, a blank between each two. -/
def chars (l : Line) : List Char := [' '].intercalate (l.tokens.map Token.chars)

/-- The line written back. -/
def render (l : Line) : String := String.ofList l.chars

end Line

end ChannelBasic
