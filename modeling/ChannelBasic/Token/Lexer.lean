import ChannelBasic.Diagnostic
import ChannelBasic.Token

/-!
# Token/Lexer — from characters to tokens

`scan` reads one word and says how many further characters it used; `flat` repeats it over a text,
leaving out blanks and the comment; `group` then pairs the parentheses.  All words are read before
any parenthesis is paired, so a bad word is reported before an unmatched parenthesis.
-/

namespace ChannelBasic.Lexer

/-- Characters between words. -/
def isBlank (c : Char) : Bool := c == ' ' || c == '\t' || c == '\r' || c == '\n'

/-- Characters a name starts with. -/
def isLetter (c : Char) : Bool := c.isAlpha || c == '_'

/-- Characters a name goes on with. -/
def isNameChar (c : Char) : Bool := isLetter c || c.isDigit

/-- Characters that signs are made of, or could be. -/
def isSymbolChar (c : Char) : Bool :=
  ['+', '-', '*', '/', '=', '<', '>', '!', '&', '|', '^', '%'].contains c

/-- Characters that a misspelt number goes on with. -/
def isNumberChar (c : Char) : Bool := c.isAlphanum || c == '.'

/-- Binary digits. -/
def isBit (c : Char) : Bool := c == '0' || c == '1'

/-- A word before the parentheses are paired. -/
inductive Flat where
  | word (word : Lexeme)
  | opening
  | closing
  deriving DecidableEq, Repr, Inhabited

/-- Why no word can be read, how many further characters are to blame, and what to show. -/
structure Refusal where
  /-- The rule that is broken. -/
  rule : Rule
  /-- Characters to blame after the first one. -/
  more : Nat
  /-- What to show. -/
  detail : String
  deriving DecidableEq, Repr, Inhabited

/-- A word and the number of characters it takes after its first one. -/
abbrev Scan := Except Refusal (Flat × Nat)

/-! ## One word -/

/-- A number that goes wrong is shown with all letters, digits and points that follow. -/
def badNumber (c : Char) (cs : List Char) : Refusal :=
  let more := cs.takeWhile isNumberChar
  ⟨.wrongNumberFormat, more.length, String.ofList (c :: more)⟩

/-- Whether a number may stand before these characters. -/
def endsNumber : List Char → Bool
  | c :: _ => !(isNameChar c || c == '.')
  | [] => true

/-- A number must not run into a name or a point. -/
def number (c : Char) (cs : List Char) (word : Lexeme) (used : Nat) : Scan :=
  if endsNumber (cs.drop used) then .ok (.word word, used) else .error (badNumber c cs)

/-- A binary number, after its leading zero and `b`. -/
def scanBinary (c : Char) (cs : List Char) : Scan :=
  let bits := (cs.drop 1).takeWhile isBit
  if bits.isEmpty then .error (badNumber c cs)
  else number c cs (.binary (String.ofList bits)) (1 + bits.length)

/-- A decimal number: digits, and after a point more digits. -/
def scanDecimal (c : Char) (cs : List Char) : Scan :=
  let whole := cs.takeWhile Char.isDigit
  match cs.drop whole.length with
  | '.' :: d :: rest =>
    if d.isDigit then
      let places := d :: rest.takeWhile Char.isDigit
      number c cs (.real (String.ofList (c :: whole ++ '.' :: places)))
        (whole.length + 1 + places.length)
    else .error (badNumber c cs)
  | ['.'] => .error (badNumber c cs)
  | _ => number c cs (.integer (String.ofList (c :: whole))) whole.length

/-- A number, `c` being its first digit. -/
def scanNumber (c : Char) (cs : List Char) : Scan :=
  if c == '0' && cs.head? == some 'b' then scanBinary c cs else scanDecimal c cs

/-- What stands before the closing quotation mark, and the characters up to and with that mark. -/
def quotedPart : List Char → Option (List Char × Nat)
  | [] => none
  | '"' :: '"' :: rest => (quotedPart rest).map fun (s, n) => ('"' :: s, n + 2)
  | '"' :: _ => some ([], 1)
  | c :: rest => (quotedPart rest).map fun (s, n) => (c :: s, n + 1)

/-- A text, after its opening quotation mark. -/
def scanText (cs : List Char) : Scan :=
  match quotedPart cs with
  | some (content, used) => .ok (.word (.text (String.ofList content)), used)
  | none => .error ⟨.missedClosingQuote, cs.length, ""⟩

/-- A name or a reserved word. -/
def scanName (c : Char) (cs : List Char) : Scan :=
  let more := cs.takeWhile isNameChar
  let name := String.ofList (c :: more)
  match Keyword.ofString? name with
  | some k => .ok (.word (.keyword k), more.length)
  | none => .ok (.word (.ident name), more.length)

/-- **The longest sign** among the first characters of a run, and how many follow the first. -/
def longestSymbol (run : List Char) : Nat → Option (Symbol × Nat)
  | 0 => none
  | n + 1 =>
    match Symbol.ofChars? (run.take (n + 1)) with
    | some s => some (s, n)
    | none => longestSymbol run n

/-- A sign. -/
def scanSymbol (c : Char) (cs : List Char) : Scan :=
  let run := c :: cs.takeWhile isSymbolChar
  match longestSymbol run run.length with
  | some (s, more) => .ok (.word (.symbol s), more)
  | none => .error ⟨.unknownOperator, 0, c.toString⟩

/-- The word that starts with `c`. -/
def scan (c : Char) (cs : List Char) : Scan :=
  if c.isDigit then scanNumber c cs
  else if isLetter c then scanName c cs
  else if c == '"' then scanText cs
  else if c == '(' then .ok (.opening, 0)
  else if c == ')' then .ok (.closing, 0)
  else if c == ',' then .ok (.word .comma, 0)
  else if c == '.' then .ok (.word .dot, 0)
  else if isSymbolChar c then scanSymbol c cs
  else .error ⟨.unknownCharacter, 0, c.toString⟩

/-! ## A whole text -/

/-- The words of a text that starts in a column; an apostrophe starts the comment. -/
def flat (file : String) (line column : Nat) : List Char → Checked (List (Span × Flat))
  | [] => .ok []
  | c :: cs =>
    if isBlank c then flat file line (column + 1) cs
    else if c == '\'' then .ok []
    else
      match scan c cs with
      | .error r => .error (r.rule.about ⟨file, line, ⟨column, column + 1 + r.more⟩⟩ r.detail)
      | .ok (word, more) =>
        match flat file line (column + 1 + more) (cs.drop more) with
        | .error d => .error d
        | .ok words => .ok ((⟨column, column + 1 + more⟩, word) :: words)
termination_by cs => cs.length
decreasing_by all_goals simp only [List.length_cons, List.length_drop]; omega

/-- Pairs the parentheses.  `outer` holds the column of each open one with the tokens before it,
innermost first; tokens are collected backwards. -/
def group (file : String) (line : Nat) (outer : List (Nat × List Token)) (inner : List Token) :
    List (Span × Flat) → Checked (List Token)
  | [] =>
    match outer with
    | [] => .ok inner.reverse
    | (start, _) :: _ => .error (Rule.missedBracket.here ⟨file, line, ⟨start, start + 1⟩⟩)
  | (span, .word word) :: rest => group file line outer (.leaf span word :: inner) rest
  | (span, .opening) :: rest => group file line ((span.start, inner) :: outer) [] rest
  | (span, .closing) :: rest =>
    match outer with
    | [] => .error (Rule.bracketDoesNotMatch.here ⟨file, line, span⟩)
    | (start, before) :: outer =>
      group file line outer (.group ⟨start, span.stop⟩ inner.reverse :: before) rest

/-- The tokens of a text. -/
def lex (file : String) (line : Nat) (text : String) : Checked (List Token) := do
  group file line [] [] (← flat file line 0 text.toList)

end ChannelBasic.Lexer
