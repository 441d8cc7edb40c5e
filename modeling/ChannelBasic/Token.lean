import ChannelBasic.Location
import ChannelBasic.Text.Lines

/-!
# Token — the words of a line, grouped by their parentheses

A `Lexeme` is a word that stands for itself.  A `Token` is a lexeme with its columns, or a pair of
parentheses around further tokens, so a list of tokens is balanced by construction.  `chars` writes
tokens back with single blanks between them.
-/

namespace ChannelBasic

/-- The reserved words, each named as it is spelled. -/
inductive Keyword where
  | AND | AS | BOOLEAN | BYTE | CODE | CONST | DATA | DECLARE
  | DO | ELSE | END | FALSE | FOR | FUNCTION | IF | IMPORT
  | INPUT | INTEGER | LONG | LOOP | MOD | MODULE | NEXT | NOT
  | OF | OR | OUTPUT | POINTER | PRIVATE | REAL | RETURN | SHORT
  | SHL | SHR | STEP | STRING | THEN | TO | TRANSMISSION | TRUE
  | TYPE | UNTIL | VAR | WHILE | XOR
  deriving DecidableEq, Repr, Inhabited

namespace Keyword

/-- How a reserved word is written. -/
def spelling : Keyword → String
  | .AND => "AND"
  | .AS => "AS"
  | .BOOLEAN => "BOOLEAN"
  | .BYTE => "BYTE"
  | .CODE => "CODE"
  | .CONST => "CONST"
  | .DATA => "DATA"
  | .DECLARE => "DECLARE"
  | .DO => "DO"
  | .ELSE => "ELSE"
  | .END => "END"
  | .FALSE => "FALSE"
  | .FOR => "FOR"
  | .FUNCTION => "FUNCTION"
  | .IF => "IF"
  | .IMPORT => "IMPORT"
  | .INPUT => "INPUT"
  | .INTEGER => "INTEGER"
  | .LONG => "LONG"
  | .LOOP => "LOOP"
  | .MOD => "MOD"
  | .MODULE => "MODULE"
  | .NEXT => "NEXT"
  | .NOT => "NOT"
  | .OF => "OF"
  | .OR => "OR"
  | .OUTPUT => "OUTPUT"
  | .POINTER => "POINTER"
  | .PRIVATE => "PRIVATE"
  | .REAL => "REAL"
  | .RETURN => "RETURN"
  | .SHORT => "SHORT"
  | .SHL => "SHL"
  | .SHR => "SHR"
  | .STEP => "STEP"
  | .STRING => "STRING"
  | .THEN => "THEN"
  | .TO => "TO"
  | .TRANSMISSION => "TRANSMISSION"
  | .TRUE => "TRUE"
  | .TYPE => "TYPE"
  | .UNTIL => "UNTIL"
  | .VAR => "VAR"
  | .WHILE => "WHILE"
  | .XOR => "XOR"

/-- All reserved words. -/
def all : List Keyword :=
  [.AND, .AS, .BOOLEAN, .BYTE, .CODE, .CONST, .DATA, .DECLARE, .DO, .ELSE, .END, .FALSE, .FOR,
   .FUNCTION, .IF, .IMPORT, .INPUT, .INTEGER, .LONG, .LOOP, .MOD, .MODULE, .NEXT, .NOT, .OF,
   .OR, .OUTPUT, .POINTER, .PRIVATE, .REAL, .RETURN, .SHORT, .SHL, .SHR, .STEP, .STRING,
   .THEN, .TO, .TRANSMISSION, .TRUE, .TYPE, .UNTIL, .VAR, .WHILE, .XOR]

/-- The reserved word with a spelling; case matters. -/
def ofString? (s : String) : Option Keyword := all.find? fun k => k.spelling == s

end Keyword

/-- Signs that stand between operands or before one. -/
inductive Symbol where
  | plus | minus | times | over | equal | notEqual | less | lessEqual | greater | greaterEqual
  deriving DecidableEq, Repr, Inhabited

namespace Symbol

/-- How a sign is written. -/
def spelling : Symbol → String
  | .plus => "+"
  | .minus => "-"
  | .times => "*"
  | .over => "/"
  | .equal => "="
  | .notEqual => "<>"
  | .less => "<"
  | .lessEqual => "<="
  | .greater => ">"
  | .greaterEqual => ">="

/-- All signs. -/
def all : List Symbol :=
  [.plus, .minus, .times, .over, .equal, .notEqual, .less, .lessEqual, .greater, .greaterEqual]

/-- The sign written with these characters. -/
def ofChars? (cs : List Char) : Option Symbol := all.find? fun s => s.spelling.toList == cs

end Symbol

/-- A word of the language that stands for itself. -/
inductive Lexeme where
  | keyword (word : Keyword)
  | symbol (sign : Symbol)
  | ident (name : String)
  /-- Decimal digits. -/
  | integer (digits : String)
  /-- Binary digits, without the `0b` before them. -/
  | binary (digits : String)
  /-- Digits, a point and digits. -/
  | real (digits : String)
  /-- What stands between quotation marks, with doubled marks undone. -/
  | text (content : String)
  | comma
  | dot
  deriving DecidableEq, Repr, Inhabited

/-- How a word is written. -/
def Lexeme.chars : Lexeme → List Char
  | .keyword k => k.spelling.toList
  | .symbol s => s.spelling.toList
  | .ident name => name.toList
  | .integer digits => digits.toList
  | .binary digits => '0' :: 'b' :: digits.toList
  | .real digits => digits.toList
  | .text content => Text.quoted content
  | .comma => [',']
  | .dot => ['.']

/-- A word, or tokens between parentheses. -/
inductive Token where
  | leaf (span : Span) (word : Lexeme)
  /-- The span covers both parentheses. -/
  | group (span : Span) (inner : List Token)
  deriving Repr, Inhabited

namespace Token

/-- The columns a token takes. -/
def span : Token → Span
  | .leaf span _ => span
  | .group span _ => span

/-- Whether a token is this reserved word. -/
def isKeyword (k : Keyword) : Token → Bool
  | .leaf _ (.keyword k') => k == k'
  | _ => false

/-- Whether a token is this sign. -/
def isSymbol (s : Symbol) : Token → Bool
  | .leaf _ (.symbol s') => s == s'
  | _ => false

/-- Whether a token is a comma. -/
def isComma : Token → Bool
  | .leaf _ .comma => true
  | _ => false

mutual

/-- A token as it is written back. -/
def chars : Token → List Char
  | .leaf _ word => word.chars
  | .group _ inner => '(' :: innerChars true inner ++ [')']

/-- Tokens between parentheses: a blank goes before each but the first, and none before a comma. -/
def innerChars (first : Bool) : List Token → List Char
  | [] => []
  | t :: rest => (if first || t.isComma then [] else [' ']) ++ t.chars ++ innerChars false rest

end

end Token

end ChannelBasic
