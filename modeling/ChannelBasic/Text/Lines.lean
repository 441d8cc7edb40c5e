/-!
# Text/Lines — a text cut at its line ends

A line ends at a line feed, which belongs to no line; a carriage return right before it is dropped
too.  A text that ends with a line feed has no empty last line.
-/

namespace ChannelBasic.Text

/-- A line collected backwards, without the carriage return that ended it. -/
def withoutReturn : List Char → List Char
  | '\r' :: rest => rest
  | line => line

/-- The lines of a text, the current one collected backwards in `line`. -/
def linesFrom (line : List Char) : List Char → List (List Char)
  | [] => if line.isEmpty then [] else [line.reverse]
  | '\n' :: rest => (withoutReturn line).reverse :: linesFrom [] rest
  | c :: rest => linesFrom (c :: line) rest

/-- The lines of a text. -/
def lines (s : String) : List String := (linesFrom [] s.toList).map String.ofList

/-- A text made of lines, each with its line feed. -/
def unlines (ls : List String) : String := String.join (ls.map (· ++ "\n"))

/-- A text with each quotation mark doubled, as it stands between quotation marks. -/
def doubleQuotes : List Char → List Char
  | [] => []
  | '"' :: rest => '"' :: '"' :: doubleQuotes rest
  | c :: rest => c :: doubleQuotes rest

/-- A text between quotation marks. -/
def quoted (s : String) : List Char := '"' :: doubleQuotes s.toList ++ ['"']

end ChannelBasic.Text
