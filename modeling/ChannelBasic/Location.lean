import ChannelBasic.Text.Decimal

/-!
# Location — where a piece of program text stands

A `Span` is a range of columns, counted in characters from zero; a `Location` adds the file and the
line, counted from one.
-/

namespace ChannelBasic

/-- Columns from `start` up to, not including, `stop`. -/
structure Span where
  /-- The first column. -/
  start : Nat
  /-- The column after the last one. -/
  stop : Nat
  deriving DecidableEq, Repr, Inhabited

/-- A range of columns in a line of a file. -/
structure Location where
  /-- The file's name. -/
  file : String
  /-- The line, the first one being 1. -/
  line : Nat
  /-- The columns. -/
  span : Span
  deriving DecidableEq, Repr, Inhabited

namespace Location

/-- Other columns of the same line. -/
def moved (l : Location) (span : Span) : Location := { l with span }

/-- The text `file:line (start..stop)`; columns `0..0` are not written. -/
def render (l : Location) : String :=
  let place := l.file ++ ":" ++ Decimal.ofInt l.line
  if l.span.start = 0 ∧ l.span.stop = 0 then place
  else
    place ++ " (" ++ Decimal.ofInt l.span.start ++ ".." ++ Decimal.ofInt l.span.stop ++ ")"

end Location

end ChannelBasic
