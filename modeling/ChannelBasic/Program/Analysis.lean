import ChannelBasic.Program.Checked
import ChannelBasic.Program.Layout
import ChannelBasic.Program.Lowering
import ChannelBasic.Program.Reach
import ChannelBasic.Raw.ProgramReader
import ChannelBasic.Source.Splice

/-!
# Program/Analysis — from text to a program that means something

The passes in their order: names are bound, the reach of modules is found, types are checked, and
everything gets its place.  The first mistake that a pass meets is the one reported.
-/

namespace ChannelBasic.Program

/-- What a program as written means. -/
def analyse (raw : Raw.Program) : Checked Program := do
  let p ← ofRaw raw
  let p ← p.bindNames
  let p ← p.withReach.checkTypes
  p.layout

/-- What the program in a file means, together with all that the file imports. -/
def load (sources : Sources) (main : String) : Checked Program := do
  let lines ← sources.splice main
  analyse (← Raw.Program.ofLines lines)

end ChannelBasic.Program
