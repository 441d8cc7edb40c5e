import ChannelBasic.Source.Line

/-!
# Source/Splice — a program out of its files

A line `IMPORT "name"` stands for the lines of that file, the first time the file is asked for;
later it stands for nothing.  `splice` expands a main file depth first and leaves out empty lines.
A file that is open already counts as asked for, so files may import each other freely.
-/

namespace ChannelBasic

/-- Answers with a file's text, or with the reason why there is none. -/
abbrev Loader := String → Except String String

/-- Named texts held in memory. -/
abbrev Files := List (String × String)

/-- A file that is not there is reported by its name. -/
def Files.loader (files : Files) : Loader := fun name =>
  match files.lookup name with
  | some text => .ok text
  | none => .error name

namespace Source

/-- What a line asks for: nothing, a file, or a file it fails to name. -/
inductive Import where
  | none
  | file (name : String)
  | unnamed (location : Location)
  deriving DecidableEq, Repr

/-- Reads an `IMPORT` line. -/
def Import.ofLine (l : Line) : Import :=
  match l.tokens with
  | [.leaf _ (.keyword .IMPORT), .leaf _ (.text name)] => .file name
  | .leaf span (.keyword .IMPORT) :: _ => .unnamed (l.location span)
  | _ => .none

/-- The files asked for so far, and the lines found so far, last one first. -/
structure Spliced where
  /-- Names of the files asked for. -/
  seen : List String
  /-- Lines found, last one first. -/
  lines : List Line

/-- Adds the lines of a text, `file` being how a further file is added. -/
def spliceLines (file : String → Location → Spliced → Checked Spliced) (name : String)
    (number : Nat) (found : Spliced) : List String → Checked Spliced
  | [] => .ok found
  | text :: rest => do
    let line ← Line.read name number text
    let found ←
      if line.tokens.isEmpty then pure found
      else
        match Import.ofLine line with
        | .file imported => file imported line.whole found
        | .unnamed location => .error (Rule.expectedFileName.here location)
        | .none => pure { found with lines := line :: found.lines }
    spliceLines file name (number + 1) found rest

/-- Adds a file that was not asked for yet; `depth` bounds how deep files may import files. -/
def spliceFile (load : Loader) : Nat → String → Option Location → Spliced → Checked Spliced
  | 0, name, place, _ => .error ⟨.importNotFound, place, name⟩
  | depth + 1, name, place, found =>
    if found.seen.contains name then .ok found
    else
      match load name with
      | .error reason => .error ⟨.importNotFound, place, name ++ ": " ++ reason⟩
      | .ok text =>
        spliceLines (fun imported place => spliceFile load depth imported (some place)) name 1
          { found with seen := name :: found.seen } (Text.lines text)

/-- The lines of a main file and of all it imports, where files import each other at most
`depth` deep. -/
def splice (load : Loader) (depth : Nat) (main : String) : Checked (List Line) := do
  let found ← spliceFile load depth main none ⟨[], []⟩
  return found.lines.reverse

/-- The names of the files that a text imports. -/
def importedNames (name text : String) : List String :=
  (Text.lines text).filterMap fun l =>
    match Line.read name 1 l with
    | .ok line =>
      match Import.ofLine line with
      | .file imported => some imported
      | _ => none
    | .error _ => none

end Source

/-- Where the texts of a program come from. -/
structure Sources where
  load : Loader
  /-- How deep files may import files. -/
  depth : Nat

/-- The lines of a main file and of all it imports. -/
def Sources.splice (s : Sources) (main : String) : Checked (List Line) :=
  Source.splice s.load s.depth main

/-- Texts held in memory.  Each file that is open was opened once, so one level more than there are
files is deep enough. -/
def Files.sources (files : Files) : Sources := ⟨files.loader, files.length + 2⟩

end ChannelBasic
