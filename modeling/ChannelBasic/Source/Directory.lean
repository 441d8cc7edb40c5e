import ChannelBasic.Source.Splice

/-!
# Source/Directory — files under a working directory

A path is a text with slashes.  `Directory.read` follows one from the working directory, the way a
file system does: every part but the last has to be a directory, and a path that ends with a slash
names a directory.  Nothing is known of what lies outside the working directory.
-/

namespace ChannelBasic

/-- Why a file cannot be read. -/
inductive FileProblem where
  | missing
  | notDirectory
  | isDirectory
  | nameTooLong
  | zeroCharacter
  deriving DecidableEq, Repr, Inhabited

/-- How a problem with a file is announced. -/
def FileProblem.message : FileProblem → String
  | .missing => "No such file or directory (os error 2)"
  | .notDirectory => "Not a directory (os error 20)"
  | .isDirectory => "Is a directory (os error 21)"
  | .nameTooLong => "File name too long (os error 36)"
  | .zeroCharacter => "file name contained an unexpected NUL byte"

/-! ## Paths -/

namespace Path

/-- The parts of a path, between its slashes. -/
def parts (path : String) : List String := path.splitOn "/"

/-- The parts of a path that lead somewhere. -/
def steps (path : String) : List String := (parts path).filter fun p => p != "" && p != "."

/-- Whether a path starts at the root and not in the working directory. -/
def isAbsolute (path : String) : Bool := path.toList.head? == some '/'

/-- A name in a directory; **an absolute name stays what it is**. -/
def join (directory name : String) : String :=
  if directory.isEmpty || isAbsolute name then name else directory ++ "/" ++ name

/-- The directory and the name of a file, unless the path ends upwards or nowhere. -/
def split? (path : String) : Option (String × String) :=
  match (steps path).reverse with
  | [] => none
  | name :: up =>
    if name == ".." then none
    else
      let directory := "/".intercalate up.reverse
      some (if isAbsolute path then "/" ++ directory else directory, name)

end Path

/-! ## Directories -/

/-- The files under the working directory, by their paths. -/
structure Directory where
  files : Files

namespace Directory

/-- Where a path has led so far. -/
inductive Position where
  /-- Down from the working directory by some steps, last one first. -/
  | within (down : List String)
  /-- Outside the working directory. -/
  | outside
  deriving DecidableEq, Repr

/-- The text of the file some steps down. -/
def file? (d : Directory) (down : List String) : Option String :=
  (d.files.find? fun f => (Path.steps f.1).reverse == down).map (·.2)

/-- Whether some steps down there is a directory. -/
def isDirectory (d : Directory) (down : List String) : Bool :=
  down.isEmpty || d.files.any fun f =>
    let steps := Path.steps f.1
    down.length < steps.length && steps.take down.length == down.reverse

/-- The longest name of a file, in bytes. -/
def longestName : Nat := 255

/-- One part of a path further. -/
def step (d : Directory) (p : Position) (part : String) : Except FileProblem Position :=
  match p with
  | .outside =>
    if part == "" || part == "." || part == ".." then .ok .outside
    else if longestName < part.utf8ByteSize then .error .nameTooLong
    else .error .missing
  | .within down =>
    if !d.isDirectory down then .error .notDirectory
    else if part == "" || part == "." then .ok p
    else if part == ".." then
      match down with
      | [] => .ok .outside
      | _ :: up => .ok (.within up)
    else if longestName < part.utf8ByteSize then .error .nameTooLong
    else if d.isDirectory (part :: down) || (d.file? (part :: down)).isSome then
      .ok (.within (part :: down))
    else .error .missing

/-- The text of the file that a path leads to. -/
def read (d : Directory) (path : String) : Except FileProblem String := do
  if path.isEmpty then throw .missing
  if path.toList.contains (Char.ofNat 0) then throw .zeroCharacter
  let start := if Path.isAbsolute path then .outside else .within []
  match ← (Path.parts path).foldlM d.step start with
  | .outside => throw .isDirectory
  | .within down =>
    match d.file? down with
    | some text => return text
    | none => throw .isDirectory

/-- The files that a program in a directory may import.  No more files can be open at a time than
names are mentioned. -/
def sources (d : Directory) (directory : String) : Sources where
  load name :=
    match d.read (Path.join directory name) with
    | .ok text => .ok text
    | .error problem => .error problem.message
  depth := d.files.foldl (fun n f => n + (Source.importedNames f.1 f.2).length) 2

end Directory

end ChannelBasic
