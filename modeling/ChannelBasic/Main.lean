import ChannelBasic.CommandLine

/-!
# Main — the command

Reads the files, draws the time and random numbers, and writes.  All that is decided is decided in
`ChannelBasic.CommandLine`.
-/

namespace ChannelBasic.CommandLine

/-- Why a file cannot be read, in one line. -/
def readProblem : IO.Error → String
  | .noFileOrDirectory .. => FileProblem.missing.message
  | .userError _ => "stream did not contain valid UTF-8"
  | .inappropriateType _ 20 _ => FileProblem.notDirectory.message
  | .inappropriateType _ 21 _ => FileProblem.isDirectory.message
  | .permissionDenied _ code _ => "Permission denied (os error " ++ toString code ++ ")"
  | e => toString e

/-- Reads files of a directory by their names, and the files they import. -/
partial def gather (directory : String) (known : List (String × Except String String)) :
    List String → IO (List (String × Except String String))
  | [] => return known
  | name :: rest => do
    if (known.lookup name).isSome then gather directory known rest
    else
      let answer : Except String String ← try
          pure (.ok (← IO.FS.readFile (Path.join directory name)))
        catch e => pure (.error (readProblem e))
      let imported := match answer with
        | .ok text => Source.importedNames name text
        | .error _ => []
      gather directory ((name, answer) :: known) (imported ++ rest)

/-- The sources that some files are. -/
def sourcesOf (known : List (String × Except String String)) : Sources where
  load name := (known.lookup name).getD (.error FileProblem.missing.message)
  depth := known.length + 2

/-- A turn of a node: each instruction sees the time and a number drawn for it. -/
def turn (quota : Nat) (node : Node) : IO Node := do
  let mut machine := node.machine
  for _ in [0:quota] do
    if !machine.isRunning then break
    let now ← IO.monoMsNow
    let draw ← IO.rand 0 0x7fffffff
    machine := machine.silent.tick (natives (Int64.ofNat (now + 1)) draw)
    for text in machine.printed do
      IO.println text
  return { node with machine }

/-- Rounds until no machine runs. -/
partial def play (quota : Nat) (n : Network) : IO Unit := do
  if n.isRunning then
    let mut nodes := #[]
    for node in n.nodes do
      let after ← turn quota node
      if node.machine.isRunning then
        if let some (name, fault, ip) := after.fault? then
          IO.eprintln (announcement name fault ip)
      nodes := nodes.push after
    play quota { n with nodes }.transmit

/-- Writes what a command leaves behind and gives its exit code. -/
def finish (o : Outcome) : IO UInt32 := do
  for text in o.output do
    IO.println text
  for text in o.errors do
    IO.eprintln text
  return UInt32.ofNat o.exit

end ChannelBasic.CommandLine

open ChannelBasic ChannelBasic.CommandLine

/-- The command. -/
def main (arguments : List String) : IO UInt32 := do
  match request arguments with
  | .run o =>
    let known ← match Path.split? o.file with
      | some (directory, name) => gather directory [] [name]
      | none => pure []
    match compile (fun _ => sourcesOf known) o with
    | .error d => finish (failure d)
    | .ok x =>
      if o.list then finish ⟨0, listings x, []⟩
      else
        match network o x with
        | .error d => finish (failure d)
        | .ok n =>
          play o.quota n
          return 0
  | .help => finish ⟨0, usage, []⟩
  | .refused => finish ⟨2, [], usage⟩
