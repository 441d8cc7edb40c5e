import ChannelBasic.Machine.Network
import ChannelBasic.Source.Directory

/-!
# CommandLine — compiling and running a program from the command line

What the arguments ask for, and what a run of the command writes: listings of the modules, or what
the modules print.  A mistake in the program ends the command, a fault of a machine only that
machine.
-/

namespace ChannelBasic.CommandLine

/-! ## Arguments -/

/-- What the arguments ask for. -/
structure Options where
  /-- Write listings and run nothing. -/
  list : Bool
  /-- Bytes of memory of each machine. -/
  memory : Nat
  /-- Instructions in a turn. -/
  quota : Nat
  /-- The path of the program. -/
  file : String
  /-- The only executor whose modules run, if one is named. -/
  executor : Option String
  deriving DecidableEq, Repr, Inhabited

/-- Bytes of memory, if the arguments do not say. -/
def defaultMemory : Nat := 65536

/-- Instructions in a turn, if the arguments do not say. -/
def defaultQuota : Nat := 10000

/-- The arguments read so far. -/
structure Arguments where
  list : Bool
  memory : Option Nat
  quota : Option Nat
  /-- Arguments that are no options. -/
  others : List String
  deriving DecidableEq, Repr, Inhabited

/-- The outcome of reading arguments. -/
inductive Request where
  | run (options : Options)
  | help
  | refused
  deriving DecidableEq, Repr, Inhabited

/-- A positive 32-bit number, with or without a plus sign. -/
def count? (text : List Char) : Option Nat :=
  let digits := match text with
    | '+' :: rest => rest
    | _ => text
  if digits.isEmpty || !digits.all Char.isDigit then none
  else
    let n := Decimal.value digits
    if 1 ≤ n ∧ n < 0x100000000 then some n else none

/-- What follows a beginning. -/
def after? (start text : List Char) : Option (List Char) :=
  if start.isPrefixOf text then some (text.drop start.length) else none

namespace Arguments

/-- No arguments yet. -/
def empty : Arguments := ⟨false, none, none, []⟩

/-- Sets the memory, **once**. -/
def setMemory (a : Arguments) (text : List Char) : Option Arguments :=
  match a.memory, count? text with
  | none, some n => some { a with memory := some n }
  | _, _ => none

/-- Sets the quota, **once**. -/
def setQuota (a : Arguments) (text : List Char) : Option Arguments :=
  match a.quota, count? text with
  | none, some n => some { a with quota := some n }
  | _, _ => none

/-- Whether an argument looks like an option. -/
def isOption (argument : String) : Bool :=
  argument.toList.head? == some '-' && argument != "-"

/-- Adds an argument that is no option: a file, which has a name, or an executor after it. -/
def addOther (a : Arguments) (argument : String) : Option Arguments :=
  match a.others with
  | [] => if argument.isEmpty then none else some { a with others := [argument] }
  | [file] => some { a with others := [file, argument] }
  | _ => none

/-- Adds arguments that are no options. -/
def addOthers (a : Arguments) (arguments : List String) : Option Arguments :=
  arguments.foldlM addOther a

/-- One argument that needs no other. -/
def single (a : Arguments) (argument : String) : Option Arguments :=
  if argument == "--list" then
    if a.list then none else some { a with list := true }
  else
    match after? "--memory=".toList argument.toList, after? "--quota=".toList argument.toList with
    | some value, _ => a.setMemory value
    | none, some value => a.setQuota value
    | none, none => if isOption argument then none else a.addOther argument

/-- What the arguments read ask for: a file, and perhaps an executor. -/
def request (a : Arguments) : Request :=
  match a.others with
  | [] => .refused
  | file :: rest =>
    .run ⟨a.list, a.memory.getD defaultMemory, a.quota.getD defaultQuota, file, rest.head?⟩

/-- Reads the arguments that are left. -/
def read (a : Arguments) : List String → Request
  | [] => a.request
  | "--" :: rest =>
    match a.addOthers rest with
    | some a => a.request
    | none => .refused
  | "-h" :: _ | "--help" :: _ => .help
  | ["--memory"] | ["--quota"] => .refused
  | "--memory" :: value :: rest =>
    match a.setMemory value.toList with
    | some a => a.read rest
    | none => .refused
  | "--quota" :: value :: rest =>
    match a.setQuota value.toList with
    | some a => a.read rest
    | none => .refused
  | argument :: rest =>
    match a.single argument with
    | some a => a.read rest
    | none => .refused

end Arguments

/-- Reads the arguments. -/
def request (arguments : List String) : Request := Arguments.empty.read arguments

/-- How the command is used. -/
def usage : List String :=
  ["Usage: [--list] [--memory BYTES] [--quota INSTRUCTIONS] FILE [EXECUTOR]",
   "",
   "Compiles a program and runs its modules.",
   "",
   "  --list                 print the listing of each module instead of running it",
   "  --memory BYTES         bytes of memory for each module",
   "  --quota INSTRUCTIONS   instructions a module runs before the next one gets a turn",
   "  FILE                   program to compile",
   "  EXECUTOR               only run modules on this executor"]

/-! ## Runs -/

/-- What a command leaves behind. -/
structure Outcome where
  exit : Nat
  /-- Texts written, each with a line end. -/
  output : List String
  /-- Texts written beside the output, each with a line end. -/
  errors : List String
  deriving DecidableEq, Repr, Inhabited

/-- A text in bold type. -/
def bold (text : String) : String := "\x1b[1m" ++ text ++ "\x1b[0m"

/-- A command that fails because of a mistake. -/
def failure (d : Diagnostic) : Outcome := ⟨1, [], [bold d.message]⟩

/-- The compiled program that the options name; `sources` gives the files of a directory. -/
def compile (sources : String → Sources) (o : Options) : Checked Executable :=
  match Path.split? o.file with
  | some (directory, name) => Executable.load (sources directory) name
  | none => .error (Rule.importNotFound.nowhere o.file)

/-- The listings of all modules, each followed by an empty line. -/
def listings (x : Executable) : List String :=
  x.images.flatMap fun image => image.listing ++ [""]

/-- The modules that are to run: executor by executor, in the order of their names. -/
def selected (o : Options) (x : Executable) : List Image :=
  (x.executors.filter fun e => o.executor.all (· == e)).flatMap x.imagesOn

/-- The network that is to run. -/
def network (o : Options) (x : Executable) : Checked Network :=
  match Network.start (selected o x) x.wires o.memory with
  | .ok n => .ok n
  | .error (fault, name) => .error (Rule.internalError.nowhere (faultIn fault name))

/-- How the fault of a machine is announced. -/
def announcement (name : String) (fault : Fault) (ip : Int) : String :=
  bold (faultIn fault name ++ " AT " ++ Decimal.ofInt ip)

/-- The functions of the command: those of every host, and `print`. -/
def natives (now : Int64) (draw : Nat) : Natives :=
  (Natives.standard now draw).insert "print" Native.print

/-- What the rounds of a network write. -/
def outcomeOf (rounds : List Network.Round) : Outcome where
  exit := 0
  output := rounds.flatMap fun r => r.printed.map (·.2)
  errors := rounds.flatMap fun r => r.faults.map fun (name, fault, ip) => announcement name fault ip

/-- A run of the command with some options, of at most `bound` rounds. -/
def execute (sources : String → Sources) (natives : Natives) (bound : Nat) (o : Options) :
    Outcome :=
  match compile sources o with
  | .error d => failure d
  | .ok x =>
    if o.list then ⟨0, listings x, []⟩
    else
      match network o x with
      | .error d => failure d
      | .ok n => outcomeOf (n.run natives o.quota bound).1.toList

/-- A run of the command, of at most `bound` rounds. -/
def run (sources : String → Sources) (natives : Natives) (bound : Nat)
    (arguments : List String) : Outcome :=
  match request arguments with
  | .run o => execute sources natives bound o
  | .help => ⟨0, usage, []⟩
  | .refused => ⟨2, [], usage⟩

end ChannelBasic.CommandLine
