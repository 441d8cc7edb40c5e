import ChannelBasic.Code.Record

/-!
# Image — a compiled module

The bytes of a module as they are put into memory: code, then static data.  The data sets follow in
memory; they start with `data`, and with zeros where `data` is shorter.  Entries say where functions
start and how many bytes a call needs; they are kept in the order of their names.
-/

namespace ChannelBasic

/-- What a call of a function needs to know. -/
structure Entry where
  /-- Where its code starts. -/
  address : Int
  /-- Bytes of its arguments. -/
  arguments : Int
  /-- Bytes of its result. -/
  result : Int
  deriving DecidableEq, Repr, Inhabited

/-- A compiled module. -/
structure Image where
  name : String
  executor : String
  /-- Code and static data. -/
  bytes : List UInt8
  /-- How many of the bytes are code. -/
  codeSize : Nat
  /-- Bytes of the data sets. -/
  dataSize : Int
  /-- What the data sets start with. -/
  data : List UInt8
  entries : List (String × Entry)
  deriving Repr, Inhabited

namespace Image

/-- Where the static data starts. -/
def staticBase (i : Image) : Nat := i.codeSize

/-- Where the data sets start. -/
def dynamicBase (i : Image) : Nat := i.bytes.length

/-- The entry of a function. -/
def entry? (i : Image) (name : String) : Option Entry := i.entries.lookup name

/-- A further entry; **the last one of a name counts**, and names stay in order. -/
def insertEntry (name : String) (e : Entry) : List (String × Entry) → List (String × Entry)
  | [] => [(name, e)]
  | (n, e') :: rest =>
    if name == n then (name, e) :: rest
    else if name < n then (name, e) :: (n, e') :: rest
    else (n, e') :: insertEntry name e rest

/-- The listing: a title, the code, and the functions with their addresses. -/
def listing (i : Image) : List String :=
  ("MODULE " ++ i.name ++ " " ++ i.executor) :: Code.listing (i.bytes.take i.codeSize) ++
    i.entries.map fun (name, e) => Code.address e.address.toNat ++ "  " ++ name

end Image

end ChannelBasic
