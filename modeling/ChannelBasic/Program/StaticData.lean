import ChannelBasic.Machine.Value

/-!
# Program/StaticData — the texts a module keeps beside its code

Texts of literals and names of native functions, each a string record with a capacity.  A text is
entered **once** for each capacity it is asked for with, and never moves.
-/

namespace ChannelBasic

/-- A text, the capacity of its record and the record's offset. -/
structure StaticText where
  content : String
  capacity : Nat
  offset : Nat
  deriving DecidableEq, Repr, Inhabited

/-- The texts of a module, in the order in which they lie in memory. -/
structure StaticData where
  texts : List StaticText
  /-- Bytes of all records. -/
  size : Nat
  deriving DecidableEq, Repr, Inhabited

namespace StaticData

/-- No texts yet. -/
def empty : StaticData := ⟨[], 0⟩

/-- The offset of a text's record, which may be a new one at the end. -/
def intern (d : StaticData) (content : String) (capacity : Nat) : Nat × StaticData :=
  match d.texts.find? fun t => t.content == content && t.capacity == capacity with
  | some t => (t.offset, d)
  | none => (d.size, ⟨d.texts ++ [⟨content, capacity, d.size⟩], d.size + stringSize capacity⟩)

/-- The offset of the record of a name, which has exactly the room it needs. -/
def internName (d : StaticData) (name : String) : Nat × StaticData :=
  d.intern name (Utf16.units name)

/-- The bytes of all records. -/
def bytes (d : StaticData) : List UInt8 :=
  d.texts.flatMap fun t => encodeString (Utf16.encode t.content) (stringSize t.capacity)

end StaticData

end ChannelBasic
