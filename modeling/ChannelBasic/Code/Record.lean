import ChannelBasic.Code.Opcode
import ChannelBasic.Code.Selector
import ChannelBasic.Text.Decimal
import ChannelBasic.Word

/-!
# Code/Record — instructions as sixteen bytes

    byte    0       1   2   3   4..8  8..12  12..16
            opcode  p0  p1  p2  x0    x1     x2

Numbers are little-endian.  `encode` and `decode?` go between a record and its bytes, one undoing
the other (`decode?_encode`); `render` writes a record for a listing, and `listing` writes a whole
code segment.
-/

namespace ChannelBasic.Code

/-- Bytes in a record. -/
def recordSize : Nat := 16

/-- An instruction as it lies in memory; nothing says that its bytes make sense. -/
structure Record where
  opcode : UInt8
  p0 : UInt8
  p1 : UInt8
  p2 : UInt8
  x0 : Int32
  x1 : Int32
  x2 : Int32
  deriving DecidableEq, Repr, Inhabited

namespace Record

/-- The sixteen bytes of a record. -/
def encode (r : Record) : List UInt8 :=
  [r.opcode, r.p0, r.p1, r.p2] ++ Word.ofInt32 r.x0 ++ Word.ofInt32 r.x1 ++ Word.ofInt32 r.x2

/-- The record in the first sixteen bytes, if there are that many. -/
def decode? : List UInt8 → Option Record
  | opcode :: p0 :: p1 :: p2 :: rest =>
    if rest.length < 12 then none
    else
      some ⟨opcode, p0, p1, p2, Word.readInt32 (rest.take 4),
        Word.readInt32 ((rest.drop 4).take 4), Word.readInt32 ((rest.drop 8).take 4)⟩
  | _ => none

/-- The eight bytes that an immediate `LOAD` carries. -/
def immediate (r : Record) : List UInt8 := Word.ofInt32 r.x1 ++ Word.ofInt32 r.x2

@[simp] theorem length_encode (r : Record) : r.encode.length = recordSize := by
  simp [encode, Word.ofInt32, recordSize]

/-- A record is read back from its bytes, whatever follows them. -/
theorem decode?_encode (r : Record) (rest : List UInt8) :
    decode? (r.encode ++ rest) = some r := by
  obtain ⟨opcode, p0, p1, p2, x0, x1, x2⟩ := r
  have len (n : Int32) : (Word.ofInt32 n).length = 4 := Word.length_ofInt ..
  have skip (n : Int32) : (Word.ofInt32 n).drop 8 = [] :=
    List.drop_eq_nil_of_le (by rw [len]; decide)
  simp [encode, decode?, len, skip, Word.readInt32_ofInt32, List.drop_append]
  omega

/-- A byte that stands for nothing is shown as its number. -/
def tag {α : Type} (ofCode? : UInt8 → Option α) (spelling : α → String) (b : UInt8) : String :=
  match ofCode? b with
  | some a => spelling a
  | none => "?" ++ Decimal.ofInt b.toNat

/-- A type in a listing. -/
def typeTag : UInt8 → String := tag ValueType.ofCode? ValueType.spelling

/-- Words of a listing with blanks between them. -/
def spaced (words : List String) : String := " ".intercalate words

/-- A number in a listing. -/
def number (n : Int32) : String := Decimal.ofInt n.toInt

/-- The words that follow the opcode in a listing. -/
def operands (r : Record) : Opcode → List String
  | .NOP | .RET | .END => []
  | .LOAD | .STORE =>
    match Storage.ofCode? r.p0 with
    | some .zero => ["ZERO", number r.x0]
    | some .immediate =>
      let value := Word.read (r.immediate.take (min (max r.x0.toInt 0) 8).toNat)
      ["IMMEDIATE", number r.x0, Decimal.ofInt value.toInt]
    | _ => [tag Storage.ofCode? Storage.spelling r.p0, number r.x0, number r.x1]
  | .CAST => [typeTag r.p0, typeTag r.p1, number r.x0, number r.x1]
  | .POP | .DUP | .ENTER | .LEAVE | .JUMP => [number r.x0]
  | .CALL => [tag CallKind.ofCode? CallKind.spelling r.p0, number r.x0]
  | .CMP =>
    [typeTag r.p0, tag Comparison.ofCode? Comparison.spelling r.p1, number r.x0, number r.x1]
  | .SIGN | .NEG | .NOT => [typeTag r.p0, number r.x0]
  | .IF => [tag BranchOn.ofCode? BranchOn.spelling r.p0, number r.x0]
  | .ADD | .SUB | .MUL | .DIV | .MOD | .AND | .OR | .XOR | .SHL | .SHR =>
    [typeTag r.p0, number r.x0, number r.x1, number r.x2]

/-- A record as a listing shows it. -/
def render (r : Record) : String :=
  match Opcode.ofCode? r.opcode with
  | some op => spaced (op.spelling :: r.operands op)
  | none => "?" ++ Decimal.ofInt r.opcode.toNat

end Record

/-- Pieces of sixteen bytes, the last one perhaps shorter; `bound` bounds their number. -/
def chunksWithin : Nat → List UInt8 → List (List UInt8)
  | 0, _ => []
  | _, [] => []
  | bound + 1, bs => bs.take recordSize :: chunksWithin bound (bs.drop recordSize)

/-- Pieces of sixteen bytes, the last one perhaps shorter. -/
def chunks (bs : List UInt8) : List (List UInt8) := chunksWithin bs.length bs

/-- An address in a listing has six digits. -/
def address (n : Nat) : String := String.ofList (Decimal.padded 6 n)

/-- A line of a listing: the address and the record found there. -/
def listingLine (index : Nat) (bytes : List UInt8) : String :=
  address (index * recordSize) ++ "  " ++
    match Record.decode? bytes with
    | some r => r.render
    | none => "?"

/-- The listing of a code segment. -/
def listing (bytes : List UInt8) : List String :=
  (chunks bytes).zipIdx.map fun (piece, index) => listingLine index piece

end ChannelBasic.Code
