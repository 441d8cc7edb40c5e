import ChannelBasic.Raw.Cursor
import ChannelBasic.Raw.Expr
import ChannelBasic.Word

/-!
# Raw/ExprReader — from tokens to an expression

A row of tokens becomes a row of `Item`s: operands, and operators between them.  `reduce` then
binds the operators, signs first, `NOT` next, and the binary ones tier by tier from the left, until
one operand is left.  A pair of parentheses is an operand, read the same way one level deeper.
-/

namespace ChannelBasic

mutual

/-- How deep parentheses stand in a token. -/
def Token.depth : Token → Nat
  | .leaf _ _ => 0
  | .group _ inner => Token.depths inner + 1

/-- How deep parentheses stand in a row of tokens. -/
def Token.depths : List Token → Nat
  | [] => 0
  | t :: rest => max t.depth (Token.depths rest)

end

namespace Raw

/-- A row of tokens cut at its commas.  An empty piece is refused where it ends, the last one at
`outer`; `piece` collects the current one backwards. -/
def piecesFrom (line : Line) (outer : Location) (piece : List Token) :
    List Token → Checked (List (List Token))
  | [] =>
    if piece.isEmpty then .error (Rule.expectedExpression.here outer) else .ok [piece.reverse]
  | t :: rest =>
    if t.isComma then
      if piece.isEmpty then .error (Rule.expectedExpression.here (line.location t.span))
      else do
        let pieces ← piecesFrom line outer [] rest
        return piece.reverse :: pieces
    else piecesFrom line outer (t :: piece) rest

/-- The pieces between commas; no tokens are no pieces. -/
def pieces (line : Line) (outer : Location) (tokens : List Token) : Checked (List (List Token)) :=
  if tokens.isEmpty then .ok [] else piecesFrom line outer [] tokens

/-- Where a piece starts. -/
def pieceStart (line : Line) (piece : List Token) : Location :=
  line.location ((piece.head?.map Token.span).getD ⟨0, 0⟩)

/-! ## Operands and operators -/

/-- An operand, or an operator that still looks for its operands. -/
inductive Item where
  | operand (value : Expr)
  | unary (location : Location) (op : UnaryOp)
  | binary (location : Location) (op : BinaryOp)

namespace Item

/-- The operator a sign stands for; `+` and `-` precede an operand unless one stands before them. -/
def ofSymbol (location : Location) (afterOperand : Bool) : Symbol → Item
  | .plus => if afterOperand then .binary location .add else .unary location .plus
  | .minus => if afterOperand then .binary location .subtract else .unary location .minus
  | .times => .binary location .multiply
  | .over => .binary location .divide
  | .equal => .binary location .equal
  | .notEqual => .binary location .notEqual
  | .less => .binary location .less
  | .lessEqual => .binary location .lessEqual
  | .greater => .binary location .greater
  | .greaterEqual => .binary location .greaterEqual

/-- The operator a reserved word stands for. -/
def ofKeyword? (location : Location) : Keyword → Option Item
  | .NOT => some (.unary location .not)
  | .MOD => some (.binary location .mod)
  | .SHL => some (.binary location .shl)
  | .SHR => some (.binary location .shr)
  | .AND => some (.binary location .and)
  | .OR => some (.binary location .or)
  | .XOR => some (.binary location .xor)
  | _ => none

/-- A row with an operand, if there is one, before it. -/
def after (pending : Option Expr) (items : List Item) : List Item :=
  match pending with
  | some e => .operand e :: items
  | none => items

end Item

/-- A whole number, if it fits 64 bits. -/
def wholeNumber? (base : Nat) (digits : String) : Option Int64 :=
  let n := Decimal.valueIn base digits.toList
  if n < 0x8000000000000000 then some (Int64.ofInt n) else none

/-- The literal a word stands for, or none if the word is no literal. -/
def literal? (location : Location) : Lexeme → Checked (Option Expr)
  | .integer digits =>
    match wholeNumber? 10 digits with
    | some n => .ok (some (.integer location n))
    | none => .error (Rule.wrongNumberFormat.about location digits)
  | .binary digits =>
    match wholeNumber? 2 digits with
    | some n => .ok (some (.integer location n))
    | none => .error (Rule.wrongNumberFormat.about location ("0b" ++ digits))
  | .real digits =>
    match Fixed.ofString? digits with
    | some x => .ok (some (.real location x))
    | none => .error (Rule.wrongNumberFormat.about location digits)
  | .text content => .ok (some (.text location content))
  | .keyword .TRUE => .ok (some (.boolean location true))
  | .keyword .FALSE => .ok (some (.boolean location false))
  | _ => .ok none

/-- The items of a row of tokens.  `inner` reads what stands between parentheses; `pending` is the
operand read last, to which members may still be added. -/
def items (line : Line) (inner : Location → List Token → Checked Expr) :
    Option Expr → List Token → Checked (List Item)
  | pending, [] => .ok (Item.after pending [])
  | some target, .leaf _ .dot :: .leaf span (.ident field) :: rest =>
    items line inner (some (.member (line.location span) target field)) rest
  | some _, .leaf _ .dot :: t :: _ => .error (Rule.expectedFieldName.here (line.location t.span))
  | some _, [.leaf span .dot] => .error (Rule.expectedFieldName.here (line.location span))
  | pending, .leaf span (.ident name) :: .group outer arguments :: rest => do
    let args ← (← pieces line (line.location outer) arguments).mapM fun piece =>
      inner (pieceStart line piece) piece
    return Item.after pending
      (← items line inner (some (.call (line.location span) name args)) rest)
  | pending, .leaf span (.ident name) :: rest => do
    return Item.after pending (← items line inner (some (.name (line.location span) name)) rest)
  | pending, .group span tokens :: rest => do
    let e ← inner (line.location span) tokens
    return Item.after pending (← items line inner (some e) rest)
  | pending, .leaf span (.symbol s) :: rest => do
    return Item.after pending
      (.ofSymbol (line.location span) pending.isSome s :: (← items line inner none rest))
  | pending, .leaf span word :: rest => do
    let here := line.location span
    match ← literal? here word with
    | some e => return Item.after pending (← items line inner (some e) rest)
    | none =>
      match word with
      | .keyword k =>
        match Item.ofKeyword? here k with
        | some item => return Item.after pending (item :: (← items line inner none rest))
        | none => throw (Rule.unexpectedSequence.about here k.spelling)
      | _ => throw (Rule.unexpectedSequence.here here)

/-! ## Binding operators -/

/-- Binds one operator to the operand right after it, if it is one of `ops`. -/
def bindUnary (ops : List UnaryOp) (item : Item) (rest : List Item) : List Item :=
  match item, rest with
  | .unary location op, .operand e :: rest' =>
    if ops.contains op then .operand (.unary location op e) :: rest' else item :: rest
  | _, _ => item :: rest

/-- **Prefix operators bind from right to left**: `- - x` is `-(-x)`. -/
def unaryPass (ops : List UnaryOp) (row : List Item) : List Item := row.foldr (bindUnary ops) []

/-- Binds the operators of a tier, from left to right, `left` standing before the row. -/
def binaryFrom (tier : Nat) (left : Item) : List Item → List Item
  | [] => [left]
  | .binary location op :: .operand r :: rest =>
    match left with
    | .operand l =>
      if op.tier = tier then binaryFrom tier (.operand (.binary location op l r)) rest
      else left :: binaryFrom tier (.binary location op) (.operand r :: rest)
    | _ => left :: binaryFrom tier (.binary location op) (.operand r :: rest)
  | item :: rest => left :: binaryFrom tier item rest

/-- **Binary operators of one tier bind from left to right.** -/
def binaryPass (tier : Nat) : List Item → List Item
  | [] => []
  | item :: rest => binaryFrom tier item rest

/-- The passes in their order. -/
def bindAll (row : List Item) : List Item :=
  (List.range BinaryOp.tiers).foldl (fun row tier => binaryPass tier row)
    (unaryPass [.not] (unaryPass [.plus, .minus] row))

/-- The one operand that is left, or what stands in its way. -/
def single (place : Location) : List Item → Checked Expr
  | [.operand e] => .ok e
  | .operand _ :: .operand e :: _ => .error (Rule.unexpectedSequence.here e.location)
  | .operand _ :: .unary location _ :: _ => .error (Rule.expectedExpression.here location)
  | .operand _ :: .binary location _ :: _ => .error (Rule.expectedExpression.here location)
  | .unary location _ :: _ => .error (Rule.expectedExpression.here location)
  | .binary location _ :: _ => .error (Rule.expectedExpression.here location)
  | [] => .error (Rule.expectedExpression.here place)

/-- A row of items as one expression. -/
def reduce (place : Location) (row : List Item) : Checked Expr := single place (bindAll row)

/-! ## Expressions -/

/-- Reads an expression whose parentheses stand less than `depth` deep. -/
def exprWithin (line : Line) : Nat → Location → List Token → Checked Expr
  | 0, place, _ => .error (Rule.expectedExpression.here place)
  | depth + 1, place, tokens =>
    if tokens.isEmpty then .error (Rule.expectedExpression.here place)
    else do reduce place (← items line (exprWithin line depth) none tokens)

/-- Reads all of a row of tokens as an expression; an empty row is refused at `place`. -/
def expr (line : Line) (place : Location) (tokens : List Token) : Checked Expr :=
  exprWithin line (Token.depths tokens + 1) place tokens

/-- Reads a line as one expression. -/
def Expr.ofLine (line : Line) : Checked Expr := expr line line.whole line.tokens

end Raw

/-- An expression up to the first of some reserved words, or to the end. -/
def Reading.expr (stops : List Keyword) : Reading Raw.Expr := do
  let here ← place
  let tokens ← before fun t => stops.any fun k => t.isKeyword k
  Raw.expr (← get).line here tokens

end ChannelBasic
