import ChannelBasic.Emission.Basic

/-!
# Emission/Expr — code for expressions

The code of an expression leaves the expression's value on the stack and nothing else.  The right
operand of an operator is computed before the left one, and the last argument of a call before the
others, so that the left operand and the first argument end up on top.
-/

namespace ChannelBasic.Emission

open Code

/-- The code that pushes a literal as a value of a type. -/
def literal (ctx : EmissionContext) (place : Location) (value : Literal) (type : TypeId) :
    Emission (List Piece) := do
  let types := ctx.program.types
  let kind := types.valueType type
  let size ← sizeOf ctx place type
  let bytes := Word.size32 size
  match value with
  | .boolean b => return [.op (.loadImmediate bytes (if b then 1 else 0))]
  | .integral n =>
    let raw := if kind = .real then (Fixed.ofInt n).raw else n
    return [.op (.loadImmediate bytes raw)]
  | .real x =>
    let raw := if kind.isIntegral then x.toInt else x.raw
    return [.op (.loadImmediate bytes raw)]
  | .text content =>
    let capacity := (types.capacity? type).getD (Utf16.units content)
    return [.op (.load .global bytes (← intern content capacity))]

/-- The code that pushes what lies at a place. -/
def loadPlace (ctx : EmissionContext) (e : Expr) : Emission (List Piece) := do
  let (_, size) ← typed ctx e
  match ctx.place? e with
  | some (.frame offset) => return [loadFrame size offset]
  | some (.data offset) =>
    return [.op (.load .global (Word.size32 size) (.dynamic (Int32.ofInt offset)))]
  | none => throw (Rule.internalError.about e.location "NO ADDRESS")

/-- The code that pops a value into the place that an expression stands for. -/
def store (ctx : EmissionContext) (target : Expr) : Emission (List Piece) := do
  let (_, size) ← typed ctx target
  match ctx.place? target with
  | some (.frame offset) => return [storeFrame size offset]
  | some (.data offset) =>
    return [.op (.store .global (Word.size32 size) (.dynamic (Int32.ofInt offset)))]
  | none => throw (Rule.expressionIsNotAssignable.here target.location)

/-- The code that pushes the address of a target that has one. -/
def address (ctx : EmissionContext) (target : Expr) : Emission (List Piece) := do
  match ctx.place? target with
  | some (.frame offset) => return [.op (.load .framePointer 4 (.value (Int32.ofInt offset)))]
  | some (.data offset) => return [.op (.load .immediate 4 (.dynamic (Int32.ofInt offset)))]
  | none =>
    match target.fold ctx.program.types ctx.program.constantValue with
    | some (.text content) =>
      let type ← typeOf target
      let capacity := (ctx.program.types.capacity? type).getD (Utf16.units content)
      return [.op (.load .immediate 4 (← intern content capacity))]
    | _ => throw (Rule.internalError.about target.location "NO ADDRESS")

/-- Whether operators work on values of a type. -/
def isOperable : ValueType → Bool
  | .unknown | .pointer | .array | .struct => false
  | _ => true

/-- The instruction of a binary operator. -/
def operator (op : BinaryOp) (place : Location) (kind : ValueType) (left right : Nat)
    (result : Emission Nat) : Emission Piece := do
  match op.comparison?, op.opcode? with
  | some c, _ => return .op (.compare kind c (Word.size32 left) (Word.size32 right))
  | none, some code =>
    return .op (.binary code kind (Word.size32 left) (Word.size32 right)
      (Word.size32 (← result)))
  | none, none =>
    throw (Rule.internalError.about place ("NO INSTRUCTION FOR " ++ op.spelling))

/-- The instruction that calls a function. -/
def callee (f : Function) (index : Nat) : Emission Piece := do
  match f.body with
  | .native _ => return .op (.call .native (← internName f.name))
  | .user _ => return .op (.call .user (.label (← entry index)))

mutual

/-- The code that pushes the value of an expression. -/
def load (ctx : EmissionContext) : Expr → Emission (List Piece)
  | .literal i value => do
    let type ← typeOf (.literal i value)
    literal ctx i.location value type
  | .name i name decl => do
    match decl with
    | some (.constant index) =>
      match ctx.program.constantValue index with
      | some value =>
        let type ← typeOf (.name i name decl)
        literal ctx i.location value (ctx.program.types.base type)
      | none => throw (Rule.expectedConstantExpression.here i.location)
    | _ => loadPlace ctx (.name i name decl)
  | .member i target field decl => loadPlace ctx (.member i target field decl)
  | .call i _ arguments index => do
    match index.bind fun n => (ctx.program.functions[n]?).map fun f => (f, n) with
    | none => throw (Rule.cannotResolveSymbol.here i.location)
    | some (f, n) =>
      let result ← resultRoom ctx.program.types i.location f.returns
      let (pushed, bytes) ← loadArguments ctx arguments
      let call ← callee f n
      let dropped := if bytes = 0 then [] else [Piece.op (.pop (Word.size32 bytes))]
      return result ++ pushed ++ [call] ++ dropped
  | .unary _ op operand => do
    let code ← load ctx operand
    let (kind, size) ← typed ctx operand
    match op with
    | .plus => return code
    | .minus => return code ++ [.op (.unary .NEG kind (Word.size32 size))]
    | .not => return code ++ [.op (.unary .NOT kind (Word.size32 size))]
  | .binary i op left right => do
    let (kind, leftSize) ← typed ctx left
    let (_, rightSize) ← typed ctx right
    unless isOperable kind do
      throw (Rule.internalError.about i.location
        ("NO INSTRUCTION FOR " ++ kind.spelling ++ " " ++ op.spelling))
    let rightCode ← load ctx right
    let leftCode ← load ctx left
    let result : Emission Nat := do return (← typed ctx (.binary i op left right)).2
    return rightCode ++ leftCode ++ [← operator op i.location kind leftSize rightSize result]
  | .cast i operand => do
    let code ← load ctx operand
    let (source, sourceSize) ← typed ctx operand
    let (target, targetSize) ← typed ctx (.cast i operand)
    return code ++
      [.op (.cast source (Word.size32 sourceSize) target (Word.size32 targetSize))]
  | .pointer _ target temp => do
    match temp with
    | some offset =>
      let (_, size) ← typed ctx target
      let code ← load ctx target
      return code ++ [storeFrame size offset,
        .op (.load .framePointer 4 (.value (Int32.ofInt offset)))]
    | none => address ctx target

/-- The code that pushes arguments, the last one first, and how many bytes they take. -/
def loadArguments (ctx : EmissionContext) : List Expr → Emission (List Piece × Nat)
  | [] => return ([], 0)
  | e :: rest => do
    let (later, bytes) ← loadArguments ctx rest
    let code ← load ctx e
    let (_, size) ← typed ctx e
    return (later ++ code, bytes + size)

end

end ChannelBasic.Emission
