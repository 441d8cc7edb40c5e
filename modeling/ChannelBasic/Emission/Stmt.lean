import ChannelBasic.Emission.Expr

/-!
# Emission/Stmt — code for statements

The code of a statement leaves the stack as it found it.  Conditions branch over code; a counting
loop ends once its counter minus its end has the sign of its step.
-/

namespace ChannelBasic.Emission

open Code

/-- The code that gives a variable its first value: zeros, and an empty record for each string. -/
def initialise (ctx : EmissionContext) (index : Nat) : Emission (List Piece) := do
  match ctx.body.locals[index]? with
  | none => throw (Rule.internalError.about ctx.function.location "NOT A VARIABLE")
  | some v =>
    match v.type with
    | none => throw (Rule.internalError.about v.location "UNTYPED NODE")
    | some type =>
      let size ← sizeOf ctx v.location type
      let strings := ctx.program.strings type
      let isOneRecord := match strings with
        | (offset, capacity) :: _ => offset == 0 && stringSize capacity == size
        | [] => false
      let zeros := if isOneRecord then [] else [loadZeros size, storeFrame size v.offset]
      let records ← strings.mapM fun (offset, capacity) => do
        let bytes := stringSize capacity
        let empty ← intern "" capacity
        return [Piece.op (.load .global (Word.size32 bytes) empty),
          storeFrame bytes (v.offset + offset)]
      return zeros ++ records.flatten

/-- The type of the variable with a number, and its size. -/
def localSize (ctx : EmissionContext) (place : Location) (index : Nat) : Emission Nat := do
  match (ctx.body.locals[index]?).bind (·.type) with
  | some type => sizeOf ctx place type
  | none => throw (Rule.internalError.about place "UNTYPED NODE")

/-- Where a variable lies. -/
def localOffset (ctx : EmissionContext) (index : Nat) : Int :=
  ((ctx.body.locals[index]?).map (·.offset)).getD 0

/-- The code that leaves the function. -/
def leave (ctx : EmissionContext) : List Piece :=
  [.op (.leave (Word.size32 ctx.body.frame.locals)), .op .ret]

/-- The code of a return. -/
def returnCode (ctx : EmissionContext) : Option Expr → Emission (List Piece)
  | none => return leave ctx
  | some e => do
    match ctx.function.returns with
    | none => throw (Rule.internalError.about ctx.function.location "UNTYPED NODE")
    | some type =>
      let size ← sizeOf ctx ctx.function.location type
      let code ← load ctx e
      return code ++ [storeFrame size ctx.body.frame.result] ++ leave ctx

/-- The instruction that branches away from a loop, or back into it. -/
def branchOn (value : Bool) (target : Label) : Piece :=
  .op (.branch (if value then .true else .false) target)

/-- The code that pushes the step of a counting loop, which is one if none is given. -/
def stepCode (ctx : EmissionContext) (place : Location) (type : TypeId) :
    Option Expr → Emission (List Piece)
  | some e => load ctx e
  | none => literal ctx place (.integral 1) type

/-- The code before a counting loop: end, step and sign of the step are kept, the counter gets its
first value. -/
def countStart (ctx : EmissionContext) (counter start finish : Expr) (step : Option Expr)
    (temps : Temps) : Emission (List Piece) := do
  let type ← typeOf counter
  let (kind, size) ← typed ctx counter
  let finishCode ← load ctx finish
  let stepCode ← stepCode ctx counter.location type step
  let startCode ← load ctx start
  let storeCode ← store ctx counter
  return finishCode ++ [storeFrame size temps.finish] ++ stepCode ++
    [.op (.dup (Word.size32 size)), storeFrame size temps.step,
      .op (.unary .SIGN kind (Word.size32 size)), storeFrame 1 temps.sign] ++
    startCode ++ storeCode

/-- The code that leaves a counting loop when it is over. -/
def countTest (ctx : EmissionContext) (counter : Expr) (temps : Temps) (exit : Label) :
    Emission (List Piece) := do
  let (kind, size) ← typed ctx counter
  let bytes := Word.size32 size
  let code ← load ctx counter
  return [loadFrame size temps.finish] ++ code ++
    [.op (.binary .SUB kind bytes bytes bytes), .op (.unary .SIGN kind bytes),
      loadFrame 1 temps.sign, .op (.compare .byte .equal 1 1), branchOn true exit]

/-- The code that adds the step to the counter. -/
def countNext (ctx : EmissionContext) (counter : Expr) (temps : Temps) :
    Emission (List Piece) := do
  let (kind, size) ← typed ctx counter
  let bytes := Word.size32 size
  let code ← load ctx counter
  let storeCode ← store ctx counter
  return [loadFrame size temps.step] ++ code ++ [.op (.binary .ADD kind bytes bytes bytes)] ++
    storeCode

mutual

/-- The code of a statement. -/
def stmt (ctx : EmissionContext) : Stmt → Emission (List Piece)
  | .var l index (some value) => do
    let size ← localSize ctx l index
    let code ← load ctx value
    return code ++ [storeFrame size (localOffset ctx index)]
  | .var _ index none => initialise ctx index
  | .assign _ value target => do
    let code ← load ctx value
    return code ++ (← store ctx target)
  | .invoke _ call => do
    let code ← load ctx call
    match call.type? with
    | some _ =>
      let (_, size) ← typed ctx call
      return code ++ [.op (.pop (Word.size32 size))]
    | none => return code
  | .return _ value => returnCode ctx value
  | .choose _ branches => do
    let exit ← label
    let code ← choices ctx exit branches
    return code ++ [.mark exit]
  | .count _ counter start finish step body temps => do
    let before ← countStart ctx counter start finish step temps
    let head ← label
    let exit ← label
    let test ← countTest ctx counter temps exit
    let code ← stmts ctx body
    let next ← countNext ctx counter temps
    return before ++ [.mark head] ++ test ++ code ++ next ++ [.op (.jump head), .mark exit]
  | .loop _ none body => do
    let head ← label
    let exit ← label
    let code ← stmts ctx body
    return [.mark head] ++ code ++ [.op (.jump head), .mark exit]
  | .loop _ (some c) body => do
    let head ← label
    let exit ← label
    if c.post then
      let code ← stmts ctx body
      let test ← load ctx c.value
      return [.mark head] ++ code ++ test ++ [branchOn (!c.negative) head, .mark exit]
    else
      let test ← load ctx c.value
      let code ← stmts ctx body
      return [.mark head] ++ test ++ [branchOn c.negative exit] ++ code ++
        [.op (.jump head), .mark exit]

/-- The code of some statements. -/
def stmts (ctx : EmissionContext) : List Stmt → Emission (List Piece)
  | [] => return []
  | s :: rest => do
    let code ← stmt ctx s
    return code ++ (← stmts ctx rest)

/-- The code of the branches of an `IF`; each but the last jumps to the exit. -/
def choices (ctx : EmissionContext) (exit : Label) : Branches → Emission (List Piece)
  | .done => return []
  | .otherwise body => stmts ctx body
  | .branch condition body rest => do
    let next ← label
    let test ← load ctx condition
    let code ← stmts ctx body
    let skip := match rest with
      | .done => []
      | _ => [Piece.op (.jump exit)]
    let others ← choices ctx exit rest
    return test ++ [branchOn false next] ++ code ++ skip ++ [.mark next] ++ others

end

/-- The code of a function: implicit variables get their first values, then the body runs. -/
def function (ctx : EmissionContext) : Emission (List Piece) := do
  let first ← ctx.body.implicit.mapM (initialise ctx)
  let code ← stmts ctx ctx.body.statements
  return [.op (.enter (Word.size32 ctx.body.frame.locals))] ++ first.flatten ++ code ++ leave ctx

end ChannelBasic.Emission
