import ChannelBasic.Program.Expr

/-!
# Program/Stmt — statements that mean something

Statements over analysed expressions.  A variable is named by its number among the variables of its
function.  The parts of a statement are listed in one order everywhere, which is the order in which
literals are laid out and temporaries are numbered: an assignment's value before its target, a
loop's counter, bounds and step before its body.
-/

namespace ChannelBasic

/-- When a loop goes on. -/
structure Condition where
  /-- Tested after the body and not before. -/
  post : Bool
  /-- The loop ends when the value is true. -/
  negative : Bool
  value : Expr
  deriving Repr, Inhabited

/-- Where a counting loop keeps its end, its step and the sign of its step. -/
structure Temps where
  finish : Int
  step : Int
  sign : Int
  deriving DecidableEq, Repr, Inhabited

mutual

/-- A statement. -/
inductive Stmt where
  | var (location : Location) (index : Nat) (value : Option Expr)
  | assign (location : Location) (value target : Expr)
  | invoke (location : Location) (call : Expr)
  | return (location : Location) (value : Option Expr)
  | choose (location : Location) (branches : Branches)
  | count (location : Location) (counter start finish : Expr) (step : Option Expr)
      (body : List Stmt) (temps : Temps)
  | loop (location : Location) (condition : Option Condition) (body : List Stmt)

/-- The branches of an `IF`, up to its end or its `ELSE`. -/
inductive Branches where
  | done
  | otherwise (body : List Stmt)
  | branch (condition : Expr) (body : List Stmt) (rest : Branches)

end

instance : Inhabited Stmt := ⟨.return default none⟩

instance : Inhabited Branches := ⟨.done⟩

/-- The variables that a block declares itself, not those of blocks inside it. -/
def declared : List Stmt → List Nat
  | [] => []
  | .var _ index _ :: rest => index :: declared rest
  | _ :: rest => declared rest

/-! ## What a function mentions -/

/-- A text or a call, met on a walk through a function. -/
inductive Mention where
  | text (content : String) (type : Option TypeId)
  | call (callee : Option Nat)
  deriving DecidableEq, Repr

mutual

/-- Texts and calls in an expression: a call before its arguments. -/
def Expr.mentions : Expr → List Mention
  | .literal i (.text content) => [.text content i.type]
  | .literal _ _ => []
  | .name _ _ _ => []
  | .member _ target _ _ => target.mentions
  | .call _ _ arguments callee => .call callee :: Expr.mentionsAll arguments
  | .unary _ _ operand => operand.mentions
  | .binary _ _ left right => left.mentions ++ right.mentions
  | .cast _ operand => operand.mentions
  | .pointer _ target _ => target.mentions

/-- Texts and calls in some expressions. -/
def Expr.mentionsAll : List Expr → List Mention
  | [] => []
  | e :: rest => e.mentions ++ Expr.mentionsAll rest

end

/-- Texts and calls in an expression that may be missing. -/
def Expr.mentionsOf : Option Expr → List Mention
  | some e => e.mentions
  | none => []

mutual

/-- Texts and calls in a statement. -/
def Stmt.mentions : Stmt → List Mention
  | .var _ _ value => Expr.mentionsOf value
  | .assign _ value target => value.mentions ++ target.mentions
  | .invoke _ call => call.mentions
  | .return _ value => Expr.mentionsOf value
  | .choose _ branches => branches.mentions
  | .count _ counter start finish step body _ =>
    counter.mentions ++ start.mentions ++ finish.mentions ++ Expr.mentionsOf step ++
      Stmt.mentionsAll body
  | .loop _ condition body =>
    Expr.mentionsOf (condition.map (·.value)) ++ Stmt.mentionsAll body

/-- Texts and calls in some statements. -/
def Stmt.mentionsAll : List Stmt → List Mention
  | [] => []
  | s :: rest => s.mentions ++ Stmt.mentionsAll rest

/-- Texts and calls in the branches of an `IF`. -/
def Branches.mentions : Branches → List Mention
  | .done => []
  | .otherwise body => Stmt.mentionsAll body
  | .branch condition body rest =>
    condition.mentions ++ Stmt.mentionsAll body ++ rest.mentions

end

end ChannelBasic
