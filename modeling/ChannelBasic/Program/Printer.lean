import ChannelBasic.Program.Basic

/-!
# Program/Printer — a program written out again

The text of an analysed program.  Casts and pointers are not written, since checking puts them back;
operands with a value are written as that value, and every variable with its type.  Operators inside
operators stand in parentheses, so that no precedence is needed.
-/

namespace ChannelBasic

/-! ## Expressions -/

namespace Expr

/-- Whether an expression stands in parentheses where it is an operand. -/
def isCompound : Expr → Bool
  | .unary .. | .binary .. => true
  | .literal _ (.integral n) => n < 0
  | .literal _ (.real x) => x.sign < 0
  | .cast _ operand => operand.isCompound
  | .pointer _ target _ => target.isCompound
  | _ => false

/-- The text of an operand, given the text of the expression. -/
def asOperand (e : Expr) (text : List Char) : List Char :=
  if e.isCompound then '(' :: text ++ [')'] else text

mutual

/-- How an expression is written. -/
def chars : Expr → List Char
  | .literal _ value => value.chars
  | .name _ n _ => n.toList
  | .member _ target field _ => target.asOperand target.chars ++ '.' :: field.toList
  | .call _ function arguments _ => function.toList ++ '(' :: argumentChars arguments ++ [')']
  | .unary _ op operand => op.spelling.toList ++ operand.asOperand operand.chars
  | .binary _ op left right =>
    left.asOperand left.chars ++ ' ' :: op.spelling.toList ++ ' ' :: right.asOperand right.chars
  | .cast _ operand => operand.chars
  | .pointer _ target _ => target.chars

/-- How the arguments of a call are written. -/
def argumentChars : List Expr → List Char
  | [] => []
  | [e] => e.chars
  | e :: rest => e.chars ++ ',' :: ' ' :: argumentChars rest

end

/-- How an expression is written. -/
def render (e : Expr) : String := String.ofList e.chars

end Expr

namespace Printer

/-- Lines one tab further in. -/
def indented (ls : List String) : List String := ls.map ("\t" ++ ·)

/-- Lines between a first and a last one, one tab further in. -/
def enclosed (first : String) (ls : List String) (last : String) : List String :=
  first :: indented ls ++ [last]

/-- Texts with commas between them. -/
def commas (texts : List String) : String := ", ".intercalate texts

/-- The text ` AS type`, for a type that is known. -/
def typed (types : TypeTable) : Option TypeId → String
  | some type => " AS " ++ types.name type
  | none => ""

/-! ## Statements -/

/-- The text of a declaration of a variable. -/
def var (types : TypeTable) (v : Local) (value : Option Expr) : String :=
  let first := match value with
    | some e => " = " ++ e.render
    | none => ""
  "VAR " ++ v.name ++ first ++ typed types v.type

/-- The condition of a loop, as it stands at one of the loop's ends. -/
def condition (c : Condition) : String :=
  (if c.negative then " UNTIL " else " WHILE ") ++ c.value.render

mutual

/-- The lines of a statement. -/
def stmt (types : TypeTable) (locals : Array Local) : Stmt → List String
  | .var _ index value => [var types (locals.getD index default) value]
  | .assign _ value target => [target.render ++ " = " ++ value.render]
  | .invoke _ call => [call.render]
  | .return _ (some value) => ["RETURN " ++ value.render]
  | .return _ none => ["RETURN"]
  | .choose _ branches => choices types locals "IF " branches
  | .count _ counter start finish step body _ =>
    let stride := match step with
      | some e => " STEP " ++ e.render
      | none => ""
    enclosed
      ("FOR " ++ counter.render ++ " = " ++ start.render ++ " TO " ++ finish.render ++ stride)
      (stmts types locals body) ("NEXT " ++ counter.render)
  | .loop _ c body =>
    let (head, tail) := match c with
      | some c => if c.post then ("", condition c) else (condition c, "")
      | none => ("", "")
    enclosed ("DO" ++ head) (stmts types locals body) ("LOOP" ++ tail)

/-- The lines of some statements. -/
def stmts (types : TypeTable) (locals : Array Local) : List Stmt → List String
  | [] => []
  | s :: rest => stmt types locals s ++ stmts types locals rest

/-- The lines of the branches of an `IF`, each starting with a word. -/
def choices (types : TypeTable) (locals : Array Local) (word : String) : Branches → List String
  | .done => ["END IF"]
  | .otherwise body => enclosed "ELSE" (stmts types locals body) "END IF"
  | .branch e body rest =>
    (word ++ e.render ++ " THEN") :: indented (stmts types locals body) ++
      choices types locals "ELSE IF " rest

end

/-! ## Declarations -/

/-- The line of a field. -/
def field (types : TypeTable) (f : Slot) : String := f.name ++ typed types (some f.type)

/-- The lines of a function. -/
def function (types : TypeTable) (f : Function) : List String :=
  let title (arguments : List String) : String :=
    "FUNCTION " ++ f.name ++ "(" ++ commas arguments ++ ")" ++ typed types f.returns
  match f.body with
  | .native arguments => ["DECLARE " ++ title (arguments.map types.name)]
  | .user body =>
    enclosed (title (body.arguments.map (field types)))
      (stmts types body.locals body.statements) "END FUNCTION"

/-- The lines of some functions, by their numbers. -/
def functions (p : Program) (numbers : List Nat) : List String :=
  (numbers.filterMap (p.functions[·]?)).flatMap (function p.types)

/-- The line of a constant. -/
def constant (types : TypeTable) (c : Constant) : String :=
  c.name ++ " = " ++ c.value.render ++ typed types c.type

/-- The lines of a structured type. -/
def struct (types : TypeTable) (s : Struct) : List String :=
  enclosed ("TYPE " ++ s.name) (s.fields.map (field types)) "END TYPE"

/-- The lines of a library. -/
def library (p : Program) (l : Library) : List String :=
  let executors := if l.executors.isEmpty then "" else " " ++ commas l.executors
  enclosed ("CODE" ++ executors) (functions p l.functions) "END CODE"

/-- The functions of a module, `MAIN` first. -/
def mainFirst (p : Program) (numbers : List Nat) : List Nat :=
  let isMain (number : Nat) : Bool := ((p.functions[number]?).map (·.name)) == some "MAIN"
  numbers.filter isMain ++ numbers.filter (!isMain ·)

/-- The lines of a module. -/
def module (p : Program) (m : Module) : List String :=
  let dataSets := m.dataSets.flatMap fun d =>
    enclosed ("DATA " ++ d.access.spelling) (d.fields.map (field p.types)) "END DATA"
  let code := enclosed "CODE" (functions p (mainFirst p m.functions)) "END CODE"
  enclosed ("MODULE " ++ m.name ++ " " ++ m.executor) (dataSets ++ code) "END MODULE"

end Printer

/-- The lines of a program. -/
def Program.source (p : Program) : List String :=
  let constants :=
    if p.constants.isEmpty then []
    else Printer.enclosed "CONST" (p.constants.toList.map (Printer.constant p.types)) "END CONST"
  let channels :=
    if p.channels.isEmpty then []
    else
      Printer.enclosed "TRANSMISSION"
        (p.channels.map fun c => c.source.render ++ " TO " ++ c.destination.render)
        "END TRANSMISSION"
  constants ++ p.structs.toList.flatMap (Printer.struct p.types) ++
    p.libraries.flatMap (Printer.library p) ++ p.modules.flatMap (Printer.module p) ++ channels

end ChannelBasic
