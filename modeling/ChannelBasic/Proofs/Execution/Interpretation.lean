import ChannelBasic.Proofs.Execution.Evaluation

/-!
# Proofs/Execution/Interpretation — what a function comes to

A function without calls, addresses and counting loops can be run along its tree, without any code:
a `Store` knows the byte at each of its places, and `s.exec ctx fuel σ` says **what a statement makes
of a store** — the function goes on, has returned, has faulted, or is not done when `fuel` rounds of
a loop are over.  Of an `IF` the first branch whose condition is true is run, or else the `ELSE`; a
loop is tested before each round or after it, or never, and goes on while its condition is true, or
`UNTIL` it is; a `RETURN` ends the function at once.
-/

namespace ChannelBasic

open Code

/-! ## Stores -/

/-- How far behind a place another one lies, if both are counted from the same base. -/
def Place.behind? : Place → Place → Option Nat
  | .frame offset, .frame offset' | .data offset, .data offset' =>
    if offset ≤ offset' then some (offset' - offset).toNat else none
  | _, _ => none

/-- The byte at each place of a function. -/
@[ext]
structure Store where
  byte : Place → UInt8

namespace Store

/-- The bytes from a place on. -/
def read (σ : Store) (place : Place) (n : Nat) : List UInt8 :=
  (List.range n).map fun i => σ.byte (place.plus i)

/-- The store with bytes put at a place. -/
def write (σ : Store) (place : Place) (data : List UInt8) : Store where
  byte p := ((place.behind? p).bind (data[·]?)).getD (σ.byte p)

@[simp] theorem length_read (σ : Store) (place : Place) (n : Nat) :
    (σ.read place n).length = n := by
  simp [read]

theorem getElem?_read (σ : Store) (place : Place) {n i : Nat} (hi : i < n) :
    (σ.read place n)[i]? = some (σ.byte (place.plus i)) := by
  simp [read, hi]

/-- What is put over something else hides it. -/
theorem write_write (σ : Store) (place : Place) {xs ys : List UInt8} (h : xs.length ≤ ys.length) :
    (σ.write place xs).write place ys = σ.write place ys := by
  ext p
  simp only [write]
  cases hp : place.behind? p with
  | none => rfl
  | some i =>
    by_cases hi : i < ys.length
    · simp [hi]
    · simp [List.getElem?_eq_none (Nat.le_of_not_lt hi),
        List.getElem?_eq_none (h.trans (Nat.le_of_not_lt hi))]

end Store

/-! ## How a part of a function ends -/

/-- What a part of a function comes to. -/
inductive Completion where
  /-- The part is done, and the function goes on behind it. -/
  | next (σ : Store)
  | returned (σ : Store)
  | faulted (f : Fault)
  /-- There was not enough fuel. -/
  | unfinished

namespace Completion

/-- What follows a part of a function, if the function goes on. -/
def andThen : Completion → (Store → Completion) → Completion
  | .next σ, f => f σ
  | c, _ => c

/-- What is done with something computed, unless the computation faults. -/
def given {α : Type} : Except Fault α → (α → Completion) → Completion
  | .ok a, f => f a
  | .error e, _ => .faulted e

end Completion

/-! ## The interpreter -/

/-- Whether a condition is true. -/
def Expr.holds (ctx : EmissionContext) (σ : Store) (e : Expr) : Except Fault Bool := do
  match ← e.eval ctx σ.read with
  | .boolean b => return b
  | _ => throw .badInstruction

/-- The value of an expression is put at a place. -/
def Expr.put (ctx : EmissionContext) (place : Option Place) (σ : Store) (e : Expr) : Completion :=
  match place with
  | some place => .given (e.bytes ctx σ.read) fun data => .next (σ.write place data)
  | none => .faulted .badInstruction

/-- Whether a loop goes on: `WHILE` does as long as its condition is true, `UNTIL` as long as it is
not. -/
def Condition.goesOn (c : Condition) (b : Bool) : Bool := b != c.negative

namespace EmissionContext

/-- The store once a variable has its first value: zeros, and an empty record for each string. -/
def cleared (ctx : EmissionContext) (σ : Store) (index : Nat) : Store :=
  match ctx.body.locals[index]?, (ctx.body.locals[index]?).bind (·.type) with
  | some v, some t =>
    (ctx.program.strings t).foldl
      (fun σ r => σ.write (.frame (v.offset + r.1)) (encodeString [] (stringSize r.2)))
      (σ.write (.frame v.offset) (List.replicate ((ctx.program.types.size? t).getD 0) 0))
  | _, _ => σ

/-- A loop of at most some rounds, given what its body makes of a store. -/
def rounds (ctx : EmissionContext) (condition : Option Condition) (body : Store → Completion) :
    Nat → Store → Completion
  | 0, _ => .unfinished
  | n + 1, σ =>
    match condition with
    | none => (body σ).andThen (ctx.rounds condition body n)
    | some c =>
      if c.post then
        (body σ).andThen fun σ => .given (c.value.holds ctx σ) fun b =>
          if c.goesOn b then ctx.rounds condition body n σ else .next σ
      else
        .given (c.value.holds ctx σ) fun b =>
          if c.goesOn b then (body σ).andThen (ctx.rounds condition body n) else .next σ

end EmissionContext

mutual

/-- What a statement makes of a store, no loop having more than `fuel` rounds.  Calls and counting
loops are none of the statements that are run here. -/
def Stmt.exec (ctx : EmissionContext) (fuel : Nat) : Stmt → Store → Completion
  | .var _ index none, σ => .next (ctx.cleared σ index)
  | .var _ index (some e), σ => e.put ctx (ctx.declarationPlace? (.localVar index)) σ
  | .assign _ value target, σ => value.put ctx (ctx.place? target) σ
  | .return _ none, σ => .returned σ
  | .return _ (some e), σ => (e.put ctx (some (.frame ctx.body.frame.result)) σ).andThen .returned
  | .choose _ branches, σ => branches.exec ctx fuel σ
  | .loop _ condition body, σ => ctx.rounds condition (Stmt.execAll ctx fuel body) fuel σ
  | .invoke _ _, _ | .count _ _ _ _ _ _ _, _ => .faulted .badInstruction

/-- What some statements make of a store, one after the other. -/
def Stmt.execAll (ctx : EmissionContext) (fuel : Nat) : List Stmt → Store → Completion
  | [], σ => .next σ
  | s :: rest, σ => (s.exec ctx fuel σ).andThen (Stmt.execAll ctx fuel rest)

/-- The first branch whose condition is true makes of a store what its body does, else the last one
without a condition. -/
def Branches.exec (ctx : EmissionContext) (fuel : Nat) : Branches → Store → Completion
  | .done, σ => .next σ
  | .otherwise body, σ => Stmt.execAll ctx fuel body σ
  | .branch condition body rest, σ => .given (condition.holds ctx σ) fun b =>
      if b then Stmt.execAll ctx fuel body σ else rest.exec ctx fuel σ

end

/-- What a function makes of a store: implicit variables get their first values, then the body is
run, and its end is a return. -/
def EmissionContext.exec (ctx : EmissionContext) (fuel : Nat) (σ : Store) : Completion :=
  (Stmt.execAll ctx fuel ctx.body.statements (ctx.body.implicit.foldl ctx.cleared σ)).andThen
    .returned

/-! ## What is interpreted -/

mutual

/-- Neither calls, addresses nor counting loops occur in the statement. -/
def Stmt.isStructured : Stmt → Bool
  | .var _ _ value | .return _ value => value.all Expr.isPlain
  | .assign _ value target => value.isPlain && target.isPlain
  | .choose _ branches => branches.isStructured
  | .loop _ condition body => condition.all (·.value.isPlain) && Stmt.areStructured body
  | .invoke _ _ | .count _ _ _ _ _ _ _ => false

/-- Neither calls, addresses nor counting loops occur in the statements. -/
def Stmt.areStructured : List Stmt → Bool
  | [] => true
  | s :: rest => s.isStructured && Stmt.areStructured rest

/-- Neither calls, addresses nor counting loops occur in the branches. -/
def Branches.isStructured : Branches → Bool
  | .done => true
  | .otherwise body => Stmt.areStructured body
  | .branch condition body rest =>
    condition.isPlain && Stmt.areStructured body && rest.isStructured

end

/-! ## Room on the stack -/

/-- Bytes of a variable. -/
def EmissionContext.localSize (ctx : EmissionContext) (index : Nat) : Nat :=
  (((ctx.body.locals[index]?).bind (·.type)).bind ctx.program.types.size?).getD 0

/-- The most bytes of the stack that are in use while an expression is computed, if there is one. -/
def Expr.roomOf (ctx : EmissionContext) : Option Expr → Nat
  | some e => e.room ctx
  | none => 0

mutual

/-- The most bytes of the stack that are in use while a statement without calls is run. -/
def Stmt.room (ctx : EmissionContext) : Stmt → Nat
  | .var _ index none => ctx.localSize index
  | .var _ _ (some e) | .assign _ e _ | .invoke _ e | .return _ (some e) => e.room ctx
  | .return _ none => 0
  | .choose _ branches => branches.room ctx
  | .count _ counter start finish step body _ =>
    max (max (counter.room ctx) (start.room ctx))
      (max (max (finish.room ctx) (Expr.roomOf ctx step)) (Stmt.roomAll ctx body))
  | .loop _ condition body =>
    max (Expr.roomOf ctx (condition.map (·.value))) (Stmt.roomAll ctx body)

/-- The most bytes of the stack that are in use while some statements are run. -/
def Stmt.roomAll (ctx : EmissionContext) : List Stmt → Nat
  | [] => 0
  | s :: rest => max (s.room ctx) (Stmt.roomAll ctx rest)

/-- The most bytes of the stack that are in use while the branches of an `IF` are run. -/
def Branches.room (ctx : EmissionContext) : Branches → Nat
  | .done => 0
  | .otherwise body => Stmt.roomAll ctx body
  | .branch condition body rest =>
    max (condition.room ctx) (max (Stmt.roomAll ctx body) (rest.room ctx))

end

/-- The most bytes that a function without calls pushes, its variables and its link apart. -/
def EmissionContext.room (ctx : EmissionContext) : Nat :=
  ctx.body.implicit.foldr (fun index n => max (ctx.localSize index) n)
    (Stmt.roomAll ctx ctx.body.statements)

end ChannelBasic
