import ChannelBasic.Proofs.Outcomes
import ChannelBasic.Proofs.Typing.Nodes

/-!
# Proofs/Typing/Recursion — definitions that need each other

A constant and the length of a string type are definitions; one depends on another if its value
names it, or if the declared type of a constant has such a length in it.  To calculate a value means
to follow the constants that it names to their values, which need not come to an end.  Expressions
that **settle** are those where it does because every constant on the way is evaluated.

* **Where all constants are evaluated, their values solve the recursion, and nothing else does**
  (`Expr.calculates_iff`).
* **From what can be calculated no definition that depends on itself can be reached**
  (`Program.Calculable.acyclic`).
-/

namespace ChannelBasic

open Relation

/-- What is given a value before the program runs, by its number. -/
inductive Definition where
  | constant (index : Nat)
  /-- The length of a string type. -/
  | length (index : Nat)
  deriving DecidableEq, Repr

/-! ## Dependencies -/

/-- A constant is named somewhere in an expression. -/
def Expr.Names (e : Expr) (k : Nat) : Prop :=
  ∃ i title, Expr.name i title (some (.constant k)) ∈ e.nodes

/-- A length stands in a type, below pointers and CONST. -/
inductive TypeTable.Holds (t : TypeTable) (n : Nat) : TypeId → Prop
  | pending {id : TypeId} (h : t.get id = .pending n) : t.Holds n id
  | pointer {id inner : TypeId} (h : t.get id = .pointer inner) (hn : t.Holds n inner) :
      t.Holds n id
  | constant {id inner : TypeId} (h : t.get id = .constant inner) (hn : t.Holds n inner) :
    t.Holds n id

namespace Program

/-- One definition takes another to be known. -/
inductive Depends (p : Program) : Definition → Definition → Prop
  | value {k m : Nat} {c : Constant} (hc : p.constants[k]? = some c) (hm : c.value.Names m) :
    p.Depends (.constant k) (.constant m)
  | type {k n : Nat} {c : Constant} {t : TypeId} (hc : p.constants[k]? = some c)
    (ht : c.type = some t) (hn : p.types.Holds n t) : p.Depends (.constant k) (.length n)
  | length {n m : Nat} {e : Expr} (he : p.lengths[n]? = some e) (hm : e.Names m) :
    p.Depends (.length n) (.constant m)

/-- All that a definition depends on comes to an end. -/
def Grounded (p : Program) (d : Definition) : Prop := Acc (Function.swap p.Depends) d

/-- How a definition is refused if it depends on itself. -/
def recursion? (p : Program) : Definition → Option Diagnostic
  | .constant k => (p.constants[k]?).map fun c => Rule.recursiveDefinition.about c.location c.name
  | .length n => (p.lengths[n]?).map fun e => Rule.recursiveDefinition.here e.location

variable {p : Program}

theorem grounded_constant {k : Nat} (hm : ∀ c, p.constants[k]? = some c → ∀ m, c.value.Names m →
    p.Grounded (.constant m)) (hn : ∀ c, p.constants[k]? = some c → ∀ t, c.type = some t →
      ∀ n, p.types.Holds n t → p.Grounded (.length n)) : p.Grounded (.constant k) :=
  ⟨_, fun _ h => match h with
    | .value hc hv => hm _ hc _ hv
    | .type hc ht hl => hn _ hc _ ht _ hl⟩

theorem grounded_length {n : Nat} (h : ∀ e, p.lengths[n]? = some e → ∀ m, e.Names m →
    p.Grounded (.constant m)) : p.Grounded (.length n) :=
  ⟨_, fun _ hd => match hd with
    | .length he hm => h _ he _ hm⟩

theorem Grounded.irrefl {d : Definition} (h : p.Grounded d) : ¬ TransGen p.Depends d d :=
  not_transGen_of_acc h

end Program

namespace Expr

section Names

variable {i : Info} {k : Nat}

@[simp] theorem names_literal {v : Literal} : ¬ (literal i v).Names k := by
  rintro ⟨_, _, h⟩
  simp [nodes] at h

@[simp] theorem names_name {title : String} {d : Option Declaration} :
    (name i title d).Names k ↔ d = some (.constant k) := by
  constructor
  · rintro ⟨_, _, h⟩
    cases List.mem_singleton.1 h
    rfl
  · rintro rfl
    exact ⟨i, title, mem_nodes _⟩

@[simp] theorem names_member {target : Expr} {field : String} {r : Option FieldRef} :
    (member i target field r).Names k ↔ target.Names k := by
  simp [Names, nodes]

@[simp] theorem names_call {f : String} {arguments : List Expr} {c : Option Nat} :
    (call i f arguments c).Names k ↔ ∃ a ∈ arguments, a.Names k := by
  simp only [Names, nodes, List.mem_cons, reduceCtorEq, false_or, mem_nodesAll]
  constructor
  · rintro ⟨i, title, a, ha, h⟩
    exact ⟨a, ha, i, title, h⟩
  · rintro ⟨a, ha, i, title, h⟩
    exact ⟨i, title, a, ha, h⟩

@[simp] theorem names_unary {op : UnaryOp} {operand : Expr} :
    (unary i op operand).Names k ↔ operand.Names k := by
  simp [Names, nodes]

@[simp] theorem names_binary {op : BinaryOp} {left right : Expr} :
    (binary i op left right).Names k ↔ left.Names k ∨ right.Names k := by
  simp only [Names, nodes, List.mem_cons, reduceCtorEq, false_or, List.mem_append, exists_or]

end Names

/-! ## Calculations -/

/-- The expressions that another is made of. -/
def operands : Expr → List Expr
  | .literal .. | .name .. => []
  | .call _ _ arguments _ => arguments
  | .binary _ _ left right => [left, right]
  | .member _ e _ _ | .unary _ _ e | .cast _ e | .pointer _ e _ => [e]

/-- To calculate one expression means to calculate another first. -/
inductive Asks (constants : Array Constant) : Expr → Expr → Prop
  | constant {i : Info} {title : String} {k : Nat} {c : Constant} (hc : constants[k]? = some c) :
    Asks constants (.name i title (some (.constant k))) c.value
  | unary {i : Info} {op : UnaryOp} {operand : Expr} : Asks constants (.unary i op operand) operand
  | left {i : Info} {op : BinaryOp} {left right : Expr} :
    Asks constants (.binary i op left right) left
  | right {i : Info} {op : BinaryOp} {left right : Expr} :
    Asks constants (.binary i op left right) right
  | cast {i : Info} {operand : Expr} : Asks constants (.cast i operand) operand

/-- `calculate` finds values by going from a constant to its value, as often as it takes. -/
def Calculates (types : TypeTable) (constants : Array Constant)
    (calculate : Expr → Option Literal) : Prop :=
  ∀ e, calculate e = e.fold types fun k => (constants[k]?).bind fun c => calculate c.value

/-- Every calculation comes to an end: there is no endless way from one expression to the next. -/
def Terminating (constants : Array Constant) : Prop :=
  ∀ e, Acc (Function.swap (Asks constants)) e

variable {types types' : TypeTable} {constants constants' : Array Constant} {e : Expr}

/-- To calculate an expression means to come by a constant. -/
def Takes (constants : Array Constant) (e : Expr) (k : Nat) : Prop :=
  ∃ i title, ReflTransGen (Asks constants) e (.name i title (some (.constant k)))

theorem Takes.asked {f : Expr} {k : Nat} (h : f.Takes constants k) (hf : Asks constants e f) :
    e.Takes constants k := by
  obtain ⟨i, title, h⟩ := h
  exact ⟨i, title, h.head hf⟩

theorem Takes.value {k : Nat} {c : Constant} (h : e.Takes constants k)
    (hc : constants[k]? = some c) : TransGen (Asks constants) e c.value := by
  obtain ⟨i, title, h⟩ := h
  exact .tail' h (.constant hc)

/-- A calculation ends if it does for the values of all the constants it comes by. -/
theorem ends_of_values (h : ∀ (k : Nat) (c : Constant), e.Takes constants k →
    constants[k]? = some c → Acc (Function.swap (Asks constants)) c.value) :
    Acc (Function.swap (Asks constants)) e := by
  induction e using Expr.induct with
  | name i title decl =>
    refine ⟨_, fun _ hf => ?_⟩
    cases hf with
    | constant hc => exact h _ _ ⟨i, title, .refl⟩ hc
  | unary i op operand ih =>
    refine ⟨_, fun _ hf => ?_⟩
    cases hf
    exact ih fun k c hk => h k c (hk.asked .unary)
  | binary i op left right ihl ihr =>
    refine ⟨_, fun _ hf => ?_⟩
    cases hf
    · exact ihl fun k c hk => h k c (hk.asked .left)
    · exact ihr fun k c hk => h k c (hk.asked .right)
  | cast i operand ih =>
    refine ⟨_, fun _ hf => ?_⟩
    cases hf
    exact ih fun k c hk => h k c (hk.asked .cast)
  | literal | member | call | pointer => exact ⟨_, fun _ hf => nomatch hf⟩

/-- A value depends on the constants that its calculation comes by. -/
theorem fold_congr {f g : Nat → Option Literal} (h : ∀ k, e.Takes constants k → f k = g k) :
    e.fold types f = e.fold types g := by
  induction e using Expr.induct with
  | name i title decl =>
    rcases decl with _ | ⟨k⟩ | _ | _ | _
    case some.constant => exact h k ⟨i, title, .refl⟩
    all_goals rfl
  | unary i op operand ih => rw [fold, fold, ih fun k hk => h k (hk.asked .unary)]
  | binary i op left right ihl ihr =>
    rw [fold, fold, ihl fun k hk => h k (hk.asked .left), ihr fun k hk => h k (hk.asked .right)]
  | cast i operand ih => rw [fold, fold, ih fun k hk => h k (hk.asked .cast)]
  | literal | member | call | pointer => rfl

/-- **Where calculations end, there is no more than one way to calculate.** -/
theorem calculates_unique {f g : Expr → Option Literal} (hend : Terminating constants)
    (hf : Calculates types constants f) (hg : Calculates types constants g) : f = g := by
  funext e
  induction (hend e).transGen with
  | intro e _ ih =>
    rw [hf e, hg e]
    exact fold_congr fun k hk => Option.bind_congr fun c hc =>
      ih c.value (transGen_swap.2 (hk.value hc))

/-- **Where calculations end and constants have their values, there is one way to calculate**: the
values of the constants solve the recursion, and nothing else does. -/
theorem calculates_iff {calculate : Expr → Option Literal} (hend : Terminating constants)
    (hvalues : ∀ (k : Nat) (c : Constant), constants[k]? = some c →
      c.value.fold types (fun k => (constants[k]?).bind (·.folded)) = c.folded) :
    Calculates types constants calculate ↔
      calculate = fun e => e.fold types fun k => (constants[k]?).bind (·.folded) := by
  have solved : Calculates types constants fun e =>
      e.fold types fun k => (constants[k]?).bind (·.folded) := by
    intro e
    have values : (fun k => (constants[k]?).bind Constant.folded) = fun k =>
        (constants[k]?).bind fun c : Constant =>
          c.value.fold types fun k => (constants[k]?).bind Constant.folded :=
      funext fun k => Option.bind_congr fun c hc => (hvalues k c hc).symm
    exact congrArg (e.fold types) values
  exact ⟨fun h => calculates_unique hend h solved, fun h => h ▸ solved⟩

/-- What can be calculated already: every constant on the way is evaluated. -/
inductive Settles (constants : Array Constant) : Expr → Prop
  | literal {i : Info} {v : Literal} : Settles constants (.literal i v)
  | constant {i : Info} {title : String} {k : Nat} {c : Constant} (hc : constants[k]? = some c)
    (hf : c.folded.isSome = true) (hv : Settles constants c.value) :
    Settles constants (.name i title (some (.constant k)))
  | name {i : Info} {title : String} {d : Option Declaration} (hd : ∀ k, d ≠ some (.constant k)) :
    Settles constants (.name i title d)
  | member {i : Info} {target : Expr} {field : String} {r : Option FieldRef} :
    Settles constants (.member i target field r)
  | call {i : Info} {f : String} {arguments : List Expr} {c : Option Nat} :
    Settles constants (.call i f arguments c)
  | unary {i : Info} {op : UnaryOp} {operand : Expr} (h : Settles constants operand) :
    Settles constants (.unary i op operand)
  | binary {i : Info} {op : BinaryOp} {left right : Expr} (hl : Settles constants left)
    (hr : Settles constants right) : Settles constants (.binary i op left right)
  | cast {i : Info} {operand : Expr} (h : Settles constants operand) :
    Settles constants (.cast i operand)
  | pointer {i : Info} {target : Expr} {temp : Option Int} :
    Settles constants (.pointer i target temp)

namespace Settles

/-- What settles goes on settling while constants keep their values. -/
theorem mono (h : e.Settles constants) (hc : ∀ (k : Nat) (c : Constant), constants[k]? = some c →
    c.folded.isSome = true → constants'[k]? = some c) : e.Settles constants' := by
  induction h with
  | literal => exact .literal
  | constant hk hf _ ih => exact .constant (hc _ _ hk hf) hf ih
  | name hd => exact .name hd
  | member => exact .member
  | call => exact .call
  | unary _ ih => exact .unary ih
  | binary _ _ ihl ihr => exact .binary ihl ihr
  | cast _ ih => exact .cast ih
  | pointer => exact .pointer

/-- What is asked for settles, too. -/
theorem asked {f : Expr} (h : e.Settles constants) (hf : Asks constants e f) :
    f.Settles constants := by
  cases hf with
  | constant hc =>
    cases h with
    | constant hc' _ hv =>
      obtain rfl := Option.some.inj (hc.symm.trans hc')
      exact hv
    | name hd => exact absurd rfl (hd _)
  | unary => cases h with | unary h => exact h
  | left => cases h with | binary hl _ => exact hl
  | right => cases h with | binary _ hr => exact hr
  | cast => cases h with | cast h => exact h

theorem reached {f : Expr} (h : e.Settles constants)
    (hf : ReflTransGen (Asks constants) e f) : f.Settles constants := by
  induction hf with
  | refl => exact h
  | tail _ hfg ih => exact ih.asked hfg

/-- A constant that has been reached is evaluated. -/
theorem folded {i : Info} {title : String} {k : Nat} {c : Constant}
    (h : (Expr.name i title (some (.constant k))).Settles constants)
    (hc : constants[k]? = some c) : c.folded.isSome = true := by
  cases h with
  | constant hc' hf _ =>
    obtain rfl := Option.some.inj (hc.symm.trans hc')
    exact hf
  | name hd => exact absurd rfl (hd _)

/-- **The calculation of what settles comes to an end.** -/
theorem ends (h : e.Settles constants) : Acc (Function.swap (Asks constants)) e := by
  induction h with
  | constant hk _ _ ih =>
    refine ⟨_, fun _ hf => ?_⟩
    cases hf with
    | constant hc =>
      obtain rfl := Option.some.inj (hc.symm.trans hk)
      exact ih
  | name hd =>
    refine ⟨_, fun _ hf => ?_⟩
    cases hf
    exact absurd rfl (hd _)
  | unary _ ih =>
    refine ⟨_, fun _ hf => ?_⟩
    cases hf
    exact ih
  | binary _ _ ihl ihr =>
    refine ⟨_, fun _ hf => ?_⟩
    cases hf
    · exact ihl
    · exact ihr
  | cast _ ih =>
    refine ⟨_, fun _ hf => ?_⟩
    cases hf
    exact ih
  | literal | member | call | pointer => exact ⟨_, fun _ hf => nomatch hf⟩

end Settles

/-- Where the values of all constants settle, every calculation comes to an end. -/
theorem terminating_of_settles
    (h : ∀ (k : Nat) (c : Constant), constants[k]? = some c → c.value.Settles constants) :
    Terminating constants := fun _ => ends_of_values fun k c _ hc => (h k c hc).ends

/-- **A value that is known stays what it is** while more types and constants get known. -/
theorem fold_mono {f f' : Nat → Option Literal} (ht : types.Extends types')
    (hsizes : types'.structSizes = types.structSizes)
    (hf : ∀ k v, f k = some v → f' k = some v) {v : Literal} (h : e.fold types f = some v) :
    e.fold types' f' = some v := by
  -- an operator asks for how a type with a size is named, and for the size
  have sized {t : TypeId} {n : Nat} (hn : types.size? t = some n) :
      types'.size? t = some n ∧ types'.valueType t = types.valueType t := by
    obtain ⟨σ, hσ, hsize⟩ := TypeTable.shape?_of_size? hn
    refine ⟨?_, by rw [TypeTable.valueType_eq hσ, TypeTable.valueType_eq (ht.shape? hσ)]⟩
    rw [TypeTable.size?_eq, ht.shape? hσ, hsizes]
    exact hsize
  induction e using Expr.induct generalizing v with
  | literal i w => exact h
  | name i title decl =>
    rcases decl with _ | ⟨k⟩ | _ | _ | _
    case some.constant => exact hf k v h
    all_goals cases h
  | unary i op operand ih =>
    simp only [fold, Option.bind_eq_bind, Option.bind_eq_some_iff] at h ⊢
    obtain ⟨w, hw, t, hi, n, hn, hv⟩ := h
    exact ⟨w, ih hw, t, hi, n, (sized hn).1, by rwa [(sized hn).2]⟩
  | binary i op left right ihl ihr =>
    simp only [fold, Option.bind_eq_bind, Option.bind_eq_some_iff] at h ⊢
    obtain ⟨l, hl, r, hr, t, hi, n, hn, hv⟩ := h
    exact ⟨l, ihl hl, r, ihr hr, t, hi, n, (sized hn).1, by rwa [(sized hn).2]⟩
  | cast i operand ih =>
    simp only [fold, Option.bind_eq_bind, Option.bind_eq_some_iff] at h ⊢
    obtain ⟨w, hw, t, hi, n, hn, hv⟩ := h
    exact ⟨w, ih hw, t, hi, n, (sized hn).1, by rwa [(sized hn).2]⟩
  | member | call | pointer => cases h

end Expr

/-! ## What can be calculated -/

/-- An expression that can be calculated: the calculation comes to an end, and so does all that the
constants depend on which it comes by. -/
structure Program.Calculable (p : Program) (constants : Array Constant) (e : Expr) : Prop where
  ends : Acc (Function.swap (Expr.Asks constants)) e
  grounded : ∀ i title k,
    ReflTransGen (Expr.Asks constants) e (.name i title (some (.constant k))) →
      p.Grounded (.constant k)

/-- **No cycle can be reached from what can be calculated**, neither of expressions that ask for
each other nor of definitions that depend on each other. -/
theorem Program.Calculable.acyclic {p : Program} {constants : Array Constant} {e : Expr}
    (h : p.Calculable constants e) :
    (∀ f, ReflTransGen (Expr.Asks constants) e f → ¬ TransGen (Expr.Asks constants) f f) ∧
      ∀ i title k, ReflTransGen (Expr.Asks constants) e (.name i title (some (.constant k))) →
        ∀ d, ReflTransGen p.Depends (.constant k) d → ¬ TransGen p.Depends d d := by
  refine ⟨fun f hf => not_transGen_of_acc ?_, fun i title k hk d hd => not_transGen_of_acc ?_⟩
  · exact acc_of_reflTransGen h.ends hf
  · exact acc_of_reflTransGen (h.grounded i title k hk) hd

end ChannelBasic
