import Mathlib.Data.Finset.Card
import Mathlib.Data.Finset.Range
import ChannelBasic.Proofs.Typing.Recursion

/-!
# Proofs/Typing/Simplification — operands with a value become literals

Simplifying an expression replaces its operands, and with it changes every expression that it is
part of, and every constant whose value it is part of.  **Where calculations do not go round they
end** (`Expr.terminating_of_acyclic`), so there is one way to calculate, which goes from a constant
to its value (`Expr.calculates_solve`); where constants have been evaluated, it finds what they have
been evaluated to (`Expr.knownBy_eq_folded`).  The operands that are replaced have the values of the
literals they become, so what is calculated is the same wherever the expression stands
(`Expr.Becomes.fold`), nothing new is asked for (`Expr.Becomes.asks`), and what is literal once
stays so (`Expr.simplify_simplify`).
-/

namespace ChannelBasic.Expr

open Relation

variable {types : TypeTable} {constants constants' : Array Constant} {e e' f p p' : Expr}
  {known : Nat → Option Literal} {calculate : Expr → Option Literal} {k : Nat} {c : Constant}

/-! ## Constants that do not go round -/

/-- No calculation asks for itself. -/
def Acyclic (constants : Array Constant) : Prop := ∀ e, ¬ TransGen (Asks constants) e e

theorem Terminating.acyclic (h : Terminating constants) : Acyclic constants :=
  fun e => not_transGen_of_acc (h e)

open scoped Classical in
/-- The constants that the calculation of an expression comes by. -/
noncomputable def taken (constants : Array Constant) (e : Expr) : Finset Nat :=
  (Finset.range constants.size).filter (e.Takes constants)

theorem mem_taken : k ∈ e.taken constants ↔ k < constants.size ∧ e.Takes constants k := by
  classical rw [taken, Finset.mem_filter, Finset.mem_range]

/-- The value of a constant comes by fewer constants than what takes it, as it does not come by
itself. -/
theorem taken_ssubset (hacyclic : Acyclic constants) (hk : e.Takes constants k)
    (hc : constants[k]? = some c) : c.value.taken constants ⊂ e.taken constants := by
  have hvalue := hk.value hc
  refine Finset.ssubset_iff_subset_ne.2 ⟨fun m hm => ?_, fun heq => ?_⟩
  · obtain ⟨hlt, i, title, hm⟩ := mem_taken.1 hm
    exact mem_taken.2 ⟨hlt, i, title, hvalue.to_reflTransGen.trans hm⟩
  · have hlt : k < constants.size := (Array.getElem?_eq_some_iff.1 hc).1
    have hmem : k ∈ c.value.taken constants := heq ▸ mem_taken.2 ⟨hlt, hk⟩
    exact hacyclic c.value ((mem_taken.1 hmem).2.value hc)

/-- **Calculations that do not go round end**, as there are finitely many constants. -/
theorem terminating_of_acyclic (hacyclic : Acyclic constants) : Terminating constants := by
  intro e
  induction hn : (e.taken constants).card using Nat.strong_induction_on generalizing e with
  | _ n ih =>
    subst hn
    exact ends_of_values fun k c hk hc =>
      ih _ (Finset.card_lt_card (taken_ssubset hacyclic hk hc)) c.value rfl

open scoped Classical in
/-- Values as they are found by going from a constant to its value. -/
noncomputable def solve (types : TypeTable) (hend : Terminating constants) :
    Expr → Option Literal :=
  (WellFounded.intro hend).transGen.fix fun e values =>
    e.fold types fun k => (constants[k]?).bind fun c =>
      if h : TransGen (Function.swap (Asks constants)) c.value e then values c.value h else none

theorem calculates_solve (types : TypeTable) (hend : Terminating constants) :
    Calculates types constants (solve types hend) := by
  intro e
  rw [solve, WellFounded.fix_eq]
  exact fold_congr fun k hk => Option.bind_congr fun c hc =>
    dif_pos (transGen_swap.2 (hk.value hc))

/-- **Where calculations end there is one way to calculate.** -/
theorem calculates_iff_eq (hend : Terminating constants)
    (h : Calculates types constants calculate) (f : Expr → Option Literal) :
    Calculates types constants f ↔ f = calculate :=
  ⟨fun hf => calculates_unique hend hf h, fun hf => hf ▸ h⟩

/-! ## Operands -/

@[simp] theorem fold_simplified (e : Expr) :
    (e.simplified types known).fold types known = e.fold types known := by
  obtain ⟨h, -⟩ | ⟨v, hv, h⟩ := simplified_cases types known e
  · rw [h]
  · rw [h, hv, fold]

/-- What is literal once stays so. -/
@[simp] theorem simplified_simplified (e : Expr) :
    (e.simplified types known).simplified types known = e.simplified types known := by
  obtain ⟨h, -⟩ | ⟨v, -, h⟩ := simplified_cases types known e
  · rw [h, h]
  · rw [h]
    rfl

@[simp] theorem operands_simplify (p : Expr) :
    (p.simplify types known).operands = p.operands.map (·.simplified types known) := by
  cases p <;> rfl

@[simp] theorem info_simplify (p : Expr) : (p.simplify types known).info = p.info := by
  cases p <;> rfl

@[simp] theorem fold_simplify (p : Expr) :
    (p.simplify types known).fold types known = p.fold types known := by
  cases p <;> simp [simplify, fold]

/-- **Simplifying twice is simplifying once.** -/
@[simp] theorem simplify_simplify (p : Expr) :
    (p.simplify types known).simplify types known = p.simplify types known := by
  cases p <;> simp [simplify]

/-! ## What the expression is part of -/

/-- An expression becomes another as `p` is replaced by `p'`, in some of the places where it
stands. -/
inductive Becomes (p p' : Expr) : Expr → Expr → Prop
  | same (e : Expr) : Becomes p p' e e
  | here : Becomes p p' p p'
  | member {i : Info} {target target' : Expr} {field : String} {r : Option FieldRef}
    (h : Becomes p p' target target') :
    Becomes p p' (.member i target field r) (.member i target' field r)
  | call {i : Info} {function : String} {arguments arguments' : List Expr} {callee : Option Nat}
    (length_eq : arguments.length = arguments'.length)
    (each : ∀ {a a'}, (a, a') ∈ arguments.zip arguments' → Becomes p p' a a') :
    Becomes p p' (.call i function arguments callee) (.call i function arguments' callee)
  | unary {i : Info} {op : UnaryOp} {operand operand' : Expr} (h : Becomes p p' operand operand') :
    Becomes p p' (.unary i op operand) (.unary i op operand')
  | binary {i : Info} {op : BinaryOp} {left left' right right' : Expr}
    (hl : Becomes p p' left left') (hr : Becomes p p' right right') :
    Becomes p p' (.binary i op left right) (.binary i op left' right')
  | cast {i : Info} {operand operand' : Expr} (h : Becomes p p' operand operand') :
    Becomes p p' (.cast i operand) (.cast i operand')
  | pointer {i : Info} {target target' : Expr} {temp : Option Int}
    (h : Becomes p p' target target') :
    Becomes p p' (.pointer i target temp) (.pointer i target' temp)

/-- `p` is replaced by `p'` in some of the places where it stands in values of constants. -/
structure Replaced (p p' : Expr) (constants constants' : Array Constant) : Prop where
  size_eq : constants'.size = constants.size
  becomes : ∀ (k : Nat) (c : Constant), constants[k]? = some c →
    ∃ value, Becomes p p' c.value value ∧ constants'[k]? = some { c with value }

theorem Replaced.exists (h : Replaced p p' constants constants') {c' : Constant}
    (hc' : constants'[k]? = some c') :
    ∃ c, constants[k]? = some c ∧ Becomes p p' c.value c'.value := by
  have hk : k < constants.size := h.size_eq ▸ (Array.getElem?_eq_some_iff.1 hc').1
  obtain ⟨value, hbecomes, hvalue⟩ := h.becomes k _ (Array.getElem?_eq_getElem hk)
  obtain rfl := Option.some.inj (hc'.symm.trans hvalue)
  exact ⟨_, Array.getElem?_eq_getElem hk, hbecomes⟩

theorem Becomes.info (h : Becomes p (p.simplify types known) e e') : e'.info = e.info := by
  cases h with
  | here => exact info_simplify _
  | _ => rfl

/-- **Values do not change.** -/
theorem Becomes.fold (h : Becomes p (p.simplify types known) e e') :
    e'.fold types known = e.fold types known := by
  induction h with
  | same | member | call | pointer => rfl
  | here => exact fold_simplify p
  | unary _ ih => rw [Expr.fold, Expr.fold, ih]
  | binary _ _ ihl ihr => rw [Expr.fold, Expr.fold, ihl, ihr]
  | cast _ ih => rw [Expr.fold, Expr.fold, ih]

/-- An operand is replaced by what it becomes, or by a literal. -/
theorem becomes_simplified (p p' o : Expr) :
    Becomes p p' o (o.simplified types known) ∨ (o.simplified types known).isLiteral = true := by
  obtain ⟨h, -⟩ | ⟨v, -, h⟩ := simplified_cases types known o
  · exact .inl (by rw [h]; exact .same o)
  · exact .inr (by rw [h]; rfl)

/-- **Nothing new is asked for**, except for literals. -/
theorem Becomes.asks (h : Becomes p (p.simplify types known) e e')
    (hreplaced : Replaced p (p.simplify types known) constants constants') {f' : Expr}
    (hf : Asks constants' e' f') :
    (∃ f, Asks constants e f ∧ Becomes p (p.simplify types known) f f') ∨
      f'.isLiteral = true := by
  -- an operand of the expression that is simplified
  have operand {o : Expr} (ho : Asks constants e o) :
      (∃ f, Asks constants e f ∧ Becomes p (p.simplify types known) f (o.simplified types known)) ∨
        (o.simplified types known).isLiteral = true :=
    (becomes_simplified p _ o).imp_left fun h => ⟨o, ho, h⟩
  cases h with
  | same =>
    cases hf with
    | constant hc' =>
      obtain ⟨c, hc, hbecomes⟩ := hreplaced.exists hc'
      exact .inl ⟨c.value, .constant hc, hbecomes⟩
    | unary => exact .inl ⟨_, .unary, .same _⟩
    | left => exact .inl ⟨_, .left, .same _⟩
    | right => exact .inl ⟨_, .right, .same _⟩
    | cast => exact .inl ⟨_, .cast, .same _⟩
  | here =>
    cases e with
    | name i title decl =>
      cases hf with
      | constant hc' =>
        obtain ⟨c, hc, hbecomes⟩ := hreplaced.exists hc'
        exact .inl ⟨c.value, .constant hc, hbecomes⟩
    | unary => cases hf; exact operand .unary
    | binary =>
      cases hf with
      | left => exact operand .left
      | right => exact operand .right
    | cast => cases hf; exact operand .cast
    | literal | member | call | pointer => cases hf
  | unary h => cases hf; exact .inl ⟨_, .unary, h⟩
  | binary hl hr =>
    cases hf with
    | left => exact .inl ⟨_, .left, hl⟩
    | right => exact .inl ⟨_, .right, hr⟩
  | cast h => cases hf; exact .inl ⟨_, .cast, h⟩
  | member | call | pointer => cases hf

theorem Becomes.ends (h : Becomes p (p.simplify types known) e e')
    (hreplaced : Replaced p (p.simplify types known) constants constants')
    (hend : Acc (Function.swap (Asks constants)) e) :
    Acc (Function.swap (Asks constants')) e' := by
  induction hend generalizing e' with
  | intro e _ ih =>
    refine ⟨_, fun f' hf' => ?_⟩
    obtain ⟨f, hf, hbecomes⟩ | hliteral := h.asks hreplaced hf'
    · exact ih f hf hbecomes
    · cases f' with
      | literal => exact ⟨_, fun _ hf => nomatch hf⟩
      | _ => cases hliteral

/-! ## Simplifying -/

/-- The values of constants, as they are calculated. -/
def knownBy (constants : Array Constant) (calculate : Expr → Option Literal) (k : Nat) :
    Option Literal := (constants[k]?).bind fun c => calculate c.value

/-- Where constants have been evaluated, their values are what is known. -/
theorem knownBy_eq_folded (hend : Terminating constants)
    (hvalues : ∀ (k : Nat) (c : Constant), constants[k]? = some c →
      c.value.fold types (fun k => (constants[k]?).bind (·.folded)) = c.folded)
    (h : Calculates types constants calculate) :
    knownBy constants calculate = fun k => (constants[k]?).bind (·.folded) := by
  obtain rfl := (calculates_iff hend hvalues).1 h
  exact funext fun k => Option.bind_congr fun c hc => hvalues k c hc

/-- The constants still have the values that are known. -/
theorem Replaced.calculates (h : Calculates types constants calculate)
    (hreplaced : Replaced p (p.simplify types (knownBy constants calculate)) constants constants') :
    knownBy constants' calculate = knownBy constants calculate ∧
      Calculates types constants' calculate := by
  have values : knownBy constants' calculate = knownBy constants calculate := by
    funext k
    unfold knownBy
    cases hc' : constants'[k]? with
    | none =>
      have hk : constants.size ≤ k := hreplaced.size_eq ▸ Array.getElem?_eq_none_iff.1 hc'
      rw [Array.getElem?_eq_none hk]
    | some c' =>
      obtain ⟨c, hc, hbecomes⟩ := hreplaced.exists hc'
      rw [hc]
      change calculate c'.value = calculate c.value
      rw [h c'.value, h c.value]
      exact hbecomes.fold
  refine ⟨values, fun e => ?_⟩
  rw [h e]
  exact congrArg (e.fold types) values.symm

/-- What it means that the operands of `p` have been replaced, `p'` being what it has become, and
values being calculated by `calculate` before and by `calculate'` after. -/
structure Simplifies (types : TypeTable) (constants' : Array Constant)
    (calculate calculate' : Expr → Option Literal) (p p' : Expr) : Prop where
  /-- Whatever `p` is part of keeps its value and its type, and so does everything else. -/
  keeps : ∀ e e', Becomes p p' e e' → calculate' e' = calculate e ∧ e'.type? = e.type?
  /-- An operand stays, or is replaced by the literal of its value, of its type without CONST. -/
  operands : List.Forall₂ (fun o o' => o' = o ∨ ∃ v, calculate o = some v ∧
    o' = .literal ⟨o.location, o.type?.map types.base⟩ v) p.operands p'.operands
  /-- The operands that have values are literals. -/
  literals : ∀ o ∈ p'.operands, (calculate' o).isSome = true → o.isLiteral = true
  /-- To simplify once more changes nothing. -/
  again : p'.simplify types (knownBy constants' calculate') = p'

/-- An expression that is simplified has all of this, whatever it is part of. -/
theorem Replaced.simplifies (h : Calculates types constants calculate)
    (hreplaced : Replaced p (p.simplify types (knownBy constants calculate)) constants constants') :
    Simplifies types constants' calculate calculate p
      (p.simplify types (knownBy constants calculate)) where
  keeps e e' hbecomes := by
    refine ⟨?_, congrArg Info.type hbecomes.info⟩
    rw [h e', h e]
    exact hbecomes.fold
  operands := by
    rw [operands_simplify, List.forall₂_map_right_iff, List.forall₂_same]
    intro o _
    obtain ⟨ho, -⟩ | ⟨v, hv, ho⟩ := simplified_cases types (knownBy constants calculate) o
    · exact .inl ho
    · exact .inr ⟨v, (h o).trans hv, ho⟩
  literals o' ho' hsome := by
    rw [operands_simplify] at ho'
    obtain ⟨o, -, rfl⟩ := List.mem_map.1 ho'
    obtain ⟨ho, hliteral | hnone⟩ | ⟨v, -, ho⟩ :=
      simplified_cases types (knownBy constants calculate) o
    · rw [ho, hliteral]
    · rw [ho, h o] at hsome
      exact absurd hnone (Option.isSome_iff_ne_none.1 hsome)
    · rw [ho]
      rfl
  again := by
    rw [(hreplaced.calculates h).1]
    exact simplify_simplify p

/-- **Simplifying preserves values and types, and does all that it can at once.**  If constants do
not go round, there is one way to calculate; and whatever the expression that is simplified is part
of, a constant or not, there is one way to calculate afterwards, and it gives the same values. -/
theorem simplify_preserves (types : TypeTable) (hacyclic : Acyclic constants) (p : Expr) :
    ∃ calculate, (∀ f, Calculates types constants f ↔ f = calculate) ∧
      ∀ p' constants', p' = p.simplify types (knownBy constants calculate) →
        Replaced p p' constants constants' →
          Acyclic constants' ∧ ∃ calculate', (∀ f, Calculates types constants' f ↔ f = calculate') ∧
            Simplifies types constants' calculate calculate' p p' := by
  have hend := terminating_of_acyclic hacyclic
  have h := calculates_solve types hend
  refine ⟨solve types hend, calculates_iff_eq hend h, ?_⟩
  rintro _ constants' rfl hreplaced
  have hend' : Terminating constants' := fun e => (Becomes.same e).ends hreplaced (hend e)
  have h' := (hreplaced.calculates h).2
  exact ⟨hend'.acyclic, _, calculates_iff_eq hend' h', hreplaced.simplifies h⟩

/-! ## A constant that takes another -/

/-- An INTEGER. -/
def integer (n : Int64) : Expr :=
  .literal ⟨default, some (TypeTable.scalarId .integer)⟩ (.integral n)

/-- `left + 3` -/
def plusThree (left : Expr) : Expr :=
  .binary ⟨default, some (TypeTable.scalarId .integer)⟩ .add left (integer 3)

/-- The constant `A`. -/
def nameOfA : Expr :=
  .name ⟨default, some (TypeTable.scalarId .integer)⟩ "A" (some (.constant 0))

/-- `A = 2` and `B = value` -/
def twoConstants (value : Expr) : Array Constant :=
  #[⟨default, "A", some (TypeTable.scalarId .integer), integer 2, some (.integral 2)⟩,
    ⟨default, "B", some (TypeTable.scalarId .integer), value, some (.integral 5)⟩]

/-- If `B = A + 3` is simplified, it becomes `B = 2 + 3`, and is 5 before and after. -/
theorem simplify_preserves_sum :
    Acyclic (twoConstants (plusThree nameOfA)) ∧ ∃ calculate calculate',
      Calculates .initial (twoConstants (plusThree nameOfA)) calculate ∧
        Calculates .initial (twoConstants (plusThree (integer 2))) calculate' ∧
          calculate (plusThree nameOfA) = some (.integral 5) ∧
            Simplifies .initial (twoConstants (plusThree (integer 2))) calculate calculate'
              (plusThree nameOfA) (plusThree (integer 2)) := by
  have hacyclic : Acyclic (twoConstants (plusThree nameOfA)) := by
    refine (terminating_of_settles fun k c hc => ?_).acyclic
    rcases k with _ | _ | k
    · obtain rfl := Option.some.inj hc
      exact .literal
    · obtain rfl := Option.some.inj hc
      exact .binary (.constant (k := 0) rfl rfl .literal) .literal
    · simp [twoConstants] at hc
  obtain ⟨calculate, hcalculate, h⟩ :=
    simplify_preserves .initial hacyclic (plusThree nameOfA)
  have hc := (hcalculate calculate).2 rfl
  have hA : knownBy (twoConstants (plusThree nameOfA)) calculate 0 = some (.integral 2) :=
    hc (integer 2)
  have hname : nameOfA.simplified .initial (knownBy (twoConstants (plusThree nameOfA)) calculate) =
      integer 2 := by
    obtain ⟨-, hliteral | hnone⟩ | ⟨v, hv, hname⟩ :=
      simplified_cases .initial (knownBy (twoConstants (plusThree nameOfA)) calculate) nameOfA
    · cases hliteral
    · cases hA.symm.trans hnone
    · obtain rfl := Option.some.inj (hA.symm.trans hv)
      exact hname
  have hsimplify : (plusThree nameOfA).simplify .initial
      (knownBy (twoConstants (plusThree nameOfA)) calculate) = plusThree (integer 2) :=
    congrArg plusThree hname
  have hreplaced : Replaced (plusThree nameOfA) (plusThree (integer 2))
      (twoConstants (plusThree nameOfA)) (twoConstants (plusThree (integer 2))) := by
    refine ⟨rfl, fun k c hc => ?_⟩
    rcases k with _ | _ | k
    · obtain rfl := Option.some.inj hc
      exact ⟨_, .same _, rfl⟩
    · obtain rfl := Option.some.inj hc
      exact ⟨_, .here, rfl⟩
    · simp [twoConstants] at hc
  obtain ⟨-, calculate', hcalculate', hs⟩ := h _ _ hsimplify.symm hreplaced
  have hc' := (hcalculate' calculate').2 rfl
  have hfive : calculate' (plusThree (integer 2)) = some (.integral 5) := by
    rw [hc', plusThree, integer, integer, fold, fold, fold]
    decide +kernel
  exact ⟨hacyclic, calculate, calculate', hc, hc', (hs.keeps _ _ .here).1.symm.trans hfive, hs⟩

end ChannelBasic.Expr
