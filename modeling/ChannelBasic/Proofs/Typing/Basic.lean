import Mathlib.Data.List.Forall2
import ChannelBasic.Program.Stmt
import ChannelBasic.Proofs.Typing.Literals

/-!
# Proofs/Typing/Basic — expressions and statements whose types are right

An `Env` is what types are looked up in: the table of types, the values of constants, and the types
of places, members and functions.  `Expr.Typed Γ e` says that the type each node of `e` carries is
the one its parts give it.  Types once right stay right as more becomes known (`Typed.extends`), and
**what a right expression comes to beforehand fits its type** (`Typed.fold_fits`).
-/

namespace ChannelBasic

/-- What the types of an expression depend on. -/
structure Env where
  types : TypeTable
  /-- What constants come to. -/
  constant : Nat → Option Literal
  /-- The types of variables, arguments and data fields. -/
  declared : Declaration → Option TypeId
  /-- The types of the fields of structured types. -/
  member : FieldRef → Option TypeId
  /-- Arguments and result of the functions that can be called. -/
  function : Nat → Option (List TypeId × Option TypeId)

namespace Env

/-- The shape of what carries some information, if it has a type with a shape. -/
def shape (Γ : Env) (i : Info) : Option Shape := i.type.bind Γ.types.shape?

/-- More is known, and nothing has changed. -/
structure Extends (Γ Γ' : Env) : Prop where
  types : Γ.types.Extends Γ'.types
  constant : ∀ k v, Γ.constant k = some v → Γ'.constant k = some v
  declared : ∀ d t, Γ.declared d = some t → Γ'.declared d = some t
  member : ∀ r t, Γ.member r = some t → Γ'.member r = some t
  function : ∀ n f, Γ.function n = some f → Γ'.function n = some f

variable {Γ Γ' Γ'' : Env} {i : Info} {σ : Shape}

theorem Extends.trans (h : Γ.Extends Γ') (h' : Γ'.Extends Γ'') : Γ.Extends Γ'' where
  types := h.types.trans h'.types
  constant k v hv := h'.constant k v (h.constant k v hv)
  declared d t ht := h'.declared d t (h.declared d t ht)
  member r t ht := h'.member r t (h.member r t ht)
  function n f hf := h'.function n f (h.function n f hf)

theorem shape_eq_some : Γ.shape i = some σ ↔ ∃ t, i.type = some t ∧ Γ.types.shape? t = some σ :=
  Option.bind_eq_some_iff

theorem Extends.shape (h : Γ.Extends Γ') (hi : Γ.shape i = some σ) : Γ'.shape i = some σ := by
  obtain ⟨t, ht, hσ⟩ := shape_eq_some.1 hi
  exact shape_eq_some.2 ⟨t, ht, h.types.shape? hσ⟩

end Env

/-! ## Expressions -/

mutual

/-- Every node of the expression carries the type that its parts give it. -/
@[grind =] def Expr.Typed (Γ : Env) : Expr → Prop
  | .literal i v => ∃ σ, Γ.shape i = some σ ∧ v.Fits σ
  | .name i _ (some (.constant k)) =>
    ∃ σ v, Γ.shape i = some σ ∧ Γ.constant k = some v ∧ v.Fits σ
  | .name i _ (some d) => i.type = Γ.declared d ∧ ∃ σ, Γ.shape i = some σ
  | .name _ _ none => False
  | .member i target _ (some r) =>
    target.Typed Γ ∧ target.isAddressable = true ∧ Γ.shape target.info = some (.struct r.struct) ∧
      ∃ t σ, Γ.member r = some t ∧ Γ.types.shape? t = some σ ∧ Γ.shape i = some σ
  | .member _ _ _ none => False
  | .call i _ arguments (some n) =>
    (∃ parameters, Γ.function n = some (parameters, i.type) ∧
      Expr.TypedAll Γ parameters arguments) ∧
      ∀ t, i.type = some t → ∃ σ, Γ.types.shape? t = some σ
  | .call _ _ _ none => False
  | .unary i op operand =>
    operand.Typed Γ ∧ ∃ σ, Γ.shape operand.info = some σ ∧ op.Takes σ ∧ Γ.shape i = some σ
  | .binary i op left right =>
    left.Typed Γ ∧ right.Typed Γ ∧ ∃ a b c, Γ.shape left.info = some a ∧
      Γ.shape right.info = some b ∧ op.Takes a b c ∧ Γ.shape i = some c
  | .cast i operand =>
    operand.Typed Γ ∧ operand.fold Γ.types Γ.constant = none ∧
      ∃ σ τ, Γ.shape operand.info = some σ ∧ Γ.shape i = some τ ∧ σ.Converts τ
  | .pointer i target _ =>
    target.Typed Γ ∧ Γ.shape i = some .pointer ∧ ∃ σ, Γ.shape target.info = some σ

/-- Arguments whose types are right, one for each parameter. -/
@[grind =] def Expr.TypedAll (Γ : Env) : List TypeId → List Expr → Prop
  | [], [] => True
  | parameter :: parameters, e :: rest =>
    e.Typed Γ ∧ (∃ σ, Γ.types.shape? parameter = some σ ∧ Γ.shape e.info = some σ) ∧
      Expr.TypedAll Γ parameters rest
  | _, _ => False

end

attribute [grind =] Expr.fold Expr.simplified Expr.simplify

/-- Something holds of all expressions if it holds of each whose parts it holds of. -/
theorem Expr.induct {P : Expr → Prop} (literal : ∀ i v, P (.literal i v))
    (name : ∀ i n d, P (.name i n d))
    (member : ∀ i target field r, P target → P (.member i target field r))
    (call : ∀ i f arguments c, (∀ a ∈ arguments, P a) → P (.call i f arguments c))
    (unary : ∀ i op operand, P operand → P (.unary i op operand))
    (binary : ∀ i op left right, P left → P right → P (.binary i op left right))
    (cast : ∀ i operand, P operand → P (.cast i operand))
    (pointer : ∀ i target temp, P target → P (.pointer i target temp)) (e : Expr) : P e := by
  refine @Expr.rec P (fun es => ∀ a ∈ es, P a) literal name member call unary binary cast pointer
    ?_ ?_ e
  · simp
  · intro a as ha has b hb
    obtain rfl | hb := List.mem_cons.1 hb
    · exact ha
    · exact has b hb

namespace Expr

variable {Γ Γ' : Env} {e : Expr} {v : Literal}

/-- A typed expression with a type has a shape. -/
theorem Typed.exists_shape (h : e.Typed Γ) {t : TypeId} (ht : e.type? = some t) :
    ∃ σ, Γ.types.shape? t = some σ := by
  have of_shape {i : Info} {σ : Shape} (hi : i.type = some t) (hσ : Γ.shape i = some σ) :
      ∃ σ, Γ.types.shape? t = some σ := by
    obtain ⟨t', ht', hσ⟩ := Env.shape_eq_some.1 hσ
    obtain rfl : t' = t := Option.some.inj (ht'.symm.trans hi)
    exact ⟨σ, hσ⟩
  cases e with
  | literal i v =>
    obtain ⟨σ, hσ, -⟩ := h
    exact of_shape ht hσ
  | name i n d =>
    match d, h with
    | some (.constant k), ⟨σ, v, hσ, _⟩ => exact of_shape ht hσ
    | some (.localVar k), ⟨_, σ, hσ⟩ => exact of_shape ht hσ
    | some (.argument k), ⟨_, σ, hσ⟩ => exact of_shape ht hσ
    | some (.dataField k), ⟨_, σ, hσ⟩ => exact of_shape ht hσ
  | member i target field r =>
    match r, h with
    | some r, ⟨_, _, _, _, σ, _, _, hσ⟩ => exact of_shape ht hσ
  | call i f arguments c =>
    match c, h with
    | some n, ⟨_, h⟩ => exact h t ht
  | unary i op operand =>
    obtain ⟨-, σ, -, -, hσ⟩ := h
    exact of_shape ht hσ
  | binary i op left right =>
    obtain ⟨-, -, a, b, c, -, -, -, hσ⟩ := h
    exact of_shape ht hσ
  | cast i operand =>
    obtain ⟨-, -, σ, τ, -, hσ, -⟩ := h
    exact of_shape ht hσ
  | pointer i target temp =>
    obtain ⟨-, hσ, -⟩ := h
    exact of_shape ht hσ

theorem typedAll_iff {parameters : List TypeId} {es : List Expr} :
    TypedAll Γ parameters es ↔ List.Forall₂ (fun p e =>
      e.Typed Γ ∧ ∃ σ, Γ.types.shape? p = some σ ∧ Γ.shape e.info = some σ) parameters es := by
  induction parameters generalizing es with
  | nil => cases es <;> simp [TypedAll]
  | cons p ps ih =>
    cases es with
    | nil => simp [TypedAll]
    | cons e es => simp [TypedAll, ih, and_assoc]

/-- A place is computed when the program runs. -/
theorem fold_eq_none_of_isAddressable {types : TypeTable} {constant : Nat → Option Literal}
    (h : e.isAddressable = true) : e.fold types constant = none := by
  cases e with
  | name i n d =>
    match d with
    | some (.constant k) => cases h
    | some (.localVar k) | some (.argument k) | some (.dataField k) => rfl
    | none => cases h
  | member => rfl
  | _ => cases h

theorem fold_unary {types : TypeTable} {constant : Nat → Option Literal} {i : Info} {op : UnaryOp}
    {operand : Expr} {t : TypeId} {σ : Shape} {n : Nat} (ht : i.type = some t)
    (hσ : types.shape? t = some σ) (hn : σ.size? types.structSizes = some n) :
    (Expr.unary i op operand).fold types constant =
      (operand.fold types constant).bind fun l => l.unary op σ.kind n := by
  have hsize : types.size? t = some n := by rw [TypeTable.size?_eq, hσ]; exact hn
  simp [fold, ht, hsize, TypeTable.valueType_eq hσ]

theorem fold_binary {types : TypeTable} {constant : Nat → Option Literal} {i : Info}
    {op : BinaryOp} {left right : Expr} {t : TypeId} {σ : Shape} {n : Nat} (ht : i.type = some t)
    (hσ : types.shape? t = some σ) (hn : σ.size? types.structSizes = some n) :
    (Expr.binary i op left right).fold types constant =
      (left.fold types constant).bind fun l =>
        (right.fold types constant).bind fun r => l.binary op r σ.kind n := by
  have hsize : types.size? t = some n := by rw [TypeTable.size?_eq, hσ]; exact hn
  simp [fold, ht, hsize, TypeTable.valueType_eq hσ]

theorem fold_cast_of_none {types : TypeTable} {constant : Nat → Option Literal} {i : Info}
    {operand : Expr} (h : operand.fold types constant = none) :
    (Expr.cast i operand).fold types constant = none := by
  simp [fold, h]

/-- **What an expression comes to does not depend on what becomes known later.** -/
theorem Typed.fold_extends (hΓ : Γ.Extends Γ') (h : e.Typed Γ) :
    e.fold Γ'.types Γ'.constant = e.fold Γ.types Γ.constant := by
  induction e using Expr.induct with
  | literal i v => rfl
  | name i n d =>
    match d, h with
    | some (.constant k), ⟨σ, v, _, hv, _⟩ =>
      change Γ'.constant k = Γ.constant k
      rw [hv, hΓ.constant k v hv]
    | some (.localVar k), _ | some (.argument k), _ | some (.dataField k), _ => rfl
  | member i target field r ih => rfl
  | call i f arguments c ih => rfl
  | unary i op operand ih =>
    obtain ⟨ho, σ, -, hop, hσ⟩ := h
    obtain ⟨t, ht, hσ⟩ := Env.shape_eq_some.1 hσ
    have hval := Shape.isValue_of_takes hop
    obtain ⟨n, hn⟩ := Shape.exists_size?_of_isValue hval Γ.types.structSizes
    have hn' := (Shape.size?_of_isValue hval Γ'.types.structSizes Γ.types.structSizes).trans hn
    rw [fold_unary ht hσ hn, fold_unary ht (hΓ.types.shape? hσ) hn', ih ho]
  | binary i op left right ihl ihr =>
    obtain ⟨hl, hr, a, b, c, -, -, hop, hσ⟩ := h
    obtain ⟨t, ht, hσ⟩ := Env.shape_eq_some.1 hσ
    obtain ⟨-, -, hval⟩ := Shape.isValue_of_binary hop
    obtain ⟨n, hn⟩ := Shape.exists_size?_of_isValue hval Γ.types.structSizes
    have hn' := (Shape.size?_of_isValue hval Γ'.types.structSizes Γ.types.structSizes).trans hn
    rw [fold_binary ht hσ hn, fold_binary ht (hΓ.types.shape? hσ) hn', ihl hl, ihr hr]
  | cast i operand ih =>
    obtain ⟨ho, hnone, -⟩ := h
    rw [fold_cast_of_none hnone, fold_cast_of_none ((ih ho).trans hnone)]
  | pointer i target temp ih => rfl

/-- **What an expression comes to beforehand fits its type.** -/
theorem Typed.fold_fits (h : e.Typed Γ) (hv : e.fold Γ.types Γ.constant = some v) :
    ∃ σ, Γ.shape e.info = some σ ∧ v.Fits σ := by
  induction e using Expr.induct generalizing v with
  | literal i l =>
    obtain rfl : l = v := by simpa [fold] using hv
    exact h
  | name i n d =>
    match d, h with
    | some (.constant k), ⟨σ, l, hσ, hl, hfit⟩ =>
      obtain rfl : l = v := Option.some.inj (hl.symm.trans hv)
      exact ⟨σ, hσ, hfit⟩
    | some (.localVar k), _ | some (.argument k), _ | some (.dataField k), _ => cases hv
  | member i target field r ih => cases hv
  | call i f arguments c ih => cases hv
  | unary i op operand ih =>
    obtain ⟨ho, σ, hoσ, hop, hσ⟩ := h
    obtain ⟨t, ht, hσt⟩ := Env.shape_eq_some.1 hσ
    obtain ⟨n, hn⟩ := Shape.exists_size?_of_isValue (Shape.isValue_of_takes hop)
      Γ.types.structSizes
    rw [fold_unary ht hσt hn] at hv
    obtain ⟨l, hl, hv⟩ := Option.bind_eq_some_iff.1 hv
    obtain ⟨σ', hσ', hfit⟩ := ih ho hl
    obtain rfl : σ' = σ := Option.some.inj (hσ'.symm.trans hoσ)
    exact ⟨σ', hσ, Literal.fits_unary hop hn hfit hv⟩
  | binary i op left right ihl ihr =>
    obtain ⟨hl, hr, a, b, c, ha, hb, hop, hσ⟩ := h
    obtain ⟨t, ht, hσt⟩ := Env.shape_eq_some.1 hσ
    obtain ⟨-, -, hval⟩ := Shape.isValue_of_binary hop
    obtain ⟨n, hn⟩ := Shape.exists_size?_of_isValue hval Γ.types.structSizes
    rw [fold_binary ht hσt hn] at hv
    obtain ⟨l, hfl, hv⟩ := Option.bind_eq_some_iff.1 hv
    obtain ⟨r, hfr, hv⟩ := Option.bind_eq_some_iff.1 hv
    obtain ⟨a', ha', hfa⟩ := ihl hl hfl
    obtain ⟨b', hb', hfb⟩ := ihr hr hfr
    obtain rfl : a' = a := Option.some.inj (ha'.symm.trans ha)
    obtain rfl : b' = b := Option.some.inj (hb'.symm.trans hb)
    exact ⟨c, hσ, Literal.fits_binary hop hn hfa hfb hv⟩
  | cast i operand ih =>
    obtain ⟨-, hnone, -⟩ := h
    rw [fold_cast_of_none hnone] at hv
    cases hv
  | pointer i target temp ih => cases hv

/-- **Types once right stay right.** -/
theorem Typed.extends (hΓ : Γ.Extends Γ') (h : e.Typed Γ) : e.Typed Γ' := by
  induction e using Expr.induct with
  | literal i v =>
    obtain ⟨σ, hσ, hv⟩ := h
    exact ⟨σ, hΓ.shape hσ, hv⟩
  | name i n d =>
    have place (d : Declaration) (h : i.type = Γ.declared d ∧ ∃ σ, Γ.shape i = some σ) :
        i.type = Γ'.declared d ∧ ∃ σ, Γ'.shape i = some σ := by
      obtain ⟨hd, σ, hσ⟩ := h
      obtain ⟨t, ht, -⟩ := Env.shape_eq_some.1 hσ
      rw [ht] at hd
      exact ⟨ht.trans (hΓ.declared d t hd.symm).symm, σ, hΓ.shape hσ⟩
    match d, h with
    | some (.constant k), ⟨σ, v, hσ, hv, hfit⟩ =>
      exact ⟨σ, v, hΓ.shape hσ, hΓ.constant k v hv, hfit⟩
    | some (.localVar k), h => exact place _ h
    | some (.argument k), h => exact place _ h
    | some (.dataField k), h => exact place _ h
  | member i target field r ih =>
    match r, h with
    | some r, ⟨ht, ha, hs, t, σ, hm, hσ, hi⟩ =>
      exact ⟨ih ht, ha, hΓ.shape hs, t, σ, hΓ.member r t hm, hΓ.types.shape? hσ, hΓ.shape hi⟩
  | call i f arguments c ih =>
    match c, h with
    | some n, ⟨⟨ps, hf, hargs⟩, hret⟩ =>
      refine ⟨⟨ps, hΓ.function n _ hf, ?_⟩, fun t ht => ?_⟩
      · rw [typedAll_iff] at hargs ⊢
        clear h hf hret
        induction hargs with
        | nil => exact .nil
        | @cons p a ps as hpa _ ihargs =>
          obtain ⟨ha, σ, hp, hs⟩ := hpa
          refine .cons ⟨ih a (by simp) ha, σ, hΓ.types.shape? hp, hΓ.shape hs⟩ ?_
          exact ihargs fun a ha => ih a (by simp [ha])
      · obtain ⟨σ, hσ⟩ := hret t ht
        exact ⟨σ, hΓ.types.shape? hσ⟩
  | unary i op operand ih =>
    obtain ⟨ho, σ, hoσ, hop, hσ⟩ := h
    exact ⟨ih ho, σ, hΓ.shape hoσ, hop, hΓ.shape hσ⟩
  | binary i op left right ihl ihr =>
    obtain ⟨hl, hr, a, b, c, ha, hb, hop, hσ⟩ := h
    exact ⟨ihl hl, ihr hr, a, b, c, hΓ.shape ha, hΓ.shape hb, hop, hΓ.shape hσ⟩
  | cast i operand ih =>
    obtain ⟨ho, hnone, σ, τ, hoσ, hσ, hc⟩ := h
    exact ⟨ih ho, (ho.fold_extends hΓ).trans hnone, σ, τ, hΓ.shape hoσ, hΓ.shape hσ, hc⟩
  | pointer i target temp ih =>
    obtain ⟨ht, hp, σ, hσ⟩ := h
    exact ⟨ih ht, hΓ.shape hp, σ, hΓ.shape hσ⟩

/-! ## Operands with a value -/

/-- An operand stays what it is, or becomes a literal with its value. -/
theorem simplified_cases (types : TypeTable) (constant : Nat → Option Literal) (e : Expr) :
    e.simplified types constant = e ∧ (e.isLiteral = true ∨ e.fold types constant = none) ∨
      ∃ v, e.fold types constant = some v ∧
        e.simplified types constant = .literal ⟨e.location, e.type?.map types.base⟩ v := by
  unfold Expr.simplified
  split
  next h => exact .inl ⟨rfl, .inl h⟩
  next =>
    split
    next v hv => exact .inr ⟨v, hv, rfl⟩
    next hv => exact .inl ⟨rfl, .inr hv⟩

/-- An operand keeps its shape when it is turned into a literal. -/
theorem Typed.simplified (h : e.Typed Γ) :
    (e.simplified Γ.types Γ.constant).Typed Γ ∧
      ∀ σ, Γ.shape e.info = some σ → Γ.shape (e.simplified Γ.types Γ.constant).info = some σ := by
  obtain ⟨he, -⟩ | ⟨v, hv, he⟩ := simplified_cases Γ.types Γ.constant e <;> rw [he]
  · exact ⟨h, fun _ hσ => hσ⟩
  · obtain ⟨σ, hσ, hfit⟩ := h.fold_fits hv
    obtain ⟨t, ht, hσt⟩ := Env.shape_eq_some.1 hσ
    have hbase : Γ.shape ⟨e.location, e.type?.map Γ.types.base⟩ = some σ := by
      refine Env.shape_eq_some.2 ⟨Γ.types.base t, ?_, TypeTable.shape?_base hσt⟩
      rw [type?, ht]
      rfl
    refine ⟨⟨σ, hbase, hfit⟩, fun σ' hσ' => ?_⟩
    obtain rfl : σ' = σ := Option.some.inj (hσ'.symm.trans hσ)
    exact hbase

theorem simplified_of_isAddressable {types : TypeTable} {constant : Nat → Option Literal}
    (h : e.isAddressable = true) : e.simplified types constant = e := by
  obtain ⟨he, -⟩ | ⟨v, hv, -⟩ := simplified_cases types constant e
  · exact he
  · rw [fold_eq_none_of_isAddressable h] at hv
    cases hv

/-- Turning operands into literals keeps types right. -/
theorem Typed.simplify (h : e.Typed Γ) (hp : ∀ i t p, e ≠ .pointer i t p)
    (hc : ∀ i o, e ≠ .cast i o) : (e.simplify Γ.types Γ.constant).Typed Γ := by
  cases e with
  | literal => exact h
  | name => exact h
  | member i target field r =>
    match r, h with
    | some r, ⟨ht, ha, hs, hm⟩ =>
      rw [Expr.simplify, simplified_of_isAddressable ha]
      exact ⟨ht, ha, hs, hm⟩
  | call i f arguments c =>
    match c, h with
    | some n, ⟨⟨ps, hf, hargs⟩, hret⟩ =>
      refine ⟨⟨ps, hf, ?_⟩, hret⟩
      rw [typedAll_iff] at hargs ⊢
      rw [List.forall₂_map_right_iff]
      refine hargs.imp fun p a hpa => ?_
      obtain ⟨ha, σ, hp, hs⟩ := hpa
      obtain ⟨hs', hshape⟩ := ha.simplified
      exact ⟨hs', σ, hp, hshape σ hs⟩
  | unary i op operand =>
    obtain ⟨ho, σ, hoσ, hop, hσ⟩ := h
    obtain ⟨ho', hshape⟩ := ho.simplified
    exact ⟨ho', σ, hshape σ hoσ, hop, hσ⟩
  | binary i op left right =>
    obtain ⟨hl, hr, a, b, c, ha, hb, hop, hσ⟩ := h
    obtain ⟨hl', hsl⟩ := hl.simplified
    obtain ⟨hr', hsr⟩ := hr.simplified
    exact ⟨hl', hr', a, b, c, hsl a ha, hsr b hb, hop, hσ⟩
  | cast i o => exact absurd rfl (hc i o)
  | pointer i t p => exact absurd rfl (hp i t p)

end Expr

/-! ## Statements -/

mutual

/-- Every expression of the statement has the type that is wanted where it stands; `returns` is the
type of the function's result. -/
def Stmt.Typed (Γ : Env) (returns : Option TypeId) : Stmt → Prop
  | .var _ _ none => True
  | .var _ index (some e) =>
    e.Typed Γ ∧ ∃ t σ, Γ.declared (.localVar index) = some t ∧ Γ.types.shape? t = some σ ∧
      Γ.shape e.info = some σ
  | .assign _ value target =>
    value.Typed Γ ∧ target.Typed Γ ∧ target.isAddressable = true ∧
      ∃ σ, Γ.shape value.info = some σ ∧ Γ.shape target.info = some σ
  | .invoke _ call => call.Typed Γ
  | .return _ none => True
  | .return _ (some e) =>
    e.Typed Γ ∧ ∃ t σ, returns = some t ∧ Γ.types.shape? t = some σ ∧ Γ.shape e.info = some σ
  | .choose _ branches => branches.Typed Γ returns
  | .count _ counter start finish step body _ =>
    (counter.Typed Γ ∧ counter.isAddressable = true ∧ start.Typed Γ ∧ finish.Typed Γ ∧
      ∃ σ, σ.isNumeric = true ∧ Γ.shape counter.info = some σ ∧ Γ.shape start.info = some σ ∧
        Γ.shape finish.info = some σ ∧
        ∀ e, step = some e → e.Typed Γ ∧ Γ.shape e.info = some σ) ∧
      Stmt.TypedAll Γ returns body
  | .loop _ condition body =>
    (∀ c, condition = some c → c.value.Typed Γ ∧
      Γ.shape c.value.info = some (.scalar .boolean)) ∧ Stmt.TypedAll Γ returns body

/-- Statements whose types are right. -/
def Stmt.TypedAll (Γ : Env) (returns : Option TypeId) : List Stmt → Prop
  | [] => True
  | s :: rest => s.Typed Γ returns ∧ Stmt.TypedAll Γ returns rest

/-- Branches whose types are right. -/
def Branches.Typed (Γ : Env) (returns : Option TypeId) : Branches → Prop
  | .done => True
  | .otherwise body => Stmt.TypedAll Γ returns body
  | .branch condition body rest =>
    (condition.Typed Γ ∧ Γ.shape condition.info = some (.scalar .boolean)) ∧
      Stmt.TypedAll Γ returns body ∧ rest.Typed Γ returns

end

section Extends

variable {Γ Γ' : Env} {returns : Option TypeId}

mutual

theorem Stmt.Typed.extends (hΓ : Γ.Extends Γ') :
    (s : Stmt) → s.Typed Γ returns → s.Typed Γ' returns
  | .var _ _ none, _ => trivial
  | .var _ _ (some _), ⟨he, t, σ, ht, hσ, hs⟩ =>
    ⟨he.extends hΓ, t, σ, hΓ.declared _ t ht, hΓ.types.shape? hσ, hΓ.shape hs⟩
  | .assign _ _ _, ⟨hv, ht, ha, σ, hσ, hσ'⟩ =>
    ⟨hv.extends hΓ, ht.extends hΓ, ha, σ, hΓ.shape hσ, hΓ.shape hσ'⟩
  | .invoke _ _, h => Expr.Typed.extends hΓ h
  | .return _ none, _ => trivial
  | .return _ (some _), ⟨he, t, σ, ht, hσ, hs⟩ =>
    ⟨he.extends hΓ, t, σ, ht, hΓ.types.shape? hσ, hΓ.shape hs⟩
  | .choose _ branches, h => Branches.Typed.extends hΓ branches h
  | .count _ _ _ _ _ body _, ⟨⟨hc, ha, hs, hf, σ, hn, hσc, hσs, hσf, hstep⟩, hb⟩ =>
    ⟨⟨hc.extends hΓ, ha, hs.extends hΓ, hf.extends hΓ, σ, hn, hΓ.shape hσc, hΓ.shape hσs,
      hΓ.shape hσf, fun e he => ⟨(hstep e he).1.extends hΓ, hΓ.shape (hstep e he).2⟩⟩,
      Stmt.TypedAll.extends hΓ body hb⟩
  | .loop _ _ body, ⟨hc, hb⟩ =>
    ⟨fun c h => ⟨(hc c h).1.extends hΓ, hΓ.shape (hc c h).2⟩, Stmt.TypedAll.extends hΓ body hb⟩

theorem Stmt.TypedAll.extends (hΓ : Γ.Extends Γ') :
    (l : List Stmt) → Stmt.TypedAll Γ returns l → Stmt.TypedAll Γ' returns l
  | [], _ => trivial
  | s :: rest, ⟨hs, hr⟩ => ⟨Stmt.Typed.extends hΓ s hs, Stmt.TypedAll.extends hΓ rest hr⟩

theorem Branches.Typed.extends (hΓ : Γ.Extends Γ') :
    (b : Branches) → b.Typed Γ returns → b.Typed Γ' returns
  | .done, _ => trivial
  | .otherwise body, h => Stmt.TypedAll.extends hΓ body h
  | .branch _ body rest, ⟨⟨hc, hσ⟩, hb, hr⟩ =>
    ⟨⟨hc.extends hΓ, hΓ.shape hσ⟩, Stmt.TypedAll.extends hΓ body hb,
      Branches.Typed.extends hΓ rest hr⟩

end

end Extends

end ChannelBasic
