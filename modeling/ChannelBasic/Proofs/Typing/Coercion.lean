import ChannelBasic.Proofs.Typing.Basic
import ChannelBasic.Proofs.Typing.Evolution

/-!
# Proofs/Typing/Coercion — operands and operators are made to go together

An expression as it is written is `Plain`: it has no conversions, its literals fit their types, and
it calls functions that can be seen.  What checking knows is an `Env`.  As long as it is `Sound`,
an expression that is coerced to a type **has the shape of that type** (`ends_coerce`).
-/

namespace ChannelBasic

open Code

/-! ## Expressions as they are written -/

mutual

/-- An expression as it is written, before its types are checked. -/
def Expr.Plain (types : TypeTable) (visible : Nat → Bool) : Expr → Prop
  | .literal i v => ∃ t σ, i.type = some t ∧ types.shape? t = some σ ∧ v.Fits σ
  | .name _ _ _ => True
  | .member _ target _ _ => target.Plain types visible
  | .call _ _ arguments callee =>
    (∀ n, callee = some n → visible n = true) ∧ Expr.PlainAll types visible arguments
  | .unary _ _ operand => operand.Plain types visible
  | .binary _ _ left right => left.Plain types visible ∧ right.Plain types visible
  | .cast _ _ | .pointer _ _ _ => False

/-- Expressions as they are written. -/
def Expr.PlainAll (types : TypeTable) (visible : Nat → Bool) : List Expr → Prop
  | [] => True
  | e :: rest => e.Plain types visible ∧ Expr.PlainAll types visible rest

end

mutual

theorem Expr.Plain.extends {t t' : TypeTable} {visible : Nat → Bool} (hE : t.Extends t') :
    (e : Expr) → e.Plain t visible → e.Plain t' visible
  | .literal _ _, ⟨u, σ, hu, hσ, hv⟩ => ⟨u, σ, hu, hE.shape? hσ, hv⟩
  | .name _ _ _, _ => trivial
  | .member _ target _ _, h => Expr.Plain.extends hE target h
  | .call _ _ arguments _, ⟨hc, ha⟩ => ⟨hc, Expr.PlainAll.extends hE arguments ha⟩
  | .unary _ _ operand, h => Expr.Plain.extends hE operand h
  | .binary _ _ left right, ⟨hl, hr⟩ =>
    ⟨Expr.Plain.extends hE left hl, Expr.Plain.extends hE right hr⟩

theorem Expr.PlainAll.extends {t t' : TypeTable} {visible : Nat → Bool} (hE : t.Extends t') :
    (es : List Expr) → Expr.PlainAll t visible es → Expr.PlainAll t' visible es
  | [], _ => trivial
  | e :: rest, ⟨he, hr⟩ => ⟨Expr.Plain.extends hE e he, Expr.PlainAll.extends hE rest hr⟩

end

/-! ## What checking knows -/

/-- What checking knows, as an environment; `visible` says which functions can be called. -/
def CheckState.env (sigs : Signatures) (visible : Nat → Bool) (s : CheckState) : Env where
  types := s.types
  constant := s.constantValue
  declared
    | .localVar index => s.localType index
    | .argument index => (sigs.arguments[index]?).map (·.type)
    | .dataField index => (sigs.fields[index]?).map (·.type)
    | .constant _ => none
  member r := (sigs.structs[r.struct]?).bind fun t => (t.fields[r.index]?).map (·.type)
  function n :=
    if visible n then (sigs.functions[n]?).map fun f => (f.parameters, f.returns) else none

/-- What is known about types and constants alone. -/
def CheckState.constantEnv (s : CheckState) : Env :=
  ⟨s.types, s.constantValue, fun _ => none, fun _ => none, fun _ => none⟩

/-- What is known so far is in order. -/
structure CheckState.Sound (s : CheckState) (lengths : Array Expr) : Prop where
  builtin : s.types.Builtin
  flat : s.types.Flat
  constants : ∀ (k : Nat) (c : Constant) (v : Literal), s.constants[k]? = some c →
    c.folded = some v → ∃ t σ, c.type = some t ∧ s.types.shape? t = some σ ∧ v.Fits σ
  values : ∀ (k : Nat) (c : Constant), s.constants[k]? = some c → c.folded.isSome = true →
    c.value.Typed s.constantEnv
  folds : ∀ (k : Nat) (c : Constant), s.constants[k]? = some c → c.folded.isSome = true →
    ∃ types constant, (c.value.fold types constant).isSome = true
  locals : ∀ i t, s.localType i = some t → ∃ σ, s.types.shape? t = some σ
  /-- There are variables only when all constants are evaluated. -/
  ready : s.locals.size = 0 ∨ s.Settled
  /-- What is still to be evaluated is as it was written. -/
  unfolded : ∀ (k : Nat) (c : Constant), s.constants[k]? = some c → c.folded = none →
    c.value.Plain s.types fun _ => false
  lengths : ∀ (n : Nat) (e : Expr), lengths[n]? = some e → e.Plain s.types fun _ => false

/-- All types that names can come to have, have shapes. -/
structure Signatures.Known (sigs : Signatures) (t : TypeTable) : Prop where
  arguments : ∀ a ∈ sigs.arguments, ∃ σ, t.shape? a.type = some σ
  fields : ∀ a ∈ sigs.fields, ∃ σ, t.shape? a.type = some σ
  structs : ∀ (n : Nat) (d : Struct), sigs.structs[n]? = some d → ∀ f ∈ d.fields,
    ∃ σ, t.shape? f.type = some σ
  parameters : ∀ (n : Nat) (f : Function), sigs.functions[n]? = some f → ∀ p ∈ f.parameters,
    ∃ σ, t.shape? p = some σ
  returns : ∀ (n : Nat) (f : Function), sigs.functions[n]? = some f → ∀ r, f.returns = some r →
    ∃ σ, t.shape? r = some σ

theorem Signatures.Known.extends {sigs : Signatures} {t t' : TypeTable} (h : sigs.Known t)
    (hE : t.Extends t') : sigs.Known t' where
  arguments a ha := (h.arguments a ha).imp fun _ => hE.shape?
  fields a ha := (h.fields a ha).imp fun _ => hE.shape?
  structs n d hd f hf := (h.structs n d hd f hf).imp fun _ => hE.shape?
  parameters n f hf p hp := (h.parameters n f hf p hp).imp fun _ => hE.shape?
  returns n f hf r hr := (h.returns n f hf r hr).imp fun _ => hE.shape?

variable {sigs : Signatures} {visible : Nat → Bool} {s s' : CheckState} {e : Expr}
  {lengths : Array Expr}

theorem Advances.env (h : Advances s s') : (s.env sigs visible).Extends (s'.env sigs visible) where
  types := h.types
  constant _ _ hv := h.constantValue hv
  declared d t ht := by
    cases d with
    | localVar i => exact h.locals i t ht
    | _ => exact ht
  member _ _ h := h
  function _ _ h := h

theorem Moves.env (h : Moves s s') : (s.env sigs visible).Extends (s'.env sigs visible) :=
  h.advances.env

theorem Enters.env (h : Enters s s') : (s.env sigs visible).Extends (s'.env sigs visible) :=
  h.moves.env

/-- A table that has grown leaves what is known in order, if CONST stays alone. -/
theorem CheckState.Sound.retype (hs : s.Sound lengths) {t : TypeTable} (hE : s.types.Extends t)
    (hf : t.Flat) : ({ s with types := t } : CheckState).Sound lengths := by
  have henv : s.constantEnv.Extends ({ s with types := t } : CheckState).constantEnv :=
    ⟨hE, fun _ _ h => h, fun _ _ h => h, fun _ _ h => h, fun _ _ h => h⟩
  exact {
    builtin := hs.builtin.extends hE
    flat := hf
    constants := fun k c v hc hv => by
      obtain ⟨u, σ, hu, hσ, hfit⟩ := hs.constants k c v hc hv
      exact ⟨u, σ, hu, hE.shape? hσ, hfit⟩
    values := fun k c hc hv => (hs.values k c hc hv).extends henv
    folds := hs.folds
    locals := fun i u hu => (hs.locals i u hu).imp fun _ => hE.shape?
    ready := hs.ready
    unfolded := fun k c hc hf => (hs.unfolded k c hc hf).extends hE
    lengths := fun n e he => (hs.lengths n e he).extends hE }

/-- Entering types leaves what is known in order, if CONST stays alone. -/
theorem CheckState.Sound.enters (hs : s.Sound lengths) (h : Enters s s') (hf : s'.types.Flat) :
    s'.Sound lengths := by
  have hE := h.extends
  obtain ⟨t, rfl, -, -⟩ := h
  exact hs.retype hE hf

/-! ## Types that go together -/

namespace TypeTable

variable {t : TypeTable} {a b : TypeId} {σ : Shape} {v l : Literal}

theorem hasText_shape (hB : t.Builtin) (h : t.hasText a = true) (hσ : t.shape? a = some σ) :
    σ.isValue = true := by
  rw [hasText, Bool.or_eq_true, Bool.or_eq_true] at h
  obtain (h | h) | h := h
  · obtain ⟨c, rfl⟩ := shape?_of_isString h hσ
    rfl
  · obtain ⟨s, hs, -⟩ := isNumeric_iff.1 h
    obtain rfl : Shape.scalar s = σ := Option.some.inj (hs.symm.trans hσ)
    rfl
  · obtain rfl : Shape.scalar .boolean = σ := Option.some.inj ((hB.isBoolean h).symm.trans hσ)
    rfl

theorem converts_string (c : Nat) (h : σ.isValue = true) : σ.Converts (.string c) := by
  cases σ with
  | scalar | string => trivial
  | pointer | struct => cases h

theorem widens_iff (h : t.widens a b = true) :
    ∃ s s' r r', t.shape? a = some (.scalar s) ∧ t.shape? b = some (.scalar s') ∧
      s.rank? = some r ∧ s'.rank? = some r' ∧ r ≤ r' := by
  unfold widens at h
  split at h
  next r r' hr hr' =>
    obtain ⟨s, hs, hsr⟩ := rank?_eq_some hr
    obtain ⟨s', hs', hsr'⟩ := rank?_eq_some hr'
    exact ⟨s, s', r, r', hs, hs', hsr, hsr', by simpa using h⟩
  next => cases h

/-- Types that the machine converts have shapes that convert. -/
theorem shape?_of_converts (hB : t.Builtin) (h : t.converts a b = true)
    (hσ : t.shape? a = some σ) : ∃ τ, t.shape? b = some τ ∧ σ.Converts τ := by
  unfold converts at h
  split at h
  · obtain ⟨s, s', r, r', hs, hs', hr, hr', hle⟩ := widens_iff h
    obtain rfl : Shape.scalar s = σ := Option.some.inj (hs.symm.trans hσ)
    exact ⟨.scalar s', hs', r, r', hr, hr', hle⟩
  · rw [Bool.and_eq_true] at h
    obtain ⟨c, hc⟩ := Option.isSome_iff_exists.1 h.1
    exact ⟨.string c, capacity?_iff.1 hc, converts_string c (hasText_shape hB h.2 hσ)⟩

/-- A literal converted to a type fits the type. -/
theorem fits_of_castLiteral (hB : t.Builtin) (h : t.castLiteral v a b = some l)
    (hσ : t.shape? a = some σ) (hv : v.Fits σ) : ∃ τ, t.shape? b = some τ ∧ l.Fits τ := by
  obtain ⟨n, hn, h⟩ := Option.bind_eq_some_iff.1 h
  obtain ⟨τ, hτ, hτn⟩ := shape?_of_size? hn
  rw [valueType_eq hτ] at h
  refine ⟨τ, hτ, ?_⟩
  dsimp only at h
  split at h
  next hnum =>
    rw [Bool.and_eq_true] at hnum
    obtain ⟨s', hs', hn'⟩ := isNumeric_iff.1 hnum.1
    obtain ⟨s, hs, hns⟩ := isNumeric_iff.1 hnum.2
    obtain rfl : Shape.scalar s' = τ := Option.some.inj (hs'.symm.trans hτ)
    obtain rfl : Shape.scalar s = σ := Option.some.inj (hs.symm.trans hσ)
    obtain rfl : s'.size = n := Option.some.inj hτn
    split at h
    · exact Literal.fits_cast_number hns hn' hv h
    · cases h
  next =>
    split at h
    next htext =>
      rw [Bool.and_eq_true] at htext
      obtain ⟨c, hc⟩ := Option.isSome_iff_exists.1 htext.1
      obtain rfl : Shape.string c = τ := Option.some.inj ((capacity?_iff.1 hc).symm.trans hτ)
      exact Literal.fits_cast (converts_string c (hasText_shape hB htext.2 hσ)) hτn hv h
    next => cases h

/-- What the machine would convert is converted beforehand, if its value is known. -/
theorem exists_castLiteral (hB : t.Builtin) (h : t.converts a b = true)
    (hσ : t.shape? a = some σ) (hv : v.Fits σ) : ∃ l, t.castLiteral v a b = some l := by
  obtain ⟨τ, hτ, hc⟩ := shape?_of_converts hB h hσ
  obtain ⟨n, hn⟩ := Shape.exists_size?_of_isValue (Shape.isValue_of_converts hc).2 t.structSizes
  obtain ⟨l, hl⟩ := Literal.exists_cast (n := n) hc hv
  have hsize : t.size? b = some n := by
    rw [size?_eq, hτ]
    exact hn
  refine ⟨l, ?_⟩
  unfold converts at h
  unfold castLiteral
  simp only [hsize, Option.bind_eq_bind, Option.bind_some, valueType_eq hτ]
  by_cases hnum : (t.isNumeric a && t.isNumeric b) = true
  · rw [if_pos hnum] at h
    rw [if_pos (by rwa [Bool.and_comm]), if_pos (by rw [h]; rfl), hl]
  · rw [if_neg hnum] at h
    rw [if_neg (by rwa [Bool.and_comm]), if_pos h, hl]

end TypeTable

/-! ## Coercion -/

namespace Checking

theorem ends_valueType (e : Expr) (s : CheckState) :
    Ends (valueType e) s fun t s' => s' = s ∧ e.type? = some t := by
  unfold valueType
  split
  next t ht => exact Ends.value ⟨rfl, ht⟩
  next => exact Ends.refused

/-- **What is coerced to a type has the shape of the type.** -/
theorem ends_coerce (hs : s.Sound lengths) (he : e.Typed (s.env sigs visible)) {expected : TypeId}
    {rule : Rule} : Ends (coerce e expected rule) s fun e' s' => s' = s ∧
      e'.Typed (s.env sigs visible) ∧ ∃ σ, s.types.shape? expected = some σ ∧
        (s.env sigs visible).shape e'.info = some σ := by
  unfold coerce
  split
  · exact Ends.refused
  next actual hactual =>
    obtain ⟨σ, hσ⟩ := he.exists_shape hactual
    have heσ : (s.env sigs visible).shape e.info = some σ := Env.shape_eq_some.2 ⟨_, hactual, hσ⟩
    refine Ends.reads ?_
    dsimp only
    split
    next hanalog =>
      refine Ends.value ⟨rfl, he, σ, ?_, heσ⟩
      rw [← TypeTable.shape?_of_isAnalog hanalog]
      exact hσ
    next =>
      refine Ends.seq (Ends.reads (Ends.value (Q := fun v s' => s' = s ∧
        v = e.fold s.types s.constantValue) ⟨rfl, rfl⟩)) fun value s₁ h₁ => ?_
      obtain ⟨rfl, hvalue⟩ := h₁
      split
      next pointee hpointee =>
        have hpointer := TypeTable.shape?_of_pointee? hpointee
        split
        · exact Ends.refused_seq
        · split
          next hsome =>
            obtain ⟨p, hp⟩ := Option.isSome_iff_exists.1 hsome
            obtain rfl : Shape.pointer = σ :=
              Option.some.inj ((TypeTable.shape?_of_pointee? hp).symm.trans hσ)
            exact Ends.value ⟨rfl, he, .pointer, hpointer, heσ⟩
          next =>
            have hnode : (s₁.env sigs visible).shape ⟨e.location, some expected⟩ = some .pointer :=
              hpointer
            exact Ends.value ⟨rfl, ⟨he, hnode, σ, heσ⟩, .pointer, hpointer, hnode⟩
      next =>
        have node {τ : Shape} (hτ : s₁.types.shape? (s₁.types.base expected) = some τ) :
            ∃ σ, s₁.types.shape? expected = some σ ∧ (s₁.env sigs visible).shape
              ⟨e.location, some (s₁.types.base expected)⟩ = some σ :=
          ⟨τ, by rwa [hs.flat.shape?_base] at hτ, hτ⟩
        split
        next folded hfolded =>
          obtain ⟨v, hv, hfolded⟩ := Option.bind_eq_some_iff.1 hfolded
          obtain ⟨σ', hσ', hfit⟩ := he.fold_fits (hvalue.symm.trans hv)
          obtain rfl : σ' = σ := Option.some.inj (hσ'.symm.trans heσ)
          obtain ⟨τ, hτ, hfit'⟩ := TypeTable.fits_of_castLiteral hs.builtin hfolded hσ hfit
          exact Ends.value ⟨rfl, ⟨τ, hτ, hfit'⟩, node hτ⟩
        next hnone =>
          split
          next hconv =>
            obtain ⟨τ, hτ, hc⟩ := TypeTable.shape?_of_converts hs.builtin hconv hσ
            have hfold : e.fold s₁.types s₁.constantValue = none := by
              cases hv : e.fold s₁.types s₁.constantValue with
              | none => rfl
              | some v =>
                obtain ⟨σ', hσ', hfit⟩ := he.fold_fits hv
                obtain rfl : σ' = σ := Option.some.inj (hσ'.symm.trans heσ)
                obtain ⟨l, hl⟩ := TypeTable.exists_castLiteral hs.builtin hconv hσ hfit
                simp [hvalue, hv, hl] at hnone
            exact Ends.value ⟨rfl, ⟨he, hfold, σ, τ, heσ, hτ, hc⟩, node hτ⟩
          next => exact Ends.refused

end Checking

end ChannelBasic
