import ChannelBasic.Proofs.Emission.Labels
import ChannelBasic.Proofs.Faultless.Layout
import ChannelBasic.Proofs.Typing.Sizes

/-!
# Proofs/Faultless/Emission — code can be emitted for what has its types

Emitting asks for types, sizes and places and finds all of them: an expression with the right types
has a size, a place that can be named in a function lies in its frame or in the data of its module,
and an address that needs no copy is that of a place or of a text.  Every function that joins the
queue has a body, and every label is marked once, so **the image of a module is made without an
internal error** (`faultless_image`).
-/

namespace ChannelBasic

open Checked Code

namespace EmissionContext

/-- A variable is there, and its type has a shape. -/
def Holds (ctx : EmissionContext) (index : Nat) : Prop :=
  ∃ v t σ, ctx.body.locals[index]? = some v ∧ v.type = some t ∧
    ctx.program.types.shape? t = some σ

/-- What an environment knows can be found when code is emitted. -/
structure Finds (ctx : EmissionContext) (Γ : Env) : Prop where
  types : Γ.types = ctx.program.types
  sized : ctx.program.types.Sized
  places : ∀ d t, Γ.declared d = some t → (ctx.declarationPlace? d).isSome = true
  members : ∀ r t, Γ.member r = some t → (ctx.program.structField? r).isSome = true
  returns : ∀ (n : Nat) (f : Function), ctx.program.functions[n]? = some f →
    ∀ t, f.returns = some t → ∃ σ, ctx.program.types.shape? t = some σ

/-- **A place that can be named lies somewhere.** -/
theorem Finds.exists_place {ctx : EmissionContext} {Γ : Env} (h : ctx.Finds Γ) {e : Expr}
    (he : e.Typed Γ) (ha : e.isAddressable = true) : ∃ place, ctx.place? e = some place := by
  induction e using Expr.induct with
  | name i name d =>
    obtain _ | d := d
    · cases he
    · have hd : (ctx.declarationPlace? d).isSome = true := by
        cases d with
        | constant k => cases ha
        | localVar k | argument k | dataField k =>
          obtain ⟨htype, σ, hσ⟩ := he
          obtain ⟨t, ht, -⟩ := Env.shape_eq_some.1 hσ
          exact h.places _ t (htype ▸ ht)
      exact Option.isSome_iff_exists.1 hd
  | member i target field r ih =>
    obtain _ | r := r
    · cases he
    · obtain ⟨htarget, hta, -, t, -, ht, -⟩ := he
      obtain ⟨place, hplace⟩ := ih htarget hta
      obtain ⟨slot, hslot⟩ := Option.isSome_iff_exists.1 (h.members r t ht)
      exact ⟨place.plus slot.offset, by simp [place?, hplace, hslot]⟩
  | literal | call | unary | binary | cast | pointer => cases ha

end EmissionContext

namespace Emission

variable {ctx : EmissionContext} {Γ : Env} {s : EmissionState} {e : Expr} {σ : Shape} {t : TypeId}

@[simp] theorem faultless_label : Faultless (label.run s) := by simp [label]

@[simp] theorem faultless_intern (content : String) (capacity : Nat) :
    Faultless ((intern content capacity).run s) := by simp [intern]

@[simp] theorem faultless_entry (k : Nat) : Faultless ((entry k).run s) := by
  unfold entry
  refine Faultless.reads ?_
  split <;> simp

/-! ## Types and places -/

theorem faultless_sizeOf (h : ctx.Finds Γ) (ht : ctx.program.types.shape? t = some σ)
    (place : Location) : Faultless ((sizeOf ctx place t).run s) := by
  have hsize : Faultless (ctx.program.types.sizeAt place (some t)) :=
    TypeTable.faultless_sizeAt (h.sized t σ ht)
  simp [sizeOf, hsize]

theorem faultless_typed (h : ctx.Finds Γ) (he : Γ.shape e.info = some σ) :
    Faultless ((typed ctx e).run s) := by
  obtain ⟨t, ht, hσ⟩ := Env.shape_eq_some.1 he
  rw [h.types] at hσ
  have htype : e.type? = some t := ht
  unfold typed
  refine Faultless.seq (by simp [typeOf, htype]) (ends_typeOf e) fun t' s' h' => ?_
  obtain rfl : t' = t := Option.some.inj (h'.2.symm.trans htype)
  simp [faultless_sizeOf h hσ]

theorem faultless_literal (h : ctx.Finds Γ) (ht : ctx.program.types.shape? t = some σ)
    (place : Location) (v : Literal) : Faultless ((literal ctx place v t).run s) := by
  unfold literal
  refine Faultless.seq (faultless_sizeOf h ht place) .any fun size s' _ => ?_
  cases v <;> simp

theorem faultless_loadPlace (h : ctx.Finds Γ) (he : e.Typed Γ) (hσ : Γ.shape e.info = some σ)
    (ha : e.isAddressable = true) : Faultless ((loadPlace ctx e).run s) := by
  obtain ⟨place, hplace⟩ := h.exists_place he ha
  unfold loadPlace
  refine Faultless.seq (faultless_typed h hσ) .any fun size s' _ => ?_
  rw [hplace]
  cases place <;> simp

theorem faultless_store (h : ctx.Finds Γ) (hσ : Γ.shape e.info = some σ) :
    Faultless ((store ctx e).run s) := by
  unfold store
  refine Faultless.seq (faultless_typed h hσ) .any fun size s' _ => ?_
  dsimp only
  split <;> simp

/-- An address that needs no copy is that of a place or of a text. -/
theorem faultless_address (h : ctx.Finds Γ) (he : e.Typed Γ) (hσ : Γ.shape e.info = some σ)
    (hn : e.needsTemp ctx.program.types ctx.program.constantValue = false) :
    Faultless ((address ctx e).run s) := by
  obtain ⟨t, ht, -⟩ := Env.shape_eq_some.1 hσ
  have htype : e.type? = some t := ht
  unfold address
  cases ha : e.isAddressable with
  | true =>
    obtain ⟨place, hplace⟩ := h.exists_place he ha
    rw [hplace]
    cases place <;> simp
  | false =>
    have hfold : ∃ content, e.fold ctx.program.types ctx.program.constantValue =
        some (.text content) := by
      unfold Expr.needsTemp at hn
      rw [ha] at hn
      revert hn
      split <;> simp_all
    obtain ⟨content, hcontent⟩ := hfold
    rw [hcontent]
    split <;> simp [typeOf, htype]

theorem faultless_resultRoom {types : TypeTable} (h : types.Sized) {returns : Option TypeId}
    (hr : ∀ t, returns = some t → ∃ σ, types.shape? t = some σ) (place : Location) :
    Faultless ((resultRoom types place returns).run s) := by
  cases returns with
  | none => simp [resultRoom]
  | some t =>
    obtain ⟨σ, hσ⟩ := hr t rfl
    have hsize : Faultless (types.sizeAt place (some t)) := TypeTable.faultless_sizeAt (h t σ hσ)
    simp [resultRoom, hsize]

@[simp] theorem faultless_callee (f : Function) (k : Nat) : Faultless ((callee f k).run s) := by
  unfold callee
  split <;> simp [internName]

theorem isOperable_of_isValue (h : σ.isValue = true) : isOperable σ.kind = true := by
  cases σ with
  | scalar s => cases s <;> rfl
  | string => rfl
  | pointer | struct => cases h

theorem faultless_operator (op : BinaryOp) (place : Location) (kind : ValueType) (left right : Nat)
    {result : Emission Nat} (h : ∀ s, Faultless (result.run s)) :
    Faultless ((operator op place kind left right result).run s) := by
  unfold operator
  obtain ⟨c, hc⟩ | ⟨hc, code, hcode⟩ := Value.operation_or_comparison op
  · simp [hc]
  · simp [hc, hcode, h]

/-! ## Expressions -/

mutual

theorem faultless_load (h : ctx.Finds Γ) {low : Int} : (e : Expr) → e.Typed Γ →
    e.Framed ctx.program.types ctx.program.constantValue low → (s : EmissionState) →
      Faultless ((load ctx e).run s)
  | .literal i v, ⟨σ, hσ, _⟩, _, s => by
    obtain ⟨t, ht, hσ⟩ := Env.shape_eq_some.1 hσ
    rw [h.types] at hσ
    unfold load
    refine Faultless.seq (by simp [typeOf, Expr.type?, Expr.info, ht]) (ends_typeOf _) fun t' s' h' => ?_
    obtain rfl : t' = t := Option.some.inj (h'.2.symm.trans ht)
    exact faultless_literal h hσ _ v
  | .name i name (some (.constant k)), ⟨σ, v, hσ, _, _⟩, _, s => by
    obtain ⟨t, ht, hσ⟩ := Env.shape_eq_some.1 hσ
    rw [h.types] at hσ
    unfold load
    dsimp only
    split
    · refine Faultless.seq (by simp [typeOf, Expr.type?, Expr.info, ht]) (ends_typeOf _) fun t' s' h' => ?_
      obtain rfl : t' = t := Option.some.inj (h'.2.symm.trans ht)
      exact faultless_literal h (TypeTable.shape?_base hσ) _ _
    · simp
  | .name i name (some (.localVar k)), he, _, s => by
    obtain ⟨σ, hσ⟩ := he.2
    unfold load
    exact faultless_loadPlace h he hσ rfl
  | .name i name (some (.argument k)), he, _, s => by
    obtain ⟨σ, hσ⟩ := he.2
    unfold load
    exact faultless_loadPlace h he hσ rfl
  | .name i name (some (.dataField k)), he, _, s => by
    obtain ⟨σ, hσ⟩ := he.2
    unfold load
    exact faultless_loadPlace h he hσ rfl
  | .member i target field (some r), he, _, s => by
    obtain ⟨-, hta, -, t, σ, -, -, hσ⟩ := id he
    unfold load
    exact faultless_loadPlace h he hσ hta
  | .call i name arguments (some n), ⟨⟨ps, _, hargs⟩, _⟩, hframed, s => by
    unfold load
    dsimp only
    split
    · simp
    next f k hf =>
      obtain ⟨g, hg, hgf⟩ := Option.map_eq_some_iff.1 hf
      obtain ⟨rfl, rfl⟩ := Prod.mk.inj hgf
      simp [faultless_resultRoom h.sized (h.returns _ _ hg), faultless_loadArguments h ps arguments hargs hframed]
  | .unary i op operand, ⟨ho, σ, hσ, _, _⟩, hframed, s => by
    unfold load
    refine Faultless.seq (faultless_load h operand ho hframed s) .any fun code s₁ _ => ?_
    refine Faultless.seq (faultless_typed h hσ) .any fun r s₂ _ => ?_
    cases op <;> simp
  | .binary i op left right, ⟨hl, hr, a, b, c, ha, hb, hop, hc⟩, ⟨hfl, hfr⟩, s => by
    unfold load
    refine Faultless.seq (faultless_typed h ha) (ends_typed left) fun l s₁ h₁ => ?_
    refine Faultless.seq (faultless_typed h hb) .any fun r s₂ _ => ?_
    have hkind : isOperable l.1 = true := by
      obtain ⟨t, ht, hkind, -⟩ := h₁.2
      obtain ⟨t', ht', hσ⟩ := Env.shape_eq_some.1 ha
      obtain rfl : t' = t := Option.some.inj (ht'.symm.trans ht)
      rw [← hkind, TypeTable.valueType_eq (h.types ▸ hσ)]
      exact isOperable_of_isValue (Shape.isValue_of_binary hop).1
    have hresult (s : EmissionState) : Faultless (Emission.typed ctx (.binary i op left right) |>.run s) :=
      faultless_typed h hc
    simp only [hkind, if_true]
    refine Faultless.seq (faultless_load h right hr hfr _) .any fun _ s₃ _ => ?_
    refine Faultless.seq (faultless_load h left hl hfl _) .any fun _ s₄ _ => ?_
    refine Faultless.seq (faultless_operator _ _ _ _ _ fun s => ?_) .any fun _ s₅ _ =>
      Faultless.run_value _ _
    simp [hresult]
  | .cast i operand, ⟨ho, _, σ, τ, hσ, hτ, _⟩, hframed, s => by
    unfold load
    refine Faultless.seq (faultless_load h operand ho hframed s) .any fun code s₁ _ => ?_
    refine Faultless.seq (faultless_typed h hσ) .any fun r s₂ _ => ?_
    refine Faultless.seq (faultless_typed h hτ) .any fun r' s₃ _ => ?_
    exact Faultless.run_value _ _
  | .pointer i target (some offset), ⟨ht, _, σ, hσ⟩, ⟨hframed, _⟩, s => by
    unfold load
    refine Faultless.seq (faultless_typed h hσ) .any fun r s₁ _ => ?_
    refine Faultless.seq (faultless_load h target ht hframed s₁) .any fun code s₂ _ => ?_
    exact Faultless.run_value _ _
  | .pointer i target none, ⟨ht, _, σ, hσ⟩, ⟨_, hn, _⟩, s => by
    unfold load
    exact faultless_address h ht hσ (hn rfl)

theorem faultless_loadArguments (h : ctx.Finds Γ) {low : Int} : (ps : List TypeId) →
    (es : List Expr) → Expr.TypedAll Γ ps es →
    Expr.FramedAll ctx.program.types ctx.program.constantValue low es → (s : EmissionState) →
      Faultless ((loadArguments ctx es).run s)
  | [], [], _, _, s => by simp [loadArguments]
  | _ :: ps, e :: es, ⟨he, ⟨σ, _, hσ⟩, hes⟩, ⟨hf, hfs⟩, s => by
    unfold loadArguments
    refine Faultless.seq (faultless_loadArguments h ps es hes hfs s) .any fun r s₁ _ => ?_
    refine Faultless.seq (faultless_load h e he hf s₁) .any fun code s₂ _ => ?_
    refine Faultless.seq (faultless_typed h hσ) .any fun _ s₃ _ => ?_
    exact Faultless.run_value _ _

end

/-! ## Statements -/

theorem faultless_initialise (h : ctx.Finds Γ) {index : Nat} (hi : ctx.Holds index) :
    Faultless ((initialise ctx index).run s) := by
  obtain ⟨v, t, σ, hv, ht, hσ⟩ := hi
  unfold initialise
  rw [hv]
  dsimp only
  rw [ht]
  refine Faultless.seq (faultless_sizeOf h hσ _) .any fun size s₁ _ => ?_
  refine Faultless.seq (Faultless.run_mapM_all fun r s => by simp) .any fun _ s₂ _ => ?_
  exact Faultless.run_value _ _

theorem faultless_returnCode (h : ctx.Finds Γ) {low : Int} {value : Option Expr}
    (ht : ∀ e, value = some e → e.Typed Γ ∧ ∃ t σ, ctx.function.returns = some t ∧
      Γ.types.shape? t = some σ)
    (hf : ∀ e, value = some e → e.Framed ctx.program.types ctx.program.constantValue low) :
    Faultless ((returnCode ctx value).run s) := by
  cases value with
  | none => simp [returnCode]
  | some e =>
    obtain ⟨he, t, σ, hr, hσ⟩ := ht e rfl
    rw [h.types] at hσ
    simp [returnCode, hr, faultless_sizeOf h hσ, faultless_load h e he (hf e rfl)]

theorem faultless_stepCode (h : ctx.Finds Γ) {low : Int} {step : Option Expr}
    (ht : ∀ e, step = some e → e.Typed Γ)
    (hf : ∀ e, step = some e → e.Framed ctx.program.types ctx.program.constantValue low)
    (hσ : ctx.program.types.shape? t = some σ) (place : Location) :
    Faultless ((stepCode ctx place t step).run s) := by
  cases step with
  | none => exact faultless_literal h hσ place (.integral 1)
  | some e => exact faultless_load h e (ht e rfl) (hf e rfl) s

mutual

theorem faultless_stmt (h : ctx.Finds Γ) {low : Int} : (r : Stmt) →
    r.Typed Γ ctx.function.returns → r.Framed ctx.program.types ctx.program.constantValue low →
    (∀ i ∈ r.variables, ctx.Holds i) → (s : EmissionState) → Faultless ((stmt ctx r).run s)
  | .var l index (some value), ⟨he, _⟩, hf, hv, s => by
    obtain ⟨v, t, σ, hindex, ht, hσ⟩ := hv index (by simp [Stmt.variables])
    simp [stmt, localSize, hindex, ht, faultless_sizeOf h hσ, faultless_load h value he (hf value rfl)]
  | .var l index none, _, _, hv, s => by
    unfold stmt
    exact faultless_initialise h (hv index (by simp [Stmt.variables]))
  | .assign l value target, ⟨he, _, _, σ, _, hσ⟩, hf, _, s => by
    simp [stmt, faultless_load h value he hf.1, faultless_store h hσ]
  | .invoke l call, he, hf, _, s => by
    unfold stmt
    refine Faultless.seq (faultless_load h call he hf s) .any fun code s₁ _ => ?_
    split
    next t ht =>
      obtain ⟨σ, hσ⟩ := Expr.Typed.exists_shape he ht
      have hshape : Γ.shape call.info = some σ := Env.shape_eq_some.2 ⟨t, ht, hσ⟩
      simp [faultless_typed h hshape]
    next => simp
  | .return l value, he, hf, _, s => by
    unfold stmt
    refine faultless_returnCode h (fun e hv => ?_) hf
    subst hv
    obtain ⟨he, t, σ, hr, hσ, -⟩ := he
    exact ⟨he, t, σ, hr, hσ⟩
  | .choose l branches, ht, hf, hv, s => by
    simp [stmt, faultless_choices h branches ht hf hv]
  | .count l counter start finish step body temps,
      ⟨⟨hc, ha, hs, hfi, σ, _, hσ, _, _, hstep⟩, hb⟩, ⟨⟨_, hcf, hsf, hff, hstf⟩, hbf⟩, hv, s => by
    obtain ⟨t, ht, hshape⟩ := Env.shape_eq_some.1 hσ
    rw [h.types] at hshape
    have htype : counter.type? = some t := ht
    have hbefore : Faultless ((countStart ctx counter start finish step temps).run s) := by
      unfold countStart
      refine Faultless.seq (by simp [typeOf, htype]) (ends_typeOf counter) fun t' s₁ h₁ => ?_
      obtain rfl : t' = t := Option.some.inj (h₁.2.symm.trans htype)
      simp [faultless_typed h hσ, faultless_load h finish hfi hff, faultless_load h start hs hsf,
        faultless_stepCode h (fun e he => (hstep e he).1) hstf hshape, faultless_store h hσ]
    have htest (exit : Label) (s : EmissionState) :
        Faultless ((countTest ctx counter temps exit).run s) := by
      simp [countTest, faultless_typed h hσ, faultless_load h counter hc hcf]
    have hnext (s : EmissionState) : Faultless ((countNext ctx counter temps).run s) := by
      simp [countNext, faultless_typed h hσ, faultless_load h counter hc hcf, faultless_store h hσ]
    simp [stmt, hbefore, htest, hnext, faultless_stmts h body hb hbf hv]
  | .loop l none body, ht, hf, hv, s => by
    simp [stmt, faultless_stmts h body ht.2 hf.2 hv]
  | .loop l (some c) body, ht, hf, hv, s => by
    have htest (s : EmissionState) := faultless_load h c.value (ht.1 c rfl).1 (hf.1 c rfl) s
    have hbody (s : EmissionState) := faultless_stmts h body ht.2 hf.2 hv s
    unfold stmt
    refine Faultless.seq faultless_label .any fun head s₁ _ => ?_
    refine Faultless.seq faultless_label .any fun exit s₂ _ => ?_
    split <;> simp [htest, hbody]

theorem faultless_stmts (h : ctx.Finds Γ) {low : Int} : (rs : List Stmt) →
    Stmt.TypedAll Γ ctx.function.returns rs →
    Stmt.FramedAll ctx.program.types ctx.program.constantValue low rs →
    (∀ i ∈ Stmt.variablesAll rs, ctx.Holds i) → (s : EmissionState) →
      Faultless ((stmts ctx rs).run s)
  | [], _, _, _, s => by simp [stmts]
  | r :: rest, ⟨ht, hts⟩, ⟨hf, hfs⟩, hv, s => by
    simp [stmts, faultless_stmt h r ht hf fun i hi => hv i (List.mem_append_left _ hi),
      faultless_stmts h rest hts hfs fun i hi => hv i (List.mem_append_right _ hi)]

theorem faultless_choices (h : ctx.Finds Γ) {low : Int} {exit : Label} : (b : Branches) →
    b.Typed Γ ctx.function.returns → b.Framed ctx.program.types ctx.program.constantValue low →
    (∀ i ∈ b.variables, ctx.Holds i) → (s : EmissionState) →
      Faultless ((choices ctx exit b).run s)
  | .done, _, _, _, s => by simp [choices]
  | .otherwise body, ht, hf, hv, s => by
    simp [choices, faultless_stmts h body ht hf hv]
  | .branch condition body rest, ⟨hc, hb, hr⟩, ⟨hcf, hbf, hrf⟩, hv, s => by
    have hbody (s : EmissionState) := faultless_stmts h body hb hbf
      (fun i hi => hv i (List.mem_append_left _ hi)) s
    have hrest (s : EmissionState) : Faultless ((choices ctx exit rest).run s) :=
      faultless_choices h rest hr hrf (fun i hi => hv i (List.mem_append_right _ hi)) s
    unfold choices
    refine Faultless.seq faultless_label .any fun next s₁ _ => ?_
    refine Faultless.seq (faultless_load h condition hc.1 hcf s₁) .any fun test s₂ _ => ?_
    refine Faultless.seq (hbody s₂) .any fun code s₃ _ => ?_
    refine Faultless.seq (hrest s₃) .any fun others s₄ _ => ?_
    exact Faultless.run_value _ _

end

/-- **The code of a function is emitted without an internal error.** -/
theorem faultless_function (h : ctx.Finds Γ)
    (ht : Stmt.TypedAll Γ ctx.function.returns ctx.body.statements)
    (hl : ctx.body.LaidOut ctx.program.types ctx.program.constantValue)
    (hv : ∀ i, i ∈ ctx.body.implicit ∨ i ∈ Stmt.variablesAll ctx.body.statements → ctx.Holds i) :
    Faultless ((function ctx).run s) := by
  have hfirst (s : EmissionState) :
      Faultless ((ctx.body.implicit.mapM (initialise ctx)).run s) :=
    Faultless.run_mapM (I := fun _ => True) (fun i hi s _ =>
      ⟨faultless_initialise h (hv i (.inl hi)), .any⟩) trivial
  have hstmts (s : EmissionState) :=
    faultless_stmts h ctx.body.statements ht hl.statements (fun i hi => hv i (.inr hi)) s
  simp [function, hfirst, hstmts]

end Emission

/-! ## Programs -/

/-- What is true of an analysed program, and what its functions and channels refer to is there. -/
structure Program.Complete (p : Program) : Prop where
  analysed : p.Analysed
  returns : ∀ (n : Nat) (f : Function), p.functions[n]? = some f → ∀ t, f.returns = some t →
    ∃ σ, p.types.shape? t = some σ
  locals : ∀ (n : Nat) (f : Function), p.functions[n]? = some f → ∀ body, f.user? = some body →
    ∀ i, i ∈ body.implicit ∨ i ∈ Stmt.variablesAll body.statements → ∃ v, body.locals[i]? = some v
  channels : ∀ c ∈ p.channels, ∀ output input, c.fields = some (output, input) →
    (p.dataField? output).isSome = true ∧ (p.dataField? input).isSome = true

namespace Program

/-- A data field is still there when it has got its place. -/
theorem Relaid.dataField? {p q : Program} (h : p.Relaid q) {r : DataFieldRef}
    (hr : (p.dataField? r).isSome = true) : (q.dataField? r).isSome = true := by
  obtain ⟨f, hf⟩ := Option.isSome_iff_exists.1 hr
  obtain ⟨m, hm, hf⟩ := Option.bind_eq_some_iff.1 hf
  obtain ⟨m', hm', hrel⟩ := forall₂_left h.modules hm
  have hlen : m'.fields.length = m.fields.length := by
    simpa using congrArg List.length hrel.fields
  have hlt : r.index < m'.fields.length := hlen ▸ (List.getElem?_eq_some_iff.1 hf).1
  simp [Program.dataField?, hm', hlt]

/-- **What an analysed program refers to is there.** -/
theorem complete_of_analyse {raw : Raw.Program} {q : Program} (h : analyse raw = .ok q) :
    q.Complete := by
  have hanalysed := analysed_of_analyse h
  obtain ⟨p₀, h₀, h⟩ := Checked.bind_eq_ok.1 h
  obtain ⟨p₁, h₁, h⟩ := Checked.bind_eq_ok.1 h
  obtain ⟨p₂, h₂, h⟩ := Checked.bind_eq_ok.1 h
  obtain ⟨hw₀, hu₀⟩ := written_ofRaw h₀
  have hw := (hw₀.bound hu₀ h₁).withReach
  have hnamed := (named_of_bindNames h₁).withReach
  have hshaped := shaped_of_checkTypes hw hnamed h₂
  obtain ⟨hrelaid, -⟩ := relaid_of_checkTypes hw h₂ h
  refine ⟨hanalysed, fun n f' hf' t ht => ?_, fun n f' hf' body' hb' i hi => ?_,
    fun c hc output input hfields => ?_⟩
  · obtain ⟨f, hf, hlike⟩ := forall₂_right hrelaid.functions (k := n) (by simpa using hf')
    rw [hrelaid.types.shape?_eq]
    exact hshaped.returns n f (by simpa using hf) t (hlike.returns ▸ ht)
  · obtain ⟨f, hf, hlike⟩ := forall₂_right hrelaid.functions (k := n) (by simpa using hf')
    obtain ⟨body, hb, hbody⟩ := hlike.user body' hb'
    rw [hbody.implicit, hbody.declared] at hi
    obtain ⟨u, -, hu, -⟩ := (hshaped.functions n f (by simpa using hf) body hb).locals i hi
    obtain ⟨v, hv, -⟩ := hbody.exists_local hu
    exact ⟨v, hv⟩
  · rw [hrelaid.channels] at hc
    obtain ⟨⟨fs, s'⟩, -, h₂⟩ := Checked.bind_eq_ok.1 h₂
    obtain rfl := Checked.pure_eq_ok.1 h₂
    obtain ⟨houtput, hinput⟩ := hnamed.channels c hc output input hfields
    exact ⟨hrelaid.dataField? houtput, hrelaid.dataField? hinput⟩

theorem Analysed.sized {p : Program} (h : p.Analysed) : p.types.Sized := by
  intro id σ hσ
  obtain ⟨size, hsize, -⟩ := h.exists_size hσ
  rw [hsize, Option.isSome_some]

/-- The functions that a module can come to run find what they name. -/
theorem Complete.finds {p : Program} (h : p.Complete) {m : Module} (hm : m ∈ p.modules) {n : Nat}
    {f : Function} {body : UserBody} (hn : p.Reaches m n) (hf : p.functions[n]? = some f) :
    EmissionContext.Finds ⟨p, f, body, m.fields⟩
      (Env.ofBody p.types p.constantValue p f.owner body (p.ownerFields f.owner)) where
  types := rfl
  sized := h.analysed.sized
  places d t hd := by
    cases d with
    | localVar i =>
      obtain ⟨v, hv, -⟩ := Option.bind_eq_some_iff.1 hd
      simp [EmissionContext.declarationPlace?, hv]
    | argument i =>
      obtain ⟨v, hv, -⟩ := Option.map_eq_some_iff.1 hd
      simp [EmissionContext.declarationPlace?, hv]
    | dataField i =>
      obtain ⟨v, hv, -⟩ := Option.map_eq_some_iff.1 hd
      obtain ⟨k, hk⟩ := List.mem_iff_getElem?.1 hm
      obtain howner | howner := h.analysed.owner_of_reaches hk hn hf
      · rw [howner, ownerFields, hk] at hv
        simp [EmissionContext.declarationPlace?, show m.fields[i]? = some v from hv]
      · cases ho : f.owner with
        | library j =>
          rw [ho] at hv
          cases hv
        | module j =>
          rw [ho] at howner
          cases howner
    | constant k => cases hd
  members r t hr := by
    obtain ⟨d, hd, hr⟩ := Option.bind_eq_some_iff.1 hr
    obtain ⟨slot, hslot, -⟩ := Option.map_eq_some_iff.1 hr
    simp [structField?, hd, hslot]
  returns := h.returns

/-- The variables of a function are there, and so are the shapes of their types. -/
theorem Complete.holds {p : Program} (h : p.Complete) {n : Nat} {f : Function} {body : UserBody}
    (hf : p.functions[n]? = some f) (hb : f.user? = some body) {fields : List Slot} {i : Nat}
    (hi : i ∈ body.implicit ∨ i ∈ Stmt.variablesAll body.statements) :
    EmissionContext.Holds ⟨p, f, body, fields⟩ i := by
  obtain ⟨v, hv⟩ := h.locals n f hf body hb i hi
  obtain ⟨size, hsize, -⟩ := (h.analysed.laidOut.functions n f hf body hb).locals i v hv
  obtain ⟨t, ht, hsize⟩ := Option.bind_eq_some_iff.1 hsize
  obtain ⟨σ, hσ, -⟩ := TypeTable.shape?_of_size? hsize
  exact ⟨v, t, σ, hv, ht, hσ⟩

end Program

namespace Emission

variable {p : Program} {m : Module} {s : EmissionState} {n : Nat}

theorem faultless_resultSize (h : p.Complete) {f : Function} (hf : p.functions[n]? = some f)
    (place : Location) : Faultless ((resultSize p.types place f.returns).run s) := by
  cases hr : f.returns with
  | none => simp [resultSize]
  | some t =>
    obtain ⟨σ, hσ⟩ := h.returns n f hf t hr
    have hsize : Faultless (p.types.sizeAt place (some t)) :=
      TypeTable.faultless_sizeAt (h.analysed.sized t σ hσ)
    simp [resultSize, hsize]

theorem faultless_functionUnit (h : p.Complete) (hm : m ∈ p.modules) (hn : p.Callable m n)
    (hu : p.IsUser n) : Faultless ((functionUnit p m n).run s) := by
  obtain ⟨f, body, hf, hb⟩ := hu
  have hfunction (s : EmissionState) : Faultless ((function ⟨p, f, body, m.fields⟩).run s) :=
    faultless_function (h.finds hm hn.1 hf) (h.analysed.typed n f hf body hb)
      (h.analysed.laidOut.functions n f hf body hb) fun i hi => h.holds hf hb hi
  simp [functionUnit, hf, hb, hfunction, faultless_resultSize h hf]

/-- **Every function in the queue has a body and can be called**, so its code is emitted. -/
theorem faultless_functionUnits (h : p.Complete) (hm : m ∈ p.modules) (bound : Nat) :
    (s : EmissionState) → (done : List Nat) → s.Counted done →
    (∀ e ∈ s.entries, p.Callable m e.1) → (∀ e ∈ s.entries, p.IsUser e.1) →
      Faultless ((functionUnits p m bound).run s) := by
  induction bound with
  | zero =>
    intro s done _ _ _
    simp [functionUnits]
  | succ bound ih =>
    intro s done hs hcallable husers
    unfold functionUnits
    refine Faultless.reads ?_
    split
    next => simp
    next number rest hq =>
      obtain ⟨e, he, rfl⟩ : ∃ e ∈ s.entries, e.1 = number :=
        List.mem_map.1 (hs.perm.symm.subset (by simp [hq]))
      refine Faultless.modifies ?_
      refine Faultless.seq (faultless_functionUnit h hm (hcallable e he) (husers e he))
        ((ends_functionUnit (hcallable e he)).both (issues_functionUnit (husers e he)))
        fun u s₁ h₁ => ?_
      obtain ⟨⟨hg, -, -⟩, code, -, hi⟩ := h₁
      refine Faultless.seq (ih s₁ _ (hg.counted _ (hs.popped hq))
        (fun e he => (hg.new e he).elim (hcallable e) id)
        fun e he => (hi.users e he).elim (husers e) id) .any fun units s₂ _ => ?_
      exact Faultless.run_value _ _

theorem faultless_bootstrap (h : p.Complete) : Faultless ((bootstrap p m).run s) := by
  unfold bootstrap
  split
  next => simp
  next number f hmain =>
    obtain ⟨-, hf, -⟩ := main?_eq_some hmain
    simp [faultless_resultRoom h.analysed.sized (h.returns number f hf)]

theorem faultless_module (h : p.Complete) (hm : m ∈ p.modules) :
    Faultless ((module p m).run ⟨.empty, m.static, [], []⟩) := by
  unfold module
  refine Faultless.seq (faultless_bootstrap h) ((ends_bootstrap p m).both issues_bootstrap)
    fun start s₁ h₁ => ?_
  refine Faultless.seq (Faultless.run_forM_all fun n s => ?_) (ends_owned.both issues_owned)
    fun _ s₂ h₂ => ?_
  · split <;> simp
  · have hg := h₁.1.1.trans h₂.1.1
    have hi := h₁.2.append h₂.2
    refine Faultless.seq (faultless_functionUnits h hm _ s₂ []
      (hg.counted [] ⟨.refl _, List.nodup_nil⟩)
      (fun e he => (hg.new e he).elim (fun h => by cases h) id)
      fun e he => (hi.users e he).elim (fun h => by cases h) id) .any fun units z _ => ?_
    exact Faultless.run_value _ _

end Emission

/-- **The image of a module is made without an internal error.** -/
theorem Module.faultless_image {p : Program} {m : Module} (h : p.Complete) (hm : m ∈ p.modules) :
    Faultless (m.image p) := by
  have hlink (a : Assembly) (ha : m.assembly p = .ok a) : ∃ bytes, a.link.link a.code = .ok bytes := by
    obtain ⟨⟨⟨start, units⟩, z⟩, hrun, ha⟩ := Checked.bind_eq_ok.1 ha
    obtain ⟨code, ls, hok, hbound, htargets⟩ :=
      (Emission.marked_module (h.analysed.static m hm) _ _ hrun).assemble
    obtain ⟨⟨code', ls'⟩, hok', ha⟩ := Checked.bind_eq_ok.1 ha
    obtain ⟨rfl, rfl⟩ := Prod.mk.inj (Except.ok.inj (hok.symm.trans hok'))
    obtain rfl := Checked.pure_eq_ok.1 ha
    exact Link.exists_link hbound htargets
  have hassembly : Faultless (m.assembly p) := by
    unfold assembly
    rw [Faultless.bind_iff]
    refine ⟨Emission.faultless_module h hm, fun r hr => ?_⟩
    obtain ⟨code, ls, hok, -⟩ :=
      (Emission.marked_module (h.analysed.static m hm) _ _ hr).assemble
    simp [hok]
  unfold image
  rw [Faultless.bind_iff]
  refine ⟨hassembly, fun a ha => ?_⟩
  obtain ⟨bytes, hbytes⟩ := hlink a ha
  simp [hbytes]

end ChannelBasic
