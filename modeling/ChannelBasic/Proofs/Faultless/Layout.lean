import ChannelBasic.Proofs.Faultless.Checking

/-!
# Proofs/Faultless/Layout — everything that is laid out has a size

After types are checked, all fields, arguments, variables and temporaries have types with shapes
(`Program.Shaped`).  A structured type is laid out after those it consists of, or refused because
it contains itself, so **a type with a shape has a size when it is asked for**
(`faultless_layout`).
-/

namespace ChannelBasic

open Checked

/-- Everything that the layout of a body asks the size of has a shape. -/
structure UserBody.Shaped (body : UserBody) (t : TypeTable) : Prop where
  arguments : ∀ a ∈ body.arguments, ∃ σ, t.shape? a.type = some σ
  locals : ∀ i, i ∈ body.implicit ∨ i ∈ Stmt.variablesAll body.statements →
    ∃ u σ, (body.locals[i]?).bind (·.type) = some u ∧ t.shape? u = some σ
  statements : ∃ Γ returns, (∀ id σ, Γ.types.shape? id = some σ → t.shape? id = some σ) ∧
    Stmt.TypedAll Γ returns body.statements

theorem UserBody.Shaped.mono {body : UserBody} {t t' : TypeTable} (h : body.Shaped t)
    (ht : ∀ id σ, t.shape? id = some σ → t'.shape? id = some σ) : body.Shaped t' where
  arguments a ha := (h.arguments a ha).imp fun σ => ht a.type σ
  locals i hi := by
    obtain ⟨u, σ, hu, hσ⟩ := h.locals i hi
    exact ⟨u, σ, hu, ht u σ hσ⟩
  statements := by
    obtain ⟨Γ, returns, hΓ, htyped⟩ := h.statements
    exact ⟨Γ, returns, fun id σ hσ => ht id σ (hΓ id σ hσ), htyped⟩

/-- Everything that the layout of a program asks the size of has a shape. -/
structure Program.Shaped (p : Program) : Prop where
  structSizes : p.types.structSizes = []
  numbers : p.types.Numbers p.structs.size
  structs : ∀ (n : Nat) (d : Struct), p.structs[n]? = some d → ∀ f ∈ d.fields,
    ∃ σ, p.types.shape? f.type = some σ
  fields : ∀ m ∈ p.modules, ∀ f ∈ m.fields, ∃ σ, p.types.shape? f.type = some σ
  functions : ∀ (n : Nat) (f : Function), p.functions[n]? = some f → ∀ body,
    f.user? = some body → body.Shaped p.types
  returns : ∀ (n : Nat) (f : Function), p.functions[n]? = some f → ∀ t, f.returns = some t →
    ∃ σ, p.types.shape? t = some σ

/-- **In a checked program everything that is laid out has a shape.** -/
theorem Program.shaped_of_checkTypes {p q : Program} (hw : p.Written p.visible) (hp : p.Named)
    (h : p.checkTypes = .ok q) : q.Shaped := by
  obtain ⟨⟨fs, s'⟩, hrun, h⟩ := Checked.bind_eq_ok.1 h
  obtain rfl := Checked.pure_eq_ok.1 h
  obtain ⟨s, hr, hrun⟩ := Checking.program_eq_ok hw hrun
  obtain ⟨he, hchecked, hparameters⟩ := known_of_checked hrun
  obtain ⟨-, htyped⟩ := typed_of_checked hw hr hrun
  have hdeclared := declared_of_checked hr.settled hrun
  refine ⟨by rw [he.structSizes, hr.structSizes, hw.structSizes],
    hw.structs.sameStructs (hr.sameStructs.trans he.structs),
    fun n d hd f hf => (hr.structs n d hd f hf).imp fun _ => he.types.shape?,
    fun m hm f hf => (hr.fields m hm f hf).imp fun _ => he.types.shape?,
    fun n f' hf' body' hb' => ?_, fun n f' hf' t ht => ?_⟩
  rotate_left
  · obtain ⟨f, hf, hlike⟩ := forall₂_right hchecked (k := n) (by simpa using hf')
    obtain ⟨σ, hσ⟩ := hr.returns f (List.mem_of_getElem? hf) t (hlike.returns ▸ ht)
    exact ⟨σ, he.types.shape? hσ⟩
  obtain ⟨f, hf, hlike⟩ := forall₂_right hchecked (k := n) (by simpa using hf')
  obtain ⟨f₁, hf₁, ht⟩ := forall₂_right htyped (k := n) (by simpa using hf')
  obtain rfl : f = f₁ := Option.some.inj (hf.symm.trans hf₁)
  obtain ⟨f₂, hf₂, hd⟩ := forall₂_right hdeclared (k := n) (by simpa using hf')
  obtain rfl : f = f₂ := Option.some.inj (hf.symm.trans hf₂)
  have hn : p.functions[n]? = some f := by simpa using hf
  obtain ⟨body, hb, hbody⟩ := hlike.user body' hb'
  have hnamed := hp.functions n f hn body hb
  refine ⟨fun a ha => ?_, fun i hi => ?_, _, _, fun _ _ => id, (ht body' hb').1⟩
  · refine hparameters f (List.mem_of_getElem? hf) (by simp [Function.isUser, hb]) a.type ?_
    rw [Function.parameters_of_user? hb, ← hbody.arguments]
    exact List.mem_map_of_mem ha
  · rw [hbody.implicit, hbody.declared] at hi
    obtain ⟨hlt, hgiven⟩ : i < body.locals.size ∧ i ∈ Stmt.givenAll body.statements :=
      hi.elim (hnamed.implicit i) fun hi =>
        ⟨(hw.functions n f hn body hb).within i hi, Stmt.givenAll_of_variables _ hi⟩
    obtain ⟨u, hu⟩ := (hd body hb body' hb').2 i hgiven hlt
    obtain ⟨σ, hσ⟩ := (ht body' hb').2 i u hu
    exact ⟨u, σ, hu, hσ⟩

/-! ## Sizes -/

/-- All types with a shape have a size. -/
def TypeTable.Sized (t : TypeTable) : Prop :=
  ∀ id σ, t.shape? id = some σ → (t.size? id).isSome = true

theorem TypeTable.faultless_sizeAt {t : TypeTable} {place : Location} {type : Option TypeId}
    (h : (type.bind t.size?).isSome = true) : Faultless (t.sizeAt place type) := by
  obtain ⟨n, hn⟩ := Option.isSome_iff_exists.1 h
  rw [sizeAt, hn]
  exact Faultless.ok n

namespace Layout

variable {t : TypeTable}

theorem faultless_slots (ht : t.Sized) {fs : List Slot}
    (h : ∀ f ∈ fs, ∃ σ, t.shape? f.type = some σ) (offset : Nat) :
    Faultless (slots t offset fs) := by
  induction fs generalizing offset with
  | nil => simp [slots]
  | cons f rest ih =>
    obtain ⟨σ, hσ⟩ := h f List.mem_cons_self
    have hsize : Faultless (t.sizeAt f.location (some f.type)) :=
      TypeTable.faultless_sizeAt (ht _ _ hσ)
    simp [slots, hsize, ih fun g hg => h g (List.mem_cons_of_mem _ hg)]

/-! ## Structured types -/

namespace Sizing

/-- Fields have shapes, and structured types that are named are there. -/
structure Shaped (s : Sizing) : Prop where
  fields : ∀ k ts, s.fieldTypes? k = some ts → ∀ u ∈ ts, ∃ σ, s.types.shape? u = some σ
  numbers : s.types.Numbers s.structs.size

theorem Shaped.grows {around : List Nat} {s s' : Sizing} (h : s.Shaped) (hg : s.Grows around s') :
    s'.Shaped where
  fields k ts hts u hu := by
    rw [hg.fields] at hts
    rw [hg.types.shape?_eq]
    exact h.fields k ts hts u hu
  numbers id n name hid := by
    rw [hg.types.get_eq] at hid
    rw [hg.size_eq]
    exact h.numbers id n name hid

end Sizing

theorem faultless_structFields {around : List Nat} {inner : Nat → StateT Sizing Checked Unit}
    (hinner : ∀ n s, s.Sound → s.Shaped → Faultless ((inner n).run s) ∧
      Ends (inner n) s fun _ s' => s'.Sound ∧ s.Grows around s' ∧
        (n < s.structs.size → (s'.size? n).isSome = true))
    (fs : List Slot) : (offset : Nat) → (s : Sizing) → s.Sound → s.Shaped →
      (∀ f ∈ fs, ∃ σ, s.types.shape? f.type = some σ) →
      Faultless ((structFields inner offset fs).run s) := by
  induction fs with
  | nil =>
    intro offset s _ _ _
    simp [structFields]
  | cons f rest ih =>
    intro offset s hs hshaped hfs
    obtain ⟨σ, hσ⟩ := hfs f List.mem_cons_self
    -- once the size of the field is known, the others follow
    have next {s₁ : Sizing} (hs₁ : s₁.Sound) (hg : s.Grows around s₁)
        (hsize : (s₁.types.size? f.type).isSome = true) :
        Faultless (s₁.types.sizeAt f.location (some f.type)) ∧
          ∀ offset, Faultless ((structFields inner offset rest).run s₁) :=
      ⟨TypeTable.faultless_sizeAt hsize, fun offset =>
        ih offset s₁ hs₁ (hshaped.grows hg) fun g hg' => by
          rw [hg.types.shape?_eq]
          exact hfs g (List.mem_cons_of_mem _ hg')⟩
    unfold structFields
    refine Faultless.reads ?_
    split
    next k hk =>
      have hlt : k < s.structs.size := hshaped.numbers.lt_of_shape? (TypeTable.shape?_of_struct? hk)
      refine Faultless.seq (hinner k s hs hshaped).1 (hinner k s hs hshaped).2 fun _ s₁ h₁ => ?_
      obtain ⟨hsize, hrest⟩ := next h₁.1 h₁.2.1 (by
        rw [TypeTable.size?_eq, h₁.2.1.types.shape?_eq, TypeTable.shape?_of_struct? hk]
        exact h₁.2.2 hlt)
      refine Faultless.reads ?_
      simp [hsize, hrest]
    next hk =>
      obtain ⟨hsize, hrest⟩ := next hs ((Sizing.Grows.passage around).refl s) (by
        rw [TypeTable.size?_eq, hσ]
        cases σ with
        | struct n =>
          rw [TypeTable.struct?_of_shape? hσ] at hk
          cases hk
        | scalar | string | pointer => rfl)
      refine Faultless.reads ?_
      simp [hsize, hrest]

/-- **A structured type is laid out, or it contains itself.** -/
theorem faultless_structSize (bound : Nat) : (around : List Nat) → (k : Nat) → (s : Sizing) →
    s.Sound → s.Shaped → Faultless ((structSize bound around k).run s) := by
  induction bound with
  | zero =>
    intro around k s _ _
    simp [structSize]
  | succ bound ih =>
    intro around k s hs hshaped
    unfold structSize
    refine Faultless.reads ?_
    split
    · simp
    next d hd =>
      have hfields := faultless_structFields (fun n s hs hshaped =>
        ⟨ih (k :: around) n s hs hshaped, ends_structSize bound (k :: around) n s hs⟩) d.fields 0 s
        hs hshaped fun f hf => hshaped.fields k _ (by rw [Sizing.fieldTypes?, hd]; rfl) f.type
          (List.mem_map_of_mem hf)
      simp [hfields]

/-! ## Frames -/

section Frames

variable {constant : Nat → Option Literal} {Γ : Env} {s : FrameState}

@[simp] theorem faultless_room (size : Nat) : Faultless ((room size).run s) := by
  simp [room]

/-- The size of an expression with a shape is known. -/
theorem faultless_sizeAt_expr (ht : t.Sized) (hΓ : ∀ id σ, Γ.types.shape? id = some σ → t.shape? id = some σ) {e : Expr} {σ : Shape}
    (he : Γ.shape e.info = some σ) {place : Location} : Faultless (t.sizeAt place e.type?) := by
  obtain ⟨u, hu, hσ⟩ := Env.shape_eq_some.1 he
  refine TypeTable.faultless_sizeAt ?_
  rw [Expr.type?, hu]
  exact ht u σ (hΓ u σ hσ)

mutual

theorem faultless_expr (ht : t.Sized) (hΓ : ∀ id σ, Γ.types.shape? id = some σ → t.shape? id = some σ) : (e : Expr) → e.Typed Γ →
    (s : FrameState) → Faultless ((expr t constant e).run s)
  | .literal .., _, s => by simp [expr]
  | .name .., _, s => by simp [expr]
  | .member _ target _ (some _), h, s => by simp [expr, faultless_expr ht hΓ target h.1]
  | .call _ _ arguments (some _), h, s => by
    obtain ⟨⟨ps, -, hargs⟩, -⟩ := h
    simp [expr, faultless_exprs ht hΓ ps arguments hargs]
  | .unary _ _ operand, h, s => by simp [expr, faultless_expr ht hΓ operand h.1]
  | .binary _ _ left right, h, s => by
    simp [expr, faultless_expr ht hΓ left h.1, faultless_expr ht hΓ right h.2.1]
  | .cast _ operand, h, s => by simp [expr, faultless_expr ht hΓ operand h.1]
  | .pointer _ target _, h, s => by
    obtain ⟨htarget, -, σ, hσ⟩ := h
    have hsize : Faultless (t.sizeAt target.location target.type?) :=
      faultless_sizeAt_expr ht hΓ hσ
    simp [expr, faultless_expr ht hΓ target htarget, hsize]

theorem faultless_exprs (ht : t.Sized) (hΓ : ∀ id σ, Γ.types.shape? id = some σ → t.shape? id = some σ) : (ps : List TypeId) → (es : List Expr) →
    Expr.TypedAll Γ ps es → (s : FrameState) → Faultless ((exprs t constant es).run s)
  | [], [], _, s => by simp [exprs]
  | _ :: ps, e :: es, h, s => by
    simp [exprs, faultless_expr ht hΓ e h.1, faultless_exprs ht hΓ ps es h.2.2]

end

theorem faultless_expr? (ht : t.Sized) (hΓ : ∀ id σ, Γ.types.shape? id = some σ → t.shape? id = some σ) {e : Option Expr}
    (h : ∀ e', e = some e' → e'.Typed Γ) : Faultless ((expr? t constant e).run s) := by
  cases e with
  | none => simp [expr?]
  | some e => simp [expr?, faultless_expr ht hΓ e (h e rfl)]

/-- The size of a variable is known. -/
def FrameState.Sized (t : TypeTable) (s : FrameState) (i : Nat) : Prop :=
  ∀ v, s.locals[i]? = some v → (v.type.bind t.size?).isSome = true

theorem FrameState.Sized.moves {s' : FrameState} {i : Nat} (h : s.Sized t i) (hm : s.Moves t s') :
    s'.Sized t i := by
  intro v' hv'
  have htypes := hm.types i
  rw [hv', Option.map_some] at htypes
  obtain ⟨v, hv, hvt⟩ := Option.map_eq_some_iff.1 htypes.symm
  rw [← hvt]
  exact h v hv

theorem faultless_placeLocal {index : Nat} (h : s.Sized t index) :
    Faultless ((placeLocal t index).run s) := by
  unfold placeLocal
  refine Faultless.reads ?_
  split
  · simp
  next v hv => simp [TypeTable.faultless_sizeAt (h v hv)]

mutual

theorem faultless_stmt (ht : t.Sized) (hΓ : ∀ id σ, Γ.types.shape? id = some σ → t.shape? id = some σ) {returns : Option TypeId} : (r : Stmt) →
    r.Typed Γ returns → (s : FrameState) → s.cursor ≤ 0 → (∀ i ∈ r.variables, s.Sized t i) →
      Faultless ((stmt t constant r).run s)
  | .var _ index value, h, s, _, hv => by
    have hvalue {s : FrameState} : Faultless ((expr? t constant value).run s) :=
      faultless_expr? ht hΓ fun e he => by
        subst he
        exact h.1
    simp [stmt, faultless_placeLocal (hv index (by simp [Stmt.variables])), hvalue]
  | .assign _ value target, ⟨hvalue, htarget, _⟩, s, _, _ => by
    simp [stmt, faultless_expr ht hΓ value hvalue, faultless_expr ht hΓ target htarget]
  | .invoke _ call, h, s, _, _ => by simp [stmt, faultless_expr ht hΓ call h]
  | .return _ value, h, s, _, _ => by
    have hvalue : Faultless ((expr? t constant value).run s) :=
      faultless_expr? ht hΓ fun e he => by
        subst he
        exact h.1
    simp [stmt, hvalue]
  | .choose _ branches, h, s, hs, hv => by
    simp [stmt, faultless_choices ht hΓ branches h s hs hv]
  | .count _ counter start finish step body _,
      ⟨⟨hcounter, _, hstart, hfinish, σ, _, hσ, _, _, hstep⟩, hbody⟩, s, hs, hv => by
    have hsize : Faultless (t.sizeAt counter.location counter.type?) :=
      faultless_sizeAt_expr ht hΓ hσ
    unfold stmt
    refine Faultless.seq (by simp [temps, hsize]) (ends_temps counter hs) fun places s₁ h₁ => ?_
    refine Faultless.seq (faultless_expr ht hΓ counter hcounter s₁)
      (ends_expr counter s₁ (h₁.2.1.trans hs)) fun c s₂ h₂ => ?_
    have hs₂ := h₂.2.1.trans (h₁.2.1.trans hs)
    refine Faultless.seq (faultless_expr ht hΓ start hstart s₂) (ends_expr start s₂ hs₂)
      fun a s₃ h₃ => ?_
    refine Faultless.seq (faultless_expr ht hΓ finish hfinish s₃)
      (ends_expr finish s₃ (h₃.2.1.trans hs₂)) fun b s₄ h₄ => ?_
    have hs₄ := h₄.2.1.trans (h₃.2.1.trans hs₂)
    refine Faultless.seq (faultless_expr? ht hΓ fun e he => (hstep e he).1) (ends_expr? hs₄)
      fun d s₅ h₅ => ?_
    have hlocals : s₅.locals = s.locals := by
      rw [h₅.1, h₄.1, h₃.1, h₂.1, h₁.1]
    have hbody := faultless_stmts ht hΓ body hbody s₅ (h₅.2.1.trans hs₄) fun i hi v hv' =>
      hv i hi v (hlocals ▸ hv')
    simp [hbody]
  | .loop _ none body, h, s, hs, hv => by
    simp [stmt, faultless_stmts ht hΓ body h.2 s hs hv]
  | .loop _ (some c) body, h, s, hs, hv => by
    unfold stmt
    refine Faultless.seq (faultless_expr ht hΓ c.value (h.1 c rfl).1 s) (ends_expr c.value s hs)
      fun e s₁ h₁ => ?_
    have hbody := faultless_stmts ht hΓ body h.2 s₁ (h₁.2.1.trans hs) fun i hi v hv' =>
      hv i hi v (h₁.1 ▸ hv')
    simp [hbody]

theorem faultless_stmts (ht : t.Sized) (hΓ : ∀ id σ, Γ.types.shape? id = some σ → t.shape? id = some σ) {returns : Option TypeId} :
    (rs : List Stmt) → Stmt.TypedAll Γ returns rs → (s : FrameState) → s.cursor ≤ 0 →
      (∀ i ∈ Stmt.variablesAll rs, s.Sized t i) → Faultless ((stmts t constant rs).run s)
  | [], _, s, _, _ => by simp [stmts]
  | r :: rest, h, s, hs, hv => by
    unfold stmts
    refine Faultless.seq (faultless_stmt ht hΓ r h.1 s hs fun i hi =>
      hv i (List.mem_append_left _ hi)) (ends_stmt r s hs) fun r' s₁ h₁ => ?_
    have hrest := faultless_stmts ht hΓ rest h.2 s₁ (h₁.1.cursor.trans hs) fun i hi =>
      (hv i (List.mem_append_right _ hi)).moves h₁.1
    simp [hrest]

theorem faultless_choices (ht : t.Sized) (hΓ : ∀ id σ, Γ.types.shape? id = some σ → t.shape? id = some σ) {returns : Option TypeId} :
    (b : Branches) → b.Typed Γ returns → (s : FrameState) → s.cursor ≤ 0 →
      (∀ i ∈ b.variables, s.Sized t i) → Faultless ((choices t constant b).run s)
  | .done, _, s, _, _ => by simp [choices]
  | .otherwise body, h, s, hs, hv => by simp [choices, faultless_stmts ht hΓ body h s hs hv]
  | .branch condition body rest, ⟨hcondition, hbody, hrest⟩, s, hs, hv => by
    unfold choices
    refine Faultless.seq (faultless_expr ht hΓ condition hcondition.1 s) (ends_expr condition s hs)
      fun e s₁ h₁ => ?_
    have hs₁ := h₁.2.1.trans hs
    refine Faultless.seq (faultless_stmts ht hΓ body hbody s₁ hs₁ fun i hi v hv' =>
      hv i (List.mem_append_left _ hi) v (h₁.1 ▸ hv')) (ends_stmts body s₁ hs₁) fun b s₂ h₂ => ?_
    have hrest := faultless_choices ht hΓ rest hrest s₂ (h₂.1.cursor.trans hs₁) fun i hi =>
      FrameState.Sized.moves (fun v hv' => hv i (List.mem_append_right _ hi) v (h₁.1 ▸ hv')) h₂.1
    simp [hrest]

end

end Frames

/-- A function whose variables have shapes gets its frame. -/
theorem faultless_function (ht : t.Sized) {constant : Nat → Option Literal} {f : Function}
    (hf : ∀ body, f.user? = some body → body.Shaped t) : Faultless (function t constant f) := by
  unfold function
  split
  · simp
  next body hbody =>
    obtain ⟨hargs, hlocals, Γ, returns, hΓ, htyped⟩ := hf body (by simp [Function.user?, hbody])
    have hsized (i : Nat) (hi : i ∈ body.implicit ∨ i ∈ Stmt.variablesAll body.statements) :
        (⟨0, body.locals⟩ : FrameState).Sized t i := by
      intro v hv
      obtain ⟨u, σ, hu, hσ⟩ := hlocals i hi
      rw [hv, Option.bind_some] at hu
      rw [hu]
      exact ht u σ hσ
    have hrun : Faultless ((do
        body.implicit.forM (placeLocal t)
        stmts t constant body.statements : FrameLayout (List Stmt)).run ⟨0, body.locals⟩) := by
      refine Faultless.rounds (I := fun s => s.cursor ≤ 0 ∧
        (⟨0, body.locals⟩ : FrameState).Moves t s)
        ⟨le_rfl, (FrameState.Moves.passage t).refl _⟩ (fun i hi s hs => ⟨?_, ?_⟩) fun s hs => ?_
      · exact faultless_placeLocal ((hsized i (.inl hi)).moves hs.2)
      · exact (ends_placeLocal i hs.1).mono fun _ s' h =>
          ⟨h.1.cursor.trans hs.1, (FrameState.Moves.passage t).trans hs.2 h.1⟩
      · exact faultless_stmts ht hΓ _ htyped s hs.1 fun i hi => (hsized i (.inr hi)).moves hs.2
    rw [Faultless.bind_iff]
    refine ⟨faultless_slots ht hargs _, fun _ _ => ?_⟩
    rw [Faultless.bind_iff]
    exact ⟨hrun, fun _ _ => Faultless.value _⟩

theorem faultless_dataSets (ht : t.Sized) (ds : List DataSet)
    (h : ∀ f ∈ ds.flatMap (·.fields), ∃ σ, t.shape? f.type = some σ) (offset : Nat) :
    Faultless (dataSets t offset ds) := by
  induction ds generalizing offset with
  | nil => simp [dataSets]
  | cons d rest ih =>
    simp only [List.flatMap_cons, List.mem_append, or_imp, forall_and] at h
    simp [dataSets, faultless_slots ht h.1, ih h.2]

end Layout

namespace Program

variable {p : Program}

theorem faultless_layoutStructs (h : p.Shaped) : Faultless p.layoutStructs := by
  have hsound : Layout.Sizing.Sound ⟨p.types, p.structs⟩ := by
    intro k z hz
    simp [Layout.Sizing.size?, h.structSizes] at hz
  have hshaped : Layout.Sizing.Shaped ⟨p.types, p.structs⟩ := by
    refine ⟨fun k ts hts u hu => ?_, h.numbers⟩
    obtain ⟨d, hd, rfl⟩ := Option.map_eq_some_iff.1 hts
    obtain ⟨f, hf, rfl⟩ := List.mem_map.1 hu
    exact h.structs k d hd f hf
  unfold layoutStructs
  simp only [Faultless.bind_iff]
  refine ⟨Faultless.run_forM (I := fun s : Layout.Sizing => s.Sound ∧ s.Shaped)
    (fun k _ s hs => ⟨?_, ?_⟩) ⟨hsound, hshaped⟩, fun _ _ => Faultless.value _⟩
  · exact Layout.faultless_structSize _ [] k s hs.1 hs.2
  · exact (Layout.ends_structSize _ [] k s hs.1).mono fun _ s' h' => ⟨h'.1, hs.2.grows h'.2.1⟩

/-- **A program in which everything has a shape gets its places**, unless a type contains
itself. -/
theorem faultless_layout (h : p.Shaped) : Faultless p.layout := by
  unfold layout
  rw [Faultless.bind_iff]
  refine ⟨faultless_layoutStructs h, fun q hq => ?_⟩
  obtain ⟨s, rfl, -, hgrows, hsized⟩ := layoutStructs_eq_ok hq h.structSizes
  have ht : s.types.Sized := by
    intro id σ hσ
    rw [TypeTable.size?_eq, hσ]
    cases σ with
    | struct n =>
      rw [hgrows.types.shape?_eq] at hσ
      exact hsized n (h.numbers.lt_of_shape? hσ)
    | scalar | string | pointer => rfl
  have hshape {u : TypeId} : (∃ σ, p.types.shape? u = some σ) → ∃ σ, s.types.shape? u = some σ := by
    rw [hgrows.types.shape?_eq]
    exact id
  have hmodules : Faultless (p.modules.mapM (Layout.module s.types)) :=
    Faultless.mapM fun m hm => by
      simp [Layout.module, Layout.faultless_dataSets ht m.dataSets fun f hf =>
        hshape (h.fields m hm f hf)]
  have hfunctions (constant : Nat → Option Literal) :
      Faultless (p.functions.toList.mapM (Layout.function s.types constant)) := by
    refine Faultless.mapM fun f hf => Layout.faultless_function ht fun body hb => ?_
    obtain ⟨n, hn⟩ := List.mem_iff_getElem?.1 hf
    refine (h.functions n f (by simpa using hn) body hb).mono fun id σ hσ => ?_
    rwa [hgrows.types.shape?_eq]
  rw [Faultless.bind_iff]
  refine ⟨hmodules, fun _ _ => ?_⟩
  rw [Faultless.bind_iff]
  exact ⟨hfunctions _, fun _ _ => Faultless.value _⟩

end Program

end ChannelBasic
