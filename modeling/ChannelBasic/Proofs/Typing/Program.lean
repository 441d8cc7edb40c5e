import ChannelBasic.Program.Analysis
import ChannelBasic.Proofs.Emission.State
import ChannelBasic.Proofs.Program.Binding
import ChannelBasic.Proofs.Program.Layout
import ChannelBasic.Proofs.Typing.Definitions
import ChannelBasic.Proofs.Typing.Variables

/-!
# Proofs/Typing/Program — the types of an analysed program are right

Checking goes over lengths and constants first and over functions last, and once all constants are
evaluated it only enters types.  So what a later check says about a declared type was true before,
and the bodies of functions can be checked against it: **every statement of an analysed program has
the right types** (`Analysed.typed`).
-/

namespace ChannelBasic

/-- What the types in a function's body depend on. -/
def Env.ofBody (types : TypeTable) (constant : Nat → Option Literal) (p : Program) (owner : Owner)
    (body : UserBody) (fields : List Slot) : Env where
  types
  constant
  declared
    | .localVar index => (body.locals[index]?).bind (·.type)
    | .argument index => (body.arguments[index]?).map (·.type)
    | .dataField index => (fields[index]?).map (·.type)
    | .constant _ => none
  member r := (p.structs[r.struct]?).bind fun t => (t.fields[r.index]?).map (·.type)
  function n :=
    if p.visible owner n then (p.functions[n]?).map fun f => (f.parameters, f.returns) else none

/-- What the types in the values of constants depend on. -/
def Program.constantEnv (p : Program) : Env :=
  ⟨p.types, p.constantValue, fun _ => none, fun _ => none, fun _ => none⟩

/-- More types are known; variables may be others. -/
structure Enlarges (s s' : CheckState) : Prop extends Grows s s' where
  settled : s.Settled → s.types.Appends s'.types

theorem Enlarges.passage : Passage Enlarges where
  refl s := ⟨.refl s, fun _ => .refl _⟩
  trans h h' := ⟨h.toGrows.trans h'.toGrows, fun hs =>
    (h.settled hs).trans h.types.size_le (h'.settled (hs.grows h.toGrows))⟩

/-- A function that has been checked is the same function to those who call it, and has the same
variables. -/
structure UserBody.Rechecked (body body' : UserBody) : Prop where
  arguments : body'.arguments = body.arguments
  implicit : body'.implicit = body.implicit
  width : body'.locals.size = body.locals.size
  locals : ∀ (i : Nat) (t : TypeId), (body.locals[i]?).bind (·.type) = some t →
    (body'.locals[i]?).bind (·.type) = some t
  declared : Stmt.variablesAll body'.statements = Stmt.variablesAll body.statements

theorem Function.parameters_of_user? {f : Function} {body : UserBody} (h : f.user? = some body) :
    f.parameters = body.arguments.map (·.type) := by
  unfold user? at h
  unfold parameters
  split at h
  next b hb =>
    obtain rfl := Option.some.inj h
    rw [hb]
  next => cases h

namespace Checking

variable {s : CheckState} {p : Program} {lengths : Array Expr} {constantType : ConstantType}

/-! ## Declared types -/

/-- A declared type that is accepted has a shape. -/
theorem ends_checkType (place : Location) (rule rule' : Rule) (id : TypeId) :
    Ends (checkType place rule rule' id) s fun _ s' => s' = s ∧ ∃ σ, s.types.shape? id = some σ := by
  unfold checkType
  refine Ends.reads ?_
  dsimp only
  split
  · exact Ends.refused_seq
  next hc =>
    split
    · exact Ends.refused
    next ha =>
      exact Ends.value ⟨rfl, TypeTable.shape?_of_isAbstract (by simpa using hc) (by simpa using ha)⟩

theorem ends_checkField (f : Slot) (s : CheckState) :
    Ends (checkField f) s fun _ s' => s' = s ∧ ∃ σ, s.types.shape? f.type = some σ :=
  ends_checkType _ _ _ _

/-- Checks that change nothing say what each of them says. -/
theorem ends_checks {α : Type} {check : α → Checking PUnit} {Q : α → CheckState → Prop}
    (as : List α) (h : ∀ a s, Ends (check a) s fun _ s' => s' = s ∧ Q a s) (s : CheckState) :
    Ends (as.forM check) s fun _ s' => s' = s ∧ ∀ a ∈ as, Q a s := by
  refine (Ends.eachHas (I := fun _ => True) (K := Eq) (Q := Q) (fun _ => rfl) Eq.trans
    (fun h e => e ▸ h) (fun a _ s _ => (h a s).mono fun _ s' h => ?_) trivial).mono fun _ s' h => ?_
  · obtain ⟨rfl, h⟩ := h
    exact ⟨trivial, rfl, h⟩
  · obtain ⟨-, rfl, h⟩ := h
    exact ⟨rfl, h⟩

theorem ends_checkNative (f : Function) (s : CheckState) :
    Ends (checkNative f) s fun _ s' => s' = s ∧
      (f.isUser = false → ∀ t ∈ f.parameters, ∃ σ, s.types.shape? t = some σ) := by
  unfold checkNative
  split
  next arguments hbody =>
    refine (ends_checks arguments (fun t s => ends_checkType _ _ _ t) s).mono
      fun _ s' h => ⟨h.1, fun _ t ht => ?_⟩
    rw [Function.parameters, hbody] at ht
    exact h.2 t ht
  next body hbody =>
    exact Ends.value ⟨rfl, fun hn => by simp [Function.isUser, Function.user?, hbody] at hn⟩

theorem ends_checkReturns (f : Function) (s : CheckState) :
    Ends (checkReturns f) s fun _ s' => s' = s ∧
      ∀ t, f.returns = some t → ∃ σ, s.types.shape? t = some σ := by
  unfold checkReturns
  split
  next type htype =>
    refine (ends_checkType _ _ _ _).mono fun _ s' h => ⟨h.1, fun t ht => ?_⟩
    obtain rfl : type = t := Option.some.inj (htype.symm.trans ht)
    exact h.2
  next h => exact Ends.value ⟨rfl, by simp [h]⟩

/-! ## Functions -/

/-- What checking a function does, whatever is known. -/
theorem ends_checkFunction (hc : ∀ k, Keeps Moves (constantType k)) (f : Function) :
    Ends (checkFunction p constantType f) s fun f' s' => Enlarges s s' ∧ f.Like UserBody.Rechecked f' ∧
      (f.isUser = true → ∀ t ∈ f.parameters, ∃ σ, s'.types.shape? t = some σ) := by
  unfold checkFunction
  split
  next arguments hbody =>
    have hnone : f.user? = none := by rw [Function.user?, hbody]
    exact Ends.value ⟨Enlarges.passage.refl s, ⟨rfl, rfl, rfl, rfl, by simp [hnone]⟩,
      by simp [Function.isUser, hnone]⟩
  next body hbody =>
    have huser : f.user? = some body := by rw [Function.user?, hbody]
    refine (ends_checks body.arguments (fun a s => ends_checkType _ _ _ a.type) s).seq
      fun _ s₁ h₁ => ?_
    obtain ⟨rfl, hargs⟩ := h₁
    refine Ends.seq (Ends.modifies (Q := fun _ s₂ => s₂ = { s₁ with locals := body.locals }) rfl)
      fun _ s₂ h₂ => ?_
    subst h₂
    refine ((variables_stmts body.statements _).both (keeps_stmts hc body.statements _)).seq
      fun statements s₃ h₃ => ?_
    obtain ⟨hdeclared, ha⟩ := h₃
    refine Ends.reads (Ends.value ⟨⟨⟨ha.types, ha.structSizes, ha.count, ha.folded,
      ha.openConstants, ha.held, ha.openLengths, ha.pending, ha.structs, ha.fresh⟩, ha.settled⟩, ?_,
        fun _ t ht => ?_⟩)
    · refine ⟨rfl, rfl, ?_, ?_, fun body' hb => ⟨body, huser, ?_⟩⟩
      · rw [Function.parameters, Function.parameters, hbody]
      · rw [Function.isUser, Function.isUser, huser]
        rfl
      · obtain rfl := Option.some.inj hb
        exact ⟨rfl, rfl, ha.width, ha.locals, hdeclared⟩
    · rw [Function.parameters, hbody] at ht
      obtain ⟨a, ha', rfl⟩ := List.mem_map.1 ht
      exact (hargs a ha').imp fun _ => ha.types.shape?

/-- The variables of a function that its statements declare had concrete types, if any, and those
that its statements give types to have types. -/
def DeclaredIn (s : CheckState) (f f' : Function) : Prop :=
  ∀ body, f.user? = some body → ∀ body', f'.user? = some body' →
    (∀ i ∈ Stmt.variablesAll body.statements, ∀ t, (body.locals[i]?).bind (·.type) = some t →
      s.types.Closed t → s.types.isAbstract t = false) ∧
    ∀ i ∈ Stmt.givenAll body.statements, i < body.locals.size →
      ∃ t, (body'.locals[i]?).bind (·.type) = some t

/-- What is said about concrete types was true before more types were entered. -/
theorem DeclaredIn.before {f f' : Function} {s s' : CheckState} (h : DeclaredIn s' f f')
    (he : Enlarges s s') (hs : s.Settled) : DeclaredIn s f f' := by
  intro body hb body' hb'
  obtain ⟨hconcrete, htyped⟩ := h body hb body' hb'
  refine ⟨fun i hi t ht hclosed => ?_, htyped⟩
  rw [← hclosed.isAbstract_eq (he.settled hs)]
  exact hconcrete i hi t ht (hclosed.extends he.types)

theorem declared_checkFunction (hc : ∀ k, Keeps Moves (constantType k)) (hs : s.Settled)
    (f : Function) : Ends (checkFunction p constantType f) s fun f' _ => DeclaredIn s f f' := by
  unfold checkFunction
  split
  next arguments hbody =>
    exact Ends.value fun body hb => by simp [Function.user?, hbody] at hb
  next body hbody =>
    refine (ends_checks body.arguments (fun a s => ends_checkType _ _ _ a.type) s).seq
      fun _ s₁ h₁ => ?_
    obtain ⟨rfl, -⟩ := h₁
    refine Ends.seq (Ends.modifies (Q := fun _ s₂ => s₂ = { s₁ with locals := body.locals }) rfl)
      fun _ s₂ h₂ => ?_
    subst h₂
    have hs₂ : ({ s₁ with locals := body.locals } : CheckState).Settled := hs
    refine (declares_stmts hc body.statements _ hs₂).seq fun statements s₃ h₃ => ?_
    refine Ends.reads (Ends.value fun body₁ hb₁ body' hb' => ?_)
    obtain rfl : body = body₁ := by simpa [Function.user?, hbody] using hb₁
    obtain rfl := Option.some.inj hb'
    exact ⟨h₃.concrete, h₃.typed⟩

/-- The body of a checked function has the right types in what is known, and so have its
variables. -/
def TypedIn (p : Program) (f f' : Function) (s : CheckState) : Prop :=
  ∀ body', f'.user? = some body' → Stmt.TypedAll (Env.ofBody s.types s.constantValue p f.owner body'
    (p.ownerFields f.owner)) f.returns body'.statements ∧
      ∀ (i : Nat) (t : TypeId), (body'.locals[i]?).bind (·.type) = some t →
        ∃ σ, s.types.shape? t = some σ

theorem TypedIn.enlarges {f f' : Function} {s s' : CheckState} (h : TypedIn p f f' s)
    (he : Enlarges s s') : TypedIn p f f' s' := by
  intro body' hb
  refine ⟨(h body' hb).1.extends ?_, fun i t ht =>
    ((h body' hb).2 i t ht).imp fun _ => he.types.shape?⟩
  exact ⟨he.types, fun _ _ => he.constantValue, fun _ _ h => h, fun _ _ h => h, fun _ _ h => h⟩

/-- What it takes to check a function's body: all that can be named has a shape. -/
structure Checkable (p : Program) (f : Function) (t : TypeTable) : Prop where
  known : ∀ body, f.user? = some body →
    Signatures.Known ⟨p.structs, p.functions, body.arguments, p.ownerFields f.owner⟩ t
  plain : ∀ body, f.user? = some body → Stmt.PlainAll t (p.visible f.owner) body.statements
  locals : ∀ body, f.user? = some body → ∀ (i : Nat) (u : TypeId),
    (body.locals[i]?).bind (·.type) = some u → ∃ σ, t.shape? u = some σ

/-- A body about to be checked, in what is known with its variables. -/
theorem body_sound (hs : s.Sound lengths) (hsettled : s.Settled) {f : Function}
    (hc : Checkable p f s.types) {body : UserBody} (hb : f.user? = some body) :
    ({ s with locals := body.locals } : CheckState).Sound lengths :=
  ⟨hs.builtin, hs.flat, hs.constants, hs.values, hs.folds, hc.locals body hb, .inr hsettled,
    hs.unfolded, hs.lengths⟩

/-- **The body of a checked function has the right types.** -/
theorem typed_checkFunction (hf : Finds lengths constantType) (hs : s.Sound lengths)
    (hsettled : s.Settled) {f : Function} (hc : Checkable p f s.types) :
    Ends (checkFunction p constantType f) s fun f' s' => s'.Sound lengths ∧
      TypedIn p f f' s' := by
  unfold checkFunction
  split
  next arguments hbody =>
    exact Ends.value ⟨hs, by simp [TypedIn, Function.user?, hbody]⟩
  next body hbody =>
    have huser : f.user? = some body := by rw [Function.user?, hbody]
    refine (ends_checks body.arguments (fun a s => ends_checkType _ _ _ a.type) s).seq
      fun _ s₁ h₁ => ?_
    obtain ⟨rfl, -⟩ := h₁
    refine Ends.seq (Ends.modifies (Q := fun _ s₂ => s₂ = { s₁ with locals := body.locals }) rfl)
      fun _ s₂ h₂ => ?_
    subst h₂
    refine (ends_stmts hf body.statements _ (body_sound hs hsettled hc huser) (hc.known body huser)
      (hc.plain body huser)).seq fun statements s₃ h₃ => ?_
    obtain ⟨hs₃, -, ht⟩ := h₃
    refine Ends.reads (Ends.value ⟨hs₃, fun body' hb => ?_⟩)
    obtain rfl := Option.some.inj hb
    exact ⟨ht, hs₃.locals⟩

/-! ## Programs -/

/-- What is known when the bodies of functions are about to be checked. -/
structure Ready (p : Program) (s : CheckState) : Prop where
  sound : s.Sound p.lengths
  settled : s.Settled
  types : p.types.Extends s.types
  structSizes : s.types.structSizes = p.types.structSizes
  sameStructs : p.types.SameStructs s.types
  structs : ∀ (n : Nat) (d : Struct), p.structs[n]? = some d → ∀ f ∈ d.fields,
    ∃ σ, s.types.shape? f.type = some σ
  fields : ∀ m ∈ p.modules, ∀ f ∈ m.fields, ∃ σ, s.types.shape? f.type = some σ
  natives : ∀ f ∈ p.functions.toList, f.isUser = false → ∀ t ∈ f.parameters,
    ∃ σ, s.types.shape? t = some σ
  returns : ∀ f ∈ p.functions.toList, ∀ t, f.returns = some t → ∃ σ, s.types.shape? t = some σ

/-- Constants are evaluated one after the other. -/
theorem ends_constants (hs : s.Sound lengths) (bound : Nat) :
    Ends ((List.range s.constants.size).forM fun k => do
      let _ ← constantWithin lengths bound k) s fun _ s' => s'.Sound lengths ∧ Moves s s' ∧
        s'.Settled := by
  refine (Ends.eachHas (I := fun s' => s'.Sound lengths) (K := Moves)
    (Q := fun k s' => ∃ v, s'.constantValue k = some v) Moves.passage.refl Moves.passage.trans
    (fun h hm => h.imp fun _ => hm.constantValue)
    (fun k _ s₁ hs₁ => (finds_constantWithin bound k s₁ hs₁).seq fun t s₂ h₂ => ?_) hs).mono
    fun _ s' h => ⟨h.1, h.2.1, fun k c hc => ?_⟩
  · obtain ⟨hs₂, hm, σ, v, -, hv, -⟩ := h₂
    exact Ends.value ⟨hs₂, hm, v, hv⟩
  · have hk : k < s.constants.size := by
      rw [← h.2.1.count]
      exact (Array.getElem?_eq_some_iff.1 hc).1
    obtain ⟨v, hv⟩ := h.2.2 k (List.mem_range.2 hk)
    rw [CheckState.constantValue, hc, Option.bind_some] at hv
    rw [hv]
    rfl

theorem sound_start {visible : Owner → Nat → Bool} (hw : p.Written visible) :
    (⟨p.types, p.constants, [], [], #[]⟩ : CheckState).Sound p.lengths where
  builtin := hw.builtin
  flat := hw.flat
  constants k c v hc hv := by
    rw [(hw.constants k c hc).1] at hv
    cases hv
  values k c hc hv := by
    rw [(hw.constants k c hc).1] at hv
    cases hv
  folds k c hc hv := by
    rw [(hw.constants k c hc).1] at hv
    cases hv
  locals i t ht := by simp [CheckState.localType] at ht
  ready := .inl rfl
  unfolded k c hc _ := (hw.constants k c hc).2
  lengths := hw.lengths

theorem ends_checkChannel (c : Channel) : Ends (checkChannel p c) s fun _ s' => s = s' := by
  unfold checkChannel
  split
  · exact Ends.value rfl
  · split
    · refine Ends.reads ?_
      dsimp only
      split
      · exact Ends.refused
      · exact Ends.value rfl
    · exact Ends.refused

/-- **Lengths, constants and declared types come first.** -/
theorem program_eq_ok {visible : Owner → Nat → Bool} (hw : p.Written visible) {fs : List Function}
    {s' : CheckState}
    (h : (program p).run ⟨p.types, p.constants, [], [], #[]⟩ = .ok (fs, s')) :
    ∃ s, Ready p s ∧ (p.functions.toList.mapM (checkFunction p
      (constantWithin p.lengths (p.constants.size + 1)))).run s = .ok (fs, s') := by
  have hkeeps : ∀ k, Keeps Moves (constantWithin p.lengths (p.constants.size + 1) k) :=
    keeps_constantWithin _
  have hfinds : Finds p.lengths (constantWithin p.lengths (p.constants.size + 1)) :=
    finds_constantWithin _
  unfold program at h
  dsimp only at h
  obtain ⟨_, s₁, h₁, h⟩ := run_bind_eq_ok.1 h
  obtain ⟨_, s₂, h₂, h⟩ := run_bind_eq_ok.1 h
  obtain ⟨_, s₃, h₃, h⟩ := run_bind_eq_ok.1 h
  obtain ⟨_, s₄, h₄, h⟩ := run_bind_eq_ok.1 h
  obtain ⟨_, s₅, h₅, h⟩ := run_bind_eq_ok.1 h
  obtain ⟨_, s₆, h₆, h⟩ := run_bind_eq_ok.1 h
  obtain ⟨_, s₇, h₇, h⟩ := run_bind_eq_ok.1 h
  obtain ⟨fs', s₈, h₈, h⟩ := run_bind_eq_ok.1 h
  obtain ⟨_, s₉, h₉, h⟩ := run_bind_eq_ok.1 h
  obtain ⟨rfl, rfl⟩ := run_pure_eq_ok.1 h
  obtain rfl : s₈ = s₉ := Ends.each (I := (s₈ = ·)) (fun c _ s hs => hs ▸ ends_checkChannel c) rfl
    _ _ h₉
  obtain ⟨hs₁, hr₁⟩ : s₁.Sound p.lengths ∧ Resolves ⟨p.types, p.constants, [], [], #[]⟩ s₁ :=
    Ends.each (I := fun s => s.Sound p.lengths ∧
      Resolves ⟨p.types, p.constants, [], [], #[]⟩ s) (fun id _ s hs =>
        ((ends_resolveLength hkeeps hfinds hs.1 id).both (keeps_resolveLength hkeeps id s)).mono
          fun _ _ h => ⟨h.1, Resolves.passage.trans hs.2 h.2⟩)
      ⟨sound_start hw, Resolves.passage.refl _⟩ _ _ h₁
  have hcount : p.constants.size = s₁.constants.size := hr₁.count.symm
  obtain ⟨hs₂, hm₂, hsettled⟩ := ends_constants hs₁ _ _ _ (hcount ▸ h₂)
  obtain ⟨rfl, hstructs⟩ := ends_checks p.structs.toList
    (fun d s => ends_checks d.fields ends_checkField s) _ _ _ h₃
  obtain ⟨rfl, hfields⟩ := ends_checks p.modules
    (fun m s => ends_checks m.fields ends_checkField s) _ _ _ h₄
  obtain ⟨rfl, hnatives⟩ := ends_checks p.functions.toList ends_checkNative _ _ _ h₅
  obtain ⟨rfl, huser⟩ := ends_checks _ ends_checkReturns _ _ _ h₆
  obtain ⟨rfl, hnative⟩ := ends_checks _ ends_checkReturns _ _ _ h₇
  refine ⟨s₇, ?_, h₈⟩
  exact {
    sound := hs₂
    settled := hsettled
    types := hr₁.types.trans hm₂.types
    structSizes := hm₂.structSizes.trans hr₁.structSizes
    sameStructs := hr₁.structs.trans hm₂.structs
    structs := fun n d hd => hstructs d (List.mem_of_getElem? (by simpa using hd))
    fields := hfields
    natives := hnatives
    returns := fun f hf => by
      by_cases hu : f.isUser = true
      · exact huser f (List.mem_filter.2 ⟨hf, hu⟩)
      · exact hnative f (List.mem_filter.2 ⟨hf, by simpa using hu⟩) }

end Checking

/-- What is known in a body stays known when a program moves on. -/
theorem Env.ofBody_extends {types types' : TypeTable} {constant constant' : Nat → Option Literal}
    {p p' : Program} {owner : Owner} {body body' : UserBody} {fields fields' : List Slot}
    {R : UserBody → UserBody → Prop} (htypes : types.Extends types')
    (hconstant : ∀ k v, constant k = some v → constant' k = some v)
    (hlocals : ∀ (i : Nat) (t : TypeId), (body.locals[i]?).bind (·.type) = some t →
      (body'.locals[i]?).bind (·.type) = some t)
    (harguments : body'.arguments.map (·.type) = body.arguments.map (·.type))
    (hfields : ∀ (i : Nat) (t : TypeId), (fields[i]?).map (·.type) = some t →
      (fields'[i]?).map (·.type) = some t)
    (hstructs : ∀ k : Nat, (p'.structs[k]?).map (fun d => d.fields.map (·.type)) =
      (p.structs[k]?).map fun d => d.fields.map (·.type))
    (hfunctions : List.Forall₂ (Function.Like R) p.functions.toList p'.functions.toList) :
    (ofBody types constant p owner body fields).Extends
      (ofBody types' constant' p' owner body' fields') where
  types := htypes
  constant := hconstant
  declared d t h := by
    cases d with
    | localVar i => exact hlocals i t h
    | argument i =>
      have hi : (body.arguments.map (·.type))[i]? = some t := by
        rw [List.getElem?_map]
        exact h
      rw [← harguments, List.getElem?_map] at hi
      exact hi
    | dataField i => exact hfields i t h
    | constant k => exact h
  member r t h := by
    have key (q : Program) : ((q.structs[r.struct]?).bind fun d =>
        (d.fields[r.index]?).map (·.type)) =
        ((q.structs[r.struct]?).map fun d => d.fields.map (·.type)).bind (·[r.index]?) := by
      cases q.structs[r.struct]? <;> simp
    change ((p'.structs[r.struct]?).bind fun d => (d.fields[r.index]?).map (·.type)) = some t
    rw [key, hstructs, ← key]
    exact h
  function n F h := by
    have hvisible : p'.visible = p.visible :=
      Program.visible_eq (hfunctions.imp fun _ _ h => h.owner.symm)
    change (if p'.visible owner n = true then (p'.functions[n]?).map fun f =>
      (f.parameters, f.returns) else none) = some F
    change (if p.visible owner n = true then (p.functions[n]?).map fun f =>
      (f.parameters, f.returns) else none) = some F at h
    rw [hvisible]
    split at h
    next hv =>
      rw [if_pos hv]
      obtain ⟨f, hf, rfl⟩ := Option.map_eq_some_iff.1 h
      obtain ⟨f', hf', ha⟩ := forall₂_left hfunctions (k := n) (by simpa using hf)
      have hf'' : p'.functions[n]? = some f' := by simpa using hf'
      rw [hf'', Option.map_some, ← ha.parameters, ← ha.returns]
    next => cases h

namespace Program

variable {p p' : Program}

open Checking

/-- **What is said of a checked program was true when its functions were about to be checked.** -/
theorem known_of_checked {s s' : CheckState} {fs : List Function}
    (hrun : (p.functions.toList.mapM (checkFunction p
      (constantWithin p.lengths (p.constants.size + 1)))).run s = .ok (fs, s')) :
    Enlarges s s' ∧ List.Forall₂ (Function.Like UserBody.Rechecked) p.functions.toList fs ∧
      ∀ f ∈ p.functions.toList, f.isUser = true → ∀ t ∈ f.parameters,
        ∃ σ, s'.types.shape? t = some σ := by
  obtain ⟨-, he, hall⟩ := Ends.eachOf (I := fun _ => True) (K := Enlarges) (s := s)
    (Q := fun (f f' : Function) (s : CheckState) => f.Like UserBody.Rechecked f' ∧
      (f.isUser = true → ∀ t ∈ f.parameters, ∃ σ, s.types.shape? t = some σ))
    Enlarges.passage.refl Enlarges.passage.trans
    (fun h he => ⟨h.1, fun hu t ht => (h.2 hu t ht).imp fun _ => he.types.shape?⟩)
    (fun f _ s _ => (ends_checkFunction (keeps_constantWithin _) f).mono
      fun _ _ h => ⟨trivial, h.1, h.2⟩) trivial _ _ hrun
  refine ⟨he, hall.imp fun _ _ h => h.1, fun f hf hu => ?_⟩
  obtain ⟨k, hk⟩ := List.mem_iff_getElem?.1 hf
  obtain ⟨f', -, h⟩ := forall₂_left hall hk
  exact h.2 hu

/-- A type in the table had its shape before more types were entered. -/
theorem shape?_before {s s' : CheckState} (hr : Ready p s) (he : Enlarges s s') {t : TypeId}
    {σ : Shape} (ht : t < p.types.entries.size) (h : s'.types.shape? t = some σ) :
    s.types.shape? t = some σ := by
  have hclosed := hr.sound.flat.closed (ht.trans_le hr.types.size_le)
  rw [← hclosed.shape?_eq (he.settled hr.settled)]
  exact h

/-- All that the bodies of functions can name has a shape. -/
theorem known_of_ready {s s' : CheckState} {visible : Owner → Nat → Bool} (hw : p.Written visible)
    (hr : Ready p s) (he : Enlarges s s') (hparameters : ∀ f ∈ p.functions.toList,
      f.isUser = true → ∀ t ∈ f.parameters, ∃ σ, s'.types.shape? t = some σ)
    {n : Nat} {f : Function} (hf : p.functions[n]? = some f) {body : UserBody}
    (hb : f.user? = some body) :
    Signatures.Known ⟨p.structs, p.functions, body.arguments, p.ownerFields f.owner⟩ s.types := by
  have hmem {n : Nat} {f : Function} (hf : p.functions[n]? = some f) : f ∈ p.functions.toList :=
    List.mem_of_getElem? (by simpa using hf)
  have hparams {n : Nat} {f : Function} (hf : p.functions[n]? = some f) :
      ∀ t ∈ f.parameters, ∃ σ, s.types.shape? t = some σ := by
    intro t ht
    cases hu : f.isUser with
    | false => exact hr.natives f (hmem hf) hu t ht
    | true =>
      obtain ⟨body, hbody⟩ := Option.isSome_iff_exists.1 hu
      have hlt : t < p.types.entries.size := by
        rw [Function.parameters_of_user? hbody] at ht
        obtain ⟨a, ha, rfl⟩ := List.mem_map.1 ht
        exact (hw.functions n f hf body hbody).arguments a ha
      obtain ⟨σ, hσ⟩ := hparameters f (hmem hf) hu t ht
      exact ⟨σ, shape?_before hr he hlt hσ⟩
  exact {
    arguments := fun a ha => hparams hf _ (by
      rw [Function.parameters_of_user? hb]
      exact List.mem_map_of_mem ha)
    fields := fun g hg => by
      unfold ownerFields at hg
      split at hg
      next k ho =>
        cases hm : p.modules[k]? with
        | none => simp [hm] at hg
        | some m =>
          rw [hm] at hg
          exact hr.fields m (List.mem_of_getElem? hm) g hg
      next => cases hg
    structs := hr.structs
    parameters := fun n f hf => hparams hf
    returns := fun n f hf => hr.returns f (hmem hf) }

/-- What is said about the variables of checked functions was true when their bodies were about to
be checked. -/
theorem declared_of_checked {s s' : CheckState} {fs : List Function} (hs : s.Settled)
    (hrun : (p.functions.toList.mapM (checkFunction p
      (constantWithin p.lengths (p.constants.size + 1)))).run s = .ok (fs, s')) :
    List.Forall₂ (DeclaredIn s) p.functions.toList fs :=
  (Ends.eachOf (I := Enlarges s) (K := Enlarges) (s := s) (Q := fun f f' _ => DeclaredIn s f f')
    Enlarges.passage.refl Enlarges.passage.trans (fun h _ => h)
    (fun f _ _ he => ((ends_checkFunction (keeps_constantWithin _) f).both
      (declared_checkFunction (keeps_constantWithin _) (hs.grows he.toGrows) f)).mono
        fun _ _ h => ⟨Enlarges.passage.trans he h.1.1, h.1.1, h.2.before he hs⟩)
    (Enlarges.passage.refl s) _ _ hrun).2.2

/-- **The body of a function can be checked in all that becomes known** while functions are checked:
each variable with a type is declared, and its type was found concrete. -/
theorem checkable_of_checked {s s' : CheckState} {fs : List Function} (hw : p.Written p.visible)
    (hr : Ready p s)
    (hrun : (p.functions.toList.mapM (checkFunction p
      (constantWithin p.lengths (p.constants.size + 1)))).run s = .ok (fs, s'))
    {f : Function} (hf : f ∈ p.functions.toList) {s₁ : CheckState} (he₁ : Enlarges s s₁) :
    Checkable p f s₁.types := by
  obtain ⟨he, hall, hparameters⟩ := known_of_checked hrun
  have hdeclared := declared_of_checked hr.settled hrun
  obtain ⟨n, hn⟩ := List.mem_iff_getElem?.1 hf
  have hn' : p.functions[n]? = some f := by simpa using hn
  refine ⟨fun body hb => (known_of_ready hw hr he hparameters hn' hb).extends he₁.types,
    fun body hb => (hw.functions n f hn' body hb).statements.extends (hr.types.trans he₁.types),
    fun body hb i t ht => ?_⟩
  have hbody := hw.functions n f hn' body hb
  obtain ⟨v, hv, hvt⟩ := Option.bind_eq_some_iff.1 ht
  have hi : i ∈ Stmt.variablesAll body.statements := by
    refine (hbody.covered i (Array.getElem?_eq_some_iff.1 hv).1).resolve_left fun hi => ?_
    rw [hbody.untyped i hi v hv] at hvt
    cases hvt
  obtain ⟨f', hf', hlike⟩ := forall₂_left hall hn
  obtain ⟨body', hb', -⟩ := hlike.exists_user hb
  obtain ⟨f₂, hf₂, hd⟩ := forall₂_left hdeclared hn
  obtain rfl : f' = f₂ := Option.some.inj (hf'.symm.trans hf₂)
  have hclosed := hr.sound.flat.closed ((hbody.locals i v hv t hvt).trans_le hr.types.size_le)
  obtain ⟨σ, hσ⟩ := hr.sound.flat.shape?_of_isAbstract
    ((hd body hb body' hb').1 i hi t ht hclosed)
  exact ⟨σ, he₁.types.shape? hσ⟩

/-- **The bodies of checked functions have the right types.** -/
theorem typed_of_checked {s s' : CheckState} {fs : List Function} (hw : p.Written p.visible)
    (hr : Ready p s)
    (hrun : (p.functions.toList.mapM (checkFunction p
      (constantWithin p.lengths (p.constants.size + 1)))).run s = .ok (fs, s')) :
    s'.Sound p.lengths ∧ List.Forall₂ (TypedIn p · · s') p.functions.toList fs := by
  have hstep : ∀ f ∈ p.functions.toList, ∀ s₁, (s₁.Sound p.lengths ∧ Enlarges s s₁) →
      Ends (checkFunction p (constantWithin p.lengths (p.constants.size + 1)) f) s₁ fun f' s₂ =>
        (s₂.Sound p.lengths ∧ Enlarges s s₂) ∧ Enlarges s₁ s₂ ∧ TypedIn p f f' s₂ := by
    rintro f hf s₁ ⟨hs₁, he₁⟩
    refine ((typed_checkFunction (finds_constantWithin _) hs₁ (hr.settled.grows he₁.toGrows)
      (checkable_of_checked hw hr hrun hf he₁)).both
      (ends_checkFunction (keeps_constantWithin _) f)).mono fun f' s₂ h => ?_
    exact ⟨⟨h.1.1, Enlarges.passage.trans he₁ h.2.1⟩, h.2.1, h.1.2⟩
  obtain ⟨⟨hs', -⟩, -, htyped⟩ := Ends.eachOf (I := fun s₁ => s₁.Sound p.lengths ∧ Enlarges s s₁)
    (Q := TypedIn p) Enlarges.passage.refl Enlarges.passage.trans TypedIn.enlarges hstep
    ⟨hr.sound, Enlarges.passage.refl s⟩ _ _ hrun
  exact ⟨hs', htyped⟩

/-- **Everything in a checked program gets its place**: every variable is still declared. -/
theorem relaid_of_checkTypes {p₁ q : Program} (hw : p.Written p.visible)
    (h₁ : p.checkTypes = .ok p₁) (h : p₁.layout = .ok q) : p₁.Relaid q ∧ q.LaidOut := by
  obtain ⟨⟨fs, s'⟩, hrun, h₁⟩ := Checked.bind_eq_ok.1 h₁
  obtain rfl := Checked.pure_eq_ok.1 h₁
  obtain ⟨s, hr, hrun⟩ := program_eq_ok hw hrun
  obtain ⟨he, hchecked, -⟩ := known_of_checked hrun
  refine layout_eq_ok h (by rw [he.structSizes, hr.structSizes, hw.structSizes])
    fun n f' hf' body' hb' i hi => ?_
  obtain ⟨f, hf, hre⟩ := forall₂_right hchecked (k := n) (by simpa using hf')
  obtain ⟨body, hb, hbody⟩ := hre.user body' hb'
  rw [hbody.implicit, hbody.declared]
  exact (hw.functions n f (by simpa using hf) body hb).covered i (hbody.width ▸ hi)

/-- What is true of an analysed program. -/
structure Analysed (p : Program) : Prop where
  laidOut : p.LaidOut
  typed : ∀ (n : Nat) (f : Function), p.functions[n]? = some f → ∀ body, f.user? = some body →
    Stmt.TypedAll (Env.ofBody p.types p.constantValue p f.owner body (p.ownerFields f.owner))
      f.returns body.statements
  constants : ∀ (k : Nat) (c : Constant), p.constants[k]? = some c → c.value.Typed p.constantEnv
  modules : ∀ (k : Nat) (m : Module), p.modules[k]? = some m → ∀ n ∈ m.functions,
    p.owner? n = some (.module k)
  static : ∀ m ∈ p.modules, m.static.Sound
  numbers : p.types.Numbers p.structs.size

/-- How the functions of a program are checked, all lengths, constants and declared types being
known: `s` is known before, and `s'` afterwards. -/
structure Checks (p : Program) (s s' : CheckState) (fs : List Function) : Prop where
  written : p.Written p.visible
  static : ∀ m ∈ p.modules, m.static.Sound
  ready : Ready p s
  run : (p.functions.toList.mapM (checkFunction p
    (constantWithin p.lengths (p.constants.size + 1)))).run s = .ok (fs, s')

/-- A checked program, before everything in it gets its place. -/
abbrev checked (p : Program) (s' : CheckState) (fs : List Function) : Program :=
  { p with types := s'.types, constants := s'.constants, functions := fs.toArray }

/-- An analysed program is a checked one laid out. -/
theorem checks_of_analyse {raw : Raw.Program} {q : Program} (h : analyse raw = .ok q) :
    ∃ p s s' fs, Checks p s s' fs ∧ (p.checked s' fs).layout = .ok q ∧
      (p.checked s' fs).Relaid q ∧ q.LaidOut := by
  obtain ⟨p₀, h₀, h⟩ := Checked.bind_eq_ok.1 h
  obtain ⟨p₁, h₁, h⟩ := Checked.bind_eq_ok.1 h
  obtain ⟨p₂, h₂, h⟩ := Checked.bind_eq_ok.1 h
  obtain ⟨hw₀, hu₀⟩ := written_ofRaw h₀
  have hw := (hw₀.bound hu₀ h₁).withReach
  have hstatic : ∀ m ∈ p₁.withReach.modules, m.static.Sound := by
    intro m hm
    obtain ⟨m₁, -, rfl⟩ := List.mem_map.1 hm
    exact p₁.sound_staticTexts _
  generalize p₁.withReach = p at hw h₂ hstatic
  obtain ⟨hrelaid, hlaid⟩ := relaid_of_checkTypes hw h₂ h
  obtain ⟨⟨fs, s'⟩, hrun, h₂⟩ := Checked.bind_eq_ok.1 h₂
  obtain rfl := Checked.pure_eq_ok.1 h₂
  obtain ⟨s, hr, hrun⟩ := program_eq_ok hw hrun
  exact ⟨p, s, s', fs, ⟨hw, hstatic, hr, hrun⟩, h, hrelaid, hlaid⟩

theorem Relaid.constantValue {p q : Program} (h : p.Relaid q) : q.constantValue = p.constantValue := by
  funext k
  rw [Program.constantValue, h.constants]
  rfl

theorem Relaid.ownerFields {p q : Program} (h : p.Relaid q) (owner : Owner) :
    (q.ownerFields owner).map (·.type) = (p.ownerFields owner).map (·.type) := by
  cases owner with
  | library k => rfl
  | module k =>
    unfold Program.ownerFields
    dsimp only
    cases hm : p.modules[k]? with
    | some m =>
      obtain ⟨m', hm', hrel⟩ := forall₂_left h.modules hm
      rw [hm']
      exact hrel.fields
    | none =>
      have hm' : q.modules[k]? = none := by
        rw [List.getElem?_eq_none_iff, ← h.modules.length_eq]
        exact List.getElem?_eq_none_iff.1 hm
      rw [hm']

/-- **A body of an analysed program was checked in what is known of it still.** -/
theorem Checks.exists_body {s s' : CheckState} {fs : List Function} {q : Program}
    (h : Checks p s s' fs) (hrelaid : (p.checked s' fs).Relaid q) {n : Nat} {g : Function}
    (hg : q.functions[n]? = some g) {b : UserBody} (hb : g.user? = some b) :
    ∃ f f' body', p.functions.toList[n]? = some f ∧ fs[n]? = some f' ∧ f'.user? = some body' ∧
      body'.Relaid b ∧ g.returns = f.returns ∧
      (Env.ofBody s'.types s'.constantValue p f.owner body' (p.ownerFields f.owner)).Extends
        (Env.ofBody q.types q.constantValue q g.owner b (q.ownerFields g.owner)) := by
  obtain ⟨-, hchecked, -⟩ := known_of_checked h.run
  obtain ⟨f', hf', hlike⟩ := forall₂_right hrelaid.functions (k := n) (by simpa using hg)
  obtain ⟨body', hb', hbody⟩ := hlike.user b hb
  obtain ⟨f, hf, hre⟩ := forall₂_right hchecked (k := n) (by simpa using hf')
  refine ⟨f, f', body', hf, by simpa using hf', hb', hbody, hlike.returns.trans hre.returns, ?_⟩
  have hchecked' : (Env.ofBody s'.types s'.constantValue p f.owner body'
      (p.ownerFields f.owner)).Extends (Env.ofBody s'.types s'.constantValue (p.checked s' fs)
        f.owner body' (p.ownerFields f.owner)) :=
    Env.ofBody_extends (.refl _) (fun _ _ h => h) (fun _ _ h => h) rfl (fun _ _ h => h)
      (fun _ => rfl) hchecked
  rw [hlike.owner, hre.owner]
  refine hchecked'.trans (Env.ofBody_extends hrelaid.types.toExtends
    (fun k v hv => by rwa [hrelaid.constantValue]) (fun i t ht => ?_) hbody.arguments (fun i t ht => ?_)
    hrelaid.structs hrelaid.functions)
  · obtain ⟨v, hv, hvt⟩ := hbody.exists_local ht
    exact Option.bind_eq_some_iff.2 ⟨v, hv, hvt⟩
  · rw [← List.getElem?_map] at ht ⊢
    rw [hrelaid.ownerFields]
    exact ht

/-- **The types of an analysed program are right, and everything in it has its place.** -/
theorem analysed_of_analyse {raw : Raw.Program} {q : Program} (h : analyse raw = .ok q) :
    q.Analysed := by
  obtain ⟨p, s, s', fs, hchecks, -, hrelaid, hlaid⟩ := checks_of_analyse h
  have ⟨hw, hstatic, hr, hrun⟩ := hchecks
  obtain ⟨he, hchecked, -⟩ := known_of_checked hrun
  obtain ⟨hs', htyped⟩ := typed_of_checked hw hr hrun
  refine ⟨hlaid, fun n g hg b hb => ?_, fun k c hc => ?_, fun k m' hm' n hn => ?_,
    fun m' hm' => ?_, ?_⟩
  · obtain ⟨f, f', body', hf, hf', hb', hbody, hreturns, hΓ⟩ :=
      hchecks.exists_body hrelaid hg hb
    obtain ⟨f₀, hf₀, ht⟩ := forall₂_right htyped hf'
    obtain rfl : f = f₀ := Option.some.inj (hf.symm.trans hf₀)
    rw [hreturns]
    exact (hbody.typed _ _ (ht body' hb').1).extends hΓ
  · rw [hrelaid.constants] at hc
    have hsettled := hr.settled.grows he.toGrows
    refine (hs'.values k c hc (hsettled k c hc)).extends ?_
    exact ⟨hrelaid.types.toExtends, fun k v hv => by
      rwa [Program.constantEnv, hrelaid.constantValue],
      fun _ _ h => h, fun _ _ h => h, fun _ _ h => h⟩
  · obtain ⟨m, hm, hrel⟩ := forall₂_right hrelaid.modules hm'
    obtain ⟨f, hf, ho⟩ := hw.modules k m hm n (hrel.functions ▸ hn)
    obtain ⟨f', hf', hre⟩ := forall₂_left hchecked (k := n) (by simpa using hf)
    obtain ⟨g, hg, hlike⟩ := forall₂_left hrelaid.functions (k := n) (by simpa using hf')
    have hg' : q.functions[n]? = some g := by simpa using hg
    rw [owner?, hg', Option.map_some, hlike.owner, hre.owner, ho]
  · obtain ⟨k, hk⟩ := List.mem_iff_getElem?.1 hm'
    obtain ⟨m, hm, hrel⟩ := forall₂_right hrelaid.modules hk
    rw [hrel.static]
    exact hstatic m (List.mem_of_getElem? hm)
  · rw [hrelaid.count]
    refine (hw.structs.sameStructs (hr.sameStructs.trans he.structs)).sameStructs
      fun id n name hid => ?_
    rwa [hrelaid.types.get_eq] at hid

end Program

end ChannelBasic
