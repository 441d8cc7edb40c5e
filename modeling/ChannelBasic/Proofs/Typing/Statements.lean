import ChannelBasic.Proofs.Typing.Expressions

/-!
# Proofs/Typing/Statements — checked statements have the right types

Checking the statements of a function gives types to variables on the way, so what is said about an
earlier statement has to hold in what is known after the later ones.  **The statements that come out
have the right types in what is known at the end** (`ends_stmts`), and declare the variables that
the ones that went in declare (`variables_stmts`).
-/

namespace ChannelBasic

mutual

/-- A statement as it is written, before its types are checked. -/
def Stmt.Plain (types : TypeTable) (visible : Nat → Bool) : Stmt → Prop
  | .var _ _ value => ∀ e, value = some e → e.Plain types visible
  | .assign _ value target => value.Plain types visible ∧ target.Plain types visible
  | .invoke _ call => call.Plain types visible
  | .return _ value => ∀ e, value = some e → e.Plain types visible
  | .choose _ branches => branches.Plain types visible
  | .count _ counter start finish step body _ =>
    (counter.Plain types visible ∧ start.Plain types visible ∧ finish.Plain types visible ∧
      ∀ e, step = some e → e.Plain types visible) ∧ Stmt.PlainAll types visible body
  | .loop _ condition body =>
    (∀ c, condition = some c → c.value.Plain types visible) ∧ Stmt.PlainAll types visible body

/-- Statements as they are written. -/
def Stmt.PlainAll (types : TypeTable) (visible : Nat → Bool) : List Stmt → Prop
  | [] => True
  | s :: rest => s.Plain types visible ∧ Stmt.PlainAll types visible rest

/-- Branches as they are written. -/
def Branches.Plain (types : TypeTable) (visible : Nat → Bool) : Branches → Prop
  | .done => True
  | .otherwise body => Stmt.PlainAll types visible body
  | .branch condition body rest =>
    condition.Plain types visible ∧ Stmt.PlainAll types visible body ∧ rest.Plain types visible

end

mutual

/-- The variables that a statement declares, those of inner blocks too. -/
def Stmt.variables : Stmt → List Nat
  | .var _ index _ => [index]
  | .choose _ branches => branches.variables
  | .count _ _ _ _ _ body _ | .loop _ _ body => Stmt.variablesAll body
  | _ => []

/-- The variables that some statements declare, those of inner blocks too. -/
def Stmt.variablesAll : List Stmt → List Nat
  | [] => []
  | s :: rest => s.variables ++ Stmt.variablesAll rest

/-- The variables that branches declare. -/
def Branches.variables : Branches → List Nat
  | .done => []
  | .otherwise body => Stmt.variablesAll body
  | .branch _ body rest => Stmt.variablesAll body ++ rest.variables

end

section Extends

variable {t t' : TypeTable} {visible : Nat → Bool}

mutual

theorem Stmt.Plain.extends (hE : t.Extends t') :
    (s : Stmt) → s.Plain t visible → s.Plain t' visible
  | .var _ _ _, h => fun e he => (h e he).extends hE
  | .assign _ _ _, ⟨hv, ht⟩ => ⟨hv.extends hE, ht.extends hE⟩
  | .invoke _ _, h => Expr.Plain.extends hE _ h
  | .return _ _, h => fun e he => (h e he).extends hE
  | .choose _ branches, h => Branches.Plain.extends hE branches h
  | .count _ _ _ _ _ body _, ⟨⟨hc, hs, hf, hstep⟩, hb⟩ =>
    ⟨⟨hc.extends hE, hs.extends hE, hf.extends hE, fun e he => (hstep e he).extends hE⟩,
      Stmt.PlainAll.extends hE body hb⟩
  | .loop _ _ body, ⟨hc, hb⟩ =>
    ⟨fun c h => (hc c h).extends hE, Stmt.PlainAll.extends hE body hb⟩

theorem Stmt.PlainAll.extends (hE : t.Extends t') :
    (l : List Stmt) → Stmt.PlainAll t visible l → Stmt.PlainAll t' visible l
  | [], _ => trivial
  | s :: rest, ⟨hs, hr⟩ => ⟨Stmt.Plain.extends hE s hs, Stmt.PlainAll.extends hE rest hr⟩

theorem Branches.Plain.extends (hE : t.Extends t') :
    (b : Branches) → b.Plain t visible → b.Plain t' visible
  | .done, _ => trivial
  | .otherwise body, h => Stmt.PlainAll.extends hE body h
  | .branch _ body rest, ⟨hc, hb, hr⟩ =>
    ⟨hc.extends hE, Stmt.PlainAll.extends hE body hb, Branches.Plain.extends hE rest hr⟩

end

end Extends

namespace CheckState

/-- Giving a variable a type with a shape leaves what is known in order. -/
theorem Sound.modify {s : CheckState} {lengths : Array Expr} (hs : s.Sound lengths) (index : Nat) (f : Local → Local)
    (hf : ∀ v, s.locals[index]? = some v → ∀ t, (f v).type = some t →
      ∃ σ, s.types.shape? t = some σ) :
    ({ s with locals := s.locals.modify index f } : CheckState).Sound lengths where
  builtin := hs.builtin
  flat := hs.flat
  constants := hs.constants
  values := hs.values
  folds := hs.folds
  locals i t ht := by
    obtain ⟨v, hv, hvt⟩ := Option.bind_eq_some_iff.1 ht
    rw [Array.getElem?_modify] at hv
    split at hv
    next hi =>
      obtain ⟨w, hw, rfl⟩ := Option.map_eq_some_iff.1 hv
      subst hi
      exact hf w hw t hvt
    next => exact hs.locals i t (Option.bind_eq_some_iff.2 ⟨v, hv, hvt⟩)
  ready := by
    have := hs.ready
    rwa [Array.size_modify]
  unfolded := hs.unfolded
  lengths := hs.lengths

end CheckState

namespace Checking

variable {sigs : Signatures} {visible : Nat → Bool} {s : CheckState} {e : Expr}
  {constantType : ConstantType} {returns : Option TypeId} {lengths : Array Expr}

theorem ends_value (hf : Finds lengths constantType) (hs : s.Sound lengths) (hk : sigs.Known s.types)
    (hp : e.Plain s.types visible) :
    Ends (value sigs constantType e) s fun r s' => s'.Sound lengths ∧ Moves s s' ∧
      r.1.Typed (s'.env sigs visible) ∧ r.1.type? = some r.2 := by
  unfold value
  refine (ends_expr hf e s hs hk hp).seq fun e' s₁ h₁ => ?_
  refine (ends_valueType e' s₁).seq fun t s₂ h₂ => ?_
  obtain ⟨rfl, ht⟩ := h₂
  exact Ends.value ⟨h₁.1, h₁.2.1, h₁.2.2, ht⟩

/-- A value assigned to a type has the shape of the type. -/
theorem ends_assigned (hf : Finds lengths constantType) (hs : s.Sound lengths) (hk : sigs.Known s.types)
    (hp : e.Plain s.types visible) {expected : TypeId} :
    Ends (assigned sigs constantType expected e) s fun e' s' => s'.Sound lengths ∧ Moves s s' ∧
      e'.Typed (s'.env sigs visible) ∧ ∃ σ, s'.types.shape? expected = some σ ∧
        (s'.env sigs visible).shape e'.info = some σ := by
  unfold assigned
  refine (ends_value hf hs hk hp).seq fun r s₁ h₁ => ?_
  obtain ⟨hs₁, hm, he, -⟩ := h₁
  refine (ends_coerce hs₁ he).mono fun e' s₂ h₂ => ?_
  obtain ⟨rfl, he', hσ⟩ := h₂
  exact ⟨hs₁, hm, he', hσ⟩

theorem ends_target (hf : Finds lengths constantType) (hs : s.Sound lengths) (hk : sigs.Known s.types)
    (hp : e.Plain s.types visible) :
    Ends (target sigs constantType e) s fun r s' => s'.Sound lengths ∧ Moves s s' ∧
      r.1.Typed (s'.env sigs visible) ∧ r.1.type? = some r.2 ∧ r.1.isAddressable = true := by
  unfold target
  refine (ends_value hf hs hk hp).seq fun r s₁ h₁ => ?_
  obtain ⟨hs₁, hm, he, ht⟩ := h₁
  dsimp only
  split
  next haddr =>
    refine Ends.reads ?_
    split
    · exact Ends.refused_seq
    · exact Ends.value ⟨hs₁, hm, he, ht, haddr⟩
  next => exact Ends.refused_seq

/-- A condition that is accepted is BOOLEAN. -/
theorem ends_condition (hf : Finds lengths constantType) (hs : s.Sound lengths) (hk : sigs.Known s.types)
    (hp : e.Plain s.types visible) :
    Ends (condition sigs constantType e) s fun e' s' => s'.Sound lengths ∧ Moves s s' ∧
      e'.Typed (s'.env sigs visible) ∧
        (s'.env sigs visible).shape e'.info = some (.scalar .boolean) := by
  unfold condition
  refine (ends_value hf hs hk hp).seq fun r s₁ h₁ => ?_
  obtain ⟨hs₁, hm, he, ht⟩ := h₁
  refine Ends.reads ?_
  dsimp only
  split
  next hb =>
    exact Ends.value ⟨hs₁, hm, he, Env.shape_eq_some.2 ⟨_, ht, hs₁.builtin.isBoolean hb⟩⟩
  next => exact Ends.refused_seq

theorem ends_infer (hs : s.Sound lengths) {actual : TypeId} {σ : Shape}
    (hσ : s.types.shape? actual = some σ) (target : Expr) :
    Ends (infer target actual) s fun _ s' => s'.Sound lengths ∧ Advances s s' := by
  refine Ends.mono ((keeps_infer s).both (Q := fun _ s' => s'.Sound lengths) ?_)
    fun _ _ h => ⟨h.2, h.1⟩
  unfold infer
  split
  · refine Ends.modifies (hs.modify _ _ fun v hv t ht => ?_)
    split at ht
    · obtain rfl : s.types.base actual = t := Option.some.inj ht
      exact ⟨σ, TypeTable.shape?_base hσ⟩
    next =>
      exact hs.locals _ t (Option.bind_eq_some_iff.2 ⟨v, hv, ht⟩)
  · exact Ends.value hs

/-- **A declared variable gets a first value of its own shape.** -/
theorem ends_var (returns : Option TypeId) (hf : Finds lengths constantType) (hs : s.Sound lengths)
    (hk : sigs.Known s.types) {place : Location} {index : Nat} {first : Option Expr}
    (hp : ∀ e, first = some e → e.Plain s.types visible) :
    Ends (var sigs constantType place index first) s fun r s' => s'.Sound lengths ∧ Advances s s' ∧
      (Stmt.var place index r).Typed (s'.env sigs visible) returns := by
  unfold var
  refine Ends.reads ?_
  split
  · exact Ends.refused
  next v hv =>
    dsimp only
    split
    next _ declared hdeclared =>
      split
      · exact Ends.refused_seq
      · split
        next e =>
          refine (ends_assigned hf hs hk (hp e rfl)).seq fun e' s₁ h₁ => ?_
          obtain ⟨hs₁, hm, he', σ, hσ, heσ⟩ := h₁
          have hlocal : s.localType index = some declared :=
            Option.bind_eq_some_iff.2 ⟨v, hv, hdeclared⟩
          exact Ends.value ⟨hs₁, hm.advances, he', declared, σ, hm.advances.locals _ _ hlocal, hσ,
            heσ⟩
        next => exact Ends.value ⟨hs, Advances.passage.refl s, trivial⟩
    next e hnone =>
      refine (ends_value hf hs hk (hp e rfl)).seq fun r s₁ h₁ => ?_
      obtain ⟨hs₁, hm, he, ht⟩ := h₁
      obtain ⟨σ, hσ⟩ := he.exists_shape ht
      have hv₁ : s₁.locals[index]? = some v := by rwa [hm.locals]
      refine Ends.reads (Ends.seq (Ends.modifies (Q := fun _ s₂ => s₂.Sound lengths ∧ Advances s₁ s₂ ∧
        s₂.types = s₁.types ∧ s₂.localType index = some (s₁.types.base r.2)) ⟨?_, ?_, rfl, ?_⟩)
        fun _ s₂ h₂ => ?_)
      · refine hs₁.modify _ _ fun w _ t ht => ?_
        obtain rfl : s₁.types.base r.2 = t := Option.some.inj ht
        exact ⟨σ, TypeTable.shape?_base hσ⟩
      · refine advances_modify s₁ _ _ fun w t hw ht => ?_
        obtain rfl : v = w := Option.some.inj (hv₁.symm.trans hw)
        rw [hnone] at ht
        cases ht
      · simp [CheckState.localType, Array.getElem?_modify, hv₁]
      · obtain ⟨hs₂, ha, htypes, hlocal⟩ := h₂
        have hbase : s₂.types.shape? (s₁.types.base r.2) = some σ := by
          rw [htypes]
          exact TypeTable.shape?_base hσ
        exact Ends.value ⟨hs₂, Advances.passage.trans hm.advances ha, he.extends ha.env, _, σ,
          hlocal, hbase, ha.env.shape (Env.shape_eq_some.2 ⟨_, ht, hσ⟩)⟩
    · exact Ends.refused

mutual

/-- **Checking a statement gives one whose types are right.** -/
theorem ends_stmt (hf : Finds lengths constantType) :
    (t : Stmt) → (s : CheckState) → s.Sound lengths → sigs.Known s.types → t.Plain s.types visible →
      Ends (stmt sigs constantType returns t) s fun t' s' => s'.Sound lengths ∧ Advances s s' ∧
        t'.Typed (s'.env sigs visible) returns
  | .var l index first, s, hs, hk, hp => by
    unfold stmt
    refine (ends_var returns hf hs hk hp).seq fun r s₁ h₁ => ?_
    obtain ⟨hs₁, ha, hr⟩ := h₁
    exact Ends.value ⟨hs₁, ha, hr⟩
  | .assign l first place, s, hs, hk, ⟨hpf, hpp⟩ => by
    unfold stmt
    refine (ends_value hf hs hk hpf).seq fun r s₁ h₁ => ?_
    obtain ⟨hs₁, hm₁, hr, hrt⟩ := h₁
    obtain ⟨σ, hσ⟩ := hr.exists_shape hrt
    refine (ends_infer hs₁ hσ place).seq fun _ s₂ h₂ => ?_
    obtain ⟨hs₂, ha₂⟩ := h₂
    have ha : Advances s s₂ := Advances.passage.trans hm₁.advances ha₂
    refine (ends_target hf hs₂ (hk.extends ha.types) (hpp.extends ha.types)).seq
      fun p s₃ h₃ => ?_
    obtain ⟨hs₃, hm₃, hp', hpt, haddr⟩ := h₃
    have ha₃ := Advances.passage.trans ha₂ hm₃.advances
    refine (ends_coerce hs₃ (hr.extends ha₃.env)).seq fun e' s₄ h₄ => ?_
    obtain ⟨rfl, he', τ, hτ, heτ⟩ := h₄
    exact Ends.value ⟨hs₃, Advances.passage.trans hm₁.advances ha₃,
      he', hp', haddr, τ, heτ, Env.shape_eq_some.2 ⟨_, hpt, hτ⟩⟩
  | .invoke l call, s, hs, hk, hp => by
    unfold stmt
    refine (ends_expr hf call s hs hk hp).seq fun e' s₁ h₁ => ?_
    obtain ⟨hs₁, hm, he'⟩ := h₁
    exact Ends.value ⟨hs₁, hm.advances, he'⟩
  | .return l result, s, hs, hk, hp => by
    unfold stmt
    split
    next expected e =>
      refine (ends_assigned hf hs hk (hp e rfl)).seq fun e' s₁ h₁ => ?_
      obtain ⟨hs₁, hm, he', σ, hσ, heσ⟩ := h₁
      exact Ends.value ⟨hs₁, hm.advances, he', expected, σ, rfl, hσ, heσ⟩
    · exact Ends.refused
    · exact Ends.refused
    · exact Ends.value ⟨hs, Advances.passage.refl s, trivial⟩
  | .choose l branches, s, hs, hk, hp => by
    unfold stmt
    refine (ends_choices hf branches s hs hk hp).seq fun b s₁ h₁ => ?_
    exact Ends.value h₁
  | .count l counter start finish step body temps, s, hs, hk,
      ⟨⟨hpc, hps, hpf, hpstep⟩, hpb⟩ => by
    unfold stmt
    refine (ends_value hf hs hk hps).seq fun r s₁ h₁ => ?_
    obtain ⟨hs₁, hm₁, hr, hrt⟩ := h₁
    obtain ⟨σ, hσ⟩ := hr.exists_shape hrt
    refine (ends_infer hs₁ hσ counter).seq fun _ s₂ h₂ => ?_
    obtain ⟨hs₂, ha₂⟩ := h₂
    have ha : Advances s s₂ := Advances.passage.trans hm₁.advances ha₂
    refine (ends_target hf hs₂ (hk.extends ha.types) (hpc.extends ha.types)).seq
      fun c s₃ h₃ => ?_
    obtain ⟨hs₃, hm₃, hc, hct, haddr⟩ := h₃
    have ha₃ := Advances.passage.trans ha₂ hm₃.advances
    refine Ends.reads ?_
    dsimp only
    split
    next hnum =>
      obtain ⟨u, hu, hn⟩ := TypeTable.isNumeric_iff.1 hnum
      have hcu : (s₃.env sigs visible).shape c.1.info = some (.scalar u) :=
        Env.shape_eq_some.2 ⟨_, hct, hu⟩
      refine (ends_coerce hs₃ (hr.extends ha₃.env)).seq fun start' s₄ h₄ => ?_
      obtain ⟨rfl, hstart, τ, hτ, hsτ⟩ := h₄
      obtain rfl : Shape.scalar u = τ := Option.some.inj (hu.symm.trans hτ)
      have ha₄ : Advances s s₄ := Advances.passage.trans hm₁.advances ha₃
      refine (ends_assigned hf hs₃ (hk.extends ha₄.types) (hpf.extends ha₄.types)).seq
        fun finish' s₅ h₅ => ?_
      obtain ⟨hs₅, hm₅, hfin, τ, hτ, hfτ⟩ := h₅
      obtain rfl : Shape.scalar u = τ := Option.some.inj ((hm₅.types.shape? hu).symm.trans hτ)
      have ha₅ : Advances s s₅ := Advances.passage.trans ha₄ hm₅.advances
      -- The step may be missing; either way the body follows.
      have rest (s₆ : CheckState) (hs₆ : s₆.Sound lengths) (hm₆ : Moves s₅ s₆) (step' : Option Expr)
          (hstep : ∀ e, step' = some e → e.Typed (s₆.env sigs visible) ∧
            (s₆.env sigs visible).shape e.info = some (.scalar u)) :
          Ends (do
            let step ← pure step'
            let body ← stmts sigs constantType returns body
            pure (Stmt.count l c.1 start' finish' step body temps)) s₆ fun t' s' =>
              s'.Sound lengths ∧ Advances s s' ∧ t'.Typed (s'.env sigs visible) returns := by
        have ha₆ : Advances s s₆ := Advances.passage.trans ha₅ hm₆.advances
        refine Ends.seq (Ends.value (Q := fun a s' => a = step' ∧ s' = s₆) ⟨rfl, rfl⟩) ?_
        rintro _ _ ⟨rfl, rfl⟩
        refine (ends_stmts hf body _ hs₆ (hk.extends ha₆.types) (hpb.extends ha₆.types)).seq
          fun body' s₇ h₇ => ?_
        obtain ⟨hs₇, ha₇, hb⟩ := h₇
        have h₅₇ : (s₅.env sigs visible).Extends (s₇.env sigs visible) :=
          hm₆.env.trans ha₇.env
        have h₄₇ : (s₄.env sigs visible).Extends (s₇.env sigs visible) := hm₅.env.trans h₅₇
        exact Ends.value ⟨hs₇, Advances.passage.trans ha₆ ha₇,
          ⟨⟨hc.extends h₄₇, haddr, hstart.extends h₄₇, hfin.extends h₅₇, .scalar u, hn,
            h₄₇.shape hcu, h₄₇.shape hsτ, h₅₇.shape hfτ, fun e he =>
              ⟨(hstep e he).1.extends ha₇.env, ha₇.env.shape (hstep e he).2⟩⟩, hb⟩⟩
      split
      next e =>
        refine (ends_assigned hf hs₅ (hk.extends ha₅.types)
          ((hpstep e rfl).extends ha₅.types)).seq fun e' s₆ h₆ => ?_
        obtain ⟨hs₆, hm₆, he', τ, hτ, heτ⟩ := h₆
        obtain rfl : Shape.scalar u = τ := Option.some.inj
          ((hm₆.types.shape? (hm₅.types.shape? hu)).symm.trans hτ)
        refine rest s₆ hs₆ hm₆ (some e') fun x hx => ?_
        obtain rfl : e' = x := Option.some.inj hx
        exact ⟨he', heτ⟩
      next => exact rest s₅ hs₅ (Moves.passage.refl s₅) none (by simp)
    next => exact Ends.refused_seq
  | .loop l test body, s, hs, hk, ⟨hpt, hpb⟩ => by
    unfold stmt
    have rest (s₁ : CheckState) (hs₁ : s₁.Sound lengths) (hm₁ : Moves s s₁) (test' : Option Condition)
        (htest : ∀ c, test' = some c → c.value.Typed (s₁.env sigs visible) ∧
          (s₁.env sigs visible).shape c.value.info = some (.scalar .boolean)) :
        Ends (do
          let test ← pure test'
          let body ← stmts sigs constantType returns body
          pure (Stmt.loop l test body)) s₁ fun t' s' =>
            s'.Sound lengths ∧ Advances s s' ∧ t'.Typed (s'.env sigs visible) returns := by
      refine Ends.seq (Ends.value (Q := fun a s' => a = test' ∧ s' = s₁) ⟨rfl, rfl⟩) ?_
      rintro _ _ ⟨rfl, rfl⟩
      refine (ends_stmts hf body _ hs₁ (hk.extends hm₁.types) (hpb.extends hm₁.types)).seq
        fun body' s₂ h₂ => ?_
      obtain ⟨hs₂, ha₂, hb⟩ := h₂
      exact Ends.value ⟨hs₂, Advances.passage.trans hm₁.advances ha₂, ⟨fun c hc =>
        ⟨(htest c hc).1.extends ha₂.env, ha₂.env.shape (htest c hc).2⟩, hb⟩⟩
    dsimp only
    split
    next c =>
      refine (ends_condition hf hs hk (hpt c rfl)).seq fun e' s₁ h₁ => ?_
      obtain ⟨hs₁, hm₁, he', hσ⟩ := h₁
      refine rest s₁ hs₁ hm₁ _ fun d hd => ?_
      obtain rfl := Option.some.inj hd
      exact ⟨he', hσ⟩
    next => exact rest s hs (Moves.passage.refl s) none (by simp)

/-- **Checking statements gives statements whose types are right in what is known after the last
one.** -/
theorem ends_stmts (hf : Finds lengths constantType) :
    (l : List Stmt) → (s : CheckState) → s.Sound lengths → sigs.Known s.types →
      Stmt.PlainAll s.types visible l →
      Ends (stmts sigs constantType returns l) s fun l' s' => s'.Sound lengths ∧ Advances s s' ∧
        Stmt.TypedAll (s'.env sigs visible) returns l'
  | [], s, hs, _, _ => Ends.value ⟨hs, Advances.passage.refl s, trivial⟩
  | t :: rest, s, hs, hk, ⟨hpt, hpr⟩ => by
    unfold stmts
    refine (ends_stmt hf t s hs hk hpt).seq fun t' s₁ h₁ => ?_
    obtain ⟨hs₁, ha₁, ht⟩ := h₁
    refine (ends_stmts hf rest s₁ hs₁ (hk.extends ha₁.types) (hpr.extends ha₁.types)).seq
      fun rest' s₂ h₂ => ?_
    obtain ⟨hs₂, ha₂, hr⟩ := h₂
    exact Ends.value ⟨hs₂, Advances.passage.trans ha₁ ha₂, ht.extends ha₂.env, hr⟩

/-- Checking branches gives branches whose types are right. -/
theorem ends_choices (hf : Finds lengths constantType) :
    (b : Branches) → (s : CheckState) → s.Sound lengths → sigs.Known s.types → b.Plain s.types visible →
      Ends (choices sigs constantType returns b) s fun b' s' => s'.Sound lengths ∧ Advances s s' ∧
        b'.Typed (s'.env sigs visible) returns
  | .done, s, hs, _, _ => Ends.value ⟨hs, Advances.passage.refl s, trivial⟩
  | .otherwise body, s, hs, hk, hp => by
    unfold choices
    refine (ends_stmts hf body s hs hk hp).seq fun body' s₁ h₁ => ?_
    exact Ends.value h₁
  | .branch test body rest, s, hs, hk, ⟨hpt, hpb, hpr⟩ => by
    unfold choices
    refine (ends_condition hf hs hk hpt).seq fun test' s₁ h₁ => ?_
    obtain ⟨hs₁, hm₁, ht, hσ⟩ := h₁
    refine (ends_stmts hf body s₁ hs₁ (hk.extends hm₁.types) (hpb.extends hm₁.types)).seq
      fun body' s₂ h₂ => ?_
    obtain ⟨hs₂, ha₂, hb⟩ := h₂
    have ha : Advances s s₂ := Advances.passage.trans hm₁.advances ha₂
    refine (ends_choices hf rest s₂ hs₂ (hk.extends ha.types) (hpr.extends ha.types)).seq
      fun rest' s₃ h₃ => ?_
    obtain ⟨hs₃, ha₃, hr⟩ := h₃
    have h₁₃ : (s₁.env sigs visible).Extends (s₃.env sigs visible) := ha₂.env.trans ha₃.env
    exact Ends.value ⟨hs₃, Advances.passage.trans ha ha₃, ⟨ht.extends h₁₃, h₁₃.shape hσ⟩,
      hb.extends ha₃.env, hr⟩

end

/-! ## Variables -/

mutual

theorem variables_stmt : (t : Stmt) → (s : CheckState) →
    Ends (stmt sigs constantType returns t) s fun t' _ => t'.variables = t.variables
  | .var l index first, s => by
    unfold stmt
    exact Ends.after fun _ _ => Ends.value rfl
  | .assign l first place, s => by
    unfold stmt
    refine Ends.after fun _ _ => Ends.after fun _ _ => Ends.after fun _ _ => ?_
    exact Ends.after fun _ _ => Ends.value rfl
  | .invoke l call, s => by
    unfold stmt
    exact Ends.after fun _ _ => Ends.value rfl
  | .return l result, s => by
    unfold stmt
    split
    · exact Ends.after fun _ _ => Ends.value rfl
    · exact Ends.refused
    · exact Ends.refused
    · exact Ends.value rfl
  | .choose l branches, s => by
    unfold stmt
    exact (variables_choices branches s).seq fun b s₁ h₁ => Ends.value h₁
  | .count l counter start finish step body temps, s => by
    unfold stmt
    refine Ends.after fun start' _ => Ends.after fun _ _ => Ends.after fun counter' s₁ => ?_
    refine Ends.reads ?_
    dsimp only
    split
    · refine Ends.after fun _ _ => Ends.after fun _ s₂ => ?_
      split
      · exact Ends.after fun _ s₃ => Ends.value_seq
          ((variables_stmts body s₃).seq fun b s₄ h₄ => Ends.value h₄)
      · exact Ends.value_seq ((variables_stmts body s₂).seq fun b s₄ h₄ => Ends.value h₄)
    · exact Ends.refused_seq
  | .loop l test body, s => by
    unfold stmt
    dsimp only
    split
    · exact Ends.after fun _ s₁ => Ends.value_seq
        ((variables_stmts body s₁).seq fun b s₂ h₂ => Ends.value h₂)
    · exact Ends.value_seq ((variables_stmts body s).seq fun b s₂ h₂ => Ends.value h₂)

/-- Checking keeps the variables that are declared. -/
theorem variables_stmts : (l : List Stmt) → (s : CheckState) →
    Ends (stmts sigs constantType returns l) s fun l' _ =>
      Stmt.variablesAll l' = Stmt.variablesAll l
  | [], s => Ends.value rfl
  | t :: rest, s => by
    unfold stmts
    refine (variables_stmt t s).seq fun t' s₁ h₁ => ?_
    refine (variables_stmts rest s₁).seq fun rest' s₂ h₂ => Ends.value ?_
    rw [Stmt.variablesAll, Stmt.variablesAll, h₁, h₂]

theorem variables_choices : (b : Branches) → (s : CheckState) →
    Ends (choices sigs constantType returns b) s fun b' _ => b'.variables = b.variables
  | .done, s => Ends.value rfl
  | .otherwise body, s => by
    unfold choices
    exact (variables_stmts body s).seq fun body' s₁ h₁ => Ends.value h₁
  | .branch test body rest, s => by
    unfold choices
    refine Ends.after fun _ s₁ => (variables_stmts body s₁).seq fun body' s₂ h₂ => ?_
    refine (variables_choices rest s₂).seq fun rest' s₃ h₃ => Ends.value ?_
    rw [Branches.variables, Branches.variables, h₂, h₃]

end

end Checking

end ChannelBasic
